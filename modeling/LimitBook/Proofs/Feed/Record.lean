import Mathlib.Data.List.DropRight
import LimitBook.Proofs.Feed.Tracker

namespace LimitBook

namespace Book

variable {α : Type} [Scalar α] {b b' : Book α} {u : LevelUpdate α} {us : List (LevelUpdate α)}

theorem applied_sequenceId (now : α) : (b.applied u now).2.sequenceId = b.sequenceId :=
  congrArg Prod.snd (applied_header now)

theorem Applies.sequenceId {fills : List (Fill α)} (h : Applies b us fills b') :
    b'.sequenceId = b.sequenceId := by
  induction h with
  | nil => rfl
  | cons u now _ ih => exact ih.trans (applied_sequenceId now)

theorem BrokenOff.sequenceId (h : BrokenOff u b us b') : b'.sequenceId = b.sequenceId := by
  induction h with
  | here => exact resize_sequenceId
  | later v now _ ih => exact ih.trans (applied_sequenceId now)

theorem accept_sequenceId (s : Submission α) (now : α) :
    (b.accept s now).2.sequenceId = b.sequenceId := congrArg Prod.snd (accept_header s now)

theorem remove_sequenceId (id : OrderId) : (b.remove id).2.sequenceId = b.sequenceId :=
  congrArg Prod.snd (remove_header id)

/-- Neither sets the number of the book nor resets it. -/
def Call.sparesNumber : Call α → Bool
  | .reset | .setSequenceId _ => false
  | .submit _ | .cancel _ | .updateLevel _ | .updateLevels _ | .depth _ => true

theorem Effect.sequenceId {c : Call α} {a : Answer α} (he : Effect b c a b')
    (hc : c.sparesNumber = true) : b'.sequenceId = b.sequenceId := by
  cases he with
  | refused | faulty | faultyBatch | shown => rfl
  | accepted now => exact accept_sequenceId _ now
  | cancelled id => exact remove_sequenceId id
  | cleared | numbered => cases hc
  | updated _ ha | batch _ ha => exact ha.sequenceId

theorem Aborted.sequenceId {c : Call α} {v : Option (LevelUpdate α)} (ha : Aborted b c v b') :
    b'.sequenceId = b.sequenceId := by
  cases ha with
  | unchanged => rfl
  | update _ h => exact h.sequenceId

end Book

namespace Feed

open Book BookM

variable {α ω : Type}

def Event.sparesNumber : Event α → Bool
  | .call c => c.sparesNumber
  | .snapshot _ | .increment _ | .resyncing => true

abbrev Entry (α : Type) := Event α × Except Fault (Outcome α)

namespace Entry

def restarts : Entry α → Bool
  | (.snapshot _, .ok (.restarted (.applied ..))) => true
  | _ => false

def breaksOff : Entry α → Bool
  | (.snapshot _, .error _) => true
  | _ => false

def number? : Entry α → Option α
  | (.snapshot e, .ok (.restarted (.applied ..))) => some e.seqId
  | (.increment e, .ok (.continued (.applied ..))) => some e.seqId
  | _ => none

def fault? : Entry α → Option (SequenceFault α)
  | (.increment _, .ok (.continued (.applied _ fault _))) => fault
  | _ => none

def marks : Entry α → Bool
  | (.resyncing, _) => true
  | _ => false

theorem fault?_of_marks {x : Entry α} (h : x.marks = true) : x.fault? = none := by
  obtain ⟨e, r⟩ := x
  cases e with
  | resyncing => rfl
  | call | snapshot | increment => cases h

end Entry

section Telling

/-- The number of the last event that has been applied, unless a snapshot has been broken off
since. -/
def lastNumber? (record : List (Entry α)) : Option α :=
  ((record.rtakeWhile (!·.breaksOff)).filterMap Entry.number?).getLast?

def sinceRestart (record : List (Entry α)) : List (Entry α) := record.rtakeWhile (!·.restarts)

def faultCount (record : List (Entry α)) : Nat :=
  (sinceRestart record).countP (·.fault?.isSome)

def syncState (record : List (Entry α)) : SyncState :=
  if (sinceRestart record).any (·.marks) then .resyncing
  else if 0 < faultCount record then .gap
  else if record.any (·.restarts) then .synced
  else .uninitialized

variable (record : List (Entry α)) (x : Entry α)

theorem lastNumber?_snoc :
    lastNumber? (record ++ [x]) =
      if x.breaksOff then none else x.number?.or (lastNumber? record) := by
  unfold lastNumber?
  rw [List.rtakeWhile_concat]
  by_cases hx : x.breaksOff = true
  · simp [hx]
  · rw [if_pos (by simpa using hx), if_neg hx, List.filterMap_append, List.filterMap_cons]
    cases x.number? <;> simp

theorem sinceRestart_snoc :
    sinceRestart (record ++ [x]) = if x.restarts then [] else sinceRestart record ++ [x] := by
  unfold sinceRestart
  rw [List.rtakeWhile_concat]
  by_cases hx : x.restarts = true
  · simp [hx]
  · rw [if_pos (by simpa using hx), if_neg hx]

theorem faultCount_snoc :
    faultCount (record ++ [x]) =
      if x.restarts then 0 else faultCount record + if x.fault?.isSome then 1 else 0 := by
  unfold faultCount
  rw [sinceRestart_snoc]
  split
  · rfl
  · rw [List.countP_append, List.countP_singleton]

theorem syncState_eq_resyncing :
    syncState record = .resyncing ↔ (sinceRestart record).any (·.marks) = true := by
  unfold syncState
  by_cases hm : (sinceRestart record).any (·.marks) = true
  · exact iff_of_true (if_pos hm) hm
  · rw [if_neg hm]
    refine iff_of_false ?_ hm
    split_ifs <;> simp

theorem syncState_snoc :
    syncState (record ++ [x]) =
      if x.restarts then .synced
      else if x.marks then .resyncing
      else if x.fault?.isSome then if syncState record = .resyncing then .resyncing else .gap
      else syncState record := by
  by_cases hr : x.restarts = true
  · simp [syncState, sinceRestart_snoc, faultCount_snoc, hr]
  have hrestarts : (record ++ [x]).any (·.restarts) = record.any (·.restarts) := by simp [hr]
  have hmarks : (sinceRestart record ++ [x]).any (·.marks) =
      ((sinceRestart record).any (·.marks) || x.marks) := by simp
  have hfaults : faultCount (record ++ [x]) =
      faultCount record + if x.fault?.isSome then 1 else 0 := by
    rw [faultCount_snoc, if_neg hr]
  rw [if_neg hr, syncState, sinceRestart_snoc, if_neg hr, hmarks, hfaults, hrestarts]
  by_cases hm : x.marks = true
  · rw [hm, Bool.or_true, if_pos rfl, if_pos rfl]
  rw [if_neg hm, Bool.eq_false_iff.mpr hm, Bool.or_false]
  by_cases hf : x.fault?.isSome = true
  · simp only [hf, if_true, Nat.succ_pos, syncState_eq_resyncing]
  · rw [if_neg hf, if_neg hf]
    rfl

def trackerOf : Tracker := ⟨syncState record, faultCount record⟩

theorem trackerOf_snoc :
    trackerOf (record ++ [x]) =
      if x.restarts then ⟨.synced, 0⟩
      else if x.marks then (trackerOf record).markResyncing
      else if x.fault?.isSome then (trackerOf record).afterFault
      else trackerOf record := by
  unfold trackerOf
  rw [syncState_snoc, faultCount_snoc]
  by_cases hr : x.restarts = true
  · rw [if_pos hr, if_pos hr, if_pos hr]
  rw [if_neg hr, if_neg hr, if_neg hr]
  by_cases hm : x.marks = true
  · rw [if_pos hm, if_pos hm, Entry.fault?_of_marks hm]
    rfl
  rw [if_neg hm, if_neg hm]
  by_cases hf : x.fault?.isSome = true
  · rw [if_pos hf, if_pos hf, if_pos hf]
    rfl
  · rw [if_neg hf, if_neg hf, if_neg hf]
    rfl

end Telling

variable [Scalar α]

section Events

variable {s s' : Book α × (Tracker × ω)} {clock : FeedM α ω α} {e : Event α}
  {r : Except Fault (Outcome α)}

theorem handle_sequenceId (hd : Discreet clock) (hb : s.1.busy = false)
    (hspares : e.sparesNumber = true) (hrun : (handle clock e).run s = (r, s')) :
    s'.1.sequenceId =
      if Entry.breaksOff (e, r) then none else (Entry.number? (e, r)).or s.1.sequenceId := by
  obtain ⟨a, b', w, hrun', he⟩ | ⟨err, b', w, hrun', -, ha⟩ := handle_ends hd hb e
  · rw [hrun] at hrun'
    cases hrun'
    cases he with
    | call hc => exact hc.sequenceId hspares
    | faultySnapshot | faultyIncrement | resyncing | snapshot | increment => rfl
  · rw [hrun] at hrun'
    cases hrun'
    cases ha with
    | call ha => exact ha.sequenceId
    | snapshot hu ha => exact ha.sequenceId
    | increment hu ha => exact ha.sequenceId

theorem handle_tracker (ha : Aloof clock) (hrun : (handle clock e).run s = (r, s')) :
    s'.2.1 =
      if Entry.restarts (e, r) then ⟨.synced, 0⟩
      else if Entry.marks (e, r) then s.2.1.markResyncing
      else if (Entry.fault? (e, r)).isSome then s.2.1.afterFault
      else s.2.1 := by
  cases e with
  | resyncing =>
    cases hrun
    rfl
  | call c => exact ((aloof_perform ha c).map _).tracker_eq hrun
  | snapshot e =>
    have ht := tracker_snapshot (s := s) ha e
    rw [handle, map_run] at hrun
    obtain ⟨rfl, rfl⟩ := Prod.mk.inj hrun
    refine ht.trans ?_
    cases ((applySnapshot clock e).run s).1 with
    | error => rfl
    | ok a => cases a <;> rfl
  | increment e =>
    have ht := tracker_increment (s := s) ha e
    rw [handle, map_run] at hrun
    obtain ⟨rfl, rfl⟩ := Prod.mk.inj hrun
    refine ht.trans ?_
    cases ((applyIncrement clock e).run s).1 with
    | error => rfl
    | ok a => cases a <;> rfl

/-- An increment is at fault if and only if a number was taken before it that is not the one it
names. -/
theorem continuityFault?_isSome {last : Option α} {e : Increment α} :
    (continuityFault? last e).isSome = true ↔
      ∃ n, last = some n ∧ (e.prevSeqId == n) = false := by
  cases last with
  | none => exact iff_of_false Bool.false_ne_true fun ⟨n, hn, _⟩ => by cases hn
  | some n =>
    unfold continuityFault?
    cases hprev : e.prevSeqId == n <;> simp [hprev]

theorem continuityFault?_eq_some {last : Option α} {e : Increment α} {f : SequenceFault α}
    (h : continuityFault? last e = some f) :
    last = some f.expectedPrev ∧ f.receivedPrev = e.prevSeqId ∧ f.seqId = e.seqId ∧
      (f.kind = .maintenanceReset ↔ e.seqId < e.prevSeqId) := by
  cases last with
  | none => cases h
  | some n =>
    unfold continuityFault? at h
    simp only at h
    split at h
    · cases h
    · cases h
      refine ⟨rfl, rfl, rfl, ?_⟩
      simp

theorem applied_fault (hd : Discreet clock) (hb : s.1.busy = false) {e : Increment α}
    {fills : List (Fill α)} {fault : Option (SequenceFault α)} {residual : Bool}
    (hrun : (applyIncrement clock e).run s = (.ok (.applied fills fault residual), s')) :
    fault = continuityFault? s.1.sequenceId e := by
  obtain ⟨r, b', w, hrun', he⟩ | ⟨_, _, _, hrun', -⟩ := applyIncrement_ends hd hb e
  · rw [hrun] at hrun'
    cases hrun'
    cases he
    rfl
  · rw [hrun] at hrun'
    cases hrun'

end Events

section Runs

variable {clock : FeedM α ω α} {s : Book α × (Tracker × ω)}

/-- Events and what has become of each. -/
def record (clock : FeedM α ω α) (events : List (Event α)) (s : Book α × (Tracker × ω)) :
    List (Entry α) :=
  events.zip (results clock events s)

theorem record_snoc (clock : FeedM α ω α) (events : List (Event α)) (e : Event α)
    (s : Book α × (Tracker × ω)) :
    record clock (events ++ [e]) s =
      record clock events s ++ [(e, ((handle clock e).run (after clock events s)).1)] := by
  induction events generalizing s with
  | nil => rfl
  | cons e' events ih => exact congrArg (List.cons _) (ih _)

theorem told_after (hd : Discreet clock) (ha : Aloof clock) {events : List (Event α)}
    (hspares : ∀ e ∈ events, e.sparesNumber = true) (symbol : Text) (w : ω) :
    let s₀ := (Book.empty symbol, (Tracker.initial, w))
    (after clock events s₀).1.sequenceId = lastNumber? (record clock events s₀) ∧
      (after clock events s₀).2.1 = trackerOf (record clock events s₀) := by
  intro s₀
  induction events using List.reverseRecOn with
  | nil => exact ⟨rfl, rfl⟩
  | append_singleton events e ih =>
    obtain ⟨hevents, he⟩ := List.forall_mem_append.mp hspares
    have he : e.sparesNumber = true := he e (List.mem_singleton.mpr rfl)
    obtain ⟨hn, ht⟩ := ih hevents
    rcases hrun : (handle clock e).run (after clock events s₀) with ⟨r, s'⟩
    have hn' := handle_sequenceId hd (free_after hd events symbol _) he hrun
    have ht' := handle_tracker ha hrun
    rw [after_snoc, record_snoc, lastNumber?_snoc, trackerOf_snoc, hrun]
    rw [hn] at hn'
    rw [ht] at ht'
    exact ⟨hn', ht'⟩

/-- A book that nobody else numbers or resets, and its tracker, are what the record of their events
says. The number is that of the last event applied, unless a snapshot has been broken off since; the
faults are those of the increments applied since the last accepted snapshot; the book is in step if
a snapshot has been accepted, with no fault and no wish for another one after it. An increment is at
fault if and only if a number was taken before it that is not the one it names. -/
theorem tracked_after (hd : Discreet clock) (ha : Aloof clock) {events : List (Event α)}
    (hspares : ∀ e ∈ events, e.sparesNumber = true) (symbol : Text) (w : ω) :
    let s₀ := (Book.empty symbol, (Tracker.initial, w))
    let s := after clock events s₀
    s.1.sequenceId = lastNumber? (record clock events s₀) ∧
      s.2.1.faults = faultCount (record clock events s₀) ∧
      s.2.1.state = syncState (record clock events s₀) ∧
      ∀ (e : Increment α) fills fault residual s',
        (applyIncrement clock e).run s = (.ok (.applied fills fault residual), s') →
          (fault.isSome = true ↔
            ∃ n, s.1.sequenceId = some n ∧ (e.prevSeqId == n) = false) ∧
          ∀ f, fault = some f → s.1.sequenceId = some f.expectedPrev ∧
            f.receivedPrev = e.prevSeqId ∧ f.seqId = e.seqId ∧
              (f.kind = .maintenanceReset ↔ e.seqId < e.prevSeqId) := by
  intro s₀ s
  obtain ⟨hn, ht⟩ := told_after hd ha hspares symbol w
  refine ⟨hn, congrArg Tracker.faults ht, congrArg Tracker.state ht, ?_⟩
  intro e fills fault residual s' hrun
  obtain rfl := applied_fault hd (free_after hd events symbol _) hrun
  exact ⟨continuityFault?_isSome, fun f hf => continuityFault?_eq_some hf⟩

def unsteadyEvents : List (Event Float) :=
  [.snapshot ⟨1, [⟨.buy, 100, 5⟩]⟩, .increment ⟨3, 2, []⟩, .resyncing,
    .snapshot ⟨5, [⟨.buy, 0, 1⟩]⟩, .increment ⟨2, 9, []⟩]

theorem tracked_after_unsteadyEvents :
    let s := after (pure 0) unsteadyEvents (Book.empty [], (Tracker.initial, ()))
    Discreet (pure 0 : FeedM Float Unit Float) ∧ Aloof (pure 0 : FeedM Float Unit Float) ∧
      (∀ e ∈ unsteadyEvents, e.sparesNumber = true) ∧
        s.1.sequenceId = some 2 ∧ s.2.1.faults = 2 ∧ s.2.1.state = .resyncing := by
  have hspares : ∀ e ∈ unsteadyEvents, e.sparesNumber = true := by
    simp [unsteadyEvents, Event.sparesNumber]
  obtain ⟨hn, hfaults, hstate, -⟩ :=
    tracked_after (discreet_pure 0) (aloof_pure 0) hspares [] ()
  refine ⟨discreet_pure 0, aloof_pure 0, hspares, hn.trans ?_, hfaults.trans ?_, hstate.trans ?_⟩
  all_goals decide +kernel

def prying : FeedM Float Unit Float := do
  let _ ← perform (pure 0) (.depth 5)
  return 0

theorem discreet_prying : Discreet prying :=
  (discreet_perform (pure 0) (.depth 5)).bind fun _ => discreet_pure 0

theorem aloof_prying : Aloof prying :=
  (aloof_perform (aloof_pure 0) (.depth 5)).bind fun _ => aloof_pure 0

/-- A snapshot that is applied, and one that the clock breaks off. -/
def brokenRestart : List (Event Float) := [.snapshot ⟨1, []⟩, .snapshot ⟨2, [⟨.buy, 100, 5⟩]⟩]

/-- The book that the second snapshot was to fill has lost the number of the first, which is still
the last event that has been applied. -/
theorem unnumbered_of_brokenRestart :
    let s₀ := (Book.empty [], (Tracker.initial, ()))
    Discreet prying ∧ Aloof prying ∧
      ((record prying brokenRestart s₀).filterMap Entry.number?).getLast? = some 1 ∧
        (after prying brokenRestart s₀).1.sequenceId = none := by
  refine ⟨discreet_prying, aloof_prying, ?_⟩
  decide +kernel

end Runs

end Feed

end LimitBook
