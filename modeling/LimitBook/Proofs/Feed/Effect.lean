import LimitBook.Proofs.Book.Effect
import LimitBook.Proofs.Feed.Journal

namespace LimitBook.Feed

open Book BookM

variable {α ω : Type} [Scalar α]

/-- The outcome of an event of `b`, and the book after it. -/
inductive Effect (b : Book α) : Event α → Outcome α → Book α → Prop where
  | call {b' : Book α} {c : Call α} {a : Answer α} (h : Book.Effect b c a b') :
      Effect b (.call c) (.answered a) b'
  | faultySnapshot {e : Snapshot α} {f : UpdateFault × LevelUpdate α}
      (h : LevelUpdate.firstFault? e.updates = some f) :
      Effect b (.snapshot e) (.restarted (.rejected f.1 f.2)) b
  | snapshot {b' : Book α} {e : Snapshot α} {fills : List (Fill α)}
      (h : LevelUpdate.firstFault? e.updates = none) (hu : Applies b.clear e.updates fills b') :
      Effect b (.snapshot e)
        (.restarted (.applied fills none (!e.updates.isEmpty && b'.crossed)))
        { b' with sequenceId := some e.seqId }
  | faultyIncrement {e : Increment α} {f : UpdateFault × LevelUpdate α}
      (h : LevelUpdate.firstFault? e.updates = some f) :
      Effect b (.increment e) (.continued (.rejected f.1 f.2)) b
  | increment {b' : Book α} {e : Increment α} {fills : List (Fill α)}
      (h : LevelUpdate.firstFault? e.updates = none) (hu : Applies b e.updates fills b') :
      Effect b (.increment e)
        (.continued (.applied fills (continuityFault? b.sequenceId e)
          (!e.updates.isEmpty && b'.crossed)))
        { b' with sequenceId := some e.seqId }
  | resyncing : Effect b .resyncing .noted b

/-- The book that is left of `b` when the clock breaks an event off. -/
inductive Aborted (b : Book α) : Event α → Book α → Prop where
  | call {b' : Book α} {c : Call α} {u : Option (LevelUpdate α)} (h : Book.Aborted b c u b') :
      Aborted b (.call c) b'
  | snapshot {b' : Book α} {e : Snapshot α} {u : LevelUpdate α}
      (h : LevelUpdate.firstFault? e.updates = none) (hu : BrokenOff u b.clear e.updates b') :
      Aborted b (.snapshot e) b'
  | increment {b' : Book α} {e : Increment α} {u : LevelUpdate α}
      (h : LevelUpdate.firstFault? e.updates = none) (hu : BrokenOff u b e.updates b') :
      Aborted b (.increment e) b'

def Outcome.fills : Outcome α → List (Fill α)
  | .answered a => a.fills
  | .restarted (.applied fills _ _) | .continued (.applied fills _ _) => fills
  | .restarted (.rejected ..) | .continued (.rejected ..) | .noted => []

theorem Effect.sound [Scalar.Lawful α] {b b' : Book α} {e : Event α} {r : Outcome α}
    (he : Effect b e r b') (h : b.Sound) : b'.Sound := by
  cases he with
  | call hc => exact hc.sound h
  | faultySnapshot | faultyIncrement | resyncing => exact h
  | snapshot hu ha => exact (ha.sound h.clear (firstFault?_eq_none hu)).numbered _
  | increment hu ha => exact (ha.sound h (firstFault?_eq_none hu)).numbered _

theorem Effect.filed [Scalar.Lawful α] {b b' : Book α} {e : Event α} {r : Outcome α}
    (he : Effect b e r b') (h : b.Filed) : b'.Filed := by
  cases he with
  | call hc => exact hc.filed h
  | faultySnapshot | faultyIncrement | resyncing => exact h
  | snapshot hu ha => exact (ha.filed h.clear (firstFault?_eq_none hu)).numbered _
  | increment hu ha => exact (ha.filed h (firstFault?_eq_none hu)).numbered _

theorem Aborted.filed [Scalar.Lawful α] {b b' : Book α} {e : Event α} (ha : Aborted b e b')
    (h : b.Filed) : b'.Filed := by
  cases ha with
  | call hc => exact hc.filed h
  | snapshot hu hb => exact hb.filed h.clear (firstFault?_eq_none hu)
  | increment hu hb => exact hb.filed h (firstFault?_eq_none hu)

section Events

variable {s : Book α × (Tracker × ω)} {clock : FeedM α ω α}

theorem applySnapshot_ends (hd : Discreet clock) (hb : s.1.busy = false) (e : Snapshot α) :
    Ends clock (applySnapshot clock e) s (fun r => Effect s.1.shut (.snapshot e) (.restarted r))
      (Aborted s.1.shut (.snapshot e)) := by
  unfold applySnapshot
  cases hu : LevelUpdate.firstFault? e.updates with
  | some f =>
    have heffect := Effect.faultySnapshot (b := s.1.shut) hu
    exact .inl ⟨.rejected f.1 f.2, s.1.shut, s.2, by rw [reopened_shut hb]; rfl, heffect⟩
  | none =>
    have hreset : (Book.reset : FeedM α ω Unit).run s = (.ok (), (s.1.clear.reopened, s.2)) :=
      exclusive_run .reset _ hb
    obtain ⟨r, b', w, hrun, he⟩ | ⟨err, b', w, hrun, herr, -, u, hbroken⟩ :=
      updateLevels_ends (s := (s.1.clear.reopened, s.2)) hd rfl e.updates
    · have hnumber : (Book.setSequenceId (some e.seqId) : FeedM α ω Unit).run (b'.reopened, w) =
          (.ok (), ({ b' with sequenceId := some e.seqId }.reopened, w)) :=
        exclusive_run .setSequenceId _ rfl
      cases he with
      | faultyBatch hf =>
        rw [hu] at hf
        cases hf
      | batch hf ha =>
        refine .inl ⟨_, { b' with sequenceId := some e.seqId }, (w.1.afterSnapshot, w.2), ?_,
          .snapshot hu ha⟩
        simp only [bind_run, hreset, hrun, hnumber]
        rfl
    · refine .inr ⟨err, b', w, ?_, herr, .snapshot hu hbroken⟩
      simp only [bind_run, hreset, hrun]

theorem applyIncrement_run {e : Increment α} {fills : List (Fill α)} {residual : Bool}
    {s' : Book α × (Tracker × ω)}
    (hrun : (updateLevels clock e.updates).run s = (.ok (.applied fills residual), s'))
    (hb : s'.1.busy = false) :
    (applyIncrement clock e).run s =
      (.ok (.applied fills (continuityFault? s.1.sequenceId e) residual),
        ({ s'.1 with sequenceId := some e.seqId }.reopened,
          (if (continuityFault? s.1.sequenceId e).isSome then s'.2.1.afterFault else s'.2.1,
            s'.2.2))) := by
  have hnumber : ∀ t : Tracker × ω, (Book.setSequenceId (some e.seqId) : FeedM α ω Unit).run
      (s'.1, t) = (.ok (), ({ s'.1 with sequenceId := some e.seqId }.reopened, t)) := fun t =>
    exclusive_run (s := (s'.1, t)) .setSequenceId _ hb
  unfold applyIncrement
  simp only [bind_run, book_run, hrun]
  cases (continuityFault? s.1.sequenceId e).isSome with
  | true =>
    have hfault : (modifyTracker Tracker.afterFault : FeedM α ω Unit).run s' =
        (.ok (), (s'.1, (s'.2.1.afterFault, s'.2.2))) := rfl
    simp only [if_true, bind_run, hfault, hnumber]
    rfl
  | false =>
    simp only [Bool.false_eq_true, if_false, bind_run, hnumber s'.2]
    rfl

theorem applyIncrement_ends (hd : Discreet clock) (hb : s.1.busy = false) (e : Increment α) :
    Ends clock (applyIncrement clock e) s (fun r => Effect s.1.shut (.increment e) (.continued r))
      (Aborted s.1.shut (.increment e)) := by
  obtain ⟨r, b', w, hrun, he⟩ | ⟨err, b', w, hrun, herr, hu, u, hbroken⟩ :=
    updateLevels_ends hd hb e.updates
  · cases he with
    | faultyBatch hf =>
      refine .inl ⟨_, s.1.shut, w, ?_, .faultyIncrement hf⟩
      unfold applyIncrement
      simp only [bind_run, book_run, hrun]
      rfl
    | batch hf ha =>
      exact .inl ⟨_, { b' with sequenceId := some e.seqId }, _, applyIncrement_run hrun rfl,
        .increment hf ha⟩
  · refine .inr ⟨err, b', w, ?_, herr, .increment hu hbroken⟩
    unfold applyIncrement
    simp only [bind_run, book_run, hrun]

/-- An event of a free book does one of the things that events do, unless the clock breaks it
off. -/
theorem handle_ends (hd : Discreet clock) (hb : s.1.busy = false) (e : Event α) :
    Ends clock (handle clock e) s (Effect s.1.shut e) (Aborted s.1.shut e) := by
  cases e with
  | call c =>
    obtain ⟨a, b', w, hrun, he⟩ | ⟨err, b', w, hrun, herr, u, ha⟩ := perform_ends hd hb c
    · exact .inl (.map _ ⟨a, b', w, hrun, .call he⟩)
    · exact .map _ (.inr ⟨err, b', w, hrun, herr, .call ha⟩)
  | snapshot e => exact .map _ (applySnapshot_ends hd hb e)
  | increment e => exact .map _ (applyIncrement_ends hd hb e)
  | resyncing =>
    refine .inl (.map _ ⟨(), s.1.shut, (s.2.1.markResyncing, s.2.2), ?_, .resyncing⟩)
    rw [reopened_shut hb]
    rfl

theorem handle_yields (hd : Discreet clock) (hr : Reliable clock) (hb : s.1.busy = false)
    (e : Event α) : Yields (handle clock e) s (Effect s.1.shut e) :=
  (handle_ends hd hb e).yields hr

theorem handle_busy (hd : Discreet clock) (hb : s.1.busy = false) (e : Event α) :
    ((handle clock e).run s).2.1.busy = false := by
  obtain ⟨_, b', w, hrun, -⟩ | ⟨_, b', w, hrun, -⟩ := handle_ends hd hb e <;>
  · rw [hrun]
    rfl

end Events

section Runs

/-- A book and its surroundings after some events. -/
def after (clock : FeedM α ω α) (events : List (Event α)) (s : Book α × (Tracker × ω)) :
    Book α × (Tracker × ω) :=
  events.foldl (fun s e => ((handle clock e).run s).2) s

/-- What has become of each of some events. -/
def results (clock : FeedM α ω α) :
    List (Event α) → Book α × (Tracker × ω) → List (Except Fault (Outcome α))
  | [], _ => []
  | e :: events, s => ((handle clock e).run s).1 :: results clock events ((handle clock e).run s).2

variable {s : Book α × (Tracker × ω)} {clock : FeedM α ω α}

theorem after_cons {e : Event α} {r : Except Fault (Outcome α)} {s' : Book α × (Tracker × ω)}
    (h : (handle clock e).run s = (r, s')) (events : List (Event α)) :
    after clock (e :: events) s = after clock events s' := by
  rw [after, List.foldl_cons, h]
  rfl

theorem after_snoc (clock : FeedM α ω α) (events : List (Event α)) (e : Event α)
    (s : Book α × (Tracker × ω)) :
    after clock (events ++ [e]) s = ((handle clock e).run (after clock events s)).2 :=
  List.foldl_append ..

theorem free_after (hd : Discreet clock) (events : List (Event α)) (symbol : Text)
    (w : Tracker × ω) : (after clock events (Book.empty symbol, w)).1.busy = false := by
  induction events using List.reverseRecOn with
  | nil => rfl
  | append_singleton events e ih =>
    rw [after_snoc]
    exact handle_busy hd ih e

theorem results_cons {e : Event α} {r : Except Fault (Outcome α)} {s' : Book α × (Tracker × ω)}
    (h : (handle clock e).run s = (r, s')) (events : List (Event α)) :
    results clock (e :: events) s = r :: results clock events s' := by rw [results, h]

def Succeeded (rs : List (Except Fault (Outcome α))) : Prop := ∀ r ∈ rs, r.isOk = true

theorem succeeded_of_reliable (hd : Discreet clock) (hr : Reliable clock) (events : List (Event α))
    (hb : s.1.busy = false) : Succeeded (results clock events s) := by
  induction events generalizing s with
  | nil => exact fun r hr => by cases hr
  | cons e events ih =>
    obtain ⟨r, b', w, hrun, -⟩ := handle_yields hd hr hb e
    rw [results_cons hrun]
    exact List.forall_mem_cons.mpr ⟨rfl, ih rfl⟩

theorem filed_after [Scalar.Lawful α] (hd : Discreet clock) (events : List (Event α))
    (symbol : Text) (w : Tracker × ω) : (after clock events (Book.empty symbol, w)).1.Filed := by
  induction events using List.reverseRecOn with
  | nil => exact filed_empty symbol
  | append_singleton events e ih =>
    rw [after_snoc]
    obtain ⟨r, b', w', hrun, he⟩ | ⟨err, b', w', hrun, -, ha⟩ :=
      handle_ends hd (free_after hd events symbol w) e
    · rw [hrun]
      exact (he.filed ih.shut).reopened
    · rw [hrun]
      exact (ha.filed ih.shut).reopened

theorem sound_of_sound [Scalar.Lawful α] (hd : Discreet clock) (hr : Reliable clock)
    (events : List (Event α)) (h : s.1.Sound) (hb : s.1.busy = false) :
    (after clock events s).1.Sound ∧ (after clock events s).1.busy = false := by
  induction events generalizing s with
  | nil => exact ⟨h, hb⟩
  | cons e events ih =>
    obtain ⟨r, b', w, hrun, he⟩ := handle_yields hd hr hb e
    rw [after_cons hrun]
    exact ih (he.sound h.shut).reopened rfl

theorem sound_after [Scalar.Lawful α] (hd : Discreet clock) (hr : Reliable clock)
    (events : List (Event α)) (symbol : Text) (w : Tracker × ω) :
    (after clock events (Book.empty symbol, w)).1.Sound ∧
      (after clock events (Book.empty symbol, w)).1.busy = false :=
  sound_of_sound hd hr events (sound_empty symbol) rfl

end Runs

end LimitBook.Feed
