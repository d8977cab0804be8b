import LimitBook.Proofs.Book.Header
import LimitBook.Proofs.Feed.Effect

namespace LimitBook

namespace Book

variable {α : Type}

theorem release_sequenceId (b : Book α) (os : List (Order α)) :
    (b.release os).sequenceId = b.sequenceId := congrArg Prod.snd (release_header b os)

variable [Scalar α] {b : Book α} {u : LevelUpdate α}

theorem resize_sequenceId : (b.resize u).sequenceId = b.sequenceId :=
  congrArg Prod.snd resize_header

theorem stamp_sequenceId (now : α) : (b.stamp u now).sequenceId = b.sequenceId :=
  congrArg Prod.snd (stamp_header now)

theorem dropAggregate_sequenceId : (b.dropAggregate u).sequenceId = b.sequenceId :=
  congrArg Prod.snd dropAggregate_header

end Book

namespace Feed

open Book BookM

variable {α ω β γ : Type} [Scalar α]

def Tracker.Stays (t t' : Tracker) : Prop := t' = t ∨ t' = t.markResyncing

theorem Tracker.Stays.refl (t : Tracker) : t.Stays t := .inl rfl

theorem Tracker.Stays.trans {t t' t'' : Tracker} (h : t.Stays t') (h' : t'.Stays t'') :
    t.Stays t'' := by
  obtain rfl | rfl := h
  · exact h'
  · obtain rfl | rfl := h' <;> exact .inr rfl

theorem Tracker.Stays.faults {t t' : Tracker} (h : t.Stays t') : t'.faults = t.faults := by
  obtain rfl | rfl := h <;> rfl

theorem Tracker.Stays.synced {t t' : Tracker} (h : t.Stays t') (hs : t'.state = .synced) :
    t.state = .synced := by
  obtain rfl | rfl := h
  · exact hs
  · cases hs

@[simp]
theorem Tracker.faults_afterFault (t : Tracker) : t.afterFault.faults = t.faults + 1 := rfl

theorem Tracker.afterFault_unsynced (t : Tracker) : t.afterFault.state ≠ .synced := by
  unfold Tracker.afterFault
  split <;> simp

/-- While an operation is running, the book stays shut and keeps its number, and the tracker is at
most marked. -/
def Steady (m : FeedM α ω β) : Prop :=
  ∀ s, s.1.busy = true → (m.run s).2.1.busy = true ∧
    (m.run s).2.1.sequenceId = s.1.sequenceId ∧ s.2.1.Stays (m.run s).2.2.1

omit [Scalar α] in
theorem steady_pure (a : β) : Steady (pure a : FeedM α ω β) := fun _ hb => ⟨hb, rfl, .refl _⟩

omit [Scalar α] in
theorem Steady.bind {m : FeedM α ω β} {f : β → FeedM α ω γ} (hm : Steady m)
    (hf : ∀ a, Steady (f a)) : Steady (m >>= f) := by
  intro s hb
  obtain ⟨hb', hn, ht⟩ := hm s hb
  rw [bind_run]
  rcases hrun : m.run s with ⟨_ | a, s'⟩
  · rw [hrun] at hb' hn ht
    exact ⟨hb', hn, ht⟩
  · rw [hrun] at hb' hn ht
    obtain ⟨hb'', hn', ht'⟩ := hf a s' hb'
    exact ⟨hb'', hn'.trans hn, ht.trans ht'⟩

omit [Scalar α] in
theorem steady_modifyBook {f : Book α → Book α} (hb : ∀ b, (f b).busy = b.busy)
    (hn : ∀ b, (f b).sequenceId = b.sequenceId) : Steady (modifyBook f : FeedM α ω Unit) :=
  fun s hs => ⟨(hb s.1).trans hs, hn s.1, .refl _⟩

omit [Scalar α] in
theorem steady_modifyGetBook {f : Book α → β × Book α} (hb : ∀ b, (f b).2.busy = b.busy)
    (hn : ∀ b, (f b).2.sequenceId = b.sequenceId) : Steady (modifyGetBook f : FeedM α ω β) :=
  fun s hs => ⟨(hb s.1).trans hs, hn s.1, .refl _⟩

variable {clock : FeedM α ω α} {s : Book α × (Tracker × ω)}

theorem steady_applyLevel (hc : Steady clock) (u : LevelUpdate α) :
    Steady (applyLevel clock u) := by
  have huncross : Steady (modifyGetBook Book.uncross : FeedM α ω (List (Fill α) × Bool)) :=
    steady_modifyGetBook (fun b => release_busy _) fun b => release_sequenceId _ _
  unfold applyLevel
  split
  · refine Steady.bind ?_ fun _ => huncross
    exact steady_modifyBook (fun b => dropAggregate_busy) fun b => dropAggregate_sequenceId
  · refine Steady.bind ?_ fun _ => hc.bind fun now => Steady.bind ?_ fun _ => huncross
    · exact steady_modifyBook (fun b => resize_busy) fun b => resize_sequenceId
    · exact steady_modifyBook (fun b => stamp_busy now) fun b => stamp_sequenceId now

theorem steady_applyLevels (hc : Steady clock) (us : List (LevelUpdate α))
    (r : List (Fill α) × Bool) : Steady (applyLevels clock us r) := by
  induction us generalizing r with
  | nil => exact steady_pure r
  | cons u us ih => exact (steady_applyLevel hc u).bind fun _ => ih _

omit [Scalar α] in
theorem Steady.exclusive {m : FeedM α ω β} (hm : Steady m) (operation : Operation)
    (hb : s.1.busy = false) :
    ((exclusive operation m).run s).2.1.busy = false ∧
      ((exclusive operation m).run s).2.1.sequenceId = s.1.sequenceId ∧
        s.2.1.Stays ((exclusive operation m).run s).2.2.1 := by
  rw [exclusive_run operation m hb]
  exact ⟨rfl, (hm (s.1.shut, s.2) rfl).2⟩

theorem steady_updateLevels (hc : Steady clock) (us : List (LevelUpdate α))
    (hb : s.1.busy = false) :
    ((updateLevels clock us).run s).2.1.busy = false ∧
      ((updateLevels clock us).run s).2.1.sequenceId = s.1.sequenceId ∧
        s.2.1.Stays ((updateLevels clock us).run s).2.2.1 := by
  refine Steady.exclusive ?_ .updateLevels hb
  cases LevelUpdate.firstFault? us with
  | some f => exact steady_pure _
  | none => exact (steady_applyLevels hc us _).bind fun _ => steady_pure _

omit [Scalar α] in
theorem steady_of_same {m : FeedM α ω β} (h : ∀ s, s.1.busy = true → (m.run s).2 = s) :
    Steady m := fun s hb => by
  rw [h s hb]
  exact ⟨hb, rfl, .refl _⟩

omit [Scalar α] in
theorem steady_exclusive (operation : Operation) (m : FeedM α ω β) :
    Steady (exclusive operation m) :=
  steady_of_same fun s hb => by rw [exclusive_refused operation m hb]

omit [Scalar α] in
theorem Steady.map {m : FeedM α ω β} (hm : Steady m) (f : β → γ) : Steady (f <$> m) := by
  intro s hb
  rw [map_run]
  exact hm s hb

theorem steady_handle (clock : FeedM α ω α) (e : Event α) : Steady (handle clock e) := by
  cases e with
  | call c => cases c <;> exact ((steady_exclusive _ _).map _).map _
  | snapshot e =>
    refine Steady.map ?_ _
    unfold applySnapshot
    cases LevelUpdate.firstFault? e.updates with
    | some f => exact steady_pure _
    | none =>
      refine steady_of_same fun s hb => ?_
      simp only [bind_run, Book.reset, exclusive_refused .reset _ hb]
  | increment e =>
    refine Steady.map (steady_of_same fun s hb => ?_) _
    unfold applyIncrement
    simp only [bind_run, book_run, Book.updateLevels, exclusive_refused .updateLevels _ hb]
  | resyncing =>
    have hmark : Steady (markResyncing : FeedM α ω Unit) := fun s hb => ⟨hb, rfl, .inr rfl⟩
    exact hmark.map _

omit [Scalar α] in
theorem bind_eq_ok {m : FeedM α ω β} {f : β → FeedM α ω γ} {s s' : Book α × (Tracker × ω)} {c : γ}
    (h : (m >>= f).run s = (.ok c, s')) :
    ∃ a s₁, m.run s = (.ok a, s₁) ∧ (f a).run s₁ = (.ok c, s') := by
  rw [bind_run] at h
  rcases hrun : m.run s with ⟨_ | a, s₁⟩
  · rw [hrun] at h
    cases h
  · rw [hrun] at h
    exact ⟨a, s₁, rfl, h⟩

theorem accepted_snapshot {s₀ : Book α × (Tracker × ω)} {e : Snapshot α} {fills : List (Fill α)}
    {fault : Option (SequenceFault α)} {residual : Bool}
    (h : (applySnapshot clock e).run s₀ = (.ok (.applied fills fault residual), s)) :
    s.1.busy = false ∧ s.1.sequenceId = some e.seqId ∧ s.2.1 = ⟨.synced, 0⟩ := by
  unfold applySnapshot at h
  cases hu : LevelUpdate.firstFault? e.updates with
  | some f =>
    rw [hu] at h
    cases h
  | none =>
    rw [hu] at h
    obtain ⟨_, s₁, -, h⟩ := bind_eq_ok h
    obtain ⟨r, s₂, -, h⟩ := bind_eq_ok h
    cases r with
    | rejected => cases h
    | applied =>
      obtain ⟨_, s₃, hnumber, h⟩ := bind_eq_ok h
      cases h
      unfold Book.setSequenceId at hnumber
      cases hb : s₂.1.busy with
      | true =>
        rw [exclusive_refused _ _ hb] at hnumber
        cases hnumber
      | false =>
        rw [exclusive_run _ _ hb] at hnumber
        cases hnumber
        exact ⟨rfl, rfl, rfl⟩

/-- A snapshot's number and the updates that come after it. -/
structure History (α : Type) where
  first : α
  updates : List (Increment α)

/-- The numbers of a history in order. -/
def History.numbers (h : History α) : List α := h.first :: h.updates.map (·.seqId)

/-- All numbers are distinct, and each update names the one before its own. -/
structure History.Linked (h : History α) : Prop where
  distinct : h.numbers.Pairwise fun m n => (m == n) = false
  linked : ∀ p ∈ h.updates.zip h.numbers, (p.1.prevSeqId == p.2) = true

/-- What may arrive of a history: one of its updates, whatever has become of its levels; or word
that a fresh snapshot has been asked for. -/
inductive Delivery (h : History α) where
  | update (i : Fin h.updates.length) (levels : List (LevelUpdate α))
  | resyncing

variable {h : History α}

def Delivery.event : Delivery h → Event α
  | .update i levels => .increment { h.updates[i] with updates := levels }
  | .resyncing => .resyncing

def Delivery.applied? : Delivery h → Except Fault (Outcome α) → Option Nat
  | .update i _, .ok (.continued (.applied ..)) => some i
  | _, _ => none

/-- The places in the history of the updates that have been applied, in the order of delivery. -/
def applied (clock : FeedM α ω α) (ds : List (Delivery h)) (s : Book α × (Tracker × ω)) :
    List Nat :=
  (ds.zip (results clock (ds.map Delivery.event) s)).filterMap fun d => d.1.applied? d.2

/-- How many of some updates do not come right behind the one before them, the first at `next`. -/
def breaks : Nat → List Nat → Nat
  | _, [] => 0
  | next, i :: is => (if i = next then 0 else 1) + breaks (i + 1) is

/-- An increment is applied and takes its number, its fault counted; or it is rejected or broken
off, and changes neither the number nor, but for a mark, the tracker. -/
theorem handle_increment (hc : Steady clock) (hb : s.1.busy = false) (e : Increment α) :
    ∃ r s', (handle clock (.increment e)).run s = (r, s') ∧ s'.1.busy = false ∧
      ((∃ fills fault residual t, r = .ok (.continued (.applied fills fault residual)) ∧
          s'.1.sequenceId = some e.seqId ∧ s.2.1.Stays t ∧
            s'.2.1 = if (continuityFault? s.1.sequenceId e).isSome then t.afterFault else t) ∨
        (∀ fills fault residual, r ≠ .ok (.continued (.applied fills fault residual))) ∧
          s'.1.sequenceId = s.1.sequenceId ∧ s.2.1.Stays s'.2.1) := by
  obtain ⟨hb', hn, ht⟩ := steady_updateLevels hc e.updates hb
  unfold handle
  rw [map_run]
  rcases hrun : (updateLevels clock e.updates).run s with ⟨_ | r, s'⟩
  · rw [hrun] at hb' hn ht
    unfold applyIncrement
    simp only [bind_run, book_run, hrun]
    exact ⟨_, _, rfl, hb', .inr ⟨fun _ _ _ he => (by cases he), hn, ht⟩⟩
  · rw [hrun] at hb' hn ht
    cases r with
    | rejected reason u =>
      unfold applyIncrement
      simp only [bind_run, book_run, hrun]
      exact ⟨_, _, rfl, hb', .inr ⟨fun _ _ _ he => (by cases he), hn, ht⟩⟩
    | applied fills residual =>
      rw [applyIncrement_run hrun hb']
      exact ⟨_, _, rfl, rfl, .inl ⟨fills, _, residual, _, rfl, rfl, ht, rfl⟩⟩

section Deliveries

variable [Scalar.Lawful α] {p : Nat} {n : α}

omit [Scalar α] [Scalar.Lawful α] in
theorem History.getElem?_numbers (i : Fin h.updates.length) :
    h.numbers[i.val + 1]? = some h.updates[i].seqId := by
  simp [History.numbers]

/-- An update of a history is at fault unless the number before its own was the last one taken. -/
theorem History.Linked.fault_iff (hl : h.Linked) (hn : h.numbers[p]? = some n)
    (i : Fin h.updates.length) (us : List (LevelUpdate α)) :
    (continuityFault? (some n) { h.updates[i] with updates := us }).isSome = true ↔ i.val ≠ p := by
  have hi : i.val < h.numbers.length := by simp [History.numbers]
  have hlink : (h.updates[i].prevSeqId == h.numbers[i.val]) = true := by
    refine hl.linked (h.updates[i], h.numbers[i.val]) (List.mem_iff_getElem?.mpr ⟨i, ?_⟩)
    rw [List.getElem?_zip_eq_some]
    exact ⟨List.getElem?_eq_getElem i.isLt, List.getElem?_eq_getElem hi⟩
  obtain ⟨hp, rfl⟩ := List.getElem?_eq_some_iff.mp hn
  have hfault : (continuityFault? (some h.numbers[p])
      { h.updates[i] with updates := us }).isSome = true ↔
        ¬(h.updates[i].prevSeqId == h.numbers[p]) = true := by
    unfold continuityFault?
    split <;> simp_all
  rw [hfault]
  refine not_congr ⟨fun hprev => ?_, fun he => ?_⟩
  · -- One number named twice is one place, for distinct numbers are never equal.
    obtain ⟨hle, hge⟩ := Scalar.Lawful.beq_iff.mp hlink
    obtain ⟨hle', hge'⟩ := Scalar.Lawful.beq_iff.mp hprev
    have heq := Scalar.Lawful.beq_iff.mpr
      ⟨Scalar.Lawful.le_trans hge hle', Scalar.Lawful.le_trans hge' hle⟩
    have heq' := Scalar.Lawful.beq_iff.mpr (Scalar.Lawful.beq_iff.mp heq).symm
    obtain hlt | he | hgt := Nat.lt_trichotomy i.val p
    · rw [List.pairwise_iff_getElem.mp hl.distinct i p hi hp hlt] at heq
      cases heq
    · exact he
    · rw [List.pairwise_iff_getElem.mp hl.distinct p i hp hi hgt] at heq'
      cases heq'
  · subst he
    exact hlink

theorem History.Linked.deliver (hl : h.Linked) (hc : Steady clock) (hb : s.1.busy = false)
    (hn : h.numbers[p]? = some n) (hs : s.1.sequenceId = some n) (d : Delivery h) :
    ∃ r s', (handle clock d.event).run s = (r, s') ∧ s'.1.busy = false ∧
      ((∃ i m t, d.applied? r = some i ∧ h.numbers[i + 1]? = some m ∧ s'.1.sequenceId = some m ∧
          s.2.1.Stays t ∧ s'.2.1 = if i = p then t else t.afterFault) ∨
        d.applied? r = none ∧ s'.1.sequenceId = s.1.sequenceId ∧ s.2.1.Stays s'.2.1) := by
  cases d with
  | resyncing => exact ⟨.ok .noted, _, rfl, hb, .inr ⟨rfl, rfl, .inr rfl⟩⟩
  | update i us =>
    obtain ⟨r, s', hrun, hb', happlied⟩ :=
      handle_increment hc hb { h.updates[i] with updates := us }
    refine ⟨r, s', hrun, hb', ?_⟩
    obtain ⟨fills, fault, residual, t, rfl, hn', ht, ht'⟩ | ⟨hr, hn', ht⟩ := happlied
    · refine .inl ⟨i, h.updates[i].seqId, t, rfl, getElem?_numbers i, hn', ht, ht'.trans ?_⟩
      rw [hs]
      by_cases hi : i.val = p
      · rw [if_pos hi, if_neg (mt (hl.fault_iff hn i us).mp (not_not_intro hi))]
      · rw [if_neg hi, if_pos ((hl.fault_iff hn i us).mpr hi)]
    · refine .inr ⟨?_, hn', ht⟩
      unfold Delivery.applied?
      split
      · exact absurd rfl (hr _ _ _)
      · rfl

/-- From a book in step with the number at `p`, the faults counted are the breaks among the updates
applied, and a book that is in step at the end has taken those that come next, in order. -/
theorem History.Linked.deliveries (hl : h.Linked) (hc : Steady clock) (ds : List (Delivery h))
    (hb : s.1.busy = false) (hn : h.numbers[p]? = some n) (hs : s.1.sequenceId = some n) :
    (after clock (ds.map Delivery.event) s).2.1.faults =
        s.2.1.faults + breaks p (applied clock ds s) ∧
      ((after clock (ds.map Delivery.event) s).2.1.state = .synced → s.2.1.state = .synced ∧
        applied clock ds s = List.range' p (applied clock ds s).length ∧
          (after clock (ds.map Delivery.event) s).1.sequenceId =
            h.numbers[p + (applied clock ds s).length]?) := by
  induction ds generalizing s p n with
  | nil => exact ⟨rfl, fun h => ⟨h, rfl, hs.trans hn.symm⟩⟩
  | cons d ds ih =>
    obtain ⟨r, s', hrun, hb', happlied⟩ := hl.deliver hc hb hn hs d
    have happly : applied clock (d :: ds) s = (d.applied? r).toList ++ applied clock ds s' := by
      unfold applied
      rw [List.map_cons, results_cons hrun, List.zip_cons_cons, List.filterMap_cons]
      cases d.applied? r <;> rfl
    rw [List.map_cons, after_cons hrun, happly]
    obtain ⟨i, m, t, hi, hm, hs', ht, ht'⟩ | ⟨hnone, hs', ht⟩ := happlied
    · obtain ⟨hfaults, hsynced⟩ := ih hb' hm hs'
      rw [hi, Option.toList_some, List.singleton_append, breaks, hfaults, ht']
      by_cases hip : i = p
      · rw [if_pos hip, if_pos hip, ht.faults, Nat.zero_add, hip]
        refine ⟨rfl, fun hstate => ?_⟩
        obtain ⟨hstate', his, hnumber⟩ := hsynced hstate
        rw [ht', if_pos hip] at hstate'
        rw [hip] at his hnumber
        refine ⟨ht.synced hstate', ?_, ?_⟩
        · rw [List.length_cons, List.range'_succ, ← his]
        · rw [List.length_cons, hnumber, Nat.add_assoc, Nat.add_comm 1]
      · -- Nothing but a snapshot brings a book back in step, and none is delivered.
        rw [if_neg hip, if_neg hip, Tracker.faults_afterFault, ht.faults]
        refine ⟨by omega, fun hstate => ?_⟩
        have hstate' := (hsynced hstate).1
        rw [ht', if_neg hip] at hstate'
        exact absurd hstate' (Tracker.afterFault_unsynced t)
    · obtain ⟨hfaults, hsynced⟩ := ih hb' hn (hs'.trans hs)
      rw [hnone, Option.toList_none, List.nil_append]
      refine ⟨hfaults.trans (by rw [ht.faults]), fun hstate => ?_⟩
      obtain ⟨hstate', his, hnumber⟩ := hsynced hstate
      exact ⟨ht.synced hstate', his, hnumber⟩

end Deliveries

/-- Once a snapshot has been accepted, whatever is delivered of the history behind it: a book that
is in step has taken the first updates of the history in order, and no other, and has the number of
the last; and the faults counted are the updates that did not come right behind the one before. -/
theorem synced_after {ω : Type} {clock : FeedM Float ω Float} (hc : Steady clock)
    {h : History Float} (hl : h.Linked) {levels : List (LevelUpdate Float)}
    {s₀ s : Book Float × (Tracker × ω)} {fills : List (Fill Float)}
    {fault : Option (SequenceFault Float)} {residual : Bool}
    (hs : (applySnapshot clock ⟨h.first, levels⟩).run s₀ = (.ok (.applied fills fault residual), s))
    (ds : List (Delivery h)) :
    let s' := after clock (ds.map Delivery.event) s
    let is := applied clock ds s
    (s'.2.1.state = .synced →
        is = List.range is.length ∧ s'.1.sequenceId = h.numbers[is.length]?) ∧
      s'.2.1.faults = breaks 0 is := by
  obtain ⟨hb, hn, ht⟩ := accepted_snapshot hs
  obtain ⟨hfaults, hsynced⟩ := hl.deliveries hc ds (p := 0) hb rfl hn
  rw [ht, Nat.zero_add] at hfaults
  refine ⟨fun hstate => ?_, hfaults⟩
  obtain ⟨-, his, hnumber⟩ := hsynced hstate
  rw [Nat.zero_add] at hnumber
  exact ⟨his.trans List.range_eq_range'.symm, hnumber⟩

def shortHistory : History Float := ⟨10, [⟨11, 10, [⟨.sell, 102, 1⟩]⟩, ⟨12, 11, []⟩]⟩

theorem linked_shortHistory : shortHistory.Linked where
  distinct := by decide +kernel
  linked := by decide +kernel

/-- With both updates behind a snapshot, the first of them once more with its levels spoilt, the
book is in step. When the second comes before the first, no later update makes up for it. -/
theorem synced_after_shortHistory :
    let s := ((applySnapshot (pure 0) ⟨10, []⟩).run (Book.empty [], (Tracker.initial, ()))).2
    let first : Fin shortHistory.updates.length := ⟨0, by decide⟩
    let second : Fin shortHistory.updates.length := ⟨1, by decide⟩
    let inStep : List (Delivery shortHistory) :=
      [.update first [⟨.sell, 102, 1⟩], .update first [⟨.sell, 0, 1⟩], .update second []]
    let swapped : List (Delivery shortHistory) :=
      [.update second [], .update first [], .update second []]
    Steady (pure 0 : FeedM Float Unit Float) ∧
      (after (pure 0) (inStep.map Delivery.event) s).2.1.state = .synced ∧
        applied (pure 0) inStep s = [0, 1] ∧
          (after (pure 0) (inStep.map Delivery.event) s).1.sequenceId = some 12 ∧
            (after (pure 0) (swapped.map Delivery.event) s).2.1.faults = 2 := by
  intro s first second inStep swapped
  have hs : (applySnapshot (pure 0) ⟨10, []⟩).run (Book.empty [], (Tracker.initial, ())) =
      (.ok (.applied [] none false), s) := rfl
  obtain ⟨hsynced, -⟩ := synced_after (steady_pure 0) linked_shortHistory hs inStep
  obtain ⟨-, hfaults⟩ := synced_after (steady_pure 0) linked_shortHistory hs swapped
  have hstate : (after (pure 0) (inStep.map Delivery.event) s).2.1.state = .synced := by
    decide +kernel
  have happlied : applied (pure 0) inStep s = [0, 1] := by decide +kernel
  have hbreaks : breaks 0 (applied (pure 0) swapped s) = 2 := by decide +kernel
  have hnumber := (hsynced hstate).2
  rw [happlied] at hnumber
  exact ⟨steady_pure 0, hstate, happlied, hnumber, hfaults.trans hbreaks⟩

end Feed

end LimitBook
