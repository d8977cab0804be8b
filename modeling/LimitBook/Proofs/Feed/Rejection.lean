import LimitBook.Proofs.Feed.Effect

namespace LimitBook.Feed

open Book BookM

variable {α ω : Type} [Scalar α]

/-- The first of some updates that has a fault is `u`, and `reason` is its fault. -/
def FirstFault (us : List (LevelUpdate α)) (reason : UpdateFault) (u : LevelUpdate α) : Prop :=
  ∃ front back, us = front ++ u :: back ∧ (∀ v ∈ front, v.fault? = none) ∧ u.fault? = some reason

theorem FirstFault.mem {us : List (LevelUpdate α)} {reason : UpdateFault} {u : LevelUpdate α}
    (h : FirstFault us reason u) : u ∈ us := by
  obtain ⟨front, back, rfl, -⟩ := h
  exact List.mem_append_right _ List.mem_cons_self

theorem FirstFault.isSome {us : List (LevelUpdate α)} {reason : UpdateFault} {u : LevelUpdate α}
    (h : FirstFault us reason u) : u.fault?.isSome = true := by
  obtain ⟨_, _, -, -, hu⟩ := h
  rw [hu]
  rfl

theorem firstFault_of_eq_some {us : List (LevelUpdate α)} {f : UpdateFault × LevelUpdate α}
    (h : LevelUpdate.firstFault? us = some f) : FirstFault us f.1 f.2 := by
  fun_induction LevelUpdate.firstFault? us with
  | case1 => cases h
  | case2 u us reason hu =>
    cases h
    exact ⟨[], us, rfl, List.forall_mem_nil _, hu⟩
  | case3 u us hu ih =>
    obtain ⟨front, back, rfl, hfront, hf⟩ := ih h
    exact ⟨u :: front, back, rfl, List.forall_mem_cons.mpr ⟨hu, hfront⟩, hf⟩

/-- An event that brings some updates is rejected if and only if one of them has a fault, for the
first that has one, and then it leaves the book and its surroundings as they are. It fails only if
the clock does. -/
structure Atomic (clock : FeedM α ω α) (m : FeedM α ω (ReconcileResult α))
    (s : Book α × (Tracker × ω)) (us : List (LevelUpdate α)) : Prop where
  rejected : (∃ reason u, (m.run s).1 = .ok (.rejected reason u)) ↔ ∃ u ∈ us, u.fault?.isSome = true
  first : ∀ reason u, (m.run s).1 = .ok (.rejected reason u) → FirstFault us reason u
  unchanged : ∀ reason u, (m.run s).1 = .ok (.rejected reason u) → (m.run s).2 = s
  raised : ∀ e, (m.run s).1 = .error e → Raises clock e

section Events

variable {s : Book α × (Tracker × ω)} {clock : FeedM α ω α}

theorem applySnapshot_rejected {e : Snapshot α} {f : UpdateFault × LevelUpdate α}
    (hf : LevelUpdate.firstFault? e.updates = some f) :
    (applySnapshot clock e).run s = (.ok (.rejected f.1 f.2), s) := by
  unfold applySnapshot
  rw [hf]
  rfl

theorem applyIncrement_rejected {e : Increment α} {f : UpdateFault × LevelUpdate α}
    (hb : s.1.busy = false) (hf : LevelUpdate.firstFault? e.updates = some f) :
    (applyIncrement clock e).run s = (.ok (.rejected f.1 f.2), s) := by
  have hrun : (updateLevels clock e.updates).run s = (.ok (.rejected f.1 f.2), s) := by
    rw [updateLevels, exclusive_run .updateLevels _ hb]
    simp only [hf]
    change (_, (s.1.shut.reopened, s.2)) = _
    rw [reopened_shut hb]
    rfl
  unfold applyIncrement
  simp only [bind_run, book_run, hrun]
  rfl

/-- An event that rejects its updates before it does anything, and applies them if none of them has
a fault, is atomic. -/
theorem atomic_of_ends {m : FeedM α ω (ReconcileResult α)} {us : List (LevelUpdate α)}
    {E : ReconcileResult α → Book α → Prop} {A : Book α → Prop}
    (hfault : ∀ f, LevelUpdate.firstFault? us = some f → m.run s = (.ok (.rejected f.1 f.2), s))
    (hends : Ends clock m s E A)
    (hnone : LevelUpdate.firstFault? us = none → ∀ r b', E r b' →
      ∃ fills fault residual, r = .applied fills fault residual) : Atomic clock m s us := by
  cases hf : LevelUpdate.firstFault? us with
  | some f =>
    have hrun := hfault f hf
    have hfirst := firstFault_of_eq_some hf
    refine ⟨iff_of_true ⟨f.1, f.2, congrArg Prod.fst hrun⟩ ⟨f.2, hfirst.mem, hfirst.isSome⟩,
      fun reason u hr => ?_, fun _ _ _ => congrArg Prod.snd hrun, fun e he => ?_⟩
    · rw [hrun] at hr
      cases hr
      exact hfirst
    · rw [hrun] at he
      cases he
  | none =>
    have hu := firstFault?_eq_none hf
    have hne : ∀ reason u, (m.run s).1 ≠ .ok (.rejected reason u) := by
      intro reason u hr
      obtain ⟨r, b', w, hrun, he⟩ | ⟨e, b', w, hrun, -⟩ := hends
      · obtain ⟨_, _, _, rfl⟩ := hnone hf r b' he
        rw [hrun] at hr
        cases hr
      · rw [hrun] at hr
        cases hr
    refine ⟨iff_of_false (fun ⟨reason, u, hr⟩ => hne reason u hr) ?_,
      fun reason u hr => absurd hr (hne reason u), fun reason u hr => absurd hr (hne reason u),
      fun e he => ?_⟩
    · rintro ⟨u, hmem, hsome⟩
      rw [hu u hmem] at hsome
      cases hsome
    · obtain ⟨r, b', w, hrun, -⟩ | ⟨e', b', w, hrun, hraises, -⟩ := hends
      · rw [hrun] at he
        cases he
      · rw [hrun] at he
        cases he
        exact hraises

theorem atomic_snapshot (hd : Discreet clock) (hb : s.1.busy = false) (e : Snapshot α) :
    Atomic clock (applySnapshot clock e) s e.updates := by
  refine atomic_of_ends (fun f hf => applySnapshot_rejected hf) (applySnapshot_ends hd hb e)
    fun hu r b' he => ?_
  cases he with
  | faultySnapshot hf =>
    rw [hu] at hf
    cases hf
  | snapshot => exact ⟨_, _, _, rfl⟩

theorem atomic_increment (hd : Discreet clock) (hb : s.1.busy = false) (e : Increment α) :
    Atomic clock (applyIncrement clock e) s e.updates := by
  refine atomic_of_ends (fun f hf => applyIncrement_rejected hb hf) (applyIncrement_ends hd hb e)
    fun hu r b' he => ?_
  cases he with
  | faultyIncrement hf =>
    rw [hu] at hf
    cases hf
  | increment => exact ⟨_, _, _, rfl⟩

theorem applySnapshot_applied (hd : Discreet clock) (hb : s.1.busy = false) {e : Snapshot α}
    {fills : List (Fill α)} {fault : Option (SequenceFault α)} {residual : Bool}
    {s' : Book α × (Tracker × ω)}
    (hrun : (applySnapshot clock e).run s = (.ok (.applied fills fault residual), s')) :
    ∃ b, Applies s.1.shut.clear e.updates fills b ∧
      s'.1 = { b with sequenceId := some e.seqId }.reopened := by
  obtain ⟨r, b', w, hrun', he⟩ | ⟨_, _, _, hrun', -⟩ := applySnapshot_ends hd hb e
  · rw [hrun] at hrun'
    cases hrun'
    cases he with
    | snapshot hu ha => exact ⟨_, ha, rfl⟩
  · rw [hrun] at hrun'
    cases hrun'

end Events

/-- Whatever has happened to a book and its feed, a snapshot or an increment is rejected if and only
if one of its updates has a fault, for the first that has one, and then it changes nothing at all. A
snapshot that is applied leaves the levels that its updates give an empty book. -/
theorem rejection_after {clock : FeedM α ω α} (hd : Discreet clock) (events : List (Event α))
    (symbol : Text) (w : Tracker × ω) :
    let s := after clock events (Book.empty symbol, w)
    (∀ e : Snapshot α, Atomic clock (applySnapshot clock e) s e.updates) ∧
      (∀ e : Increment α, Atomic clock (applyIncrement clock e) s e.updates) ∧
        ∀ (e : Snapshot α) fills fault residual s',
          (applySnapshot clock e).run s = (.ok (.applied fills fault residual), s') →
            ∃ b, Applies s.1.shut.clear e.updates fills b ∧
              s'.1 = { b with sequenceId := some e.seqId }.reopened := by
  intro s
  have hb : s.1.busy = false := free_after hd events symbol w
  exact ⟨atomic_snapshot hd hb, atomic_increment hd hb, fun _ _ _ _ _ =>
    applySnapshot_applied hd hb⟩

def gapEvents : List (Event Float) :=
  [.snapshot ⟨1, [⟨.buy, 100, 5⟩]⟩, .increment ⟨7, 4, [⟨.sell, 101, 2⟩]⟩, .resyncing]

/-- A snapshot whose second level has no price is rejected for it, and the old levels stay. -/
theorem rejection_after_gapEvents :
    let s := after (pure 0) gapEvents (Book.empty [], (Tracker.initial, ()))
    let r := (applySnapshot (pure 0) ⟨9, [⟨.sell, 102, 1⟩, ⟨.buy, 0, 2⟩, ⟨.buy, 99, -1⟩]⟩).run s
    Discreet (pure 0 : FeedM Float Unit Float) ∧
      (∃ reason u, r.1 = .ok (.rejected reason u) ∧
        FirstFault [⟨.sell, 102, 1⟩, ⟨.buy, 0, 2⟩, ⟨.buy, 99, -1⟩] reason u) ∧
      r.2.1.bestBid = some 100 ∧ r.2.1.sequenceId = some 7 ∧ r.2.2.1 = ⟨.resyncing, 1⟩ := by
  intro s r
  obtain ⟨hsnapshot, -, -⟩ :=
    rejection_after (discreet_pure 0) gapEvents [] (Tracker.initial, ())
  have h := hsnapshot ⟨9, [⟨.sell, 102, 1⟩, ⟨.buy, 0, 2⟩, ⟨.buy, 99, -1⟩]⟩
  have hfaulty : (⟨.buy, 0, 2⟩ : LevelUpdate Float).fault?.isSome = true := by decide +kernel
  obtain ⟨reason, u, hr⟩ :=
    h.rejected.mpr ⟨_, List.mem_cons_of_mem _ List.mem_cons_self, hfaulty⟩
  have hs : r.2 = s := h.unchanged reason u hr
  rw [hs]
  refine ⟨discreet_pure 0, ⟨reason, u, hr, h.first reason u hr⟩, ?_⟩
  decide +kernel

end LimitBook.Feed
