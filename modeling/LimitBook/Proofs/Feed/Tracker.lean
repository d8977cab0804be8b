import LimitBook.Proofs.Feed.Continuity

namespace LimitBook.Feed

open Book BookM

variable {α ω β γ : Type}

def Aloof (m : FeedM α ω β) : Prop := ∀ s, (m.run s).2.2.1 = s.2.1

theorem aloof_pure (a : β) : Aloof (pure a : FeedM α ω β) := fun _ => rfl

theorem aloof_book : Aloof (book : FeedM α ω (Book α)) := fun _ => rfl

theorem aloof_modifyBook (f : Book α → Book α) : Aloof (modifyBook f : FeedM α ω Unit) :=
  fun _ => rfl

theorem aloof_modifyGetBook (f : Book α → β × Book α) :
    Aloof (modifyGetBook f : FeedM α ω β) := fun _ => rfl

variable {m : FeedM α ω β} {f : β → FeedM α ω γ}

theorem Aloof.tracker_eq (hm : Aloof m) {s s' : Book α × (Tracker × ω)} {r : Except Fault β}
    (hrun : m.run s = (r, s')) : s'.2.1 = s.2.1 := by
  rw [← hm s, hrun]

/-- What follows a computation that leaves the tracker starts from the same tracker; an error ends
it there. -/
theorem Aloof.followed (hm : Aloof m) {P : Except Fault γ → Tracker → Prop}
    {s : Book α × (Tracker × ω)} (herror : ∀ e, P (.error e) s.2.1)
    (hok : ∀ a s', s'.2.1 = s.2.1 → P ((f a).run s').1 ((f a).run s').2.2.1) :
    P ((m >>= f).run s).1 ((m >>= f).run s).2.2.1 := by
  rw [bind_run]
  rcases hrun : m.run s with ⟨e | a, s'⟩
  · have he := herror e
    rw [← hm.tracker_eq hrun] at he
    exact he
  · exact hok a s' (hm.tracker_eq hrun)

theorem Aloof.bind (hm : Aloof m) (hf : ∀ a, Aloof (f a)) : Aloof (m >>= f) := fun s =>
  hm.followed (P := fun _ t => t = s.2.1) (fun _ => rfl) fun a s' hs => (hf a s').trans hs

theorem Aloof.map (hm : Aloof m) (f : β → γ) : Aloof (f <$> m) := by
  intro s
  rw [map_run]
  exact hm s

theorem Aloof.exclusive (hm : Aloof m) (operation : Operation) :
    Aloof (exclusive operation m) := by
  intro s
  cases hb : s.1.busy with
  | true => rw [exclusive_refused operation m hb]
  | false =>
    rw [exclusive_run operation m hb]
    exact hm (s.1.shut, s.2)

section Calls

variable [Scalar α] {clock : FeedM α ω α}

theorem aloof_applyLevel (hc : Aloof clock) (u : LevelUpdate α) :
    Aloof (applyLevel clock u) := by
  unfold applyLevel
  split
  · exact (aloof_modifyBook _).bind fun _ => aloof_modifyGetBook _
  · apply (aloof_modifyBook _).bind
    intro _
    apply hc.bind
    intro now
    exact (aloof_modifyBook _).bind fun _ => aloof_modifyGetBook _

theorem aloof_applyLevels (hc : Aloof clock) (us : List (LevelUpdate α))
    (r : List (Fill α) × Bool) : Aloof (applyLevels clock us r) := by
  induction us generalizing r with
  | nil => exact aloof_pure r
  | cons u us ih => exact (aloof_applyLevel hc u).bind fun _ => ih _

theorem aloof_updateLevels (hc : Aloof clock) (us : List (LevelUpdate α)) :
    Aloof (updateLevels clock us) := by
  apply Aloof.exclusive
  cases LevelUpdate.firstFault? us with
  | some f => exact aloof_pure _
  | none => exact (aloof_applyLevels hc us _).bind fun _ => aloof_pure _

theorem aloof_perform (hc : Aloof clock) (c : Call α) : Aloof (perform clock c) := by
  cases c with
  | submit sub =>
    apply Aloof.map
    apply Aloof.exclusive
    apply aloof_book.bind
    intro b
    cases b.refusal? sub with
    | some reason => exact aloof_pure _
    | none => exact hc.bind fun _ => aloof_modifyGetBook _
  | cancel id => exact ((aloof_modifyGetBook _).exclusive _).map _
  | reset => exact ((aloof_modifyBook _).exclusive _).map _
  | updateLevel u =>
    apply Aloof.map
    apply Aloof.exclusive
    cases u.fault? with
    | some reason => exact aloof_pure _
    | none => exact (aloof_applyLevel hc u).bind fun _ => aloof_pure _
  | updateLevels us => exact (aloof_updateLevels hc us).map _
  | setSequenceId seq => exact ((aloof_modifyBook _).exclusive _).map _
  | depth levels => exact ((aloof_book.bind fun _ => aloof_pure _).exclusive _).map _

end Calls

section Events

variable [Scalar α] {clock : FeedM α ω α} {s : Book α × (Tracker × ω)}

def isAccepted : Except Fault (ReconcileResult α) → Bool
  | .ok (.applied ..) => true
  | .ok (.rejected ..) | .error _ => false

theorem tracker_snapshot (hc : Aloof clock) (e : Snapshot α) :
    ((applySnapshot clock e).run s).2.2.1 =
      if isAccepted ((applySnapshot clock e).run s).1 then ⟨.synced, 0⟩
      else s.2.1 := by
  let P (r : Except Fault (ReconcileResult α)) (t : Tracker) : Prop :=
    t = if isAccepted r then ⟨.synced, 0⟩ else s.2.1
  change P ((applySnapshot clock e).run s).1 ((applySnapshot clock e).run s).2.2.1
  have hreset : Aloof (Book.reset : FeedM α ω Unit) := (aloof_modifyBook _).exclusive _
  have hnumber : Aloof (Book.setSequenceId (some e.seqId) : FeedM α ω Unit) :=
    (aloof_modifyBook _).exclusive _
  unfold applySnapshot
  cases LevelUpdate.firstFault? e.updates with
  | some f => exact rfl
  | none =>
    apply hreset.followed (fun _ => rfl)
    intro _ s₁ hs₁
    apply (aloof_updateLevels hc e.updates).followed (fun _ => hs₁)
    intro r s₂ hs₂
    cases r with
    | rejected => exact hs₂.trans hs₁
    | applied fills residual =>
      apply hnumber.followed (fun _ => hs₂.trans hs₁)
      intro _ s₃ _
      exact rfl

def faultOf? : Except Fault (ReconcileResult α) → Option (SequenceFault α)
  | .ok (.applied _ fault _) => fault
  | .ok (.rejected ..) | .error _ => none

theorem tracker_increment (hc : Aloof clock) (e : Increment α) :
    ((applyIncrement clock e).run s).2.2.1 =
      if (faultOf? ((applyIncrement clock e).run s).1).isSome then s.2.1.afterFault
      else s.2.1 := by
  rcases hrun : (updateLevels clock e.updates).run s with ⟨_ | r, s'⟩
  · unfold applyIncrement
    simp only [bind_run, book_run, hrun]
    exact (aloof_updateLevels hc _).tracker_eq hrun
  have hlevels := (aloof_updateLevels hc _).tracker_eq hrun
  cases r with
  | rejected reason u =>
    unfold applyIncrement
    simp only [bind_run, book_run, hrun]
    exact hlevels
  | applied fills residual =>
    rw [applyIncrement_run hrun (exclusive_ok hrun), hlevels]
    rfl

end Events

end LimitBook.Feed
