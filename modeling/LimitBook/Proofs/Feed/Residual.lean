import LimitBook.Proofs.Feed.Effect

namespace LimitBook

namespace Book

variable {α : Type} [Scalar α]

theorem crossed_iff {b : Book α} :
    b.crossed = true ↔ ∃ p q, b.bestBid = some p ∧ b.bestAsk = some q ∧ q ≤ p := by
  unfold crossed Sweep.isCrossed bestBid bestAsk
  cases b.bids.bestPrice <;> cases b.asks.bestPrice <;> simp

/-- What a call that updates levels reports of the cross that it leaves. -/
def Answer.residual? : Answer α → Option Bool
  | .updated (.applied _ residual) => some residual
  | .updated (.rejected ..) | .submitted _ | .cancelled .. | .cleared | .numbered | .shown _ => none

end Book

namespace Feed

open Book BookM

variable {α ω : Type} [Scalar α]

/-- The updates that an event brings, if it is of the kind to bring any. -/
def Event.updates? : Event α → Option (List (LevelUpdate α))
  | .call (.updateLevel u) => some [u]
  | .call (.updateLevels us) => some us
  | .snapshot e => some e.updates
  | .increment e => some e.updates
  | .call _ | .resyncing => none

def Outcome.residual? : Outcome α → Option Bool
  | .answered a => a.residual?
  | .restarted (.applied _ _ residual) | .continued (.applied _ _ residual) => some residual
  | .restarted (.rejected ..) | .continued (.rejected ..) | .noted => none

/-- An event whose updates have no fault is applied, and reports the cross that it leaves if it
brings updates at all. -/
theorem Effect.residual {b b' : Book α} {e : Event α} {r : Outcome α} {us : List (LevelUpdate α)}
    (he : Effect b e r b') (hus : e.updates? = some us)
    (hu : LevelUpdate.firstFault? us = none) :
    r.residual? = some (!us.isEmpty && b'.crossed) := by
  cases he with
  | resyncing => cases hus
  | faultySnapshot h | faultyIncrement h =>
    cases hus
    rw [hu] at h
    cases h
  | snapshot | increment =>
    cases hus
    rfl
  | call hc =>
    cases hc with
    | refused | accepted | cancelled | cleared | numbered | shown => cases hus
    | faulty h =>
      cases hus
      rw [LevelUpdate.firstFault?, h] at hu
      cases hu
    | faultyBatch h =>
      cases hus
      rw [hu] at h
      cases h
    | updated | batch =>
      cases hus
      rfl

theorem Effect.snapshot_crossed {b b' : Book α} {e : Snapshot α} {r : Outcome α}
    (he : Effect b (.snapshot e) r b') (hu : LevelUpdate.firstFault? e.updates = none)
    (hc : b'.crossed = true) : e.updates ≠ [] := by
  intro hus
  cases he with
  | faultySnapshot h =>
    rw [hu] at h
    cases h
  | snapshot h ha =>
    rw [hus] at ha
    cases ha
    cases hc

def crossedEvents : List (Event Float) :=
  [.call (.updateLevel ⟨.buy, 10, 1⟩), .call (.updateLevel ⟨.sell, 9, 1⟩)]

/-- An event whose updates have no fault is applied. If it brings updates, or is a snapshot, it
reports a cross just where the best bid is left at or above the best ask; otherwise it reports
none. -/
theorem residual_after {ω : Type} {clock : FeedM Float ω Float} (hd : Discreet clock)
    (hr : Reliable clock) (events : List (Event Float)) (symbol : Text) (w : Tracker × ω)
    {e : Event Float} {us : List (LevelUpdate Float)} (hus : e.updates? = some us)
    (hu : LevelUpdate.firstFault? us = none) :
    ∃ r s' residual,
      (handle clock e).run (after clock events (Book.empty symbol, w)) = (.ok r, s') ∧
        r.residual? = some residual ∧
          ((us ≠ [] ∨ ∃ sn, e = .snapshot sn) → (residual = true ↔
            ∃ p q, s'.1.bestBid = some p ∧ s'.1.bestAsk = some q ∧ q ≤ p)) ∧
            (us = [] → residual = false) := by
  obtain ⟨-, hb⟩ := sound_after hd hr events symbol w
  obtain ⟨r, b', v, hrun, he⟩ := handle_yields hd hr hb e
  refine ⟨r, _, _, hrun, he.residual hus hu, fun hne => ?_, fun hnil => by rw [hnil]; rfl⟩
  have hcrossed : (!us.isEmpty && b'.crossed) = true ↔ b'.crossed = true := by
    rw [Bool.and_eq_true, and_iff_right_iff_imp, Bool.not_eq_true', List.isEmpty_eq_false_iff]
    intro hc
    obtain hne | ⟨sn, rfl⟩ := hne
    · exact hne
    · cases hus
      exact he.snapshot_crossed hu hc
  exact hcrossed.trans crossed_iff

theorem residual_after_crossedEvents :
    let s := after (pure 0) crossedEvents (Book.empty [], (Tracker.initial, ()))
    let us : List (LevelUpdate Float) := [⟨.sell, 8, 2⟩]
    Discreet (pure 0 : FeedM Float Unit Float) ∧ Reliable (pure 0 : FeedM Float Unit Float) ∧
      LevelUpdate.firstFault? us = none ∧
        ∃ r s', (handle (pure 0) (.call (.updateLevels us))).run s = (.ok r, s') ∧
          r.residual? = some true ∧
            ∃ p q, s'.1.bestBid = some p ∧ s'.1.bestAsk = some q ∧ q ≤ p := by
  intro s us
  have hu : LevelUpdate.firstFault? us = none := by decide +kernel
  obtain ⟨r, s', residual, hrun, hres, hiff, -⟩ := residual_after (discreet_pure 0)
    (reliable_pure 0) crossedEvents [] (Tracker.initial, ())
    (e := .call (.updateLevels us)) rfl hu
  have htrue : ((handle (pure 0) (.call (.updateLevels us))).run s).1.toOption.bind
      Outcome.residual? = some true := by decide +kernel
  rw [hrun] at htrue
  have hresidual : residual = true := Option.some.inj (hres.symm.trans htrue)
  exact ⟨discreet_pure 0, reliable_pure 0, hu, r, s', hrun, htrue,
    (hiff (.inl (List.cons_ne_nil _ _))).mp hresidual⟩

/-- A batch without updates denies the cross that it leaves. -/
theorem residual_denied_of_crossedEvents :
    let s := after (pure 0) crossedEvents (Book.empty [], (Tracker.initial, ()))
    let t := (handle (pure 0) (.call (.updateLevels []))).run s
    t.1.toOption.bind Outcome.residual? = some false ∧
      t.2.1.bestBid = some 10 ∧ t.2.1.bestAsk = some 9 ∧ (9 : Float) ≤ 10 := by
  decide +kernel

end Feed

end LimitBook
