import LimitBook.Proofs.Book.Effect
import LimitBook.Proofs.Scalar.Double

namespace LimitBook

namespace UpdateResult

variable {α : Type}

def fills : UpdateResult α → List (Fill α)
  | applied fills _ => fills
  | rejected .. => []

def residual : UpdateResult α → Bool
  | applied _ residual => residual
  | rejected .. => false

end UpdateResult

namespace Book

open BookM

variable {α ω : Type} [Scalar α]

/-- The result of a batch whose updates have these results: all their fills, and whether the last
one has left the book crossed. -/
def joined (rs : List (UpdateResult α)) : UpdateResult α :=
  .applied (rs.flatMap UpdateResult.fills) ((rs.getLast?.map UpdateResult.residual).getD false)

variable {s : Book α × ω} {clock : BookM α ω α} {u : LevelUpdate α} {us : List (LevelUpdate α)}

theorem firstFault?_of_front {front : List (LevelUpdate α)} (hfront : ∀ v ∈ front, v.fault? = none)
    (back : List (LevelUpdate α)) :
    LevelUpdate.firstFault? (front ++ back) = LevelUpdate.firstFault? back := by
  induction front with
  | nil => rfl
  | cons v front ih =>
    obtain ⟨hv, hfront⟩ := List.forall_mem_cons.mp hfront
    simp only [List.cons_append, LevelUpdate.firstFault?, hv, ih hfront]

theorem firstFault?_of_faultless (hu : ∀ u ∈ us, u.fault? = none) :
    LevelUpdate.firstFault? us = none := by
  have h := firstFault?_of_front hu []
  rwa [List.append_nil] at h

theorem applyLevel_busy (hd : Discreet clock) (hb : s.1.busy = true) (u : LevelUpdate α) :
    ((applyLevel clock u).run s).2.1.busy = true := by
  obtain ⟨now, w, hrun⟩ | ⟨e, w, hrun, -⟩ := applyLevel_cases hd hb u <;> rw [hrun]
  · exact (applied_busy now).trans hb
  · exact resize_busy.trans hb

theorem updateLevel_run (hu : u.fault? = none) (hb : s.1.busy = false) :
    (updateLevel clock u).run s = match (applyLevel clock u).run (s.1.shut, s.2) with
      | (.ok (fills, residual), t) => (.ok (.applied fills residual), (t.1.reopened, t.2))
      | (.error e, t) => (.error e, (t.1.reopened, t.2)) := by
  rw [updateLevel, exclusive_run .updateLevel _ hb]
  simp only [hu, bind_run]
  rcases (applyLevel clock u).run (s.1.shut, s.2) with ⟨_ | ⟨fills, residual⟩, t⟩ <;> rfl

/-- Applying updates to a book that stays shut is applying them one at a time: what is left open
between two of them is shut again before the next. -/
theorem applyLevels_run (hd : Discreet clock) (hu : ∀ u ∈ us, u.fault? = none)
    (hb : s.1.busy = false) (fills : List (Fill α)) (residual : Bool) :
    (applyLevels clock us (fills, residual)).run (s.1.shut, s.2) =
      match (us.mapM (updateLevel clock)).run s with
      | (.ok rs, t) => (.ok (fills ++ rs.flatMap UpdateResult.fills,
          (rs.getLast?.map UpdateResult.residual).getD residual), (t.1.shut, t.2))
      | (.error e, t) => (.error e, (t.1.shut, t.2)) := by
  induction us generalizing s fills residual with
  | nil => simp [applyLevels, List.mapM_nil, pure_run]
  | cons u us ih =>
    obtain ⟨hu, hus⟩ := List.forall_mem_cons.mp hu
    have hbusy := applyLevel_busy (s := (s.1.shut, s.2)) hd rfl u
    simp only [applyLevels, List.mapM_cons, bind_run, updateLevel_run hu hb]
    rcases hrun : (applyLevel clock u).run (s.1.shut, s.2) with ⟨e | ⟨more, residual'⟩, t⟩
    · rw [hrun] at hbusy
      simp only [shut_reopened hbusy]
    · rw [hrun] at hbusy
      have hrest := ih hus (s := (t.1.reopened, t.2)) rfl (fills ++ more) residual'
      rw [shut_reopened hbusy] at hrest
      simp only [hrest]
      rcases (us.mapM (updateLevel clock)).run (t.1.reopened, t.2) with ⟨e | rs, t'⟩
      · rfl
      · simp only [pure_run, List.flatMap_cons, UpdateResult.fills, List.append_assoc,
          List.getLast?_cons, Option.map_some, Option.getD_some]
        cases rs.getLast? <;> rfl

section Each

variable {β γ : Type} {f : β → BookM α ω γ}

omit [Scalar α] in
/-- What holds of the state between the parts of a sequence holds at its end, and what holds of the
result of each part holds of all results. -/
theorem mapM_invariant {P : Book α × ω → Prop} {Q : γ → Prop} {as : List β}
    (hf : ∀ a ∈ as, ∀ s, P s → P ((f a).run s).2 ∧ ∀ c, ((f a).run s).1 = .ok c → Q c)
    (hs : P s) :
    P ((as.mapM f).run s).2 ∧ ∀ cs, ((as.mapM f).run s).1 = .ok cs → ∀ c ∈ cs, Q c := by
  induction as generalizing s with
  | nil =>
    refine ⟨hs, fun cs hcs => ?_⟩
    cases hcs
    exact List.forall_mem_nil _
  | cons a as ih =>
    obtain ⟨ha, has⟩ := List.forall_mem_cons.mp hf
    obtain ⟨hstep, hresult⟩ := ha s hs
    simp only [List.mapM_cons, bind_run]
    rcases hrun : (f a).run s with ⟨e | c, t⟩ <;> rw [hrun] at hstep hresult
    · exact ⟨hstep, fun cs hcs => by cases hcs⟩
    · obtain ⟨hrest, hresults⟩ := ih has hstep
      simp only
      rcases hrun' : (as.mapM f).run t with ⟨e | cs, t'⟩ <;> rw [hrun'] at hrest hresults
      · exact ⟨hrest, fun cs hcs => by cases hcs⟩
      · refine ⟨hrest, fun cs' hcs => ?_⟩
        cases hcs
        exact List.forall_mem_cons.mpr ⟨hresult c rfl, hresults cs rfl⟩

omit [Scalar α] in
theorem mapM_ok {P : Book α × ω → Prop} {as : List β}
    (hf : ∀ a ∈ as, ∀ s, P s → ∃ c s', (f a).run s = (.ok c, s') ∧ P s') (hs : P s) :
    ∃ cs s', (as.mapM f).run s = (.ok cs, s') := by
  induction as generalizing s with
  | nil => exact ⟨[], s, rfl⟩
  | cons a as ih =>
    obtain ⟨ha, has⟩ := List.forall_mem_cons.mp hf
    obtain ⟨c, t, hrun, ht⟩ := ha s hs
    obtain ⟨cs, t', hrun'⟩ := ih has ht
    exact ⟨c :: cs, t', by simp only [List.mapM_cons, bind_run, hrun, hrun', pure_run]⟩

end Each

/-- Each of some updates without a fault leaves the book free for the next, and is applied if it
does not fail. -/
theorem mapM_updateLevel (clock : BookM α ω α) (hu : ∀ u ∈ us, u.fault? = none)
    (hb : s.1.busy = false) :
    ((us.mapM (updateLevel clock)).run s).2.1.busy = false ∧
      ∀ rs, ((us.mapM (updateLevel clock)).run s).1 = .ok rs →
        ∀ r ∈ rs, ∃ fills residual, r = .applied fills residual := by
  refine mapM_invariant (P := fun s : Book α × ω => s.1.busy = false) (fun u hm s hb => ?_) hb
  rw [updateLevel_run (hu u hm) hb]
  rcases (applyLevel clock u).run (s.1.shut, s.2) with ⟨_ | ⟨fills, residual⟩, t⟩
  · exact ⟨rfl, fun r hr => by cases hr⟩
  · refine ⟨rfl, fun r hr => ?_⟩
    cases hr
    exact ⟨fills, residual, rfl⟩

theorem updateLevels_run (hd : Discreet clock) (hu : ∀ u ∈ us, u.fault? = none)
    (hb : s.1.busy = false) :
    (updateLevels clock us).run s = (joined <$> us.mapM (updateLevel clock)).run s := by
  obtain ⟨hfree, -⟩ := mapM_updateLevel clock hu hb
  rw [updateLevels, exclusive_run .updateLevels _ hb, map_run]
  simp only [firstFault?_of_faultless hu, bind_run, applyLevels_run hd hu hb]
  rcases hrun : (us.mapM (updateLevel clock)).run s with ⟨e | rs, t⟩ <;> rw [hrun] at hfree
  · exact congrArg (fun b => (Except.error e, (b, t.2))) (reopened_shut hfree)
  · exact congrArg (fun b => (Except.ok (joined rs), (b, t.2))) (reopened_shut hfree)

theorem updateLevels_rejected {front back : List (LevelUpdate α)} {reason : UpdateFault}
    (hfront : ∀ v ∈ front, v.fault? = none) (hu : u.fault? = some reason)
    (hb : s.1.busy = false) :
    (updateLevels clock (front ++ u :: back)).run s = (.ok (.rejected reason u), s) := by
  rw [updateLevels, exclusive_run .updateLevels _ hb]
  simp only [firstFault?_of_front hfront, LevelUpdate.firstFault?, hu]
  exact congrArg (fun b => (Except.ok (UpdateResult.rejected reason u), (b, s.2)))
    (reopened_shut hb)

section Doubles

variable {ω : Type} {clock : BookM Float ω Float}

/-- If some update of a batch has a fault, the batch is rejected for the first that has one, and
nothing has changed. If none has, the batch does what its updates do when they are applied one at a
time: it leaves the same book, arrivals and times of orders and all, and brings their fills, one
update after the other; it says of the book at its end whether that is crossed, as the last update
does. It fails only where one of the updates does, and then it leaves what this leaves. -/
theorem batch_after (hd : Discreet clock) (calls : List (Call Float)) (symbol : Text) (w : ω)
    (us : List (LevelUpdate Float)) :
    let s := after clock calls (empty symbol, w)
    (∀ front u back reason, us = front ++ u :: back → (∀ v ∈ front, v.fault? = none) →
      u.fault? = some reason →
        (updateLevels clock us).run s = (.ok (.rejected reason u), s)) ∧
    ((∀ u ∈ us, u.fault? = none) →
      (Reliable clock → ∃ rs s', (us.mapM (updateLevel clock)).run s = (.ok rs, s')) ∧
      (∀ rs s', (us.mapM (updateLevel clock)).run s = (.ok rs, s') →
        (∀ r ∈ rs, ∃ fills residual, r = .applied fills residual) ∧
          (updateLevels clock us).run s =
            (.ok (.applied (rs.flatMap UpdateResult.fills)
              ((rs.getLast?.map UpdateResult.residual).getD false)), s')) ∧
      ∀ e s', (us.mapM (updateLevel clock)).run s = (.error e, s') →
        (updateLevels clock us).run s = (.error e, s')) := by
  intro s
  have hb : s.1.busy = false := (filed_after hd calls symbol w).2
  refine ⟨?_, fun hu => ⟨fun hr => ?_, fun rs s' hrun => ⟨?_, ?_⟩, fun e s' hrun => ?_⟩⟩
  · rintro front u back reason rfl hfront hu
    exact updateLevels_rejected hfront hu hb
  · exact mapM_ok (P := fun s : Book Float × ω => s.1.busy = false) (fun u hm s hb => by
      obtain ⟨now, w, hrun⟩ := updateLevel_applied hd hr hb (hu u hm)
      exact ⟨_, _, hrun, rfl⟩) hb
  · obtain ⟨-, happlied⟩ := mapM_updateLevel clock hu hb
    rw [hrun] at happlied
    exact happlied rs rfl
  · rw [updateLevels_run hd hu hb, map_run, hrun]
    rfl
  · rw [updateLevels_run hd hu hb, map_run, hrun]
    rfl

def offeredCalls : List (Call Float) :=
  [.submit ⟨1, .sell, 10, 2, []⟩, .submit ⟨2, .sell, 11, 5, []⟩]

def biddingUpdates : List (LevelUpdate Float) := [⟨.buy, 11, 1⟩, ⟨.buy, 11, 4⟩, ⟨.sell, 12, 4⟩]

theorem batch_after_offeredCalls :
    let s := after (pure 7) offeredCalls (empty [], ())
    Discreet (pure 7 : BookM Float Unit Float) ∧
      (updateLevels (pure 7) (biddingUpdates ++ [⟨.sell, 0, 1⟩])).run s =
        (.ok (.rejected .invalidPrice ⟨.sell, 0, 1⟩), s) ∧
      ∃ rs s', (biddingUpdates.mapM (updateLevel (pure 7))).run s = (.ok rs, s') ∧
        (updateLevels (pure 7) biddingUpdates).run s = (.ok (.applied
          [⟨.local 1, .external, 10, 1, .buy, true⟩, ⟨.local 1, .external, 10, 1, .buy, true⟩,
            ⟨.local 2, .external, 11, 3, .buy, true⟩] false), s') := by
  intro s
  have hd : Discreet (pure 7 : BookM Float Unit Float) := discreet_pure 7
  have hvalid : ∀ u ∈ biddingUpdates, u.fault? = none := by decide +kernel
  obtain ⟨hrejected, -⟩ := batch_after hd offeredCalls [] () (biddingUpdates ++ [⟨.sell, 0, 1⟩])
  obtain ⟨-, hall⟩ := batch_after hd offeredCalls [] () biddingUpdates
  obtain ⟨hok, happlied, -⟩ := hall hvalid
  obtain ⟨rs, s', hrun⟩ := hok (reliable_pure 7)
  obtain ⟨-, hbatch⟩ := happlied rs s' hrun
  refine ⟨hd, hrejected biddingUpdates _ [] _ rfl hvalid (by decide +kernel), rs, s', hrun, ?_⟩
  have htold : (((updateLevels (pure 7) biddingUpdates).run s).1.toOption.map fun r =>
      (r.fills, r.residual)) = some ([⟨.local 1, .external, 10, 1, .buy, true⟩,
        ⟨.local 1, .external, 10, 1, .buy, true⟩, ⟨.local 2, .external, 11, 3, .buy, true⟩],
          false) := by decide +kernel
  rw [hbatch] at htold
  obtain ⟨hfills, hresidual⟩ := Prod.mk.inj (Option.some.inj htold)
  exact hbatch.trans
    (congrArg (fun r => (Except.ok r, s')) (congrArg₂ UpdateResult.applied hfills hresidual))

end Doubles

end Book

end LimitBook
