import LimitBook.Proofs.Book.Effect
import LimitBook.Proofs.Book.Reachable
import LimitBook.Proofs.Sweep.Vacant

namespace LimitBook

variable {α : Type} [Scalar α]

theorem Sweep.sweep_tidies [Scalar.Lawful α] {bs as : List (Level α)} {bids asks : Ladder α}
    (hb : bids.Ranks .buy bs) (ha : asks.Ranks .sell as) :
    ∃ bs' as', (sweep bids asks).bids.Ranks .buy bs' ∧ (sweep bids asks).asks.Ranks .sell as' ∧
      Ladder.Tidies bs bs' ∧ Ladder.Tidies as as' := by
  obtain ⟨hw, hr⟩ := hb.walk visits_bid ⟨asks, ⟨[], []⟩⟩
  have hasks : ∃ as', (Ladder.sift turnBid bs ⟨asks, ⟨[], []⟩⟩).1.asks.Ranks .sell as' ∧
      Ladder.Tidies as as' := by
    refine (Ladder.sift_induction (s := (⟨asks, ⟨[], []⟩⟩ : AskRun α))
      (P := fun run => ∃ as', run.asks.Ranks .sell as' ∧ Ladder.Tidies as as')
      (Q := fun _ => True) ?_ ⟨as, ha, .refl as⟩ fun _ _ => trivial).1
    rintro run bid run' bid' more ⟨as', hr, has⟩ - ht
    obtain ⟨rfl, rfl, -⟩ := turnBid_eq_some ht
    obtain ⟨-, hr'⟩ := hr.walk visits_ask ⟨bid, run.progress⟩
    exact ⟨⟨_, hr', has.trans (Ladder.sift_tidies _ _ _)⟩, fun _ => trivial⟩
  rw [← hw] at hasks
  obtain ⟨as', hr', has⟩ := hasks
  exact ⟨_, as', hr, hr', Ladder.sift_tidies _ _ _, has⟩

namespace Book

open BookM

/-- No level of `b'` is without orders, but for those that were so in `b`. -/
def Tidies (b b' : Book α) : Prop := ∀ side, Ladder.Tidies (b.levels side) (b'.levels side)

variable {b b' b'' : Book α} {u : LevelUpdate α} {us : List (LevelUpdate α)}

theorem Tidies.refl (b : Book α) : b.Tidies b := fun _ => .refl _

theorem Tidies.trans (h : b.Tidies b') (h' : b'.Tidies b'') : b.Tidies b'' := fun side =>
  (h side).trans (h' side)

theorem Changes.tidies {side : Side} {k k' : Level α} (h : Changes b b' side k k') :
    b.Tidies b' := by
  have hside : Ladder.Tidies (b.levels side) (b'.levels side) := fun j hj =>
    (h.stands j hj).imp_right fun ⟨he, hq⟩ => he ▸ hq
  have hopp : Ladder.Tidies (b.levels side.opposite) (b'.levels side.opposite) := by
    rw [h.opposite]
    exact .refl _
  exact Side.forall_of side hside hopp

variable [Scalar.Lawful α]

theorem Filed.clear_levels (h : b.Filed) (side : Side) : b.clear.levels side = [] := by
  cases side
  · exact levels_eq (h.ranks .buy).clear
  · exact levels_eq (h.ranks .sell).clear

theorem tidies_clear (h : b.Filed) : b.Tidies b.clear := by
  intro side k hk
  rw [h.clear_levels] at hk
  cases hk

theorem Filed.uncross_tidies (h : b.Filed) : b.Tidies b.uncross.2 := by
  obtain ⟨bs, as, hb, ha, hbs, has⟩ := Sweep.sweep_tidies (h.ranks .buy) (h.ranks .sell)
  have hb' : (b.uncross.2.ladder .buy).Ranks .buy bs := (release_ladder b.swept .buy _).symm ▸ hb
  have ha' : (b.uncross.2.ladder .sell).Ranks .sell as := (release_ladder b.swept .sell _).symm ▸ ha
  intro side
  cases side with
  | buy => rwa [levels_eq hb']
  | sell => rwa [levels_eq ha']

theorem Filed.resize_stands (h : b.Filed) (hp : Scalar.isPositive u.price = true) :
    ∀ side, ∀ k ∈ (b.resize u).levels side,
      k ∈ b.levels side ∨ u.side = side ∧ u.price = k.price := by
  obtain ⟨j, hjp, -, hs, hopp⟩ := h.resize_swaps hp
  refine Side.forall_of u.side (fun k hk => ?_) fun k hk => .inl (hopp ▸ hk)
  obtain rfl | hk := hs.mem hk
  · exact .inr ⟨rfl, ((resized_price u j).trans hjp).symm⟩
  · exact .inl hk

theorem Filed.posted_tidies (h : b.Filed) (hp : Scalar.isPositive u.price = true) (now : α) :
    b.Tidies (b.posted u now) := by
  obtain ⟨k, -, -, hc, -⟩ := h.posted_changes hp now
  exact hc.tidies

theorem Filed.applied_tidies (h : b.Filed) (hp : Scalar.isPositive u.price = true) (now : α) :
    b.Tidies (b.applied u now).2 := by
  cases hn : negligible u.totalQty with
  | true =>
    rw [applied_of_negligible now hn]
    obtain ⟨hf, hdrop⟩ := h.dropAggregate u
    refine Tidies.trans ?_ hf.uncross_tidies
    obtain ⟨hb, -⟩ | ⟨k, r, rs, -, -, -, -, -, hc⟩ := hdrop
    · rw [hb]
      exact .refl b
    · exact hc.tidies
  | false =>
    rw [applied_of_counts now hn]
    exact (h.posted_tidies hp now).trans ((h.resize hp).stamp now).uncross_tidies

theorem Filed.accept_tidies (h : b.Filed) {s : Submission α} (now : α) (hs : b.refusal? s = none) :
    b.Tidies (b.accept s now).2 := by
  obtain ⟨-, hown, hopp⟩ := h.matched (b.arrive s now)
  have hmatched : b.Tidies (b.matched (b.arrive s now)) := by
    refine Side.forall_of (b.arrive s now).side ?_ ?_
    · rw [hown]
      exact .refl _
    · rw [hopp]
      exact Ladder.sift_tidies _ _ _
  rw [accept_eq]
  simp only
  split
  · exact hmatched
  · obtain ⟨-, k, -, hc⟩ := h.rest_traded now hs
    exact hmatched.trans hc.tidies

theorem Filed.remove_tidies (h : b.Filed) (id : OrderId) : b.Tidies (b.remove id).2 := by
  cases hp : b.place? id with
  | none =>
    rw [remove_none hp]
    exact .refl b
  | some p =>
    obtain ⟨_, _, _, _, -, -, -, -, -, hc⟩ := h.remove hp
    exact hc.tidies

theorem Applies.tidies {fills : List (Fill α)} (ha : Applies b us fills b') (h : b.Filed)
    (hu : ∀ u ∈ us, u.fault? = none) : b.Tidies b' := by
  induction ha with
  | nil => exact .refl _
  | cons u now _ ih =>
    obtain ⟨hu, hus⟩ := List.forall_mem_cons.mp hu
    have hp := (fault?_eq_none hu).1
    exact (h.applied_tidies hp now).trans (ih (h.applied now hp) hus)

theorem Effect.tidies {c : Call α} {a : Answer α} (he : Effect b c a b') (h : b.Filed) :
    b.Tidies b' := by
  cases he with
  | refused | faulty | faultyBatch | numbered | shown => exact .refl _
  | accepted now hs => exact h.accept_tidies now hs
  | cancelled id => exact h.remove_tidies id
  | cleared => exact tidies_clear h
  | updated hu ha => exact ha.tidies h (List.forall_mem_singleton.mpr hu)
  | batch hu ha => exact ha.tidies h (firstFault?_eq_none hu)

theorem BrokenOff.stands (hb : BrokenOff u b us b') (h : b.Filed)
    (hu : ∀ v ∈ us, v.fault? = none) {side : Side} {k : Level α} (hk : k ∈ b'.levels side) :
    (k ∈ b.levels side ∨ k.queue ≠ []) ∨ u.side = side ∧ u.price = k.price := by
  induction hb with
  | here =>
    have hp := (fault?_eq_none (hu _ List.mem_cons_self)).1
    exact (h.resize_stands hp side k hk).imp_left .inl
  | later v now _ ih =>
    obtain ⟨hv, hus⟩ := List.forall_mem_cons.mp hu
    have hp := (fault?_eq_none hv).1
    obtain hk | hk := ih (h.applied now hp) hus hk
    · exact .inl (hk.elim (h.applied_tidies hp now side k) .inr)
    · exact .inr hk

/-- A call that is broken off leaves at most one level without orders that it has not found so: the
one for the update at which it was broken off. -/
theorem Aborted.stands {c : Call α} {v : Option (LevelUpdate α)} (ha : Aborted b c v b')
    (h : b.Filed) {side : Side} {k : Level α} (hk : k ∈ b'.levels side) (hq : k.queue = []) :
    k ∈ b.levels side ∨ ∃ u ∈ v, u.side = side ∧ u.price = k.price := by
  cases ha with
  | unchanged => exact .inl hk
  | update hu hb =>
    obtain (hk | hne) | hu := hb.stands h hu hk
    · exact .inl hk
    · exact absurd hq hne
    · exact .inr ⟨_, rfl, hu⟩

section Runs

variable {ω : Type} {clock : BookM α ω α} {s : Book α × ω} {calls : List (Call α)}

/-- In the course of some calls the clock has broken off an update for this side and price. -/
def Interrupted (clock : BookM α ω α) (calls : List (Call α)) (s : Book α × ω) (side : Side)
    (p : α) : Prop :=
  ∃ front c back e b w u, calls = front ++ c :: back ∧
    (perform clock c).run (after clock front s) = (.error e, (b.reopened, w)) ∧
      Aborted (after clock front s).1.shut c (some u) b ∧ u.side = side ∧ u.price = p

omit [Scalar.Lawful α] in
theorem Interrupted.snoc {side : Side} {p : α} (h : Interrupted clock calls s side p)
    (c : Call α) : Interrupted clock (calls ++ [c]) s side p := by
  obtain ⟨front, c', back, e, b, w, u, rfl, hrest⟩ := h
  exact ⟨front, c', back ++ [c], e, b, w, u, by simp, hrest⟩

theorem interrupted_of_empty (hd : Discreet clock) (calls : List (Call α)) (symbol : Text) (w : ω)
    {side : Side} {k : Level α} (hk : k ∈ (after clock calls (empty symbol, w)).1.levels side)
    (hq : k.queue = []) : Interrupted clock calls (empty symbol, w) side k.price := by
  induction calls using List.reverseRecOn with
  | nil => cases side <;> cases hk
  | append_singleton calls c ih =>
    obtain ⟨hf, hb⟩ := filed_after hd calls symbol w
    rw [after_snoc] at hk
    obtain ⟨a, b', w', hrun, he⟩ | ⟨e, b', w', hrun, -, v, ha⟩ := perform_ends hd hb c
    · rw [hrun] at hk
      have hk := he.tidies hf.shut side k hk
      exact (ih (hk.resolve_right (not_not_intro hq))).snoc c
    · rw [hrun] at hk
      obtain hk | ⟨u, rfl, hside, hprice⟩ := ha.stands hf.shut hk hq
      · exact (ih hk).snoc c
      · exact ⟨calls, c, [], e, b', w', u, rfl, hrun, ha, hside, hprice⟩

end Runs

section Doubles

variable {ω : Type} {clock : BookM Float ω Float}

/-- However the clock breaks a call off, the error is its own, the book is free again, and the index
names the local orders that rest and nothing else. The call leaves no level without orders but those
that it has found so, and the one of the update at which it was broken off. So a level stands
without orders only where an update has once been broken off, and any other best price is that of an
order. -/
theorem aborted_after (hd : Discreet clock) (calls : List (Call Float)) (symbol : Text) (w : ω)
    {c : Call Float} {e : Fault} {s' : Book Float × ω}
    (hrun : (perform clock c).run (after clock calls (empty symbol, w)) = (.error e, s')) :
    let s := (empty symbol, w)
    let b := (after clock calls s).1
    Raises clock e ∧ s'.1.busy = false ∧
      (∀ id p, s'.1.place? id = some p → ∃ o, s'.1.orderAt? p = some o ∧ o.party = .local id) ∧
      (∀ side, ∀ k ∈ (s'.1.ladder side).levels, ∀ r ∈ k.queue, ∀ id, r.order.party = .local id →
        s'.1.place? id = some ⟨side, k.price, r.handle⟩) ∧
      (∃ v b', Aborted b.shut c v b' ∧ s'.1 = b'.reopened ∧
        ∀ side, ∀ k ∈ (s'.1.ladder side).levels, k.isEmpty = true →
          k ∈ (b.ladder side).levels ∨ ∃ u ∈ v, u.side = side ∧ u.price = k.price) ∧
      (∀ side, ∀ k ∈ (s'.1.ladder side).levels, k.isEmpty = true →
        Interrupted clock (calls ++ [c]) s side k.price) ∧
      ∀ side p, (s'.1.ladder side).bestPrice = some p →
        (∃ k ∈ (s'.1.ladder side).levels, k.price = p ∧ k.isEmpty = false) ∨
          Interrupted clock (calls ++ [c]) s side p := by
  intro s b
  obtain ⟨hf, hb⟩ : b.Filed ∧ b.busy = false := filed_after hd calls symbol w
  have hafter : after clock (calls ++ [c]) s = s' := by rw [after_snoc, hrun]
  have hf' : s'.1.Filed := hafter ▸ (filed_after hd (calls ++ [c]) symbol w).1
  have hinterrupted : ∀ side, ∀ k ∈ (s'.1.ladder side).levels, k.isEmpty = true →
      Interrupted clock (calls ++ [c]) s side k.price := fun side k hk hq => by
    rw [← hafter, (filed_after hd (calls ++ [c]) symbol w).1.mem_levels] at hk
    exact interrupted_of_empty hd _ symbol w hk ((Level.isEmpty_iff k).mp hq)
  obtain ⟨_, _, _, hrun', -⟩ | ⟨e', b', w', hrun', he, v, ha⟩ := perform_ends hd hb c
  · rw [hrun] at hrun'
    cases hrun'
  rw [hrun] at hrun'
  obtain ⟨he', rfl⟩ := Prod.mk.inj hrun'
  obtain rfl := Except.error.inj he'
  refine ⟨he, rfl, fun id p hp => ?_, fun side k hk r hr id hid => ?_,
    ⟨v, b', ha, rfl, fun side k hk hq => ?_⟩, hinterrupted, fun side p hp => ?_⟩
  · obtain ⟨k, hk, hkp, o, ho, hid⟩ := hf'.place?_eq_some.mp hp
    exact ⟨o, hf'.orderAt?_eq_some.mpr ⟨k, hk, hkp, ho⟩, hid⟩
  · exact (hf'.place?_iff (hf'.mem_levels.mp hk) hr).mpr hid
  · rw [hf.mem_levels]
    exact ha.stands hf.shut (hf'.mem_levels.mp hk) ((Level.isEmpty_iff k).mp hq)
  · obtain ⟨k, hk, rfl, -⟩ := hf'.best side hp
    cases hq : k.isEmpty with
    | true => exact .inr (hinterrupted side k hk hq)
    | false => exact .inl ⟨k, hk, rfl, hq⟩

/-- A clock that tells the time some times and from then on looks at the book before, without
catching the error that this raises during an operation. -/
def tiring : BookM Float Nat Float := do
  match ← outside with
  | n + 1 => modifyOutside fun _ => n
  | 0 => let _ ← perform (pure 0) (.depth 5)
  return 0

theorem discreet_tiring : Discreet tiring := by
  rintro ⟨b, n⟩ hb
  cases n with
  | succ n => rfl
  | zero => exact ((discreet_perform (pure 0) (.depth 5)).bind fun _ => discreet_pure 0) (b, 0) hb

def tiringCalls : List (Call Float) := [.submit ⟨1, .buy, 9, 2, []⟩, .updateLevel ⟨.buy, 10, 1⟩]

/-- Behind a local order two updates are broken off: the order is still found, below two levels
without orders. -/
theorem aborted_after_tiringCalls :
    let s := after tiring tiringCalls (empty [], 1)
    let s' := ((perform tiring (.updateLevels [⟨.sell, 20, 3⟩])).run s).2
    Discreet tiring ∧ s'.1.busy = false ∧
      (∃ p o, s'.1.place? 1 = some p ∧ s'.1.orderAt? p = some o ∧ o.party = .local 1) ∧
        s'.1.bestBid = some 10 ∧
          Interrupted tiring (tiringCalls ++ [.updateLevels [⟨.sell, 20, 3⟩]]) (empty [], 1)
            .buy 10 := by
  intro s s'
  have hfails : ((perform tiring (.updateLevels [⟨.sell, 20, 3⟩])).run s).1.isOk = false := by
    decide +kernel
  rcases hrun : (perform tiring (.updateLevels [⟨.sell, 20, 3⟩])).run s with ⟨e | a, t⟩
  · obtain ⟨-, hbusy, hindex, -, -, hempty, -⟩ :=
      aborted_after discreet_tiring tiringCalls [] 1 hrun
    obtain rfl : s' = t := congrArg Prod.snd hrun
    have hknown : (s'.1.place? 1).isSome = true := by decide +kernel
    have hbare : ∃ k ∈ (s'.1.ladder .buy).levels, k.price = 10 ∧ k.isEmpty = true := by
      decide +kernel
    obtain ⟨p, hp⟩ := Option.isSome_iff_exists.mp hknown
    obtain ⟨o, ho, hid⟩ := hindex 1 p hp
    obtain ⟨k, hk, hprice, hq⟩ := hbare
    refine ⟨discreet_tiring, hbusy, ⟨p, o, hp, ho, hid⟩, by decide +kernel, ?_⟩
    have hten := hempty .buy k hk hq
    rw [hprice] at hten
    exact hten
  · rw [hrun] at hfails
    cases hfails

/-- An update that is broken off leaves its level without orders, and the price of the level for the
best bid of a book in which no order rests. -/
theorem empty_of_tiring :
    let r := (perform tiring (.updateLevel ⟨.buy, 10, 1⟩)).run (empty [], 0)
    Discreet tiring ∧ r.1.isOk = false ∧ (∃ k ∈ r.2.1.bids.levels, k.isEmpty = true) ∧
      r.2.1.bestBid = some 10 ∧ r.2.1.resting.isEmpty = true := by
  refine ⟨discreet_tiring, ?_⟩
  decide +kernel

end Doubles

end Book

end LimitBook
