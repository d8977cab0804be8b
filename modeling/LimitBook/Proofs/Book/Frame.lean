import LimitBook.Proofs.Book.Batch
import LimitBook.Proofs.Book.Fills
import LimitBook.Proofs.Book.Settlement
import LimitBook.Proofs.Scalar.Difference

namespace LimitBook.Book

open BookM

variable {α : Type} [Scalar α] [Scalar.Lawful α] {b b' : Book α} {side : Side} {p : α}
  {u : LevelUpdate α} {fs : List (Fill α)} {r : Resting α} {id : OrderId}

omit [Scalar.Lawful α] in
theorem filledBy?_eq_some {r' : Resting α} (h : r.filledBy? fs = some r') :
    r'.handle = r.handle ∧ r'.order.party = r.order.party := by
  unfold Resting.filledBy? at h
  split at h
  · cases h
  · obtain rfl := Option.some.inj h
    exact ⟨rfl, Order.fills_party ..⟩

omit [Scalar.Lawful α] in
theorem Frames.mem_local (h : Frames b b' u fs) {r' : Resting α}
    (hid : r'.order.party = .local id) :
    r' ∈ b'.queueAt side p ↔ ∃ r ∈ b.queueAt side p, r.filledBy? fs = some r' := by
  by_cases hp : (side, p) = (u.side, u.price)
  · obtain ⟨rfl, rfl⟩ := Prod.mk.inj hp
    obtain ⟨aggregate, hshown, hhere⟩ := h.here
    have hnone : r' ∉ aggregate := fun hm => by
      have hparty := u.shown_external (hshown ▸ List.mem_map_of_mem hm)
      rw [hid] at hparty
      cases hparty
    rw [hhere, List.mem_append, or_iff_right hnone, List.mem_filterMap]
    refine exists_congr fun r => ⟨fun ⟨hr, he⟩ => ⟨(List.mem_filter.mp hr).1, he⟩,
      fun ⟨hr, he⟩ => ⟨List.mem_filter.mpr ⟨hr, ?_⟩, he⟩⟩
    rw [Order.isLocal, ← (filledBy?_eq_some he).2, hid]
    rfl
  · rw [h.elsewhere side p hp, List.mem_filterMap]

/-- The index names after an update what it named before, but for what the fills have used up. -/
theorem Frames.place?_eq (h : Frames b b' u fs) (hb : b.Filed) (hb' : b'.Filed)
    (hr : r ∈ b.queueAt side p) (hid : r.order.party = .local id) :
    b'.place? id = (r.filledBy? fs).map fun _ => ⟨side, p, r.handle⟩ := by
  cases hs : r.filledBy? fs with
  | some r' =>
    obtain ⟨hh, hp⟩ := filledBy?_eq_some hs
    have hid' := hp.trans hid
    exact hb'.place?_queueAt.mpr ⟨r', (h.mem_local hid').mpr ⟨r, hr, hs⟩, hh, hid'⟩
  | none =>
    refine Option.eq_none_iff_forall_ne_some.mpr fun ⟨side', p', a⟩ hplace => ?_
    obtain ⟨r', hr', -, hid'⟩ := hb'.place?_queueAt.mp hplace
    obtain ⟨x, hx, hs'⟩ := (h.mem_local hid').mp hr'
    obtain ⟨rfl, rfl, rfl⟩ := hb.eq_of_party hr hid hx ((filledBy?_eq_some hs').2.symm.trans hid')
    rw [hs] at hs'
    cases hs'

theorem Frames.place?_none (h : Frames b b' u fs) (hb : b.Filed) (hb' : b'.Filed)
    (hid : b.place? id = none) : b'.place? id = none := by
  refine Option.eq_none_iff_forall_ne_some.mpr fun ⟨side, p, a⟩ hplace => ?_
  obtain ⟨r', hr', -, hid'⟩ := hb'.place?_queueAt.mp hplace
  obtain ⟨x, hx, hs⟩ := (h.mem_local hid').mp hr'
  have hbefore : b.place? id = some ⟨side, p, x.handle⟩ :=
    hb.place?_queueAt.mpr ⟨x, hx, rfl, (filledBy?_eq_some hs).2.symm.trans hid'⟩
  rw [hid] at hbefore
  cases hbefore

theorem smaller_le_right {q r : α} (hr : Scalar.isFinite r = true)
    (h : Scalar.isFinite (Scalar.smaller q r) = true) : Scalar.smaller q r ≤ r := by
  by_cases hlt : q < r
  · rw [Scalar.smaller_of_lt hlt]
    exact Scalar.le_of_lt hlt
  · by_cases hle : r ≤ q
    · rw [Scalar.smaller_of_le hle]
      exact Scalar.le_refl hr
    · -- What is finite compares with `r`, so `q` is no number and `r` the smaller one.
      rw [Scalar.smaller, if_neg hlt, if_neg hle] at h ⊢
      split at h
      · rw [if_pos ‹_›]
        exact Scalar.le_refl hr
      · exact absurd ((Scalar.not_lt_iff h hr).mp hlt) hle

theorem Sound.applied_trades (h : b.Sound) {now : α} (hu : u.fault? = none)
    {before rest : List (Fill α)} {f : Fill α}
    (hf : (b.applied u now).1.1 = before ++ f :: rest) :
    f.aggressive = .external ∧ ∃ id, f.passive = .local id ∧
      ∃ r ∈ b.queueAt u.side.opposite f.price, r.order.party = .local id ∧
        (∃ q, Fair f.quantity q r.order.remaining) ∧ ∀ g ∈ before, g.passive ≠ f.passive := by
  have htrade : ∀ {before rest : List (Fill α)} {f : Fill α},
      (b.applied u now).1.1 = before ++ f :: rest → ∃ id, f.passive = .local id ∧
        ∃ r ∈ b.queueAt u.side.opposite f.price, r.order.party = .local id ∧
          ∃ q, Fair f.quantity q r.order.remaining := fun hf => by
    obtain ⟨-, hlocal, ht⟩ := h.applied_takes hu hf
    obtain ⟨k, hk, hkp, o, ho, hparty, hfair⟩ := ht.fair
    obtain ⟨r, hr, rfl⟩ := List.mem_map.mp ho
    obtain ⟨id, hid⟩ : ∃ id, r.order.party = .local id := by
      rw [← hparty] at hlocal
      cases hp : r.order.party with
      | external => rw [hp] at hlocal; cases hlocal
      | «local» id => exact ⟨id, rfl⟩
    exact ⟨id, hparty.symm.trans hid, r,
      h.mem_queueAt.mpr ⟨k, h.mem_levels.mp hk, hkp, hr⟩, hid, _, hfair⟩
  obtain ⟨-, -, ht⟩ := h.applied_takes hu hf
  obtain ⟨id, hid, r, hr, hrid, hfair⟩ := htrade hf
  refine ⟨ht.aggressive, id, hid, r, hr, hrid, hfair, fun g hg hpassive => ?_⟩
  -- Two fills with one party would be at one price, where an order is met once.
  obtain ⟨past, more, hbefore⟩ := List.append_of_mem hg
  rw [hbefore, List.append_assoc, List.cons_append] at hf
  obtain ⟨id', hid', r', hr', hrid', -⟩ := htrade hf
  obtain rfl : id' = id := Party.local.inj (hid'.symm.trans (hpassive.trans hid))
  obtain ⟨-, hprice, -⟩ := h.eq_of_party hr' hrid' hr hrid
  exact ht.first g hg hprice hpassive

theorem Sound.applied_named (h : b.Sound) {now : α} (hu : u.fault? = none) {f : Fill α}
    (hf : f ∈ (b.applied u now).1.1) (hr : r ∈ b.queueAt side p)
    (hp : f.passive = r.order.party) :
    r.filledBy (b.applied u now).1.1 = ⟨r.handle, r.order.fill f.quantity⟩ ∧
      ∃ q, Fair f.quantity q r.order.remaining := by
  obtain ⟨before, rest, hsplit⟩ := List.append_of_mem hf
  obtain ⟨-, id, hid, r', hr', hid', hfair, hbefore⟩ := h.applied_trades hu hsplit
  obtain ⟨-, -, rfl⟩ := h.eq_of_party hr' hid' hr (hp.symm.trans hid)
  refine ⟨?_, hfair⟩
  have hrest : ∀ g ∈ rest, g.passive ≠ f.passive := fun g hg => by
    obtain ⟨past, more, rfl⟩ := List.append_of_mem hg
    rw [← List.cons_append, ← List.append_assoc] at hsplit
    obtain ⟨-, -, -, -, -, -, -, hpast⟩ := h.applied_trades hu hsplit
    exact (hpast f (by simp)).symm
  have hnone : ∀ gs : List (Fill α), (∀ g ∈ gs, g.passive ≠ f.passive) →
      gs.filter (fun g => decide (g.passive = r'.order.party)) = [] := fun gs hgs =>
    List.filter_eq_nil_iff.mpr fun g hg => by simpa [← hp] using hgs g hg
  have hself : decide (f.passive = r'.order.party) = true := decide_eq_true hp
  rw [Resting.filledBy, hsplit, List.filter_append, List.filter_cons, if_pos hself,
    hnone before hbefore, hnone rest hrest]
  rfl

/-- Nothing is left of an order that a fill names, or what the fill leaves of it is still there. -/
theorem Sound.applied_leaves (h : b.Sound) {now : α} (hu : u.fault? = none) {f : Fill α}
    (hf : f ∈ (b.applied u now).1.1) (hr : r ∈ b.queueAt side p)
    (hp : f.passive = r.order.party) :
    r.filledBy? (b.applied u now).1.1 = some ⟨r.handle, r.order.fill f.quantity⟩ ∨
      r.filledBy? (b.applied u now).1.1 = none ∧
        (r.filledBy (b.applied u now).1.1).order.remaining = Scalar.zero := by
  obtain ⟨hfilled, -⟩ := h.applied_named hu hf hr hp
  rw [Resting.filledBy?, hfilled]
  cases hz : (r.order.fill f.quantity).remaining == Scalar.zero with
  | false => exact .inl rfl
  | true =>
    refine .inr ⟨rfl, ?_⟩
    rw [Order.fill_remaining_beq, Order.fill_remaining] at hz
    show leftOver r.order.remaining f.quantity = Scalar.zero
    unfold leftOver at hz ⊢
    cases hn : negligible (r.order.remaining - f.quantity) with
    | true => rfl
    | false =>
      rw [hn, if_neg Bool.false_ne_true, hn] at hz
      cases hz

section Doubles

variable {ω : Type} {clock : BookM Float ω Float}

theorem fill_le_of_fair {q x : Float} {o : Order Float} (h : Fair q x o.remaining)
    (ho : Counts o.remaining) : (o.fill q).remaining ≤ o.remaining := by
  have hq : q ≤ o.remaining := by
    have hle := smaller_le_right (q := x) ho.1 (h.smaller ▸ h.finite)
    rwa [← h.smaller] at hle
  have hpos : Scalar.zero < q := Scalar.lt_of_lt_of_le Scalar.Lawful.zero_lt_dust h.counts
  rw [Order.fill_remaining]
  unfold leftOver
  split
  · exact Scalar.le_of_lt ho.zero_lt
  · exact Double.sub_le ho.1 h.finite hpos hq

/-- An update with no fault touches its aggregate and the orders that its fills name, and nothing
else. Each fill is of the aggregate with a local order. All other orders rest as they did, each in
its place, those at the price of the update behind its aggregate; an order that a fill names does so
too, with no more left than before, or nothing is left of it and it is gone. The index names no
other ids than before, and of these all but those used up as before. An update with nothing to count
makes no fills, and all local orders at its price stay. -/
theorem framed_after (hd : Discreet clock) (calls : List (Call Float)) (symbol : Text) (w : ω)
    {u : LevelUpdate Float} (hu : u.fault? = none) :
    let s := after clock calls (empty symbol, w)
    (Reliable clock → ∃ fills residual s',
      (updateLevel clock u).run s = (.ok (.applied fills residual), s')) ∧
    ∀ fills residual s', (updateLevel clock u).run s = (.ok (.applied fills residual), s') →
      Frames s.1 s'.1 u fills ∧ s'.1.sequenceId = s.1.sequenceId ∧
      (∀ f ∈ fills, f.aggressive = .external ∧
        ∃ id, f.passive = .local id ∧ s.1.hasOrder id = true) ∧
      (∀ id, (∀ f ∈ fills, f.passive ≠ .local id) → s'.1.place? id = s.1.place? id) ∧
      (∀ side p, ∀ r ∈ s.1.queueAt side p,
        r.order.party = .external ∨ (∀ f ∈ fills, f.passive ≠ r.order.party) →
          r.filledBy? fills = some r) ∧
      (∀ side p, ∀ r ∈ s.1.queueAt side p, ∀ f ∈ fills, ∀ id, f.passive = .local id →
        r.order.party = .local id →
          (∃ o, r.filledBy? fills = some ⟨r.handle, o⟩ ∧ o.terms = r.order.terms ∧
            o.remaining ≤ r.order.remaining ∧ s'.1.place? id = s.1.place? id) ∨
          r.filledBy? fills = none ∧ (r.filledBy fills).order.remaining = 0 ∧
            s'.1.place? id = none) ∧
      (negligible u.totalQty = true → fills = [] ∧
        s'.1.queueAt u.side u.price =
          (s.1.queueAt u.side u.price).filter (·.order.isLocal)) := by
  intro s
  obtain ⟨⟨c, htrims, hc⟩, hb⟩ := trims_after hd calls symbol w
  refine ⟨fun hr => ?_, fun fills residual s' hrun => ?_⟩
  · obtain ⟨now, v, hrun⟩ := updateLevel_applied hd hr hb hu
    exact ⟨_, _, _, hrun⟩
  obtain ⟨now, hresult, hafter, hheader, -⟩ := htrims.updated hc hd hb hu hrun
  have hfills : (c.applied u now).1.1 = fills := congrArg Prod.fst hresult
  have hframes := (hc.applied_frames now hu).of_trims htrims hafter
  rw [hfills] at hframes
  have hcounts : ∀ {side p} {r : Resting Float}, r ∈ s.1.queueAt side p →
      r ∈ c.queueAt side p ∧ Counts r.order.remaining := fun {side p r} hr => by
    rw [← htrims.queueAt] at hr
    exact ⟨hr, hc.counts_at hr⟩
  have hlocal : ∀ f ∈ fills, f.aggressive = .external ∧
      ∃ id, f.passive = .local id ∧ s.1.hasOrder id = true := fun f hf => by
    obtain ⟨before, rest, hsplit⟩ := List.append_of_mem (hfills ▸ hf)
    obtain ⟨haggressive, id, hid, r, hr, hp, -⟩ := hc.applied_trades hu hsplit
    have hplace : c.place? id = some ⟨u.side.opposite, f.price, r.handle⟩ :=
      hc.place?_queueAt.mpr ⟨r, hr, rfl, hp⟩
    refine ⟨haggressive, id, hid, ?_⟩
    rw [hasOrder, ← htrims.place, hplace]
    rfl
  have hunnamed : ∀ side p, ∀ r ∈ s.1.queueAt side p,
      r.order.party = .external ∨ (∀ f ∈ fills, f.passive ≠ r.order.party) →
        r.filledBy? fills = some r := fun side p r hr hne =>
    Resting.filledBy?_of_unnamed (hcounts hr).2 fun f hf => by
      obtain hext | hne := hne
      · obtain ⟨-, id, hid, -⟩ := hlocal f hf
        rw [hext, hid]
        exact Party.noConfusion
      · exact hne f hf
  refine ⟨hframes, congrArg Prod.snd hheader, hlocal, fun id hid => ?_, hunnamed,
    fun side p r hr f hf id hid hp => ?_, fun hn => ?_⟩
  · cases hplace : s.1.place? id with
    | none => exact hframes.place?_none htrims.filed hafter.filed hplace
    | some pl =>
      obtain ⟨side, p, a⟩ := pl
      obtain ⟨r, hr, rfl, hp⟩ := htrims.filed.place?_queueAt.mp hplace
      rw [hframes.place?_eq htrims.filed hafter.filed hr hp,
        hunnamed side p r hr (.inr fun f hf => hp ▸ hid f hf)]
      rfl
  · have hplace := hframes.place?_eq htrims.filed hafter.filed hr hp
    have hbefore : s.1.place? id = some ⟨side, p, r.handle⟩ :=
      htrims.filed.place?_queueAt.mpr ⟨r, hr, rfl, hp⟩
    obtain ⟨hr, hcounts⟩ := hcounts hr
    have hparty : f.passive = r.order.party := hid.trans hp.symm
    obtain ⟨-, q, hfair⟩ := hc.applied_named hu (hfills ▸ hf) hr hparty
    have hleaves := hc.applied_leaves hu (hfills ▸ hf) hr hparty
    rw [hfills] at hleaves
    obtain hsome | ⟨hnone, hz⟩ := hleaves
    · rw [hsome] at hplace
      exact .inl ⟨_, hsome, rfl, fill_le_of_fair hfair hcounts, hplace.trans hbefore.symm⟩
    · rw [hnone] at hplace
      exact .inr ⟨hnone, hz, hplace⟩
  · have hnone : fills = [] := by
      rw [← hfills, applied_of_negligible now hn]
      exact (hc.dropAggregate u).uncross.2.2
    obtain ⟨aggregate, hshown, hhere⟩ := hframes.here
    rw [LevelUpdate.shown, hn, Bool.true_or, if_pos rfl, List.map_eq_nil_iff] at hshown
    refine ⟨hnone, ?_⟩
    rw [hhere, hshown, List.nil_append, hnone, Resting.filterMap_filledBy?_nil fun r hr =>
      (hcounts (List.mem_filter.mp hr).1).2]

def waitingAsks : List (Call Float) :=
  [.submit ⟨1, .sell, 10, 2, []⟩, .submit ⟨2, .sell, 10, 3, []⟩, .updateLevel ⟨.sell, 9, 5⟩,
    .updateLevel ⟨.buy, 8, 4⟩]

/-- An update that uses up one order and takes a part of the next passes over the aggregate ahead of
them, and over the one on its own side. -/
theorem framed_after_waitingAsks :
    let s := after (pure 0) waitingAsks (empty [], ())
    let u : LevelUpdate Float := ⟨.buy, 10, 3⟩
    Discreet (pure 0 : BookM Float Unit Float) ∧ u.fault? = none ∧ ∃ fills residual s',
      (updateLevel (pure 0) u).run s = (.ok (.applied fills residual), s') ∧
        fills = [⟨.local 1, .external, 10, 2, .buy, true⟩,
          ⟨.local 2, .external, 10, 1, .buy, true⟩] ∧
        s'.1.queueAt .sell 9 = s.1.queueAt .sell 9 ∧ s'.1.queueAt .buy 8 = s.1.queueAt .buy 8 ∧
          (s'.1.queueAt .sell 10).map (·.order.sizes) = [(.local 2, 2, 3, 1)] := by
  intro s u
  have hu : u.fault? = none := by decide +kernel
  obtain ⟨hruns, hframe⟩ := framed_after (discreet_pure 0) waitingAsks [] () hu
  obtain ⟨fills, residual, s', hrun⟩ := hruns (reliable_pure 0)
  obtain ⟨hframes, -, -, -, hunnamed, -⟩ := hframe fills residual s' hrun
  have hfills : fills = [⟨.local 1, .external, 10, 2, .buy, true⟩,
      ⟨.local 2, .external, 10, 1, .buy, true⟩] := by
    have hf : ((updateLevel (pure 0) u).run s).1.toOption.map UpdateResult.fills =
        some [⟨.local 1, .external, 10, 2, .buy, true⟩,
          ⟨.local 2, .external, 10, 1, .buy, true⟩] := by decide +kernel
    rw [hrun] at hf
    exact Option.some.inj hf
  have hstays : ∀ side p, (side, p) ≠ (u.side, u.price) →
      (∀ r ∈ s.1.queueAt side p, r.order.party = .external) →
        s'.1.queueAt side p = s.1.queueAt side p := fun side p hne hext => by
    rw [hframes.elsewhere side p hne,
      List.filterMap_congr fun r hr => hunnamed side p r hr (.inl (hext r hr)), List.filterMap_some]
  refine ⟨discreet_pure 0, hu, fills, residual, s', hrun, hfills, hstays .sell 9 ?_ ?_,
    hstays .buy 8 ?_ ?_, ?_⟩
  · decide +kernel
  · decide +kernel
  · decide +kernel
  · decide +kernel
  · rw [hframes.elsewhere .sell 10 (by decide +kernel), hfills]
    decide +kernel

end Doubles

end LimitBook.Book
