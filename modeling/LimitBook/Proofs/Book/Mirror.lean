import LimitBook.Proofs.Book.Effect

namespace LimitBook

variable {α : Type} [Scalar α]

namespace LevelUpdate

def isFor (side : Side) (p : α) (u : LevelUpdate α) : Bool := u.side = side && u.price == p

/-- The size that the last of some updates for a price gives it, if there is one and it counts. -/
def standing? (us : List (LevelUpdate α)) (side : Side) (p : α) : Option α :=
  ((us.filter (·.isFor side p)).getLast?.map (·.totalQty)).filter (!negligible ·)

variable {us : List (LevelUpdate α)} {u : LevelUpdate α} {side : Side} {p : α}

theorem standing?_append_of_not (h : u.isFor side p = false) :
    standing? (us ++ [u]) side p = standing? us side p := by
  simp [standing?, List.filter_append, h]

theorem standing?_append (h : u.isFor side p = true) :
    standing? (us ++ [u]) side p = if negligible u.totalQty then none else some u.totalQty := by
  cases hn : negligible u.totalQty <;> simp [standing?, List.filter_append, h, hn]

theorem isFor_iff [Scalar.Lawful α] (h : Scalar.isPositive u.price = true) :
    u.isFor side p = true ↔ side = u.side ∧ p = u.price := by
  unfold isFor
  rw [Bool.and_eq_true, decide_eq_true_eq]
  constructor
  · rintro ⟨rfl, hp⟩
    exact ⟨rfl, (Scalar.eq_of_beq h hp).symm⟩
  · rintro ⟨rfl, rfl⟩
    exact ⟨rfl, Scalar.beq_self (Scalar.isPositive.finite h)⟩

end LevelUpdate

open LevelUpdate

/-- What an order shows of who it belongs to and of what has become of it. -/
def Order.sizes (o : Order α) : Party × α × α × α := (o.party, o.remaining, o.original, o.filled)

namespace Book

/-- What the orders at a price show, from the head, if there is a level. -/
def shows? (b : Book α) (side : Side) (p : α) : Option (List (Party × α × α × α)) :=
  ((b.ladder side).level? p).map fun k => k.orders.map Order.sizes

variable [Scalar.Lawful α] {b b' : Book α} {us : List (LevelUpdate α)} {u : LevelUpdate α}

section Posted

variable {k : Level α} {now : α}

omit [Scalar.Lawful α] in
theorem stamped_sizes {r : Resting α}
    (hr : aggregate? (stamped b u now (resized u k)) = some r) :
    r.order.sizes = (.external, u.totalQty, u.totalQty, Scalar.zero) := by
  have hhead : (stamped b u now (resized u k)).queue.head?.map (fun x => x.order.sizes) =
      some (.external, u.totalQty, u.totalQty, Scalar.zero) := by
    cases ha : aggregate? k with
    | none => simp [stamped, resized, ha, Level.pushFront_queue, newAggregate, Order.sizes]
    | some x =>
      obtain ⟨rs, hq, hp⟩ := aggregate?_eq_some.mp ha
      have hqueue : (resized u k).queue = ⟨x.handle, { x.order with
          remaining := u.totalQty, original := u.totalQty, filled := Scalar.zero }⟩ :: rs := by
        simp [resized, ha, Level.updateFront, hq]
      have ha' := aggregate?_eq_some.mpr ⟨rs, hqueue, hp⟩
      simp [stamped, ha', Level.updateFront, hqueue, Order.sizes, hp]
  obtain ⟨rs, hq, -⟩ := aggregate?_eq_some.mp hr
  rw [hq] at hhead
  exact Option.some.inj hhead

/-- The aggregate of an update, once it is in its place, has the size of the update untouched. -/
theorem Filed.posted_sizes (h : b.Filed) (hp : Scalar.isPositive u.price = true) {r : Resting α}
    (hk : k ∈ (b.posted u now).levels u.side) (hkp : k.price = u.price)
    (hr : aggregate? k = some r) :
    r.order.sizes = (.external, u.totalQty, u.totalQty, Scalar.zero) := by
  obtain ⟨front, old, back, j, -, -, -, hjp, -, hr', -, -, -⟩ := h.resize_ranks hp
  have hprice := (resized_price u j).trans hjp
  obtain ⟨hranks, -, -, -⟩ := stamp_ranks now hr' hprice
  have hj : k = stamped (b.resize u) u now (resized u j) := by
    rw [posted, levels_eq hranks] at hk
    refine hranks.eq_of_price hk (by simp) ?_
    rw [hkp, stamped_price, hprice]
  exact stamped_sizes (hj ▸ hr)

end Posted

omit [Scalar α] [Scalar.Lawful α] in
theorem mem_of_price_ne {ks ks' : List (Level α)} {k k' j : Level α} (h : Ladder.Swaps k k' ks ks')
    (hp : k'.price = k.price) (hj : j.price ≠ k.price) : j ∈ ks' ↔ j ∈ ks := by
  obtain ⟨front, old, new, back, rfl, rfl, hold, hnew⟩ := h
  have hshows : ∀ {i : Level α} {ls : List (Level α)}, Ladder.Shows i ls → i.price = k.price →
      j ∉ ls := by
    rintro i ls (rfl | ⟨rfl, -⟩) hi hm
    · rw [List.mem_singleton.mp hm] at hj
      exact hj hi
    · cases hm
  simp only [List.mem_append, hshows hold rfl, hshows hnew hp]

/-- For each price of either side, `b` shows an aggregate of the size that stands of it after the
updates `us`, and nothing else. -/
structure Mirrors (b : Book α) (us : List (LevelUpdate α)) : Prop where
  sound : b.Sound
  shown : ∀ side p v, (∃ k ∈ b.levels side, k.price = p ∧ k.orders.map Order.sizes = v) ↔
    ∃ q, standing? us side p = some q ∧ v = [(.external, q, q, Scalar.zero)]

omit [Scalar.Lawful α] in
theorem Mirrors.single (h : b.Mirrors us) {side : Side} {k : Level α} (hk : k ∈ b.levels side) :
    ∃ r, k.queue = [r] ∧ r.order.party = .external := by
  obtain ⟨q, -, hv⟩ := (h.shown side k.price _).mp ⟨k, hk, rfl, rfl⟩
  rw [Level.orders, List.map_map, List.map_eq_singleton_iff] at hv
  obtain ⟨r, hr, hsizes⟩ := hv
  exact ⟨r, hr, congrArg Prod.fst hsizes⟩

omit [Scalar.Lawful α] in
theorem Mirrors.bare (h : b.Mirrors us) {side : Side} {k : Level α} (hk : k ∈ b.levels side) :
    k.Bare := by
  obtain ⟨r, hq, hp⟩ := h.single hk
  intro x hx
  rw [hq, List.mem_singleton] at hx
  rw [hx]
  exact Order.isLocal_eq_false hp

theorem mirrors_clear (h : b.Filed) : b.clear.Mirrors [] where
  sound := h.sound_clear
  shown side p v := by
    constructor
    · rintro ⟨k, hk, -⟩
      cases side <;> cases hk
    · rintro ⟨q, hq, -⟩
      cases hq

omit [Scalar.Lawful α] in
theorem Mirrors.shut (h : b.Mirrors us) : b.shut.Mirrors us := ⟨h.sound.shut, h.shown⟩

omit [Scalar.Lawful α] in
theorem Mirrors.reopened (h : b.Mirrors us) : b.reopened.Mirrors us := ⟨h.sound.reopened, h.shown⟩

omit [Scalar.Lawful α] in
theorem Mirrors.numbered (h : b.Mirrors us) (seq : Option α) :
    { b with sequenceId := seq }.Mirrors us := ⟨h.sound.numbered seq, h.shown⟩

theorem Mirrors.uncross (h : b.Mirrors us) : b.uncross.2.Mirrors us ∧ b.uncross.1.1 = [] := by
  obtain ⟨hs, hlevels, hfills⟩ := h.sound.uncross
  refine ⟨⟨hs, fun side p v => ?_⟩, hfills⟩
  rw [hlevels]
  exact h.shown side p v

/-- What a mirror needs to take an update: at its price it shows the update, and all else stays. -/
theorem Mirrors.next (h : b.Mirrors us) (hu : u.fault? = none) (hs : b'.Sound)
    (hopp : b'.levels u.side.opposite = b.levels u.side.opposite)
    (hrest : ∀ j : Level α, j.price ≠ u.price → (j ∈ b'.levels u.side ↔ j ∈ b.levels u.side))
    (hnew : ∀ v, (∃ k ∈ b'.levels u.side, k.price = u.price ∧ k.orders.map Order.sizes = v) ↔
      negligible u.totalQty = false ∧ v = [(.external, u.totalQty, u.totalQty, Scalar.zero)]) :
    b'.Mirrors (us ++ [u]) where
  sound := hs
  shown side p v := by
    have hfor : u.isFor side p = true ↔ side = u.side ∧ p = u.price :=
      isFor_iff (fault?_eq_none hu).1
    by_cases hat : side = u.side ∧ p = u.price
    · obtain ⟨rfl, rfl⟩ := hat
      rw [hnew, standing?_append (hfor.mpr ⟨rfl, rfl⟩)]
      cases negligible u.totalQty <;> simp [eq_comm]
    · have hlevels : ∀ s : Side, ∀ k : Level α, ¬(s = u.side ∧ k.price = u.price) →
          (k ∈ b'.levels s ↔ k ∈ b.levels s) :=
        Side.forall_of u.side (fun k hk => hrest k fun hp => hk ⟨rfl, hp⟩)
          fun k _ => by rw [hopp]
      rw [standing?_append_of_not (Bool.eq_false_iff.mpr (mt hfor.mp hat)), ← h.shown side p v]
      refine exists_congr fun k => and_congr_left fun hk => hlevels side k ?_
      rw [hk.1]
      exact hat

omit [Scalar α] [Scalar.Lawful α] in
theorem shows_of_ne {k : Level α} {ls : List (Level α)} (h : Ladder.Shows k ls)
    (hne : k.queue ≠ []) : ls = [k] := h.resolve_right fun hq => hne hq.2

omit [Scalar α] [Scalar.Lawful α] in
theorem mem_of_swaps {ks ks' : List (Level α)} {k k' : Level α} (h : Ladder.Swaps k k' ks ks')
    (hne : k'.queue ≠ []) : k' ∈ ks' := by
  obtain ⟨front, old, new, back, -, rfl, -, hnew⟩ := h
  simp [shows_of_ne hnew hne]

theorem not_mem_of_swaps {l : Ladder α} {side : Side} {ks ks' : List (Level α)} {k k' : Level α}
    (hr : l.Ranks side ks) (h : Ladder.Swaps k k' ks ks') (hk : k.queue ≠ [])
    (hne : k'.queue ≠ k.queue) : k ∉ ks' := by
  obtain ⟨front, old, new, back, rfl, rfl, hold, hnew⟩ := h
  rw [shows_of_ne hold hk, List.append_assoc, List.singleton_append] at hr
  intro hm
  rw [List.append_assoc, (List.perm_append_comm_assoc ..).mem_iff, List.mem_append] at hm
  obtain hm | hm := hm
  · obtain rfl | ⟨rfl, -⟩ := hnew
    · exact hne (congrArg Level.queue (List.mem_singleton.mp hm)).symm
    · cases hm
  · exact hr.price_ne k hm rfl

theorem Mirrors.posted (h : b.Mirrors us) (now : α) (hu : u.fault? = none)
    (hn : negligible u.totalQty = false) : (b.posted u now).Mirrors (us ++ [u]) := by
  obtain ⟨k, own, o, hp⟩ := h.sound.posts now hu hn
  have hkp : k.price = u.price := hp.changes.price.symm.trans hp.price
  have hk : k.queue.filter (·.order.isLocal) = [] := by
    obtain hk | hk := hp.changes.found
    · exact Level.bare_iff.mp (h.bare hk)
    · rw [hk]
      rfl
  obtain ⟨a, hqueue⟩ := hp.queue
  rw [hk] at hqueue
  have hagg : aggregate? own = some ⟨a, o⟩ := aggregate?_eq_some.mpr ⟨[], hqueue, hp.party⟩
  have hbare : ∀ j ∈ (b.posted u now).levels u.side, j.Bare := fun j hj => by
    obtain hj | ⟨rfl, -⟩ := hp.changes.stands j hj
    · exact h.bare hj
    · intro x hx
      rw [hqueue, List.mem_singleton] at hx
      rw [hx]
      exact Order.isLocal_eq_false hp.party
  have hs : (b.posted u now).Sound := by
    refine ⟨hp.filed, hp.sound_levels h.sound, apart_of_side u.side fun i hi j hj _ => ?_⟩
    exact ⟨hbare i hi, h.bare (hp.changes.opposite ▸ hj)⟩
  have hown := mem_of_swaps hp.changes.swaps hp.sound.nonempty
  have hsizes : own.orders.map Order.sizes =
      [(.external, u.totalQty, u.totalQty, Scalar.zero)] := by
    rw [Level.orders, hqueue, List.map_singleton, List.map_singleton,
      h.sound.toFiled.posted_sizes (fault?_eq_none hu).1 hown hp.price hagg]
  refine h.next hu hs hp.changes.opposite (fun j hj => ?_) fun v => ⟨?_, ?_⟩
  · exact mem_of_price_ne hp.changes.swaps hp.changes.price (hkp ▸ hj)
  · rintro ⟨j, hj, hjp, rfl⟩
    obtain rfl := (hp.filed.ranks u.side).eq_of_price hj hown (hjp.trans hp.price.symm)
    exact ⟨hn, hsizes⟩
  · rintro ⟨-, rfl⟩
    exact ⟨own, hown, hp.price, hsizes⟩

theorem Mirrors.mem_dropAggregate (h : b.Mirrors us) {j : Level α} :
    j ∈ (b.dropAggregate u).levels u.side ↔ j ∈ b.levels u.side ∧ j.price ≠ u.price := by
  obtain ⟨-, ⟨hb, hagg⟩ | ⟨k, r, rs, hk, hkp, hq, -, -, hc⟩⟩ := h.sound.toFiled.dropAggregate u
  · rw [hb, iff_self_and]
    intro hj hjp
    obtain ⟨r, hr, hp⟩ := h.single hj
    have hnone := hagg j hj hjp
    rw [aggregate?_eq_some.mpr ⟨[], hr, hp⟩] at hnone
    cases hnone
  · have hrs : (k.lose r rs).queue = [] := by
      obtain ⟨x, hx, -⟩ := h.single hk
      exact (List.cons.inj (hq.symm.trans hx)).2
    have hkeep : j.price ≠ u.price →
        (j ∈ (b.dropAggregate u).levels u.side ↔ j ∈ b.levels u.side) := fun hj =>
      mem_of_price_ne hc.swaps hc.price (hkp ▸ hj)
    refine ⟨fun hj => ?_, fun ⟨hj, hjp⟩ => (hkeep hjp).mpr hj⟩
    have hjp : j.price ≠ u.price := by
      intro hjp
      obtain hj' | ⟨-, hne⟩ := hc.stands j hj
      · obtain rfl := (h.sound.ranks u.side).eq_of_price hj' hk (hjp.trans hkp.symm)
        exact not_mem_of_swaps (h.sound.ranks u.side) hc.swaps (by simp [hq]) (by simp [hq, hrs]) hj
      · exact hne hrs
    exact ⟨(hkeep hjp).mp hj, hjp⟩

theorem Mirrors.dropAggregate (h : b.Mirrors us) (hu : u.fault? = none)
    (hn : negligible u.totalQty = true) : (b.dropAggregate u).Mirrors (us ++ [u]) := by
  have hopposite : (b.dropAggregate u).levels u.side.opposite = b.levels u.side.opposite := by
    obtain ⟨-, ⟨hb, -⟩ | ⟨k, r, rs, -, -, -, -, -, hc⟩⟩ := h.sound.toFiled.dropAggregate u
    · rw [hb]
    · exact hc.opposite
  refine h.next hu (h.sound.dropAggregate u) hopposite (fun j hj => ?_) fun v => ⟨?_, ?_⟩
  · exact h.mem_dropAggregate.trans (and_iff_left hj)
  · rintro ⟨j, hj, hjp, -⟩
    exact absurd hjp (h.mem_dropAggregate.mp hj).2
  · rintro ⟨hcounts, -⟩
    rw [hn] at hcounts
    cases hcounts

theorem Mirrors.applied (h : b.Mirrors us) (now : α) (hu : u.fault? = none) :
    (b.applied u now).2.Mirrors (us ++ [u]) ∧ (b.applied u now).1.1 = [] := by
  cases hn : negligible u.totalQty with
  | true =>
    rw [applied_of_negligible now hn]
    exact (h.dropAggregate hu hn).uncross
  | false =>
    rw [applied_of_counts now hn]
    exact (h.posted now hu hn).uncross

theorem Mirrors.applies {fills : List (Fill α)} {more : List (LevelUpdate α)} (h : b.Mirrors us)
    (ha : Applies b more fills b') (hu : ∀ u ∈ more, u.fault? = none) :
    b'.Mirrors (us ++ more) ∧ fills = [] := by
  induction ha generalizing us with
  | nil => exact ⟨by rwa [List.append_nil], rfl⟩
  | cons u now _ ih =>
    obtain ⟨hu, hmore⟩ := List.forall_mem_cons.mp hu
    obtain ⟨hnext, hfirst⟩ := h.applied now hu
    obtain ⟨hm, hfills⟩ := ih hnext hmore
    rw [List.append_cons]
    exact ⟨hm, by rw [hfirst, hfills, List.append_nil]⟩

theorem Mirrors.shows?_eq (h : b.Mirrors us) (side : Side) (p : α) :
    b.shows? side p = (standing? us side p).map fun q => [(.external, q, q, Scalar.zero)] := by
  unfold shows?
  refine Option.ext fun v => ?_
  have hshown := h.shown side p v
  simp only [Option.map_eq_some_iff, (h.sound.ranks side).level?_eq_some, and_assoc]
  exact hshown.trans (exists_congr fun q => and_congr_right fun _ => eq_comm)

omit [Scalar.Lawful α] in
theorem Mirrors.size_eq (h : b.Mirrors us) : b.size = 0 := by
  have hentries : ∀ side, Ladder.entries (b.levels side) = [] := by
    intro side
    refine List.flatMap_eq_nil_iff.mpr fun k hk => List.eq_nil_iff_forall_not_mem.mpr fun e he => ?_
    obtain ⟨r, hr, hp, -⟩ := mem_entries.mp he
    have hlocal := h.bare hk r hr
    rw [Order.isLocal, hp] at hlocal
    cases hlocal
  have hindex := h.sound.index
  rw [hentries, hentries] at hindex
  exact hindex.length_eq

theorem Mirrors.mem_prices (h : b.Mirrors us) (side : Side) (p : α) :
    p ∈ (b.ladder side).prices ↔ (standing? us side p).isSome = true := by
  have hlevel := congrArg Option.isSome (h.shows?_eq side p)
  rw [shows?, Option.isSome_map, Option.isSome_map] at hlevel
  rw [← hlevel, (h.sound.ranks side).prices, Option.isSome_iff_exists, List.mem_map]
  exact exists_congr fun k => (h.sound.ranks side).level?_eq_some.symm

theorem Mirrors.prices_eq {us' : List (LevelUpdate α)} (h : b.Mirrors us) (h' : b'.Mirrors us')
    {side : Side} (hs : ∀ p, standing? us' side p = standing? us side p) :
    (b'.ladder side).prices = (b.ladder side).prices := by
  have hmem : ∀ p, p ∈ (b'.ladder side).prices ↔ p ∈ (b.ladder side).prices := fun p => by
    rw [h.mem_prices, h'.mem_prices, hs]
  have hsorted : ∀ {b : Book α}, b.Sound →
      (b.ladder side).prices.Pairwise fun p q => Ladder.better side p q = true := fun h => by
    rw [(h.ranks side).prices]
    exact List.pairwise_map.mpr (h.ranks side).sorted
  have hperm : (b'.ladder side).prices.Perm (b.ladder side).prices :=
    (List.perm_ext_iff_of_nodup ((hsorted h'.sound).imp Ladder.better_ne)
      ((hsorted h.sound).imp Ladder.better_ne)).mpr hmem
  exact hperm.eq_of_pairwise (fun _ _ _ _ hpq hqp => absurd hqp (Ladder.better_asymm hpq))
    (hsorted h'.sound) (hsorted h.sound)

end Book

end LimitBook
