import LimitBook.Proofs.Book.Sound

namespace LimitBook.Book

variable {α : Type} [Scalar α] [Scalar.Lawful α] {b : Book α} {side : Side}

/-- The book with the aggregate of an update in its place, before the sweep. -/
def posted (b : Book α) (u : LevelUpdate α) (now : α) : Book α := (b.resize u).stamp u now

section Posted

variable {u : LevelUpdate α} {now : α} {k : Level α} {n : Nat}

omit [Scalar.Lawful α] in
theorem filter_behind {r : Resting α} {rs : List (Resting α)}
    (h : Level.Orderly n ((r :: rs).map Resting.terms)) :
    rs.filter (·.order.isLocal) = rs :=
  List.filter_eq_self.mpr fun _ hx => h.behind _ (List.mem_map_of_mem hx)

omit [Scalar.Lawful α] in
theorem filter_of_no_aggregate (h : Level.Orderly n (k.queue.map Resting.terms))
    (ha : aggregate? k = none) : k.queue.filter (·.order.isLocal) = k.queue := by
  cases hq : k.queue with
  | nil => rfl
  | cons r rs =>
    rw [hq] at h
    have hlocal : r.order.isLocal = true := by
      simpa [aggregate?, hq] using ha
    rw [List.filter_cons, if_pos hlocal, filter_behind h]

omit [Scalar.Lawful α] in
theorem stamped_queue (now : α) (hk : Level.Orderly b.arrivals (k.queue.map Resting.terms))
    (harr : (b.resize u).arrivals = b.arrivals) :
    ∃ h o, (stamped (b.resize u) u now (resized u k)).queue =
        ⟨h, o⟩ :: k.queue.filter (·.order.isLocal) ∧
      o.party = .external ∧ o.remaining = u.totalQty ∧
        o.arrival ≤ if (aggregate? (resized u k)).isSome then b.arrivals else b.arrivals + 1 := by
  cases ha : aggregate? k with
  | none =>
    have hr : resized u k = k := by simp [resized, ha]
    have hs : (stamped (b.resize u) u now k).queue =
        ⟨(k.pushFront (newAggregate (b.resize u) u now)).1, newAggregate (b.resize u) u now⟩ ::
          k.queue := by
      simp [stamped, ha, Level.pushFront_queue]
    refine ⟨_, _, by rw [hr, hs, filter_of_no_aggregate hk ha], rfl, rfl, ?_⟩
    simp [hr, ha, newAggregate, harr]
  | some r =>
    obtain ⟨rs, hq, hp⟩ := aggregate?_eq_some.mp ha
    have hlocal : ¬r.order.isLocal = true := by simp [Order.isLocal_eq_false hp]
    have harrived : r.order.arrival ≤ b.arrivals :=
      hk.arrived r.terms (List.mem_map_of_mem (hq ▸ List.mem_cons_self))
    have hr : (resized u k).queue = ⟨r.handle, { r.order with
        remaining := u.totalQty, original := u.totalQty, filled := Scalar.zero }⟩ :: rs := by
      simp [resized, ha, Level.updateFront, hq]
    have ha' : aggregate? (resized u k) = some ⟨r.handle, { r.order with
        remaining := u.totalQty, original := u.totalQty, filled := Scalar.zero }⟩ :=
      aggregate?_eq_some.mpr ⟨rs, hr, hp⟩
    have hs : (stamped (b.resize u) u now (resized u k)).queue = ⟨r.handle, { r.order with
        remaining := u.totalQty, original := u.totalQty, filled := Scalar.zero,
        timestamp := now }⟩ :: rs := by
      simp [stamped, ha', Level.updateFront, hr]
    rw [hq] at hk
    refine ⟨r.handle, { r.order with
      remaining := u.totalQty, original := u.totalQty, filled := Scalar.zero,
      timestamp := now }, ?_, hp, rfl, ?_⟩
    · rw [hs, hq, List.filter_cons, if_neg hlocal, filter_behind hk]
    · simpa [ha'] using harrived

omit [Scalar.Lawful α] in
theorem fault?_eq_none (hu : u.fault? = none) :
    Scalar.isPositive u.price = true ∧ Scalar.isFinite u.totalQty = true := by
  unfold LevelUpdate.fault? at hu
  split at hu
  · cases hu
  · split at hu
    · cases hu
    · simp_all [Scalar.isNonneg]

/-- `b'` is `b` with the aggregate `o` of an update in its place, at the head of the level `own`. -/
structure Posts (b b' : Book α) (u : LevelUpdate α) (k own : Level α) (o : Order α) : Prop where
  filed : b'.Filed
  changes : Changes b b' u.side k own
  price : own.price = u.price
  queue : ∃ h, own.queue = ⟨h, o⟩ :: k.queue.filter (·.order.isLocal)
  party : o.party = .external
  side : o.side = u.side
  remaining : o.remaining = u.totalQty
  sound : own.Sound b'.arrivals
  arrivals : b.arrivals ≤ b'.arrivals

theorem Filed.posted_changes (h : b.Filed) (hp : Scalar.isPositive u.price = true) (now : α) :
    ∃ k, k.price = u.price ∧ k.Kept u.side ∧
      Changes b (b.posted u now) u.side k (stamped (b.resize u) u now (resized u k)) ∧
        (b.resize u).arrivals = b.arrivals ∧ (b.posted u now).arrivals =
          if (aggregate? (resized u k)).isSome then b.arrivals else b.arrivals + 1 := by
  obtain ⟨front, old, back, k, hlevels, hold, hempty, hkp, hkept, hr, hj, -, harr⟩ :=
    h.resize_ranks hp
  obtain ⟨hr', hj', -, harr'⟩ := stamp_ranks now hr ((resized_price u k).trans hkp)
  have hkeep : Ladder.kept (stamped (b.resize u) u now (resized u k)) =
      [stamped (b.resize u) u now (resized u k)] :=
    (Ladder.shows_kept _).resolve_right fun hnone => stamped_nonempty now _ hnone.2
  refine ⟨k, hkp, hkept, ?_, harr, by rw [posted, harr', harr]⟩
  exact changes_of_ranks hlevels hold hempty ((stamped_price _ _ _ _).trans (resized_price u k))
    (by rw [hkeep]; simpa [posted] using hr') (hj'.trans hj)

theorem Sound.posts (h : b.Sound) (now : α) (hu : u.fault? = none)
    (hn : negligible u.totalQty = false) :
    ∃ k own o, Posts b (b.posted u now) u k own o := by
  obtain ⟨hp, hfin⟩ := fault?_eq_none hu
  obtain ⟨k, hkp, hkept, hc, harr, harr'⟩ := h.toFiled.posted_changes hp now
  have hprice : (resized u k).price = u.price := (resized_price u k).trans hkp
  have hf := (h.toFiled.resize hp).stamp (u := u) now
  obtain ⟨hcounts, horderly⟩ := found_sound (hc.found.imp_left (h.sound u.side k))
  obtain ⟨a, o, hq, hparty, hrem, harrived⟩ := stamped_queue now horderly harr
  have harr'' : b.arrivals ≤ (b.posted u now).arrivals := by
    rw [harr']
    split <;> omega
  have hown : (stamped (b.resize u) u now (resized u k)).Sound (b.posted u now).arrivals := by
    refine ⟨⟨stamped_nonempty now _, stamped_counted (resized_counted hcounts ⟨hfin, hn⟩)
      ⟨hfin, hn⟩⟩, ?_⟩
    have hterms : (⟨a, o⟩ :: k.queue.filter (·.order.isLocal)).map Resting.terms =
        Resting.terms ⟨a, o⟩ :: (k.queue.map Resting.terms).filter (·.2.isLocal) := by
      rw [List.map_cons, List.filter_map]
      rfl
    rw [hq, hterms]
    refine horderly.aggregate (Order.isLocal_eq_false hparty) harr'' ?_
    rw [harr']
    exact harrived
  have hside : o.side = u.side :=
    ((stamped_kept (resized_kept hkept) hprice).terms ⟨a, o⟩ (hq ▸ List.mem_cons_self)).1
  exact ⟨k, _, o, hf, hc, (stamped_price _ _ _ _).trans hprice, ⟨a, hq⟩, hparty, hside, hrem, hown,
    harr''⟩

end Posted

section Swept

variable {t : Match.Run α} {own : Level α} {ks : List (Level α)}

theorem uncross_buys {bs : List (Level α)} (h : (Sweep.sweep b.bids b.asks).bids.Ranks .buy bs) :
    b.uncross.2.levels .buy = bs := levels_eq (by rwa [Book.uncross, release_ladder])

theorem uncross_sells {as : List (Level α)} (h : (Sweep.sweep b.bids b.asks).asks.Ranks .sell as) :
    b.uncross.2.levels .sell = as := levels_eq (by rwa [Book.uncross, release_ladder])

omit [Scalar.Lawful α] in
theorem uncross_arrivals : b.uncross.2.arrivals = b.arrivals := release_arrivals ..

theorem Filed.uncross_thins (h : b.Filed) (hs : ∀ side, ∀ k ∈ b.levels side, k.Stocked) :
    ∀ side, ∀ k ∈ b.uncross.2.levels side, k.Stocked ∧ ∃ j ∈ b.levels side, k.Thins j := by
  obtain ⟨bs, as, _, _, hb, ha, hlb, hla, -⟩ :=
    Sweep.sweep_leaves (h.ranks .buy) (h.ranks .sell) (h.kept .buy) (h.kept .sell)
  obtain ⟨bs', as', hb', ha', hsb, hsa⟩ :=
    Sweep.sweep_stocked (h.ranks .buy) (h.ranks .sell) (hs .buy) (hs .sell)
  obtain rfl := hb.ranked.symm.trans hb'.ranked
  obtain rfl := ha.ranked.symm.trans ha'.ranked
  intro side k hk
  cases side with
  | buy =>
    rw [uncross_buys hb] at hk
    exact ⟨hsb k hk, hlb.thins k hk⟩
  | sell =>
    rw [uncross_sells ha] at hk
    exact ⟨hsa k hk, hla.thins k hk⟩

theorem Filed.uncross_quiet (h : b.Filed) (hs : ∀ side, ∀ k ∈ b.levels side, k.Stocked)
    (hq : Sweep.Apart (b.levels .buy) (b.levels .sell)) :
    (∀ side, b.uncross.2.levels side = b.levels side) ∧ b.uncross.1.1 = [] := by
  obtain ⟨hb, ha, hfills⟩ :=
    Sweep.sweep_quiet (h.ranks .buy) (h.ranks .sell) (hs .buy) (hs .sell) hq
  refine ⟨fun side => ?_, hfills⟩
  cases side
  · exact uncross_buys hb
  · exact uncross_sells ha

omit [Scalar.Lawful α] in
theorem Sound.stocked (h : b.Sound) : ∀ side, ∀ k ∈ b.levels side, k.Stocked := fun side k hk =>
  (h.sound side k hk).toStocked

theorem Sound.uncross (h : b.Sound) :
    b.uncross.2.Sound ∧ (∀ side, b.uncross.2.levels side = b.levels side) ∧ b.uncross.1.1 = [] :=
  ⟨h.thins h.toFiled.uncross (Nat.le_of_eq uncross_arrivals.symm)
      (h.toFiled.uncross_thins h.stocked),
    h.toFiled.uncross_quiet h.stocked h.apart⟩

/-- An aggregate at the head of its side goes through a sweep as an incoming order goes through the
local orders of the other side. -/
theorem Filed.uncross_shadows (h : b.Filed) (hs : ∀ side, ∀ k ∈ b.levels side, k.Stocked)
    (hl : b.levels side = own :: ks) (hsh : Sweep.Shadows own [] t) (hside : t.taker.side = side)
    (ht : Scalar.isFinite t.taker.remaining = true)
    (hq : ∀ k ∈ ks, ∀ j ∈ b.levels side.opposite,
      crosses side k.price j.price = true → k.Bare ∧ j.Bare) :
    ∃ own', b.uncross.2.levels side = Ladder.kept own' ++ ks ∧
      Sweep.Shadows own' b.uncross.1.1
        (Ladder.sift Match.turn (Ladder.copies (b.levels side.opposite)) t).1 ∧
      Ladder.copies (b.uncross.2.levels side.opposite) =
        (Ladder.sift Match.turn (Ladder.copies (b.levels side.opposite)) t).2 := by
  have hranks := h.ranks side
  have hkept := h.kept side
  have hstocked := hs side
  rw [hl] at hranks hkept hstocked
  cases side with
  | buy =>
    have hq' : Sweep.Apart ks (b.levels .sell) := fun k hk j hj hp =>
      hq k hk j hj (decide_eq_true hp)
    obtain ⟨own', as, hb, ha, hshadow, hcopies⟩ := Sweep.sweep_buys hsh hside hranks (h.ranks .sell)
      (fun k hk => ⟨hkept k hk, hstocked k hk⟩)
      (fun k hk => ⟨h.kept .sell k hk, hs .sell k hk⟩) hq'
    rw [← uncross_sells ha] at hcopies
    exact ⟨own', uncross_buys hb, hshadow, hcopies⟩
  | sell =>
    have hq' : Sweep.Apart (b.levels .buy) ks := fun k hk j hj hp =>
      (hq j hj k hk (decide_eq_true hp)).symm
    obtain ⟨own', bs, ha, hb, hshadow, hcopies⟩ := Sweep.sweep_sells hsh hside ht (h.ranks .buy)
      hranks (hs .buy) hstocked hq'
    rw [← uncross_buys hb] at hcopies
    exact ⟨own', uncross_sells ha, hshadow, hcopies⟩

end Swept

section Settled

variable {b' : Book α} {u : LevelUpdate α} {k own : Level α} {o t : Order α}

/-- What an update leaves when its aggregate has been matched as `m`: `own'` of the level `own`, and
the local orders of the other side that are left in `m`. -/
structure Settles (b' b'' : Book α) (u : LevelUpdate α) (k own : Level α)
    (m : Match.Run α × List (Level α)) : Prop where
  sound : b''.Sound
  opposing : Ladder.copies (b''.levels u.side.opposite) = m.2
  own : ∃ front back own', b'.levels u.side = front ++ own :: back ∧
    b''.levels u.side = front ++ Ladder.kept own' ++ back ∧ own'.price = u.price ∧
      own'.queue.filter (·.order.isLocal) = k.queue.filter (·.order.isLocal) ∧
        (own'.queue.filter (!·.order.isLocal)).map (·.order.remaining) =
          if negligible m.1.taker.remaining then [] else [m.1.taker.remaining]

omit [Scalar.Lawful α] in
theorem Posts.sound_levels (h : b.Sound) (hp : Posts b b' u k own o) :
    ∀ side, ∀ j ∈ b'.levels side, j.Sound b'.arrivals := by
  refine Side.forall_of u.side (fun j hj => ?_) fun j hj => ?_
  · obtain hj | ⟨rfl, -⟩ := hp.changes.stands j hj
    · exact (h.sound u.side j hj).mono hp.arrivals
    · exact hp.sound
  · rw [hp.changes.opposite] at hj
    exact (h.sound _ j hj).mono hp.arrivals

theorem Sound.update_quiet (h : b.Sound) (hp : Posts b b' u k own o)
    (hside : t.side = u.side) (hprice : t.price = u.price) (hrem : t.remaining = u.totalQty)
    (hn : negligible u.totalQty = false)
    (hq : ∀ j ∈ b.levels u.side.opposite,
      crosses u.side u.price j.price = true → own.Bare ∧ j.Bare) :
    Settles b' b'.uncross.2 u k own
        (Ladder.sift Match.turn (Ladder.copies (b.levels u.side.opposite)) ⟨t, [], []⟩) ∧
      b'.uncross.1.1 = (Ladder.sift Match.turn (Ladder.copies (b.levels u.side.opposite))
        ⟨t, [], []⟩).1.fills.map Fill.virtually := by
  have hsound : b'.Sound := by
    refine ⟨hp.filed, hp.sound_levels h, apart_of_side u.side fun i hi j hj hc => ?_⟩
    rw [hp.changes.opposite] at hj
    obtain hi | ⟨rfl, -⟩ := hp.changes.stands i hi
    · exact h.apart_side u.side hi hj hc
    · exact hq j hj (hp.price ▸ hc)
  obtain ⟨hsound', hlevels, hfills⟩ := hsound.uncross
  have hnone : ∀ j ∈ Ladder.copies (b.levels u.side.opposite),
      crosses t.side t.price j.price = false := by
    intro j hj
    obtain ⟨i, hi, rfl, hne⟩ := Ladder.mem_copies.mp hj
    refine Bool.eq_false_iff.mpr fun hc => hne (Level.bare_iff.mp (hq i hi ?_).2)
    rwa [hside, hprice] at hc
  rw [Match.sift_of_not_crosses hnone, hfills]
  refine ⟨⟨hsound', ?_, ?_⟩, rfl⟩
  · rw [hlevels, hp.changes.opposite]
  · obtain ⟨front, old, new, back, -, hnew, -, rfl | ⟨-, hempty⟩⟩ := hp.changes.swaps
    · obtain ⟨a, hqueue⟩ := hp.queue
      have hlocal := Order.isLocal_eq_false hp.party
      refine ⟨front, back, own, by simpa using hnew, ?_, hp.price, ?_, ?_⟩
      · rw [hlevels, hnew, Sweep.kept_of_stocked hp.sound.toStocked]
      · simp [hqueue, hlocal]
      · simp [hqueue, hlocal, hrem, hn, hp.remaining]
    · exact absurd hempty hp.sound.nonempty

theorem shadow_bare {n : Nat} {js js' : List (Level α)} {own' : Level α} {fills : List (Fill α)}
    (hs : js.Pairwise fun i j => Ladder.better t.side.opposite i.price j.price = true)
    (hjs : ∀ j ∈ js, j.Sound n)
    (ht : Scalar.isFinite t.remaining = true)
    (hshadow : Sweep.Shadows own' fills (Ladder.sift Match.turn (Ladder.copies js) ⟨t, [], []⟩).1)
    (hcopies : Ladder.copies js' = (Ladder.sift Match.turn (Ladder.copies js) ⟨t, [], []⟩).2)
    (hne : own'.queue ≠ []) {j : Level α} (hj : j ∈ js')
    (hc : crosses t.side t.price j.price = true) : own'.Bare ∧ j.Bare := by
  obtain ⟨hempty, -⟩ | ⟨a, o', hq, hparty, -, -, hn⟩ := hshadow.own
  · exact absurd hempty hne
  · refine ⟨fun r hr => ?_, Level.bare_iff.mpr ?_⟩
    · rw [hq, List.mem_singleton] at hr
      rw [hr]
      exact Order.isLocal_eq_false hparty
    · -- A copy of `j` would be a level that the order could still trade with.
      by_contra hjne
      have hcopy : j.locals ∈ Ladder.copies js' := Ladder.mem_copies.mpr ⟨j, hj, rfl, hjne⟩
      rw [hcopies] at hcopy
      have hsound : ∀ i ∈ Ladder.copies js, i.Sound n := fun i hi => by
        obtain ⟨i', hi', rfl, hine⟩ := Ladder.mem_copies.mp hi
        exact (hjs i' hi').locals hine
      have hfree := Match.sift_drained ⟨t, [], []⟩ ht hsound (Ladder.copies_sorted hs) hn
        j.locals hcopy
      rw [show crosses t.side t.price j.locals.price = true from hc] at hfree
      cases hfree

theorem Sound.update_front (h : b.Sound) (hp : Posts b b' u k own o) {back : List (Level α)}
    (hback : b.levels u.side = back) (hfront : b'.levels u.side = own :: back) (hk : k.queue = [])
    (hside : t.side = u.side) (hprice : t.price = u.price) (hrem : t.remaining = u.totalQty)
    (hn : negligible u.totalQty = false) (hfin : Scalar.isFinite u.totalQty = true) :
    Settles b' b'.uncross.2 u k own
        (Ladder.sift Match.turn (Ladder.copies (b.levels u.side.opposite)) ⟨t, [], []⟩) ∧
      b'.uncross.1.1 = (Ladder.sift Match.turn (Ladder.copies (b.levels u.side.opposite))
        ⟨t, [], []⟩).1.fills.map Fill.virtually := by
  have hlevels := hp.sound_levels h
  have hstocked : ∀ side, ∀ j ∈ b'.levels side, j.Stocked := fun side j hj =>
    (hlevels side j hj).toStocked
  obtain ⟨a, hqueue⟩ := hp.queue
  have hshadow : Sweep.Shadows own [] ⟨t, [], []⟩ := by
    refine ⟨hp.price.trans hprice.symm, .inr ⟨a, o, ?_, hp.party, ?_, ?_, ?_⟩, rfl⟩
    · rw [hqueue, hk]
      rfl
    · exact hp.side.trans hside.symm
    · exact hp.remaining.trans hrem.symm
    · rw [hrem, hn]
  obtain ⟨own', hown, hshadow', hcopies⟩ := hp.filed.uncross_shadows hstocked hfront hshadow hside
    (hrem ▸ hfin) fun i hi j hj hc =>
      h.apart_side u.side (hback ▸ hi) (hp.changes.opposite ▸ hj) hc
  rw [hp.changes.opposite] at hshadow' hcopies
  have hthins := hp.filed.uncross_thins hstocked
  have hprice' : own'.price = u.price := by
    have hterms := congrArg Order.price
      (Match.sift_taker_terms (Ladder.copies (b.levels u.side.opposite)) ⟨t, [], []⟩)
    exact (hshadow'.price.trans hterms).trans hprice
  refine ⟨⟨⟨hp.filed.uncross, fun side j hj => ?_, ?_⟩, hcopies, ?_⟩, hshadow'.fills⟩
  · obtain ⟨hs, i, hi, ht⟩ := hthins side j hj
    exact ((hlevels side i hi).thins ht hs).mono (Nat.le_of_eq uncross_arrivals.symm)
  · refine apart_of_side u.side fun i hi j hj hc => ?_
    obtain ⟨-, j', hj', htj⟩ := hthins u.side.opposite j hj
    rw [hp.changes.opposite] at hj'
    rw [hown] at hi
    obtain hi | hi := List.mem_append.mp hi
    · obtain ⟨rfl, hne⟩ := Ladder.mem_kept.mp hi
      rw [hprice', ← hprice, ← hside] at hc
      exact shadow_bare (by rw [hside]; exact (h.ranks u.side.opposite).sorted)
        (h.sound u.side.opposite) (hrem ▸ hfin) hshadow' hcopies hne hj hc
    · rw [htj.price] at hc
      exact (h.apart_side u.side (hback ▸ hi) hj' hc).imp_right htj.bare
  · obtain ⟨hempty, hn'⟩ | ⟨a, o', hq, hparty, -, hrem', hn'⟩ := hshadow'.own
    · exact ⟨[], back, own', hfront, hown, hprice', by simp [hempty, hk], by simp [hempty, hn']⟩
    · have hlocal := Order.isLocal_eq_false hparty
      exact ⟨[], back, own', hfront, hown, hprice', by simp [hq, hk, hlocal],
        by simp [hq, hlocal, hn', hrem']⟩

/-- An update with something to count matches its aggregate against the local orders of the other
side, as an incoming order. -/
theorem Sound.update (h : b.Sound) (hp : Posts b b' u k own o)
    (hside : t.side = u.side) (hprice : t.price = u.price) (hrem : t.remaining = u.totalQty)
    (hn : negligible u.totalQty = false) (hfin : Scalar.isFinite u.totalQty = true) :
    Settles b' b'.uncross.2 u k own
        (Ladder.sift Match.turn (Ladder.copies (b.levels u.side.opposite)) ⟨t, [], []⟩) ∧
      b'.uncross.1.1 = (Ladder.sift Match.turn (Ladder.copies (b.levels u.side.opposite))
        ⟨t, [], []⟩).1.fills.map Fill.virtually := by
  obtain ⟨a, hqueue⟩ := hp.queue
  have hbare : k.Bare → own.Bare := fun hk r hr => by
    have hk' : k.queue.filter (·.order.isLocal) = [] := Level.bare_iff.mp hk
    rw [hqueue, hk', List.mem_singleton] at hr
    rw [hr]
    exact Order.isLocal_eq_false hp.party
  obtain ⟨front, old, new, back, hold, hnew, hkold, rfl | ⟨-, hempty⟩⟩ := hp.changes.swaps
  · obtain rfl | ⟨rfl, hk⟩ := hkold
    · have hk : k ∈ b.levels u.side := by simp [hold]
      refine h.update_quiet hp hside hprice hrem hn fun j hj hc => ?_
      rw [← hp.price, hp.changes.price] at hc
      exact (h.apart_side u.side hk hj hc).imp_left hbare
    · cases front with
      | nil =>
        exact h.update_front hp (by simpa using hold) (by simpa using hnew) hk hside hprice hrem hn
          hfin
      | cons f front =>
        -- A better level of the side crosses all that the new one does.
        refine h.update_quiet hp hside hprice hrem hn fun j hj hc => ?_
        have hsorted := (hp.filed.ranks u.side).sorted
        rw [hnew, List.append_assoc, List.cons_append, List.pairwise_cons] at hsorted
        have hbetter := hsorted.1 own (by simp)
        rw [hp.price] at hbetter
        have hf := h.apart_side u.side (by simp [hold] : f ∈ b.levels u.side) hj
          (Match.crosses_of_better_limit hbetter hc)
        exact ⟨hbare (fun r hr => by simp [hk] at hr), hf.2⟩
  · exact absurd hempty hp.sound.nonempty

end Settled

/-- The trades of an update that is applied at a time, and the book after it. -/
def applied (b : Book α) (u : LevelUpdate α) (now : α) : (List (Fill α) × Bool) × Book α :=
  (if negligible u.totalQty then b.dropAggregate u else b.posted u now).uncross

section Applied

variable {u : LevelUpdate α}

omit [Scalar.Lawful α] in
theorem applied_of_negligible (now : α) (hn : negligible u.totalQty = true) :
    b.applied u now = (b.dropAggregate u).uncross := by
  rw [applied, if_pos hn]

omit [Scalar.Lawful α] in
theorem applied_of_counts (now : α) (hn : negligible u.totalQty = false) :
    b.applied u now = (b.posted u now).uncross := by
  rw [applied, hn, if_neg Bool.false_ne_true]

theorem Sound.applied (h : b.Sound) (now : α) (hu : u.fault? = none) :
    (b.applied u now).2.Sound := by
  cases hn : negligible u.totalQty with
  | true =>
    rw [applied_of_negligible now hn]
    exact (h.dropAggregate u).uncross.1
  | false =>
    obtain ⟨k, own, o, hp⟩ := h.posts now hu hn
    rw [applied_of_counts now hn]
    exact (h.update (t := b.newAggregate u now) hp rfl rfl rfl hn (fault?_eq_none hu).2).1.sound

end Applied

end LimitBook.Book
