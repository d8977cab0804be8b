import LimitBook.Proofs.Book.Effect
import LimitBook.Proofs.Scalar.Double

namespace LimitBook.Book

open BookM

section Standing

variable {α : Type} [Scalar α] {b b'' : Book α} {n : Nat} {k j : Level α}

/-- All orders that rest, on either side. -/
def resting (b : Book α) : List (Order α) := (b.bids.levels ++ b.asks.levels).flatMap Level.orders

theorem Filed.mem_levels (h : b.Filed) {side : Side} :
    k ∈ (b.ladder side).levels ↔ k ∈ b.levels side := (h.ranks side).mem

theorem Filed.locals_resting (h : b.Filed) : (b.resting.filter (·.isLocal)).Perm b.locals := by
  have hlevels : (b.bids.levels ++ b.asks.levels).Perm (b.levels .buy ++ b.levels .sell) :=
    (h.ranks .buy).levels.append (h.ranks .sell).levels
  have hperm := (hlevels.flatMap_right Level.orders).filter (·.isLocal)
  refine hperm.trans (List.Perm.of_eq ?_)
  rw [List.filter_flatMap, List.flatMap_append, locals, Journal.ladderOrders, Journal.ladderOrders]
  congr 1 <;>
  · refine List.flatMap_congr fun k _ => ?_
    rw [Level.orders, List.filter_map]
    rfl

omit [Scalar α] in
theorem ids_filter (os : List (Order α)) : ids (os.filter (·.isLocal)) = ids os := by
  rw [ids, List.filterMap_filter, ids]
  refine List.filterMap_congr fun o _ => ?_
  rw [Order.isLocal]
  cases o.party <;> rfl

theorem Sound.crossed (h : b.Sound) {bid ask : Level α} (hbid : bid ∈ b.bids.levels)
    (hask : ask ∈ b.asks.levels) (hp : ask.price ≤ bid.price) :
    (∃ o, bid.orders = [o] ∧ o.party = .external) ∧
      ∃ o, ask.orders = [o] ∧ o.party = .external := by
  have hbid' : bid ∈ b.levels .buy := (h.ranks .buy).mem.mp hbid
  have hask' : ask ∈ b.levels .sell := (h.ranks .sell).mem.mp hask
  obtain ⟨hb, ha⟩ := h.apart bid hbid' ask hask' hp
  exact ⟨(h.sound .buy bid hbid').bare hb, (h.sound .sell ask hask').bare ha⟩

theorem Filed.best (h : b.Filed) (side : Side) {p : α} (hp : (b.ladder side).bestPrice = some p) :
    ∃ k ∈ (b.ladder side).levels, k.price = p ∧ Scalar.isPositive p = true := by
  rw [(h.ranks side).bestPrice, Option.map_eq_some_iff] at hp
  obtain ⟨k, hk, rfl⟩ := hp
  have hk' : k ∈ b.levels side := List.mem_of_mem_head? hk
  exact ⟨k, h.mem_levels.mpr hk', rfl, (h.ranks side).positive k hk'⟩

theorem Filed.index_resting (h : b.Filed) : (b.index.map Prod.fst).Perm (ids b.resting) := by
  rw [← ids_filter]
  exact h.index_ids.trans (h.locals_resting.symm.filterMap _)

theorem Filed.size_eq (h : b.Filed) : b.size = b.resting.countP (·.isLocal) := by
  have hlength := h.index_resting.length_eq
  rw [List.length_map, ids, List.length_filterMap_eq_countP] at hlength
  refine hlength.trans (List.countP_congr fun o _ => ?_)
  rw [Order.isLocal]
  cases o.party <;> simp [Party.id?, Party.isLocal]

variable [Scalar.Lawful α]

theorem Filed.place?_iff (h : b.Filed) {side : Side} {r : Resting α} {id : OrderId}
    (hk : k ∈ b.levels side) (hr : r ∈ k.queue) :
    b.place? id = some ⟨side, k.price, r.handle⟩ ↔ r.order.party = .local id := by
  rw [h.place?_eq_some]
  constructor
  · rintro ⟨j, hj, hp, o, ho, hid⟩
    obtain ⟨-, rfl⟩ := h.unique hj hk hp ho hr
    exact hid
  · exact fun hid => ⟨k, hk, rfl, r.order, hr, hid⟩

theorem Filed.getOrder?_isSome (h : b.Filed) (id : OrderId) :
    (b.getOrder? id).isSome = b.hasOrder id := by
  rw [Bool.eq_iff_iff, ← h.mem_ids, Option.isSome_iff_exists, ids, List.mem_filterMap]
  refine exists_congr fun o => ?_
  rw [h.getOrder?_locals]
  refine and_congr_right fun _ => ?_
  cases o.party <;> simp [Party.id?]

theorem Filed.remove_found (h : b.Filed) (id : OrderId) :
    (b.remove id).1 = ⟨(b.getOrder? id).isSome, b.getOrder? id⟩ := by
  cases hp : b.place? id with
  | none =>
    have hnone : b.getOrder? id = none := by simp [getOrder?, hp]
    rw [remove_none hp, hnone]
    rfl
  | some p =>
    obtain ⟨k, front, back, r, hk, hq, hid, hb, -⟩ := h.remove hp
    have hsome : b.getOrder? id = some r.order :=
      h.getOrder?_eq_some.mpr ⟨hid, p.side, k, hk, r, by simp [hq], rfl⟩
    rw [hb, hsome]
    rfl

omit [Scalar.Lawful α] in
theorem aggregate?_eq_head? (h : Level.Orderly n (k.queue.map Resting.terms)) :
    aggregate? k = (k.queue.filter (!·.order.isLocal)).head? := by
  have hbehind := h.behind
  unfold aggregate?
  cases hq : k.queue with
  | nil => rfl
  | cons r rs =>
    rw [hq, List.map_cons, List.tail_cons] at hbehind
    have hrs : rs.filter (!·.order.isLocal) = [] := List.filter_eq_nil_iff.mpr fun x hx => by
      have hx' : x.order.isLocal = true := hbehind _ (List.mem_map_of_mem hx)
      simp [hx']
    cases hr : r.order.isLocal <;> simp [hr, hrs]

/-- What remains of the aggregate at a price, if there is one. -/
def aggregateAt (b : Book α) (side : Side) (p : α) : Option α :=
  (((b.ladder side).level? p).bind aggregate?).map (·.order.remaining)

theorem Settles.aggregateAt {b' : Book α} {u : LevelUpdate α} {o : Order α}
    {m : Match.Run α × List (Level α)} (hp : Posts b b' u k j o) (h : Settles b' b'' u k j m) :
    b''.aggregateAt u.side u.price =
      if negligible m.1.taker.remaining then none else some m.1.taker.remaining := by
  obtain ⟨front, back, own, hold, hnew, hprice, -, hrem⟩ := h.own
  have hmem : own.queue ≠ [] → own ∈ b''.levels u.side := fun hq => by
    simp [hnew, Ladder.mem_kept, hq]
  have horderly : Level.Orderly b''.arrivals (own.queue.map Resting.terms) := by
    by_cases hq : own.queue = []
    · rw [hq]
      exact Level.orderly_nil _
    · exact (h.sound.sound u.side own (hmem hq)).orderly
  have hhead : (aggregate? own).map (·.order.remaining) =
      if negligible m.1.taker.remaining then none else some m.1.taker.remaining := by
    rw [aggregate?_eq_head? horderly, ← List.head?_map, hrem]
    split <;> rfl
  have hranks := h.sound.ranks u.side
  rw [← hhead]
  unfold Book.aggregateAt
  by_cases hq : own.queue = []
  · have hne := hold ▸ hp.filed.ranks u.side
    have hnone : (b''.ladder u.side).level? u.price = none := by
      refine hranks.level?_eq_none.mpr fun i hi => ?_
      rw [hnew, List.append_assoc, List.mem_append, List.mem_append, Ladder.mem_kept] at hi
      rw [← hp.price]
      refine hne.price_ne i (List.mem_append.mpr (hi.imp_right fun hi => hi.resolve_left ?_))
      exact fun he => he.2 hq
    rw [hnone, aggregate?, hq]
    rfl
  · have hsome : (b''.ladder u.side).level? u.price = some own :=
      hranks.level?_eq_some.mpr ⟨hmem hq, hprice⟩
    rw [hsome, Option.bind_some]

/-- An update is a match of its aggregate against a copy of the other side without aggregates. -/
theorem Sound.applied_match (h : b.Sound) {u : LevelUpdate α} (now : α) (hu : u.fault? = none)
    (hn : negligible u.totalQty = false) {o : Order α} (hside : o.side = u.side)
    (hprice : o.price = u.price) (hrem : o.remaining = u.totalQty) :
    let m := Match.incoming o (b.ladder u.side.opposite).locals
    (b.applied u now).1.1 = m.1.fills.map Fill.virtually ∧
      (b.applied u now).2.aggregateAt u.side u.price =
        (if negligible m.1.taker.remaining then none else some m.1.taker.remaining) ∧
        ((b.applied u now).2.ladder u.side.opposite).locals.ranked = m.2.ranked := by
  intro m
  obtain ⟨k, own, x, hp⟩ := h.posts now hu hn
  obtain ⟨hs, hfills⟩ := h.update hp hside hprice hrem hn (fault?_eq_none hu).2
  obtain ⟨hm, hm'⟩ := (h.ranks u.side.opposite).locals.walk Match.visits ⟨o, [], []⟩
  have hleft := (hs.sound.ranks u.side.opposite).locals.ranked
  rw [hs.opposing, ← hm'.ranked] at hleft
  rw [← hm] at hfills
  have haggregate := hs.aggregateAt hp
  rw [← hm] at haggregate
  rw [applied_of_counts now hn]
  exact ⟨hfills, haggregate, hleft⟩

end Standing

section Doubles

variable {ω : Type} {clock : BookM Float ω Float}

def crossedCalls : List (Call Float) :=
  [.updateLevel ⟨.buy, 10, 5⟩, .updateLevel ⟨.sell, 9, 3⟩, .submit ⟨1, .sell, 11, 2, []⟩]

/-- Local orders never rest crossed: where a bid and an ask cross, both are aggregates. The best bid
is below the best ask unless each level that takes part in the cross holds one aggregate and nothing
else. -/
theorem uncrossed_after (hd : Discreet clock) (hr : Reliable clock) (calls : List (Call Float))
    (symbol : Text) (w : ω) :
    let b := (after clock calls (empty symbol, w)).1
    (∀ bid ∈ b.bids.levels, ∀ ask ∈ b.asks.levels, ask.price ≤ bid.price →
      ∀ o ∈ bid.orders, ∀ o' ∈ ask.orders, o.party = .external ∧ o'.party = .external) ∧
      ∀ p q, b.bestBid = some p → b.bestAsk = some q → p < q ∨ q ≤ p ∧
        (∀ bid ∈ b.bids.levels, q ≤ bid.price → ∃ o, bid.orders = [o] ∧ o.party = .external) ∧
          ∀ ask ∈ b.asks.levels, ask.price ≤ p → ∃ o, ask.orders = [o] ∧ o.party = .external := by
  intro b
  obtain ⟨hs, -⟩ := sound_after hd hr calls symbol w
  refine ⟨fun bid hbid ask hask hp o ho o' ho' => ?_, fun p q hp hq => ?_⟩
  · obtain ⟨⟨x, hx, hext⟩, y, hy, hext'⟩ := hs.crossed hbid hask hp
    rw [hx, List.mem_singleton] at ho
    rw [hy, List.mem_singleton] at ho'
    exact ⟨ho ▸ hext, ho' ▸ hext'⟩
  · obtain ⟨bid, hbid, rfl, hbp⟩ := hs.toFiled.best .buy hp
    obtain ⟨ask, hask, rfl, hap⟩ := hs.toFiled.best .sell hq
    obtain hlt | hle :=
      Scalar.lt_or_le (Scalar.isPositive.finite hbp) (Scalar.isPositive.finite hap)
    · exact .inl hlt
    · exact .inr ⟨hle, fun k hk hc => (hs.crossed hk hask hc).1,
        fun k hk hc => (hs.crossed hbid hk hc).2⟩

theorem uncrossed_after_crossedCalls :
    let b := (after (pure 0) crossedCalls (empty [], ())).1
    Discreet (pure 0 : BookM Float Unit Float) ∧ Reliable (pure 0 : BookM Float Unit Float) ∧
      b.bestBid = some 10 ∧ b.bestAsk = some 9 ∧
        (∀ bid ∈ b.bids.levels, (9 : Float) ≤ bid.price →
          ∃ o, bid.orders = [o] ∧ o.party = .external) ∧
          ∀ ask ∈ b.asks.levels, ask.price ≤ (10 : Float) →
            ∃ o, ask.orders = [o] ∧ o.party = .external := by
  have hbid : (after (pure 0) crossedCalls (empty [], ())).1.bestBid = some 10 := by decide +kernel
  have hask : (after (pure 0) crossedCalls (empty [], ())).1.bestAsk = some 9 := by decide +kernel
  have hcross : ¬(10 : Float) < 9 := by decide +kernel
  have h :=
    (uncrossed_after (discreet_pure 0) (reliable_pure 0) crossedCalls [] ()).2 10 9 hbid hask
  exact ⟨discreet_pure 0, reliable_pure 0, hbid, hask, (h.resolve_left hcross).2⟩

/-- A clock that tries to cancel an order before it tells the time. -/
def meddling : BookM Float Unit Float := do
  let _ ← attempt (perform (pure 0) (.cancel 1))
  return 0

theorem discreet_meddling : Discreet meddling :=
  (discreet_perform (pure 0) (.cancel 1)).attempt.bind fun _ => discreet_pure 0

def reusingCalls : List (Call Float) :=
  [.submit ⟨1, .sell, 10, 2, []⟩, .submit ⟨2, .sell, 10, 1, []⟩, .cancel 1,
    .submit ⟨3, .sell, 10, 4, []⟩]

/-- The index names each local order that rests, by the place where it is found, and nothing else;
no id rests twice. So an order is shown exactly when its id is known, and a cancellation finds just
what is shown. -/
theorem index_after (hd : Discreet clock) (calls : List (Call Float)) (symbol : Text) (w : ω) :
    let b := (after clock calls (empty symbol, w)).1
    (∀ id p, b.place? id = some p →
        ∃ o, b.orderAt? p = some o ∧ o.party = .local id ∧ o.side = p.side ∧ o.price = p.price) ∧
      (∀ side, ∀ k ∈ (b.ladder side).levels, ∀ r ∈ k.queue,
        r.order.side = side ∧ r.order.price = k.price ∧
          ∀ id, b.place? id = some ⟨side, k.price, r.handle⟩ ↔ r.order.party = .local id) ∧
        (ids b.resting).Nodup ∧ b.size = b.resting.countP (·.isLocal) ∧
          (∀ id, (b.getOrder? id).isSome = b.hasOrder id) ∧
            ∀ (id : OrderId) (v : ω), ∃ b', (cancel id).run (b, v) =
              (.ok ⟨(b.getOrder? id).isSome, b.getOrder? id⟩, (b', v)) := by
  intro b
  obtain ⟨hf, hb⟩ := filed_after hd calls symbol w
  refine ⟨fun id p hp => ?_, fun side k hk r hr => ?_, ?_, hf.size_eq, hf.getOrder?_isSome,
    fun id v => ?_⟩
  · obtain ⟨k, hk, hkp, o, ho, hid⟩ := hf.place?_eq_some.mp hp
    obtain ⟨hside, hprice⟩ := (hf.kept p.side k hk).terms _ ho
    exact ⟨o, hf.orderAt?_eq_some.mpr ⟨k, hk, hkp, ho⟩, hid, hside, hprice.trans hkp⟩
  · have hk' := hf.mem_levels.mp hk
    obtain ⟨hside, hprice⟩ := (hf.kept side k hk').terms r hr
    exact ⟨hside, hprice, fun id => hf.place?_iff hk' hr⟩
  · exact hf.index_resting.nodup_iff.mp hf.nodup
  · refine ⟨(b.shut.remove id).2.reopened, ?_⟩
    have hfound : (b.shut.remove id).1 = ⟨(b.getOrder? id).isSome, b.getOrder? id⟩ :=
      hf.shut.remove_found id
    rw [cancel, exclusive_run (s := (b, v)) .cancel _ hb, ← hfound]
    rfl

theorem index_after_reusingCalls :
    let b := (after meddling reusingCalls (empty [], ())).1
    Discreet meddling ∧ (b.getOrder? 1).isSome = false ∧ (b.getOrder? 3).isSome = true ∧
      b.resting.countP (·.isLocal) = 2 := by
  obtain ⟨-, -, -, hsize, hshown, -⟩ := index_after discreet_meddling reusingCalls [] ()
  refine ⟨discreet_meddling, (hshown 1).trans ?_, (hshown 3).trans ?_, hsize.symm.trans ?_⟩
  all_goals decide +kernel

def queueingCalls : List (Call Float) :=
  [.submit ⟨1, .sell, 10, 2, []⟩, .submit ⟨2, .sell, 10, 1, []⟩, .updateLevel ⟨.sell, 10, 5⟩,
    .cancel 1, .submit ⟨3, .sell, 10, 4, []⟩, .submit ⟨4, .buy, 10, 3, []⟩]

/-- Every level holds orders, each on its ladder's side, at its price and with no less left than
counts. An aggregate stands at the head alone; the local orders stand by arrival, and none arrived
after the last one that the book counts. -/
theorem shape_after (hd : Discreet clock) (hr : Reliable clock) (calls : List (Call Float))
    (symbol : Text) (w : ω) :
    let b := (after clock calls (empty symbol, w)).1
    ∀ side, (b.ladder side).side = side ∧ ∀ k ∈ (b.ladder side).levels,
      k.isEmpty = false ∧
        (∀ o ∈ k.orders, o.side = side ∧ o.price = k.price ∧
          o.remaining.isFinite = true ∧ (1e-10 : Float) ≤ o.remaining) ∧
          (∀ o ∈ k.orders.tail, o.party ≠ .external) ∧
            ((k.orders.filter (·.isLocal)).Pairwise fun o o' => o.arrival < o'.arrival) ∧
              ∀ o ∈ k.orders, o.arrival ≤ b.arrivals := by
  intro b side
  obtain ⟨hs, -⟩ := sound_after hd hr calls symbol w
  refine ⟨(hs.ranks side).faces, fun k hk => ?_⟩
  have hk' : k ∈ b.levels side := (hs.ranks side).mem.mp hk
  have hsound := hs.sound side k hk'
  refine ⟨List.isEmpty_eq_false_iff.mpr hsound.nonempty, fun o ho => ?_, fun o ho hp => ?_,
    hsound.sorted, hsound.arrived⟩
  · obtain ⟨r, hr, rfl⟩ := List.mem_map.mp ho
    obtain ⟨hside, hprice⟩ := (hs.kept side k hk').terms r hr
    have hcounts := hsound.counts r hr
    exact ⟨hside, hprice, hcounts.1, hcounts.dust_le⟩
  · have hlocal := hsound.behind o ho
    rw [Order.isLocal_eq_false hp] at hlocal
    cases hlocal

theorem shape_after_queueingCalls :
    let b := (after (pure 0) queueingCalls (empty [], ())).1
    Discreet (pure 0 : BookM Float Unit Float) ∧ Reliable (pure 0 : BookM Float Unit Float) ∧
      ∃ k ∈ (b.ladder .sell).levels,
        k.orders.map (·.party) = [.external, .local 2, .local 3] ∧
          (∀ o ∈ k.orders, o.price = k.price ∧ (1e-10 : Float) ≤ o.remaining) ∧
            (k.orders.filter (·.isLocal)).Pairwise fun o o' => o.arrival < o'.arrival := by
  intro b
  have hparties : (b.ladder .sell).levels.head?.map (fun k => k.orders.map (·.party)) =
      some [.external, .local 2, .local 3] := by decide +kernel
  obtain ⟨k, hk, hp⟩ := Option.map_eq_some_iff.mp hparties
  have hmem : k ∈ (b.ladder .sell).levels := List.mem_of_mem_head? hk
  obtain ⟨-, hshape⟩ :=
    shape_after (discreet_pure 0) (reliable_pure 0) queueingCalls [] () .sell
  obtain ⟨-, hterms, -, hsorted, -⟩ := hshape k hmem
  exact ⟨discreet_pure 0, reliable_pure 0, k, hmem, hp,
    fun o ho => ⟨(hterms o ho).2.1, (hterms o ho).2.2.2⟩, hsorted⟩

def sharedCalls : List (Call Float) :=
  [.submit ⟨1, .sell, 10, 2, []⟩, .updateLevel ⟨.sell, 10, 5⟩]

/-- An update with no fault is applied. With nothing to count it trades nothing; otherwise it trades
as an incoming order of its size trades with the local orders on the other side alone: with the same
fills, but for the aggressive party, and with the same left on either side. -/
theorem virtual_after (hd : Discreet clock) (hr : Reliable clock) (calls : List (Call Float))
    (symbol : Text) (w : ω) {u : LevelUpdate Float} (hu : u.fault? = none) :
    let s := after clock calls (empty symbol, w)
    ∃ fills residual s', (updateLevel clock u).run s = (.ok (.applied fills residual), s') ∧
      if negligible u.totalQty then fills = []
      else ∀ o : Order Float, o.side = u.side → o.price = u.price → o.remaining = u.totalQty →
        let m := Match.incoming o (s.1.ladder u.side.opposite).locals
        fills = m.1.fills.map Fill.virtually ∧
          s'.1.aggregateAt u.side u.price =
            (if negligible m.1.taker.remaining then none else some m.1.taker.remaining) ∧
            (s'.1.ladder u.side.opposite).locals.ranked = m.2.ranked := by
  intro s
  obtain ⟨hs, hb⟩ : s.1.Sound ∧ s.1.busy = false := sound_after hd hr calls symbol w
  obtain ⟨now, v, hrun⟩ := updateLevel_applied hd hr hb hu
  refine ⟨_, _, _, hrun, ?_⟩
  cases hn : negligible u.totalQty with
  | true =>
    rw [if_pos rfl, applied_of_negligible now hn]
    exact (hs.shut.dropAggregate u).uncross.2.2
  | false =>
    rw [if_neg Bool.false_ne_true]
    exact fun o hside hprice hrem => hs.shut.applied_match now hu hn hside hprice hrem

theorem virtual_after_sharedCalls :
    let s := after (pure 0) sharedCalls (empty [], ())
    let u : LevelUpdate Float := ⟨.buy, 10, 3⟩
    Discreet (pure 0 : BookM Float Unit Float) ∧ Reliable (pure 0 : BookM Float Unit Float) ∧
      u.fault? = none ∧ ∃ fills residual s',
        (updateLevel (pure 0) u).run s = (.ok (.applied fills residual), s') ∧
          fills = [⟨.local 1, .external, 10, 2, .buy, true⟩] ∧
            s'.1.aggregateAt .buy 10 = some 1 := by
  have hu : (⟨.buy, 10, 3⟩ : LevelUpdate Float).fault? = none := by decide +kernel
  obtain ⟨fills, residual, s', hrun, hm⟩ :=
    virtual_after (discreet_pure 0) (reliable_pure 0) sharedCalls [] () hu
  have hn : ¬negligible (3 : Float) = true := by decide +kernel
  rw [if_neg hn] at hm
  obtain ⟨hfills, haggregate, -⟩ := hm ((empty []).arrive ⟨7, .buy, 10, 3, []⟩ 0) rfl rfl rfl
  refine ⟨discreet_pure 0, reliable_pure 0, hu, fills, residual, s', hrun, hfills.trans ?_,
    haggregate.trans ?_⟩
  all_goals decide +kernel

end Doubles

end LimitBook.Book
