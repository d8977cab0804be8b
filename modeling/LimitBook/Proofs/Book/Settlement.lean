import LimitBook.Proofs.Book.Queue
import LimitBook.Proofs.Book.Reachable
import LimitBook.Proofs.Sweep.Resolve

namespace LimitBook

variable {α : Type} [Scalar α]

namespace Order

def fills (o : Order α) (fs : List (Fill α)) : Order α := fs.foldl (fun o f => o.fill f.quantity) o

theorem fills_sizes (o : Order α) (fs : List (Fill α)) :
    (o.fills fs).sizes = (o.party, remainder o.remaining fs, o.original,
      fs.foldl (fun q f => q + f.quantity) o.filled) := by
  induction fs generalizing o with
  | nil => rfl
  | cons f fs ih => exact ih (o.fill f.quantity)

theorem fills_party (o : Order α) (fs : List (Fill α)) : (o.fills fs).party = o.party :=
  congrArg Prod.fst (fills_sizes o fs)

theorem fills_remaining (o : Order α) (fs : List (Fill α)) :
    (o.fills fs).remaining = remainder o.remaining fs :=
  congrArg (·.2.1) (fills_sizes o fs)

end Order

namespace Resting

/-- An order in its place after some fills. Those have a bearing on it for which it has waited. -/
def filledBy (fs : List (Fill α)) (r : Resting α) : Resting α :=
  ⟨r.handle, r.order.fills (fs.filter fun f => f.passive = r.order.party)⟩

/-- The order, unless the fills have used it up. -/
def filledBy? (fs : List (Fill α)) (r : Resting α) : Option (Resting α) :=
  if (r.filledBy fs).order.remaining == Scalar.zero then none else some (r.filledBy fs)

theorem filterMap_filledBy? (fs : List (Fill α)) (rs : List (Resting α)) :
    rs.filterMap (filledBy? fs) =
      (rs.map (filledBy fs)).filter fun r => !(r.order.remaining == Scalar.zero) := by
  induction rs with
  | nil => rfl
  | cons r rs ih =>
    rw [List.map_cons, List.filter_cons, ← ih, List.filterMap_cons, filledBy?]
    cases (r.filledBy fs).order.remaining == Scalar.zero <;> rfl

theorem filledBy_of_unnamed {fs : List (Fill α)} {r : Resting α}
    (h : ∀ f ∈ fs, f.passive ≠ r.order.party) : r.filledBy fs = r := by
  have hnone : fs.filter (fun f => decide (f.passive = r.order.party)) = [] :=
    List.filter_eq_nil_iff.mpr fun f hf => by simpa using h f hf
  rw [filledBy, hnone]
  rfl

theorem filledBy?_of_unnamed [Scalar.Lawful α] {fs : List (Fill α)} {r : Resting α}
    (hr : Counts r.order.remaining) (h : ∀ f ∈ fs, f.passive ≠ r.order.party) :
    r.filledBy? fs = some r := by
  rw [filledBy?, filledBy_of_unnamed h, hr.beq_zero]
  rfl

theorem filterMap_filledBy?_nil [Scalar.Lawful α] {rs : List (Resting α)}
    (h : ∀ r ∈ rs, Counts r.order.remaining) : rs.filterMap (filledBy? []) = rs := by
  have hsome : ∀ r ∈ rs, filledBy? [] r = some r := fun r hr =>
    filledBy?_of_unnamed (h r hr) fun f hf => absurd hf List.not_mem_nil
  rw [List.filterMap_congr hsome, List.filterMap_some]

end Resting

/-- What the aggregate of an update shows when it has made some fills. -/
def LevelUpdate.shown (u : LevelUpdate α) (fs : List (Fill α)) : List (Party × α × α × α) :=
  if negligible u.totalQty || remainder u.totalQty fs == Scalar.zero then []
  else [(.external, remainder u.totalQty fs, u.totalQty,
    fs.foldl (fun q f => q + f.quantity) Scalar.zero)]

theorem LevelUpdate.shown_fills {u : LevelUpdate α} (hn : negligible u.totalQty = false)
    {o : Order α} (ho : o.sizes = (.external, u.totalQty, u.totalQty, Scalar.zero)) (a : Handle)
    (fs : List (Fill α)) :
    ([(⟨a, o.fills fs⟩ : Resting α)].filter fun r => !(r.order.remaining == Scalar.zero)).map
      (·.order.sizes) = u.shown fs := by
  obtain ⟨hparty, hremaining, horiginal, hfilled⟩ : o.party = .external ∧
      o.remaining = u.totalQty ∧ o.original = u.totalQty ∧ o.filled = Scalar.zero := by
    simpa [Order.sizes] using ho
  have hsizes := Order.fills_sizes o fs
  rw [hparty, hremaining, horiginal, hfilled] at hsizes
  rw [LevelUpdate.shown, hn, Bool.false_or, List.filter_singleton, Order.fills_remaining,
    hremaining]
  cases remainder u.totalQty fs == Scalar.zero
  · exact congrArg ([·]) hsizes
  · rfl

theorem LevelUpdate.shown_external {u : LevelUpdate α} {fs : List (Fill α)} {o : Order α}
    (h : o.sizes ∈ u.shown fs) : o.party = .external := by
  unfold LevelUpdate.shown at h
  split at h
  · cases h
  · exact congrArg Prod.fst (List.mem_singleton.mp h)

namespace Sweep

variable {d : Deal α} {ds : List (Deal α)} {side : Side} {m : α × Resting α}

/-- The order of a side that has a part in the deal, in its place. -/
def Deal.seat (d : Deal α) : Side → α × Resting α
  | .buy => (d.bidPrice, d.bid)
  | .sell => (d.askPrice, d.ask)

def Deal.part (d : Deal α) (side : Side) : Part α := ⟨d.seat side, d.quantity⟩

theorem Deal.Fits.crosses_side (h : d.Fits) (side : Side) :
    LimitBook.crosses side (d.seat side).1 (d.seat side.opposite).1 = true := by
  cases side <;> exact decide_eq_true h.crosses

theorem Deal.Fits.local_side (h : d.Fits) (side : Side) :
    (d.seat side).2.order.isLocal = true ∨ (d.seat side.opposite).2.order.isLocal = true := by
  have hlocal : d.bid.order.isLocal = true ∨ d.ask.order.isLocal = true := by
    simpa using h.local
  cases side with
  | buy => exact hlocal
  | sell => exact hlocal.symm

theorem Deal.Fits.traded_aggregate (h : d.Fits) (hside : ∀ s, (d.seat s).2.order.side = s)
    (hparty : (d.seat side).2.order.party = .external) :
    d.traded = ⟨(d.seat side.opposite).2.order.party, .external, (d.seat side.opposite).1,
      d.quantity, side, true⟩ := by
  have hlocal := Order.isLocal_eq_false hparty
  have hopp := (h.local_side side).resolve_left (by simp [hlocal])
  obtain ⟨htraded, -⟩ := h.traded_eq (hside .buy) (hside .sell)
  rw [htraded, Deal.fill]
  cases side with
  | buy =>
    have hbid : d.bid.order.isLocal = false := hlocal
    have hask : d.ask.order.isLocal = true := hopp
    have hext : d.bid.order.party = .external := hparty
    rw [if_neg (by simp [hbid, hask]), hext]
    rfl
  | sell =>
    have hask : d.ask.order.isLocal = false := hlocal
    have hext : d.ask.order.party = .external := hparty
    rw [if_pos (.inl hask), hext]
    rfl

theorem samePlace_iff [Scalar.Lawful α] {n : α × Resting α}
    (hm : Scalar.isPositive m.1 = true) :
    samePlace m n = true ↔ m.1 = n.1 ∧ m.2.handle = n.2.handle := by
  rw [samePlace, Bool.and_eq_true, Scalar.same_iff hm, beq_iff_eq]

theorem takes_price (ps : List (Part α)) (m : α × Resting α) : (takes ps m).1 = m.1 := by
  induction ps generalizing m with
  | nil => rfl
  | cons p ps ih =>
    have htake : (p.take m).1 = m.1 := by
      unfold Part.take
      split <;> rfl
    exact (ih (p.take m)).trans htake

theorem Accounts.seat {l left gone : List (α × Resting α)} {ps : List (Part α)}
    (h : Accounts l ps left gone) {p : Part α} (hp : p ∈ ps) :
    ∃ m ∈ l, m.1 = p.seat.1 ∧ m.2.terms = p.seat.2.terms := by
  obtain ⟨before, rest, rfl⟩ := List.append_of_mem hp
  obtain ⟨m, hm, hseat⟩ := List.mem_map.mp (h.part before p rest rfl)
  exact ⟨m, hm, by rw [← hseat, takes_price], by rw [← hseat, takes_terms]⟩

theorem takes_deals (ds : List (Deal α)) (side : Side) (m : α × Resting α) :
    takes (ds.map (·.part side)) m = (m.1, ⟨m.2.handle,
      m.2.order.fills ((ds.filter fun d => samePlace (d.seat side) m).map Deal.traded)⟩) := by
  induction ds generalizing m with
  | nil => rfl
  | cons d ds ih =>
    rw [List.map_cons, takes, List.foldl_cons]
    by_cases hd : samePlace (d.seat side) m = true
    · have hm : (d.part side).take m = (m.1, ⟨m.2.handle, m.2.order.fill d.quantity⟩) := if_pos hd
      rw [hm, List.filter_cons, if_pos hd]
      exact ih (m.1, ⟨m.2.handle, m.2.order.fill d.quantity⟩)
    · have hm : (d.part side).take m = m := if_neg hd
      rw [hm, List.filter_cons, if_neg hd]
      exact ih m

end Sweep

namespace Book

open Sweep

variable [Scalar.Lawful α] {b b' : Book α} {side : Side} {p : α}

theorem Filed.queueAt_accounts (h : b.Filed) (h' : b'.Filed) {ps : List (Sweep.Part α)}
    {gone : List (α × Resting α)} (ha : Accounts ((b.levels side).flatMap Level.seats) ps
      ((b'.levels side).flatMap Level.seats) gone) (p : α) :
    b'.queueAt side p = ((b.queueAt side p).map fun r => (Sweep.takes ps (p, r)).2).filter
      fun r => !(r.order.remaining == Scalar.zero) := by
  have hseats : (b'.queueAt side p).map (p, ·) =
      (((b.queueAt side p).map (p, ·)).map (Sweep.takes ps)).filter fun m => !spent m := by
    rw [← h'.seats_at, ← h.seats_at, ha.left, List.filter_comm, List.filter_map]
    simp only [Function.comp_def, takes_price]
  have horders := congrArg (List.map Prod.snd) hseats
  rw [List.map_map, List.map_map, List.filter_map, List.map_map] at horders
  rw [List.filter_map]
  exact (List.map_id' _).symm.trans horders

theorem Filed.uncross_resolves (h : b.Filed) (hs : ∀ side, ∀ k ∈ b.levels side, k.Stocked) :
    ∃ ds : List (Deal α), b.uncross.1.1 = ds.map Deal.traded ∧ (∀ d ∈ ds, d.Fits) ∧
      ∀ side, ∃ gone, Accounts ((b.levels side).flatMap Level.seats) (ds.map (·.part side))
        ((b.uncross.2.levels side).flatMap Level.seats) gone := by
  obtain ⟨hw, hr⟩ := (h.ranks .buy).walk visits_bid ⟨b.asks, ⟨[], []⟩⟩
  obtain ⟨ds, as', hd, ha', -⟩ := sift_bid_resolves ⟨b.asks, ⟨[], []⟩⟩ (h.ranks .sell).lists
    (h.ranks .buy).lists.finite (hs .buy) (hs .sell) (h.ranks .buy).sorted
  rw [← hw] at ha' hd
  have hasks : b.uncross.2.levels .sell = as' :=
    h.uncross.levels_of_lists (by rw [Book.uncross, release_ladder]; exact ha')
  have hseated : ∀ side, Seated ((b.levels side).flatMap Level.seats) := fun side =>
    seated_of_lists (h.ranks side).lists fun k hk => (h.kept side k hk).tracked.nodup
  refine ⟨ds, hd.fills, hd.fits, fun side => ?_⟩
  cases side with
  | buy =>
    rw [uncross_buys hr]
    exact ⟨_, hd.bids.accounts (hseated .buy) (stocked_alive (hs .buy))⟩
  | sell =>
    rw [hasks]
    exact ⟨_, hd.asks.accounts (hseated .sell) (stocked_alive (hs .sell))⟩

omit [Scalar.Lawful α] in
theorem Filed.deal_seat (h : b.Filed) {ds : List (Deal α)} {left gone : List (α × Resting α)}
    (ha : Accounts ((b.levels side).flatMap Level.seats) (ds.map (·.part side)) left gone)
    {d : Deal α} (hd : d ∈ ds) :
    (∃ k ∈ b.levels side, ∃ r ∈ k.queue, k.price = (d.seat side).1 ∧
      r.terms = (d.seat side).2.terms) ∧
      (d.seat side).2.order.side = side ∧ Scalar.isPositive (d.seat side).1 = true := by
  obtain ⟨m, hm, hprice, hterms⟩ := ha.seat (List.mem_map_of_mem hd)
  obtain ⟨k, hk, r, hr, rfl⟩ := Ladder.mem_seats.mp hm
  have hside : r.order.side = (d.seat side).2.order.side := congrArg (·.2.side) hterms
  exact ⟨⟨k, hk, r, hr, hprice, hterms⟩, hside.symm.trans ((h.kept side k hk).terms r hr).1,
    hprice ▸ (h.ranks side).positive k hk⟩

section Posted

variable {u : LevelUpdate α} {k own : Level α} {o : Order α} {a : Handle}

omit [Scalar.Lawful α] in
/-- Where an order of the side of an update may trade, it is the aggregate of the update that does,
and a local order with which. -/
theorem Posts.meets (h : b.Sound) (hp : Posts b b' u k own o)
    (hq : own.queue = ⟨a, o⟩ :: k.queue.filter (·.order.isLocal)) {i j : Level α}
    {r s : Resting α} (hi : i ∈ b'.levels u.side) (hj : j ∈ b'.levels u.side.opposite)
    (hc : crosses u.side i.price j.price = true) (hr : r ∈ i.queue) (hs : s ∈ j.queue)
    (hl : r.order.isLocal = true ∨ s.order.isLocal = true) :
    i.price = u.price ∧ r = ⟨a, o⟩ ∧ s.order.isLocal = true := by
  have hlocal := Order.isLocal_eq_false hp.party
  rw [hp.changes.opposite] at hj
  obtain hi | ⟨rfl, -⟩ := hp.changes.stands i hi
  · obtain ⟨hi, hj⟩ := h.apart_side u.side hi hj hc
    rw [hi r hr, hj s hs] at hl
    simp at hl
  · have hnone : k.queue.filter (·.order.isLocal) = [] := by
      obtain hk | hk := hp.changes.found
      · rw [hp.changes.price] at hc
        obtain ⟨hk, hj⟩ := h.apart_side u.side hk hj hc
        exact Level.bare_iff.mp hk
      · rw [hk]
        rfl
    rw [hq, hnone, List.mem_singleton] at hr
    subst hr
    exact ⟨hp.price, rfl, hl.resolve_left (by simp [hlocal])⟩

/-- A deal of the sweep behind an update is one of its aggregate, behind the handle `a`, with a
local order of the other side. -/
structure Deals (b' : Book α) (u : LevelUpdate α) (a : Handle) (d : Deal α) : Prop where
  positive : ∀ side, Scalar.isPositive (d.seat side).1 = true
  price : (d.seat u.side).1 = u.price
  handle : (d.seat u.side).2.handle = a
  named : ∃ id, d.traded.passive = .local id ∧ b'.place? id = some ⟨u.side.opposite,
    (d.seat u.side.opposite).1, (d.seat u.side.opposite).2.handle⟩

theorem Sound.posted_deals (h : b.Sound) (hp : Posts b b' u k own o)
    (hq : own.queue = ⟨a, o⟩ :: k.queue.filter (·.order.isLocal)) :
    ∃ ds : List (Deal α), b'.uncross.1.1 = ds.map Deal.traded ∧
      (∀ side, ∃ gone, Accounts ((b'.levels side).flatMap Level.seats) (ds.map (·.part side))
        ((b'.uncross.2.levels side).flatMap Level.seats) gone) ∧
      ∀ d ∈ ds, Deals b' u a d := by
  have hstocked : ∀ side, ∀ j ∈ b'.levels side, j.Stocked := fun side j hj =>
    (hp.sound_levels h side j hj).toStocked
  obtain ⟨ds, hfills, hfits, haccounts⟩ := hp.filed.uncross_resolves hstocked
  refine ⟨ds, hfills, haccounts, fun d hd => ?_⟩
  have hseat := fun side => hp.filed.deal_seat (haccounts side).choose_spec hd
  obtain ⟨⟨i, hi, r, hr, hip, hrt⟩, -⟩ := hseat u.side
  obtain ⟨⟨j, hj, s, hs, hjp, hst⟩, -⟩ := hseat u.side.opposite
  have hlocal : ∀ {x y : Resting α}, x.terms = y.terms → x.order.isLocal = y.order.isLocal :=
    fun ht => congrArg (·.2.isLocal) ht
  obtain ⟨hprice, rfl, hsl⟩ := hp.meets h hq hi hj
    (by rw [hip, hjp]; exact (hfits d hd).crosses_side u.side) hr hs
    (by rw [hlocal hrt, hlocal hst]; exact (hfits d hd).local_side u.side)
  have hparty : (d.seat u.side).2.order.party = .external :=
    (congrArg (·.2.party) hrt).symm.trans hp.party
  have hpassive : d.traded.passive = s.order.party := by
    rw [(hfits d hd).traded_aggregate (fun side => (hseat side).2.1) hparty]
    exact (congrArg (·.2.party) hst).symm
  refine ⟨fun side => (hseat side).2.2, hip.symm.trans hprice, (congrArg Prod.fst hrt).symm, ?_⟩
  cases hsp : s.order.party with
  | external =>
    rw [Order.isLocal_eq_false hsp] at hsl
    cases hsl
  | «local» id =>
    have hhandle : s.handle = (d.seat u.side.opposite).2.handle := congrArg Prod.fst hst
    refine ⟨id, hpassive.trans hsp, ?_⟩
    rw [← hjp, ← hhandle]
    exact (hp.filed.place?_iff hj hs).mpr hsp

/-- Of the orders that rest beside the aggregate, a deal is made with that which its fill names. -/
theorem Posts.deal_place (hp : Posts b b' u k own o)
    (hq : own.queue = ⟨a, o⟩ :: k.queue.filter (·.order.isLocal)) {d : Deal α}
    (hd : Deals b' u a d) :
    ∀ side p, ∀ r ∈ b'.queueAt side p,
      (side, p) ≠ (u.side, u.price) ∨ r.order.isLocal = true →
        samePlace (d.seat side) (p, r) = decide (d.traded.passive = r.order.party) := by
  obtain ⟨hpositive, hprice, hhandle, id, hpassive, hplace⟩ := hd
  have hown : own ∈ b'.levels u.side := hp.changes.swaps.mem_self hp.sound.nonempty
  have hnamed : ∀ side p, ∀ r ∈ b'.queueAt side p, (d.traded.passive = r.order.party ↔
      (⟨u.side.opposite, (d.seat u.side.opposite).1, (d.seat u.side.opposite).2.handle⟩ : Place α) =
        ⟨side, p, r.handle⟩) := fun side p r hr => by
    obtain ⟨j, hj, rfl, hrj⟩ := hp.filed.mem_queueAt.mp hr
    rw [hpassive, eq_comm, ← hp.filed.place?_iff hj hrj, hplace, Option.some.injEq]
  refine Side.forall_of u.side (fun p r hr hne => ?_) fun p r hr _ => ?_
  all_goals
    rw [Bool.eq_iff_iff, samePlace_iff (hpositive _), decide_eq_true_eq, hnamed _ _ r hr]
  · refine iff_of_false ?_ fun he => u.side.opposite_ne (congrArg Place.side he)
    rintro ⟨hp', hh⟩
    obtain ⟨j, hj, hjp, hr⟩ := hp.filed.mem_queueAt.mp hr
    have hrp : r = ⟨a, r.order⟩ := congrArg (Resting.mk · r.order) (hh.symm.trans hhandle)
    have hsame : j.price = own.price := hjp.trans (hp'.symm.trans (hprice.trans hp.price.symm))
    obtain ⟨-, ho⟩ := hp.filed.unique hj hown hsame (hrp ▸ hr) (hq ▸ List.mem_cons_self)
    obtain hne | hl := hne
    · exact hne (congrArg (u.side, ·) (hp'.symm.trans hprice))
    · rw [ho, Order.isLocal_eq_false hp.party] at hl
      cases hl
  · simp

theorem Posts.beside (hp : Posts b b' u k own o)
    (hq : own.queue = ⟨a, o⟩ :: k.queue.filter (·.order.isLocal)) {ds : List (Deal α)}
    (hds : ∀ d ∈ ds, Deals b' u a d) {r : Resting α} (hr : r ∈ b'.queueAt side p)
    (hne : (side, p) ≠ (u.side, u.price) ∨ r.order.isLocal = true) :
    (takes (ds.map (·.part side)) (p, r)).2 = r.filledBy (ds.map Deal.traded) := by
  rw [takes_deals, Resting.filledBy, List.filter_map]
  refine congrArg (fun ds : List (Deal α) => Resting.mk r.handle (r.order.fills
    (ds.map Deal.traded))) (List.filter_congr fun d hd => ?_)
  exact hp.deal_place hq (hds d hd) side p r hr hne

theorem takes_aggregate {ds : List (Deal α)} (hds : ∀ d ∈ ds, Deals b' u a d) :
    (takes (ds.map (·.part u.side)) (u.price, ⟨a, o⟩)).2 =
      ⟨a, o.fills (ds.map Deal.traded)⟩ := by
  have hall : ds.filter (fun d => samePlace (d.seat u.side) (u.price, ⟨a, o⟩)) = ds :=
    List.filter_eq_self.mpr fun d hd =>
      (samePlace_iff ((hds d hd).positive _)).mpr ⟨(hds d hd).price, (hds d hd).handle⟩
  rw [takes_deals, hall]

end Posted

/-- The orders of `b'` are those that fills leave of the orders of `b`, in their places, but that at
the price of an update its aggregate, if something is left of it, stands for the one before. -/
structure Frames (b b' : Book α) (u : LevelUpdate α) (fs : List (Fill α)) : Prop where
  elsewhere : ∀ side p, (side, p) ≠ (u.side, u.price) →
    b'.queueAt side p = (b.queueAt side p).filterMap (Resting.filledBy? fs)
  here : ∃ aggregate, aggregate.map (·.order.sizes) = u.shown fs ∧ b'.queueAt u.side u.price =
    aggregate ++ ((b.queueAt u.side u.price).filter (·.order.isLocal)).filterMap
      (Resting.filledBy? fs)

theorem Frames.untraded {u : LevelUpdate α} (h : Frames b b' u [])
    (hc : ∀ {side p r}, r ∈ b.queueAt side p → Counts r.order.remaining) :
    (∀ side p, (side, p) ≠ (u.side, u.price) → b'.queueAt side p = b.queueAt side p) ∧
      (b'.queueAt u.side u.price).filter (·.order.isLocal) =
        (b.queueAt u.side u.price).filter (·.order.isLocal) := by
  obtain ⟨helsewhere, aggregate, hshown, hhere⟩ := h
  refine ⟨fun side p hne => ?_, ?_⟩
  · rw [helsewhere side p hne, Resting.filterMap_filledBy?_nil fun r hr => hc hr]
  · have hexternal : aggregate.filter (·.order.isLocal) = [] := by
      refine List.filter_eq_nil_iff.mpr fun r hr => ?_
      have hparty := u.shown_external (hshown ▸ List.mem_map_of_mem hr)
      simp [Order.isLocal_eq_false hparty]
    rw [hhere, List.filter_append, hexternal, List.nil_append,
      Resting.filterMap_filledBy?_nil fun r hr => hc (List.mem_filter.mp hr).1, List.filter_filter]
    simp only [Bool.and_self]

section Applied

variable {u : LevelUpdate α} {k own : Level α} {o : Order α}

theorem Sound.posted_frames (h : b.Sound) (hp : Posts b b' u k own o)
    (hn : negligible u.totalQty = false)
    (ho : o.sizes = (.external, u.totalQty, u.totalQty, Scalar.zero)) :
    Frames b b'.uncross.2 u b'.uncross.1.1 := by
  obtain ⟨a, hq⟩ := hp.queue
  obtain ⟨ds, hfills, haccounts, hds⟩ := h.posted_deals hp hq
  have hkp : k.price = u.price := hp.changes.price.symm.trans hp.price
  have hmust : k ∈ b.levels u.side ∨ own.queue ≠ [] := .inr hp.sound.nonempty
  have hold := hp.changes.queueAt_old h.toFiled hp.filed hmust
  have hnew := hp.changes.queueAt_new h.toFiled hp.filed hmust
  have hother := hp.changes.queueAt_other h.toFiled hp.filed
  rw [hkp] at hold hnew hother
  have hqueue : ∀ side p, b'.uncross.2.queueAt side p =
      ((b'.queueAt side p).map fun r => (takes (ds.map (·.part side)) (p, r)).2).filter
        fun r => !(r.order.remaining == Scalar.zero) := fun side p => by
    obtain ⟨gone, ha⟩ := haccounts side
    exact hp.filed.queueAt_accounts hp.filed.uncross ha p
  rw [hfills]
  refine ⟨fun side p hne => ?_,
    [⟨a, o.fills (ds.map Deal.traded)⟩].filter fun r => !(r.order.remaining == Scalar.zero), ?_, ?_⟩
  · rw [hqueue, ← hother side p hne, Resting.filterMap_filledBy?]
    exact congrArg _ (List.map_congr_left fun r hr => hp.beside hq hds hr (.inl hne))
  · exact u.shown_fills hn ho a (ds.map Deal.traded)
  · have hlocals : ∀ r ∈ k.queue.filter (·.order.isLocal),
        (takes (ds.map (·.part u.side)) (u.price, r)).2 = r.filledBy (ds.map Deal.traded) :=
      fun r hr => hp.beside hq hds (by rw [hnew, hq]; exact List.mem_cons_of_mem _ hr)
        (.inr (List.mem_filter.mp hr).2)
    rw [hqueue, hnew, hq, hold, List.map_cons, List.map_congr_left hlocals, takes_aggregate hds,
      Resting.filterMap_filledBy?, ← List.filter_append, List.singleton_append]

theorem Sound.counts_at (h : b.Sound) {r : Resting α} (hr : r ∈ b.queueAt side p) :
    Counts r.order.remaining := by
  obtain ⟨k, hk, -, hr⟩ := h.mem_queueAt.mp hr
  exact (h.sound side k hk).counts r hr

theorem Sound.dropped_frames (h : b.Sound) (hn : negligible u.totalQty = true) :
    Frames b (b.dropAggregate u) u [] := by
  have hshown : u.shown [] = [] := by
    rw [LevelUpdate.shown, hn, Bool.true_or, if_pos rfl]
  have hlocals : ∀ r ∈ (b.queueAt u.side u.price).filter (·.order.isLocal),
      Counts r.order.remaining := fun r hr => h.counts_at (List.mem_filter.mp hr).1
  suffices hq : (∀ side p, (side, p) ≠ (u.side, u.price) →
        (b.dropAggregate u).queueAt side p = b.queueAt side p) ∧
      (b.dropAggregate u).queueAt u.side u.price =
        (b.queueAt u.side u.price).filter (·.order.isLocal) by
    refine ⟨fun side p hne => ?_, [], by rw [hshown]; rfl, ?_⟩
    · rw [hq.1 side p hne, Resting.filterMap_filledBy?_nil fun r hr => h.counts_at hr]
    · rw [hq.2, List.nil_append, Resting.filterMap_filledBy?_nil hlocals]
  obtain ⟨hf, ⟨hb, hnone⟩ | ⟨k, r, rs, hk, hkp, hq, hparty, -, hc⟩⟩ := h.toFiled.dropAggregate u
  · rw [hb]
    refine ⟨fun _ _ _ => rfl, (List.filter_eq_self.mpr fun r hr => ?_).symm⟩
    obtain ⟨k, hk, hkp, hr⟩ := h.mem_queueAt.mp hr
    have hall := filter_of_no_aggregate (h.sound u.side k hk).orderly (hnone k hk hkp)
    exact List.filter_eq_self.mp hall r hr
  · have hbehind := filter_behind (hq ▸ (h.sound u.side k hk).orderly)
    have hlocal := Order.isLocal_eq_false hparty
    have hold := hc.queueAt_old h.toFiled hf (.inl hk)
    have hnew := hc.queueAt_new h.toFiled hf (.inl hk)
    have hother := hc.queueAt_other h.toFiled hf
    rw [hkp] at hold hnew hother
    refine ⟨hother, ?_⟩
    rw [hnew, hold, hq, List.filter_cons, if_neg (by simp [hlocal]), hbehind]
    rfl

theorem Sound.applied_frames (h : b.Sound) (now : α) (hu : u.fault? = none) :
    Frames b (b.applied u now).2 u (b.applied u now).1.1 := by
  cases hn : negligible u.totalQty with
  | true =>
    have hdrop := h.dropAggregate u
    obtain ⟨hs, hlevels, hfills⟩ := hdrop.uncross
    have hqueue : ∀ side p, (b.dropAggregate u).uncross.2.queueAt side p =
        (b.dropAggregate u).queueAt side p := fun side p =>
      hdrop.toFiled.queueAt_congr hs.toFiled fun j _ => by rw [hlevels]
    rw [applied_of_negligible now hn, hfills]
    obtain ⟨helsewhere, aggregate, hshown, hhere⟩ := h.dropped_frames hn
    refine ⟨fun side p hne => ?_, aggregate, hshown, ?_⟩
    · rw [hqueue, helsewhere side p hne]
    · rw [hqueue, hhere]
  | false =>
    obtain ⟨k, own, o, hp⟩ := h.posts now hu hn
    obtain ⟨a, hq⟩ := hp.queue
    have hown : own ∈ (b.posted u now).levels u.side :=
      hp.changes.swaps.mem_self hp.sound.nonempty
    have ho : o.sizes = (.external, u.totalQty, u.totalQty, Scalar.zero) :=
      h.toFiled.posted_sizes (r := ⟨a, o⟩) (fault?_eq_none hu).1 hown hp.price
        (aggregate?_eq_some.mpr ⟨_, hq, hp.party⟩)
    rw [applied_of_counts now hn]
    exact h.posted_frames hp hn ho

end Applied

section Trims

variable {c c' : Book α} {u : LevelUpdate α} {fs : List (Fill α)}

theorem Frames.of_trims (h : Frames c c' u fs) (hb : Trims b c) (hb' : Trims b' c') :
    Frames b b' u fs := by
  obtain ⟨helsewhere, hhere⟩ := h
  simp only [hb.queueAt, hb'.queueAt] at helsewhere hhere
  exact ⟨helsewhere, hhere⟩

end Trims

section Runs

open BookM

variable {ω : Type} {clock : BookM α ω α} {s s' : Book α × ω} {u : LevelUpdate α}
  {fills : List (Fill α)} {residual : Bool}

omit [Scalar.Lawful α] in
theorem updateLevel_ok (hd : Discreet clock) (hb : s.1.busy = false)
    (hrun : (updateLevel clock u).run s = (.ok (.applied fills residual), s')) :
    ∃ now, s.1.shut.applied u now =
      ((fills, residual), (s.1.shut.applied u now).2) ∧
        s'.1 = (s.1.shut.applied u now).2.reopened := by
  obtain ⟨r, b', w, hrun', he⟩ | ⟨e, b', w, hrun', -⟩ := updateLevel_ends hd hb u
  · rw [hrun] at hrun'
    generalize hr : UpdateResult.applied fills residual = r' at hrun'
    cases hrun'
    cases he with
    | faulty => cases hr
    | updated hu ha =>
      cases ha with
      | cons u now h =>
        cases h
        rw [List.append_nil] at hr
        obtain ⟨rfl, rfl⟩ := UpdateResult.applied.inj hr
        refine ⟨now, ?_, rfl⟩
        rw [Book.applied, ← uncross_crossed]
  · rw [hrun] at hrun'
    cases hrun'

/-- An update that succeeds does what it does to the book without the levels that hold no orders. -/
theorem Trims.updated {c : Book α} (h : Trims s.1 c) (hc : c.Sound) (hd : Discreet clock)
    (hb : s.1.busy = false) (hu : u.fault? = none)
    (hrun : (updateLevel clock u).run s = (.ok (.applied fills residual), s')) :
    ∃ now, (c.applied u now).1 = (fills, residual) ∧ Trims s'.1 (c.applied u now).2 ∧
      s'.1.header = s.1.header ∧ s'.1.busy = false := by
  obtain ⟨now, happlied, hs'⟩ := updateLevel_ok hd hb hrun
  have hshut : Trims s.1.shut c := h.beside s.1.sequenceId c.sequenceId true c.busy
  obtain ⟨hsame, htrims⟩ := hshut.applied hu hc now
  refine ⟨now, by rw [hsame, happlied], ?_, ?_, by rw [hs']; rfl⟩
  · rw [hs']
    exact htrims.beside _ (c.applied u now).2.sequenceId false (c.applied u now).2.busy
  · rw [hs']
    exact applied_header (b := s.1.shut) now

theorem sound_updated (h : s.1.Sound) (hd : Discreet clock) (hb : s.1.busy = false)
    (hu : u.fault? = none)
    (hrun : (updateLevel clock u).run s = (.ok (.applied fills residual), s')) : s'.1.Sound := by
  obtain ⟨now, -, hs'⟩ := updateLevel_ok hd hb hrun
  rw [hs']
  exact (h.shut.applied now hu).reopened

end Runs

end Book

end LimitBook
