import LimitBook.Proofs.Book.Abort
import LimitBook.Proofs.Book.Counted
import LimitBook.Proofs.Book.Header

namespace LimitBook

open Ladder

variable {α : Type} [Scalar α] [Scalar.Lawful α]

theorem Ladder.eq_of_sorted {β : Type} (price : β → α) {side : Side} {xs ys : List β}
    (hx : xs.Pairwise fun a b => better side (price a) (price b) = true)
    (hy : ys.Pairwise fun a b => better side (price a) (price b) = true)
    (h : ∀ x, x ∈ xs ↔ x ∈ ys) : xs = ys := by
  have hnodup : ∀ zs : List β,
      (zs.Pairwise fun a b => better side (price a) (price b) = true) → zs.Nodup := fun zs hs =>
    hs.imp fun hb he => better_ne hb (congrArg price he)
  have hperm : xs.Perm ys := (List.perm_ext_iff_of_nodup (hnodup xs hx) (hnodup ys hy)).mpr h
  exact hperm.eq_of_pairwise (fun _ _ _ _ hab hba => absurd hba (better_asymm hab)) hx hy

omit [Scalar α] [Scalar.Lawful α] in
theorem Level.Orderly.head {n : Nat} {s t : Handle × Order α} {ts : List (Handle × Order α)}
    (h : Level.Orderly n (s :: ts)) (hs : s.2.isLocal = false) (ht : t.2.isLocal = false)
    (hn : t.2.arrival ≤ n) : Level.Orderly n (t :: ts) where
  behind := h.behind
  sorted := by simpa [List.filter_cons, hs, ht] using h.sorted
  arrived := List.forall_mem_cons.mpr ⟨hn, (List.forall_mem_cons.mp h.arrived).2⟩

namespace Book

open BookM

section Changes

variable {b b' : Book α} {side : Side} {k k' j : Level α}

theorem Changes.eq_of_price (h : Changes b b' side k k') (hf : b.Filed) (hf' : b'.Filed)
    (hk : k ∈ b.levels side ∨ k'.queue ≠ []) (hj : j ∈ b.levels side) (hp : j.price = k.price) :
    j = k := by
  obtain hk | hne := hk
  · exact (hf.ranks side).eq_of_price hj hk hp
  · obtain ⟨front, old, new, back, hold, hnew, hshows, rfl | ⟨-, hq⟩⟩ := h.swaps
    · have hranks := hf'.ranks side
      rw [hnew, List.append_assoc, List.singleton_append] at hranks
      rw [hold, List.append_assoc, List.mem_append, List.mem_append] at hj
      obtain hj | hj | hj := hj
      · exact absurd (hp.trans h.price.symm) (hranks.price_ne j (List.mem_append_left _ hj))
      · obtain rfl | ⟨rfl, -⟩ := hshows
        · exact List.mem_singleton.mp hj
        · cases hj
      · exact absurd (hp.trans h.price.symm) (hranks.price_ne j (List.mem_append_right _ hj))
    · exact absurd hq hne

theorem Changes.mem_occupied (h : Changes b b' side k k') (hf : b.Filed) (hf' : b'.Filed)
    (hk : k ∈ b.levels side ∨ k'.queue ≠ []) :
    j ∈ occupied (b'.levels side) ↔
      (j ∈ occupied (b.levels side) ∧ j.price ≠ k.price) ∨ j = k' ∧ k'.queue ≠ [] := by
  obtain ⟨front, old, new, back, hold, hnew, hshows, hshows'⟩ := h.swaps
  simp only [Ladder.mem_occupied]
  constructor
  · rintro ⟨hj, hne⟩
    obtain hjb | hjb := h.stands j hj
    · by_cases hp : j.price = k.price
      · obtain rfl := h.eq_of_price hf hf' hk hjb hp
        obtain rfl | ⟨-, hq⟩ := hshows
        · have hranks := hf.ranks side
          rw [hold, List.append_assoc, List.singleton_append] at hranks
          have hjn : j ∈ new := by
            rw [hnew, List.append_assoc, List.mem_append, List.mem_append] at hj
            obtain hj | hj | hj := hj
            · exact absurd rfl (hranks.price_ne j (List.mem_append_left _ hj))
            · exact hj
            · exact absurd rfl (hranks.price_ne j (List.mem_append_right _ hj))
          obtain rfl | ⟨rfl, -⟩ := hshows'
          · obtain rfl := List.mem_singleton.mp hjn
            exact .inr ⟨rfl, hne⟩
          · cases hjn
        · exact absurd hq hne
      · exact .inl ⟨⟨hjb, hne⟩, hp⟩
    · exact .inr hjb
  · rintro (⟨⟨hj, hne⟩, hp⟩ | ⟨rfl, hne⟩)
    · refine ⟨?_, hne⟩
      rw [hold] at hj
      rw [hnew]
      simp only [List.append_assoc, List.mem_append] at hj ⊢
      obtain hj | hj | hj := hj
      · exact .inl hj
      · obtain rfl | ⟨rfl, -⟩ := hshows
        · exact absurd (congrArg Level.price (List.mem_singleton.mp hj)) hp
        · cases hj
      · exact .inr (.inr hj)
    · exact ⟨h.swaps.mem_self hne, hne⟩

end Changes

theorem Filed.levels_of_lists {b : Book α} {side : Side} {ks : List (Level α)} (h : b.Filed)
    (hk : (b.ladder side).Lists side ks) : b.levels side = ks :=
  levels_eq (hk.ranks fun k hm =>
    (h.ranks side).positive k ((h.ranks side).mem.mp (hk.levels.mem_iff.mpr hm)))

omit [Scalar.Lawful α] in
theorem Filed.full {b : Book α} (h : b.Filed)
    (hfull : ∀ side, ∀ k ∈ (b.ladder side).levels, k.isEmpty = false) :
    ∀ side, ∀ k ∈ b.levels side, k.queue ≠ [] := fun side k hk he =>
  Bool.false_ne_true ((hfull side k ((h.ranks side).mem.mpr hk)).symm.trans
    ((Level.isEmpty_iff k).mpr he))

/-- `c` is `b` without the levels that hold no orders, and those are as new. A clock that breaks
calls off can leave such levels behind; no call minds them. -/
structure Trims (b c : Book α) : Prop where
  filed : b.Filed
  filed' : c.Filed
  levels : ∀ side, c.levels side = occupied (b.levels side)
  vacant : ∀ side, ∀ k ∈ b.levels side, k.queue = [] → k = Level.empty k.price
  index : c.index = b.index
  arrivals : c.arrivals = b.arrivals
  symbol : c.symbol = b.symbol

namespace Trims

variable {b b' c c' : Book α} {side : Side} {k k' j j' : Level α} {p : α} {id : OrderId}

omit [Scalar.Lawful α] in
theorem mem (h : Trims b c) : k ∈ c.levels side ↔ k ∈ b.levels side ∧ k.queue ≠ [] := by
  rw [h.levels, mem_occupied]

omit [Scalar.Lawful α] in
theorem sound_of_full (h : Trims b c) (hc : c.Sound)
    (hfull : ∀ side, ∀ k ∈ b.levels side, k.queue ≠ []) : b.Sound := by
  have hlevels : ∀ side, c.levels side = b.levels side := fun side => by
    rw [h.levels, occupied_eq_self (hfull side)]
  refine ⟨h.filed, fun side k hk => ?_, ?_⟩
  · rw [← h.arrivals]
    exact hc.sound side k (hlevels side ▸ hk)
  · rw [← hlevels, ← hlevels]
    exact hc.apart

omit [Scalar.Lawful α] in
theorem place (h : Trims b c) (id : OrderId) : c.place? id = b.place? id := by
  rw [place?, place?, h.index]

theorem change (h : Trims b c) (hb : Changes b b' side k k') (hc : Changes c c' side k k')
    (hf : b'.Filed) (hf' : c'.Filed) (hk : k ∈ c.levels side ∨ k'.queue ≠ [])
    (hi : c'.index = b'.index) (ha : c'.arrivals = b'.arrivals) (hs : c'.symbol = b'.symbol) :
    Trims b' c' := by
  have hfull : ∀ side, ∀ j ∈ c'.levels side, j.queue ≠ [] := by
    refine Side.forall_of side (fun j hj => ?_) fun j hj => ?_
    · exact (hc.stands j hj).elim (fun hj => (h.mem.mp hj).2) fun ⟨he, hne⟩ => he ▸ hne
    · rw [hc.opposite] at hj
      exact (h.mem.mp hj).2
  have hmem : ∀ side, ∀ j, j ∈ c'.levels side ↔ j ∈ occupied (b'.levels side) := by
    refine Side.forall_of side (fun j => ?_) fun j => ?_
    · have hself : ∀ s, occupied (c.levels s) = c.levels s := fun s =>
        occupied_eq_self fun j hj => (h.mem.mp hj).2
      rw [← occupied_eq_self (hfull side), hc.mem_occupied h.filed' hf' hk,
        hb.mem_occupied h.filed hf (hk.imp_left fun hk => (h.mem.mp hk).1), hself, h.levels]
    · rw [hc.opposite, hb.opposite, h.levels]
  refine ⟨hf, hf', fun side => ?_, ?_, hi, ha, hs⟩
  · exact eq_of_sorted Level.price (hf'.ranks side).sorted
      ((hf.ranks side).sorted.sublist List.filter_sublist) (hmem side)
  · refine Side.forall_of side (fun j hj hq => ?_) fun j hj hq => ?_
    · exact h.vacant side j ((hb.stands j hj).resolve_right fun ⟨he, hne⟩ => hne (he ▸ hq)) hq
    · rw [hb.opposite] at hj
      exact h.vacant _ j hj hq

/-- What comes where there may have been no level comes where the same one was in either book. -/
theorem found_eq (h : Trims b c) (hb : Changes b b' side k k') (hc : Changes c c' side j j')
    (hf : b'.Filed) (hf' : c'.Filed) (hk : k'.queue ≠ []) (hj : j'.queue ≠ [])
    (hp : k.price = j.price) : j = k := by
  by_cases hjc : j ∈ c.levels side
  · exact hb.eq_of_price h.filed hf (.inr hk) (h.mem.mp hjc).1 hp.symm
  · have hje := hc.found.resolve_left hjc
    obtain hkb | hke := hb.found
    · by_cases hq : k.queue = []
      · exact hje.trans ((congrArg Level.empty hp.symm).trans (h.vacant side k hkb hq).symm)
      · exact (hc.eq_of_price h.filed' hf' (.inr hj) (h.mem.mpr ⟨hkb, hq⟩) hp).symm
    · exact hje.trans ((congrArg Level.empty hp.symm).trans hke.symm)

theorem remove (h : Trims b c) (id : OrderId) :
    (c.remove id).1 = (b.remove id).1 ∧ Trims (b.remove id).2 (c.remove id).2 := by
  cases hp : b.place? id with
  | none =>
    rw [remove_none hp, remove_none ((h.place id).trans hp)]
    exact ⟨rfl, h⟩
  | some p =>
    have hp' := (h.place id).trans hp
    obtain ⟨k, front, back, r, hk, hq, hid, hb, hf, hc⟩ := h.filed.remove hp
    obtain ⟨j, front', back', r', hj, hq', hid', hb', hf', hc'⟩ := h.filed'.remove hp'
    have hr : r ∈ k.queue := by simp [hq]
    have hr' : r' ∈ j.queue := by simp [hq']
    have hplace := hp.symm.trans ((h.filed.place?_iff hk hr).mpr hid)
    have hplace' := hp'.symm.trans ((h.filed'.place?_iff hj hr').mpr hid')
    obtain ⟨-, hprice, hhandle⟩ : p.side = p.side ∧ k.price = j.price ∧ r.handle = r'.handle := by
      simpa using hplace.symm.trans hplace'
    obtain rfl := (h.filed.ranks p.side).eq_of_price hk (h.mem.mp hj).1 hprice
    have htracked := (h.filed.kept p.side k hk).tracked
    have hlose := (Level.remove?_eq htracked hq).symm.trans
      (hhandle ▸ Level.remove?_eq htracked hq')
    obtain ⟨horder, hlevel⟩ := Prod.mk.inj (Option.some.inj hlose)
    rw [← hlevel] at hc'
    have hindex : ∀ {d : Book α}, d.place? id = some p →
        (d.remove id).2.index = d.index.filter fun e => decide (e.1 ≠ id) := fun hd => by
      simp only [Book.remove, hd, setLadder_index, forget]
    refine ⟨by rw [hb, hb', horder], h.change hc hc' hf hf' (.inl hj) ?_ ?_ ?_⟩
    · rw [hindex hp, hindex hp', h.index]
    · rw [remove_arrivals, remove_arrivals, h.arrivals]
    · exact (congrArg Prod.fst (remove_header id)).trans
        (h.symbol.trans (congrArg Prod.fst (remove_header id)).symm)

theorem dropAggregate (h : Trims b c) (u : LevelUpdate α) :
    Trims (b.dropAggregate u) (c.dropAggregate u) := by
  have hindex : ∀ d : Book α, (d.dropAggregate u).index = d.index := fun d => by
    unfold Book.dropAggregate
    simp only
    split <;> simp
  have hheader : ∀ d : Book α, (d.dropAggregate u).symbol = d.symbol := fun d =>
    congrArg Prod.fst dropAggregate_header
  obtain ⟨hf, ⟨hb, hnone⟩ | ⟨k, r, rs, hk, hkp, hq, hp, ha, hc⟩⟩ := h.filed.dropAggregate u
  · obtain ⟨-, ⟨hb', -⟩ | ⟨k, r, rs, hk, hkp, hq, hp, -⟩⟩ := h.filed'.dropAggregate u
    · rwa [hb, hb']
    · have hsome := hnone k (h.mem.mp hk).1 hkp
      rw [aggregate?_eq_some.mpr ⟨rs, hq, hp⟩] at hsome
      cases hsome
  · have hkc : k ∈ c.levels u.side := h.mem.mpr ⟨hk, by simp [hq]⟩
    obtain ⟨hf', ⟨-, hnone⟩ | ⟨j, r', rs', hj, hjp, hq', -, ha', hc'⟩⟩ := h.filed'.dropAggregate u
    · have hsome := hnone k hkc hkp
      rw [aggregate?_eq_some.mpr ⟨rs, hq, hp⟩] at hsome
      cases hsome
    · obtain rfl := (h.filed'.ranks u.side).eq_of_price hkc hj (hkp.trans hjp.symm)
      obtain ⟨rfl, rfl⟩ := List.cons.inj (hq.symm.trans hq')
      refine h.change hc hc' hf hf' (.inl hkc) ?_ ?_ ?_
      · rw [hindex, hindex, h.index]
      · rw [ha, ha', h.arrivals]
      · rw [hheader, hheader, h.symbol]

theorem posted (h : Trims b c) {u : LevelUpdate α} (hp : Scalar.isPositive u.price = true)
    (now : α) : Trims (b.posted u now) (c.posted u now) := by
  have hindex : ∀ {d : Book α}, d.Filed → (d.posted u now).index = d.index := fun hd => by
    obtain ⟨front, _, back, k, -, -, -, hkp, -, hr, -, hi, -⟩ := hd.resize_ranks hp
    obtain ⟨-, -, hi', -⟩ := stamp_ranks now hr ((resized_price u k).trans hkp)
    exact hi'.trans hi
  have hsymbol : ∀ d : Book α, (d.resize u).symbol = d.symbol ∧
      (d.posted u now).symbol = d.symbol := fun d => by
    have hresize : (d.resize u).symbol = d.symbol := congrArg Prod.fst resize_header
    exact ⟨hresize, (congrArg Prod.fst (stamp_header now)).trans hresize⟩
  have hf := (h.filed.resize hp).stamp (u := u) now
  have hf' := (h.filed'.resize hp).stamp (u := u) now
  obtain ⟨k, hkp, -, hc, ha, ha'⟩ := h.filed.posted_changes hp now
  obtain ⟨j, hjp, -, hc', hb, hb'⟩ := h.filed'.posted_changes hp now
  have hne := stamped_nonempty (b := b.resize u) (u := u) now (resized u k)
  have hne' := stamped_nonempty (b := c.resize u) (u := u) now (resized u j)
  obtain rfl := h.found_eq hc hc' hf hf' hne hne' (hkp.trans hjp.symm)
  have hstamped : stamped (c.resize u) u now (resized u j) =
      stamped (b.resize u) u now (resized u j) := by
    unfold stamped newAggregate
    rw [(hsymbol b).1, (hsymbol c).1, h.symbol, ha, hb, h.arrivals]
  rw [hstamped] at hc' hne'
  refine h.change hc hc' hf hf' (.inr hne) ?_ ?_ ?_
  · rw [hindex h.filed, hindex h.filed', h.index]
  · rw [ha', hb', h.arrivals]
  · rw [(hsymbol b).2, (hsymbol c).2, h.symbol]

theorem upsert (h : Trims b c) (side : Side) (p : α) :
    ((c.ladder side).upsert p).1 = ((b.ladder side).upsert p).1 := by
  have hnone : (∀ k ∈ b.levels side, k.queue ≠ [] → k.price ≠ p) →
      (c.ladder side).level? p = none := fun hk =>
    (h.filed'.ranks side).level?_eq_none.mpr fun k hm => hk k (h.mem.mp hm).1 (h.mem.mp hm).2
  cases hl : (b.ladder side).level? p with
  | none =>
    have hl' := hnone fun k hk _ => (h.filed.ranks side).level?_eq_none.mp hl k hk
    simp only [Ladder.upsert, hl, hl']
  | some k =>
    obtain ⟨hk, rfl⟩ := (h.filed.ranks side).level?_eq_some.mp hl
    by_cases hq : k.queue = []
    · have hl' := hnone fun j hj hne hp =>
        hne ((h.filed.ranks side).eq_of_price hj hk hp ▸ hq)
      simp only [Ladder.upsert, hl, hl']
      exact (h.vacant side k hk hq).symm
    · have hl' : (c.ladder side).level? k.price = some k :=
        (h.filed'.ranks side).level?_eq_some.mpr ⟨h.mem.mpr ⟨hk, hq⟩, rfl⟩
      simp only [Ladder.upsert, hl, hl']

theorem rest (h : Trims b c) {o : Order α} (ho : o.party = .local id)
    (hid : b.hasOrder id = false) (hp : Scalar.isPositive o.price = true) :
    Trims (b.rest id o) (c.rest id o) := by
  have hid' : c.hasOrder id = false := by rwa [hasOrder, h.place]
  have hindex : ∀ d : Book α, (d.rest id o).index = (d.forget id).index ++
      [(id, ⟨o.side, o.price, ((d.ladder o.side).upsert o.price).1.allocate.1⟩)] := fun d => by
    have hset : ∀ l : Ladder α, ((d.setLadder o.side l).forget id).index = (d.forget id).index :=
      fun l => by rw [forget, setLadder_index, forget]
    simp only [Book.rest, enter, Level.pushBack, hset]
  obtain ⟨hf, k, hkp, hc⟩ := h.filed.rest ho hid hp
  obtain ⟨hf', j, hjp, hc'⟩ := h.filed'.rest ho hid' hp
  have hne : ∀ k : Level α, (k.pushBack o).2.queue ≠ [] := fun k => by
    simp [Level.pushBack_queue]
  obtain rfl := h.found_eq hc hc' hf hf' (hne k) (hne j) (hkp.trans hjp.symm)
  refine h.change hc hc' hf hf' (.inr (hne j)) ?_ ?_ ?_
  · rw [hindex, hindex, forget, forget, h.index, h.upsert]
  · rw [rest_arrivals, rest_arrivals, h.arrivals]
  · exact (congrArg Prod.fst (rest_header c id o)).trans
      (h.symbol.trans (congrArg Prod.fst (rest_header b id o)).symm)

omit [Scalar.Lawful α] in
theorem counted (h : Trims b c) (hc : c.Counted) : b.Counted := by
  intro side k hk
  by_cases hq : k.queue = []
  · intro r hr
    rw [hq] at hr
    cases hr
  · exact hc side k (h.mem.mpr ⟨hk, hq⟩)

theorem uncross (h : Trims b c) (hc : c.Counted) :
    c.uncross.1 = b.uncross.1 ∧ Trims b.uncross.2 c.uncross.2 := by
  have hb := h.counted hc
  obtain ⟨ks, js, hk, hj, hk', hj', hfills, hexhausted, hresidual⟩ :=
    Sweep.sweep_occupied (h.filed.ranks .buy).lists (h.filed.ranks .sell).lists
      (h.levels .buy ▸ (h.filed'.ranks .buy).lists) (h.levels .sell ▸ (h.filed'.ranks .sell).lists)
      (hb .buy) (hb .sell)
  have hlevels : ∀ {d : Book α} (side : Side) {ls : List (Level α)}, d.Filed →
      (d.swept.ladder side).Lists side ls → d.uncross.2.levels side = ls := fun side ls hd hl =>
    hd.uncross.levels_of_lists (by rwa [Book.uncross, release_ladder])
  have hids := congrArg ids hexhausted
  refine ⟨Prod.ext hfills hresidual, h.filed.uncross, h.filed'.uncross, fun side => ?_,
    fun side k hk' hq => ?_, ?_, ?_, ?_⟩
  · cases side with
    | buy => rw [hlevels .buy h.filed hk, hlevels .buy h.filed' hk']
    | sell => rw [hlevels .sell h.filed hj, hlevels .sell h.filed' hj']
  · exact h.vacant side k
      ((h.filed.uncross_tidies side k hk').resolve_right (not_not_intro hq)) hq
  · rw [Book.uncross, Book.uncross, release_eq, release_eq]
    simp only [h.index]
    exact congrArg (fun is => b.index.filter fun e => decide (e.1 ∉ is)) hids
  · rw [uncross_arrivals, uncross_arrivals, h.arrivals]
  · exact (congrArg Prod.fst (uncross_header c)).trans
      (h.symbol.trans (congrArg Prod.fst (uncross_header b)).symm)

theorem applied (h : Trims b c) {u : LevelUpdate α} (hu : u.fault? = none) (hc : c.Sound)
    (now : α) :
    (c.applied u now).1 = (b.applied u now).1 ∧ Trims (b.applied u now).2 (c.applied u now).2 := by
  cases hn : negligible u.totalQty with
  | true =>
    rw [applied_of_negligible now hn, applied_of_negligible now hn]
    exact (h.dropAggregate u).uncross fun side k hk => ((hc.dropAggregate u).sound side k hk).counts
  | false =>
    obtain ⟨k, own, o, hp⟩ := hc.posts now hu hn
    rw [applied_of_counts now hn, applied_of_counts now hn]
    exact (h.posted (fault?_eq_none hu).1 now).uncross fun side k hk =>
      (hp.sound_levels hc side k hk).counts

theorem matched (h : Trims b c) (o : Order α) :
    c.traded o = b.traded o ∧ Trims (b.matched o) (c.matched o) := by
  obtain ⟨hf, hown, hopp⟩ := h.filed.matched o
  obtain ⟨hf', hown', hopp'⟩ := h.filed'.matched o
  obtain ⟨hrun, hlevels⟩ :=
    Match.sift_occupied ⟨o, [], []⟩ (h.filed.ranks o.side.opposite).sorted
  have htraded : c.traded o = b.traded o := by
    rw [h.filed.traded, h.filed'.traded, h.levels, hrun]
  have htidies : b.Tidies (b.matched o) := by
    refine Side.forall_of o.side ?_ ?_
    · rw [hown]
      exact .refl _
    · rw [hopp]
      exact sift_tidies _ _ _
  have hindex : ∀ d : Book α, (d.matched o).index =
      d.index.filter fun e => decide (e.1 ∉ ids (d.traded o).exhausted) := fun d => by
    rw [Book.matched, release_eq, setLadder_index]
    rfl
  refine ⟨htraded, hf, hf', Side.forall_of o.side ?_ ?_, fun side k hk hq => ?_, ?_, ?_, ?_⟩
  · rw [hown, hown', h.levels]
  · rw [hopp, hopp', hlevels, h.levels]
  · exact h.vacant side k ((htidies side k hk).resolve_right (not_not_intro hq)) hq
  · rw [hindex, hindex, htraded, h.index]
  · rw [matched_arrivals, matched_arrivals, h.arrivals]
  · exact (congrArg Prod.fst (matched_header c o)).trans
      (h.symbol.trans (congrArg Prod.fst (matched_header b o)).symm)

omit [Scalar.Lawful α] in
theorem refusal (h : Trims b c) (s : Submission α) : c.refusal? s = b.refusal? s := by
  unfold refusal? hasOrder
  rw [h.place, h.symbol]

theorem accept (h : Trims b c) {s : Submission α} (hs : b.refusal? s = none) (now : α) :
    (c.accept s now).1 = (b.accept s now).1 ∧ Trims (b.accept s now).2 (c.accept s now).2 := by
  have harrive : c.arrive s now = b.arrive s now := by rw [arrive, arrive, h.arrivals]
  obtain ⟨hid, -, hp⟩ := refusal?_eq_none hs
  obtain ⟨htraded, hmatched⟩ := h.matched (b.arrive s now)
  have hterms := h.filed.traded_terms (b.arrive s now)
  have hparty : (b.traded (b.arrive s now)).taker.party = .local s.id :=
    congrArg Order.party hterms
  have hprice : (b.traded (b.arrive s now)).taker.price = s.price := congrArg Order.price hterms
  have hrest : Trims ((b.matched (b.arrive s now)).rest s.id (b.traded (b.arrive s now)).taker)
      ((c.matched (b.arrive s now)).rest s.id (b.traded (b.arrive s now)).taker) :=
    hmatched.rest hparty (matched_hasOrder hid) (hprice ▸ hp)
  rw [accept_eq, accept_eq, harrive]
  simp only [htraded]
  split
  · exact ⟨rfl, hmatched⟩
  · exact ⟨rfl, hrest⟩

theorem clear (h : Trims b c) : Trims b.clear c.clear where
  filed := h.filed.clear
  filed' := h.filed'.clear
  levels side := by
    rw [h.filed.clear_levels, h.filed'.clear_levels]
    rfl
  vacant side k hk := by
    rw [h.filed.clear_levels] at hk
    cases hk
  index := rfl
  arrivals := h.arrivals
  symbol := h.symbol

omit [Scalar.Lawful α] in
theorem beside (h : Trims b c) (seq seq' : Option α) (busy busy' : Bool) :
    Trims { b with sequenceId := seq, busy := busy } { c with sequenceId := seq', busy := busy' } :=
  ⟨⟨h.filed.ranks, h.filed.kept, h.filed.index, h.filed.nodup⟩,
    ⟨h.filed'.ranks, h.filed'.kept, h.filed'.index, h.filed'.nodup⟩, h.levels, h.vacant, h.index,
    h.arrivals, h.symbol⟩

end Trims

section Resize

variable {b c : Book α} {k : Level α} {u : LevelUpdate α}

theorem Filed.resize_changes (h : b.Filed) (hp : Scalar.isPositive u.price = true)
    (hk : k ∈ b.levels u.side) (hkp : k.price = u.price) (ha : (aggregate? k).isSome = true) :
    Changes b (b.resize u) u.side k (resized u k) := by
  obtain ⟨front, old, back, j, hlevels, hold, hempty, hjp, -, hr, hj, -, -⟩ := h.resize_ranks hp
  have hjk : j = k := by
    obtain rfl | ⟨rfl, -⟩ := hold
    · exact (h.ranks u.side).eq_of_price (by simp [hlevels]) hk (hjp.trans hkp.symm)
    · rw [List.append_nil] at hlevels
      have hne := hr.price_ne k (hlevels ▸ hk)
      exact absurd (hkp.trans (hjp.symm.trans (resized_price u j).symm)) hne
  rw [hjk] at hold hempty hr
  have hne : (resized u k).queue ≠ [] := by
    obtain ⟨r, hr⟩ := Option.isSome_iff_exists.mp ha
    obtain ⟨rs, hq, -⟩ := aggregate?_eq_some.mp hr
    simp [resized, ha, Level.updateFront, hq]
  refine changes_of_ranks hlevels hold hempty (resized_price u k) ?_ hj
  rwa [kept_of_nonempty hne, List.append_assoc, List.singleton_append]

omit [Scalar.Lawful α] in
theorem resized_queue (u : LevelUpdate α) (ha : (aggregate? k).isSome = true) :
    ∃ r rs, k.queue = r :: rs ∧ r.order.party = .external ∧
      (resized u k).queue = ⟨r.handle, { r.order with
        remaining := u.totalQty, original := u.totalQty, filled := Scalar.zero }⟩ :: rs := by
  obtain ⟨r, hr⟩ := Option.isSome_iff_exists.mp ha
  obtain ⟨rs, hq, hparty⟩ := aggregate?_eq_some.mp hr
  exact ⟨r, rs, hq, hparty, by simp [resized, ha, Level.updateFront, hq]⟩

omit [Scalar.Lawful α] in
theorem resized_sound {n : Nat} (h : k.Sound n) (ha : (aggregate? k).isSome = true)
    (hu : Counts u.totalQty) : (resized u k).Sound n ∧ (k.Bare → (resized u k).Bare) := by
  obtain ⟨r, rs, hq, hparty, hqueue⟩ := resized_queue u ha
  have hlocal := Order.isLocal_eq_false hparty
  have horderly := h.orderly
  rw [hq, List.map_cons] at horderly
  refine ⟨⟨⟨by simp [hqueue], resized_counted h.counts hu⟩, ?_⟩, fun hb x hx => ?_⟩
  · rw [hqueue, List.map_cons]
    exact horderly.head hlocal hlocal (horderly.arrived r.terms List.mem_cons_self)
  · rw [hqueue] at hx
    obtain rfl | hx := List.mem_cons.mp hx
    · exact hlocal
    · exact hb x (hq ▸ List.mem_cons_of_mem _ hx)

theorem Sound.resize (h : b.Sound) (hu : u.fault? = none) (hn : negligible u.totalQty = false)
    (hk : k ∈ b.levels u.side) (hkp : k.price = u.price) (ha : (aggregate? k).isSome = true) :
    (b.resize u).Sound := by
  obtain ⟨hp, hfin⟩ := fault?_eq_none hu
  obtain ⟨_, _, _, _, -, -, -, -, -, -, -, -, harr⟩ := h.toFiled.resize_ranks hp
  have hc := h.toFiled.resize_changes hp hk hkp ha
  obtain ⟨hsound, hbare⟩ := resized_sound (u := u) (h.sound u.side k hk) ha ⟨hfin, hn⟩
  refine ⟨h.toFiled.resize hp, Side.forall_of u.side (fun j hj => ?_) fun j hj => ?_,
    apart_of_side u.side fun i hi j hj hcross => ?_⟩
  · rw [harr]
    obtain hj | ⟨rfl, -⟩ := hc.stands j hj
    · exact h.sound u.side j hj
    · exact hsound
  · rw [harr]
    exact h.sound _ j (hc.opposite ▸ hj)
  · rw [hc.opposite] at hj
    obtain hi | ⟨rfl, -⟩ := hc.stands i hi
    · exact h.apart_side u.side hi hj hcross
    · rw [resized_price] at hcross
      exact (h.apart_side u.side hk hj hcross).imp_left hbare

omit [Scalar.Lawful α] in
theorem Trims.stand {b' : Book α} {side : Side} {front old back : List (Level α)} (h : Trims b c)
    (hf : b'.Filed) (hlevels : b.levels side = front ++ old ++ back) (hold : Ladder.Shows k old)
    (hempty : old = [] → k = Level.empty k.price) (hnew : b'.levels side = front ++ k :: back)
    (hopp : b'.levels side.opposite = b.levels side.opposite) (hi : b'.index = b.index)
    (ha : b'.arrivals = b.arrivals) (hs : b'.symbol = b.symbol) : Trims b' c := by
  have hoccupied : occupied (b'.levels side) = occupied (b.levels side) := by
    rw [hnew, hlevels]
    obtain rfl | ⟨rfl, hq⟩ := hold
    · simp
    · simp only [occupied_append, occupied_of_vacant hq, List.append_nil]
  have hvacant : ∀ j ∈ b'.levels side, j.queue = [] → j = Level.empty j.price := by
    intro j hj hq
    rw [hnew, List.mem_append, List.mem_cons] at hj
    have hstood := h.vacant side j
    rw [hlevels, List.append_assoc, List.mem_append, List.mem_append] at hstood
    obtain hj | rfl | hj := hj
    · exact hstood (.inl hj) hq
    · obtain rfl | ⟨rfl, -⟩ := hold
      · exact hstood (.inr (.inl (List.mem_singleton_self j))) hq
      · exact hempty rfl
    · exact hstood (.inr (.inr hj)) hq
  refine ⟨hf, h.filed', Side.forall_of side ?_ ?_, Side.forall_of side hvacant ?_,
    h.index.trans hi.symm, h.arrivals.trans ha.symm, h.symbol.trans hs.symm⟩
  · exact (h.levels side).trans hoccupied.symm
  · exact (h.levels side.opposite).trans (congrArg occupied hopp.symm)
  · rw [hopp]
    exact h.vacant side.opposite

/-- An update that is broken off gives an aggregate its size, or it makes sure of a level without
orders. -/
theorem Trims.resize_cases (h : Trims b c) (hp : Scalar.isPositive u.price = true) :
    (∃ k, k ∈ b.levels u.side ∧ k ∈ c.levels u.side ∧ k.price = u.price ∧
        (aggregate? k).isSome = true ∧ Trims (b.resize u) (c.resize u)) ∨
      (∀ k ∈ b.levels u.side, k.price = u.price → (aggregate? k).isSome = false) ∧
        Trims (b.resize u) c := by
  obtain ⟨front, old, back, k, hlevels, hold, hempty, hkp, -, hr, hj, hi, harr⟩ :=
    h.filed.resize_ranks hp
  have hf := h.filed.resize hp
  have hsymbol : ∀ d : Book α, (d.resize u).symbol = d.symbol := fun d =>
    congrArg Prod.fst resize_header
  cases ha : (aggregate? k).isSome with
  | false =>
    have hsame : resized u k = k := by simp [resized, ha]
    rw [hsame] at hr
    have hopp : (b.resize u).levels u.side.opposite = b.levels u.side.opposite := by
      rw [Book.levels, hj, Book.levels]
    refine .inr ⟨fun j hj hjp => ?_,
      h.stand hf hlevels hold hempty (levels_eq hr) hopp hi harr (hsymbol b)⟩
    have hne := hr.price_ne j
    rw [hlevels, List.append_assoc, List.mem_append, List.mem_append] at hj
    obtain hj | hj | hj := hj
    · exact absurd (hjp.trans hkp.symm) (hne (List.mem_append_left _ hj))
    · obtain rfl | ⟨rfl, -⟩ := hold
      · rwa [List.mem_singleton.mp hj]
      · cases hj
    · exact absurd (hjp.trans hkp.symm) (hne (List.mem_append_right _ hj))
  | true =>
    have hne : k.queue ≠ [] := fun hq => by simp [aggregate?, hq] at ha
    have hk : k ∈ b.levels u.side := by
      obtain rfl | ⟨-, hq⟩ := hold
      · simp [hlevels]
      · exact absurd hq hne
    have hkc := h.mem.mpr ⟨hk, hne⟩
    obtain ⟨_, _, _, _, -, -, -, -, -, -, -, hi', harr'⟩ := h.filed'.resize_ranks hp
    refine .inl ⟨k, hk, hkc, hkp, ha, h.change (h.filed.resize_changes hp hk hkp ha)
      (h.filed'.resize_changes hp hkc hkp ha) hf (h.filed'.resize hp) (.inl hkc) ?_ ?_ ?_⟩
    · rw [hi, hi', h.index]
    · rw [harr, harr', h.arrivals]
    · rw [hsymbol, hsymbol, h.symbol]

theorem Trims.resize (h : Trims b c) (hc : c.Sound) (hu : u.fault? = none)
    (hn : negligible u.totalQty = false) : ∃ c', Trims (b.resize u) c' ∧ c'.Sound := by
  obtain ⟨k, -, hk, hkp, ha, h'⟩ | ⟨-, h'⟩ := h.resize_cases (fault?_eq_none hu).1
  · exact ⟨_, h', hc.resize hu hn hk hkp ha⟩
  · exact ⟨c, h', hc⟩

end Resize

section Runs

variable {b b' c : Book α} {us : List (LevelUpdate α)} {u : LevelUpdate α}

theorem Applies.trims {fills : List (Fill α)} (ha : Applies b us fills b') (h : Trims b c)
    (hc : c.Sound) (hu : ∀ u ∈ us, u.fault? = none) : ∃ c', Trims b' c' ∧ c'.Sound := by
  induction ha generalizing c with
  | nil => exact ⟨c, h, hc⟩
  | cons u now _ ih =>
    obtain ⟨hu, hus⟩ := List.forall_mem_cons.mp hu
    exact ih (h.applied hu hc now).2 (hc.applied now hu) hus

theorem Effect.trims {call : Call α} {a : Answer α} (he : Effect b call a b') (h : Trims b c)
    (hc : c.Sound) : ∃ c', Trims b' c' ∧ c'.Sound := by
  cases he with
  | refused | faulty | faultyBatch | shown => exact ⟨c, h, hc⟩
  | accepted now hs => exact ⟨_, (h.accept hs now).2, hc.accept now ((h.refusal _).trans hs)⟩
  | cancelled id => exact ⟨_, (h.remove id).2, hc.remove id⟩
  | cleared => exact ⟨_, h.clear, hc.clear⟩
  | updated hu ha => exact ha.trims h hc (List.forall_mem_singleton.mpr hu)
  | batch hu ha => exact ha.trims h hc (firstFault?_eq_none hu)
  | numbered seq => exact ⟨c, h.beside seq c.sequenceId b.busy c.busy, hc⟩

theorem BrokenOff.trims (ho : BrokenOff u b us b') (h : Trims b c) (hc : c.Sound)
    (hu : ∀ v ∈ us, v.fault? = none) : ∃ c', Trims b' c' ∧ c'.Sound := by
  induction ho generalizing c with
  | here hn => exact h.resize hc (hu _ List.mem_cons_self) hn
  | later v now _ ih =>
    obtain ⟨hv, hus⟩ := List.forall_mem_cons.mp hu
    exact ih (h.applied hv hc now).2 (hc.applied now hv) hus

theorem Aborted.trims {call : Call α} {v : Option (LevelUpdate α)} (ha : Aborted b call v b')
    (h : Trims b c) (hc : c.Sound) : ∃ c', Trims b' c' ∧ c'.Sound := by
  cases ha with
  | unchanged => exact ⟨c, h, hc⟩
  | update hu ho => exact ho.trims h hc hu

theorem trims_empty (symbol : Text) : Trims (empty symbol : Book α) (empty symbol) := by
  refine ⟨filed_empty symbol, filed_empty symbol, fun side => ?_, fun side k hk => ?_, rfl, rfl,
    rfl⟩ <;> cases side
  · rfl
  · rfl
  · cases hk
  · cases hk

/-- Whatever calls the clock breaks off, the book is, but for levels without orders, a sound one. -/
theorem trims_after {ω : Type} {clock : BookM α ω α} (hd : Discreet clock)
    (calls : List (Call α)) (symbol : Text) (w : ω) :
    (∃ c, Trims (after clock calls (empty symbol, w)).1 c ∧ c.Sound) ∧
      (after clock calls (empty symbol, w)).1.busy = false := by
  refine after_induction (P := fun s : Book α × ω =>
    (∃ c, Trims s.1 c ∧ c.Sound) ∧ s.1.busy = false)
      ⟨⟨empty symbol, trims_empty symbol, sound_empty symbol⟩, rfl⟩ (fun s call hs => ?_) calls
  obtain ⟨⟨c, h, hc⟩, hb⟩ := hs
  refine ⟨?_, perform_busy call hb⟩
  have hshut : Trims s.1.shut c := h.beside s.1.sequenceId c.sequenceId true c.busy
  obtain ⟨a, b', w', hrun, he⟩ | ⟨e, b', w', hrun, -, v, ha⟩ := perform_ends hd hb call
  · obtain ⟨c', h', hc'⟩ := he.trims hshut hc
    rw [hrun]
    exact ⟨c', h'.beside b'.sequenceId c'.sequenceId false c'.busy, hc'⟩
  · obtain ⟨c', h', hc'⟩ := ha.trims hshut hc
    rw [hrun]
    exact ⟨c', h'.beside b'.sequenceId c'.sequenceId false c'.busy, hc'⟩

end Runs

end Book

end LimitBook
