import LimitBook.Proofs.Book.Mirror
import LimitBook.Proofs.Book.Vacant

namespace LimitBook.Book

open Ladder

variable {α : Type} [Scalar α]

/-- The orders that rest at a price, from the head. -/
def queueAt (b : Book α) (side : Side) (p : α) : List (Resting α) :=
  ((b.ladder side).level? p).elim [] Level.queue

variable [Scalar.Lawful α] {b b' c : Book α} {side : Side} {p : α} {k k' : Level α} {r : Resting α}
  {id : OrderId}

theorem Filed.queueAt_eq (h : b.Filed) (hk : k ∈ b.levels side) :
    b.queueAt side k.price = k.queue := by
  rw [queueAt, (h.ranks side).level?_eq_some.mpr ⟨hk, rfl⟩]
  rfl

theorem Filed.queueAt_nil (h : b.Filed) (hp : ∀ k ∈ b.levels side, k.price ≠ p) :
    b.queueAt side p = [] := by
  rw [queueAt, (h.ranks side).level?_eq_none.mpr hp]
  rfl

theorem Filed.mem_queueAt (h : b.Filed) :
    r ∈ b.queueAt side p ↔ ∃ k ∈ b.levels side, k.price = p ∧ r ∈ k.queue := by
  constructor
  · intro hr
    by_cases hp : ∃ k ∈ b.levels side, k.price = p
    · obtain ⟨k, hk, rfl⟩ := hp
      rw [h.queueAt_eq hk] at hr
      exact ⟨k, hk, rfl, hr⟩
    · rw [h.queueAt_nil fun k hk he => hp ⟨k, hk, he⟩] at hr
      cases hr
  · rintro ⟨k, hk, rfl, hr⟩
    rwa [h.queueAt_eq hk]

theorem Filed.seats_at (h : b.Filed) (side : Side) (p : α) :
    ((b.levels side).flatMap Level.seats).filter (fun m => Scalar.same m.1 p) =
      (b.queueAt side p).map (p, ·) := by
  have hother : ∀ ks : List (Level α), (∀ k ∈ ks, k ∈ b.levels side ∧ k.price ≠ p) →
      (ks.flatMap Level.seats).filter (fun m => Scalar.same m.1 p) = [] := by
    intro ks hks
    refine List.filter_eq_nil_iff.mpr fun m hm hs => ?_
    obtain ⟨k, hk, r, -, rfl⟩ := mem_seats.mp hm
    obtain ⟨hk, hne⟩ := hks k hk
    exact hne ((Scalar.same_iff ((h.ranks side).positive k hk)).mp hs)
  by_cases hp : ∃ k ∈ b.levels side, k.price = p
  · obtain ⟨k, hk, rfl⟩ := hp
    obtain ⟨front, back, hlevels⟩ := List.append_of_mem hk
    have hne := (hlevels ▸ h.ranks side).price_ne
    have hself : k.seats.filter (fun m => Scalar.same m.1 k.price) = k.seats := by
      refine List.filter_eq_self.mpr fun m hm => ?_
      obtain ⟨r, -, rfl⟩ := List.mem_map.mp hm
      exact Scalar.same_self (Scalar.isPositive.finite ((h.ranks side).positive k hk))
    have hfront := hother front fun j hj => ⟨by simp [hlevels, hj], hne j (by simp [hj])⟩
    have hback := hother back fun j hj => ⟨by simp [hlevels, hj], hne j (by simp [hj])⟩
    rw [h.queueAt_eq hk, hlevels, List.flatMap_append, List.flatMap_cons, List.filter_append,
      List.filter_append, hfront, hback, hself, List.nil_append, List.append_nil]
    rfl
  · have hp : ∀ k ∈ b.levels side, k.price ≠ p := fun k hk he => hp ⟨k, hk, he⟩
    rw [h.queueAt_nil hp, hother _ fun k hk => ⟨hk, hp k hk⟩]
    rfl

theorem Filed.queueAt_congr (h : b.Filed) (h' : b'.Filed)
    (hk : ∀ k : Level α, k.price = p → (k ∈ b'.levels side ↔ k ∈ b.levels side)) :
    b'.queueAt side p = b.queueAt side p := by
  have hlevel : (b'.ladder side).level? p = (b.ladder side).level? p := by
    refine Option.ext fun k => ?_
    rw [(h.ranks side).level?_eq_some, (h'.ranks side).level?_eq_some]
    exact and_congr_left fun hp => hk k hp
  rw [queueAt, queueAt, hlevel]

theorem Filed.queueAt_of_occupied (h : b.Filed) (h' : b'.Filed)
    (ho : occupied (b'.levels side) = occupied (b.levels side)) :
    b'.queueAt side p = b.queueAt side p := by
  have hheld : ∀ {d : Book α} {k : Level α}, k.queue ≠ [] →
      (k ∈ d.levels side ↔ k ∈ occupied (d.levels side)) := fun hq => by
    rw [mem_occupied, and_iff_left hq]
  by_cases hp : ∃ k ∈ b.levels side, k.price = p ∧ k.queue ≠ []
  · obtain ⟨k, hk, rfl, hq⟩ := hp
    have hk' : k ∈ b'.levels side := by rwa [hheld hq, ho, ← hheld hq]
    rw [h.queueAt_eq hk, h'.queueAt_eq hk']
  · have hnone : ∀ {d : Book α}, d.Filed → occupied (d.levels side) = occupied (b.levels side) →
        d.queueAt side p = [] := fun hd he => by
      refine List.eq_nil_iff_forall_not_mem.mpr fun r hr => ?_
      obtain ⟨k, hk, hkp, hr⟩ := hd.mem_queueAt.mp hr
      have hq := List.ne_nil_of_mem hr
      rw [hheld hq, he, ← hheld hq] at hk
      exact hp ⟨k, hk, hkp, hq⟩
    rw [hnone h rfl, hnone h' ho]

theorem Trims.queueAt (h : Trims b c) (side : Side) (p : α) :
    c.queueAt side p = b.queueAt side p :=
  h.filed.queueAt_of_occupied h.filed' <| by
    rw [h.levels, occupied_eq_self fun k hk => (mem_occupied.mp hk).2]

theorem Filed.place?_queueAt (h : b.Filed) {a : Handle} :
    b.place? id = some ⟨side, p, a⟩ ↔
      ∃ r ∈ b.queueAt side p, r.handle = a ∧ r.order.party = .local id := by
  rw [h.place?_eq_some]
  constructor
  · rintro ⟨k, hk, hp, o, ho, hid⟩
    exact ⟨⟨a, o⟩, h.mem_queueAt.mpr ⟨k, hk, hp, ho⟩, rfl, hid⟩
  · rintro ⟨r, hr, rfl, hid⟩
    obtain ⟨k, hk, hp, hr⟩ := h.mem_queueAt.mp hr
    exact ⟨k, hk, hp, r.order, hr, hid⟩

theorem Filed.eq_of_party (h : b.Filed) {side' : Side} {p' : α} {r' : Resting α}
    (hr : r ∈ b.queueAt side p) (hid : r.order.party = .local id) (hr' : r' ∈ b.queueAt side' p')
    (hid' : r'.order.party = .local id) : side = side' ∧ p = p' ∧ r = r' := by
  have hplace : b.place? id = some ⟨side, p, r.handle⟩ := h.place?_queueAt.mpr ⟨r, hr, rfl, hid⟩
  have hplace' : b.place? id = some ⟨side', p', r'.handle⟩ :=
    h.place?_queueAt.mpr ⟨r', hr', rfl, hid'⟩
  obtain ⟨rfl, rfl, hh⟩ : side = side' ∧ p = p' ∧ r.handle = r'.handle := by
    simpa using hplace.symm.trans hplace'
  obtain ⟨k, hk, hkp, hr⟩ := h.mem_queueAt.mp hr
  obtain ⟨j, hj, hjp, hr'⟩ := h.mem_queueAt.mp hr'
  have hr' : (⟨r.handle, r'.order⟩ : Resting α) ∈ j.queue := by rwa [hh]
  obtain ⟨-, ho⟩ := h.unique hk hj (hkp.trans hjp.symm) hr hr'
  exact ⟨rfl, rfl, congrArg₂ Resting.mk hh ho⟩

theorem Filed.getOrder?_queueAt (h : b.Filed) {o : Order α} :
    b.getOrder? id = some o ↔
      o.party = .local id ∧ ∃ side p, ∃ r ∈ b.queueAt side p, r.order = o := by
  rw [h.getOrder?_eq_some]
  refine and_congr_right fun _ => exists_congr fun side => ?_
  constructor
  · rintro ⟨k, hk, r, hr, rfl⟩
    exact ⟨k.price, r, h.mem_queueAt.mpr ⟨k, hk, rfl, hr⟩, rfl⟩
  · rintro ⟨p, r, hr, rfl⟩
    obtain ⟨k, hk, -, hr⟩ := h.mem_queueAt.mp hr
    exact ⟨k, hk, r, hr, rfl⟩

omit [Scalar.Lawful α] in
theorem Filed.mem_prices (h : b.Filed) :
    p ∈ (b.ladder side).prices ↔ ∃ k ∈ b.levels side, k.price = p := by
  rw [(h.ranks side).prices, List.mem_map]

theorem Filed.mem_prices_of_queueAt (h : b.Filed) (hq : b.queueAt side p ≠ []) :
    p ∈ (b.ladder side).prices := by
  obtain ⟨r, hr⟩ := List.exists_mem_of_ne_nil _ hq
  obtain ⟨k, hk, hp, -⟩ := h.mem_queueAt.mp hr
  exact h.mem_prices.mpr ⟨k, hk, hp⟩

theorem Filed.prices_eq (h : b.Filed) (h' : b'.Filed)
    (hp : ∀ p, p ∈ (b'.ladder side).prices ↔ p ∈ (b.ladder side).prices) :
    (b'.ladder side).prices = (b.ladder side).prices := by
  have hsorted : ∀ {d : Book α}, d.Filed → (d.ladder side).prices.Pairwise fun p q =>
      better side p q = true := fun hd => by
    rw [(hd.ranks side).prices]
    exact List.pairwise_map.mpr (hd.ranks side).sorted
  exact eq_of_sorted id (hsorted h') (hsorted h) hp

theorem Changes.queueAt_old (h : Changes b b' side k k') (hf : b.Filed) (hf' : b'.Filed)
    (hk : k ∈ b.levels side ∨ k'.queue ≠ []) : b.queueAt side k.price = k.queue := by
  obtain hm | he := h.found
  · exact hf.queueAt_eq hm
  · have hnone : k.queue = [] := by
      rw [he]
      rfl
    rw [hnone]
    refine List.eq_nil_iff_forall_not_mem.mpr fun r hr => ?_
    obtain ⟨j, hj, hp, hr⟩ := hf.mem_queueAt.mp hr
    rw [h.eq_of_price hf hf' hk hj hp, hnone] at hr
    cases hr

theorem Changes.queueAt_new (h : Changes b b' side k k') (hf : b.Filed) (hf' : b'.Filed)
    (hk : k ∈ b.levels side ∨ k'.queue ≠ []) : b'.queueAt side k.price = k'.queue := by
  by_cases hq : k'.queue = []
  · rw [hq]
    refine List.eq_nil_iff_forall_not_mem.mpr fun r hr => ?_
    obtain ⟨j, hj, hp, hr⟩ := hf'.mem_queueAt.mp hr
    have hoccupied := Ladder.mem_occupied.mpr ⟨hj, List.ne_nil_of_mem hr⟩
    obtain ⟨-, hne⟩ | ⟨-, hne⟩ := (h.mem_occupied hf hf' hk).mp hoccupied
    · exact hne hp
    · exact hne hq
  · rw [← h.price]
    exact hf'.queueAt_eq (h.swaps.mem_self hq)

theorem Changes.queueAt_other (h : Changes b b' side k k') (hf : b.Filed) (hf' : b'.Filed) :
    ∀ s p, (s, p) ≠ (side, k.price) → b'.queueAt s p = b.queueAt s p := by
  refine Side.forall_of side (fun p hp => ?_) fun p _ => ?_
  · refine hf.queueAt_congr hf' fun j hj => mem_of_price_ne h.swaps h.price fun he => ?_
    exact hp (congrArg (side, ·) (hj.symm.trans he))
  · exact hf.queueAt_congr hf' fun j _ => by rw [h.opposite]

theorem Changes.mem_prices (h : Changes b b' side k k') (hf : b.Filed) (hf' : b'.Filed)
    (hk : k ∈ b.levels side) (hq : k.queue ≠ []) : ∀ s p,
      p ∈ (b'.ladder s).prices ↔
        p ∈ (b.ladder s).prices ∧ ((s, p) = (side, k.price) → b'.queueAt s p ≠ []) := by
  refine Side.forall_of side (fun p => ?_) fun p => ?_
  · rw [hf.mem_prices, hf'.mem_prices]
    constructor
    · rintro ⟨j, hj, rfl⟩
      rw [hf'.queueAt_eq hj]
      obtain hjb | ⟨rfl, hne⟩ := h.stands j hj
      · refine ⟨⟨j, hjb, rfl⟩, fun he => ?_⟩
        rwa [(hf.ranks side).eq_of_price hjb hk (Prod.mk.inj he).2]
      · exact ⟨⟨k, hk, h.price.symm⟩, fun _ => hne⟩
    · rintro ⟨⟨j, hj, rfl⟩, hleft⟩
      by_cases hp : j.price = k.price
      · exact hf'.mem_prices.mp (hf'.mem_prices_of_queueAt (hleft (congrArg (side, ·) hp)))
      · exact ⟨j, (mem_of_price_ne h.swaps h.price hp).mpr hj, rfl⟩
  · have hne : (side.opposite, p) ≠ (side, k.price) := fun he =>
      side.opposite_ne (Prod.mk.inj he).1
    rw [hf.mem_prices, hf'.mem_prices, h.opposite, and_iff_left fun he => absurd he hne]

end LimitBook.Book
