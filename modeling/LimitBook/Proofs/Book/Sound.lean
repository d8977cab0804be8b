import LimitBook.Proofs.Book.Steps
import LimitBook.Proofs.Sweep.Virtual

namespace LimitBook.Book

variable {α : Type} [Scalar α] {b b' : Book α} {side : Side}

structure Sound (b : Book α) : Prop extends b.Filed where
  sound : ∀ side, ∀ k ∈ b.levels side, k.Sound b.arrivals
  apart : Sweep.Apart (b.levels .buy) (b.levels .sell)

theorem Sound.apart_side (h : b.Sound) (side : Side) {k j : Level α} (hk : k ∈ b.levels side)
    (hj : j ∈ b.levels side.opposite) (hc : crosses side k.price j.price = true) :
    k.Bare ∧ j.Bare := by
  cases side with
  | buy => exact h.apart k hk j hj (of_decide_eq_true hc)
  | sell => exact (h.apart j hj k hk (of_decide_eq_true hc)).symm

theorem apart_of_side (side : Side) (h : ∀ k ∈ b.levels side, ∀ j ∈ b.levels side.opposite,
    crosses side k.price j.price = true → k.Bare ∧ j.Bare) :
    Sweep.Apart (b.levels .buy) (b.levels .sell) := by
  intro k hk j hj hp
  cases side with
  | buy => exact h k hk j hj (decide_eq_true hp)
  | sell => exact (h j hj k hk (decide_eq_true hp)).symm

theorem Sound.thins (h : b.Sound) (hf : b'.Filed) (ha : b.arrivals ≤ b'.arrivals)
    (ht : ∀ side, ∀ k ∈ b'.levels side, k.Stocked ∧ ∃ j ∈ b.levels side, k.Thins j) : b'.Sound where
  toFiled := hf
  sound side k hk := by
    obtain ⟨hs, j, hj, hkj⟩ := ht side k hk
    exact ((h.sound side j hj).thins hkj hs).mono ha
  apart := h.apart.thins (fun k hk => (ht .buy k hk).2) fun k hk => (ht .sell k hk).2

theorem lose_thins {k : Level α} {front back : List (Resting α)} {r : Resting α}
    (hq : k.queue = front ++ r :: back) : (k.lose r (front ++ back)).Thins k := by
  refine ⟨rfl, List.Sublist.map _ ?_⟩
  rw [hq]
  exact List.Sublist.append_left (List.sublist_cons_self r back) front

variable [Scalar.Lawful α]

theorem sound_empty (symbol : Text) : (empty symbol : Book α).Sound where
  toFiled := filed_empty symbol
  sound side k hk := by cases side <;> cases hk
  apart k hk := by cases hk

theorem Filed.sound_clear (h : b.Filed) : b.clear.Sound where
  toFiled := h.clear
  sound side k hk := by cases side <;> cases hk
  apart k hk := by cases hk

theorem Sound.clear (h : b.Sound) : b.clear.Sound := h.toFiled.sound_clear

omit [Scalar.Lawful α] in
theorem Sound.lose (h : b.Sound) (hf : b'.Filed) (ha : b'.arrivals = b.arrivals) {k : Level α}
    {front back : List (Resting α)} {r : Resting α} (hq : k.queue = front ++ r :: back)
    (hc : Changes b b' side k (k.lose r (front ++ back))) : b'.Sound := by
  have hk : k ∈ b.levels side := hc.found.resolve_right fun he => by
    rw [he] at hq
    simp [Level.empty] at hq
  have hstays : ∀ side, ∀ j ∈ b.levels side, j.Stocked ∧ ∃ i ∈ b.levels side, j.Thins i :=
    fun side j hj => ⟨(h.sound side j hj).toStocked, j, hj, .refl j⟩
  have hside : ∀ j ∈ b'.levels side, j.Stocked ∧ ∃ i ∈ b.levels side, j.Thins i := by
    intro j hj
    obtain hj | ⟨rfl, hne⟩ := hc.stands j hj
    · exact hstays side j hj
    · have ht := lose_thins hq
      exact ⟨⟨hne, (h.sound side k hk).counts.lose hq⟩, k, hk, ht⟩
  have hopp : ∀ j ∈ b'.levels side.opposite,
      j.Stocked ∧ ∃ i ∈ b.levels side.opposite, j.Thins i := fun j hj =>
    hstays side.opposite j (hc.opposite ▸ hj)
  exact h.thins hf (Nat.le_of_eq ha.symm) (Side.forall_of side hside hopp)

theorem Sound.remove (h : b.Sound) (id : OrderId) : (b.remove id).2.Sound := by
  cases hp : b.place? id with
  | none => rwa [remove_none hp]
  | some p =>
    obtain ⟨k, front, back, r, -, hq, -, -, hf, hc⟩ := h.toFiled.remove hp
    exact h.lose hf (remove_arrivals id) hq hc

theorem Sound.dropAggregate (h : b.Sound) (u : LevelUpdate α) : (b.dropAggregate u).Sound := by
  obtain ⟨hf, ⟨hb, -⟩ | ⟨k, r, rs, -, -, hq, -, ha, hc⟩⟩ := h.toFiled.dropAggregate u
  · rwa [hb]
  · have hq' : k.queue = [] ++ r :: rs := hq
    exact h.lose hf ha hq' hc

theorem Sound.matched (h : b.Sound) {o : Order α} (ho : Scalar.isFinite o.remaining = true) :
    (b.matched o).Sound ∧ (∀ side, ∀ k ∈ (b.matched o).levels side, k.Sound b.arrivals) ∧
      Scalar.isFinite (b.traded o).taker.remaining = true := by
  obtain ⟨hf, hown, hopp⟩ := h.toFiled.matched o
  obtain ⟨gone, hleaves, -⟩ := Match.sift_leaves ⟨o, [], []⟩ (h.kept o.side.opposite)
  obtain ⟨hfin, hsound⟩ := Match.sift_sound ⟨o, [], []⟩ ho (h.sound o.side.opposite)
  have hstays : ∀ side, ∀ k ∈ (b.matched o).levels side,
      k.Sound b.arrivals ∧ ∃ j ∈ b.levels side, k.Thins j := by
    have hside : ∀ k ∈ (b.matched o).levels o.side,
        k.Sound b.arrivals ∧ ∃ j ∈ b.levels o.side, k.Thins j := fun k hk =>
      ⟨h.sound o.side k (hown ▸ hk), k, hown ▸ hk, .refl k⟩
    have hother : ∀ k ∈ (b.matched o).levels o.side.opposite,
        k.Sound b.arrivals ∧ ∃ j ∈ b.levels o.side.opposite, k.Thins j := fun k hk =>
      ⟨hsound k (hopp ▸ hk), hleaves.thins k (hopp ▸ hk)⟩
    exact Side.forall_of o.side hside hother
  refine ⟨h.thins hf ?_ fun side k hk => ?_, fun side k hk => (hstays side k hk).1, ?_⟩
  · rw [matched_arrivals]
    exact Nat.le_succ _
  · exact (hstays side k hk).imp_left (·.toStocked)
  · rwa [h.toFiled.traded]

omit [Scalar.Lawful α] in
theorem found_sound {n : Nat} {k : Level α} (hk : k.Sound n ∨ k = Level.empty k.price) :
    k.Counted ∧ Level.Orderly n (k.queue.map Resting.terms) := by
  obtain hk | hk := hk
  · exact ⟨hk.counts, hk.orderly⟩
  · rw [hk]
    exact ⟨Level.counted_empty _, Level.orderly_nil n⟩

omit [Scalar.Lawful α] in
theorem pushBack_sound {n m : Nat} {k : Level α} {o : Order α}
    (hk : k.Sound n ∨ k = Level.empty k.price) (hlocal : o.isLocal = true)
    (hcounts : Counts o.remaining) (hn : n < o.arrival) (hm : o.arrival ≤ m) :
    (k.pushBack o).2.Sound m := by
  obtain ⟨hc, horderly⟩ := found_sound hk
  refine ⟨⟨by simp [Level.pushBack_queue], hc.pushBack hcounts⟩, ?_⟩
  rw [Level.pushBack_queue, List.map_append]
  exact horderly.append hlocal hn hm

omit [Scalar.Lawful α] in
theorem Sound.rest (h : b.Sound) (hf : b'.Filed) (ha : b'.arrivals = b.arrivals) {k : Level α}
    {o : Order α} {n : Nat} (hc : Changes b b' side k (k.pushBack o).2)
    (hn : ∀ j ∈ b.levels side, j.Sound n) (hlocal : o.isLocal = true)
    (hcounts : Counts o.remaining) (hlt : n < o.arrival) (hle : o.arrival ≤ b.arrivals)
    (hfree : ∀ j ∈ b.levels side.opposite, crosses side k.price j.price = false) : b'.Sound where
  toFiled := hf
  sound := by
    refine Side.forall_of side (fun j hj => ?_) fun j hj => ?_
    · obtain hj | ⟨rfl, -⟩ := hc.stands j hj
      · exact (h.sound side j hj).mono (Nat.le_of_eq ha.symm)
      · exact pushBack_sound (hc.found.imp_left (hn k)) hlocal hcounts hlt (ha ▸ hle)
    · rw [hc.opposite] at hj
      exact (h.sound _ j hj).mono (Nat.le_of_eq ha.symm)
  apart := by
    refine apart_of_side side fun j hj i hi hcross => ?_
    rw [hc.opposite] at hi
    obtain hj | ⟨rfl, -⟩ := hc.stands j hj
    · exact h.apart_side side hj hi hcross
    · rw [Level.pushBack_price, hfree i hi] at hcross
      cases hcross

theorem Sound.traded_free (h : b.Sound) {o : Order α} (ho : Scalar.isFinite o.remaining = true)
    (hn : negligible (b.traded o).taker.remaining = false) :
    ∀ j ∈ (b.matched o).levels o.side.opposite, crosses o.side o.price j.price = false := by
  rw [(h.toFiled.matched o).2.2]
  rw [h.toFiled.traded] at hn
  exact Match.sift_drained ⟨o, [], []⟩ ho (h.sound o.side.opposite)
    (h.ranks o.side.opposite).sorted hn

theorem Sound.accept (h : b.Sound) {s : Submission α} (now : α) (hs : b.refusal? s = none) :
    (b.accept s now).2.Sound := by
  have hfin : Scalar.isFinite (b.arrive s now).remaining = true :=
    Scalar.isPositive.finite (refusal?_eq_none hs).2.1
  obtain ⟨hm, hold, hleft⟩ := h.matched hfin
  rw [accept_eq]
  simp only
  split
  · exact hm
  · rename_i hn
    rw [Bool.not_eq_true] at hn
    obtain ⟨hf, k, hkp, hc⟩ := h.toFiled.rest_traded now hs
    have hterms := h.toFiled.traded_terms (b.arrive s now)
    have hlocal : (b.traded (b.arrive s now)).taker.isLocal = true := congrArg Order.isLocal hterms
    have harrival : (b.traded (b.arrive s now)).taker.arrival = b.arrivals + 1 :=
      congrArg Order.arrival hterms
    have hfree := h.traded_free hfin hn
    refine hm.rest hf (rest_arrivals _ _) hc (hold s.side) hlocal ⟨hleft, hn⟩ ?_ ?_ fun j hj => ?_
    · rw [harrival]
      exact Nat.lt_succ_self _
    · refine Nat.le_of_eq ?_
      rw [harrival, matched_arrivals]
    · rw [hkp]
      exact hfree j hj

end LimitBook.Book
