import LimitBook.Proofs.Book.Effect

namespace LimitBook.Book

open BookM

variable {α : Type} [Scalar α] {b b' : Book α} {side : Side} {k k' : Level α}

/-- Each order that rests has something left. -/
def Counted (b : Book α) : Prop := ∀ side, ∀ k ∈ b.levels side, k.Counted

theorem Changes.counted (h : Changes b b' side k k') (hb : b.Counted)
    (hk : k.Counted → k'.Counted) : b'.Counted := by
  have hfound : k.Counted := by
    obtain hk | hk := h.found
    · exact hb side k hk
    · exact hk ▸ Level.counted_empty _
  refine Side.forall_of side (fun j hj => ?_) fun j hj => ?_
  · obtain hj | ⟨rfl, -⟩ := h.stands j hj
    · exact hb side j hj
    · exact hk hfound
  · exact hb side.opposite j (h.opposite ▸ hj)

theorem counted_empty (symbol : Text) : (empty symbol : Book α).Counted := by
  intro side k hk
  cases side <;> cases hk

theorem counted_clear (b : Book α) : b.clear.Counted := by
  intro side k hk
  cases side <;> cases hk

variable [Scalar.Lawful α]

section Parts

variable {u : LevelUpdate α}

theorem Filed.matched_counted (h : b.Filed) (hb : b.Counted) {o : Order α}
    (ho : Scalar.isFinite o.remaining = true) :
    (b.matched o).Counted ∧ Scalar.isFinite (b.traded o).taker.remaining = true := by
  obtain ⟨-, hown, hopp⟩ := h.matched o
  obtain ⟨hfin, hcounted⟩ := Match.sift_counted ⟨o, [], []⟩ ho (hb o.side.opposite)
  refine ⟨Side.forall_of o.side (fun k hk => hb o.side k (hown ▸ hk)) fun k hk => ?_, ?_⟩
  · exact hcounted k (hopp ▸ hk)
  · rwa [h.traded]

theorem Filed.accept_counted (h : b.Filed) (hb : b.Counted) {s : Submission α} (now : α)
    (hs : b.refusal? s = none) : (b.accept s now).2.Counted := by
  have hfin : Scalar.isFinite (b.arrive s now).remaining = true :=
    Scalar.isPositive.finite (refusal?_eq_none hs).2.1
  obtain ⟨hm, hleft⟩ := h.matched_counted hb hfin
  rw [accept_eq]
  simp only
  split
  · exact hm
  · rename_i hn
    obtain ⟨-, k, -, hc⟩ := h.rest_traded now hs
    exact hc.counted hm fun hk => hk.pushBack ⟨hleft, Bool.eq_false_iff.mpr hn⟩

theorem Filed.remove_counted (h : b.Filed) (hb : b.Counted) (id : OrderId) :
    (b.remove id).2.Counted := by
  cases hp : b.place? id with
  | none => rwa [remove_none hp]
  | some p =>
    obtain ⟨_, _, _, _, -, hq, -, -, -, hc⟩ := h.remove hp
    exact hc.counted hb fun hk => hk.lose hq

theorem Filed.dropAggregate_counted (h : b.Filed) (hb : b.Counted) (u : LevelUpdate α) :
    (b.dropAggregate u).Counted := by
  obtain ⟨-, ⟨he, -⟩ | ⟨k, r, rs, -, -, hq, -, -, hc⟩⟩ := h.dropAggregate u
  · rwa [he]
  · have hq' : k.queue = [] ++ r :: rs := hq
    exact hc.counted hb fun hk => hk.lose hq'

theorem Filed.resize_counted (h : b.Filed) (hb : b.Counted) (hu : u.fault? = none)
    (hn : negligible u.totalQty = false) : (b.resize u).Counted := by
  obtain ⟨hp, hfin⟩ := fault?_eq_none hu
  obtain ⟨j, -, hfound, hs, hopp⟩ := h.resize_swaps hp
  have hj : j.Counted := hfound.elim (hb u.side j) fun he => he ▸ Level.counted_empty _
  refine Side.forall_of u.side (fun k hk => ?_) fun k hk => hb u.side.opposite k (hopp ▸ hk)
  obtain rfl | hk := hs.mem hk
  · exact resized_counted hj ⟨hfin, hn⟩
  · exact hb u.side k hk

theorem Filed.uncross_counted (h : b.Filed) (hb : b.Counted) : b.uncross.2.Counted := by
  obtain ⟨bs, as, hbs, has, hbc, hac⟩ := Sweep.sweep_counted (Q := Level.Counted) (fun _ hk => hk)
    (fun _ hk _ => hk) (h.ranks .buy) (h.ranks .sell) (hb .buy) (hb .sell)
  intro side k hk
  cases side with
  | buy => exact hbc k (uncross_buys hbs ▸ hk)
  | sell => exact hac k (uncross_sells has ▸ hk)

theorem Filed.applied_counted (h : b.Filed) (hb : b.Counted) (hu : u.fault? = none) (now : α) :
    (b.applied u now).2.Counted := by
  obtain ⟨hp, hfin⟩ := fault?_eq_none hu
  cases hn : negligible u.totalQty with
  | true =>
    rw [applied_of_negligible now hn]
    exact (h.dropAggregate u).1.uncross_counted (h.dropAggregate_counted hb u)
  | false =>
    obtain ⟨k, -, -, hc, -⟩ := h.posted_changes hp now
    rw [applied_of_counts now hn]
    refine ((h.resize hp).stamp now).uncross_counted (hc.counted hb fun hk => ?_)
    exact stamped_counted (resized_counted hk ⟨hfin, hn⟩) ⟨hfin, hn⟩

end Parts

variable {us : List (LevelUpdate α)} {u : LevelUpdate α}

theorem Applies.counted {fills : List (Fill α)} (ha : Applies b us fills b') (h : b.Filed)
    (hb : b.Counted) (hu : ∀ u ∈ us, u.fault? = none) : b'.Counted := by
  induction ha with
  | nil => exact hb
  | cons u now _ ih =>
    obtain ⟨hu, hus⟩ := List.forall_mem_cons.mp hu
    exact ih (h.applied now (fault?_eq_none hu).1) (h.applied_counted hb hu now) hus

theorem Effect.counted {c : Call α} {a : Answer α} (he : Effect b c a b') (h : b.Filed)
    (hb : b.Counted) : b'.Counted := by
  cases he with
  | refused | faulty | faultyBatch | numbered | shown => exact hb
  | accepted now hs => exact h.accept_counted hb now hs
  | cancelled id => exact h.remove_counted hb id
  | cleared => exact counted_clear b
  | updated hu ha => exact ha.counted h hb (List.forall_mem_singleton.mpr hu)
  | batch hu ha => exact ha.counted h hb (firstFault?_eq_none hu)

theorem BrokenOff.counted (ho : BrokenOff u b us b') (h : b.Filed) (hb : b.Counted)
    (hu : ∀ v ∈ us, v.fault? = none) : b'.Counted := by
  induction ho with
  | here hn => exact h.resize_counted hb (hu _ List.mem_cons_self) hn
  | later v now _ ih =>
    obtain ⟨hv, hus⟩ := List.forall_mem_cons.mp hu
    exact ih (h.applied now (fault?_eq_none hv).1) (h.applied_counted hb hv now) hus

theorem Aborted.counted {c : Call α} {v : Option (LevelUpdate α)} (ha : Aborted b c v b')
    (h : b.Filed) (hb : b.Counted) : b'.Counted := by
  cases ha with
  | unchanged => exact hb
  | update hu ho => exact ho.counted h hb hu

theorem Counted.perform {ω : Type} {clock : BookM α ω α} {s : Book α × ω} (hd : Discreet clock)
    (c : Call α) (h : s.1.Filed) (hs : s.1.Counted) (hb : s.1.busy = false) :
    ((perform clock c).run s).2.1.Counted := by
  obtain ⟨a, b', w', hrun, he⟩ | ⟨e, b', w', hrun, -, v, ha⟩ := perform_ends hd hb c
  · rw [hrun]
    exact he.counted h.shut hs
  · rw [hrun]
    exact ha.counted h.shut hs

theorem counted_after {ω : Type} {clock : BookM α ω α} (hd : Discreet clock)
    (calls : List (Call α)) (symbol : Text) (w : ω) :
    (after clock calls (empty symbol, w)).1.Counted := by
  refine (after_induction (P := fun s : Book α × ω =>
    s.1.Filed ∧ s.1.Counted ∧ s.1.busy = false) ⟨filed_empty symbol, counted_empty symbol, rfl⟩
      (fun s c hs => ?_) calls).2.1
  obtain ⟨hf, hs, hb⟩ := hs
  exact ⟨hf.perform hd c hb, hs.perform hd c hf hb, perform_busy c hb⟩

end LimitBook.Book
