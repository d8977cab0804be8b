import LimitBook.Proofs.Book.Effect
import LimitBook.Proofs.Book.Reachable
import LimitBook.Proofs.Number.Value

namespace LimitBook.Book

open BookM

section Rows

variable {α : Type} [Scalar α] {b : Book α}

/-- A level in short. -/
def summary (k : Level α) : Row α :=
  ⟨k.price, (k.orders.map (·.remaining)).foldl (· + ·) Scalar.zero, k.orders.length⟩

theorem summary_eq (k : Level α) : summary k = ⟨k.price, k.totalQty, k.size⟩ := by
  simp only [summary, Level.orders, Level.totalQty, Level.size, List.map_map, List.foldl_map,
    List.length_map, Function.comp_apply]

variable [Scalar.Lawful α]

theorem Filed.rows_eq (h : b.Filed) (side : Side) (n : Nat) :
    rows (b.ladder side) n = ((b.levels side).take n).map summary := by
  have hranks := h.ranks side
  show ((b.ladder side).prices.take n).map _ = _
  rw [hranks.prices, ← List.map_take, List.map_map]
  refine List.map_congr_left fun k hk => ?_
  have hlevel : (b.ladder side).level? k.price = some k :=
    hranks.level?_eq_some.mpr ⟨List.mem_of_mem_take hk, rfl⟩
  rw [Function.comp_apply, row, hlevel, summary_eq]

omit [Scalar.Lawful α] in
theorem rows_mono (l : Ladder α) {n m : Nat} (h : n ≤ m) : rows l n <+: rows l m :=
  (List.take_prefix_take_left h).map (row l)

end Rows

section Doubles

variable {ω : Type} {clock : BookM Float ω Float}

/-- Depth shows the book as it is and leaves it so. For `k` the whole part of what is asked for, or
none below zero, the bids are the `k` highest levels of bids and the asks the `k` lowest of asks,
both from the highest price down; and of a larger depth they are the first and the last rows. -/
theorem depth_after (hd : Discreet clock) (hr : Reliable clock) (calls : List (Call Float))
    (symbol : Text) (w : ω) {n : Float} (hn : n.isFinite = true) :
    let s := after clock calls (empty symbol, w)
    ∃ (q : ℚ) (k : Nat) (bids asks : List (Level Float)) (d : Depth Float),
      Number.value? n = some q ∧ (k : ℤ) = max 0 ⌊q⌋ ∧ (depth n).run s = (.ok d, s) ∧
        (bids.Perm s.1.bids.levels ∧ (bids.Pairwise fun a b => b.price < a.price) ∧
          d.bids = (bids.take k).map summary) ∧
        (asks.Perm s.1.asks.levels ∧ (asks.Pairwise fun a b => a.price < b.price) ∧
          d.asks = ((asks.take k).map summary).reverse) ∧
        (∀ rows ∈ [d.bids, d.asks],
          (rows.Pairwise fun r r' => r'.price < r.price) ∧ ∀ r ∈ rows, 1 ≤ r.orders) ∧
        ∀ m : Float, m.isFinite = true → n ≤ m → ∃ d', (depth m).run s = (.ok d', s) ∧
          d.bids <+: d'.bids ∧ d.asks <:+ d'.asks := by
  intro s
  obtain ⟨hs, hb⟩ : s.1.Sound ∧ s.1.busy = false := sound_after hd hr calls symbol w
  obtain ⟨q, hq⟩ := Option.isSome_iff_exists.mp ((Number.value?_isSome n).trans hn)
  have hsorted : ∀ side, (s.1.levels side).Pairwise fun a b =>
      Ladder.better side a.price b.price = true := fun side => (hs.ranks side).sorted
  have hbids : (s.1.levels .buy).Pairwise fun a b => b.price < a.price :=
    (hsorted .buy).imp of_decide_eq_true
  have hasks : (s.1.levels .sell).Pairwise fun a b => a.price < b.price :=
    (hsorted .sell).imp of_decide_eq_true
  have hcount : ∀ side i, ∀ r ∈ ((s.1.levels side).take i).map summary, 1 ≤ r.orders := by
    intro side i r hr
    obtain ⟨k, hk, rfl⟩ := List.mem_map.mp hr
    have hne := (hs.sound side k (List.mem_of_mem_take hk)).nonempty
    simpa [summary, Level.orders, Nat.one_le_iff_ne_zero] using hne
  have hlarger : ∀ {m : Float}, m.isFinite = true → n ≤ m →
      Scalar.floorNat n ≤ Scalar.floorNat m := fun {m} hm hle => by
    obtain ⟨r, hr⟩ := Option.isSome_iff_exists.mp ((Number.value?_isSome m).trans hm)
    show Number.floorNat n ≤ Number.floorNat m
    rw [Number.floorNat_eq hq, Number.floorNat_eq hr]
    exact Int.toNat_le_toNat (Int.floor_le_floor (Number.value_mono hq hr hle))
  have hshown : s.1.view (Scalar.floorNat n) =
      ⟨(((s.1.levels .sell).take (Scalar.floorNat n)).map summary).reverse,
        ((s.1.levels .buy).take (Scalar.floorNat n)).map summary⟩ := by
    have hrows := hs.toFiled.rows_eq (n := Scalar.floorNat n)
    exact congrArg₂ (fun asks bids => (⟨List.reverse asks, bids⟩ : Depth Float)) (hrows .sell)
      (hrows .buy)
  refine ⟨q, Scalar.floorNat n, s.1.levels .buy, s.1.levels .sell, _, hq, ?_,
    hshown ▸ depth_run n hb, ⟨(hs.ranks .buy).levels.symm, hbids, rfl⟩,
    ⟨(hs.ranks .sell).levels.symm, hasks, rfl⟩, ?_, fun m hm hle => ⟨_, depth_run m hb, ?_, ?_⟩⟩
  · rw [max_comm, ← Int.toNat_eq_max]
    exact congrArg Int.ofNat (Number.floorNat_eq hq)
  · simp only [List.mem_cons, List.not_mem_nil, or_false, forall_eq_or_imp, forall_eq]
    refine ⟨⟨?_, hcount .buy _⟩, ?_, fun r hr => hcount .sell _ r (List.mem_reverse.mp hr)⟩
    · exact List.pairwise_map.mpr (hbids.sublist (List.take_sublist _ _))
    · rw [List.pairwise_reverse]
      exact List.pairwise_map.mpr (hasks.sublist (List.take_sublist _ _))
  · rw [← hs.toFiled.rows_eq .buy]
    exact rows_mono _ (hlarger hm hle)
  · rw [← hs.toFiled.rows_eq .sell]
    exact List.reverse_suffix.mpr (rows_mono _ (hlarger hm hle))

def layeredCalls : List (Call Float) :=
  [.submit ⟨1, .buy, 10, 1, []⟩, .submit ⟨2, .buy, 9, 2, []⟩, .submit ⟨3, .buy, 10, 3, []⟩,
    .updateLevel ⟨.buy, 8, 4⟩, .updateLevel ⟨.sell, 11, 5⟩, .submit ⟨4, .sell, 12, 1, []⟩]

theorem depth_after_layeredCalls :
    let s := after (pure 0) layeredCalls (empty [], ())
    Discreet (pure 0 : BookM Float Unit Float) ∧ Reliable (pure 0 : BookM Float Unit Float) ∧
      (1.5 : Float).isFinite = true ∧ (7 : Float).isFinite = true ∧ (1.5 : Float) ≤ 7 ∧
        ∃ d d', (depth 1.5).run s = (.ok d, s) ∧ (depth 7).run s = (.ok d', s) ∧
          d.bids <+: d'.bids ∧ d.asks <:+ d'.asks ∧
            d.bids.map (fun r => (r.price, r.totalQty, r.orders)) = [(10, 4, 2)] ∧
              d'.asks.map (fun r => (r.price, r.totalQty, r.orders)) =
                [(12, 1, 1), (11, 5, 1)] := by
  have hn : (1.5 : Float).isFinite = true := by decide +kernel
  have hm : (7 : Float).isFinite = true := by decide +kernel
  have hle : (1.5 : Float) ≤ 7 := by decide +kernel
  obtain ⟨q, k, bids, asks, d, -, -, hrun, -, -, -, hlarger⟩ :=
    depth_after (discreet_pure 0) (reliable_pure 0) layeredCalls [] () hn
  obtain ⟨d', hrun', hbids, hasks⟩ := hlarger 7 hm hle
  have hb := (sound_after (discreet_pure 0) (reliable_pure 0) layeredCalls [] ()).2
  have hd := Except.ok.inj (Prod.mk.inj ((depth_run 1.5 hb).symm.trans hrun)).1
  have hd' := Except.ok.inj (Prod.mk.inj ((depth_run 7 hb).symm.trans hrun')).1
  refine ⟨discreet_pure 0, reliable_pure 0, hn, hm, hle, d, d', hrun, hrun', hbids, hasks, ?_, ?_⟩
  · rw [← hd]
    decide +kernel
  · rw [← hd']
    decide +kernel

end Doubles

end LimitBook.Book
