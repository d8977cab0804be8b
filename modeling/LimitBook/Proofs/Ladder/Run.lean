import LimitBook.Proofs.Ladder
import LimitBook.Proofs.Ladder.Place
import LimitBook.Proofs.Scalar.Double

namespace LimitBook

/-- What is done to the orders at one price. -/
inductive Level.Change (α : Type) where
  | pushBack (order : Order α)
  | pushFront (order : Order α)
  | remove (handle : Handle)
  | revise (handle : Handle) (f : Order α → Order α)

def Level.changed {α : Type} (k : Level α) : Level.Change α → Level α
  | .pushBack o => (k.pushBack o).2
  | .pushFront o => (k.pushFront o).2
  | .remove h => ((k.remove? h).map (·.2)).getD k
  | .revise h f => k.update h f

theorem Level.changed_price {α : Type} (k : Level α) (c : Level.Change α) :
    (k.changed c).price = k.price := by
  cases c with
  | pushBack o => exact k.pushBack_price o
  | pushFront o => exact k.pushFront_price o
  | revise h f => rfl
  | remove h => cases hg : k.get? h <;> simp [changed, remove?, hg]

namespace Ladder

variable {α : Type} [Scalar α]

/-- What is done to a ladder, or to the level that it has at a price. -/
inductive Call (α : Type) where
  | upsert (price : α)
  | within (price : α) (change : Level.Change α)
  | removeIfEmpty (price : α)
  | clear

def Call.Priced : Call α → Prop
  | .upsert p => Scalar.isPositive p = true
  | _ => True

instance : DecidablePred (Call.Priced : Call α → Prop)
  | .upsert p => inferInstanceAs (Decidable (Scalar.isPositive p = true))
  | .within _ _ | .removeIfEmpty _ | .clear => isTrue trivial

/-- The ladder with a change made to the level at a price, if there is one. -/
def within (l : Ladder α) (p : α) (c : Level.Change α) : Ladder α :=
  match l.level? p with
  | none => l
  | some k => l.put (k.changed c)

def perform (l : Ladder α) : Call α → Ladder α
  | .upsert p => (l.upsert p).2
  | .within p c => l.within p c
  | .removeIfEmpty p => (l.removeIfEmpty p).2
  | .clear => l.clear

/-- The ladder after calls one after the other. -/
def after (l : Ladder α) (cs : List (Call α)) : Ladder α := cs.foldl perform l

variable [Scalar.Lawful α] {l l' : Ladder α} {side : Side} {ks front back : List (Level α)}
  {k : Level α} {p : α}

theorem Ranks.level?_congr {ks' : List (Level α)} {q : α} (h : l.Ranks side ks)
    (h' : l'.Ranks side ks') (hk : ∀ k, k.price = q → (k ∈ ks' ↔ k ∈ ks)) :
    l'.level? q = l.level? q :=
  Option.ext fun k => by
    rw [h'.level?_eq_some, h.level?_eq_some]
    exact and_congr_left (hk k)

/-- `l'` is `l` with the level `k` at the price `p` in addition. -/
structure Gains (l l' : Ladder α) (p : α) (k : Level α) : Prop where
  prices : ∃ front back, l.prices = front ++ back ∧ l'.prices = front ++ p :: back
  absent : l.level? p = none
  present : l'.level? p = some k
  others : ∀ q, q ≠ p → l'.level? q = l.level? q

theorem Ranks.gains (h : l.Ranks side (front ++ back)) (h' : l'.Ranks side (front ++ k :: back)) :
    Gains l l' k.price k where
  prices := ⟨front.map (·.price), back.map (·.price), by simp [h.prices], by simp [h'.prices]⟩
  absent := h.level?_eq_none.mpr h'.price_ne
  present := h'.level?_eq_some.mpr ⟨by simp, rfl⟩
  others q hq := h.level?_congr h' fun j hj => by
    have hne : j ≠ k := fun he => hq (he ▸ hj.symm)
    simp [hne]

theorem Ranks.upsert_gains (h : l.Ranks side ks) (hp : Scalar.isPositive p = true)
    (hl : l.level? p = none) :
    (l.upsert p).1 = Level.empty p ∧ Gains l (l.upsert p).2 p (Level.empty p) ∧
      ∃ ks', (l.upsert p).2.Ranks side ks' := by
  obtain ⟨hnew, front, back, rfl, h'⟩ := h.upsert_of_none hp hl
  exact ⟨hnew, h.gains h', _, h'⟩

theorem Ranks.removeIfEmpty_cases (h : l.Ranks side ks) (p : α) :
    (∃ k, l.level? p = some k ∧ k.isEmpty = true ∧ (l.removeIfEmpty p).1 = true ∧
      Gains (l.removeIfEmpty p).2 l p k ∧ ∃ ks', (l.removeIfEmpty p).2.Ranks side ks') ∨
      (∀ k, l.level? p = some k → k.isEmpty = false) ∧ l.removeIfEmpty p = (false, l) := by
  cases hl : l.level? p with
  | none => exact .inr ⟨fun k hk => (nomatch hk), by rw [Ladder.removeIfEmpty, hl]⟩
  | some k =>
    cases he : k.isEmpty with
    | false =>
      refine .inr ⟨fun j hj => Option.some.inj hj ▸ he, ?_⟩
      simp [Ladder.removeIfEmpty, hl, he]
    | true =>
      obtain ⟨front, back, rfl, rfl⟩ := h.split hl
      have h' := h.removeIfEmpty
      rw [kept, if_pos he, List.append_nil] at h'
      refine .inl ⟨k, rfl, he, ?_, h'.gains h, _, h'⟩
      simp [Ladder.removeIfEmpty, hl, he]

theorem Ranks.within (h : l.Ranks side ks) (p : α) (c : Level.Change α) :
    (l.within p c).prices = l.prices ∧
      (l.within p c).level? p = (l.level? p).map (·.changed c) ∧
      (∀ q, q ≠ p → (l.within p c).level? q = l.level? q) ∧
      ∃ ks', (l.within p c).Ranks side ks' := by
  unfold Ladder.within
  cases hl : l.level? p with
  | none => exact ⟨rfl, hl, fun _ _ => rfl, ks, h⟩
  | some k =>
    obtain ⟨front, back, rfl, rfl⟩ := h.split hl
    have hp := k.changed_price c
    have h' := h.put hp
    refine ⟨by simp [h.prices, h'.prices, hp], ?_, fun q hq => h.level?_congr h' fun j hj => ?_,
      _, h'⟩
    · exact h'.level?_eq_some.mpr ⟨by simp, hp⟩
    · have hne : j ≠ k.changed c := fun he => hq (by rw [← hj, he, hp])
      have hne' : j ≠ k := fun he => hq (he ▸ hj.symm)
      simp [hne, hne']

theorem Ranks.perform (h : l.Ranks side ks) {c : Call α} (hc : c.Priced) :
    ∃ ks', (l.perform c).Ranks side ks' := by
  cases c with
  | upsert p =>
    cases hl : l.level? p with
    | none => exact (h.upsert_gains hc hl).2.2
    | some k => exact ⟨ks, by rwa [Ladder.perform, upsert_of_some hl]⟩
  | within p c => exact (h.within p c).2.2.2
  | removeIfEmpty p =>
    obtain ⟨k, -, -, -, -, h'⟩ | ⟨-, hsame⟩ := h.removeIfEmpty_cases p
    · exact h'
    · exact ⟨ks, by rwa [Ladder.perform, hsame]⟩
  | clear => exact ⟨[], h.clear⟩

theorem Ranks.after (h : l.Ranks side ks) {cs : List (Call α)} (hc : ∀ c ∈ cs, c.Priced) :
    ∃ ks', (l.after cs).Ranks side ks' := by
  induction cs generalizing l ks with
  | nil => exact ⟨ks, h⟩
  | cons c cs ih =>
    obtain ⟨hc, hcs⟩ := List.forall_mem_cons.mp hc
    obtain ⟨ks', h'⟩ := h.perform hc
    exact ih h' hcs

/-- The list of prices has the keys of the map, each once and in the order of the side; the level of
a key has it for its price, and the best price is the greatest or the least key. -/
structure SortedMap (l : Ladder α) : Prop where
  falling : l.side = .buy → l.prices.Pairwise fun p q => q < p
  rising : l.side = .sell → l.prices.Pairwise fun p q => p < q
  keys : ∀ p, p ∈ l.prices ↔ ∃ k, l.level? p = some k
  keyed : ∀ p k, l.level? p = some k → k.price = p
  levels : (l.levels.map (·.price)).Perm l.prices
  size : l.size = l.levels.length
  none : l.bestPrice = none ↔ ∀ p, l.level? p = none
  greatest : l.side = .buy → ∀ p, l.bestPrice = some p ↔
    (∃ k, l.level? p = some k) ∧ ∀ q k, l.level? q = some k → q ≤ p
  least : l.side = .sell → ∀ p, l.bestPrice = some p ↔
    (∃ k, l.level? p = some k) ∧ ∀ q k, l.level? q = some k → p ≤ q

omit [Scalar.Lawful α] in
theorem Ranks.prices_sorted (h : l.Ranks side ks) :
    l.prices.Pairwise fun p q => better side p q = true := by
  rw [h.prices]
  exact List.pairwise_map.mpr h.sorted

theorem Ranks.finite (h : l.Ranks side ks) (hk : l.level? p = some k) :
    Scalar.isFinite p = true := by
  obtain ⟨hm, rfl⟩ := h.level?_eq_some.mp hk
  exact Scalar.isPositive.finite (h.positive k hm)

theorem Ranks.bestPrice_eq_some (h : l.Ranks side ks) : l.bestPrice = some p ↔
    (∃ k, l.level? p = some k) ∧ ∀ q k, l.level? q = some k → ¬better side q p = true := by
  rw [h.bestPrice]
  cases ks with
  | nil => simp [h.level?_eq_some]
  | cons j ks =>
    obtain ⟨hj, -⟩ := List.pairwise_cons.mp h.sorted
    rw [List.head?_cons, Option.map_some, Option.some_inj]
    constructor
    · rintro rfl
      refine ⟨⟨j, h.level?_eq_some.mpr ⟨by simp, rfl⟩⟩, fun q k hk hb => ?_⟩
      obtain ⟨hm, rfl⟩ := h.level?_eq_some.mp hk
      obtain rfl | hm := List.mem_cons.mp hm
      · exact better_asymm hb hb
      · exact better_asymm (hj k hm) hb
    · rintro ⟨⟨k, hk⟩, hbest⟩
      obtain ⟨hm, rfl⟩ := h.level?_eq_some.mp hk
      obtain rfl | hm := List.mem_cons.mp hm
      · rfl
      · exact absurd (hj k hm) (hbest j.price j (h.level?_eq_some.mpr ⟨by simp, rfl⟩))

theorem Ranks.sortedMap (h : l.Ranks side ks) : l.SortedMap where
  falling hs := by
    have hsort := h.prices_sorted
    rw [← h.faces, hs] at hsort
    exact hsort.imp fun hb => of_decide_eq_true hb
  rising hs := by
    have hsort := h.prices_sorted
    rw [← h.faces, hs] at hsort
    exact hsort.imp fun hb => of_decide_eq_true hb
  keys p := by
    simp only [h.prices, List.mem_map, h.level?_eq_some]
  keyed p k hk := (h.level?_eq_some.mp hk).2
  levels := h.prices ▸ h.levels.map _
  size := by rw [Ladder.size, h.prices, List.length_map, h.levels.length_eq]
  none := by
    rw [h.bestPrice, Option.map_eq_none_iff, List.head?_eq_none_iff]
    constructor
    · rintro rfl p
      exact h.level?_eq_none.mpr (by simp)
    · intro hnone
      refine List.eq_nil_iff_forall_not_mem.mpr fun k hk => ?_
      exact h.level?_eq_none.mp (hnone k.price) k hk rfl
  greatest hs p := by
    rw [h.bestPrice_eq_some, ← h.faces, hs]
    refine and_congr_right fun ⟨k, hk⟩ => forall₃_congr fun q j hj => ?_
    rw [better, decide_eq_true_eq]
    exact Scalar.not_lt_iff (h.finite hk) (h.finite hj)
  least hs p := by
    rw [h.bestPrice_eq_some, ← h.faces, hs]
    refine and_congr_right fun ⟨k, hk⟩ => forall₃_congr fun q j hj => ?_
    rw [better, decide_eq_true_eq]
    exact Scalar.not_lt_iff (h.finite hj) (h.finite hk)

/-- After any calls that give levels to finite prices above zero alone, a ladder is a sorted map. A
price that has a level gets that level, and another gets an empty one, in addition to all that there
is and at the place that its search finds; what is done within a level leaves the others and the
prices; and exactly an empty level can be dropped, alone. -/
theorem sorted_after (side : Side) {calls : List (Call α)} (hc : ∀ c ∈ calls, c.Priced) :
    let l := (empty side).after calls
    l.side = side ∧ l.SortedMap ∧
      (∀ p k, l.level? p = some k → l.upsert p = (k, l)) ∧
      (∀ p, Scalar.isPositive p = true → l.level? p = none →
        (l.upsert p).1 = Level.empty p ∧ Gains l (l.upsert p).2 p (Level.empty p) ∧
          (l.upsert p).2.prices = l.prices.take (place side p l.prices 0 l.size) ++
            p :: l.prices.drop (place side p l.prices 0 l.size)) ∧
      (∀ p c, (l.within p c).prices = l.prices ∧
        (l.within p c).level? p = (l.level? p).map (·.changed c) ∧
        ∀ q, q ≠ p → (l.within p c).level? q = l.level? q) ∧
      ∀ p, ((l.removeIfEmpty p).1 = true ↔ ∃ k, l.level? p = some k ∧ k.isEmpty = true) ∧
        ((l.removeIfEmpty p).1 = true → ∃ k, k.isEmpty = true ∧ Gains (l.removeIfEmpty p).2 l p k) ∧
        ((l.removeIfEmpty p).1 = false → (l.removeIfEmpty p).2 = l) := by
  intro l
  obtain ⟨ks, h⟩ : ∃ ks, l.Ranks side ks := (ranks_empty side).after hc
  refine ⟨h.faces, h.sortedMap, fun p k hk => upsert_of_some hk, fun p hp hl => ?_, fun p c => ?_,
    fun p => ?_⟩
  · obtain ⟨hnew, hgains, -⟩ := h.upsert_gains hp hl
    exact ⟨hnew, hgains, h.faces ▸ upsert_place hl⟩
  · obtain ⟨hprices, hhere, hothers, -⟩ := h.within p c
    exact ⟨hprices, hhere, hothers⟩
  · obtain ⟨k, hk, he, htrue, hgains, -⟩ | ⟨hempty, hsame⟩ := h.removeIfEmpty_cases p
    · exact ⟨⟨fun _ => ⟨k, hk, he⟩, fun _ => htrue⟩, fun _ => ⟨k, he, hgains⟩,
        fun hf => absurd (hf.symm.trans htrue) Bool.false_ne_true⟩
    · rw [hsame]
      refine ⟨⟨fun hf => absurd hf Bool.false_ne_true, fun ⟨k, hk, he⟩ => ?_⟩,
        fun hf => absurd hf Bool.false_ne_true, fun _ => rfl⟩
      exact absurd ((hempty k hk).symm.trans he) Bool.false_ne_true

section Doubles

def bidCalls : List (Call Float) :=
  [.upsert 40, .upsert 60, .upsert 50,
    .within 60 (.pushBack ⟨.local 1, .buy, 60, 2, 2, 0, [], 0, 1⟩), .removeIfEmpty 60,
    .removeIfEmpty 40, .upsert 55, .within 60 (.remove 0), .removeIfEmpty 60, .upsert 45]

theorem sorted_after_bidCalls :
    (∀ c ∈ bidCalls, c.Priced) ∧
      let l := (empty .buy : Ladder Float).after bidCalls
      l.prices = [55, 50, 45] ∧ l.SortedMap ∧ (l.upsert 48).2.prices = [55, 50, 48, 45] ∧
        Gains l (l.upsert 48).2 48 (Level.empty 48) ∧
        ∃ k, k.isEmpty = true ∧ Gains (l.removeIfEmpty 50).2 l 50 k := by
  have hc : ∀ c ∈ bidCalls, c.Priced := by decide +kernel
  obtain ⟨-, hsorted, -, hnew, -, hdrop⟩ := sorted_after .buy hc
  have hnone : ((empty .buy : Ladder Float).after bidCalls).level? 48 = none :=
    Option.isNone_iff_eq_none.mp (by decide +kernel)
  obtain ⟨-, hgains, -⟩ := hnew 48 (by decide +kernel) hnone
  exact ⟨hc, by decide +kernel, hsorted, by decide +kernel, hgains,
    (hdrop 50).2.1 (by decide +kernel)⟩

end Doubles

end Ladder

end LimitBook
