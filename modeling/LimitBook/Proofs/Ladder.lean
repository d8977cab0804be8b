import Mathlib.Data.List.Basic
import LimitBook.Ladder
import LimitBook.Proofs.Level

namespace LimitBook.Ladder

variable {α : Type} [Scalar α]

/-- The levels of a ladder from best to worst. -/
structure Ranks (l : Ladder α) (side : Side) (ks : List (Level α)) : Prop where
  faces : l.side = side
  prices : l.prices = ks.map (·.price)
  levels : l.levels.Perm ks
  sorted : ks.Pairwise fun a b => better side a.price b.price = true
  positive : ∀ k ∈ ks, Scalar.isPositive k.price = true

/-- The levels of a ladder from best to worst, at whatever finite prices. -/
structure Lists (l : Ladder α) (side : Side) (ks : List (Level α)) : Prop where
  faces : l.side = side
  prices : l.prices = ks.map (·.price)
  levels : l.levels.Perm ks
  sorted : ks.Pairwise fun a b => better side a.price b.price = true
  finite : ∀ k ∈ ks, Scalar.isFinite k.price = true

theorem Ranks.lists {l : Ladder α} {side : Side} {ks : List (Level α)} (h : l.Ranks side ks) :
    l.Lists side ks :=
  ⟨h.faces, h.prices, h.levels, h.sorted, fun k hk => Scalar.isPositive.finite (h.positive k hk)⟩

theorem Lists.ranks {l : Ladder α} {side : Side} {ks : List (Level α)} (h : l.Lists side ks)
    (hp : ∀ k ∈ ks, Scalar.isPositive k.price = true) : l.Ranks side ks :=
  ⟨h.faces, h.prices, h.levels, h.sorted, hp⟩

theorem ranks_empty (side : Side) : (empty side : Ladder α).Ranks side [] :=
  ⟨rfl, rfl, .nil, .nil, by simp⟩

theorem Ranks.clear {l : Ladder α} {side : Side} {ks : List (Level α)} (h : l.Ranks side ks) :
    l.clear.Ranks side [] :=
  ⟨h.faces, rfl, .nil, .nil, by simp⟩

theorem Ranks.mem {l : Ladder α} {side : Side} {ks : List (Level α)} (h : l.Ranks side ks)
    {k : Level α} : k ∈ l.levels ↔ k ∈ ks := h.levels.mem_iff

theorem Lists.bestPrice {l : Ladder α} {side : Side} {ks : List (Level α)} (h : l.Lists side ks) :
    l.bestPrice = ks.head?.map (·.price) := by
  rw [Ladder.bestPrice, h.prices, List.head?_map]

theorem Ranks.bestPrice {l : Ladder α} {side : Side} {ks : List (Level α)} (h : l.Ranks side ks) :
    l.bestPrice = ks.head?.map (·.price) := h.lists.bestPrice

variable [Scalar.Lawful α]

section Priority

variable {side : Side} {a b c : α}

theorem better_trans (hab : better side a b = true) (hbc : better side b c = true) :
    better side a c = true := by
  cases side <;> simp only [better, decide_eq_true_eq] at *
  · exact Scalar.lt_trans hbc hab
  · exact Scalar.lt_trans hab hbc

theorem better_asymm (hab : better side a b = true) : ¬better side b a = true := by
  intro hba
  have h := better_trans hab hba
  cases side <;> simp only [better, decide_eq_true_eq] at h <;> exact Scalar.lt_irrefl _ h

theorem better_ne (hab : better side a b = true) : a ≠ b := by
  rintro rfl
  exact better_asymm hab hab

theorem same_of_better (ha : Scalar.isFinite a = true) (hb : Scalar.isFinite b = true)
    (hab : better side a b = true) : Scalar.same a b = false ∧ Scalar.same b a = false := by
  rw [Scalar.same_eq_beq ha, Scalar.same_eq_beq hb]
  simp only [Bool.eq_false_iff, ne_eq, Scalar.Lawful.beq_iff]
  cases side <;> simp only [better, decide_eq_true_eq] at hab
  · exact ⟨fun h => Scalar.not_le_of_lt hab h.1, fun h => Scalar.not_le_of_lt hab h.2⟩
  · exact ⟨fun h => Scalar.not_le_of_lt hab h.2, fun h => Scalar.not_le_of_lt hab h.1⟩

theorem better_total (ha : Scalar.isPositive a = true) (hb : Scalar.isPositive b = true) :
    better side a b = true ∨ a = b ∨ better side b a = true := by
  cases side <;> simp only [better, decide_eq_true_eq]
  · obtain h | h | h := Scalar.lt_or_eq_or_lt ha hb
    · exact .inr (.inr h)
    · exact .inr (.inl h)
    · exact .inl h
  · exact Scalar.lt_or_eq_or_lt ha hb

end Priority

section Ranked

variable {l : Ladder α} {side : Side} {ks front back : List (Level α)} {k k' : Level α} {p : α}

omit [Scalar.Lawful α] in
theorem find?_of_key {ls : List (Level α)} (hs : Scalar.same k.price p = true) (hk : k ∈ ls)
    (hu : ∀ j ∈ ls, Scalar.same j.price p = true → j = k) : find? p ls = some k := by
  induction ls with
  | nil => cases hk
  | cons j ls ih =>
    obtain ⟨hj, hls⟩ := List.forall_mem_cons.mp hu
    unfold find?
    by_cases he : Scalar.same j.price p = true
    · rw [if_pos he, hj he]
    · rw [if_neg he]
      exact ih ((List.mem_cons.mp hk).resolve_left fun heq => he (heq ▸ hs)) hls

theorem Lists.keys (h : l.Lists side (front ++ k :: back)) :
    Scalar.same k.price k.price = true ∧
      ∀ j ∈ front ++ back, Scalar.same j.price k.price = false := by
  have hs := h.sorted
  have hfin := h.finite
  have hk : Scalar.isFinite k.price = true := hfin k (by simp)
  rw [List.pairwise_append, List.pairwise_cons] at hs
  refine ⟨Scalar.same_self hk, fun j hj => ?_⟩
  obtain hj | hj := List.mem_append.mp hj
  · have hbetter := hs.2.2 j hj k List.mem_cons_self
    exact (same_of_better (hfin j (List.mem_append_left _ hj)) hk hbetter).1
  · have hbetter := hs.2.1.1 j hj
    exact (same_of_better hk (hfin j (by simp [hj])) hbetter).2

theorem Lists.level?_self (h : l.Lists side (front ++ k :: back)) : l.level? k.price = some k := by
  obtain ⟨hk, hne⟩ := h.keys
  refine find?_of_key hk (h.levels.mem_iff.mpr (by simp)) fun j hj hs => ?_
  have hj := h.levels.mem_iff.mp hj
  rw [List.mem_append, List.mem_cons, or_left_comm, ← List.mem_append] at hj
  exact hj.resolve_right fun hj => Bool.false_ne_true ((hne j hj).symm.trans hs)

theorem find?_eq_some {ls : List (Level α)} (hp : ∀ k ∈ ls, Scalar.isPositive k.price = true)
    (hn : (ls.map (·.price)).Nodup) : find? p ls = some k ↔ k ∈ ls ∧ k.price = p := by
  induction ls with
  | nil => simp [find?]
  | cons j ls ih =>
    obtain ⟨hj, hls⟩ := List.nodup_cons.mp hn
    have ih := ih (fun k hk => hp k (List.mem_cons_of_mem _ hk)) hls
    have hs := Scalar.same_iff (b := p) (hp j List.mem_cons_self)
    unfold find?
    by_cases he : j.price = p
    · rw [if_pos (hs.mpr he), List.mem_cons]
      constructor
      · intro h
        cases h
        exact ⟨.inl rfl, he⟩
      · rintro ⟨rfl | hk, hkp⟩
        · rfl
        · exact absurd (List.mem_map.mpr ⟨k, hk, hkp.trans he.symm⟩) hj
    · rw [if_neg (mt hs.mp he), ih, List.mem_cons]
      constructor
      · exact fun h => ⟨.inr h.1, h.2⟩
      · rintro ⟨rfl | hk, hkp⟩
        · exact absurd hkp he
        · exact ⟨hk, hkp⟩

theorem Ranks.nodup (h : l.Ranks side ks) : (ks.map (·.price)).Nodup :=
  List.pairwise_map.mpr (h.sorted.imp better_ne)

theorem Ranks.level?_eq_some (h : l.Ranks side ks) :
    l.level? p = some k ↔ k ∈ ks ∧ k.price = p := by
  have hn : (l.levels.map (·.price)).Nodup := (h.levels.map _).nodup_iff.mpr h.nodup
  rw [level?, find?_eq_some (fun k hk => h.positive k (h.mem.mp hk)) hn, h.mem]

theorem Ranks.level?_eq_none (h : l.Ranks side ks) : l.level? p = none ↔ ∀ k ∈ ks, k.price ≠ p := by
  constructor
  · intro hl k hk hkp
    rw [h.level?_eq_some.mpr ⟨hk, hkp⟩] at hl
    cases hl
  · intro hks
    cases hl : l.level? p with
    | none => rfl
    | some k => exact absurd (h.level?_eq_some.mp hl).2 (hks k (h.level?_eq_some.mp hl).1)

def ranked (l : Ladder α) : List (Level α) := l.prices.filterMap l.level?

theorem Ranks.ranked (h : l.Ranks side ks) : l.ranked = ks := by
  have hks : ∀ k ∈ ks, l.level? k.price = some k := fun k hk => h.level?_eq_some.mpr ⟨hk, rfl⟩
  rw [Ladder.ranked, h.prices, List.filterMap_map]
  exact (List.filterMap_congr hks).trans List.filterMap_some

theorem Ranks.eq_of_price (h : l.Ranks side ks) (hk : k ∈ ks) (hk' : k' ∈ ks)
    (hp : k.price = k'.price) : k = k' :=
  Option.some.inj
    ((h.level?_eq_some.mpr ⟨hk, rfl⟩).symm.trans (h.level?_eq_some.mpr ⟨hk', hp.symm⟩))

theorem Ranks.price_ne (h : l.Ranks side (front ++ k :: back)) :
    ∀ j ∈ front ++ back, j.price ≠ k.price := by
  have hs := h.sorted
  rw [List.pairwise_append, List.pairwise_cons] at hs
  intro j hj
  obtain hj | hj := List.mem_append.mp hj
  · exact better_ne (hs.2.2 j hj k List.mem_cons_self)
  · exact (better_ne (hs.2.1.1 j hj)).symm

theorem Ranks.split (h : l.Ranks side ks) (hk : l.level? p = some k) :
    ∃ front back, ks = front ++ k :: back ∧ k.price = p := by
  obtain ⟨hm, hp⟩ := h.level?_eq_some.mp hk
  obtain ⟨front, back, hks⟩ := List.append_of_mem hm
  exact ⟨front, back, hks, hp⟩

omit [Scalar.Lawful α] in
theorem sorted_replace (hp : k'.price = k.price)
    (h : (front ++ k :: back).Pairwise fun a b => better side a.price b.price = true) :
    (front ++ k' :: back).Pairwise fun a b => better side a.price b.price = true := by
  simpa only [List.pairwise_append, List.pairwise_cons, List.mem_cons, forall_eq_or_imp, hp] using h

omit [Scalar α] [Scalar.Lawful α] in
theorem drop_sublist : (front ++ back).Sublist (front ++ k :: back) :=
  List.Sublist.append_left (List.sublist_cons_self k back) front

omit [Scalar α] [Scalar.Lawful α] in
theorem mem_of_mem_drop {j : Level α} (h : j ∈ front ++ back) : j ∈ front ++ k :: back :=
  drop_sublist.subset h

omit [Scalar.Lawful α] in
theorem sorted_drop
    (h : (front ++ k :: back).Pairwise fun a b => better side a.price b.price = true) :
    (front ++ back).Pairwise fun a b => better side a.price b.price = true :=
  h.sublist drop_sublist

theorem Lists.put (h : l.Lists side (front ++ k :: back)) (hp : k'.price = k.price) :
    (l.put k').Lists side (front ++ k' :: back) where
  faces := h.faces
  prices := by simp [Ladder.put, h.prices, hp]
  levels := by
    obtain ⟨hk, hne⟩ := h.keys
    have hstay : ∀ js : List (Level α), (∀ j ∈ js, j ∈ front ++ back) →
        js.map (fun j => if Scalar.same j.price k'.price then k' else j) = js := fun js hjs => by
      refine (List.map_congr_left fun j hj => if_neg ?_).trans (List.map_id' js)
      rw [hp, hne j (hjs j hj)]
      exact Bool.false_ne_true
    refine (h.levels.map _).trans (List.Perm.of_eq ?_)
    rw [List.map_append, List.map_cons, if_pos (hp ▸ hk),
      hstay front fun j hj => List.mem_append_left _ hj,
      hstay back fun j hj => List.mem_append_right _ hj]
  sorted := sorted_replace hp h.sorted
  finite := by
    have hfin := h.finite
    simp only [List.forall_mem_append, List.forall_mem_cons] at hfin ⊢
    rwa [hp]

theorem Ranks.put (h : l.Ranks side (front ++ k :: back)) (hp : k'.price = k.price) :
    (l.put k').Ranks side (front ++ k' :: back) := by
  have hpos := h.positive
  refine (h.lists.put hp).ranks ?_
  simp only [List.forall_mem_append, List.forall_mem_cons] at hpos ⊢
  rwa [hp]

omit [Scalar.Lawful α] in
theorem erase_key {qs : List α} (hp : (p == p) = true) (hq : ∀ q ∈ qs, (q == p) = false)
    (rs : List α) : (qs ++ p :: rs).erase p = qs ++ rs := by
  induction qs with
  | nil => rw [List.nil_append, List.erase_cons, if_pos hp, List.nil_append]
  | cons q qs ih =>
    obtain ⟨hne, hqs⟩ := List.forall_mem_cons.mp hq
    rw [List.cons_append, List.erase_cons, if_neg (by simp [hne]), ih hqs, List.cons_append]

def kept (k : Level α) : List (Level α) := if k.isEmpty then [] else [k]

omit [Scalar α] [Scalar.Lawful α] in
theorem mem_kept {j : Level α} : j ∈ kept k ↔ j = k ∧ k.queue ≠ [] := by
  unfold kept
  by_cases hk : k.queue = []
  · simp [hk, (Level.isEmpty_iff k).mpr hk]
  · simp [hk, mt (Level.isEmpty_iff k).mp hk]

theorem Lists.removeIfEmpty (h : l.Lists side (front ++ k :: back)) :
    ((l.removeIfEmpty k.price).2).Lists side (front ++ kept k ++ back) := by
  unfold Ladder.removeIfEmpty kept
  rw [h.level?_self]
  by_cases he : k.isEmpty = true
  · simp only [he, if_true, List.append_nil]
    obtain ⟨hk, hne⟩ := h.keys
    have hfin := h.finite
    refine ⟨h.faces, ?_, ?_, sorted_drop h.sorted, fun j hj => hfin j (mem_of_mem_drop hj)⟩
    · simp only [h.prices, List.map_append, List.map_cons]
      refine erase_key (Scalar.beq_self (hfin k (by simp))) (fun q hq => ?_) _
      obtain ⟨j, hj, rfl⟩ := List.mem_map.mp hq
      rw [← Scalar.same_eq_beq (hfin j (List.mem_append_left _ hj))]
      exact hne j (List.mem_append_left _ hj)
    · refine (h.levels.filter _).trans (List.Perm.of_eq ?_)
      rw [List.filter_append, List.filter_cons_of_neg (by simp [hk]), ← List.filter_append,
        List.filter_eq_self.mpr fun j hj => by simp [hne j hj]]
  · simp only [he]
    simpa using h

theorem Ranks.removeIfEmpty (h : l.Ranks side (front ++ k :: back)) :
    ((l.removeIfEmpty k.price).2).Ranks side (front ++ kept k ++ back) := by
  refine h.lists.removeIfEmpty.ranks fun j hj => h.positive j ?_
  simp only [List.append_assoc, List.mem_append, mem_kept, List.mem_cons] at hj ⊢
  exact hj.imp_right (Or.imp_left And.left)

theorem Lists.restore (h : l.Lists side (front ++ k :: back)) (hp : k'.price = k.price) :
    (l.restore k').Lists side (front ++ kept k' ++ back) := (h.put hp).removeIfEmpty

theorem Ranks.restore (h : l.Ranks side (front ++ k :: back)) (hp : k'.price = k.price) :
    (l.restore k').Ranks side (front ++ kept k' ++ back) := (h.put hp).removeIfEmpty

/-- The levels without their aggregates; those with nothing else are dropped. -/
def copies (ks : List (Level α)) : List (Level α) := ks.flatMap fun k => kept k.locals

/-- A copy of a ladder from which all aggregates have been taken away. -/
def locals (l : Ladder α) : Ladder α :=
  ⟨l.side, copies l.ranked, (copies l.ranked).map (·.price)⟩

omit [Scalar α] [Scalar.Lawful α] in
theorem mem_copies : k ∈ copies ks ↔ ∃ j ∈ ks, k = j.locals ∧ j.locals.queue ≠ [] := by
  simp only [copies, List.mem_flatMap, mem_kept]

omit [Scalar.Lawful α] in
theorem copies_sorted (h : ks.Pairwise fun a b => better side a.price b.price = true) :
    (copies ks).Pairwise fun a b => better side a.price b.price = true := by
  induction ks with
  | nil => exact .nil
  | cons k ks ih =>
    obtain ⟨hk, hks⟩ := List.pairwise_cons.mp h
    have hrest : ∀ j ∈ copies ks, better side k.price j.price = true := fun j hj => by
      obtain ⟨i, hi, rfl, -⟩ := mem_copies.mp hj
      exact hk i hi
    simp only [copies, List.flatMap_cons]
    refine List.pairwise_append.mpr ⟨?_, ih hks, fun i hi j hj => ?_⟩
    · unfold kept
      split
      · exact .nil
      · exact List.pairwise_singleton _ _
    · obtain ⟨rfl, -⟩ := mem_kept.mp hi
      exact hrest j hj

theorem Ranks.locals (h : l.Ranks side ks) : l.locals.Ranks side (copies ks) := by
  unfold Ladder.locals
  rw [h.ranked]
  refine ⟨h.faces, rfl, .refl _, copies_sorted h.sorted, fun k hk => ?_⟩
  obtain ⟨j, hj, rfl, -⟩ := mem_copies.mp hk
  exact h.positive j hj

omit [Scalar α] [Scalar.Lawful α] in
theorem split_at {qs : List α} {i : Nat} {q : α} (h : qs[i]? = some q) :
    ∃ before after, qs = before ++ q :: after ∧
      qs.take (i + 1) = before ++ [q] ∧ qs.take i = before ∧
        qs.drop i = q :: after ∧ qs.drop (i + 1) = after := by
  obtain ⟨hi, rfl⟩ := List.getElem?_eq_some_iff.mp h
  refine ⟨qs.take i, qs.drop (i + 1), ?_, ?_, rfl, ?_, rfl⟩
  · rw [← List.drop_eq_getElem_cons hi, List.take_append_drop]
  · rw [List.take_succ_eq_append_getElem hi]
  · rw [← List.drop_eq_getElem_cons hi]

theorem insertPrice_eq {qs : List α} (hp : Scalar.isPositive p = true)
    (hq : ∀ q ∈ qs, Scalar.isPositive q = true) (hn : p ∉ qs)
    (hs : qs.Pairwise fun a b => better side a b = true) :
    ∃ front back, qs = front ++ back ∧ insertPrice side p qs = front ++ p :: back ∧
      (∀ q ∈ front, better side q p = true) ∧ ∀ q ∈ back, better side p q = true := by
  fun_induction insertPrice side p qs with
  | case1 qs middle hnone =>
    have hz : qs = [] := by
      rw [List.getElem?_eq_none_iff] at hnone
      exact List.length_eq_zero_iff.mp (by omega)
    subst hz
    exact ⟨[], [], rfl, rfl, by simp, by simp⟩
  | case2 qs middle current hcur hbet ih =>
    obtain ⟨before, after, hqs, htake', htake, hdrop, hdrop'⟩ := split_at hcur
    rw [hqs, List.pairwise_append, List.pairwise_cons] at hs
    rw [hdrop'] at ih ⊢
    obtain ⟨front, back, rfl, hins, hf, hb⟩ := ih (fun q h => hq q (by simp [hqs, h]))
      (fun h => hn (by simp [hqs, h])) hs.2.1.2
    refine ⟨before ++ current :: front, back, by simp [hqs], by simp [htake', hins], ?_, hb⟩
    intro q h
    obtain h | h := List.mem_append.mp h
    · exact better_trans (hs.2.2 q h current List.mem_cons_self) hbet
    · obtain rfl | h := List.mem_cons.mp h
      · exact hbet
      · exact hf q h
  | case3 qs middle current hcur hbet ih =>
    obtain ⟨before, after, hqs, htake', htake, hdrop, hdrop'⟩ := split_at hcur
    have hc : Scalar.isPositive current = true := hq current (by simp [hqs])
    have hpc : better side p current = true := by
      have htotal : better side current p = true ∨ current = p ∨ better side p current = true :=
        better_total hc hp
      obtain h | h | h := htotal
      · exact absurd h hbet
      · exact absurd (by simp [hqs, h]) hn
      · exact h
    rw [hqs, List.pairwise_append, List.pairwise_cons] at hs
    rw [htake] at ih ⊢
    obtain ⟨front, back, rfl, hins, hf, hb⟩ := ih (fun q h => hq q (by simp [hqs, h]))
      (fun h => hn (by simp [hqs, h])) hs.1
    refine ⟨front, back ++ current :: after, by simp [hqs], by simp [hdrop, hins], hf, ?_⟩
    intro q h
    obtain h | h := List.mem_append.mp h
    · exact hb q h
    · obtain rfl | h := List.mem_cons.mp h
      · exact hpc
      · exact better_trans hpc (hs.2.1.1 q h)

omit [Scalar.Lawful α] in
theorem upsert_of_some (hl : l.level? p = some k) : l.upsert p = (k, l) := by
  simp only [upsert, hl]

theorem Ranks.upsert_of_none (h : l.Ranks side ks) (hp : Scalar.isPositive p = true)
    (hl : l.level? p = none) :
    (l.upsert p).1 = Level.empty p ∧ ∃ front back, ks = front ++ back ∧
      (l.upsert p).2.Ranks side (front ++ Level.empty p :: back) := by
  have hne := h.level?_eq_none.mp hl
  simp only [Ladder.upsert, hl, h.faces, h.prices]
  refine ⟨trivial, ?_⟩
  have hsort : (ks.map (·.price)).Pairwise fun a b => better side a b = true :=
    List.pairwise_map.mpr h.sorted
  obtain ⟨qs, rs, hks, hins, hqs, hrs⟩ :=
    insertPrice_eq hp (by simpa using h.positive) (by simpa using hne) hsort
  obtain ⟨front, back, rfl, rfl, rfl⟩ := List.map_eq_append_iff.mp hks
  refine ⟨front, back, rfl, ⟨rfl, hins.trans (by simp [Level.empty]), ?_, ?_, ?_⟩⟩
  · exact (List.perm_append_singleton _ _).trans
      ((h.levels.cons (Level.empty p)).trans List.perm_middle.symm)
  · have hs := h.sorted
    rw [List.pairwise_append] at hs ⊢
    refine ⟨hs.1, List.pairwise_cons.mpr ⟨fun k hk => hrs _ (List.mem_map_of_mem hk), hs.2.1⟩, ?_⟩
    intro j hj k hk
    obtain rfl | hk := List.mem_cons.mp hk
    · exact hqs _ (List.mem_map_of_mem hj)
    · exact hs.2.2 j hj k hk
  · have hpos := h.positive
    simp only [List.mem_append, List.mem_cons] at hpos ⊢
    rintro j (hj | rfl | hj)
    · exact hpos j (.inl hj)
    · exact hp
    · exact hpos j (.inr hj)

/-- The levels are `k` alone; without orders it need not stand. -/
def Shows (k : Level α) (ls : List (Level α)) : Prop := ls = [k] ∨ ls = [] ∧ k.queue = []

/-- `ks'` is `ks` with `k'` where `k` stood. -/
def Swaps (k k' : Level α) (ks ks' : List (Level α)) : Prop :=
  ∃ front old new back, ks = front ++ old ++ back ∧ ks' = front ++ new ++ back ∧
    Shows k old ∧ Shows k' new

omit [Scalar α] [Scalar.Lawful α] in
theorem shows_kept (k : Level α) : Shows k (kept k) := by
  unfold Shows kept
  cases he : k.isEmpty with
  | true => exact .inr ⟨rfl, (Level.isEmpty_iff k).mp he⟩
  | false => exact .inl rfl

omit [Scalar α] [Scalar.Lawful α] in
theorem Swaps.mem {ks' : List (Level α)} (h : Swaps k k' ks ks') {j : Level α} (hj : j ∈ ks') :
    j = k' ∨ j ∈ ks := by
  obtain ⟨front, old, new, back, rfl, rfl, -, hnew⟩ := h
  simp only [List.append_assoc, List.mem_append] at hj ⊢
  obtain hj | hj | hj := hj
  · exact .inr (.inl hj)
  · obtain rfl | ⟨rfl, -⟩ := hnew
    · exact .inl (List.mem_singleton.mp hj)
    · cases hj
  · exact .inr (.inr (.inr hj))

omit [Scalar α] [Scalar.Lawful α] in
theorem Swaps.mem_self {ks' : List (Level α)} (h : Swaps k k' ks ks') (hne : k'.queue ≠ []) :
    k' ∈ ks' := by
  obtain ⟨front, old, new, back, rfl, rfl, -, rfl | ⟨-, hq⟩⟩ := h
  · simp
  · exact absurd hq hne

omit [Scalar α] [Scalar.Lawful α] in
theorem Swaps.flatMap {β : Type} {f : Level α → List β} {ks' : List (Level α)}
    (h : Swaps k k' ks ks') (hf : ∀ k, k.queue = [] → f k = []) :
    ∃ rest, (ks.flatMap f).Perm (f k ++ rest) ∧ (ks'.flatMap f).Perm (f k' ++ rest) := by
  obtain ⟨front, old, new, back, rfl, rfl, hold, hnew⟩ := h
  have hshows : ∀ {j : Level α} {ls : List (Level α)}, Shows j ls → ls.flatMap f = f j := by
    rintro j ls (rfl | ⟨rfl, hq⟩)
    · simp
    · simp [hf j hq]
  refine ⟨(front ++ back).flatMap f, ?_, ?_⟩ <;>
    simp only [List.flatMap_append, hshows hold, hshows hnew, List.append_assoc] <;>
    exact List.perm_append_comm_assoc _ _ _

theorem Ranks.upsert (h : l.Ranks side ks) (hk : ∀ k ∈ ks, k.Kept side)
    (hp : Scalar.isPositive p = true) :
    ∃ front old back, ks = front ++ old ++ back ∧ Shows (l.upsert p).1 old ∧
      (l.upsert p).2.Ranks side (front ++ (l.upsert p).1 :: back) ∧ (l.upsert p).1.price = p ∧
        (l.upsert p).1.Kept side ∧ (old = [] → (l.upsert p).1 = Level.empty p) := by
  cases hl : l.level? p with
  | some k =>
    obtain ⟨front, back, rfl, hkp⟩ := h.split hl
    rw [upsert_of_some hl]
    exact ⟨front, [k], back, by simp, .inl rfl, h, hkp, hk k (by simp), by simp⟩
  | none =>
    obtain ⟨hempty, front, back, rfl, hr⟩ := h.upsert_of_none hp hl
    rw [hempty]
    exact ⟨front, [], back, by simp, .inr ⟨rfl, rfl⟩, hr, rfl, Level.kept_empty side p,
      fun _ => rfl⟩

end Ranked

/-- Goes down the levels from best to worst. A turn stops before a level, or changes it and says
whether to go on; a level that has run empty is dropped. -/
def sift {σ : Type} (turn : σ → Level α → Option (σ × Level α × Bool)) :
    List (Level α) → σ → σ × List (Level α)
  | [], s => (s, [])
  | k :: ks, s =>
    match turn s k with
    | none => (s, k :: ks)
    | some (s', k', false) => (s', kept k' ++ ks)
    | some (s', k', true) => ((sift turn ks s').1, kept k' ++ (sift turn ks s').2)

omit [Scalar α] [Scalar.Lawful α] in
theorem kept_flatMap {β : Type} {f : Level α → List β} {k : Level α}
    (hf : k.queue = [] → f k = []) :
    (kept k).flatMap f = f k := by
  unfold kept
  by_cases hk : k.queue = []
  · simp [(Level.isEmpty_iff k).mpr hk, hf hk]
  · simp [mt (Level.isEmpty_iff k).mp hk]

omit [Scalar.Lawful α] in
theorem kept_census (k : Level α) : (kept k).flatMap Level.census = k.census :=
  kept_flatMap fun hq => by rw [Level.census, hq, List.map_nil]

omit [Scalar α] [Scalar.Lawful α] in
theorem kept_seats (k : Level α) : (kept k).flatMap Level.seats = k.seats :=
  kept_flatMap fun hq => by rw [Level.seats, hq, List.map_nil]

omit [Scalar α] [Scalar.Lawful α] in
theorem mem_seats {ks : List (Level α)} {m : α × Resting α} :
    m ∈ ks.flatMap Level.seats ↔ ∃ k ∈ ks, ∃ r ∈ k.queue, (k.price, r) = m := by
  simp only [Level.seats, List.mem_flatMap, List.mem_map]

theorem perm_exchange {β : Type} (a b c d : List β) :
    ((a ++ b) ++ (c ++ d)).Perm ((a ++ c) ++ (b ++ d)) := by
  rw [List.append_assoc, List.append_assoc]
  exact (List.perm_append_comm_assoc b c d).append_left a

/-- Trading leaves the levels `ks'` of `ks`, and the orders of `gone` are those that left. -/
structure Leaves (side : Side) (ks ks' : List (Level α)) (gone : List (α × Handle × Order α)) :
    Prop where
  kept : ∀ k ∈ ks', k.Kept side
  thins : ∀ k ∈ ks', ∃ j ∈ ks, k.Thins j
  census : (ks'.flatMap Level.census ++ gone).Perm (ks.flatMap Level.census)

section Leaves

omit [Scalar.Lawful α]

variable {side : Side} {k k' : Level α} {ks ks' ks'' : List (Level α)}
  {gone gone' : List (α × Handle × Order α)}

theorem Leaves.refl (h : ∀ k ∈ ks, k.Kept side) : Leaves side ks ks [] :=
  ⟨h, fun k hk => ⟨k, hk, .refl k⟩, by simp⟩

theorem Leaves.trans (h : Leaves side ks ks' gone) (h' : Leaves side ks' ks'' gone') :
    Leaves side ks ks'' (gone ++ gone') where
  kept := h'.kept
  thins k hk := by
    obtain ⟨j, hj, ht⟩ := h'.thins k hk
    obtain ⟨i, hi, ht'⟩ := h.thins j hj
    exact ⟨i, hi, ht.trans ht'⟩
  census := Level.perm_gone h.census h'.census

theorem Leaves.cons (h : Level.Leaves side k k' gone) (h' : Leaves side ks ks' gone') :
    Leaves side (k :: ks) (Ladder.kept k' ++ ks') (gone ++ gone') where
  kept j hj := by
    obtain hj | hj := List.mem_append.mp hj
    · exact (mem_kept.mp hj).1 ▸ h.kept
    · exact h'.kept j hj
  thins j hj := by
    obtain hj | hj := List.mem_append.mp hj
    · exact ⟨k, List.mem_cons_self, (mem_kept.mp hj).1 ▸ h.thins⟩
    · obtain ⟨i, hi, ht⟩ := h'.thins j hj
      exact ⟨i, List.mem_cons_of_mem _ hi, ht⟩
  census := by
    rw [List.flatMap_append, kept_census, List.flatMap_cons]
    exact (perm_exchange _ _ _ _).trans (h.census.append h'.census)

end Leaves

section Sift

variable {σ : Type} {turn : σ → Level α → Option (σ × Level α × Bool)} {ks : List (Level α)} {s : σ}
  {P : σ → Prop}

omit [Scalar α] in
/-- What every turn keeps, of the state and of the levels that hold orders, the whole walk keeps. -/
theorem sift_induction {Q : Level α → Prop}
    (hturn : ∀ s k s' k' more, P s → Q k → turn s k = some (s', k', more) →
      P s' ∧ (k'.queue ≠ [] → Q k'))
    (hs : P s) (hks : ∀ k ∈ ks, Q k) :
    P (sift turn ks s).1 ∧ ∀ k ∈ (sift turn ks s).2, Q k := by
  fun_induction sift turn ks s with
  | case1 s => exact ⟨hs, hks⟩
  | case2 k ks s ht => exact ⟨hs, hks⟩
  | case3 k ks s s' k' ht =>
    obtain ⟨hs', hk'⟩ := hturn s k s' k' _ hs (hks k List.mem_cons_self) ht
    refine ⟨hs', fun j hj => ?_⟩
    obtain hj | hj := List.mem_append.mp hj
    · obtain ⟨rfl, hne⟩ := mem_kept.mp hj
      exact hk' hne
    · exact hks j (List.mem_cons_of_mem _ hj)
  | case4 k ks s s' k' ht ih =>
    obtain ⟨hs', hk'⟩ := hturn s k s' k' _ hs (hks k List.mem_cons_self) ht
    obtain ⟨hp, hq⟩ := ih hs' fun j hj => hks j (List.mem_cons_of_mem _ hj)
    refine ⟨hp, fun j hj => ?_⟩
    obtain hj | hj := List.mem_append.mp hj
    · obtain ⟨rfl, hne⟩ := mem_kept.mp hj
      exact hk' hne
    · exact hq j hj

omit [Scalar α] in
theorem sift_prices (hturn : ∀ s k s' k' more, turn s k = some (s', k', more) →
      k'.price = k.price) (s : σ) :
    ((sift turn ks s).2.map (·.price)).Sublist (ks.map (·.price)) := by
  have hkept : ∀ k k' : Level α, k'.price = k.price →
      ((kept k').map (·.price)).Sublist [k.price] := fun k k' hp => by
    unfold kept
    split
    · exact List.nil_sublist _
    · rw [List.map_singleton, hp]
  fun_induction sift turn ks s with
  | case1 | case2 => exact .refl _
  | case3 k ks s s' k' ht =>
    rw [List.map_append, List.map_cons]
    exact (hkept k k' (hturn _ _ _ _ _ ht)).append (.refl _)
  | case4 k ks s s' k' ht ih =>
    rw [List.map_append, List.map_cons]
    exact (hkept k k' (hturn _ _ _ _ _ ht)).append ih

omit [Scalar.Lawful α] in
/-- Where every turn accounts for the orders that leave the level at hand, the whole walk does. -/
theorem sift_leaves {side : Side} {R : σ → List (α × Handle × Order α) → Prop}
    (before : List (α × Handle × Order α))
    (hturn : ∀ s before k s' k' more, R s before → k.Kept side →
      turn s k = some (s', k', more) →
      ∃ gone, Level.Leaves side k k' gone ∧ R s' (before ++ gone))
    (hs : R s before) (hks : ∀ k ∈ ks, k.Kept side) :
    ∃ gone, Leaves side ks (sift turn ks s).2 gone ∧ R (sift turn ks s).1 (before ++ gone) := by
  fun_induction sift turn ks s generalizing before with
  | case1 s => exact ⟨[], .refl hks, by simpa using hs⟩
  | case2 k ks s ht => exact ⟨[], .refl hks, by simpa using hs⟩
  | case3 k ks s s' k' ht =>
    obtain ⟨gone, hl, hs'⟩ := hturn s before k s' k' _ hs (hks k List.mem_cons_self) ht
    have hrest := Leaves.refl fun j hj => hks j (List.mem_cons_of_mem _ hj)
    exact ⟨gone, by simpa using Leaves.cons hl hrest, hs'⟩
  | case4 k ks s s' k' ht ih =>
    obtain ⟨gone, hl, hs'⟩ := hturn s before k s' k' _ hs (hks k List.mem_cons_self) ht
    obtain ⟨gone', hl', hs''⟩ :=
      ih (before ++ gone) hs' fun j hj => hks j (List.mem_cons_of_mem _ hj)
    exact ⟨gone ++ gone', .cons hl hl', List.append_assoc .. ▸ hs''⟩

end Sift

/-- A visitor that puts back the level at hand, or stops before it. -/
def Visits {σ : Type} (visit : σ → Level α → Ladder α → σ × Ladder α × Bool)
    (turn : σ → Level α → Option (σ × Level α × Bool)) : Prop :=
  ∀ s k l, match turn s k with
    | none => visit s k l = (s, l, false)
    | some (s', k', more) => visit s k l = (s', l.restore k', more) ∧ k'.price = k.price

section Walk

variable {σ : Type} {visit : σ → Level α → Ladder α → σ × Ladder α × Bool}
  {turn : σ → Level α → Option (σ × Level α × Bool)}

theorem walk_append (hv : Visits visit turn) {side : Side} (done ks : List (Level α)) (s : σ)
    (l : Ladder α) (h : l.Lists side (done ++ ks)) :
    (walk visit (ks.map (·.price)) s l).1 = (sift turn ks s).1 ∧
      (walk visit (ks.map (·.price)) s l).2.Lists side (done ++ (sift turn ks s).2) := by
  induction ks generalizing done s l with
  | nil => exact ⟨rfl, h⟩
  | cons k ks ih =>
    have hk := hv s k l
    simp only [List.map_cons, walk, h.level?_self, sift]
    cases ht : turn s k with
    | none =>
      simp only [ht] at hk
      simp only [hk]
      exact ⟨trivial, h⟩
    | some t =>
      obtain ⟨s', k', more⟩ := t
      simp only [ht] at hk
      have hr := h.restore hk.2
      simp only [hk.1]
      cases more with
      | false => exact ⟨rfl, by simpa using hr⟩
      | true =>
        obtain ⟨hs, hw⟩ := ih (done ++ kept k') s' (l.restore k') hr
        exact ⟨hs, by simpa using hw⟩

theorem Lists.walk (hv : Visits visit turn) {side : Side} {l : Ladder α} {ks : List (Level α)}
    (h : l.Lists side ks) (s : σ) :
    (Ladder.walk visit l.prices s l).1 = (sift turn ks s).1 ∧
      (Ladder.walk visit l.prices s l).2.Lists side (sift turn ks s).2 := by
  rw [h.prices]
  exact walk_append hv [] ks s l h

omit [Scalar.Lawful α] in
theorem Visits.price (hv : Visits visit turn) {s s' : σ} {k k' : Level α} {more : Bool}
    (ht : turn s k = some (s', k', more)) : k'.price = k.price := by
  have hk := hv s k (empty .buy)
  simp only [ht] at hk
  exact hk.2

theorem Ranks.walk (hv : Visits visit turn) {side : Side} {l : Ladder α} {ks : List (Level α)}
    (h : l.Ranks side ks) (s : σ) :
    (Ladder.walk visit l.prices s l).1 = (sift turn ks s).1 ∧
      (Ladder.walk visit l.prices s l).2.Ranks side (sift turn ks s).2 := by
  obtain ⟨hs, hl⟩ := h.lists.walk hv s
  obtain ⟨-, hp⟩ := sift_induction (s := s) (P := fun _ => True)
    (Q := fun k : Level α => Scalar.isPositive k.price = true)
    (fun _ _ _ _ _ _ hk ht => ⟨trivial, fun _ => hv.price ht ▸ hk⟩) trivial h.positive
  exact ⟨hs, hl.ranks hp⟩

end Walk

end LimitBook.Ladder
