import LimitBook.Feed.Frame
import LimitBook.Proofs.Number.Decimal
import LimitBook.Proofs.Text.Digits

namespace LimitBook.Feed

open Text Double Float.Model Float.Model.UnpackedFloat

/-- A text of digits that writes `n`, or `n` but for a point before the last `places` of them. -/
inductive Amount : Text → (n places : Nat) → Prop where
  | whole {ds : Text} (hne : ds ≠ []) (hd : ∀ u ∈ ds, isDigit u = true) :
      Amount ds (digitsValue ds) 0
  | pointed {ds fs : Text} (hne : ds ≠ []) (hd : ∀ u ∈ ds, isDigit u = true) (hfne : fs ≠ [])
      (hf : ∀ u ∈ fs, isDigit u = true) :
      Amount (ds ++ unit '.' :: fs) (digitsValue (ds ++ fs)) fs.length

theorem isDigit_point : isDigit (unit '.') = false := rfl

theorem isAmount_iff {t : Text} : Frame.isAmount t = true ↔ ∃ n places, Amount t n places := by
  constructor
  · intro h
    rw [Frame.isAmount, Bool.and_eq_true] at h
    obtain ⟨hne, hrest⟩ := h
    have hne : t.takeWhile isDigit ≠ [] := by simpa using hne
    have hd : ∀ u ∈ t.takeWhile isDigit, isDigit u = true := fun u => List.mem_takeWhile_imp
    have hsplit := List.takeWhile_append_dropWhile (p := isDigit) (l := t)
    cases htail : t.dropWhile isDigit with
    | nil =>
      rw [htail, List.append_nil] at hsplit
      rw [hsplit] at hne hd
      exact ⟨_, _, .whole hne hd⟩
    | cons u fs =>
      rw [htail] at hrest hsplit
      simp only [Bool.and_eq_true, beq_iff_eq, Bool.not_eq_true', List.isEmpty_eq_false_iff,
        List.all_eq_true] at hrest
      obtain ⟨⟨rfl, hfne⟩, hf⟩ := hrest
      rw [← hsplit]
      exact ⟨_, _, .pointed hne hd hfne hf⟩
  · rintro ⟨_, _, ⟨hne, hd⟩ | ⟨hne, hd, hfne, hf⟩⟩
    · rw [Frame.isAmount, List.takeWhile_eq_self_iff.mpr hd, List.dropWhile_eq_nil_iff.mpr hd]
      simpa using hne
    · rename_i ds fs
      have hpoint : ∀ u ∈ (unit '.' :: fs).head?, isDigit u = false := fun u hu => by
        cases hu
        exact isDigit_point
      rw [Frame.isAmount, takeWhile_digits hd hpoint, dropWhile_digits hd hpoint]
      simpa using ⟨hne, hfne, hf⟩

theorem Amount.units {t : Text} {n places : Nat} (h : Amount t n places) :
    ∀ u ∈ t, isDigit u = true ∨ u = unit '.' := by
  cases h with
  | whole _ hd => exact fun u hu => .inl (hd u hu)
  | pointed _ hd _ hf =>
    intro u hu
    obtain hu | hu := List.mem_append.mp hu
    · exact .inl (hd u hu)
    · obtain rfl | hu := List.mem_cons.mp hu
      · exact .inr rfl
      · exact .inl (hf u hu)

theorem Amount.decimal {t : Text} {n places : Nat} (h : Amount t n places) :
    ∃ d, Number.Decimal.ofText? t = some d ∧ d.toFloat false = Number.ofDecimal false n (-places) := by
  cases h with
  | whole hne hd =>
    refine ⟨⟨t, [], 0⟩, ?_, ?_⟩
    · rw [Number.Decimal.ofText?, List.takeWhile_eq_self_iff.mpr hd,
        List.dropWhile_eq_nil_iff.mpr hd]
      simp only [List.isEmpty_iff, hne, if_false]
    · rw [Number.Decimal.toFloat, List.append_nil, toNat?_digits hd]
      rfl
  | pointed hne hd hfne hf =>
    rename_i ds fs
    have hpoint : ∀ u ∈ (unit '.' :: fs).head?, isDigit u = false := fun u hu => by
      cases hu
      exact isDigit_point
    refine ⟨⟨ds, fs, 0⟩, ?_, ?_⟩
    · rw [Number.Decimal.ofText?, takeWhile_digits hd hpoint, dropWhile_digits hd hpoint]
      simp only [if_true, List.takeWhile_eq_self_iff.mpr hf, List.dropWhile_eq_nil_iff.mpr hf,
        Number.Decimal.tail?, Option.map_some, List.isEmpty_eq_false_iff.mpr hne, Bool.false_and,
        Bool.false_eq_true, if_false]
    · rw [Number.Decimal.toFloat, toNat?_digits fun u hu => (List.mem_append.mp hu).elim (hd u) (hf u),
        Option.getD_some, Int.zero_sub]

theorem Amount.head {t : Text} {n places : Nat} (h : Amount t n places) :
    ∃ u rest, t = u :: rest ∧ isDigit u = true := by
  cases h with
  | whole hne hd =>
    obtain ⟨u, ds, rfl⟩ := List.exists_cons_of_ne_nil hne
    exact ⟨u, ds, rfl, hd u List.mem_cons_self⟩
  | pointed hne hd =>
    obtain ⟨u, ds, rfl⟩ := List.exists_cons_of_ne_nil hne
    exact ⟨u, _, rfl, hd u List.mem_cons_self⟩

theorem plain_unit {u : UInt16} (h : isDigit u = true ∨ u = unit '.') :
    isBlank u = false ∧ u ≠ unit '-' ∧ u ≠ unit '+' ∧ u ≠ unit 'I' ∧ Number.base? u = none := by
  obtain h | rfl := h
  · refine ⟨isBlank_of_isDigit h, ?_⟩
    have hne : ∀ c : Char, isDigit (unit c) = false → u ≠ unit c := fun c hc hu => by
      rw [hu, hc] at h
      cases h
    refine ⟨hne _ rfl, hne _ rfl, hne _ rfl, ?_⟩
    simp only [Number.base?, hne 'x' rfl, hne 'X' rfl, hne 'o' rfl, hne 'O' rfl, hne 'b' rfl,
      hne 'B' rfl, decide_false, Bool.or_self, Bool.false_eq_true, if_false]
  · decide

theorem Amount.inBase? {t : Text} {n places : Nat} (h : Amount t n places) :
    Number.inBase? t = none := by
  have hunits := h.units
  match t with
  | [] | [_] | [_, _] => rfl
  | z :: b :: u :: digits =>
    have hb := (plain_unit (hunits b (by simp))).2.2.2.2
    rw [Number.inBase?, hb, Option.map_none, ite_self]

theorem Amount.ofText {t : Text} {n places : Nat} (h : Amount t n places) :
    Number.ofText t = Number.ofDecimal false n (-places) := by
  have htrim : trim t = t := trimWhere_of_none fun u hu => (plain_unit (h.units u hu)).1
  obtain ⟨d, hd, hx⟩ := h.decimal
  obtain ⟨u, rest, rfl, hu⟩ := h.head
  obtain ⟨-, hminus, hplus, hletter, -⟩ := plain_unit (.inl hu)
  have hinfinity : u :: rest ≠ ofString "Infinity" := fun heq => hletter (List.cons.inj heq).1
  rw [Number.ofText, htrim]
  simp only [hminus, hplus, if_false, h.inBase?, Option.getD_none, Number.unsigned, hinfinity, hd, hx]

theorem Amount.nearest {t : Text} {n places : Nat} (h : Amount t n places) :
    Nearest .positive (n / 10 ^ places) (view (Number.ofText t)) := by
  have hnearest := Number.ofDecimal_nearest false n (-places)
  rw [zpow_neg, zpow_natCast, ← div_eq_mul_inv] at hnearest
  rw [h.ofText]
  exact hnearest

/-- The amount `t` stands for the finite double `x`, the one next to what it writes. -/
def Worth (t : Text) (x : Float) : Prop :=
  x.isFinite = true ∧ ∃ n places, Amount t n places ∧ Nearest .positive (n / 10 ^ places) (view x)

theorem Worth.isNonneg {t : Text} {x : Float} (h : Worth t x) : Scalar.isNonneg x = true := by
  obtain ⟨hx, _, _, -, hnearest⟩ := h
  exact hnearest.isNonneg hx

theorem amount?_eq_some {j : Json} {x : Float} :
    Frame.amount? j = some x ↔ ∃ t, j = .str t ∧ Worth t x := by
  constructor
  · intro h
    cases j <;> simp only [Frame.amount?, Option.ite_none_right_eq_some, reduceCtorEq] at h
    obtain ⟨hamount, hx, hsome⟩ := h
    cases hsome
    obtain ⟨n, places, ha⟩ := isAmount_iff.mp hamount
    exact ⟨_, rfl, hx, n, places, ha, ha.nearest⟩
  · rintro ⟨t, rfl, hx, n, places, ha, hnearest⟩
    have hsame : x = Number.ofText t := hnearest.eq ha.nearest
    simp only [Frame.amount?, if_pos (isAmount_iff.mpr ⟨n, places, ha⟩), ← hsame, if_pos hx]

end LimitBook.Feed
