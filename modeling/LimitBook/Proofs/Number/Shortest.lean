import LimitBook.Number.Digits
import LimitBook.Proofs.Number.Decimal

namespace LimitBook.Number

open Double

theorem twoPow_eq (n : Nat) : twoPow n = 2 ^ n := rfl

theorem tenPow_eq (n : Nat) : tenPow n = 10 ^ n := rfl

namespace Ratio

theorem ofBinary_den (m : Nat) (e : Int) : 0 < (ofBinary m e).den := by
  cases e with
  | ofNat e => exact Nat.one_pos
  | negSucc e => exact twoPow_pos _

theorem ofBinary_num {m : Nat} (hm : 0 < m) (e : Int) : 0 < (ofBinary m e).num := by
  cases e with
  | ofNat e => exact Nat.mul_pos hm (twoPow_pos _)
  | negSucc e => exact hm

theorem ofBinary_value (m : Nat) (e : Int) :
    ((ofBinary m e).num / (ofBinary m e).den : ℚ) = m * 2 ^ e := by
  cases e with
  | ofNat e => simp [ofBinary, twoPow_eq]
  | negSucc e => simp [ofBinary, twoPow_eq, div_eq_mul_inv, zpow_negSucc]

theorem magnitude_bounds {r : Ratio} (hnum : 0 < r.num) (hden : 0 < r.den) :
    (10 : ℚ) ^ (r.magnitude - 1) ≤ r.num / r.den ∧ (r.num / r.den : ℚ) < 10 ^ r.magnitude := by
  have hnumQ : (0 : ℚ) < r.num := Nat.cast_pos.mpr hnum
  have hdenQ : (0 : ℚ) < r.den := Nat.cast_pos.mpr hden
  unfold magnitude
  split
  · rename_i hle
    obtain ⟨hlow, hhigh⟩ := toDigits_bounds (Nat.div_pos hle hden)
    have hpos : 0 < (Nat.toDigits 10 (r.num / r.den)).length := Nat.length_toDigits_pos
    generalize (Nat.toDigits 10 (r.num / r.den)).length = size at *
    rw [Nat.le_div_iff_mul_le hden] at hlow
    rw [Nat.div_lt_iff_lt_mul hden] at hhigh
    rw [show (size : Int) - 1 = (size - 1 : Nat) by omega, zpow_natCast, zpow_natCast,
      le_div_iff₀ hdenQ, div_lt_iff₀ hdenQ]
    exact ⟨by exact_mod_cast hlow, by exact_mod_cast hhigh⟩
  · rename_i hlt
    obtain ⟨hlow, hhigh⟩ := toDigits_bounds (Nat.div_pos (show r.num ≤ r.den - 1 by omega) hnum)
    have hpos : 0 < (Nat.toDigits 10 ((r.den - 1) / r.num)).length := Nat.length_toDigits_pos
    generalize (Nat.toDigits 10 ((r.den - 1) / r.num)).length = size at *
    rw [Nat.le_div_iff_mul_le hnum] at hlow
    rw [Nat.div_lt_iff_lt_mul hnum] at hhigh
    have hlow : 10 ^ (size - 1) * r.num < r.den := by omega
    have hhigh : r.den ≤ 10 ^ size * r.num := by omega
    rw [show (1 : Int) - size - 1 = -(size : Nat) by omega,
      show (1 : Int) - size = -(size - 1 : Nat) by omega, zpow_neg, zpow_neg, zpow_natCast,
      zpow_natCast, inv_le_comm₀ (by positivity) (by positivity),
      lt_inv_comm₀ (by positivity) (by positivity), inv_div,
      div_le_iff₀ hnumQ, lt_div_iff₀ hnumQ]
    exact ⟨by exact_mod_cast hhigh, by exact_mod_cast hlow⟩

end Ratio

namespace Interval

/-- The interval is that of the numbers nearest to `m · 2 ^ e`, in units of `10 ^ k`. -/
structure Spans (i : Interval) (m : Nat) (e k : Int) : Prop where
  den : 0 < i.den
  low : (i.low / i.den * 10 ^ k : ℚ) = (m - reachBelow m e) * 2 ^ e
  value : (i.value / i.den * 10 ^ k : ℚ) = m * 2 ^ e
  high : (i.high / i.den * 10 ^ k : ℚ) = (m + 1 / 2) * 2 ^ e
  closed : i.closed = true ↔ m % 2 = 0

theorem spans_ofBinary {m : Nat} (hm : 0 < m) (e : Int) : (ofBinary m e).Spans m e 0 := by
  have hden := Ratio.ofBinary_den m e
  have hvalue := Ratio.ofBinary_value m e
  obtain ⟨unit, hunit⟩ : ∃ unit, (Ratio.ofBinary m e).num = m * unit := by
    cases e with
    | ofNat e => exact ⟨_, rfl⟩
    | negSucc e => exact ⟨1, (Nat.mul_one m).symm⟩
  have hmQ : (m : ℚ) ≠ 0 := Nat.cast_ne_zero.mpr hm.ne'
  have hdenQ : ((Ratio.ofBinary m e).den : ℚ) ≠ 0 := Nat.cast_ne_zero.mpr hden.ne'
  have hscale : (unit : ℚ) / (Ratio.ofBinary m e).den = 2 ^ e := by
    rw [hunit, Nat.cast_mul, mul_div_assoc] at hvalue
    exact mul_left_cancel₀ hmQ hvalue
  unfold ofBinary
  simp only
  rw [hunit, Nat.mul_div_cancel_left unit hm]
  generalize (Ratio.ofBinary m e).den = den at *
  have hquarter : ∀ n : ℚ, n * unit / (4 * den) = n / 4 * 2 ^ e := fun n => by
    rw [← hscale]
    field_simp
  have hlow : ∀ below : Nat, below ≤ 2 →
      (((4 * (m * unit) - below * unit : Nat) : ℚ) / (4 * den : Nat) * 10 ^ (0 : Int) : ℚ) =
        (m - below / 4) * 2 ^ e := fun below hbelow => by
    have hle : below * unit ≤ 4 * (m * unit) := by
      rw [← Nat.mul_assoc]
      exact Nat.mul_le_mul_right unit (by omega)
    rw [Nat.cast_sub hle, zpow_zero, mul_one]
    push_cast
    rw [show (4 * (m * unit) - below * unit : ℚ) = (4 * m - below) * unit by ring,
      hquarter]
    ring
  refine ⟨Nat.mul_pos (by decide) hden, ?_, ?_, ?_, beq_iff_eq⟩
  · by_cases hfirst : m = twoPow 52 ∧ e ≠ -1074
    · have hreach : reachBelow m e = 1 / 4 := if_pos hfirst
      simp only [if_pos hfirst]
      rw [hlow 1 (by decide), hreach, Nat.cast_one]
    · have hreach : reachBelow m e = 1 / 2 := if_neg hfirst
      simp only [if_neg hfirst]
      rw [hlow 2 (by decide), hreach]
      norm_num
  · rw [zpow_zero, mul_one]
    push_cast
    rw [← mul_assoc, hquarter]
    ring
  · rw [zpow_zero, mul_one]
    push_cast
    rw [show (4 * (m * unit) + 2 * unit : ℚ) = (4 * m + 2) * unit by ring, hquarter]
    ring

theorem Spans.inUnits {i : Interval} {m : Nat} {e : Int} (h : i.Spans m e 0) (k : Int) :
    (i.inUnits k).Spans m e k := by
  have hden : (i.den : ℚ) ≠ 0 := Nat.cast_ne_zero.mpr h.den.ne'
  obtain ⟨hpos, hlow, hvalue, hhigh, hclosed⟩ := h
  rw [zpow_zero, mul_one] at hlow hvalue hhigh
  cases k with
  | ofNat k =>
    have hscale : ∀ n : Nat, (n / (i.den * tenPow k : Nat) * 10 ^ (Int.ofNat k) : ℚ) = n / i.den :=
      fun n => by
        have hpow : (10 : ℚ) ^ k ≠ 0 := by positivity
        rw [Int.ofNat_eq_natCast, zpow_natCast, tenPow_eq, Nat.cast_mul, Nat.cast_pow, Nat.cast_ofNat]
        field_simp
    exact ⟨Nat.mul_pos hpos (tenPow_pos k), (hscale _).trans hlow, (hscale _).trans hvalue,
      (hscale _).trans hhigh, hclosed⟩
  | negSucc k =>
    have hscale : ∀ n : Nat, ((n * tenPow (k + 1) : Nat) / i.den * 10 ^ (Int.negSucc k) : ℚ) =
        n / i.den := fun n => by
      have hpow : (10 : ℚ) ^ (k + 1) ≠ 0 := by positivity
      rw [zpow_negSucc, tenPow_eq, Nat.cast_mul, Nat.cast_pow, Nat.cast_ofNat]
      field_simp
    exact ⟨hpos, (hscale _).trans hlow, (hscale _).trans hvalue, (hscale _).trans hhigh, hclosed⟩

theorem holds_iff {i : Interval} {m : Nat} {e k : Int} (h : i.Spans m e k) (n : Nat) :
    i.holds (n * i.den) = true ↔ Near (n * 10 ^ k) m e := by
  have hden : (0 : ℚ) < i.den := Nat.cast_pos.mpr h.den
  have hunit : (0 : ℚ) < 10 ^ k := by positivity
  have hscale : ∀ a b : Nat, (a / i.den * 10 ^ k < (b : ℚ) * 10 ^ k ↔ a < b * i.den) ∧
      ((b : ℚ) * 10 ^ k < a / i.den * 10 ^ k ↔ b * i.den < a) ∧
        (a / i.den * 10 ^ k = (b : ℚ) * 10 ^ k ↔ a = b * i.den) := fun a b => by
    rw [mul_lt_mul_iff_left₀ hunit, mul_lt_mul_iff_left₀ hunit, mul_left_inj' hunit.ne',
      div_lt_iff₀ hden, lt_div_iff₀ hden, div_eq_iff hden.ne']
    exact ⟨by exact_mod_cast Iff.rfl, by exact_mod_cast Iff.rfl, by exact_mod_cast Iff.rfl⟩
  obtain ⟨hlow, -, hlowEq⟩ := hscale i.low n
  obtain ⟨-, hhigh, hhighEq⟩ := hscale i.high n
  rw [h.low] at hlow hlowEq
  rw [h.high] at hhigh hhighEq
  have hnear : Near (n * 10 ^ k) m e ↔ (i.low < n * i.den ∨ i.low = n * i.den ∧ m % 2 = 0) ∧
      (n * i.den < i.high ∨ i.high = n * i.den ∧ m % 2 = 0) := by
    rw [← hlow, ← hhigh, ← hlowEq, ← hhighEq]
    exact ⟨fun h => ⟨h.low, h.high.imp_right (And.imp_left Eq.symm)⟩,
      fun h => ⟨h.1, h.2.imp_right (And.imp_left Eq.symm)⟩⟩
  rw [hnear, holds, ← h.closed]
  generalize n * i.den = x
  cases i.closed with
  | false => simp
  | true =>
    simp only [if_true, Bool.and_eq_true, decide_eq_true_eq, and_true]
    omega

theorem near_of_nearest {i : Interval} {m n : Nat} {e k : Int} (h : i.Spans m e k)
    (hn : i.nearest? = some n) : Near (n * 10 ^ k) m e := by
  rw [← holds_iff h]
  unfold nearest? at hn
  simp only at hn
  split at hn
  · rename_i hleft hright
    split_ifs at hn <;> cases hn
    · exact hleft
    · exact hright
  · rename_i hleft _
    cases hn
    exact hleft
  · rename_i _ hright
    cases hn
    exact hright
  · cases hn

theorem nearest_eq {i : Interval} {n : Nat} (hn : i.nearest? = some n) :
    n = i.value / i.den ∨ n = i.value / i.den + 1 := by
  unfold nearest? at hn
  simp only at hn
  split at hn
  · split_ifs at hn <;> cases hn
    · exact .inl rfl
    · exact .inr rfl
  · cases hn
    exact .inl rfl
  · cases hn
    exact .inr rfl
  · cases hn

theorem Spans.floor_le {i : Interval} {m : Nat} {e k : Int} (h : i.Spans m e k) :
    ((i.value / i.den : Nat) * 10 ^ k : ℚ) ≤ m * 2 ^ e := by
  rw [← h.value]
  exact mul_le_mul_of_nonneg_right Nat.cast_div_le (by positivity)

theorem Spans.lt_succ_floor {i : Interval} {m : Nat} {e k : Int} (h : i.Spans m e k) :
    (m * 2 ^ e : ℚ) < (i.value / i.den + 1 : Nat) * 10 ^ k := by
  rw [← h.value]
  refine mul_lt_mul_of_pos_right ?_ (by positivity)
  rw [div_lt_iff₀ (Nat.cast_pos.mpr h.den)]
  exact_mod_cast Nat.lt_mul_of_div_lt (Nat.lt_succ_self _) h.den

theorem nearest_isSome_of_around {i : Interval} {m : Nat} {e k : Int} (h : i.Spans m e k)
    (hnear : Near ((i.value / i.den : Nat) * 10 ^ k) m e ∨
      Near ((i.value / i.den + 1 : Nat) * 10 ^ k) m e) : i.nearest?.isSome = true := by
  rw [← holds_iff h, ← holds_iff h] at hnear
  unfold nearest?
  simp only
  split
  · split_ifs <;> rfl
  · rfl
  · rfl
  · rename_i hleft hright
    rw [hleft, hright] at hnear
    simp at hnear

theorem nearest_isSome_of_near {i : Interval} {m n : Nat} {e k : Int} (h : i.Spans m e k)
    (hn : Near (n * 10 ^ k) m e) : i.nearest?.isSome = true := by
  have hscaled : ∀ {a b : Nat}, a ≤ b → (a * 10 ^ k : ℚ) ≤ b * 10 ^ k := fun hab =>
    mul_le_mul_of_nonneg_right (Nat.cast_le.mpr hab) (by positivity)
  refine nearest_isSome_of_around h ?_
  obtain hle | hlt := le_or_gt n (i.value / i.den)
  · exact .inl (hn.between (near_self m e) (hscaled hle) h.floor_le)
  · exact .inr ((near_self m e).between hn h.lt_succ_floor.le (hscaled hlt))

/-- An interval that goes on for more than half a unit to either side has a whole number in it. -/
theorem nearest_isSome {i : Interval} {m : Nat} {e k : Int} (h : i.Spans m e k)
    (hwide : 10 ^ k < 2 * (reachBelow m e * 2 ^ e)) : i.nearest?.isSome = true := by
  have hreach : reachBelow m e * 2 ^ e ≤ 1 / 2 * 2 ^ e := by
    refine mul_le_mul_of_nonneg_right ?_ (by positivity)
    unfold reachBelow
    split_ifs <;> norm_num
  have hlow := h.floor_le
  have hhigh := h.lt_succ_floor
  refine nearest_isSome_of_around h ?_
  generalize i.value / i.den = n at *
  have hnext : ((n + 1 : Nat) * 10 ^ k : ℚ) = n * 10 ^ k + 10 ^ k := by
    push_cast
    ring
  rw [hnext] at hhigh ⊢
  obtain hhalf | hhalf := le_or_gt (m * 2 ^ e - n * 10 ^ k : ℚ) (1 / 2 * 10 ^ k)
  · refine .inl ⟨.inl ?_, .inl ?_⟩
    · rw [sub_mul]
      linarith
    · rw [add_mul]
      linarith
  · refine .inr ⟨.inl ?_, .inl ?_⟩
    · rw [sub_mul]
      linarith
    · rw [add_mul]
      linarith

end Interval

theorem pos_of_near {x : ℚ} {m : Nat} {e : Int} (hm : 0 < m) (h : Near x m e) : 0 < x := by
  have hone : (1 : ℚ) ≤ m := by exact_mod_cast hm
  have hreach : reachBelow m e ≤ 1 / 2 := by
    unfold reachBelow
    split_ifs <;> norm_num
  have hlow : 0 < (m - reachBelow m e) * 2 ^ e := mul_pos (by linarith) (by positivity)
  exact hlow.trans_le (h.low.elim le_of_lt fun h => h.1.le)

theorem wide_at_seventeen {m : Nat} {e : Int} (hm : 0 < m) (hc : Canonical m e) :
    (10 : ℚ) ^ ((Ratio.ofBinary m e).magnitude - 17) < 2 * (reachBelow m e * 2 ^ e) := by
  obtain ⟨hlow, -⟩ :=
    Ratio.magnitude_bounds (Ratio.ofBinary_num hm e) (Ratio.ofBinary_den m e)
  rw [Ratio.ofBinary_value, sub_eq_add_neg, show (-1 : Int) = -17 + 16 by norm_num, ← add_assoc,
    ← sub_eq_add_neg, zpow_add₀ (by norm_num)] at hlow
  generalize (10 : ℚ) ^ ((Ratio.ofBinary m e).magnitude - 17) = unit at *
  have hreach : (m : ℚ) ≤ 2 ^ 54 * reachBelow m e := by
    unfold reachBelow
    split_ifs with hfirst
    · rw [hfirst.1]
      norm_num
    · have : (m : ℚ) ≤ 2 ^ 53 := by exact_mod_cast hc.short.le
      linarith
  have hscaled := mul_le_mul_of_nonneg_right hreach (show (0 : ℚ) ≤ 2 ^ e by positivity)
  have hpos : (0 : ℚ) < m * 2 ^ e := mul_pos (by exact_mod_cast hm) (by positivity)
  rw [zpow_ofNat] at hlow
  linarith

theorem shortest_found {m : Nat} {e : Int} {size : Nat} (hsize : 1 ≤ size ∧ size ≤ 17)
    (hsome : ((Interval.ofBinary m e).inUnits
      ((Ratio.ofBinary m e).magnitude - size)).nearest?.isSome = true) :
    ∃ found n, 1 ≤ found ∧ found ≤ size ∧
      ((Interval.ofBinary m e).inUnits ((Ratio.ofBinary m e).magnitude - found)).nearest? = some n ∧
      shortest m e = Digits.ofScaled n ((Ratio.ofBinary m e).magnitude - found) := by
  unfold shortest
  simp only
  generalize (Ratio.ofBinary m e).magnitude = p at *
  have hmem : size ∈ List.range' 1 17 := List.mem_range'_1.mpr ⟨hsize.1, by omega⟩
  cases hfound : (List.range' 1 17).findSome? fun (size : Nat) =>
      (((Interval.ofBinary m e).inUnits (p - size)).nearest?).map
        fun n => Digits.ofScaled n (p - size) with
  | none =>
    have hnone := Option.map_eq_none_iff.mp (List.findSome?_eq_none_iff.mp hfound size hmem)
    rw [hnone] at hsome
    cases hsome
  | some d =>
    obtain ⟨tried, found, rest, hrange, hd, hearlier⟩ := List.findSome?_eq_some_iff.mp hfound
    obtain ⟨n, hn, rfl⟩ := Option.map_eq_some_iff.mp hd
    have hsorted : (tried ++ found :: rest).Pairwise (· < ·) := hrange ▸ List.pairwise_lt_range'
    have hle : found ≤ size := by
      rw [hrange, List.mem_append, List.mem_cons] at hmem
      obtain htried | rfl | hrest := hmem
      · rw [Option.map_eq_none_iff.mp (hearlier size htried)] at hsome
        cases hsome
      · exact Nat.le_refl _
      · exact Nat.le_of_lt (List.rel_of_pairwise_cons (List.pairwise_append.mp hsorted).2.1 hrest)
    have hone : found ∈ List.range' 1 17 := by rw [hrange]; simp
    exact ⟨found, n, (List.mem_range'_1.mp hone).1, hle, hn, rfl⟩

theorem shortest_near {m : Nat} {e : Int} (hm : 0 < m) (hc : Canonical m e) :
    ∃ n k, 0 < n ∧ shortest m e = Digits.ofScaled n k ∧ Near (n * 10 ^ k) m e := by
  have hspans : ∀ k, ((Interval.ofBinary m e).inUnits k).Spans m e k :=
    (Interval.spans_ofBinary hm e).inUnits
  obtain ⟨size, n, -, -, hn, hshortest⟩ := shortest_found (m := m) (e := e) ⟨by decide, le_refl 17⟩
    (Interval.nearest_isSome (hspans _) (wide_at_seventeen hm hc))
  have hnear := Interval.near_of_nearest (hspans _) hn
  have hpos : 0 < n := by
    by_contra hzero
    have := pos_of_near hm hnear
    rw [Nat.eq_zero_of_not_pos hzero, Nat.cast_zero, zero_mul] at this
    exact lt_irrefl _ this
  exact ⟨n, _, hpos, hshortest, hnear⟩

end LimitBook.Number
