import LimitBook.Proofs.Json.Number

namespace LimitBook.Number

open Text Double

theorem toDigits_tenPow (n : Nat) : Nat.toDigits 10 (10 ^ n) = '1' :: List.replicate n '0' := by
  induction n with
  | zero => rfl
  | succ n ih =>
    rw [Nat.toDigits_of_base_le (by decide) (Nat.le_self_pow (Nat.succ_ne_zero n) 10), Nat.pow_succ,
      Nat.mul_div_cancel _ (by decide), ih, Nat.mul_mod_left, List.replicate_succ',
      List.cons_append]
    rfl

theorem ofScaled_tenPow (n : Nat) (k : Int) :
    Digits.ofScaled (10 ^ n) k = ⟨['1'], k + (n + 1)⟩ := by
  have hzeros : List.dropWhile (· == '0') (List.replicate n '0' ++ ['1']) = ['1'] := by
    rw [List.dropWhile_append_of_pos fun c hc => beq_iff_eq.mpr (List.eq_of_mem_replicate hc)]
    rfl
  simp only [Digits.ofScaled, toDigits_tenPow, List.reverse_cons, List.reverse_replicate, hzeros,
    List.length_cons, List.length_replicate]
  rfl

/-- Digits of a number between `10 ^ (p - 1)` and `10 ^ p`, up to so many; if there is one digit
alone, it may be that of the upper end. -/
structure Digits.Sized (d : Digits) (p : Int) (size : Nat) : Prop where
  leading : Json.Grammar.Leading (ofChars d.chars)
  length : (ofChars d.chars).length ≤ size
  point : d.point = p ∨ d.point = p + 1 ∧ (ofChars d.chars).length = 1

theorem ofScaled_sized {n size : Nat} (p : Int) (hlow : 10 ^ (size - 1) ≤ n) (hhigh : n ≤ 10 ^ size)
    (hsize : 1 ≤ size) : (Digits.ofScaled n (p - size)).Sized p size := by
  have hn : 0 < n := Nat.lt_of_lt_of_le (Nat.pow_pos (by decide)) hlow
  obtain ⟨hleading, -⟩ := Json.Grammar.ofScaled_leading hn (k := p - size) rfl
  obtain hlt | rfl := Nat.lt_or_eq_of_le hhigh
  · obtain ⟨zeros, hsplit, hpoint⟩ := Json.Grammar.ofScaled_split n (p - size)
    have hdigits : (Nat.toDigits 10 n).length = size := by
      have hle : ∀ {k}, 0 < k → ((Nat.toDigits 10 n).length ≤ k ↔ n < 10 ^ k) :=
        Nat.length_toDigits_le_iff (by decide)
      refine Nat.le_antisymm ((hle hsize).mpr hlt) ?_
      by_contra hfew
      obtain ⟨-, hhigh⟩ := toDigits_bounds hn
      exact absurd (Nat.lt_of_lt_of_le hhigh (Nat.pow_le_pow_right (by decide) (by omega)))
        (Nat.not_lt.mpr hlow)
    have hlength := congrArg List.length hsplit
    rw [ofNat_eq, List.length_map, hdigits, List.length_append, List.length_replicate] at hlength
    exact ⟨hleading, by omega, .inl (by omega)⟩
  · rw [ofScaled_tenPow] at hleading ⊢
    exact ⟨hleading, hsize, .inr ⟨by simp only; omega, rfl⟩⟩

theorem ten_zpow_eq {k : Nat} {i j : Int} (h : i = k + j) :
    (10 : ℚ) ^ i = (10 ^ k : Nat) * 10 ^ j := by
  rw [h, zpow_add₀ (by norm_num), zpow_natCast, Nat.cast_pow, Nat.cast_ofNat]

section Shortest

variable {m : Nat} {e : Int}

theorem magnitude_spec (hm : 0 < m) (e : Int) :
    (10 : ℚ) ^ ((Ratio.ofBinary m e).magnitude - 1) ≤ m * 2 ^ e ∧
      (m * 2 ^ e : ℚ) < 10 ^ (Ratio.ofBinary m e).magnitude := by
  rw [← Ratio.ofBinary_value]
  exact Ratio.magnitude_bounds (Ratio.ofBinary_num hm e) (Ratio.ofBinary_den m e)

/-- If a multiple of `10 ^ (p - size)` is nearest to the double, no more than `size` digits are
taken. -/
theorem shortest_sized_of_near (hm : 0 < m) {size n : Nat} (hsize : 1 ≤ size ∧ size ≤ 17)
    (hnear : Near (n * 10 ^ ((Ratio.ofBinary m e).magnitude - size)) m e) :
    ∃ found ≤ size, (shortest m e).Sized (Ratio.ofBinary m e).magnitude found := by
  have hspans : ∀ k, ((Interval.ofBinary m e).inUnits k).Spans m e k :=
    (Interval.spans_ofBinary hm e).inUnits
  obtain ⟨found, n, hfound, hle, hn, hshortest⟩ :=
    shortest_found hsize (Interval.nearest_isSome_of_near (hspans _) hnear)
  obtain ⟨hlow, hhigh⟩ := magnitude_spec hm e
  generalize (Ratio.ofBinary m e).magnitude = p at *
  have hfloor := (hspans (p - found)).floor_le
  have hnext := (hspans (p - found)).lt_succ_floor
  have hunit : (0 : ℚ) < 10 ^ (p - found) := by positivity
  rw [ten_zpow_eq (show p - 1 = (found - 1 : Nat) + (p - found) by omega)] at hlow
  rw [ten_zpow_eq (show p = found + (p - found) by omega)] at hhigh
  have hbound := Interval.nearest_eq hn
  generalize ((Interval.ofBinary m e).inUnits (p - found)).value /
    ((Interval.ofBinary m e).inUnits (p - found)).den = floor at *
  have hleast : 10 ^ (found - 1) < floor + 1 := by
    exact_mod_cast (mul_lt_mul_iff_left₀ hunit).mp (hlow.trans_lt hnext)
  have hgreatest : floor < 10 ^ found := by
    exact_mod_cast (mul_lt_mul_iff_left₀ hunit).mp (hfloor.trans_lt hhigh)
  exact ⟨found, hle, hshortest ▸ ofScaled_sized p (by omega) (by omega) hfound⟩

/-- A double that a decimal of up to `size` digits reads as has no more digits than the decimal, and
none behind its last. -/
theorem shortest_sized (hm : 0 < m) {n size : Nat} {k : Int} (hsize : 1 ≤ size ∧ size ≤ 17)
    (hn : 0 < n ∧ n ≤ 10 ^ size) (hnear : Near (n * 10 ^ k) m e) :
    ∃ found : Nat, (found : Int) ≤ max 1 (min (size : Int) ((Ratio.ofBinary m e).magnitude - k)) ∧
      (shortest m e).Sized (Ratio.ofBinary m e).magnitude found := by
  obtain ⟨hlow, hhigh⟩ := magnitude_spec hm e
  have hself := near_self m e
  have hunit : (0 : ℚ) < 10 ^ k := by positivity
  have hleast : (10 : ℚ) ^ k ≤ n * 10 ^ k :=
    le_mul_of_one_le_left hunit.le (by exact_mod_cast hn.1)
  have hgreatest : (n * 10 ^ k : ℚ) ≤ 10 ^ (size + k) := by
    rw [zpow_add₀ (by norm_num), zpow_natCast]
    exact mul_le_mul_of_nonneg_right (by exact_mod_cast hn.2) hunit.le
  have hmono : ∀ {i j : Int}, i ≤ j → (10 : ℚ) ^ i ≤ 10 ^ j := fun h =>
    zpow_le_zpow_right₀ (by norm_num) h
  obtain ⟨found, hfound, hsized⟩ : ∃ found : Nat, 1 ≤ found ∧ (found : Int) ≤
      max 1 (min (size : Int) ((Ratio.ofBinary m e).magnitude - k)) ∧
      ∃ n : Nat, Near (n * 10 ^ ((Ratio.ofBinary m e).magnitude - found)) m e := by
    generalize (Ratio.ofBinary m e).magnitude = p at *
    obtain hbelow | habove := lt_or_ge (size + k) p
    · have hpower : Near (10 ^ (p - 1)) m e :=
        hnear.between hself (hgreatest.trans (hmono (by omega))) hlow
      exact ⟨1, le_refl 1, by omega, 1, by simpa using hpower⟩
    obtain hpast | hwithin := le_or_gt p k
    · have hpower : Near (10 ^ p) m e := hself.between hnear hhigh.le ((hmono hpast).trans hleast)
      refine ⟨1, le_refl 1, by omega, 10, ?_⟩
      rw [show p = 1 + (p - 1) by ring, zpow_add₀ (by norm_num), zpow_one] at hpower
      simpa using hpower
    · refine ⟨(p - k).toNat, by omega, by omega, n, ?_⟩
      rwa [Int.toNat_of_nonneg (by omega), sub_sub_cancel]
  obtain ⟨hbound, n', hnear'⟩ := hsized
  obtain ⟨found', hle, hsized⟩ := shortest_sized_of_near hm ⟨hfound, by omega⟩ hnear'
  exact ⟨found', by omega, hsized⟩

end Shortest

end LimitBook.Number
