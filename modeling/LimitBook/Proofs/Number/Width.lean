import LimitBook.Proofs.Number.Size

namespace LimitBook.Number

open Float.Model Float.Model.UnpackedFloat Text Double

theorem signed_length {n : Int} {size : Nat} (hsize : 0 < size) (hn : n.natAbs < 10 ^ size) :
    (signed n).length ≤ size + 1 := by
  have hlength : (Text.ofNat n.natAbs).length ≤ size := by
    rw [ofNat_eq, List.length_map]
    exact (Nat.length_toDigits_le_iff (by decide) hsize).mpr hn
  unfold signed
  split_ifs <;> exact Nat.succ_le_succ hlength

theorem place_length {d : Digits} (hd : ofChars d.chars ≠ []) :
    (plain.place d).length =
      let digits := (ofChars d.chars).length
      if -6 < d.point ∧ d.point ≤ 0 then digits + d.point.natAbs + 2
      else if 0 < d.point ∧ d.point ≤ 21 then
        if digits ≤ d.point.toNat then d.point.toNat else digits + 1
      else (if digits = 1 then 1 else digits + 1) + 1 + (signed (d.point - 1)).length := by
  unfold Layout.place
  simp only [Bool.and_eq_true, decide_eq_true_eq, show plain.low = -6 from rfl,
    show plain.high = 21 from rfl]
  generalize ofChars d.chars = digits at *
  split_ifs with hbefore hwithin hlong hone
  · have hzero : (ofString "0.").length = 2 := by decide
    simp only [List.length_append, zeros, List.length_replicate, hzero]
    omega
  · simp only [List.length_append, zeros, List.length_replicate]
    omega
  · simp only [List.length_append, List.length_cons, List.length_take, List.length_drop]
    omega
  · obtain ⟨u, rfl⟩ := List.length_eq_one_iff.mp hone
    simp only [List.length_cons]
    omega
  · obtain ⟨u, us, rfl⟩ := List.exists_cons_of_ne_nil hd
    cases us with
    | nil => exact absurd rfl hone
    | cons v us =>
      simp only [List.length_cons, List.length_append]
      omega

theorem Ratio.inUnits_den {r : Ratio} (hr : 0 < r.den) (k : Int) : 0 < (r.inUnits k).den := by
  cases k with
  | ofNat k => exact Nat.mul_pos hr (tenPow_pos k)
  | negSucc k => exact hr

theorem Ratio.inUnits_value (r : Ratio) (k : Int) :
    ((r.inUnits k).num / (r.inUnits k).den * 10 ^ k : ℚ) = r.num / r.den := by
  cases k with
  | ofNat k =>
    have hpow : (10 : ℚ) ^ k ≠ 0 := by positivity
    simp only [inUnits, tenPow_eq, Int.ofNat_eq_natCast, zpow_natCast, Nat.cast_mul, Nat.cast_pow,
      Nat.cast_ofNat]
    field_simp
  | negSucc k =>
    have hpow : (10 : ℚ) ^ (k + 1) ≠ 0 := by positivity
    simp only [inUnits, tenPow_eq, zpow_negSucc, Nat.cast_mul, Nat.cast_pow, Nat.cast_ofNat]
    field_simp

theorem Ratio.round_spec {r : Ratio} (hr : 0 < r.den) :
    (r.round : ℚ) ≤ r.num / r.den + 1 / 2 ∧ (r.num / r.den + 1 / 2 : ℚ) < r.round + 1 := by
  have hden : (0 : ℚ) < r.den := Nat.cast_pos.mpr hr
  have hvalue : (r.num / r.den + 1 / 2 : ℚ) = (2 * r.num + r.den : Nat) / (2 * r.den : Nat) := by
    push_cast
    field_simp
  rw [hvalue, round]
  refine ⟨Nat.cast_div_le, ?_⟩
  rw [div_lt_iff₀ (by positivity)]
  exact_mod_cast Nat.lt_mul_of_div_lt (Nat.lt_succ_self _) (Nat.mul_pos (by decide) hr)

section Significant

variable {m : Nat} {e : Int}

theorem significant_spec (size m : Nat) (e : Int) :
    let n := (significant size m e).1
    let k := (Ratio.ofBinary m e).magnitude - size
    ((n - 1 / 2) * 10 ^ k : ℚ) ≤ m * 2 ^ e ∧ (m * 2 ^ e : ℚ) < (n + 1 / 2) * 10 ^ k := by
  intro n k
  have hunit : (0 : ℚ) < 10 ^ k := by positivity
  obtain ⟨hlow, hhigh⟩ : (n : ℚ) ≤ _ ∧ _ < (n : ℚ) + 1 :=
    Ratio.round_spec (Ratio.inUnits_den (Ratio.ofBinary_den m e) k)
  rw [← Ratio.ofBinary_value, ← Ratio.inUnits_value (Ratio.ofBinary m e) k]
  exact ⟨mul_le_mul_of_nonneg_right (sub_le_iff_le_add.mpr hlow) hunit.le,
    mul_lt_mul_of_pos_right (by linarith) hunit⟩

theorem significant_bounds (hm : 0 < m) (e : Int) {size : Nat} (hsize : 1 ≤ size) :
    10 ^ (size - 1) ≤ (significant size m e).1 ∧ (significant size m e).1 ≤ 10 ^ size := by
  obtain ⟨hlow, hhigh⟩ := magnitude_spec hm e
  obtain ⟨hbelow, habove⟩ := significant_spec size m e
  generalize (significant size m e).1 = n at *
  generalize (Ratio.ofBinary m e).magnitude = p at *
  have hunit : (0 : ℚ) < 10 ^ (p - size) := by positivity
  rw [ten_zpow_eq (show p - 1 = (size - 1 : Nat) + (p - size) by omega)] at hlow
  rw [ten_zpow_eq (show p = size + (p - size) by omega)] at hhigh
  have hleast := (mul_lt_mul_iff_left₀ hunit).mp (hlow.trans_lt habove)
  have hgreatest := (mul_lt_mul_iff_left₀ hunit).mp (hbelow.trans_lt hhigh)
  constructor
  · have hlt : ((10 ^ (size - 1) : Nat) : ℚ) < (n + 1 : Nat) := by
      push_cast at hleast ⊢
      linarith
    exact Nat.lt_succ_iff.mp (by exact_mod_cast hlt)
  · have hlt : (n : ℚ) < (10 ^ size + 1 : Nat) := by
      push_cast at hgreatest ⊢
      linarith
    exact Nat.lt_succ_iff.mp (by exact_mod_cast hlt)

end Significant

section Positive

variable {q : ℚ} {x : Float}

theorem format_of_nearest (h : Nearest .positive q (view x)) :
    plain.format x = ofString "0" ∨ plain.format x = ofString "Infinity" ∨
      ∃ m e, 0 < m ∧ Canonical m e ∧ Near q m e ∧ plain.format x = plain.place (shortest m e) := by
  unfold Layout.format
  rw [Binary.ofFloat_eq]
  generalize view x = u at h
  cases h with
  | zero hq => exact .inl rfl
  | infinity hq => exact .inr (.inl rfl)
  | @finite m e hm hc hq =>
    obtain ⟨m, rfl⟩ := Nat.exists_eq_succ_of_ne_zero hm.ne'
    exact .inr (.inr ⟨_, e, hm, hc, hq, rfl⟩)

theorem magnitude_within {m : Nat} {e : Int} (hm : 0 < m) (hc : Canonical m e) :
    -324 < (Ratio.ofBinary m e).magnitude ∧ (Ratio.ofBinary m e).magnitude ≤ 309 := by
  obtain ⟨hlow, hhigh⟩ := magnitude_spec hm e
  have hone : (1 : ℚ) ≤ m := by exact_mod_cast hm
  have hshort : (m : ℚ) ≤ 2 ^ 53 := by exact_mod_cast hc.short.le
  constructor
  · refine (zpow_lt_zpow_iff_right₀ (show (1 : ℚ) < 10 by norm_num)).mp (lt_of_le_of_lt ?_ hhigh)
    calc (10 : ℚ) ^ (-324 : Int) ≤ 2 ^ (-1074 : Int) := by
          rw [zpow_neg, zpow_neg, inv_le_inv₀ (by positivity) (by positivity)]
          exact cast_pow_le (by decide +kernel)
      _ ≤ 1 * 2 ^ e := by
          rw [one_mul]
          exact zpow_le_zpow_right₀ one_le_two hc.least
      _ ≤ m * 2 ^ e := mul_le_mul_of_nonneg_right hone (by positivity)
  · refine Int.le_of_sub_one_lt ((zpow_lt_zpow_iff_right₀ (show (1 : ℚ) < 10 by norm_num)).mp
      (lt_of_le_of_lt hlow ?_))
    have hbelow : m * 2 ^ e < (2 : ℚ) ^ (1024 : Int) := by
      calc (m * 2 ^ e : ℚ) < 2 ^ 53 * 2 ^ e :=
            mul_lt_mul_of_pos_right (by exact_mod_cast hc.short) (by positivity)
        _ = 2 ^ (53 + e) := by rw [zpow_add₀ two_ne_zero]; rfl
        _ ≤ 2 ^ (1024 : Int) := zpow_le_zpow_right₀ one_le_two (by have := hc.greatest; omega)
    exact hbelow.trans_le (cast_pow_le (by decide +kernel))

theorem format_length_le {n : Nat} {k : Int} (hn : 0 < n ∧ n ≤ 10 ^ 12)
    (h : Nearest .positive (n * 10 ^ k) (view x)) : (plain.format x).length ≤ 21 := by
  obtain hformat | hformat | ⟨m, e, hm, hc, hnear, hformat⟩ := format_of_nearest h
  · rw [hformat]
    decide
  · rw [hformat]
    decide
  · obtain ⟨found, hfound, hleading, hlength, hpoint⟩ :=
      shortest_sized hm ⟨by decide, by decide⟩ hn hnear
    obtain ⟨hlow, hhigh⟩ := magnitude_within hm hc
    have hexponent : (signed ((shortest m e).point - 1)).length ≤ 4 :=
      signed_length (by decide) (by omega)
    rw [hformat, place_length hleading.digits.ne_nil]
    simp only
    split_ifs <;> omega

theorem roundTo_nearest {m : Nat} {e : Int} {hm : 0 < m} (hx : view x = .finite .positive m e hm)
    (size : Nat) : Nearest .positive ((significant size m e).1 *
      10 ^ ((Ratio.ofBinary m e).magnitude - size)) (view (roundTo size x)) := by
  obtain ⟨m, rfl⟩ := Nat.exists_eq_succ_of_ne_zero hm.ne'
  unfold roundTo
  rw [Binary.ofFloat_eq, hx]
  exact ofDecimal_nearest false _ _

end Positive

section Decimal

variable {n k m : Nat} {e : Int}

theorem near_close {q : ℚ} (h : Near q m e) (hfull : 2 ^ 52 ≤ m) :
    |(m * 2 ^ e : ℚ) - q| ≤ m * 2 ^ e / 2 ^ 53 := by
  have hunit : (0 : ℚ) < 2 ^ e := by positivity
  have hreach : reachBelow m e * 2 ^ e ≤ 1 / 2 * 2 ^ e := by
    refine mul_le_mul_of_nonneg_right ?_ hunit.le
    unfold reachBelow
    split_ifs <;> norm_num
  have hscaled : (2 ^ 52 * 2 ^ e : ℚ) ≤ m * 2 ^ e :=
    mul_le_mul_of_nonneg_right (by exact_mod_cast hfull) hunit.le
  have hlow := h.low.elim le_of_lt fun h => h.1.le
  have hhigh := h.high.elim le_of_lt fun h => h.1.le
  rw [sub_mul] at hlow
  rw [add_mul] at hhigh
  exact abs_le.mpr ⟨by linarith, by linarith⟩

/-- A decimal with up to eleven digits, up to ten of them behind the point. -/
structure Short (n k : Nat) : Prop where
  pos : 0 < n
  digits : n < 10 ^ 11
  places : k ≤ 10

theorem Short.view (h : Short n k) :
    ∃ m e hm, Double.view (ofDecimal false n (-k)) = .finite .positive m e hm ∧
      Near (n * 10 ^ (-k : Int)) m e ∧ 2 ^ 52 ≤ m := by
  have hnearest := ofDecimal_nearest false n (-k)
  have hone : (1 : ℚ) ≤ n := by exact_mod_cast h.pos
  have hn : (n : ℚ) ≤ 10 ^ 11 := by exact_mod_cast h.digits.le
  have hlow : (10 : ℚ) ^ (-10 : Int) ≤ n * 10 ^ (-k : Int) := by
    calc (10 : ℚ) ^ (-10 : Int) ≤ 1 * 10 ^ (-k : Int) := by
          rw [one_mul]
          exact zpow_le_zpow_right₀ (by norm_num) (by have := h.places; omega)
      _ ≤ n * 10 ^ (-k : Int) := mul_le_mul_of_nonneg_right hone (by positivity)
  have hhigh : (n * 10 ^ (-k : Int) : ℚ) ≤ 10 ^ 11 * 1 :=
    mul_le_mul hn (zpow_le_one_of_nonpos₀ (by norm_num) (by omega)) (by positivity) (by norm_num)
  generalize Double.view (ofDecimal false n (-k)) = u at *
  have htiny : (2 ^ 53 * 2 ^ (-1074 : Int) : ℚ) < 10 ^ (-10 : Int) := by
    calc (2 ^ 53 * 2 ^ (-1074 : Int) : ℚ) ≤ 2 ^ 53 * 2 ^ (-100 : Int) := by gcongr <;> norm_num
      _ < 10 ^ (-10 : Int) := by norm_num
  have hvast : (10 : ℚ) ^ 11 * 1 < (2 ^ 53 - 1 / 2) * 2 ^ (971 : Int) := by
    calc (10 : ℚ) ^ 11 * 1 < (2 ^ 53 - 1 / 2) * 1 := by norm_num
      _ ≤ (2 ^ 53 - 1 / 2) * 2 ^ (971 : Int) :=
        mul_le_mul_of_nonneg_left (one_le_zpow₀ one_le_two (by decide)) (by norm_num)
  have hscaled : ∀ {a : ℚ}, a ≤ 2 ^ 53 → a * 2 ^ (-1074 : Int) < n * 10 ^ (-k : Int) := fun ha =>
    (mul_le_mul_of_nonneg_right ha (by positivity)).trans_lt (htiny.trans_le hlow)
  cases hnearest with
  | zero hq => exact absurd hq (not_le_of_gt (hscaled (by norm_num)))
  | infinity hq => exact absurd (hq.trans hhigh) (not_le_of_gt hvast)
  | @finite m e hm hc hq =>
    refine ⟨m, e, hm, rfl, hq, hc.full.resolve_right fun hleast => ?_⟩
    subst hleast
    have hshort : (m + 1 / 2 : ℚ) ≤ 2 ^ 53 := by
      have : (m + 1 : ℚ) ≤ 2 ^ 53 := by exact_mod_cast hc.short
      linarith
    exact absurd (hq.high.elim le_of_lt fun h => h.1.le) (not_le_of_gt (hscaled hshort))

theorem Short.magnitude (h : Short n k) (hm : 0 < m) (hnear : Near (n * 10 ^ (-k : Int)) m e)
    (hfull : 2 ^ 52 ≤ m) :
    -10 ≤ (Ratio.ofBinary m e).magnitude ∧ (Ratio.ofBinary m e).magnitude ≤ 11 - k := by
  obtain ⟨hlow, hhigh⟩ := magnitude_spec hm e
  obtain ⟨hbelow, habove⟩ := abs_le.mp (near_close hnear hfull)
  have hunit : (0 : ℚ) < 10 ^ (-k : Int) := by positivity
  have hone : (1 : ℚ) * 10 ^ (-k : Int) ≤ n * 10 ^ (-k : Int) :=
    mul_le_mul_of_nonneg_right (by exact_mod_cast h.pos) hunit.le
  have hdigits : (n * 10 ^ (-k : Int) : ℚ) ≤ (10 ^ 11 - 1) * 10 ^ (-k : Int) := by
    refine mul_le_mul_of_nonneg_right ?_ hunit.le
    have : (n + 1 : ℚ) ≤ 10 ^ 11 := by exact_mod_cast h.digits
    linarith
  have hpow : ∀ {i j : Int}, (10 : ℚ) ^ i < 10 ^ j → i < j := fun h =>
    (zpow_lt_zpow_iff_right₀ (by norm_num)).mp h
  have hplaces := h.places
  generalize (m * 2 ^ e : ℚ) = v at *
  constructor
  · have hleast : (10 : ℚ) ^ (-(k : Int) - 1) < 10 ^ (Ratio.ofBinary m e).magnitude := by
      rw [zpow_sub_one₀ (by norm_num)]
      linarith
    have := hpow hleast
    omega
  · have hgreatest : (10 : ℚ) ^ ((Ratio.ofBinary m e).magnitude - 1) < 10 ^ (11 - k : Int) := by
      rw [sub_eq_add_neg (11 : Int), zpow_add₀ (by norm_num), zpow_ofNat]
      refine lt_of_le_of_lt hlow ?_
      by_contra hge
      linarith
    have := hpow hgreatest
    omega

theorem Short.roundTo (h : Short n k) :
    roundTo 12 (ofDecimal false n (-k)) = ofDecimal false n (-k) := by
  obtain ⟨m, e, hm, hview, hnear, hfull⟩ := h.view
  obtain ⟨-, hplaces⟩ := h.magnitude hm hnear hfull
  have hrounded := roundTo_nearest hview 12
  have hclose := near_close hnear hfull
  obtain ⟨-, hhigh⟩ := magnitude_spec hm e
  obtain ⟨hbelow, habove⟩ := significant_spec 12 m e
  refine hrounded.eq ?_
  generalize (significant 12 m e).1 = s at *
  generalize (Ratio.ofBinary m e).magnitude = p at *
  have hunit : (0 : ℚ) < 10 ^ (p - 12) := by positivity
  obtain ⟨j, hj⟩ : ∃ j : Nat, -(k : Int) = j + (p - 12) := ⟨(12 - k - p).toNat, by omega⟩
  have hwhole : (n * 10 ^ (-k : Int) : ℚ) = (n * 10 ^ j : Nat) * 10 ^ (p - 12) := by
    rw [ten_zpow_eq hj, Nat.cast_mul, mul_assoc]
  have hnumber : s = n * 10 ^ j := by
    rw [ten_zpow_eq (show p = (12 : Nat) + (p - 12) by omega)] at hhigh
    rw [hwhole] at hclose
    obtain ⟨hless, hmore⟩ := abs_le.mp hclose
    have hfew : (m * 2 ^ e / 2 ^ 53 : ℚ) < 1 / 2 * 10 ^ (p - 12) := by
      push_cast at hhigh
      linarith
    have hle : (s : ℚ) < (n * 10 ^ j + 1 : Nat) := by
      refine (mul_lt_mul_iff_left₀ hunit).mp ?_
      push_cast at *
      linarith
    have hge : ((n * 10 ^ j : Nat) : ℚ) < (s + 1 : Nat) := by
      refine (mul_lt_mul_iff_left₀ hunit).mp ?_
      push_cast at *
      linarith
    exact Nat.le_antisymm (Nat.lt_succ_iff.mp (by exact_mod_cast hle))
      (Nat.lt_succ_iff.mp (by exact_mod_cast hge))
  have hnearest := ofDecimal_nearest false n (-k)
  rw [hwhole, ← hnumber] at hnearest
  exact hnearest

theorem Short.format_length_le (h : Short n k) :
    (plain.format (ofDecimal false n (-k))).length ≤ 12 := by
  obtain ⟨m, e, hm, hview, hnear, hfull⟩ := h.view
  obtain ⟨hlow, hhigh⟩ := h.magnitude hm hnear hfull
  obtain ⟨found, hfound, hleading, hlength, hpoint⟩ :=
    shortest_sized hm ⟨by decide, by decide⟩ ⟨h.pos, h.digits.le⟩ hnear
  have hexponent : (shortest m e).point - 1 < 0 →
      (signed ((shortest m e).point - 1)).length ≤ 3 := fun hneg =>
    signed_length (by decide) (by omega)
  have hformat : plain.format (ofDecimal false n (-k)) = plain.place (shortest m e) := by
    obtain ⟨m, rfl⟩ := Nat.exists_eq_succ_of_ne_zero hm.ne'
    rw [Layout.format, Binary.ofFloat_eq, hview]
    rfl
  have hplaces := h.places
  rw [hformat, place_length hleading.digits.ne_nil]
  simp only
  split_ifs <;> omega

end Decimal

end LimitBook.Number
