import LimitBook.Number.Numeral
import LimitBook.Proofs.Scalar.Rounding

namespace LimitBook.Double

open Float.Model Float.Model.UnpackedFloat

/-- The double is positive and is `x`, with nothing rounded off. -/
structure Exact (a : Float) (x : ℚ) (m : Nat) (e : Int) : Prop where
  pos : 0 < m
  view_eq : view a = .finite .positive m e pos
  value : m * 2 ^ e = x

theorem Rounded.view {s : Sign} {x : ℚ} {u : UnpackedFloat} (h : Rounded s x u) :
    Nearest s x (view (.ofModel (Float.Model.pack u))) := h.unpack_pack

theorem Exact.mul {a b : Float} {x y : ℚ} {m n : Nat} {e f : Int} (ha : Exact a x m e)
    (hb : Exact b y n f) (hbits : 2 ^ 52 ≤ n) : Nearest .positive (x * y) (view (a * b)) := by
  have hround := mul_rounded .positive .positive ha.pos hb.pos e f
    (Nat.le_trans hbits (Nat.le_mul_of_pos_left n ha.pos))
  rw [ha.value, hb.value, ← ha.view_eq, ← hb.view_eq] at hround
  exact hround.view

theorem Exact.div {a b : Float} {x y : ℚ} {m n : Nat} {e f : Int} (ha : Exact a x m e)
    (hb : Exact b y n f) : Nearest .positive (x / y) (view (a / b)) := by
  have hround := div_rounded .positive .positive ha.pos hb.pos e f
  rw [ha.value, hb.value, ← ha.view_eq, ← hb.view_eq] at hround
  exact hround.view

theorem Nearest.neg {s : Sign} {x : ℚ} {a : Float} (h : Nearest s x (view a)) :
    Nearest (-s) x (view (-a)) := by
  have hview : view (-a) =
      UnpackedFloat.unpack .binary64 (UnpackedFloat.pack .binary64 (view a).neg) := rfl
  rw [hview]
  generalize view a = u at h
  cases h with
  | zero hx =>
    rw [UnpackedFloat.neg, unpack_packedZero]
    exact .zero hx
  | finite hm hx =>
    rw [UnpackedFloat.neg, unpack_pack hm]
    exact .finite hm hx
  | infinity hx =>
    rw [UnpackedFloat.neg, UnpackedFloat.pack, unpack_packedInfinity]
    exact .infinity hx

theorem round_rounded (s : Sign) {M : Nat} (hM : 0 < M) (d : Int) :
    Rounded s (M * 2 ^ d) (round .binary64 s M d) := by
  unfold UnpackedFloat.round decreaseExponent
  simp only [targetExponent_eq, totalExponent]
  generalize hk : (d - max ((M.log2 : Int) + 1 + d - 53) (-1074)).toNat = k
  have hround := roundWithAccuracy_rounded s (E := d - k) (represents_exact (M <<< k)) (by
    rw [log2_shiftLeft hM]
    omega)
  have hx : (M * 2 ^ d : ℚ) = (M <<< k : Nat) * 2 ^ (d - k) := by
    rw [Nat.shiftLeft_eq, Nat.cast_mul, Nat.cast_pow, Nat.cast_ofNat, mul_assoc, ← zpow_natCast,
      ← zpow_add₀ two_ne_zero, add_sub_cancel]
  rw [hx]
  exact hround

theorem exact_of_lt {n : Nat} (hn : 0 < n) (hlt : n < 2 ^ 53) :
    ∃ m e, Exact n.toUInt64.toFloat n m e := by
  have hlog : n.log2 ≤ 52 := log2_le_of_lt hlt
  obtain ⟨k, hk⟩ : ∃ k, n.log2 + k = 52 := ⟨52 - n.log2, by omega⟩
  have hfull : (n <<< k).log2 = 52 := by rw [log2_shiftLeft hn, hk]
  have hpos : 0 < n <<< k := by
    rw [Nat.shiftLeft_eq]
    exact Nat.mul_pos hn (Nat.two_pow_pos k)
  have hvalue : ((n <<< k : Nat) * 2 ^ (-k : Int) : ℚ) = n := by
    rw [Nat.shiftLeft_eq, Nat.cast_mul, Nat.cast_pow, Nat.cast_ofNat, zpow_neg, zpow_natCast,
      mul_assoc, mul_inv_cancel₀ (by positivity), mul_one]
  have hcanonical : Canonical (n <<< k) (-k) :=
    ⟨(Nat.log2_lt hpos.ne').mp (by omega), by omega, by omega,
      .inl ((Nat.le_log2 hpos.ne').mp (by omega))⟩
  have hnat : n.toUInt64.toNat = n := Nat.mod_eq_of_lt (Nat.lt_trans hlt (by decide))
  have hround : UnpackedFloat.ofUInt64 .binary64 n.toUInt64 = round .binary64 .positive n 0 := by
    have hgt : compare (n : Int) 0 = .gt := compare_gt_iff_gt.mpr (Int.natCast_pos.mpr hn)
    simp only [UnpackedFloat.ofUInt64, UnpackedFloat.ofNat, UnpackedFloat.ofInt,
      UnpackedFloat.normalize, hnat, hgt, Int.toNat_natCast]
  have hnearest : Nearest .positive n (view n.toUInt64.toFloat) := by
    have hzero := round_rounded .positive hn 0
    rw [← hround, zpow_zero, mul_one] at hzero
    exact hzero.view
  exact ⟨n <<< k, -k, hpos, hnearest.eq_finite hpos hcanonical (hvalue ▸ near_self _ _), hvalue⟩

def isTenPow (a : Float) (k : Nat) : Bool :=
  match view a with
  | .finite .positive m e _ => 2 ^ 52 ≤ m && -52 ≤ e && m * 2 ^ (e + 52).toNat == 10 ^ k * 2 ^ 52
  | _ => false

theorem exact_of_isTenPow {a : Float} {k : Nat} (h : isTenPow a k = true) :
    ∃ m e, 2 ^ 52 ≤ m ∧ Exact a (10 ^ k) m e := by
  unfold isTenPow at h
  split at h
  · rename_i m e hm hv
    simp only [Bool.and_eq_true, decide_eq_true_eq, beq_iff_eq] at h
    obtain ⟨⟨hfull, hleast⟩, hsame⟩ := h
    refine ⟨m, e, hfull, hm, hv, ?_⟩
    have hscaled : (m : ℚ) * 2 ^ (e + 52).toNat = 10 ^ k * 2 ^ 52 := by exact_mod_cast hsame
    have hpow : (2 : ℚ) ^ (e + 52).toNat = 2 ^ e * 2 ^ 52 := by
      rw [← zpow_natCast, Int.toNat_of_nonneg (by omega), zpow_add₀ two_ne_zero]
      norm_num
    rw [hpow, ← mul_assoc] at hscaled
    exact mul_right_cancel₀ (by positivity) hscaled
  · cases h

theorem exact_tenPow : ∀ k : Fin 23, isTenPow Float.exactlyRepresentablePowersOfTen[k] k = true := by
  decide +kernel

theorem two_zpow_le_ten_zpow {k : Int} (hk : 0 ≤ k) : (2 : ℚ) ^ k ≤ 10 ^ k := by
  obtain ⟨k, rfl⟩ := Int.eq_ofNat_of_zero_le hk
  exact pow_le_pow_left₀ two_pos.le (by norm_num) k

theorem cast_pow_le {i j : Nat} (h : 2 ^ i ≤ 10 ^ j) : (2 : ℚ) ^ (i : Int) ≤ 10 ^ (j : Int) := by
  rw [zpow_natCast, zpow_natCast]
  exact_mod_cast h

theorem ten_zpow_le_two_zpow {k : Int} (hk : k ≤ 0) : (10 : ℚ) ^ k ≤ 2 ^ k := by
  have h := two_zpow_le_ten_zpow (Int.neg_nonneg_of_nonpos hk)
  rw [zpow_neg, zpow_neg] at h
  exact (inv_le_inv₀ (by positivity) (by positivity)).mp h

theorem cast_ten_pow {k : Int} (hk : 0 ≤ k) : ((10 ^ k.toNat : Nat) : ℚ) = 10 ^ k := by
  rw [Nat.cast_pow, Nat.cast_ofNat, ← zpow_natCast, Int.toNat_of_nonneg hk]

theorem overflow {x : ℚ} (hx : 2 ^ (1024 : Int) ≤ x) : Nearest .positive x (.infinity .positive) := by
  refine .infinity (le_trans ?_ hx)
  rw [show (1024 : Int) = 53 + 971 by norm_num, zpow_add₀ two_ne_zero]
  exact mul_le_mul_of_nonneg_right (by norm_num) (by positivity)

theorem underflow {x : ℚ} (hx : x ≤ 2 ^ (-1075 : Int)) : Nearest .positive x (.zero .positive) := by
  refine .zero (le_trans hx (le_of_eq ?_))
  rw [show (-1075 : Int) = -1 + -1074 by norm_num, zpow_add₀ two_ne_zero]
  norm_num

theorem ofScientific_unpacked {n : Nat} (hn : 0 < n) (k : Int) :
    Nearest .positive (n * 10 ^ k) (view (.ofModel (Float.Model.ofScientific n k))) := by
  have hone : (1 : ℚ) ≤ n := by exact_mod_cast hn
  have hview : view (.ofModel (Float.Model.ofScientific n k)) = UnpackedFloat.unpack .binary64
      (UnpackedFloat.pack .binary64 (UnpackedFloat.ofScientific .binary64 n k)) := rfl
  have hlimit : (2 : Int) ^ Format.binary64.exponentBits = 2048 := rfl
  rw [hview, UnpackedFloat.ofScientific, dif_neg hn.ne', hlimit]
  split_ifs with hhigh hlow hsign
  · rw [UnpackedFloat.pack, unpack_packedInfinity]
    refine overflow ?_
    calc (2 : ℚ) ^ (1024 : Int) ≤ 2 ^ k := zpow_le_zpow_right₀ one_le_two (by omega)
      _ ≤ 1 * 10 ^ k := by
        rw [one_mul]
        exact two_zpow_le_ten_zpow (by omega)
      _ ≤ n * 10 ^ k := mul_le_mul_of_nonneg_right hone (by positivity)
  · rw [unpack_packedZero]
    refine underflow ?_
    have hlog : (n : ℚ) ≤ 2 ^ ((n.log2 : Int) + 1) := by
      exact_mod_cast (Nat.lt_log2_self (n := n)).le
    calc (n : ℚ) * 10 ^ k ≤ 2 ^ ((n.log2 : Int) + 1) * 2 ^ k :=
          mul_le_mul hlog (ten_zpow_le_two_zpow (by omega)) (by positivity) (by positivity)
      _ = 2 ^ ((n.log2 : Int) + 1 + k) := (zpow_add₀ two_ne_zero _ _).symm
      _ ≤ 2 ^ (-1075 : Int) := zpow_le_zpow_right₀ one_le_two (by omega)
  · have hshifted : 0 < n <<< 53 := by simpa using hn
    have hpow : 0 < 10 ^ k.toNat := by positivity
    have hround := mul_rounded .positive .positive hshifted hpow (-53) 0 (by
        rw [Nat.shiftLeft_eq]
        calc 2 ^ 52 ≤ 1 * 2 ^ 53 * 1 := by decide
          _ ≤ n * 2 ^ 53 * 10 ^ k.toNat :=
            Nat.mul_le_mul (Nat.mul_le_mul_right _ hn) (Nat.pow_pos (by decide)))
    have hx : ((n <<< 53 : Nat) * 2 ^ (-53 : Int) * ((10 ^ k.toNat : Nat) * 2 ^ (0 : Int)) : ℚ) =
        n * 10 ^ k := by
      rw [cast_ten_pow hsign, Nat.shiftLeft_eq, Nat.cast_mul, Nat.cast_pow, Nat.cast_ofNat, zpow_zero,
        mul_one, zpow_neg, zpow_ofNat, mul_assoc (n : ℚ), mul_inv_cancel₀ (by positivity), mul_one]
    rw [hx] at hround
    exact hround.unpack_pack
  · have hpow : 0 < 10 ^ (-k).toNat := by positivity
    have hround := div_rounded .positive .positive hn hpow 0 0
    have hx : (n * 2 ^ (0 : Int) / ((10 ^ (-k).toNat : Nat) * 2 ^ (0 : Int)) : ℚ) = n * 10 ^ k := by
      rw [cast_ten_pow (by omega), zpow_zero, mul_one, mul_one, zpow_neg, div_inv_eq_mul]
    rw [hx] at hround
    exact hround.unpack_pack

theorem ofScientific_nearest {n : Nat} (hn : 0 < n) (lowered : Bool) (k : Nat) :
    Nearest .positive (n * 10 ^ (if lowered then -(k : Int) else k))
      (view (Float.ofScientific n lowered k)) := by
  by_cases hshort : n < 2 ^ 53 ∧ k ≤ 22
  · obtain ⟨m, e, ha⟩ := exact_of_lt hn hshort.1
    obtain ⟨p, f, hfull, hb⟩ := exact_of_isTenPow (exact_tenPow ⟨k, by omega⟩)
    rw [Float.ofScientific, dif_pos hshort]
    cases lowered
    · exact ha.mul hb hfull
    · have h := ha.div hb
      rw [div_eq_mul_inv, ← zpow_natCast, ← zpow_neg] at h
      exact h
  · rw [Float.ofScientific, dif_neg hshort]
    cases lowered
    · exact ofScientific_unpacked hn k
    · have h := ofScientific_unpacked hn (Int.negOfNat k)
      rw [if_pos rfl, if_pos rfl, ← Int.ofNat_eq_natCast, ← Int.negOfNat_eq]
      exact h

theorem fields_of_zero {b : Bits} {s : Sign} (hb : UnpackedFloat.unpack .binary64 b = .zero s) :
    Sign.ofBitVec (unpackSign b) = s ∧ exponentField b = 0#11 ∧ mantissaField b = 0#52 := by
  unfold UnpackedFloat.unpack at hb
  simp only at hb
  split at hb
  · split at hb <;> cases hb
  · split at hb
    · rename_i hz
      split at hb
      · rename_i hm
        cases hb
        exact ⟨rfl, hz, hm⟩
      · cases hb
    · cases hb

theorem fields_of_infinity {b : Bits} {s : Sign}
    (hb : UnpackedFloat.unpack .binary64 b = .infinity s) :
    Sign.ofBitVec (unpackSign b) = s ∧ exponentField b = -1#11 ∧ mantissaField b = 0#52 := by
  unfold UnpackedFloat.unpack at hb
  simp only at hb
  split at hb
  · rename_i hones
    split at hb
    · rename_i hm
      cases hb
      exact ⟨rfl, hones, hm⟩
    · cases hb
  · split at hb
    · split at hb <;> cases hb
    · cases hb

theorem eq_of_view {a b : Float} (h : view a = view b) (ha : view a ≠ .notANumber) : a = b := by
  refine eq_of_bits ?_
  cases hv : view a with
  | notANumber => exact absurd hv ha
  | infinity s =>
    obtain ⟨has, hae, ham⟩ := fields_of_infinity hv
    obtain ⟨hbs, hbe, hbm⟩ := fields_of_infinity (h.symm.trans hv)
    exact eq_of_fields (sign_inj (has.trans hbs.symm)) (hae.trans hbe.symm) (ham.trans hbm.symm)
  | zero s =>
    obtain ⟨has, hae, ham⟩ := fields_of_zero hv
    obtain ⟨hbs, hbe, hbm⟩ := fields_of_zero (h.symm.trans hv)
    exact eq_of_fields (sign_inj (has.trans hbs.symm)) (hae.trans hbe.symm) (ham.trans hbm.symm)
  | finite s m e hm => exact unpack_inj hv (h.symm.trans hv)

theorem Nearest.unique {s : Sign} {x : ℚ} {u v : UnpackedFloat} (hu : Nearest s x u)
    (hv : Nearest s x v) : u = v := by
  have hapart : (1 / 2 : ℚ) * 2 ^ (-1074 : Int) < (2 ^ 53 - 1 / 2) * 2 ^ (971 : Int) :=
    mul_lt_mul (by norm_num) (zpow_le_zpow_right₀ one_le_two (by norm_num)) (by positivity)
      (by norm_num)
  cases hu with
  | finite hm hx => exact (hv.eq_finite _ hm hx).symm
  | zero hx =>
    cases hv with
    | zero => rfl
    | finite hn hy => exact Nearest.eq_finite (.zero hx) _ hn hy
    | infinity hy => exact absurd hapart (not_lt_of_ge (hy.trans hx))
  | infinity hx =>
    cases hv with
    | zero hy => exact absurd hapart (not_lt_of_ge (hx.trans hy))
    | finite hn hy => exact Nearest.eq_finite (.infinity hx) _ hn hy
    | infinity => rfl

theorem Nearest.eq {s : Sign} {x : ℚ} {a b : Float} (ha : Nearest s x (view a))
    (hb : Nearest s x (view b)) : a = b := by
  refine eq_of_view (ha.unique hb) fun hv => ?_
  rw [hv] at ha
  cases ha

theorem Nearest.isNonneg {x : ℚ} {a : Float} (h : Nearest .positive x (view a))
    (ha : a.isFinite = true) : Scalar.isNonneg a = true := by
  rw [Scalar.isNonneg, Bool.and_eq_true, decide_eq_true_iff, le_iff]
  refine ⟨ha, (0, 0, 0), ?_⟩
  rcases hv : view a with _ | _ | _ | ⟨s, m, e, hm⟩ <;> rw [hv] at h <;> cases h
  · exact ⟨(2, 0, 0), rfl, rfl, .inl (by decide)⟩
  · exact ⟨(0, 0, 0), rfl, rfl, .refl _⟩
  · exact ⟨(1, e, m), rfl, rfl, .inl Int.one_pos⟩

end LimitBook.Double

namespace LimitBook.Number

open Float.Model Float.Model.UnpackedFloat Double

theorem toDigits_bounds {n : Nat} (hn : 0 < n) :
    10 ^ ((Nat.toDigits 10 n).length - 1) ≤ n ∧ n < 10 ^ (Nat.toDigits 10 n).length := by
  have hle : ∀ {k}, 0 < k → ((Nat.toDigits 10 n).length ≤ k ↔ n < 10 ^ k) :=
    Nat.length_toDigits_le_iff (by decide)
  have hlength : 0 < (Nat.toDigits 10 n).length := Nat.length_toDigits_pos
  refine ⟨?_, (hle hlength).mp (Nat.le_refl _)⟩
  obtain hone | hmore := Nat.eq_or_lt_of_le (Nat.succ_le_of_lt hlength)
  · rw [← hone]
    exact hn
  · by_contra hlt
    have := (hle (by omega)).mpr (Nat.lt_of_not_le hlt)
    omega

def signOf (negative : Bool) : Sign := if negative then .negative else .positive

/-- Reading a decimal is correctly rounded: the double read is the one nearest to the exact value,
whatever its digits are and however far its exponent goes. -/
theorem ofDecimal_nearest (negative : Bool) (n : Nat) (k : Int) :
    Nearest (signOf negative) (n * 10 ^ k) (view (ofDecimal negative n k)) := by
  have hunsigned : Nearest .positive (n * 10 ^ k) (view (ofDecimal false n k)) := by
    obtain rfl | hn := Nat.eq_zero_or_pos n
    · have hzero : (0 : ℚ) ≤ 1 / 2 * 2 ^ (-1074 : Int) := by positivity
      rw [Nat.cast_zero, zero_mul, show ofDecimal false 0 k = 0.0 from rfl]
      exact .zero hzero
    unfold ofDecimal
    obtain ⟨hlow, hhigh⟩ := toDigits_bounds hn
    generalize (Nat.toDigits 10 n).length = size at *
    simp only [Bool.false_eq_true, if_false]
    split_ifs with hsmall hlarge
    · refine underflow ?_
      have hn : (n : ℚ) ≤ 10 ^ (size : Int) := by exact_mod_cast hhigh.le
      calc (n : ℚ) * 10 ^ k ≤ 10 ^ (size : Int) * 10 ^ k := mul_le_mul_of_nonneg_right hn (by positivity)
        _ = 10 ^ (size + k) := (zpow_add₀ (by norm_num) _ _).symm
        _ ≤ 10 ^ (-331 : Int) := zpow_le_zpow_right₀ (by norm_num) (by omega)
        _ ≤ 2 ^ (-1075 : Int) := by
          rw [zpow_neg, zpow_neg, inv_le_inv₀ (by positivity) (by positivity)]
          exact cast_pow_le (by decide +kernel)
    · refine overflow ?_
      have hn : (10 : ℚ) ^ ((size - 1 : Nat) : Int) ≤ n := by exact_mod_cast hlow
      calc (2 : ℚ) ^ (1024 : Int) ≤ 10 ^ (310 : Int) := cast_pow_le (by decide +kernel)
        _ ≤ 10 ^ (((size - 1 : Nat) : Int) + k) := zpow_le_zpow_right₀ (by norm_num) (by omega)
        _ = 10 ^ ((size - 1 : Nat) : Int) * 10 ^ k := zpow_add₀ (by norm_num) _ _
        _ ≤ n * 10 ^ k := mul_le_mul_of_nonneg_right hn (by positivity)
    · cases k with
      | ofNat e => exact ofScientific_nearest hn false e
      | negSucc e => exact ofScientific_nearest hn true (e + 1)
  cases negative with
  | false => exact hunsigned
  | true => exact hunsigned.neg

end LimitBook.Number
