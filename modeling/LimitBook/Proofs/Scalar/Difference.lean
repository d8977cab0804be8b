import LimitBook.Proofs.Scalar.Double

namespace LimitBook.Double

open Float.Model Float.Model.UnpackedFloat

/-- A mantissa and an exponent as a finite double holds them. -/
structure Canonical (m : Nat) (e : Int) : Prop where
  short : m < 2 ^ 53
  least : -1074 ≤ e
  greatest : e ≤ 971
  full : 2 ^ 52 ≤ m ∨ e = -1074

theorem canonical_of_unpack {b : Bits} {s : Sign} {m : Nat} {e : Int} {h : 0 < m}
    (hb : UnpackedFloat.unpack .binary64 b = .finite s m e h) : Canonical m e := by
  obtain ⟨hm, hl, hu, hf⟩ := bounds_of_unpack hb
  exact ⟨hm, hl, hu, hf⟩

theorem sign_components (s : Sign) (e : BitVec 11) (m : BitVec 52) :
    Sign.ofBitVec (unpackSign (packComponents .binary64 s e m)) = s := by
  simp only [unpackSign, packComponents, BitVec.extractLsb]
  rw [BitVec.extractLsb'_append_eq_of_le (by omega), BitVec.extractLsb'_append_eq_of_le (by omega)]
  cases s <;> rfl

theorem pack_canonical {s : Sign} {m : Nat} {e : Int} {h : 0 < m} (hc : Canonical m e) :
    UnpackedFloat.pack .binary64 (.finite s m e h) = packComponents .binary64 s
      (if m.log2 = 52 then BitVec.ofNat 11 (e + 1075).toNat else 0#11) (BitVec.ofNat 52 m) := by
  obtain ⟨hm, hl, hu, -⟩ := hc
  have hlog : m.log2 ≤ 52 := log2_le_of_lt hm
  have hbits : Format.binary64.mantissaBits = 53 := rfl
  have hbias : (e + Format.binary64.exponentBias +
      Format.binary64.mantissaBitsWithoutImplicit).toNat = (e + 1075).toNat := by
    show (e + (1023 : Nat) + (52 : Nat)).toNat = _
    omega
  have hfit : ¬2 ^ Format.binary64.exponentBits ≤ (e + 1075).toNat + 1 := by
    show ¬2 ^ 11 ≤ _
    omega
  rw [UnpackedFloat.pack]
  simp only [hbias, hbits]
  rw [if_neg hfit]
  by_cases hfull : m.log2 = 52
  · rw [if_pos (congrArg (· + 1) hfull), if_pos hfull]
  · rw [if_neg (by omega), if_neg hfull]

theorem unpack_pack {s : Sign} {m : Nat} {e : Int} {h : 0 < m} (hc : Canonical m e) :
    UnpackedFloat.unpack .binary64 (UnpackedFloat.pack .binary64 (.finite s m e h)) =
      .finite s m e h := by
  rw [pack_canonical hc]
  obtain ⟨hm, hl, hu, hf⟩ := hc
  have hlog : m.log2 ≤ 52 := log2_le_of_lt hm
  have hm' : (BitVec.ofNat 52 m).toNat = m % 2 ^ 52 := BitVec.toNat_ofNat ..
  have he : (BitVec.ofNat 11 (e + 1075).toNat).toNat = (e + 1075).toNat :=
    (BitVec.toNat_ofNat ..).trans (Nat.mod_eq_of_lt (by omega))
  have hmask : (-1#11).toNat = 2047 := rfl
  unfold UnpackedFloat.unpack
  simp only [exponentBias_eq, unpackMantissa_packComponents, unpackExponent_packComponents,
    sign_components]
  by_cases hfull : m.log2 = 52
  · have hlow : 2 ^ 52 ≤ m := hfull ▸ Nat.log2_self_le (Nat.ne_of_gt h)
    have hne : BitVec.ofNat 11 (e + 1075).toNat ≠ -1#11 := fun hb => by
      have := congrArg BitVec.toNat hb
      omega
    have hne' : BitVec.ofNat 11 (e + 1075).toNat ≠ 0#11 := fun hb => by
      have := congrArg BitVec.toNat hb
      rw [he, BitVec.toNat_zero] at this
      omega
    rw [if_pos hfull, if_neg hne, if_neg hne']
    congr 1
    · rw [implicit_toNat]
      omega
    · omega
  · have hhigh : m < 2 ^ 52 := (Nat.log2_lt (Nat.ne_of_gt h)).mp (by omega)
    have hz : BitVec.ofNat 52 m ≠ 0#52 := fun hb => by
      have := congrArg BitVec.toNat hb
      rw [hm', BitVec.toNat_zero] at this
      omega
    rw [if_neg hfull, if_neg (by decide), if_pos rfl, dif_neg hz]
    congr 1
    · omega
    · simp
      omega

def RoundsBelow (u : UnpackedFloat) (m : Nat) (e : Int) : Prop :=
  u = .zero .positive ∨ ∃ n f h, u = .finite .positive n f h ∧ Canonical n f ∧
    (f < e ∨ f = e ∧ n ≤ m)

theorem le_roundedMantissa (em : ExtendedMantissa) : em.mantissa ≤ em.roundedMantissa := by
  obtain ⟨m, r, t⟩ := em
  cases r <;> cases t <;>
    simp [ExtendedMantissa.roundedMantissa, ExtendedMantissa.accuracy,
      Accuracy.roundToNearestEven]

theorem ofMantissaAndAccuracy_mantissa (M : Nat) (acc : Accuracy) :
    (ExtendedMantissa.ofMantissaAndAccuracy M acc).mantissa = M := by
  obtain _ | _ | _ | _ := acc <;> rfl

/-- What is left of a mantissa that is shifted to its exponent: 53 bits at most, and all of them if
the exponent is not the least. -/
theorem target_bounds {M j : Nat} {E t : Int} (ht : t = max ((M.log2 : Int) + 1 + E - 53) (-1074))
    (hj : E + j = t) : M / 2 ^ j < 2 ^ 53 ∧ (2 ^ 52 ≤ M / 2 ^ j ∨ t = -1074) := by
  constructor
  · rw [Nat.div_lt_iff_lt_mul (Nat.two_pow_pos j), ← Nat.pow_add]
    exact Nat.lt_of_lt_of_le Nat.lt_log2_self (Nat.pow_le_pow_right (by decide) (by omega))
  · by_cases hleast : t = -1074
    · exact .inr hleast
    · refine .inl ?_
      have hM : M ≠ 0 := fun hz => by
        rw [hz, show Nat.log2 0 = 0 from rfl] at ht
        omega
      rw [Nat.le_div_iff_mul_le (Nat.two_pow_pos j), ← Nat.pow_add]
      exact Nat.le_trans (Nat.pow_le_pow_right (by decide) (by omega)) (Nat.log2_self_le hM)

theorem carry_of_lt {R : Nat} {t : Int} (hR : R < 2 ^ 53) (ht : -1074 ≤ t) :
    (shiftToTargetExponent .binary64 R t .exact).1.mantissa = R ∧
      (shiftToTargetExponent .binary64 R t .exact).2 = t := by
  have hlog : R.log2 ≤ 52 := log2_le_of_lt hR
  have hzero : (max ((R.log2 : Int) + 1 + t - 53) (-1074) - t).toNat = 0 := by omega
  simp only [shiftToTargetExponent, shiftToExponent, targetExponent_eq, totalExponent, hzero,
    shiftRight_mantissa, ofMantissaAndAccuracy_mantissa]
  exact ⟨Nat.div_one R, Int.add_zero t⟩

theorem carry_of_eq {t : Int} (ht : -1074 ≤ t) :
    (shiftToTargetExponent .binary64 (2 ^ 53) t .exact).1.mantissa = 2 ^ 52 ∧
      (shiftToTargetExponent .binary64 (2 ^ 53) t .exact).2 = t + 1 := by
  have hlog : (2 ^ 53 : Nat).log2 = 53 := Nat.log2_two_pow
  have hone : (max (((2 ^ 53 : Nat).log2 : Int) + 1 + t - 53) (-1074) - t).toNat = 1 := by
    rw [hlog]
    omega
  simp only [shiftToTargetExponent, shiftToExponent, targetExponent_eq, totalExponent, hone,
    shiftRight_mantissa, ofMantissaAndAccuracy_mantissa]
  exact ⟨rfl, rfl⟩

theorem target_shift {M k : Nat} {d t : Int} (hM : 0 < M)
    (ht : t = max ((M.log2 : Int) + 1 + d - 53) (-1074)) :
    t = max (((M <<< k).log2 : Int) + 1 + (d - k) - 53) (-1074) := by
  rw [log2_shiftLeft hM]
  omega

theorem carried_below {m R : Nat} {t e : Int} (hm : Canonical m e) (hte : t ≤ e) (ht : -1074 ≤ t)
    (hR : R ≤ 2 ^ 53) (hfull : 2 ^ 52 ≤ R ∨ t = -1074) (hle : R ≤ m * 2 ^ (e - t).toNat) :
    let s := shiftToTargetExponent .binary64 R t .exact
    s.1.mantissa = 0 ∨ Canonical s.1.mantissa s.2 ∧ (s.2 < e ∨ s.2 = e ∧ s.1.mantissa ≤ m) := by
  obtain ⟨hshort, hleast, hgreatest, -⟩ := hm
  intro s
  obtain hlt | rfl := Nat.lt_or_eq_of_le hR
  · obtain ⟨hmantissa, hexponent⟩ := carry_of_lt hlt ht
    rw [show s.1.mantissa = R from hmantissa, show s.2 = t from hexponent]
    refine .inr ⟨⟨hlt, ht, by omega, hfull⟩, ?_⟩
    obtain hte | rfl := Int.lt_or_eq_of_le hte
    · exact .inl hte
    · exact .inr ⟨rfl, by simpa using hle⟩
  · obtain ⟨hmantissa, hexponent⟩ := carry_of_eq ht
    rw [show s.1.mantissa = 2 ^ 52 from hmantissa, show s.2 = t + 1 from hexponent]
    have hlt : t < e := by
      by_contra hn
      rw [show (e - t).toNat = 0 by omega] at hle
      omega
    refine .inr ⟨⟨by decide, by omega, by omega, .inl (Nat.le_refl _)⟩, ?_⟩
    by_cases hlast : t + 1 = e
    · rw [show (e - t).toNat = 1 by omega] at hle
      exact .inr ⟨hlast, by omega⟩
    · exact .inl (by omega)

/-- Rounding makes the exponent `t`, for which at most 53 bits of the mantissa are left, and then
makes room for a bit that has been carried. -/
theorem round_eq {M k j : Nat} {d t : Int} (hM : 0 < M)
    (ht : t = max ((M.log2 : Int) + 1 + d - 53) (-1074)) (hk : k = (d - t).toNat)
    (hj : d - k + j = t) :
    let R := (ExtendedMantissa.ofMantissaAndAccuracy (M <<< k) .exact >>> j).roundedMantissa
    let s := shiftToTargetExponent .binary64 R t .exact
    round .binary64 .positive M d =
      if h : s.1.mantissa = 0 then .zero .positive
      else .finite .positive s.1.mantissa s.2 (Nat.pos_of_ne_zero h) := by
  intro R s
  have htarget := (target_shift (k := k) hM ht).symm
  have hshift : (t - (d - k)).toNat = j := by omega
  have hfirst : shiftToTargetExponent .binary64 (M <<< k) (d - k) .exact =
      (ExtendedMantissa.ofMantissaAndAccuracy (M <<< k) .exact >>> j, t) := by
    simp only [shiftToTargetExponent, shiftToExponent, targetExponent_eq, totalExponent, htarget,
      hshift, hj]
  unfold UnpackedFloat.round decreaseExponent roundWithAccuracy
  simp only [targetExponent_eq, totalExponent, ← ht, ← hk, hfirst]
  rfl

theorem round_below {m M n : Nat} {d : Int} (hM : 0 < M) (hlt : M < m * 2 ^ n)
    (hm : Canonical m (d + n)) (hmin : -1074 ≤ d) :
    RoundsBelow (round .binary64 .positive M d) m (d + n) := by
  have hlog : M.log2 < 53 + n := by
    refine (Nat.log2_lt (Nat.ne_of_gt hM)).mpr (Nat.lt_of_lt_of_le hlt ?_)
    rw [Nat.pow_add]
    exact Nat.mul_le_mul_right _ (Nat.le_of_lt hm.short)
  obtain ⟨t, ht⟩ : ∃ t, t = max ((M.log2 : Int) + 1 + d - 53) (-1074) := ⟨_, rfl⟩
  obtain ⟨k, hk⟩ : ∃ k, k = (d - t).toNat := ⟨_, rfl⟩
  obtain ⟨j, hj⟩ : ∃ j : Nat, d - k + j = t := ⟨(t - (d - k)).toNat, by omega⟩
  let x := ExtendedMantissa.ofMantissaAndAccuracy (M <<< k) .exact >>> j
  have hfloor : x.mantissa = (M <<< k) / 2 ^ j := shiftRight_mantissa _ _
  have hupper : x.roundedMantissa ≤ (M <<< k) / 2 ^ j + 1 := hfloor ▸ roundedMantissa_le _
  have hlower : (M <<< k) / 2 ^ j ≤ x.roundedMantissa := hfloor ▸ le_roundedMantissa _
  obtain ⟨hshort, hfull⟩ := target_bounds (target_shift hM ht) hj
  have hshift : (M <<< k) / 2 ^ j < m * 2 ^ (d + n - t).toNat := by
    rw [Nat.div_lt_iff_lt_mul (Nat.two_pow_pos j), Nat.shiftLeft_eq, Nat.mul_assoc, ← Nat.pow_add,
      show (d + n - t).toNat + j = n + k by omega, Nat.pow_add, ← Nat.mul_assoc]
    exact Nat.mul_lt_mul_of_pos_right hlt (Nat.two_pow_pos k)
  have hcarried := carried_below hm (by omega) (by omega) (Nat.le_trans hupper hshort)
    (hfull.imp_left (Nat.le_trans · hlower)) (Nat.le_trans hupper hshift)
  rw [round_eq hM ht hk hj]
  split
  · exact .inl rfl
  · rename_i hne
    obtain ⟨hc, hle⟩ := hcarried.resolve_left hne
    exact .inr ⟨_, _, _, rfl, hc, hle⟩

theorem sub_below {b c : Bits} {m₁ m₂ : Nat} {e₁ e₂ : Int} {h₁ : 0 < m₁} {h₂ : 0 < m₂}
    (hb : UnpackedFloat.unpack .binary64 b = .finite .positive m₁ e₁ h₁)
    (hc : UnpackedFloat.unpack .binary64 c = .finite .positive m₂ e₂ h₂)
    (hle : e₂ < e₁ ∨ e₂ = e₁ ∧ m₂ ≤ m₁) :
    RoundsBelow (UnpackedFloat.sub .binary64 (.finite .positive m₁ e₁ h₁)
      (.finite .positive m₂ e₂ h₂)) m₁ e₁ := by
  have hm₁ := canonical_of_unpack hb
  have hm₂ := canonical_of_unpack hc
  have hmin : min e₁ e₂ = e₂ := by omega
  simp only [UnpackedFloat.sub, decreaseExponent, hmin, Int.sub_self, Int.toNat_zero,
    Nat.shiftLeft_zero, Sign.apply]
  obtain ⟨n, rfl⟩ : ∃ n : Nat, e₁ = e₂ + n := ⟨(e₁ - e₂).toNat, by omega⟩
  have hn : (e₂ + n - e₂).toNat = n := by omega
  have hsub : m₂ ≤ m₁ * 2 ^ n := by
    obtain hlt | ⟨heq, hle⟩ := hle
    · have hp : 2 ^ 1 ≤ 2 ^ n := Nat.pow_le_pow_right (by decide) (by omega)
      have hmul := Nat.mul_le_mul (hm₁.full.resolve_right (by have := hm₂.least; omega)) hp
      have hshort := hm₂.short
      omega
    · have hz : n = 0 := by omega
      simpa [hz] using hle
  rw [hn, Nat.shiftLeft_eq]
  unfold UnpackedFloat.normalize
  split
  · rename_i hc
    have := Int.compare_eq_lt.mp hc
    omega
  · exact .inl rfl
  · rename_i hc
    have := Int.compare_eq_gt.mp hc
    exact round_below (by omega) (by omega) hm₁ hm₂.least

theorem sub_le {a b : Float} (ha : Scalar.isFinite a = true) (hb : Scalar.isFinite b = true)
    (hz : Scalar.zero < b) (hle : b ≤ a) : a - b ≤ a := by
  have hlt : Scalar.zero < a := Scalar.lt_of_lt_of_le hz hle
  obtain ⟨m₁, e₁, h₁, hv⟩ := view_of_isPositive (Scalar.isPositive_iff.mpr ⟨ha, hlt⟩)
  obtain ⟨m₂, e₂, h₂, hw⟩ := view_of_isPositive (Scalar.isPositive_iff.mpr ⟨hb, hz⟩)
  have hview : view (a - b) = UnpackedFloat.unpack .binary64 (UnpackedFloat.pack .binary64
      (UnpackedFloat.sub .binary64 (view a) (view b))) := rfl
  rw [hv, hw] at hview
  refine (le_iff _ _).mpr ?_
  obtain hzero | ⟨n, f, h, hfinite, hc, hbelow⟩ := sub_below hv hw (components_le hv hw hle)
  · rw [hview, hzero, hv]
    exact ⟨(0, 0, 0), (1, e₁, m₁), rfl, rfl, .inl Int.zero_lt_one⟩
  · rw [hview, hfinite, unpack_pack hc, hv]
    refine ⟨(1, f, n), (1, e₁, m₁), rfl, rfl, .inr ⟨rfl, ?_⟩⟩
    exact hbelow.imp_right (And.imp_right Int.ofNat_le.mpr)

end LimitBook.Double
