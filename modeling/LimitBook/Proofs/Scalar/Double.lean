import Mathlib
import LimitBook.Proofs.Scalar

namespace LimitBook.Double

open Float.Model Float.Model.UnpackedFloat

/-- Where a number stands among all others: its kind from least to greatest, then its exponent and
its mantissa. -/
def rank : UnpackedFloat → Option (Int × Int × Int)
  | .notANumber => none
  | .infinity .negative => some (-2, 0, 0)
  | .finite .negative m e _ => some (-1, -e, -m)
  | .zero _ => some (0, 0, 0)
  | .finite .positive m e _ => some (1, e, m)
  | .infinity .positive => some (2, 0, 0)

def order (x y : Int × Int × Int) : Ordering :=
  (compare x.1 y.1).then ((compare x.2.1 y.2.1).then (compare x.2.2 y.2.2))

def Below (x y : Int × Int × Int) : Prop :=
  x.1 < y.1 ∨ x.1 = y.1 ∧ (x.2.1 < y.2.1 ∨ x.2.1 = y.2.1 ∧ x.2.2 ≤ y.2.2)

theorem compare_eq_rank (a b : UnpackedFloat) :
    a.compare b = (rank a).bind fun x => (rank b).map fun y => order x y := by
  obtain (_ | _) | _ | _ | ⟨(_ | _), m, e, _⟩ := a <;>
    obtain (_ | _) | _ | _ | ⟨(_ | _), n, f, _⟩ := b <;>
    simp [rank, order, UnpackedFloat.compare, compare, compareOfLessAndEq]
  all_goals grind [Ordering.swap, Ordering.then]

theorem order_isLE (x y : Int × Int × Int) : (order x y).isLE = true ↔ Below x y := by
  obtain ⟨a, b, c⟩ := x
  obtain ⟨d, e, f⟩ := y
  simp only [order, Below, compare, compareOfLessAndEq]
  grind [Ordering.isLE, Ordering.then]

theorem order_eq_lt (x y : Int × Int × Int) : order x y = .lt ↔ ¬Below y x := by
  obtain ⟨a, b, c⟩ := x
  obtain ⟨d, e, f⟩ := y
  simp only [order, Below, compare, compareOfLessAndEq]
  grind [Ordering.then]

theorem order_eq_eq (x y : Int × Int × Int) : order x y = .eq ↔ x = y := by
  obtain ⟨a, b, c⟩ := x
  obtain ⟨d, e, f⟩ := y
  simp only [order, compare, compareOfLessAndEq]
  grind [Ordering.then]

abbrev Bits := BitVec Format.binary64.numBits

def exponentField (b : Bits) : BitVec 11 := unpackExponent b

def mantissaField (b : Bits) : BitVec 52 := unpackMantissa b

theorem eq_of_fields {b c : Bits} (hs : unpackSign b = unpackSign c)
    (he : exponentField b = exponentField c) (hm : mantissaField b = mantissaField c) : b = c := by
  apply BitVec.eq_of_getLsbD_eq
  intro i hi
  by_cases h1 : i < 52
  · have h := congrArg (fun v => BitVec.getLsbD v i) hm
    simpa [mantissaField, unpackMantissa, h1] using h
  · by_cases h2 : i < 63
    · have h := congrArg (fun v => BitVec.getLsbD v (i - 52)) he
      simpa [exponentField, unpackExponent, show i - 52 < 11 by omega,
        show 52 + (i - 52) = i by omega] using h
    · have h := congrArg (fun v => BitVec.getLsbD v 0) hs
      have h64 : i < 64 := hi
      have h63 : i = 63 := by omega
      simpa [unpackSign, h63] using h

theorem exponentBias_eq : Format.binary64.exponentBias = 1023 := by decide

theorem implicit_toNat (v : BitVec 52) : (1#1 ++ v).toNat = 2 ^ 52 + v.toNat := by
  rw [BitVec.toNat_append, ← Nat.shiftLeft_add_eq_or_of_lt v.isLt]
  simp [Nat.shiftLeft_eq]

theorem fields_of_unpack {b : Bits} {s : Sign} {m : Nat} {e : Int} {h : 0 < m}
    (hb : UnpackedFloat.unpack .binary64 b = .finite s m e h) :
    Sign.ofBitVec (unpackSign b) = s ∧ exponentField b ≠ -1#11 ∧
      (exponentField b = 0#11 ∧ m = (mantissaField b).toNat ∧ e = -1074 ∨
        exponentField b ≠ 0#11 ∧ m = 2 ^ 52 + (mantissaField b).toNat ∧
          e = (exponentField b).toNat - 1075) := by
  unfold UnpackedFloat.unpack at hb
  simp only [exponentBias_eq] at hb
  split at hb
  · split at hb <;> cases hb
  · rename_i hne
    split at hb
    · rename_i hz
      split at hb
      · cases hb
      · injection hb with hs hm he
        refine ⟨hs, hne, .inl ⟨hz, hm.symm, ?_⟩⟩
        rw [hz] at he
        simpa using he.symm
    · rename_i hz
      injection hb with hs hm he
      refine ⟨hs, hne, .inr ⟨hz, ?_, he.symm⟩⟩
      rw [← hm]
      exact implicit_toNat _

/-- The mantissa has 53 bits at most, the exponent is none too large, and a mantissa of fewer bits
goes with the least exponent alone. -/
theorem bounds_of_unpack {b : Bits} {s : Sign} {m : Nat} {e : Int} {h : 0 < m}
    (hb : UnpackedFloat.unpack .binary64 b = .finite s m e h) :
    m < 2 ^ 53 ∧ -1074 ≤ e ∧ e ≤ 971 ∧ (2 ^ 52 ≤ m ∨ e = -1074) := by
  obtain ⟨-, hne, hf⟩ := fields_of_unpack hb
  have hm := (mantissaField b).isLt
  have he := (exponentField b).isLt
  have hmax : (exponentField b).toNat ≠ 2047 := fun h => hne (BitVec.eq_of_toNat_eq h)
  obtain ⟨-, rfl, rfl⟩ | ⟨hz, rfl, rfl⟩ := hf
  · exact ⟨by omega, by omega, by omega, .inr rfl⟩
  · have hmin : (exponentField b).toNat ≠ 0 := fun h => hz (BitVec.eq_of_toNat_eq h)
    exact ⟨by omega, by omega, by omega, .inl (by omega)⟩

theorem toBitVec_ofBitVec (v : BitVec 1) : (Sign.ofBitVec v).toBitVec = v := by
  revert v
  decide

theorem sign_inj {v w : BitVec 1} (h : Sign.ofBitVec v = Sign.ofBitVec w) : v = w := by
  rw [← toBitVec_ofBitVec v, h, toBitVec_ofBitVec]

theorem unpack_inj {b c : Bits} {s : Sign} {m : Nat} {e : Int} {h : 0 < m}
    (hb : UnpackedFloat.unpack .binary64 b = .finite s m e h)
    (hc : UnpackedFloat.unpack .binary64 c = .finite s m e h) : b = c := by
  obtain ⟨hbs, -, hbf⟩ := fields_of_unpack hb
  obtain ⟨hcs, -, hcf⟩ := fields_of_unpack hc
  have hbm := (mantissaField b).isLt
  have hcm := (mantissaField c).isLt
  refine eq_of_fields (sign_inj (hbs.trans hcs.symm)) (BitVec.eq_of_toNat_eq ?_)
    (BitVec.eq_of_toNat_eq ?_)
  · obtain ⟨hbz, hm, he⟩ | ⟨hbz, hm, he⟩ := hbf <;>
      obtain ⟨hcz, hm', he'⟩ | ⟨hcz, hm', he'⟩ := hcf
    · rw [hbz, hcz]
    · omega
    · omega
    · omega
  · obtain ⟨hbz, hm, he⟩ | ⟨hbz, hm, he⟩ := hbf <;>
      obtain ⟨hcz, hm', he'⟩ | ⟨hcz, hm', he'⟩ := hcf <;> omega

/-- Does a number pack into a finite double, whatever its mantissa? -/
def Fits : UnpackedFloat → Prop
  | .zero _ => True
  | .finite _ _ e _ => e ≤ 971
  | _ => False

theorem isFinite_pack {u : UnpackedFloat} (h : Fits u) : (Float.Model.pack u).isFinite = true := by
  have hne : exponentField (UnpackedFloat.pack .binary64 u) ≠ -1#11 := by
    cases u with
    | notANumber | infinity s => exact h.elim
    | zero s => simp [exponentField, UnpackedFloat.pack, packedZero]
    | finite s m e hm =>
      have he : e ≤ 971 := h
      have hn : (-1#11).toNat = 2047 := rfl
      unfold UnpackedFloat.pack
      simp only [exponentBias_eq]
      split
      · rename_i hc
        have hc : 2 ^ 11 ≤ (e + 1023 + 52).toNat + 1 := hc
        omega
      · split
        · intro heq
          have h := congrArg BitVec.toNat heq
          simp only [exponentField, unpackExponent_packComponents, BitVec.toNat_ofNat, hn] at h
          have h : (e + 1023 + 52).toNat % 2 ^ 11 = 2047 := h
          omega
        · simp [exponentField]
  show UnpackedFloat.isFinite
    (UnpackedFloat.unpack .binary64 (UnpackedFloat.pack .binary64 u)) = true
  unfold UnpackedFloat.unpack
  simp only
  split
  · exact absurd ‹_› hne
  · split
    · split <;> rfl
    · rfl

theorem shiftRight_mantissa (em : ExtendedMantissa) (k : Nat) :
    (em >>> k).mantissa = em.mantissa / 2 ^ k := by
  induction k with
  | zero => simp [HShiftRight.hShiftRight, Nat.repeat]
  | succ k ih =>
    show (ExtendedMantissa.shiftRightOne (em >>> k)).mantissa = _
    rw [ExtendedMantissa.shiftRightOne, ih, Nat.div_div_eq_div_mul, Nat.pow_succ]

theorem roundedMantissa_le (em : ExtendedMantissa) : em.roundedMantissa ≤ em.mantissa + 1 := by
  obtain ⟨m, r, t⟩ := em
  cases r <;> cases t <;>
    simp [ExtendedMantissa.roundedMantissa, ExtendedMantissa.accuracy,
      Accuracy.roundToNearestEven]
  omega

theorem targetExponent_eq (t : Int) :
    Format.binary64.targetExponent t = max (t - 53) (-1074) := by
  have h : Format.binary64.minExponent = -1074 := by decide
  simp only [Format.targetExponent, h]
  rfl

theorem log2_le_of_lt {m k : Nat} (h : m < 2 ^ (k + 1)) : m.log2 ≤ k := by
  by_cases hm : m = 0
  · simp [hm]
  · exact Nat.lt_succ_iff.mp ((Nat.log2_lt hm).mpr h)

/-- Rounding takes the exponent no further than to `e`, if the mantissa fits there even when it is
rounded up. -/
theorem roundWithAccuracy_fits {s : Sign} {M : Nat} {d e : Int} (hd : d ≤ e) (he : e ≤ 971)
    (hmin : -1074 ≤ d) (hM : (M.log2 : Int) + 1 + d ≤ 53 + e)
    (hup : M / 2 ^ (e - d).toNat + 1 < 2 ^ 53) :
    Fits (roundWithAccuracy .binary64 s M d .exact) := by
  unfold roundWithAccuracy shiftToTargetExponent shiftToExponent
  simp only [targetExponent_eq, totalExponent]
  split
  · trivial
  · show _ ≤ (971 : Int)
    generalize hk : (max ((M.log2 : Int) + 1 + d - 53) (-1074) - d).toNat = k
    generalize hR : (ExtendedMantissa.ofMantissaAndAccuracy M .exact >>> k).roundedMantissa = R
    have hle : R ≤ M / 2 ^ k + 1 := by
      rw [← hR]
      refine Nat.le_trans (roundedMantissa_le _) ?_
      rw [shiftRight_mantissa]
      exact Nat.le_refl _
    have hke : (k : Int) ≤ e - d := by omega
    by_cases hlast : (k : Int) = e - d
    · have hke : (e - d).toNat = k := by omega
      rw [hke] at hup
      have hlog : R.log2 ≤ 52 := log2_le_of_lt (Nat.lt_of_le_of_lt hle hup)
      omega
    · have hq : M / 2 ^ k < 2 ^ 53 := by
        rw [Nat.div_lt_iff_lt_mul (Nat.two_pow_pos k), ← Nat.pow_add]
        exact Nat.lt_of_lt_of_le Nat.lt_log2_self (Nat.pow_le_pow_right (by decide) (by omega))
      have hlog : R.log2 ≤ 53 := log2_le_of_lt (by omega)
      omega

theorem log2_shiftLeft {m : Nat} (hm : 0 < m) (k : Nat) : (m <<< k).log2 = m.log2 + k := by
  rw [Nat.shiftLeft_eq]
  have hlo := Nat.log2_self_le (Nat.ne_of_gt hm)
  have hhi := @Nat.lt_log2_self m
  have hp := Nat.mul_pos hm (Nat.two_pow_pos k)
  refine Nat.le_antisymm (log2_le_of_lt ?_) ((Nat.le_log2 (Nat.ne_of_gt hp)).mpr ?_)
  · rw [show m.log2 + k + 1 = m.log2 + 1 + k by omega, Nat.pow_add]
    exact Nat.mul_lt_mul_of_pos_right hhi (Nat.two_pow_pos k)
  · rw [Nat.pow_add]
    exact Nat.mul_le_mul_right _ hlo

theorem round_fits {s : Sign} {m M n : Nat} {d : Int} (hM : 0 < M) (hlt : M < m * 2 ^ n)
    (hm : m < 2 ^ 53) (hmin : -1074 ≤ d) (hmax : d + n ≤ 971) :
    Fits (round .binary64 s M d) := by
  have hlog : M.log2 < 53 + n := by
    refine (Nat.log2_lt (Nat.ne_of_gt hM)).mpr (Nat.lt_of_lt_of_le hlt ?_)
    rw [Nat.pow_add]
    exact Nat.mul_le_mul_right _ (Nat.le_of_lt hm)
  have hdiv : M / 2 ^ n < m := (Nat.div_lt_iff_lt_mul (Nat.two_pow_pos n)).mpr hlt
  unfold UnpackedFloat.round decreaseExponent
  simp only [targetExponent_eq, totalExponent]
  generalize hk : (d - max ((M.log2 : Int) + 1 + d - 53) (-1074)).toNat = k
  refine roundWithAccuracy_fits (e := d + n) (by omega) hmax (by omega) ?_ ?_
  · rw [log2_shiftLeft hM]
    push_cast
    omega
  · have hn : (d + n - (d - k)).toNat = n + k := by omega
    rw [hn, Nat.shiftLeft_eq, Nat.pow_add, Nat.mul_div_mul_right _ _ (Nat.two_pow_pos k)]
    omega

theorem sub_self_unpacked {u : UnpackedFloat} (h : u.isFinite = true) :
    UnpackedFloat.sub .binary64 u u = .zero .positive := by
  cases u with
  | notANumber | infinity s => simp [UnpackedFloat.isFinite] at h
  | zero s => cases s <;> rfl
  | finite s m e hm =>
    simp only [UnpackedFloat.sub, Int.sub_self, UnpackedFloat.normalize]
    rfl

theorem sub_fits {b c : Bits} {m₁ m₂ : Nat} {e₁ e₂ : Int} {h₁ : 0 < m₁} {h₂ : 0 < m₂}
    (hb : UnpackedFloat.unpack .binary64 b = .finite .positive m₁ e₁ h₁)
    (hc : UnpackedFloat.unpack .binary64 c = .finite .positive m₂ e₂ h₂)
    (hle : e₂ < e₁ ∨ e₂ = e₁ ∧ m₂ ≤ m₁) :
    Fits (UnpackedFloat.sub .binary64 (.finite .positive m₁ e₁ h₁)
      (.finite .positive m₂ e₂ h₂)) := by
  obtain ⟨hm₁, hl₁, hu₁, hf₁⟩ := bounds_of_unpack hb
  obtain ⟨hm₂, hl₂, hu₂, hf₂⟩ := bounds_of_unpack hc
  have hmin : min e₁ e₂ = e₂ := by omega
  simp only [UnpackedFloat.sub, decreaseExponent, hmin, Int.sub_self, Int.toNat_zero,
    Nat.shiftLeft_zero, Sign.apply]
  generalize hn : (e₁ - e₂).toNat = n
  have hsub : m₂ ≤ m₁ <<< n := by
    rw [Nat.shiftLeft_eq]
    obtain hlt | ⟨heq, hle⟩ := hle
    · have hp : 2 ^ 1 ≤ 2 ^ n := Nat.pow_le_pow_right (by decide) (by omega)
      have hmul := Nat.mul_le_mul (hf₁.resolve_right (by omega)) hp
      omega
    · have hz : n = 0 := by omega
      simpa [hz] using hle
  unfold UnpackedFloat.normalize
  split
  · rename_i hc
    have := Int.compare_eq_lt.mp hc
    omega
  · trivial
  · refine round_fits (m := m₁) (n := n) ?_ ?_ hm₁ hl₂ (by omega)
    · rename_i hc
      have := Int.compare_eq_gt.mp hc
      omega
    · rw [← Nat.shiftLeft_eq]
      omega

def bits (a : Float) : Bits := a.toModel.toBits.toBitVec

def view (a : Float) : UnpackedFloat := UnpackedFloat.unpack .binary64 (bits a)

theorem le_iff (a b : Float) :
    a ≤ b ↔ ∃ x y, rank (view a) = some x ∧ rank (view b) = some y ∧ Below x y := by
  have h : a ≤ b ↔ ((view a).compare (view b)).any (·.isLE) = true := by
    show decide _ = true ↔ _
    exact decide_eq_true_iff
  rw [h, compare_eq_rank]
  cases rank (view a) <;> cases rank (view b) <;> simp [order_isLE]

theorem lt_iff (a b : Float) :
    a < b ↔ ∃ x y, rank (view a) = some x ∧ rank (view b) = some y ∧ ¬Below y x := by
  have h : a < b ↔ ((view a).compare (view b) == some .lt) = true := by
    show decide _ = true ↔ _
    exact decide_eq_true_iff
  rw [h, compare_eq_rank]
  cases rank (view a) <;> cases rank (view b) <;> simp [order_eq_lt]

theorem beq_iff (a b : Float) :
    (a == b) = true ↔ ∃ x y, rank (view a) = some x ∧ rank (view b) = some y ∧ x = y := by
  have h : (a == b) = ((view a).compare (view b) == some .eq) := rfl
  rw [h, compare_eq_rank]
  cases rank (view a) with
  | none => simp
  | some x =>
    cases rank (view b) with
    | none => simp
    | some y =>
      have hbeq : (some (order x y) == some .eq) = true ↔ x = y :=
        beq_iff_eq.trans (Option.some_inj.trans (order_eq_eq x y))
      refine hbeq.trans ⟨fun hxy => ⟨x, y, rfl, rfl, hxy⟩, ?_⟩
      rintro ⟨_, _, ⟨⟩, ⟨⟩, hxy⟩
      exact hxy

theorem Below.refl (x : Int × Int × Int) : Below x x := by
  unfold Below
  omega

theorem Below.trans {x y z : Int × Int × Int} (h : Below x y) (h' : Below y z) : Below x z := by
  unfold Below at *
  omega

theorem Below.total (x y : Int × Int × Int) : Below x y ∨ Below y x := by
  unfold Below
  omega

theorem Below.antisymm {x y : Int × Int × Int} (h : Below x y) (h' : Below y x) : x = y := by
  obtain ⟨a, b, c⟩ := x
  obtain ⟨d, e, f⟩ := y
  simp only [Below] at h h'
  simp only [Prod.mk.injEq]
  omega

theorem isFinite_eq (a : Float) : Scalar.isFinite a = (view a).isFinite := rfl

theorem rank_of_isFinite {u : UnpackedFloat} (h : u.isFinite = true) : ∃ x, rank u = some x := by
  obtain _ | _ | _ | ⟨(_ | _), _⟩ := u <;> simp_all [UnpackedFloat.isFinite, rank]

theorem view_of_zero_lt {a : Float} (h : Scalar.zero < a) :
    view a = .infinity .positive ∨ ∃ m e, ∃ hm : 0 < m, view a = .finite .positive m e hm := by
  obtain ⟨x, y, hx, hy, hlt⟩ := (lt_iff _ _).mp h
  have hz : rank (view Scalar.zero) = some (0, 0, 0) := rfl
  obtain rfl : (0, 0, 0) = x := Option.some.inj (hz.symm.trans hx)
  rcases hv : view a with (_ | _) | _ | _ | ⟨(_ | _), m, e, hm⟩ <;> rw [hv] at hy <;>
    simp only [rank, Option.some.injEq, reduceCtorEq] at hy
  · subst hy
    simp [Below] at hlt
  · exact .inl rfl
  · subst hy
    simp [Below] at hlt
  · subst hy
    simp [Below] at hlt
  · exact .inr ⟨m, e, hm, rfl⟩

theorem view_of_isPositive {a : Float} (h : Scalar.isPositive a = true) :
    ∃ m e, ∃ hm : 0 < m, view a = .finite .positive m e hm := by
  obtain ⟨hf, hz⟩ := Scalar.isPositive_iff.mp h
  refine (view_of_zero_lt hz).resolve_left fun hv => ?_
  rw [isFinite_eq, hv] at hf
  cases hf

theorem eq_of_bits {a b : Float} (h : bits a = bits b) : a = b := by
  obtain ⟨⟨x, _⟩⟩ := a
  obtain ⟨⟨y, _⟩⟩ := b
  have hxy : x = y := UInt64.toBitVec_inj.mp h
  subst hxy
  rfl

theorem eq_of_rank {a b : Float} (ha : Scalar.isPositive a = true)
    (h : rank (view b) = rank (view a)) : a = b := by
  obtain ⟨m, e, hm, hv⟩ := view_of_isPositive ha
  rw [hv] at h
  rcases hw : view b with (_ | _) | _ | _ | ⟨(_ | _), n, f, hn⟩ <;> rw [hw] at h <;>
    simp [rank] at h
  obtain ⟨rfl, hmn⟩ := h
  obtain rfl : n = m := by omega
  exact eq_of_bits (unpack_inj hv hw)

theorem components_le {a b : Float} {m₁ m₂ : Nat} {e₁ e₂ : Int} {h₁ : 0 < m₁} {h₂ : 0 < m₂}
    (hv : view a = .finite .positive m₁ e₁ h₁) (hw : view b = .finite .positive m₂ e₂ h₂)
    (hle : b ≤ a) : e₂ < e₁ ∨ e₂ = e₁ ∧ m₂ ≤ m₁ := by
  obtain ⟨x, y, hx, hy, h⟩ := (le_iff _ _).mp hle
  rw [hw] at hx
  rw [hv] at hy
  cases hx
  cases hy
  simpa [Below] using h

theorem isFinite_sub {a b : Float} (ha : Scalar.isFinite a = true) (hb : Scalar.isFinite b = true)
    (hz : Scalar.zero < b) (hle : b ≤ a) : Scalar.isFinite (a - b) = true := by
  have hlt : Scalar.zero < a := by
    obtain ⟨x, y, hx, hy, h⟩ := (lt_iff _ _).mp hz
    obtain ⟨y', w, hy', hw, h'⟩ := (le_iff _ _).mp hle
    rw [hy] at hy'
    cases hy'
    exact (lt_iff _ _).mpr ⟨x, w, hx, hw, fun hwx => h (h'.trans hwx)⟩
  obtain ⟨m₁, e₁, h₁, hv⟩ := view_of_isPositive (Scalar.isPositive_iff.mpr ⟨ha, hlt⟩)
  obtain ⟨m₂, e₂, h₂, hw⟩ := view_of_isPositive (Scalar.isPositive_iff.mpr ⟨hb, hz⟩)
  have hfit := sub_fits hv hw (components_le hv hw hle)
  show (Float.Model.pack (UnpackedFloat.sub _ (view a) (view b))).isFinite = true
  rw [hv, hw]
  exact isFinite_pack hfit

theorem isFinite_sub_of_nonneg {a b : Float} (ha : Scalar.isFinite a = true)
    (hb : Scalar.isFinite b = true) (hz : Scalar.zero ≤ b) (hle : b ≤ a) :
    Scalar.isFinite (a - b) = true := by
  by_cases hlt : Scalar.zero < b
  · exact isFinite_sub ha hb hlt hle
  · have hzero : rank (view b) = some (0, 0, 0) := by
      obtain ⟨x, y, hx, hy, h⟩ := (le_iff _ _).mp hz
      have hle : Below y x := by
        by_contra hn
        exact hlt ((lt_iff _ _).mpr ⟨x, y, hx, hy, hn⟩)
      rw [hy, h.antisymm hle |>.symm, ← hx]
      rfl
    show (Float.Model.pack (UnpackedFloat.sub _ (view a) (view b))).isFinite = true
    refine isFinite_pack ?_
    rw [isFinite_eq] at ha
    rcases hw : view b with (_ | _) | _ | t | ⟨(_ | _), n, f, hn⟩ <;> rw [hw] at hzero <;>
      simp [rank] at hzero
    rcases hv : view a with s | _ | s | ⟨s, m, e, hm⟩ <;> rw [hv] at ha <;>
      simp only [UnpackedFloat.isFinite, Bool.false_eq_true] at ha
    · cases s <;> cases t <;> trivial
    · exact (bounds_of_unpack hv).2.2.1

theorem sub_self {a : Float} (h : Scalar.isFinite a = true) : a - a = Scalar.zero := by
  show Float.ofModel (Float.Model.pack (UnpackedFloat.sub _ (view a) (view a))) = _
  have hz : UnpackedFloat.sub .binary64 (view a) (view a) = .zero .positive := sub_self_unpacked h
  rw [hz]
  rfl

instance : Scalar.Lawful Float where
  lt_iff {a b} := by
    rw [lt_iff, le_iff, le_iff]
    constructor
    · rintro ⟨x, y, hx, hy, h⟩
      refine ⟨⟨x, y, hx, hy, (Below.total x y).resolve_right h⟩, ?_⟩
      rintro ⟨y', x', hy', hx', h'⟩
      rw [hx] at hx'
      rw [hy] at hy'
      cases hx'
      cases hy'
      exact h h'
    · rintro ⟨⟨x, y, hx, hy, _⟩, h⟩
      exact ⟨x, y, hx, hy, fun h' => h ⟨y, x, hy, hx, h'⟩⟩
  beq_iff {a b} := by
    rw [beq_iff, le_iff, le_iff]
    constructor
    · rintro ⟨x, _, hx, hy, rfl⟩
      exact ⟨⟨x, x, hx, hy, .refl x⟩, ⟨x, x, hy, hx, .refl x⟩⟩
    · rintro ⟨⟨x, y, hx, hy, h⟩, ⟨y', x', hy', hx', h'⟩⟩
      rw [hx] at hx'
      rw [hy] at hy'
      cases hx'
      cases hy'
      exact ⟨x, y, hx, hy, h.antisymm h'⟩
  le_trans {a b c} hab hbc := by
    obtain ⟨x, y, hx, hy, h⟩ := (le_iff a b).mp hab
    obtain ⟨y', z, hy', hz, h'⟩ := (le_iff b c).mp hbc
    rw [hy] at hy'
    cases hy'
    exact (le_iff a c).mpr ⟨x, z, hx, hz, h.trans h'⟩
  le_total {a b} ha hb := by
    obtain ⟨x, hx⟩ := rank_of_isFinite ha
    obtain ⟨y, hy⟩ := rank_of_isFinite hb
    rw [le_iff, le_iff]
    obtain h | h := Below.total x y
    · exact .inl ⟨x, y, hx, hy, h⟩
    · exact .inr ⟨y, x, hy, hx, h⟩
  eq_of_le_of_le {a b} ha hab hba := by
    obtain ⟨x, y, hx, hy, h⟩ := (le_iff a b).mp hab
    obtain ⟨y', x', hy', hx', h'⟩ := (le_iff b a).mp hba
    rw [hx] at hx'
    rw [hy] at hy'
    cases hx'
    cases hy'
    exact eq_of_rank ha (hy.trans ((congrArg some (h.antisymm h')).symm.trans hx.symm))
  finite_zero := by decide
  finite_dust := by decide
  zero_lt_dust := by decide
  finite_sub := isFinite_sub
  sub_self_lt {a} ha := by
    rw [sub_self ha]
    decide

end LimitBook.Double
