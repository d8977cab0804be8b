import LimitBook.Proofs.Scalar.Difference

namespace LimitBook.Number

open Float.Model Float.Model.UnpackedFloat

namespace Binary

def ofUnpacked : UnpackedFloat → Binary
  | .notANumber => .nan
  | .infinity s => .infinite (s == .negative)
  | .zero s => .finite (s == .negative) 0 (-1074)
  | .finite s m e _ => .finite (s == .negative) m e

theorem toNat_exponentField (b : Double.Bits) :
    (Double.exponentField b).toNat = b.toNat / 2 ^ 52 % 2 ^ 11 := by
  simp [Double.exponentField, unpackExponent, BitVec.extractLsb, Nat.shiftRight_eq_div_pow]

theorem toNat_mantissaField (b : Double.Bits) :
    (Double.mantissaField b).toNat = b.toNat % 2 ^ 52 := by
  simp [Double.mantissaField, unpackMantissa, BitVec.extractLsb]

theorem sign_eq_negative (b : Double.Bits) :
    (Sign.ofBitVec (unpackSign b) == .negative) = (b.toNat / 2 ^ 63 == 1) := by
  have hb : b.toNat < 2 ^ 64 := b.isLt
  have hs : (unpackSign b).toNat = b.toNat / 2 ^ 63 := by
    simp [unpackSign, BitVec.extractLsb, Nat.shiftRight_eq_div_pow]
    omega
  rw [← hs]
  generalize unpackSign b = v
  revert v
  decide

theorem ofFloat_eq (x : Float) : ofFloat x = ofUnpacked (Double.view x) := by
  have hexponent : (Double.exponentField (Double.bits x)).toNat =
      x.toBits.toNat / twoPow 52 % twoPow 11 := toNat_exponentField _
  have hmantissa : (Double.mantissaField (Double.bits x)).toNat = x.toBits.toNat % twoPow 52 :=
    toNat_mantissaField _
  have hsign : (Sign.ofBitVec (unpackSign (Double.bits x)) == .negative) =
      (x.toBits.toNat / twoPow 63 == 1) := sign_eq_negative _
  have hones : unpackExponent (Double.bits x) = -1#_ ↔
      (Double.exponentField (Double.bits x)).toNat = 2047 := BitVec.toNat_inj.symm
  have hnone : unpackExponent (Double.bits x) = 0#_ ↔
      (Double.exponentField (Double.bits x)).toNat = 0 := BitVec.toNat_inj.symm
  have hwhole : unpackMantissa (Double.bits x) = 0#_ ↔
      (Double.mantissaField (Double.bits x)).toNat = 0 := BitVec.toNat_inj.symm
  unfold ofFloat Double.view UnpackedFloat.unpack
  simp only [← hexponent, ← hmantissa, ← hsign, Double.exponentBias_eq]
  split
  · rw [if_pos (hones.mpr ‹_›)]
    split
    · rw [if_pos (hwhole.mpr ‹_›), ofUnpacked]
    · rw [if_neg (hwhole.not.mpr ‹_›), ofUnpacked]
  · rw [if_neg (hones.not.mpr ‹_›)]
    split
    · rename_i hz
      rw [if_pos (hnone.mpr hz)]
      split
      · rename_i hm
        rw [ofUnpacked, hwhole.mp hm]
      · have he : ((Double.exponentField (Double.bits x)).toNat : Int) - (1023 + 52) + 1 = -1074 := by
          omega
        exact congrArg (finite _ _) he.symm
    · rename_i hz
      rw [if_neg (hnone.not.mpr hz), ofUnpacked]
      congr 1
      rw [Double.implicit_toNat]
      exact Nat.add_comm _ _

/-- The value of what is finite. -/
def value? : Binary → Option ℚ
  | .finite negative m e => some ((if negative then -1 else 1) * (m * 2 ^ e))
  | _ => none

theorem whole_eq (m : Nat) (e : Int) : whole m e = ⌊(m * 2 ^ e : ℚ)⌋ := by
  cases e with
  | ofNat e =>
    have h : ((m * 2 ^ (Int.ofNat e) : ℚ)) = ((m * 2 ^ e : Nat) : ℚ) := by
      push_cast
      rfl
    rw [h, Int.floor_natCast]
    rfl
  | negSucc e =>
    have h : (m * 2 ^ (Int.negSucc e) : ℚ) = (m : ℚ) / ((2 ^ (e + 1) : Nat) : ℚ) := by
      rw [zpow_negSucc]
      push_cast
      rfl
    rw [h, Rat.floor_natCast_div_natCast]
    rfl

theorem isWhole_iff (m : Nat) (e : Int) : isWhole m e = true ↔ ∃ n : Int, (m * 2 ^ e : ℚ) = n := by
  cases e with
  | ofNat e => exact iff_of_true rfl ⟨(m * 2 ^ e : Nat), by push_cast; rfl⟩
  | negSucc e =>
    have hunit : (2 : ℚ) ^ (e + 1) ≠ 0 := by positivity
    rw [isWhole, beq_iff_eq, zpow_negSucc, ← Nat.dvd_iff_mod_eq_zero]
    constructor
    · rintro ⟨n, rfl⟩
      refine ⟨n, ?_⟩
      have hpow : ((twoPow (e + 1) : Nat) : ℚ) = 2 ^ (e + 1) := Nat.cast_pow ..
      rw [Nat.cast_mul, hpow]
      push_cast
      field_simp
    · rintro ⟨n, hn⟩
      rw [← div_eq_mul_inv, div_eq_iff hunit] at hn
      have hm : (m : Int) = n * 2 ^ (e + 1) := by exact_mod_cast hn
      exact Int.natCast_dvd_natCast.mp ⟨n, hm.trans (mul_comm ..)⟩

end Binary

def value? (x : Float) : Option ℚ := (Binary.ofFloat x).value?

theorem value?_isSome (x : Float) : (value? x).isSome = x.isFinite := by
  show _ = (Double.view x).isFinite
  unfold value?
  rw [Binary.ofFloat_eq]
  cases Double.view x <;> rfl

theorem floorNat_eq {x : Float} {q : ℚ} (h : value? x = some q) : floorNat x = ⌊q⌋.toNat := by
  unfold value? at h
  unfold floorNat
  cases hx : Binary.ofFloat x with
  | nan | infinite s =>
    rw [hx] at h
    cases h
  | finite negative m e =>
    rw [hx] at h
    obtain rfl := Option.some.inj h
    cases negative with
    | false => simp [← Binary.whole_eq]
    | true =>
      have hnonpos : (-1 * (m * 2 ^ e) : ℚ) ≤ 0 := by
        have : (0 : ℚ) ≤ m * 2 ^ e := by positivity
        linarith
      exact (Int.toNat_eq_zero.mpr (Int.floor_nonpos hnonpos)).symm

theorem isInteger_iff (x : Float) : isInteger x = true ↔ ∃ n : Int, value? x = some (n : ℚ) := by
  unfold isInteger value?
  cases Binary.ofFloat x with
  | nan | infinite s => simp [Binary.value?]
  | finite negative m e =>
    simp only [Binary.isWhole_iff, Binary.value?, Option.some.injEq]
    cases negative with
    | false => simp
    | true =>
      constructor
      · rintro ⟨n, hn⟩
        exact ⟨-n, by simp [hn]⟩
      · rintro ⟨n, hn⟩
        exact ⟨-n, by simp [← hn]⟩

theorem scaled_le {m n : Nat} {e f : Int} (hm : Double.Canonical m e) (hn : Double.Canonical n f)
    (h : e < f ∨ e = f ∧ m ≤ n) : (m * 2 ^ e : ℚ) ≤ n * 2 ^ f := by
  obtain hlt | ⟨rfl, hle⟩ := h
  · have hfull : 2 ^ 52 ≤ n := hn.full.resolve_right (by have := hm.least; omega)
    have hshort : (m : ℚ) ≤ 2 ^ 53 := by exact_mod_cast hm.short.le
    calc (m * 2 ^ e : ℚ) ≤ 2 ^ 53 * 2 ^ e := by gcongr
      _ = 2 ^ 52 * 2 ^ (e + 1) := by
        rw [zpow_add₀ two_ne_zero]
        ring
      _ ≤ n * 2 ^ f := by
        gcongr
        · exact_mod_cast hfull
        · exact one_le_two
        · exact hlt
  · gcongr

theorem rank_of_value {x : Float} {q : ℚ} (h : value? x = some q) :
    q = 0 ∧ Double.rank (Double.view x) = some (0, 0, 0) ∨
      ∃ (m : Nat) (e : Int), Double.Canonical m e ∧
        (q = m * 2 ^ e ∧ Double.rank (Double.view x) = some (1, e, (m : Int)) ∨
          q = -(m * 2 ^ e) ∧ Double.rank (Double.view x) = some (-1, -e, -(m : Int))) := by
  unfold value? at h
  rw [Binary.ofFloat_eq] at h
  cases hv : Double.view x with
  | notANumber | infinity s => simp [hv, Binary.ofUnpacked, Binary.value?] at h
  | zero s => 
    refine .inl ⟨?_, rfl⟩
    simpa [hv, Binary.ofUnpacked, Binary.value?] using h.symm
  | finite s m e hm =>
    refine .inr ⟨m, e, Double.canonical_of_unpack hv, ?_⟩
    cases s with
    | positive => exact .inl ⟨by simpa [hv, Binary.ofUnpacked, Binary.value?] using h.symm, rfl⟩
    | negative => exact .inr ⟨by simpa [hv, Binary.ofUnpacked, Binary.value?] using h.symm, rfl⟩

theorem value_mono {x y : Float} {q r : ℚ} (hx : value? x = some q) (hy : value? y = some r)
    (h : x ≤ y) : q ≤ r := by
  obtain ⟨k, l, hk, hl, hb⟩ := (Double.le_iff x y).mp h
  have hpos : ∀ (m : Nat) (e : Int), (0 : ℚ) ≤ m * 2 ^ e := fun m e => by positivity
  unfold Double.Below at hb
  obtain ⟨rfl, hq⟩ | ⟨m, e, hm, ⟨rfl, hq⟩ | ⟨rfl, hq⟩⟩ := rank_of_value hx <;>
    obtain ⟨rfl, hr⟩ | ⟨n, f, hn, ⟨rfl, hr⟩ | ⟨rfl, hr⟩⟩ := rank_of_value hy <;>
    obtain rfl := Option.some.inj (hk.symm.trans hq) <;>
    obtain rfl := Option.some.inj (hl.symm.trans hr) <;>
    simp only at hb
  · rfl
  · exact hpos n f
  · omega
  · omega
  · exact scaled_le hm hn (by omega)
  · omega
  · have := hpos m e; linarith
  · have := hpos m e; have := hpos n f; linarith
  · exact neg_le_neg (scaled_le hn hm (by omega))

end LimitBook.Number
