import LimitBook.Proofs.Number.Decimal
import LimitBook.Proofs.Number.Value

namespace LimitBook.Number

open Float.Model Float.Model.UnpackedFloat Double

variable {x y : Float} {q r : ℚ}

theorem value?_view (x : Float) : value? x = (Binary.ofUnpacked (view x)).value? := by
  rw [value?, Binary.ofFloat_eq]

theorem value?_of_isNaN (h : x.isNaN = true) : value? x = none := by
  have hnan : (view x).isNaN = true := h
  rw [value?_view]
  cases hv : view x with
  | notANumber => rfl
  | infinity | zero | finite =>
    rw [hv] at hnan
    cases hnan

theorem isFinite_of_value (h : value? x = some q) : Scalar.isFinite x = true :=
  (value?_isSome x).symm.trans (h ▸ rfl)

theorem rank_inj (hx : value? x = some q) (hy : value? y = some q) :
    rank (view x) = rank (view y) := by
  have hpos : ∀ {m : Nat} (e : Int), 0 < m → (0 : ℚ) < m * 2 ^ e := fun e hm =>
    mul_pos (by exact_mod_cast hm) (by positivity)
  have hsame : ∀ {m n : Nat} {e f : Int}, Canonical m e → Canonical n f →
      (m * 2 ^ e : ℚ) = n * 2 ^ f → m = n ∧ e = f := fun hm hn h =>
    (near_self _ _).unique hm.regular (h ▸ near_self _ _) hn.regular
  rw [value?_view] at hx hy
  -- The sign of a value is that of its double, unless the double is a zero.
  have hminus : (Sign.negative == Sign.negative) = true := rfl
  have hplus : (Sign.positive == Sign.negative) = false := rfl
  cases hv : view x <;> cases hw : view y <;> rw [hv] at hx <;> rw [hw] at hy <;>
    simp only [Binary.ofUnpacked, Binary.value?, reduceCtorEq, Option.some.injEq,
      Nat.cast_zero, zero_mul, mul_zero] at hx hy
  · rfl
  · rename_i s t n f hn
    have hy' := hpos f hn
    cases t <;> simp only [hminus, hplus, Bool.false_eq_true, if_true, if_false] at hy <;> linarith
  · rename_i s m e hm t
    have hx' := hpos e hm
    cases s <;> simp only [hminus, hplus, Bool.false_eq_true, if_true, if_false] at hx <;> linarith
  · rename_i s m e hm t n f hn
    have hx' := hpos e hm
    have hy' := hpos f hn
    cases s <;> cases t <;>
      simp only [hminus, hplus, Bool.false_eq_true, if_true, if_false] at hx hy
    · obtain ⟨rfl, rfl⟩ := hsame (canonical_of_unpack hv) (canonical_of_unpack hw) (by linarith)
      rfl
    · linarith
    · linarith
    · obtain ⟨rfl, rfl⟩ := hsame (canonical_of_unpack hv) (canonical_of_unpack hw) (by linarith)
      rfl

theorem le_iff_value (hx : value? x = some q) (hy : value? y = some r) : x ≤ y ↔ q ≤ r := by
  refine ⟨value_mono hx hy, fun h => ?_⟩
  obtain hle | hge := Scalar.Lawful.le_total (isFinite_of_value hx) (isFinite_of_value hy)
  · exact hle
  · obtain rfl : q = r := le_antisymm h (value_mono hy hx hge)
    obtain ⟨k, hk⟩ := rank_of_isFinite (isFinite_of_value hx)
    exact (le_iff x y).mpr ⟨k, k, hk, (rank_inj hx hy).symm.trans hk, .refl k⟩

theorem lt_iff_value (hx : value? x = some q) (hy : value? y = some r) : x < y ↔ q < r := by
  rw [← not_le, ← le_iff_value hy hx,
    ← Scalar.not_lt_iff (isFinite_of_value hx) (isFinite_of_value hy), not_not]

theorem value?_ofNat {n : Nat} (hn : n < 2 ^ 53) : value? (Float.ofNat n) = some (n : ℚ) := by
  obtain rfl | hpos := Nat.eq_zero_or_pos n
  · have hview : view (Float.ofNat 0) = .zero .positive := rfl
    rw [value?_view, hview]
    simp [Binary.ofUnpacked, Binary.value?]
  · obtain ⟨m, e, hm, hv, hvalue⟩ := exact_of_lt hpos hn
    have hnearest := ofScientific_nearest hpos false 0
    rw [if_neg Bool.false_ne_true, Nat.cast_zero, zpow_zero, mul_one, ← hvalue] at hnearest
    have hview : view (Float.ofNat n) = .finite .positive m e hm :=
      hnearest.eq_finite hm (canonical_of_unpack hv) (near_self m e)
    rw [value?_view, hview, ← hvalue]
    simp [Binary.ofUnpacked, Binary.value?]

theorem truncate_eq {n : Int} (h : value? x = some (n : ℚ)) : truncate x = n := by
  unfold value? at h
  unfold truncate
  cases hx : Binary.ofFloat x with
  | nan | infinite s =>
    rw [hx] at h
    cases h
  | finite negative m e =>
    rw [hx] at h
    have hvalue := Option.some.inj h
    cases negative with
    | false =>
      show (Binary.whole m e : Int) = n
      have hsame : (m * 2 ^ e : ℚ) = n := by simpa using hvalue
      rw [Binary.whole_eq, hsame, Int.floor_intCast]
    | true =>
      show -(Binary.whole m e : Int) = n
      have hsame : (m * 2 ^ e : ℚ) = ((-n : Int) : ℚ) := by
        push_cast
        rw [← hvalue]
        simp
      rw [Binary.whole_eq, hsame, Int.floor_intCast, neg_neg]

end LimitBook.Number
