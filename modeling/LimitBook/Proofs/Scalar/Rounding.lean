import LimitBook.Proofs.Scalar.Difference

namespace LimitBook.Double

open Float.Model Float.Model.UnpackedFloat

/-- The mantissa is the whole part of `y`, and the two bits tell how the rest of it compares to
nothing and to a half. -/
def Represents (em : ExtendedMantissa) (y : ℚ) : Prop :=
  match em.roundBit, em.stickyBit with
  | false, false => y = em.mantissa
  | false, true => em.mantissa < y ∧ y < em.mantissa + 1 / 2
  | true, false => y = em.mantissa + 1 / 2
  | true, true => em.mantissa + 1 / 2 < y ∧ y < em.mantissa + 1

/-- The whole number next to `y`, the even one if there are two. -/
structure RoundsTo (y : ℚ) (n : Nat) : Prop where
  low : n - 1 / 2 < y ∨ n - 1 / 2 = y ∧ n % 2 = 0
  high : y < n + 1 / 2 ∨ y = n + 1 / 2 ∧ n % 2 = 0

variable {em : ExtendedMantissa} {y : ℚ}

theorem Represents.shiftRightOne (h : Represents em y) : Represents em.shiftRightOne (y / 2) := by
  obtain ⟨M, r, s⟩ := em
  have hM : (M : ℚ) = 2 * (M / 2 : Nat) + (M % 2 : Nat) := by
    exact_mod_cast (Nat.div_add_mod M 2).symm
  obtain h0 | h1 := Nat.mod_two_eq_zero_or_one M
  · rw [h0, Nat.cast_zero] at hM
    cases r <;> cases s <;> simp [Represents, ExtendedMantissa.shiftRightOne, h0] at h ⊢
    · linarith
    · constructor <;> linarith
    · constructor <;> linarith
    · constructor <;> linarith
  · rw [h1, Nat.cast_one] at hM
    cases r <;> cases s <;> simp [Represents, ExtendedMantissa.shiftRightOne, h1] at h ⊢
    · linarith
    · constructor <;> linarith
    · constructor <;> linarith
    · constructor <;> linarith

theorem Represents.shiftRight (h : Represents em y) (k : Nat) :
    Represents (em >>> k) (y / 2 ^ k) := by
  induction k with
  | zero =>
    rw [pow_zero, div_one]
    exact h
  | succ k ih =>
    rw [pow_succ, ← div_div]
    exact ih.shiftRightOne

theorem Represents.bounds (h : Represents em y) : em.mantissa ≤ y ∧ y < em.mantissa + 1 := by
  obtain ⟨M, r, s⟩ := em
  cases r <;> cases s <;> simp only [Represents] at h
  · constructor <;> linarith
  · constructor <;> linarith
  · constructor <;> linarith
  · constructor <;> linarith

theorem Represents.roundsTo (h : Represents em y) : RoundsTo y em.roundedMantissa := by
  obtain ⟨M, r, s⟩ := em
  cases r <;> cases s <;> simp only [Represents] at h
  · have hsame : ExtendedMantissa.roundedMantissa ⟨M, false, false⟩ = M := rfl
    rw [hsame]
    exact ⟨.inl (by linarith), .inl (by linarith)⟩
  · have hsame : ExtendedMantissa.roundedMantissa ⟨M, false, true⟩ = M := rfl
    rw [hsame]
    exact ⟨.inl (by linarith), .inl (by linarith)⟩
  · have htie : ExtendedMantissa.roundedMantissa ⟨M, true, false⟩ = M + M % 2 := rfl
    rw [htie]
    obtain h0 | h1 := Nat.mod_two_eq_zero_or_one M
    · rw [h0, add_zero]
      exact ⟨.inl (by linarith), .inr ⟨h, h0⟩⟩
    · rw [h1]
      have hnext : ((M + 1 : Nat) : ℚ) = M + 1 := Nat.cast_succ M
      exact ⟨.inr ⟨by linarith, by omega⟩, .inl (by linarith)⟩
  · have hup : ExtendedMantissa.roundedMantissa ⟨M, true, true⟩ = M + 1 := rfl
    rw [hup]
    have hnext : ((M + 1 : Nat) : ℚ) = M + 1 := Nat.cast_succ M
    exact ⟨.inl (by linarith), .inl (by linarith)⟩

theorem represents_exact (M : Nat) :
    Represents (ExtendedMantissa.ofMantissaAndAccuracy M .exact) M := rfl

theorem represents_quotient (n : Nat) {d : Nat} (hd : 0 < d) :
    Represents (ExtendedMantissa.ofMantissaAndAccuracy (n / d) (accuracyOfFraction (n % d) d))
      (n / d : ℚ) := by
  have hpos : (0 : ℚ) < d := Nat.cast_pos.mpr hd
  have hn : (n : ℚ) = d * (n / d : Nat) + (n % d : Nat) := by
    exact_mod_cast (Nat.div_add_mod n d).symm
  have hy : (n / d : ℚ) = (n / d : Nat) + (n % d : Nat) / d := by
    rw [div_eq_iff hpos.ne', add_mul, div_mul_cancel₀ _ hpos.ne', mul_comm, ← hn]
  have hlt := Nat.mod_lt n hd
  rw [hy]
  generalize n / d = q at *
  generalize n % d = r at *
  unfold accuracyOfFraction
  split
  · rename_i hz
    rw [hz, Nat.cast_zero, zero_div, add_zero]
    exact represents_exact q
  · rename_i hz
    have hr : (0 : ℚ) < r / d := div_pos (Nat.cast_pos.mpr (Nat.pos_of_ne_zero hz)) hpos
    have hone : (r : ℚ) / d < 1 := (div_lt_one hpos).mpr (Nat.cast_lt.mpr hlt)
    cases hc : compare (2 * r) d with
    | lt =>
      have hless : 2 * (r : ℚ) < d := by exact_mod_cast compare_lt_iff_lt.mp hc
      have hhalf : (r : ℚ) / d < 1 / 2 := by
        rw [div_lt_iff₀ hpos]
        linarith
      exact ⟨lt_add_of_pos_right _ hr, (add_lt_add_iff_left _).mpr hhalf⟩
    | eq =>
      have hsame : 2 * (r : ℚ) = d := by exact_mod_cast compare_eq_iff_eq.mp hc
      have hhalf : (r : ℚ) / d = 1 / 2 := by
        rw [div_eq_iff hpos.ne']
        linarith
      exact congrArg (_ + ·) hhalf
    | gt =>
      have hmore : (d : ℚ) < 2 * r := by exact_mod_cast compare_gt_iff_gt.mp hc
      have hhalf : 1 / 2 < (r : ℚ) / d := by
        rw [lt_div_iff₀ hpos]
        linarith
      exact ⟨(add_lt_add_iff_left _).mpr hhalf, (add_lt_add_iff_left _).mpr hone⟩

/-- How far below it the numbers go that are nearest to a double: half as far, if it is the first
with its exponent. -/
def reachBelow (m : Nat) (e : Int) : ℚ := if m = 2 ^ 52 ∧ e ≠ -1074 then 1 / 4 else 1 / 2

/-- No double is nearer to `x` than `m · 2 ^ e`, and if another is as near, it has an odd
mantissa. -/
structure Near (x : ℚ) (m : Nat) (e : Int) : Prop where
  low : (m - reachBelow m e) * 2 ^ e < x ∨ (m - reachBelow m e) * 2 ^ e = x ∧ m % 2 = 0
  high : x < (m + 1 / 2) * 2 ^ e ∨ x = (m + 1 / 2) * 2 ^ e ∧ m % 2 = 0

/-- A mantissa and an exponent as a double has them, but that the exponent may be too large. -/
structure Regular (m : Nat) (e : Int) : Prop where
  short : m < 2 ^ 53
  least : -1074 ≤ e
  full : 2 ^ 52 ≤ m ∨ e = -1074

/-- The double, or zero, that is nearest to a number, whatever its exponent. -/
inductive Rounded (s : Sign) (x : ℚ) : UnpackedFloat → Prop where
  | zero (hx : x ≤ 1 / 2 * 2 ^ (-1074 : Int)) : Rounded s x (.zero s)
  | finite {m : Nat} {e : Int} {h : 0 < m} (hm : Regular m e) (hx : Near x m e) :
      Rounded s x (.finite s m e h)

/-- The whole number next to a mantissa makes the nearest double, if the first with its exponent is
not rounded up to. -/
theorem RoundsTo.near {R : Nat} {t : Int} (h : RoundsTo y R)
    (hfirst : R = 2 ^ 52 → t ≠ -1074 → R ≤ y) : Near (y * 2 ^ t) R t := by
  have hunit : (0 : ℚ) < 2 ^ t := zpow_pos two_pos t
  refine ⟨?_, h.high.imp (mul_lt_mul_of_pos_right · hunit) (And.imp_left (congrArg (· * (2 : ℚ) ^ t)))⟩
  unfold reachBelow
  split
  · rename_i hedge
    have hle := hfirst hedge.1 hedge.2
    exact .inl (mul_lt_mul_of_pos_right (by linarith) hunit)
  · exact h.low.imp (mul_lt_mul_of_pos_right · hunit) (And.imp_left (congrArg (· * (2 : ℚ) ^ t)))

theorem RoundsTo.near_carried {t : Int} (h : RoundsTo y (2 ^ 53)) (hy : y < 2 ^ 53)
    (ht : -1074 ≤ t) : Near (y * 2 ^ t) (2 ^ 52) (t + 1) := by
  have hunit : (0 : ℚ) < 2 ^ t := zpow_pos two_pos t
  have hdouble : (2 : ℚ) ^ (t + 1) = 2 * 2 ^ t := by
    rw [zpow_add₀ two_ne_zero, zpow_one, mul_comm]
  have hreach : reachBelow (2 ^ 52) (t + 1) = 1 / 4 := if_pos ⟨rfl, by omega⟩
  refine ⟨?_, .inl ?_⟩
  · have hedge : (((2 ^ 52 : Nat) : ℚ) - 1 / 4) * 2 ^ (t + 1) =
        (((2 ^ 53 : Nat) : ℚ) - 1 / 2) * 2 ^ t := by
      rw [hdouble]
      push_cast
      ring
    rw [hreach, hedge]
    exact h.low.imp (mul_lt_mul_of_pos_right · hunit)
      (And.imp (congrArg (· * (2 : ℚ) ^ t)) fun _ => rfl)
  · rw [hdouble, ← mul_assoc]
    refine mul_lt_mul_of_pos_right ?_ hunit
    push_cast
    linarith

theorem roundWithAccuracy_rounded (s : Sign) {M : Nat} {E : Int} {acc : Accuracy}
    (hy : Represents (ExtendedMantissa.ofMantissaAndAccuracy M acc) y)
    (hE : E ≤ max ((M.log2 : Int) + 1 + E - 53) (-1074)) :
    Rounded s (y * 2 ^ E) (roundWithAccuracy .binary64 s M E acc) := by
  obtain ⟨t, ht⟩ : ∃ t, t = max ((M.log2 : Int) + 1 + E - 53) (-1074) := ⟨_, rfl⟩
  obtain ⟨j, hj⟩ : ∃ j : Nat, E + j = t := ⟨(t - E).toNat, by omega⟩
  obtain ⟨hshort, hfull⟩ := target_bounds ht hj
  have hleast : -1074 ≤ t := by omega
  have hfloor : (ExtendedMantissa.ofMantissaAndAccuracy M acc >>> j).mantissa = M / 2 ^ j := by
    rw [shiftRight_mantissa, ofMantissaAndAccuracy_mantissa]
  have hfirst : shiftToTargetExponent .binary64 M E acc =
      (ExtendedMantissa.ofMantissaAndAccuracy M acc >>> j, t) := by
    have hshift : (t - E).toNat = j := by omega
    simp only [shiftToTargetExponent, shiftToExponent, targetExponent_eq, totalExponent, ← ht,
      hshift, hj]
  have hx : y * 2 ^ E = y / 2 ^ j * 2 ^ t := by
    rw [← hj, zpow_add₀ two_ne_zero, zpow_natCast]
    field_simp
  have hem := hy.shiftRight j
  unfold roundWithAccuracy
  rw [hfirst, hx]
  simp only
  generalize ExtendedMantissa.ofMantissaAndAccuracy M acc >>> j = em at *
  generalize y / 2 ^ j = z at *
  obtain ⟨hlow, hhigh⟩ := hem.bounds
  have hround := hem.roundsTo
  have hle := le_roundedMantissa em
  have hup := roundedMantissa_le em
  rw [← hfloor] at hshort hfull
  generalize em.roundedMantissa = R at *
  obtain hlt | heq : R < 2 ^ 53 ∨ R = 2 ^ 53 := by omega
  · obtain ⟨hm, he⟩ := carry_of_lt hlt hleast
    simp only [hm, he]
    split
    · rename_i hz
      have hlast : t = -1074 := hfull.resolve_left (by omega)
      have hhigh := hround.high
      rw [hz, Nat.cast_zero, zero_add] at hhigh
      have hhalf : z ≤ 1 / 2 := hhigh.elim le_of_lt fun h => h.1.le
      exact .zero (hlast ▸ mul_le_mul_of_nonneg_right hhalf (by positivity))
    · refine .finite ⟨hlt, hleast, hfull.imp_left fun h => Nat.le_trans h hle⟩
        (hround.near fun hR hne => le_trans ?_ hlow)
      exact_mod_cast hR ▸ hfull.resolve_right hne
  · subst heq
    obtain ⟨hm, he⟩ := carry_of_eq hleast
    have hmantissa : (em.mantissa : ℚ) + 1 ≤ 2 ^ 53 := by exact_mod_cast hshort
    simp only [hm, he]
    exact .finite ⟨by decide, by omega, .inl (Nat.le_refl _)⟩
      (hround.near_carried (hhigh.trans_le hmantissa) hleast)

theorem Regular.edge {m : Nat} {e : Int} (hm : Regular m e) (he : -1074 < e) :
    2 ^ 52 - 1 / 4 ≤ (m : ℚ) - reachBelow m e := by
  obtain hfull | rfl := hm.full
  · unfold reachBelow
    split
    · rename_i hfirst
      rw [hfirst.1]
      norm_num
    · rename_i hfirst
      have hnext : (2 : ℚ) ^ 52 + 1 ≤ m := by
        have hne : m ≠ 2 ^ 52 := fun h => hfirst ⟨h, by omega⟩
        exact_mod_cast Nat.lt_of_le_of_ne hfull hne.symm
      linarith
  · omega

theorem reachBelow_pos (m : Nat) (e : Int) : 0 < reachBelow m e := by
  unfold reachBelow
  split <;> norm_num

theorem Near.not_near {x : ℚ} {m n : Nat} {e f : Int} (hx : Near x m e) (hm : Regular m e)
    (hn : Regular n f) (hlt : e < f ∧ -1074 < f ∨ e = f ∧ m < n) : ¬Near x n f := by
  intro hy
  have hunit : (0 : ℚ) < 2 ^ e := zpow_pos two_pos e
  obtain ⟨hef, hf⟩ | ⟨rfl, hmn⟩ := hlt
  · -- The ends meet only at the greatest mantissa, which is odd.
    have hedge := hn.edge hf
    have hscale : (2 : ℚ) * 2 ^ e ≤ 2 ^ f := by
      rw [← zpow_one_add₀ two_ne_zero]
      exact zpow_le_zpow_right₀ one_le_two (by omega)
    have hlow : (2 ^ 53 - 1 / 2) * 2 ^ e ≤ x := by
      calc ((2 : ℚ) ^ 53 - 1 / 2) * 2 ^ e = (2 ^ 52 - 1 / 4) * (2 * 2 ^ e) := by ring
        _ ≤ (n - reachBelow n f) * 2 ^ f := mul_le_mul hedge hscale (by positivity) (by linarith)
        _ ≤ x := hy.low.elim le_of_lt fun h => h.1.le
    obtain hhigh | ⟨hhigh, heven⟩ := hx.high
    · have hmantissa : (m : ℚ) + 1 / 2 ≤ 2 ^ 53 - 1 / 2 := by
        have : (m : ℚ) + 1 ≤ 2 ^ 53 := by exact_mod_cast hm.short
        linarith
      have := mul_le_mul_of_nonneg_right hmantissa hunit.le
      linarith
    · have hmantissa : (m : ℚ) + 1 / 2 < 2 ^ 53 - 1 / 2 := by
        have : (m : ℚ) + 2 ≤ 2 ^ 53 := by exact_mod_cast (by have := hm.short; omega : m + 2 ≤ 2 ^ 53)
        linarith
      have := mul_lt_mul_of_pos_right hmantissa hunit
      linarith
  · have hreach : reachBelow n e = 1 / 2 := if_neg fun h => by
      have := hm.full.resolve_right h.2
      omega
    have hnext : (m : ℚ) + 1 ≤ n := by exact_mod_cast hmn
    have hbetween := mul_le_mul_of_nonneg_right (show (m : ℚ) + 1 / 2 ≤ n - 1 / 2 by linarith)
      hunit.le
    obtain ⟨hlow, -⟩ := hy
    rw [hreach] at hlow
    obtain hhigh | ⟨hhigh, hm⟩ := hx.high
    · have := hlow.elim le_of_lt fun h => h.1.le
      linarith
    · obtain hlow | ⟨hlow, hn⟩ := hlow
      · linarith
      · have hsame : (n : ℚ) = m + 1 := by
          have := mul_right_cancel₀ hunit.ne' (hlow.trans hhigh)
          linarith
        have hsame : n = m + 1 := by exact_mod_cast hsame
        omega

theorem Near.unique {x : ℚ} {m n : Nat} {e f : Int} (hx : Near x m e) (hm : Regular m e)
    (hy : Near x n f) (hn : Regular n f) : m = n ∧ e = f := by
  have hle := hm.least
  have hlf := hn.least
  obtain hlt | rfl | hlt := Int.lt_trichotomy e f
  · exact absurd hy (hx.not_near hm hn (.inl ⟨hlt, by omega⟩))
  · obtain hlt | rfl | hlt := Nat.lt_trichotomy m n
    · exact absurd hy (hx.not_near hm hn (.inr ⟨rfl, hlt⟩))
    · exact ⟨rfl, rfl⟩
    · exact absurd hx (hy.not_near hn hm (.inr ⟨rfl, hlt⟩))
  · exact absurd hx (hy.not_near hn hm (.inl ⟨hlt, by omega⟩))

theorem near_self (m : Nat) (e : Int) : Near (m * 2 ^ e) m e := by
  have hunit : (0 : ℚ) < 2 ^ e := zpow_pos two_pos e
  have hreach := reachBelow_pos m e
  exact ⟨.inl (mul_lt_mul_of_pos_right (by linarith) hunit),
    .inl (mul_lt_mul_of_pos_right (by linarith) hunit)⟩

theorem Near.between {x y z : ℚ} {m : Nat} {e : Int} (hx : Near x m e) (hz : Near z m e)
    (hxy : x ≤ y) (hyz : y ≤ z) : Near y m e where
  low := by
    obtain hlow | ⟨hlow, heven⟩ := hx.low
    · exact .inl (hlow.trans_le hxy)
    · obtain hlt | rfl := hxy.lt_or_eq
      · exact .inl (hlow ▸ hlt)
      · exact .inr ⟨hlow, heven⟩
  high := by
    obtain hhigh | ⟨hhigh, heven⟩ := hz.high
    · exact .inl (hyz.trans_lt hhigh)
    · obtain hlt | rfl := hyz.lt_or_eq
      · exact .inl (hhigh ▸ hlt)
      · exact .inr ⟨hhigh, heven⟩

theorem le_log2 {M : Nat} (h : 2 ^ 52 ≤ M) : 52 ≤ M.log2 :=
  (Nat.le_log2 (by omega)).mpr h

theorem mul_rounded (s₁ s₂ : Sign) {m₁ m₂ : Nat} (h₁ : 0 < m₁) (h₂ : 0 < m₂) (e₁ e₂ : Int)
    (hbits : 2 ^ 52 ≤ m₁ * m₂) :
    Rounded (s₁ * s₂) (m₁ * 2 ^ e₁ * (m₂ * 2 ^ e₂))
      (UnpackedFloat.mul .binary64 (.finite s₁ m₁ e₁ h₁) (.finite s₂ m₂ e₂ h₂)) := by
  have hlog := le_log2 hbits
  have hround := roundWithAccuracy_rounded (s₁ * s₂) (E := e₁ + e₂) (represents_exact (m₁ * m₂))
    (by omega)
  have hx : (m₁ * 2 ^ e₁ * (m₂ * 2 ^ e₂) : ℚ) = (m₁ * m₂ : Nat) * 2 ^ (e₁ + e₂) := by
    rw [zpow_add₀ two_ne_zero, Nat.cast_mul]
    ring
  rw [hx]
  exact hround

theorem div_rounded (s₁ s₂ : Sign) {m₁ m₂ : Nat} (h₁ : 0 < m₁) (h₂ : 0 < m₂) (e₁ e₂ : Int) :
    Rounded (s₁ / s₂) (m₁ * 2 ^ e₁ / (m₂ * 2 ^ e₂))
      (UnpackedFloat.div .binary64 (.finite s₁ m₁ e₁ h₁) (.finite s₂ m₂ e₂ h₂)) := by
  simp only [UnpackedFloat.div, divCore, targetExponent_eq, totalExponent]
  generalize hE : min (e₁ - e₂) (max ((m₁.log2 : Int) + 1 + e₁ - (m₂.log2 + 1 + e₂) - 53) (-1074)) =
    E
  generalize hk : (e₁ - e₂ - E).toNat = k
  have hbits : -1074 < E → 2 ^ 52 ≤ (m₁ <<< k) / m₂ := fun hleast => by
    rw [Nat.le_div_iff_mul_le h₂, Nat.shiftLeft_eq]
    calc 2 ^ 52 * m₂ ≤ 2 ^ 52 * 2 ^ (m₂.log2 + 1) :=
          Nat.mul_le_mul_left _ (Nat.le_of_lt Nat.lt_log2_self)
      _ ≤ 2 ^ m₁.log2 * 2 ^ k := by
          rw [← Nat.pow_add, ← Nat.pow_add]
          exact Nat.pow_le_pow_right (by decide) (by omega)
      _ ≤ m₁ * 2 ^ k := Nat.mul_le_mul_right _ (Nat.log2_self_le (Nat.ne_of_gt h₁))
  have hround := roundWithAccuracy_rounded (s₁ / s₂) (E := E)
    (represents_quotient (m₁ <<< k) h₂) (by
      by_cases hleast : -1074 < E
      · have hlog := le_log2 (hbits hleast)
        omega
      · omega)
  have hx : (m₁ * 2 ^ e₁ / (m₂ * 2 ^ e₂) : ℚ) = (m₁ <<< k : Nat) / m₂ * 2 ^ E := by
    have he : e₁ = e₂ + k + E := by omega
    have hpow : (2 : ℚ) ^ e₁ = 2 ^ e₂ * 2 ^ k * 2 ^ E := by
      rw [he, zpow_add₀ two_ne_zero, zpow_add₀ two_ne_zero, zpow_natCast]
    rw [hpow, Nat.shiftLeft_eq, Nat.cast_mul, Nat.cast_pow, Nat.cast_ofNat]
    field_simp
  rw [hx]
  exact hround

/-- The double that is nearest to a number, with a sign. -/
inductive Nearest (s : Sign) (x : ℚ) : UnpackedFloat → Prop where
  | zero (hx : x ≤ 1 / 2 * 2 ^ (-1074 : Int)) : Nearest s x (.zero s)
  | finite {m : Nat} {e : Int} {h : 0 < m} (hm : Canonical m e) (hx : Near x m e) :
      Nearest s x (.finite s m e h)
  | infinity (hx : (2 ^ 53 - 1 / 2) * 2 ^ (971 : Int) ≤ x) : Nearest s x (.infinity s)

theorem unpack_packedZero (s : Sign) :
    UnpackedFloat.unpack .binary64 (UnpackedFloat.pack .binary64 (.zero s)) = .zero s := by
  cases s <;> rfl

theorem unpack_packedInfinity (s : Sign) :
    UnpackedFloat.unpack .binary64 (packedInfinity .binary64 s) = .infinity s := by
  cases s <;> rfl

theorem Rounded.unpack_pack {s : Sign} {x : ℚ} {u : UnpackedFloat} (h : Rounded s x u) :
    Nearest s x (UnpackedFloat.unpack .binary64 (UnpackedFloat.pack .binary64 u)) := by
  cases h with
  | zero hx =>
    rw [unpack_packedZero]
    exact .zero hx
  | finite hm hx =>
    rename_i m e h
    by_cases he : e ≤ 971
    · have hc : Canonical m e := ⟨hm.short, hm.least, he, hm.full⟩
      rw [Double.unpack_pack hc]
      exact .finite hc hx
    · have hover : UnpackedFloat.pack .binary64 (.finite s m e h) = packedInfinity .binary64 s := by
        unfold UnpackedFloat.pack
        simp only [exponentBias_eq]
        refine if_pos ?_
        show 2 ^ 11 ≤ (e + (1023 : Nat) + (52 : Nat)).toNat + 1
        omega
      rw [hover, unpack_packedInfinity]
      refine .infinity ?_
      calc ((2 : ℚ) ^ 53 - 1 / 2) * 2 ^ (971 : Int) = (2 ^ 52 - 1 / 4) * 2 ^ (972 : Int) := by
            rw [show (972 : Int) = 1 + 971 by norm_num, zpow_one_add₀ two_ne_zero]
            ring
        _ ≤ (m - reachBelow m e) * 2 ^ e := mul_le_mul (hm.edge (by omega))
            (zpow_le_zpow_right₀ one_le_two (by omega)) (by positivity)
            (le_trans (by norm_num) (hm.edge (by omega)))
        _ ≤ x := hx.low.elim le_of_lt fun h => h.1.le

theorem Canonical.regular {m : Nat} {e : Int} (h : Canonical m e) : Regular m e :=
  ⟨h.short, h.least, h.full⟩

theorem Nearest.eq_finite {s : Sign} {x : ℚ} {u : UnpackedFloat} (hu : Nearest s x u) {m : Nat}
    {e : Int} (h : 0 < m) (hm : Canonical m e) (hx : Near x m e) : u = .finite s m e h := by
  have hunit : (0 : ℚ) < 2 ^ e := zpow_pos two_pos e
  cases hu with
  | finite hn hy =>
    obtain ⟨rfl, rfl⟩ := hx.unique hm.regular hy hn.regular
    rfl
  | zero hy =>
    exfalso
    obtain hlt | rfl := Int.lt_or_eq_of_le hm.least
    · have hlow := hx.low.elim le_of_lt fun h => h.1.le
      have hscale : (2 : ℚ) ^ (-1074 : Int) ≤ 2 ^ e := zpow_le_zpow_right₀ one_le_two hlt.le
      have hedge := mul_le_mul_of_nonneg_right (hm.regular.edge hlt) hunit.le
      linarith
    · have hreach : reachBelow m (-1074) = 1 / 2 := if_neg fun h => h.2 rfl
      have hone : (1 : ℚ) ≤ m := by exact_mod_cast h
      obtain ⟨hlow, -⟩ := hx
      rw [hreach] at hlow
      obtain hlow | ⟨hlow, heven⟩ := hlow
      · have := mul_le_mul_of_nonneg_right (show (1 : ℚ) / 2 ≤ m - 1 / 2 by linarith) hunit.le
        linarith
      · have htwo : (2 : ℚ) ≤ m := by exact_mod_cast (by omega : 2 ≤ m)
        have := mul_lt_mul_of_pos_right (show (1 : ℚ) / 2 < m - 1 / 2 by linarith) hunit
        linarith
  | infinity hy =>
    exfalso
    have hscale : (2 : ℚ) ^ e ≤ 2 ^ (971 : Int) := zpow_le_zpow_right₀ one_le_two hm.greatest
    obtain hhigh | ⟨hhigh, heven⟩ := hx.high
    · have hshort : (m : ℚ) + 1 ≤ 2 ^ 53 := by exact_mod_cast hm.short
      have := mul_le_mul (show (m : ℚ) + 1 / 2 ≤ 2 ^ 53 - 1 / 2 by linarith) hscale hunit.le
        (by norm_num)
      linarith
    · have hshort : (m : ℚ) + 2 ≤ 2 ^ 53 := by
        exact_mod_cast (by have := hm.short; omega : m + 2 ≤ 2 ^ 53)
      have := mul_lt_mul (show (m : ℚ) + 1 / 2 < 2 ^ 53 - 1 / 2 by linarith) hscale hunit
        (by norm_num)
      linarith

end LimitBook.Double
