import Mathlib
import LimitBook.Proofs.Scalar

namespace LimitBook

instance : Scalar ℚ where
  decLt := inferInstance
  decLe := inferInstance
  zero := 0
  dust := 1 / 10 ^ 10
  isFinite _ := true
  floorNat q := ⌊q⌋.toNat

instance : Scalar.Lawful ℚ where
  lt_iff := lt_iff_le_not_ge
  beq_iff := beq_iff_eq.trans le_antisymm_iff
  le_trans := le_trans
  le_total _ _ := le_total _ _
  eq_of_le_of_le _ := le_antisymm
  finite_zero := rfl
  finite_dust := rfl
  zero_lt_dust := by
    show (0 : ℚ) < 1 / 10 ^ 10
    positivity
  finite_sub _ _ _ _ := rfl
  sub_self_lt {a} _ := by
    show a - a < 1 / 10 ^ 10
    rw [sub_self]
    positivity

namespace Scalar

theorem smaller_eq_min (a b : ℚ) : smaller a b = min a b := by
  unfold smaller
  split
  · exact (min_eq_left (le_of_lt ‹_›)).symm
  · rw [if_pos (not_lt.mp ‹_›)]
    exact (min_eq_right (not_lt.mp ‹_›)).symm

end Scalar

def volume (fs : List (Fill ℚ)) : ℚ := (fs.map (·.quantity)).sum

theorem volume_append (fs gs : List (Fill ℚ)) : volume (fs ++ gs) = volume fs + volume gs := by
  rw [volume, List.map_append, List.sum_append]
  rfl

theorem volume_singleton (f : Fill ℚ) : volume [f] = f.quantity := List.sum_singleton

theorem foldl_quantity (a : ℚ) (fs : List (Fill ℚ)) :
    fs.foldl (fun q f => q + f.quantity) a = a + volume fs := by
  induction fs generalizing a with
  | nil => simp [volume]
  | cons f fs ih =>
    rw [List.foldl_cons, ih, add_assoc]
    rfl

theorem leftOver_rat (r q : ℚ) : leftOver r q = if r - q < 1 / 10 ^ 10 then 0 else r - q := by
  have hdust : negligible (r - q) = decide (r - q < 1 / 10 ^ 10) := rfl
  simp only [leftOver, hdust, decide_eq_true_eq]
  rfl

/-- A quantity by fills that each take something that counts and no more than is left by then.
Nothing is lost of it until the end, and then no more than dust. -/
theorem remainder_exact {q : ℚ} (h0 : 0 ≤ q) {fs : List (Fill ℚ)}
    (hf : ∀ before f rest, fs = before ++ f :: rest →
      1 / 10 ^ 10 ≤ f.quantity ∧ f.quantity ≤ remainder q before) :
    0 ≤ q - volume fs ∧ (remainder q fs = q - volume fs ∨
      remainder q fs = 0 ∧ q - volume fs < 1 / 10 ^ 10) := by
  induction fs using List.reverseRecOn with
  | nil =>
    rw [show volume [] = 0 from rfl, sub_zero]
    exact ⟨h0, .inl rfl⟩
  | append_singleton before f ih =>
    obtain ⟨hcounts, hle⟩ := hf before f [] rfl
    have hpos : (0 : ℚ) < 1 / 10 ^ 10 := by positivity
    obtain ⟨-, hbefore⟩ := ih fun front g rest hg => hf front g (rest ++ [f]) (by simp [hg])
    have hexact : remainder q before = q - volume before :=
      hbefore.resolve_right fun ⟨hz, _⟩ => by linarith
    have hvolume : q - volume (before ++ [f]) = remainder q before - f.quantity := by
      rw [hexact, volume_append, volume_singleton, sub_sub]
    have hstep : remainder q (before ++ [f]) = leftOver (remainder q before) f.quantity := by
      rw [remainder, List.foldl_append]
      rfl
    rw [hvolume, hstep, leftOver_rat]
    refine ⟨sub_nonneg.mpr hle, ?_⟩
    split
    · exact .inr ⟨rfl, ‹_›⟩
    · exact .inl rfl

end LimitBook
