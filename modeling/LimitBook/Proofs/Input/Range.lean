import LimitBook.Input.Numeric
import LimitBook.Proofs.Number.Order

namespace LimitBook.Input.Range

open Number

variable {r : Range} {x : Float} {q : ℚ}

def Holds (r : Range) (n : Int) : Prop := r.minimum ≤ n ∧ ∀ m ∈ r.maximum, n ≤ m

/-- The bounds are not below zero, and doubles hold them as they are. -/
structure Exact (r : Range) : Prop where
  minimum : 0 ≤ r.minimum ∧ r.minimum < 2 ^ 53
  maximum : ∀ m ∈ r.maximum, 0 ≤ m ∧ m < 2 ^ 53

theorem value?_bound {n : Int} (h : 0 ≤ n ∧ n < 2 ^ 53) :
    value? (Float.ofInt n) = some (n : ℚ) := by
  obtain ⟨n, rfl⟩ := Int.eq_ofNat_of_zero_le h.1
  exact value?_ofNat (by exact_mod_cast h.2)

theorem issues_eq_nil (hr : r.Exact) (hx : value? x = some q) :
    r.issues x = [] ↔ ∃ n : Int, q = n ∧ r.Holds n := by
  obtain ⟨low, high⟩ := r
  have hlow : x < Float.ofInt low ↔ q < low := lt_iff_value hx (value?_bound hr.minimum)
  have hinteger : isInteger x = true ↔ ∃ n : Int, q = n := by
    rw [isInteger_iff, hx]
    simp
  cases high with
  | none =>
    simp only [issues, hlow, List.append_nil, List.append_eq_nil_iff, ite_eq_left_iff,
      ite_eq_right_iff, List.cons_ne_nil, imp_false, not_not, hinteger, Holds, Option.mem_def,
      reduceCtorEq, false_implies, implies_true, and_true, not_lt]
    constructor
    · rintro ⟨⟨n, rfl⟩, hle⟩
      exact ⟨n, rfl, by exact_mod_cast hle⟩
    · rintro ⟨n, rfl, hle⟩
      exact ⟨⟨n, rfl⟩, by exact_mod_cast hle⟩
  | some high =>
    have hhigh : Float.ofInt high < x ↔ high < q :=
      lt_iff_value (value?_bound (hr.maximum high rfl)) hx
    simp only [issues, hlow, hhigh, List.append_eq_nil_iff, ite_eq_left_iff,
      ite_eq_right_iff, List.cons_ne_nil, imp_false, not_not, hinteger, Holds, Option.mem_def,
      Option.some.injEq, forall_eq', not_lt]
    constructor
    · rintro ⟨⟨⟨n, rfl⟩, hle⟩, hge⟩
      exact ⟨n, rfl, by exact_mod_cast hle, by exact_mod_cast hge⟩
    · rintro ⟨n, rfl, hle, hge⟩
      exact ⟨⟨⟨n, rfl⟩, by exact_mod_cast hle⟩, by exact_mod_cast hge⟩

theorem check_eq_ok (hr : r.Exact) {n : Nat} :
    r.check x = .ok n ↔ value? x = some (n : ℚ) ∧ r.Holds n := by
  unfold check
  split
  · rename_i hnan
    rw [value?_of_isNaN hnan]
    simp
  cases hx : value? x with
  | none =>
    have hinteger : isInteger x = false := by
      rw [← Bool.not_eq_true, isInteger_iff, hx]
      simp
    have hne : r.issues x ≠ [] := by simp [issues, hinteger]
    split
    · contradiction
    · simp
  | some q =>
    have hnil := issues_eq_nil hr hx
    split
    · rename_i hissues
      obtain ⟨m, rfl, hholds⟩ := hnil.mp hissues
      have hpos : 0 ≤ m := hr.minimum.1.trans hholds.1
      obtain ⟨m, rfl⟩ := Int.eq_ofNat_of_zero_le hpos
      rw [truncate_eq hx, Int.toNat_natCast, Except.ok.injEq, Option.some.injEq]
      constructor
      · rintro rfl
        exact ⟨rfl, hholds⟩
      · rintro ⟨hmn, -⟩
        exact_mod_cast hmn
    · rename_i hissues
      refine iff_of_false (fun h => nomatch h) fun ⟨hq, hholds⟩ => hissues (hnil.mpr ?_)
      exact ⟨n, Option.some.inj hq, hholds⟩

end LimitBook.Input.Range
