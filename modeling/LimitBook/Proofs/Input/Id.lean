import LimitBook.Input.Request
import LimitBook.Proofs.Input.Range
import LimitBook.Proofs.Text.Digits

namespace LimitBook.Input

open Text

/-- A value spells an id. -/
inductive Spells : Json → OrderId → Prop where
  | text {t : Text} {n : OrderId} (hdigits : ∀ u ∈ t, isDigit u = true)
      (hlength : 1 ≤ t.length ∧ t.length ≤ 20) (hvalue : digitsValue t = n)
      (hmax : n ≤ 2 ^ 64 - 1) : Spells (.str t) n
  | number {x : Float} {n : OrderId} (hvalue : Number.value? x = some (n : ℚ))
      (hmax : n ≤ 2 ^ 53 - 1) : Spells (.num x) n

theorem isIdText_iff {t : Text} :
    isIdText t = true ↔ (∀ u ∈ t, isDigit u = true) ∧ 1 ≤ t.length ∧ t.length ≤ 20 := by
  simp only [isIdText, Bool.and_eq_true, List.all_eq_true, decide_eq_true_eq, and_assoc]

theorem idRange_holds {n : Nat} : idRange.Holds n ↔ n ≤ 2 ^ 53 - 1 := by
  have hmax : idRange.maximum = some (2 ^ 53 - 1) := rfl
  simp only [Range.Holds, hmax, Option.mem_def, Option.some.injEq, forall_eq']
  constructor
  · rintro ⟨-, h⟩
    omega
  · intro h
    exact ⟨Int.natCast_nonneg n, by omega⟩

theorem idRange_exact : idRange.Exact :=
  ⟨by decide, fun m hm => by cases hm; decide⟩

theorem orderId_eq_ok {j : Option Json} {n : OrderId} :
    orderId j = .ok n ↔ ∃ v, j = some v ∧ Spells v n := by
  constructor
  · intro h
    match j with
    | some (.str t) =>
      simp only [orderId] at h
      split_ifs at h with ht hmax
      obtain ⟨hdigits, hlength⟩ := isIdText_iff.mp ht
      rw [toNat?_digits hdigits, Option.getD_some] at h hmax
      exact ⟨_, rfl, .text hdigits hlength (Except.ok.inj h) (Except.ok.inj h ▸ hmax)⟩
    | some (.num x) =>
      obtain ⟨hvalue, hholds⟩ := (Range.check_eq_ok idRange_exact).mp h
      exact ⟨_, rfl, .number hvalue (idRange_holds.mp hholds)⟩
    | none | some .null | some (.bool _) | some (.arr _) | some (.obj _) => cases h
  · rintro ⟨v, rfl, h⟩
    cases h with
    | text hdigits hlength hvalue hmax =>
      have hmax : n ≤ maxId := hmax
      rw [orderId, if_pos (isIdText_iff.mpr ⟨hdigits, hlength⟩)]
      simp only [toNat?_digits hdigits, Option.getD_some, hvalue, if_pos hmax]
    | number hvalue hmax =>
      exact (Range.check_eq_ok idRange_exact).mpr ⟨hvalue, idRange_holds.mpr hmax⟩

theorem spells_ofNat {n : OrderId} (hn : n ≤ 2 ^ 64 - 1) : Spells (.str (Text.ofNat n)) n := by
  have hlength : (Text.ofNat n).length ≤ 20 := by
    rw [ofNat_eq, List.length_map, Nat.length_toDigits_le_iff (by decide) (by decide)]
    exact Nat.lt_of_le_of_lt hn (by decide)
  exact .text (isDigit_ofNat n) ⟨List.length_pos_iff.mpr (ofNat_ne_nil n), hlength⟩
    (digitsValue_ofNat n) hn

theorem name_injective {p q : Party} (h : p.name = q.name) : p = q := by
  have hexternal : ∀ n, Text.ofNat n ≠ ofString "EXTERNAL" := fun n hn => by
    have hdigit := isDigit_ofNat n (unit 'E') (hn ▸ List.mem_cons_self)
    exact absurd hdigit (by decide)
  cases p with
  | «local» n =>
    cases q with
    | «local» m =>
      have hvalue := congrArg digitsValue (show Text.ofNat n = Text.ofNat m from h)
      rw [digitsValue_ofNat, digitsValue_ofNat] at hvalue
      rw [hvalue]
    | external => exact absurd h (hexternal n)
  | external =>
    cases q with
    | «local» m => exact absurd h.symm (hexternal m)
    | external => rfl

end LimitBook.Input
