import Mathlib
import LimitBook.Text.Blank

namespace LimitBook.Text

theorem isDigit_iff {u : UInt16} : isDigit u = true ↔ 48 ≤ u.toNat ∧ u.toNat ≤ 57 := by
  have h0 : unit '0' = 48 := rfl
  have h9 : unit '9' = 57 := rfl
  rw [isDigit, Bool.and_eq_true, decide_eq_true_iff, decide_eq_true_iff, h0, h9,
    UInt16.le_iff_toNat_le, UInt16.le_iff_toNat_le]
  rfl

theorem digit?_of_isDigit {u : UInt16} (h : isDigit u = true) : digit? u = some (u.toNat - 48) := by
  rw [digit?, if_pos h]
  rfl

theorem digit_lt_ten {u : UInt16} (h : isDigit u = true) : u.toNat - 48 < 10 := by
  have := (isDigit_iff.mp h).2
  omega

def appendDigits (n : Nat) (t : Text) : Nat := t.foldl (fun n u => 10 * n + (u.toNat - 48)) n

def digitsValue (t : Text) : Nat := appendDigits 0 t

theorem appendDigits_append (n : Nat) (s t : Text) :
    appendDigits n (s ++ t) = appendDigits (appendDigits n s) t := List.foldl_append

theorem appendDigits_eq (n : Nat) (t : Text) :
    appendDigits n t = n * 10 ^ t.length + digitsValue t := by
  induction t using List.reverseRecOn with
  | nil => exact (Nat.mul_one n).symm
  | append_singleton t u ih =>
    have hlast : ∀ n, appendDigits n (t ++ [u]) = 10 * appendDigits n t + (u.toNat - 48) := fun n =>
      appendDigits_append n t [u]
    rw [digitsValue, hlast, hlast, ih, ← digitsValue, List.length_append, List.length_singleton,
      Nat.pow_succ]
    ring

theorem digitsValue_append (s t : Text) :
    digitsValue (s ++ t) = digitsValue s * 10 ^ t.length + digitsValue t := by
  rw [digitsValue, appendDigits_append, appendDigits_eq, ← digitsValue]

theorem foldlM_digits {t : Text} (h : ∀ u ∈ t, isDigit u = true) (n : Nat) :
    t.foldlM (fun n u => (digit? u).bind fun d => if d < 10 then some (10 * n + d) else none) n =
      some (appendDigits n t) := by
  induction t generalizing n with
  | nil => rfl
  | cons u t ih =>
    obtain ⟨hu, ht⟩ := List.forall_mem_cons.mp h
    rw [List.foldlM_cons, digit?_of_isDigit hu, Option.bind_some, if_pos (digit_lt_ten hu)]
    exact ih ht _

theorem toNat?_digits {t : Text} (h : ∀ u ∈ t, isDigit u = true) :
    toNat? 10 t = some (digitsValue t) := foldlM_digits h 0

theorem digitsValue_lt {t : Text} (h : ∀ u ∈ t, isDigit u = true) :
    digitsValue t < 10 ^ t.length := by
  induction t using List.reverseRecOn with
  | nil => exact Nat.one_pos
  | append_singleton t u ih =>
    obtain ⟨ht, hu⟩ := List.forall_mem_append.mp h
    have hlast := digit_lt_ten (hu u (List.mem_singleton_self u))
    have hvalue : digitsValue (t ++ [u]) = 10 * digitsValue t + (u.toNat - 48) :=
      appendDigits_append 0 t [u]
    have := ih ht
    rw [hvalue, List.length_append, List.length_singleton, Nat.pow_succ]
    omega

theorem digitsValue_replicate_zero (n : Nat) : digitsValue (List.replicate n (unit '0')) = 0 := by
  induction n with
  | zero => rfl
  | succ n ih => exact ih

theorem toNat_unit_of_digit {c : Char} (h : c.isDigit = true) : (unit c).toNat = c.toNat := by
  have hle : c.toNat ≤ 57 := by
    simp only [Char.isDigit, Bool.and_eq_true, decide_eq_true_eq] at h
    exact h.2
  exact Nat.mod_eq_of_lt (Nat.lt_of_le_of_lt hle (by decide))

theorem isDigit_unit {c : Char} (h : c.isDigit = true) : isDigit (unit c) = true := by
  rw [isDigit_iff, toNat_unit_of_digit h]
  simp only [Char.isDigit, Bool.and_eq_true, decide_eq_true_eq] at h
  exact h

theorem ofChars_digits {cs : List Char} (h : ∀ c ∈ cs, c.isDigit = true) :
    ofChars cs = cs.map unit := by
  induction cs with
  | nil => rfl
  | cons c cs ih =>
    obtain ⟨hc, hcs⟩ := List.forall_mem_cons.mp h
    have hsmall : c.toNat < 0x10000 := by
      rw [← toNat_unit_of_digit hc]
      exact (unit c).toNat_lt
    rw [ofChars, List.flatMap_cons, ← ofChars, ih hcs, charUnits, if_pos hsmall]
    rfl

theorem digitsValue_digits {cs : List Char} (h : ∀ c ∈ cs, c.isDigit = true) :
    digitsValue (cs.map unit) = Nat.ofDigitChars 10 cs 0 := by
  rw [digitsValue, appendDigits, List.foldl_map, Nat.ofDigitChars_eq_foldl]
  refine List.foldl_ext _ _ _ fun n c hc => ?_
  rw [toNat_unit_of_digit (h c hc)]
  rfl

theorem isDigit_of_mem_toDigits {n : Nat} : ∀ c ∈ Nat.toDigits 10 n, c.isDigit = true := fun _ hc =>
  Nat.isDigit_of_mem_toDigits (by decide) (by decide) hc

theorem ofNat_eq (n : Nat) : ofNat n = (Nat.toDigits 10 n).map unit :=
  ofChars_digits isDigit_of_mem_toDigits

theorem isDigit_ofNat (n : Nat) : ∀ u ∈ ofNat n, isDigit u = true := by
  rw [ofNat_eq]
  exact List.forall_mem_map.mpr fun c hc => isDigit_unit (isDigit_of_mem_toDigits c hc)

theorem ofNat_ne_nil (n : Nat) : ofNat n ≠ [] := by
  rw [ofNat_eq]
  exact mt List.map_eq_nil_iff.mp Nat.toDigits_ne_nil

theorem digitsValue_ofNat (n : Nat) : digitsValue (ofNat n) = n := by
  rw [ofNat_eq, digitsValue_digits isDigit_of_mem_toDigits, Nat.ofDigitChars_ten_toDigits]

theorem takeWhile_digits {s t : Text} (hs : ∀ u ∈ s, isDigit u = true)
    (ht : ∀ u ∈ t.head?, isDigit u = false) : (s ++ t).takeWhile isDigit = s := by
  rw [List.takeWhile_append_of_pos hs]
  cases t with
  | nil => rw [List.takeWhile_nil, List.append_nil]
  | cons u t => rw [List.takeWhile_cons_of_neg (by simpa using ht u rfl), List.append_nil]

theorem dropWhile_digits {s t : Text} (hs : ∀ u ∈ s, isDigit u = true)
    (ht : ∀ u ∈ t.head?, isDigit u = false) : (s ++ t).dropWhile isDigit = t := by
  rw [List.dropWhile_append_of_pos hs]
  cases t with
  | nil => rfl
  | cons u t => rw [List.dropWhile_cons_of_neg (by simpa using ht u rfl)]

theorem isBlank_of_isDigit {u : UInt16} (h : isDigit u = true) : isBlank u = false := by
  have hblanks : blanks.all (!isDigit ·) = true := by decide
  by_contra hb
  rw [Bool.not_eq_false, isBlank, List.contains_iff_mem] at hb
  have := List.all_eq_true.mp hblanks u hb
  rw [h] at this
  cases this

theorem trimWhere_of_none {p : UInt16 → Bool} {t : Text} (h : ∀ u ∈ t, p u = false) :
    trimWhere p t = t := by
  have hdrop : ∀ s : Text, (∀ u ∈ s, p u = false) → s.dropWhile p = s := fun s hs => by
    cases s with
    | nil => rfl
    | cons u s => rw [List.dropWhile_cons_of_neg (by simpa using hs u List.mem_cons_self)]
  rw [trimWhere, hdrop t h, hdrop _ fun u hu => h u (List.mem_reverse.mp hu), List.reverse_reverse]

end LimitBook.Text
