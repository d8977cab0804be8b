import LimitBook.Number.Format
import LimitBook.Proofs.Json.Numeral
import LimitBook.Proofs.Number.Shortest
import LimitBook.Proofs.Number.Value

namespace LimitBook.Json.Grammar

open Text Double Number

/-- Digits that do not begin with a zero. -/
structure Leading (t : Text) : Prop where
  digits : Digits t
  head : t.head? ≠ some (unit '0')

theorem Leading.whole {t : Text} (h : Leading t) : Whole t :=
  ⟨h.digits, fun hlead => absurd hlead h.head⟩

theorem leading_ofNat {n : Nat} (hn : 0 < n) : Leading (Text.ofNat n) := by
  refine ⟨⟨ofNat_ne_nil n, isDigit_ofNat n⟩, fun hlead => ?_⟩
  obtain ⟨t, ht⟩ : ∃ t, Text.ofNat n = unit '0' :: t := by
    cases h : Text.ofNat n with
    | nil => exact absurd h (ofNat_ne_nil n)
    | cons u t =>
      rw [h] at hlead
      cases hlead
      exact ⟨t, rfl⟩
  have hdigits : ∀ u ∈ t, isDigit u = true := fun u hu =>
    isDigit_ofNat n u (ht ▸ List.mem_cons_of_mem _ hu)
  have hsmall : n < 10 ^ t.length := by
    rw [← digitsValue_ofNat n, ht]
    exact digitsValue_lt hdigits
  have hsize : (Nat.toDigits 10 n).length = t.length + 1 := by
    have hlength := congrArg List.length ((ofNat_eq n).symm.trans ht)
    rwa [List.length_map, List.length_cons] at hlength
  obtain ⟨hlow, -⟩ := toDigits_bounds hn
  rw [hsize, Nat.add_sub_cancel] at hlow
  omega

theorem ofScaled_split (n : Nat) (k : Int) :
    ∃ size, Text.ofNat n = ofChars (Number.Digits.ofScaled n k).chars ++ List.replicate size (unit '0') ∧
      (Number.Digits.ofScaled n k).point =
        k + ((ofChars (Number.Digits.ofScaled n k).chars).length + size : Nat) := by
  obtain ⟨cs, hcs⟩ : ∃ cs, cs = Nat.toDigits 10 n := ⟨_, rfl⟩
  have hdigit : ∀ c ∈ cs, c.isDigit = true := hcs ▸ isDigit_of_mem_toDigits
  obtain ⟨kept, hkept⟩ : ∃ kept, kept = (cs.reverse.dropWhile (· == '0')).reverse := ⟨_, rfl⟩
  obtain ⟨size, hsplit⟩ : ∃ size, cs = kept ++ List.replicate size '0' := by
    have hzeros : ∀ c ∈ cs.reverse.takeWhile (· == '0'), c = '0' := fun c hc =>
      eq_of_beq (List.mem_takeWhile_imp (p := (· == '0')) hc)
    refine ⟨(cs.reverse.takeWhile (· == '0')).length, ?_⟩
    rw [← List.reverse_inj, List.reverse_append, List.reverse_replicate, hkept, List.reverse_reverse,
      ← List.eq_replicate_of_mem hzeros, List.takeWhile_append_dropWhile]
  have hchars : (Number.Digits.ofScaled n k).chars = kept := by rw [hkept, hcs]; rfl
  have hmap : ofChars kept = kept.map unit :=
    ofChars_digits fun c hc => hdigit c (hsplit ▸ List.mem_append_left _ hc)
  refine ⟨size, ?_, ?_⟩
  · rw [hchars, hmap, ofNat_eq, ← hcs, hsplit, List.map_append, List.map_replicate]
  · rw [hchars, hmap, List.length_map]
    show k + ((Nat.toDigits 10 n).length : Int) = _
    rw [← hcs, hsplit, List.length_append, List.length_replicate]

theorem ofScaled_leading {n : Nat} (hn : 0 < n) {k : Int} {d : Number.Digits}
    (hd : d = Number.Digits.ofScaled n k) : Leading (ofChars d.chars) ∧
      (digitsValue (ofChars d.chars) * 10 ^ (d.point - (ofChars d.chars).length) : ℚ) =
        n * 10 ^ k := by
  obtain ⟨size, hsplit, hpoint⟩ := ofScaled_split n k
  rw [← hd] at hsplit hpoint
  have hfull := leading_ofNat hn
  have hvalue := digitsValue_ofNat n
  rw [hsplit] at hfull hvalue
  rw [digitsValue_append, digitsValue_replicate_zero, Nat.add_zero, List.length_replicate] at hvalue
  have hne : ofChars d.chars ≠ [] := fun hnil => by
    rw [hnil, show digitsValue [] = 0 from rfl, Nat.zero_mul] at hvalue
    exact hn.ne hvalue
  refine ⟨⟨⟨hne, fun u hu => hfull.digits.all u (List.mem_append_left _ hu)⟩, fun hlead =>
    hfull.head ?_⟩, ?_⟩
  · rw [List.head?_append_of_ne_nil _ hne]
    exact hlead
  · rw [hpoint, ← hvalue]
    push_cast
    rw [show ∀ a b : Int, k + (a + b) - a = b + k by intro a b; ring, zpow_add₀ (by norm_num),
      zpow_natCast, mul_assoc]

/-- A numeral without a sign, and the number that it writes. -/
inductive Written : Text → ℚ → Prop where
  | mk {whole fraction places exponent : Text} {k : Int} (hw : Whole whole)
      (hf : Fraction fraction places) (he : Exponent exponent k) :
      Written (whole ++ fraction ++ exponent) (digitsValue (whole ++ places) * 10 ^ (k - places.length))

theorem written_of {t fraction exponent : Text} {k : Int} {q : ℚ} (whole places : Text)
    (hw : Whole whole) (hf : Fraction fraction places) (he : Exponent exponent k) (ht : t = whole ++ fraction ++ exponent)
    (hq : q = digitsValue (whole ++ places) * 10 ^ (k - places.length)) : Written t q := by
  rw [ht, hq]
  exact .mk hw hf he

theorem Written.numeral {t sign : Text} {q : ℚ} {negative : Bool} {x : Float} (h : Written t q)
    (hs : Minus sign negative) (hx : Nearest (signOf negative) q (view x)) :
    Numeral (sign ++ t) x := by
  obtain ⟨hw, hf, he⟩ := h
  have hnumeral := Numeral.mk (.mk hs hw hf) he hx
  simpa using hnumeral

theorem digits_replicate_append {t : Text} (n : Nat) (h : Digits t) :
    Digits (List.replicate n (unit '0') ++ t) :=
  ⟨List.append_ne_nil_of_right_ne_nil _ h.ne_nil, List.forall_mem_append.mpr
    ⟨fun u hu => by rw [List.eq_of_mem_replicate hu]; rfl, h.all⟩⟩

theorem digitsValue_replicate_append (n : Nat) (t : Text) :
    digitsValue (List.replicate n (unit '0') ++ t) = digitsValue t := by
  rw [digitsValue_append, digitsValue_replicate_zero, Nat.zero_mul, Nat.zero_add]

theorem exponent_signed (n : Int) : Exponent (unit 'e' :: signed n) n := by
  have hdigits : Digits (Text.ofNat n.natAbs) := ⟨ofNat_ne_nil _, isDigit_ofNat _⟩
  unfold signed
  split_ifs with hneg
  · have h := Exponent.lowered (.inl rfl) hdigits
    rwa [digitsValue_ofNat, ← Int.eq_neg_natAbs_of_nonpos hneg.le] at h
  · have h := Exponent.raised (.inl rfl) hdigits
    rwa [digitsValue_ofNat, Int.natAbs_of_nonneg (not_lt.mp hneg)] at h

theorem place_written (l : Layout) {d : Number.Digits} (h : Leading (ofChars d.chars)) :
    Written (l.place d)
      (digitsValue (ofChars d.chars) * 10 ^ (d.point - (ofChars d.chars).length)) := by
  unfold Layout.place
  simp only [Bool.and_eq_true, decide_eq_true_eq]
  generalize ofChars d.chars = ds at *
  generalize d.point = point at *
  split_ifs with hbefore hwithin hlong
  · refine written_of [unit '0'] _ (.singleton rfl)
      (.present (digits_replicate_append point.natAbs h.digits)) .absent
      (by simp [zeros, ofString, ofChars, charUnits, unit]) ?_
    have hvalue : digitsValue ([unit '0'] ++ (List.replicate point.natAbs (unit '0') ++ ds)) =
        digitsValue ds := digitsValue_replicate_append (point.natAbs + 1) ds
    rw [hvalue, List.length_append, List.length_replicate]
    congr 2
    omega
  · refine written_of (ds ++ zeros (point.toNat - ds.length)) _ ⟨⟨?_, ?_⟩, ?_⟩ .absent .absent
      (by simp) ?_
    · exact List.append_ne_nil_of_left_ne_nil h.digits.ne_nil _
    · refine List.forall_mem_append.mpr ⟨h.digits.all, fun u hu => ?_⟩
      rw [List.eq_of_mem_replicate hu]
      rfl
    · intro hlead
      rw [List.head?_append_of_ne_nil _ h.digits.ne_nil] at hlead
      exact absurd hlead h.head
    · rw [List.append_nil, zeros, digitsValue_append, digitsValue_replicate_zero, Nat.add_zero,
        List.length_replicate, List.length_nil, Nat.cast_zero, sub_zero, zpow_zero, mul_one,
        Nat.cast_mul, Nat.cast_pow, Nat.cast_ofNat, ← zpow_natCast]
      congr 2
      omega
  · obtain ⟨size, hsize⟩ : ∃ size, point.toNat = size + 1 := ⟨point.toNat - 1, by omega⟩
    obtain ⟨u, us, rfl⟩ := List.exists_cons_of_ne_nil h.digits.ne_nil
    refine written_of ((u :: us).take point.toNat) ((u :: us).drop point.toNat)
      (Leading.whole ⟨⟨?_, ?_⟩, ?_⟩) (.present ⟨?_, ?_⟩) .absent (by simp) ?_
    · rw [hsize]
      exact List.cons_ne_nil _ _
    · exact fun w hw => h.digits.all w (List.mem_of_mem_take hw)
    · rw [hsize]
      exact h.head
    · exact fun hnil => hlong (List.drop_eq_nil_iff.mp hnil)
    · exact fun w hw => h.digits.all w (List.mem_of_mem_drop hw)
    · rw [List.take_append_drop, List.length_drop]
      congr 2
      omega
  · obtain ⟨u, us, rfl⟩ := List.exists_cons_of_ne_nil h.digits.ne_nil
    have hfirst : Whole [u] := .singleton (h.digits.all u List.mem_cons_self)
    cases us with
    | nil =>
      refine written_of _ _ hfirst .absent (exponent_signed (point - 1)) rfl ?_
      rw [List.append_nil, List.length_singleton, List.length_nil, Nat.cast_one, Nat.cast_zero,
        sub_zero]
    | cons v us =>
      have hrest : Digits (v :: us) :=
        ⟨List.cons_ne_nil _ _, fun w hw => h.digits.all w (List.mem_cons_of_mem _ hw)⟩
      refine written_of _ _ hfirst (.present hrest) (exponent_signed (point - 1)) rfl ?_
      rw [List.singleton_append, List.length_cons]
      congr 2
      omega

theorem numeral_zero : Numeral [unit '0'] 0 := by
  have hzero : Nearest .positive (digitsValue [unit '0'] * 10 ^ (0 : Int)) (view 0) :=
    .zero (by
      rw [show digitsValue [unit '0'] = 0 from rfl, Nat.cast_zero, zero_mul]
      positivity)
  exact Written.numeral (.mk (.singleton rfl) .absent .absent) .absent hzero

theorem shortest_written {m : Nat} {e : Int} (hm : 0 < m) (hc : Canonical m e) :
    ∃ q, Written (plain.place (shortest m e)) q ∧ Near q m e := by
  obtain ⟨n, k, hn, hshortest, hnear⟩ := shortest_near hm hc
  obtain ⟨hlead, hvalue⟩ := ofScaled_leading hn hshortest
  exact ⟨_, place_written plain hlead, hvalue ▸ hnear⟩

theorem beq_zero_iff {x : Float} : (x == 0) = true ↔ rank (view x) = some (0, 0, 0) := by
  rw [beq_iff]
  constructor
  · rintro ⟨a, b, hx, hz, rfl⟩
    rw [hx, ← hz]
    rfl
  · exact fun h => ⟨(0, 0, 0), (0, 0, 0), h, rfl, rfl⟩

def unsignZero (x : Float) : Float := if x == 0 then 0 else x

theorem format_numeral {x : Float} (hx : x.isFinite = true) :
    Numeral (plain.format x) (unsignZero x) := by
  have hfinite : (view x).isFinite = true := hx
  unfold Layout.format unsignZero
  rw [Binary.ofFloat_eq]
  cases hv : view x with
  | notANumber | infinity s =>
    rw [hv] at hfinite
    cases hfinite
  | zero s =>
    rw [if_pos (beq_zero_iff.mpr (by rw [hv]; rfl))]
    exact numeral_zero
  | finite s m e hm =>
    obtain ⟨m, rfl⟩ := Nat.exists_eq_succ_of_ne_zero hm.ne'
    obtain ⟨q, hwritten, hnear⟩ := shortest_written hm (canonical_of_unpack hv)
    have hnearest : Nearest s q (view x) := hv ▸ .finite (canonical_of_unpack hv) hnear
    have hne : rank (view x) ≠ some (0, 0, 0) := by
      rw [hv]
      cases s <;> simp [rank]
    rw [if_neg (beq_zero_iff.not.mpr hne)]
    cases s with
    | positive => exact hwritten.numeral .absent hnearest
    | negative => exact hwritten.numeral .present hnearest

end LimitBook.Json.Grammar
