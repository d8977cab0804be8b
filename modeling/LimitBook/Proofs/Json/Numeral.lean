import LimitBook.Json.Reader
import LimitBook.Proofs.Json.Grammar

namespace LimitBook.Json.Grammar

open Text Double Reader

/-- The units that a numeral starts with, and what the reader has of them. -/
inductive Scanned : Text → Reader.Numeral → Prop where
  | minus : Scanned [unit '-'] ⟨.minus, true, 0, 0, false, 0⟩
  | whole {sign whole : Text} {negative : Bool} (hs : Minus sign negative) (hw : Whole whole) :
      Scanned (sign ++ whole) ⟨if whole = [unit '0'] then .zero else .whole, negative,
        digitsValue whole, 0, false, 0⟩
  | point {sign whole : Text} {negative : Bool} (hs : Minus sign negative) (hw : Whole whole) :
      Scanned (sign ++ whole ++ [unit '.']) ⟨.point, negative, digitsValue whole, 0, false, 0⟩
  | fraction {sign whole places : Text} {negative : Bool} (hs : Minus sign negative)
      (hw : Whole whole) (hp : Digits places) :
      Scanned (sign ++ whole ++ unit '.' :: places)
        ⟨.fraction, negative, digitsValue (whole ++ places), places.length, false, 0⟩
  | mark {t : Text} {negative : Bool} {n places : Nat} {u : UInt16}
      (hm : Mantissa t negative n places) (hu : u = unit 'e' ∨ u = unit 'E') :
      Scanned (t ++ [u]) ⟨.mark, negative, n, places, false, 0⟩
  | sign {t : Text} {negative : Bool} {n places : Nat} {u v : UInt16}
      (hm : Mantissa t negative n places) (hu : u = unit 'e' ∨ u = unit 'E')
      (hv : v = unit '+' ∨ v = unit '-') :
      Scanned (t ++ [u, v]) ⟨.sign, negative, n, places, v == unit '-', 0⟩
  | exponent {t ds tail : Text} {negative lowered : Bool} {n places : Nat} {u : UInt16}
      (hm : Mantissa t negative n places) (hu : u = unit 'e' ∨ u = unit 'E')
      (ht : tail = ds ∧ lowered = false ∨ tail = unit '+' :: ds ∧ lowered = false ∨
        tail = unit '-' :: ds ∧ lowered = true) (hd : Digits ds) :
      Scanned (t ++ u :: tail) ⟨.exponent, negative, n, places, lowered, digitsValue ds⟩

theorem Digits.singleton {u : UInt16} (hu : isDigit u = true) : Digits [u] :=
  ⟨List.cons_ne_nil _ _, List.forall_mem_singleton.mpr hu⟩

theorem Digits.snoc {t : Text} (h : Digits t) {u : UInt16} (hu : isDigit u = true) :
    Digits (t ++ [u]) :=
  ⟨List.append_ne_nil_of_left_ne_nil h.ne_nil _,
    List.forall_mem_append.mpr ⟨h.all, List.forall_mem_singleton.mpr hu⟩⟩

theorem digitsValue_snoc (t : Text) (u : UInt16) :
    digitsValue (t ++ [u]) = 10 * digitsValue t + (u.toNat - 48) := appendDigits_append 0 t [u]

theorem digitsValue_singleton (u : UInt16) : digitsValue [u] = u.toNat - 48 := Nat.zero_add _

theorem digit_eq_zero_iff {u : UInt16} (hu : isDigit u = true) : u.toNat - 48 = 0 ↔ u = unit '0' := by
  have hzero : (unit '0').toNat = 48 := rfl
  rw [← UInt16.toNat_inj, hzero]
  have := (isDigit_iff.mp hu).1
  omega

theorem Whole.singleton {u : UInt16} (hu : isDigit u = true) : Whole [u] :=
  ⟨.singleton hu, fun h => by rw [Option.some.inj h]⟩

theorem Whole.snoc {t : Text} (h : Whole t) (hne : t ≠ [unit '0']) {u : UInt16}
    (hu : isDigit u = true) : Whole (t ++ [u]) := by
  obtain ⟨v, t, rfl⟩ := List.exists_cons_of_ne_nil h.digits.ne_nil
  exact ⟨h.digits.snoc hu, fun hlead => absurd (h.lead hlead) hne⟩

theorem Digits.snoc_ne {t : Text} (h : Digits t) (u v : UInt16) : t ++ [u] ≠ [v] := fun heq => by
  obtain ⟨hnil, -⟩ | ⟨-, hnil⟩ := List.append_eq_singleton_iff.mp heq
  · exact h.ne_nil hnil
  · cases hnil

theorem extend_digit (n : Reader.Numeral) {u : UInt16} (hu : isDigit u = true) :
    n.extend u = n.digit (u.toNat - 48) := by
  rw [Numeral.extend, if_pos hu, digit?_of_isDigit hu]
  rfl

theorem scanned_start {u : UInt16} {n : Reader.Numeral} (h : Numeral.start? u = some n) :
    Scanned [u] n := by
  unfold Numeral.start? at h
  split_ifs at h with hminus hzero hdigit
  · cases h
    rw [hminus]
    exact .minus
  · cases h
    subst hzero
    exact .whole .absent (.singleton rfl)
  · cases h
    have hwhole := Scanned.whole .absent (Whole.singleton hdigit)
    rw [if_neg fun h => hzero (List.cons.inj h).1] at hwhole
    rw [digitsValue_singleton] at hwhole
    rw [digit?_of_isDigit hdigit]
    exact hwhole

theorem Mantissa.whole {sign whole : Text} {negative : Bool} (hs : Minus sign negative)
    (hw : Whole whole) : Mantissa (sign ++ whole) negative (digitsValue whole) 0 := by
  have h := Mantissa.mk hs hw .absent
  rw [List.append_nil, List.append_nil] at h
  exact h

theorem Mantissa.fraction {sign whole places : Text} {negative : Bool} (hs : Minus sign negative)
    (hw : Whole whole) (hp : Digits places) :
    Mantissa (sign ++ whole ++ unit '.' :: places) negative (digitsValue (whole ++ places))
      places.length := .mk hs hw (.present hp)

theorem Scanned.digit {t : Text} {n n' : Reader.Numeral} {u : UInt16} (h : Scanned t n)
    (hu : isDigit u = true) (hn : n.digit (u.toNat - 48) = some n') : Scanned (t ++ [u]) n' := by
  cases h with
  | minus =>
    cases hn
    have hwhole := Scanned.whole .present (.singleton hu)
    simp only [List.cons.injEq, and_true, ← digit_eq_zero_iff hu, digitsValue_singleton] at hwhole
    exact hwhole
  | whole hs hw =>
    rename_i sign whole negative
    split_ifs at hn with hzero
    · cases hn
    · cases hn
      have hnext := Scanned.whole hs (hw.snoc hzero hu)
      rw [if_neg (hw.digits.snoc_ne u _), digitsValue_snoc, ← List.append_assoc] at hnext
      exact hnext
  | point hs hw =>
    cases hn
    have hnext := Scanned.fraction hs hw (.singleton hu)
    rw [digitsValue_snoc] at hnext
    simpa using hnext
  | fraction hs hw hp =>
    cases hn
    have hnext := Scanned.fraction hs hw (hp.snoc hu)
    rw [← List.append_assoc _ _ [u], digitsValue_snoc] at hnext
    simpa using hnext
  | mark hm hmark =>
    cases hn
    have hnext := Scanned.exponent hm hmark (.inl ⟨rfl, rfl⟩) (.singleton hu)
    rw [digitsValue_singleton] at hnext
    simpa using hnext
  | sign hm hmark hv =>
    cases hn
    have htail : ∀ v : UInt16, v = unit '+' ∨ v = unit '-' →
        ([v, u] = [u] ∧ (v == unit '-') = false ∨
          [v, u] = unit '+' :: [u] ∧ (v == unit '-') = false ∨
            [v, u] = unit '-' :: [u] ∧ (v == unit '-') = true) := by
      rintro _ (rfl | rfl)
      · exact .inr (.inl ⟨rfl, rfl⟩)
      · exact .inr (.inr ⟨rfl, rfl⟩)
    have hnext := Scanned.exponent hm hmark (htail _ hv) (.singleton hu)
    rw [digitsValue_singleton] at hnext
    simpa using hnext
  | exponent hm hmark ht hd =>
    cases hn
    have hnext := Scanned.exponent hm hmark (ht.imp (And.imp_left (congrArg (· ++ [u])))
      (Or.imp (And.imp_left (congrArg (· ++ [u]))) (And.imp_left (congrArg (· ++ [u])))))
      (hd.snoc hu)
    rw [digitsValue_snoc] at hnext
    simpa using hnext

theorem extend_other {n n' : Reader.Numeral} {u : UInt16} (hu : isDigit u = false)
    (h : n.extend u = some n') :
    u = unit '.' ∧ (n.phase = .zero ∨ n.phase = .whole) ∧ n' = { n with phase := .point } ∨
      (u = unit 'e' ∨ u = unit 'E') ∧
        (n.phase = .zero ∨ n.phase = .whole ∨ n.phase = .fraction) ∧
          n' = { n with phase := .mark } ∨
      (u = unit '+' ∨ u = unit '-') ∧ n.phase = .mark ∧
        n' = { n with phase := .sign, lowered := u == unit '-' } := by
  unfold Numeral.extend at h
  simp only [hu, Bool.false_eq_true, if_false, Bool.or_eq_true, decide_eq_true_eq] at h
  split_ifs at h with hpoint hmark hsign
  · cases hp : n.phase <;> rw [hp] at h <;> cases h <;> simp [hpoint]
  · cases hp : n.phase <;> rw [hp] at h <;> cases h <;> simp [hmark]
  · cases hp : n.phase <;> rw [hp] at h <;> cases h
    simp [hsign]

theorem Scanned.of_whole {t : Text} {n : Reader.Numeral} (h : Scanned t n)
    (hp : n.phase = .zero ∨ n.phase = .whole) :
    ∃ sign whole negative, t = sign ++ whole ∧ Minus sign negative ∧ Whole whole ∧
      n = ⟨n.phase, negative, digitsValue whole, 0, false, 0⟩ := by
  cases h <;> simp only [reduceCtorEq, or_self] at hp
  rename_i hs hw
  exact ⟨_, _, _, rfl, hs, hw, rfl⟩

theorem Scanned.of_mantissa {t : Text} {n : Reader.Numeral} (h : Scanned t n)
    (hp : n.phase = .zero ∨ n.phase = .whole ∨ n.phase = .fraction) :
    ∃ negative k places, Mantissa t negative k places ∧
      n = ⟨n.phase, negative, k, places, false, 0⟩ := by
  cases h <;> simp only [reduceCtorEq, or_self] at hp
  · rename_i hs hw
    exact ⟨_, _, _, .whole hs hw, rfl⟩
  · rename_i hs hw hplaces
    exact ⟨_, _, _, .fraction hs hw hplaces, rfl⟩

theorem Scanned.extend {t : Text} {n n' : Reader.Numeral} {u : UInt16} (h : Scanned t n)
    (hn : n.extend u = some n') : Scanned (t ++ [u]) n' := by
  by_cases hu : isDigit u = true
  · rw [extend_digit n hu] at hn
    exact h.digit hu hn
  · obtain ⟨rfl, hp, rfl⟩ | ⟨hmark, hp, rfl⟩ | ⟨hsign, hp, rfl⟩ :=
      extend_other (Bool.not_eq_true _ ▸ hu) hn
    · obtain ⟨sign, whole, negative, rfl, hs, hw, hsame⟩ := h.of_whole hp
      rw [hsame]
      exact .point hs hw
    · obtain ⟨negative, k, places, hm, hsame⟩ := h.of_mantissa hp
      rw [hsame]
      exact .mark hm hmark
    · cases h <;> simp only [reduceCtorEq] at hp
      · split_ifs at hp
      · rename_i hm hmark
        rw [List.append_assoc]
        exact .sign hm hmark hsign

theorem Scanned.numeral {t : Text} {n : Reader.Numeral} (h : Scanned t n)
    (hn : n.complete = true) : Numeral t n.toFloat := by
  have hplain : ∀ {negative k places phase}, Mantissa t negative k places →
      n = ⟨phase, negative, k, places, false, 0⟩ → Numeral t n.toFloat := by
    rintro negative k places phase hm rfl
    rw [← List.append_nil t]
    exact .mk hm .absent (Number.ofDecimal_nearest negative k (0 - places))
  cases hp : n.phase with
  | zero | whole | fraction =>
    obtain ⟨negative, k, places, hm, hsame⟩ := h.of_mantissa (by simp [hp])
    exact hplain hm hsame
  | exponent =>
    cases h <;> simp only [reduceCtorEq] at hp
    · split_ifs at hp
    · rename_i hm hmark ht hd
      obtain ⟨rfl, rfl⟩ | ⟨rfl, rfl⟩ | ⟨rfl, rfl⟩ := ht
      · exact .mk hm (.unsigned hmark hd) (Number.ofDecimal_nearest _ _ _)
      · exact .mk hm (.raised hmark hd) (Number.ofDecimal_nearest _ _ _)
      · exact .mk hm (.lowered hmark hd) (Number.ofDecimal_nearest _ _ _)
  | minus | point | mark | sign =>
    rw [Numeral.complete, hp] at hn
    cases hn

theorem Mantissa.scanned {t : Text} {negative : Bool} {n places : Nat}
    (h : Mantissa t negative n places) :
    ∃ phase, (phase = .zero ∨ phase = .whole ∨ phase = .fraction) ∧
      Scanned t ⟨phase, negative, n, places, false, 0⟩ := by
  obtain ⟨hs, hw, _ | hp⟩ := h
  · rw [List.append_nil, List.append_nil]
    refine ⟨_, ?_, .whole hs hw⟩
    split_ifs <;> simp
  · exact ⟨_, .inr (.inr rfl), .fraction hs hw hp⟩

theorem Digits.eq_snoc {t : Text} (h : Digits t) :
    ∃ ds u, t = ds ++ [u] ∧ isDigit u = true ∧ (ds = [] ∨ Digits ds) := by
  obtain rfl | ⟨ds, u, rfl⟩ := List.eq_nil_or_concat t
  · exact absurd rfl h.ne_nil
  · rw [List.concat_eq_append] at *
    obtain ⟨hds, hu⟩ := List.forall_mem_append.mp h.all
    refine ⟨ds, u, rfl, hu u (List.mem_singleton_self u), ?_⟩
    by_cases hne : ds = []
    · exact .inl hne
    · exact .inr ⟨hne, hds⟩

theorem Whole.of_snoc {ds : Text} {u : UInt16} (h : Whole (ds ++ [u])) (hds : Digits ds) :
    Whole ds ∧ ds ≠ [unit '0'] := by
  have hlead : ds.head? ≠ some (unit '0') := fun hhead =>
    hds.snoc_ne u _ (h.lead (by rw [List.head?_append_of_ne_nil _ hds.ne_nil, hhead]))
  exact ⟨⟨hds, fun hhead => absurd hhead hlead⟩, fun heq => hlead (by rw [heq]; rfl)⟩

theorem exponent_back {t ds tail : Text} {negative lowered : Bool} {n places : Nat} {v : UInt16}
    (hm : Mantissa t negative n places) (hu : v = unit 'e' ∨ v = unit 'E')
    (ht : tail = ds ∧ lowered = false ∨ tail = unit '+' :: ds ∧ lowered = false ∨
      tail = unit '-' :: ds ∧ lowered = true) (hd : Digits ds) :
    ∃ s m u, t ++ v :: tail = s ++ [u] ∧ Scanned s m ∧
      m.extend u = some ⟨.exponent, negative, n, places, lowered, digitsValue ds⟩ := by
  obtain ⟨ds, u, rfl, hdigit, rfl | hds⟩ := hd.eq_snoc
  · rw [List.nil_append, digitsValue_singleton]
    have hfirst : ∀ m : Reader.Numeral, m.phase = .mark ∨ m.phase = .sign → m.exponent = 0 →
        m.extend u = some { m with phase := .exponent, exponent := u.toNat - 48 } := by
      intro m hm hzero
      rw [extend_digit _ hdigit, Numeral.digit]
      obtain h | h := hm <;> simp [h, hzero]
    obtain ⟨rfl, rfl⟩ | ⟨rfl, rfl⟩ | ⟨rfl, rfl⟩ := ht
    · exact ⟨_, _, u, by simp, .mark hm hu, hfirst _ (.inl rfl) rfl⟩
    · exact ⟨_, _, u, by simp, .sign hm hu (.inl rfl), hfirst _ (.inr rfl) rfl⟩
    · exact ⟨_, _, u, by simp, .sign hm hu (.inr rfl), hfirst _ (.inr rfl) rfl⟩
  · have hnext : ∀ tail', tail = tail' ++ [u] → Scanned (t ++ v :: tail')
        ⟨.exponent, negative, n, places, lowered, digitsValue ds⟩ →
        ∃ s m u', t ++ v :: tail = s ++ [u'] ∧ Scanned s m ∧ m.extend u' =
          some ⟨.exponent, negative, n, places, lowered, digitsValue (ds ++ [u])⟩ := by
      rintro tail' rfl hscan
      refine ⟨_, _, u, by simp, hscan, ?_⟩
      rw [extend_digit _ hdigit, digitsValue_snoc]
      rfl
    obtain ⟨rfl, rfl⟩ | ⟨rfl, rfl⟩ | ⟨rfl, rfl⟩ := ht
    · exact hnext _ rfl (.exponent hm hu (.inl ⟨rfl, rfl⟩) hds)
    · exact hnext _ rfl (.exponent hm hu (.inr (.inl ⟨rfl, rfl⟩)) hds)
    · exact hnext _ rfl (.exponent hm hu (.inr (.inr ⟨rfl, rfl⟩)) hds)

theorem Scanned.back {t : Text} {n : Reader.Numeral} (h : Scanned t n) :
    (∃ u, t = [u] ∧ Numeral.start? u = some n) ∨
      ∃ s m u, t = s ++ [u] ∧ Scanned s m ∧ m.extend u = some n := by
  cases h with
  | minus => exact .inl ⟨_, rfl, rfl⟩
  | whole hs hw =>
    obtain ⟨ds, u, rfl, hu, rfl | hds⟩ := hw.digits.eq_snoc
    · simp only [List.nil_append, List.cons.injEq, and_true, digitsValue_singleton]
      cases hs with
      | absent =>
        have hminus : u ≠ unit '-' := fun h => by
          rw [h] at hu
          cases hu
        refine .inl ⟨u, rfl, ?_⟩
        rw [Numeral.start?, if_neg hminus, digit?_of_isDigit hu, if_pos hu]
        split_ifs with hzero
        · rw [(digit_eq_zero_iff hu).mpr hzero]
        · rfl
      | present =>
        refine .inr ⟨[unit '-'], _, u, rfl, .minus, ?_⟩
        rw [extend_digit _ hu]
        simp only [Numeral.digit, digit_eq_zero_iff hu]
    · obtain ⟨hwhole, hne⟩ := hw.of_snoc hds
      refine .inr ⟨_, _, u, (List.append_assoc ..).symm, .whole hs hwhole, ?_⟩
      rw [if_neg hne, if_neg (hds.snoc_ne u _), extend_digit _ hu, digitsValue_snoc]
      rfl
  | point hs hw =>
    refine .inr ⟨_, _, unit '.', rfl, .whole hs hw, ?_⟩
    split_ifs <;> rfl
  | fraction hs hw hp =>
    obtain ⟨ds, u, rfl, hu, rfl | hds⟩ := hp.eq_snoc
    · refine .inr ⟨_, _, u, by simp, .point hs hw, ?_⟩
      · rw [extend_digit _ hu, List.nil_append, digitsValue_snoc]
        rfl
    · refine .inr ⟨_, _, u, by simp, .fraction hs hw hds, ?_⟩
      · rw [extend_digit _ hu, ← List.append_assoc, digitsValue_snoc, List.length_append]
        rfl
  | mark hm hu =>
    obtain ⟨phase, hphase, hscan⟩ := hm.scanned
    refine .inr ⟨_, _, _, rfl, hscan, ?_⟩
    obtain rfl | rfl := hu <;> obtain rfl | rfl | rfl := hphase <;> rfl
  | sign hm hu hv =>
    refine .inr ⟨_, _, _, List.append_cons .., .mark hm hu, ?_⟩
    obtain rfl | rfl := hv <;> rfl
  | exponent hm hu ht hd => exact .inr (exponent_back hm hu ht hd)

theorem Scanned.ne_nil {t : Text} {n : Reader.Numeral} (h : Scanned t n) : t ≠ [] := by
  obtain ⟨u, rfl, -⟩ | ⟨s, _, u, rfl, -⟩ := h.back <;> simp

theorem Scanned.run {t : Text} {n : Reader.Numeral} (h : Scanned t n) :
    ∃ u s m, t = u :: s ∧ Numeral.start? u = some m ∧ s.foldlM Numeral.extend m = some n := by
  obtain ⟨size, hsize⟩ : ∃ size, t.length = size := ⟨_, rfl⟩
  induction size generalizing t n with
  | zero => exact absurd (List.length_eq_zero_iff.mp hsize) h.ne_nil
  | succ size ih =>
    obtain ⟨u, rfl, hstart⟩ | ⟨s, m, u, rfl, hm, hextend⟩ := h.back
    · exact ⟨u, [], n, rfl, hstart, rfl⟩
    · obtain ⟨v, s, start, rfl, hstart, hrun⟩ := ih hm (by simpa using hsize)
      refine ⟨v, s ++ [u], start, rfl, hstart, ?_⟩
      rw [List.foldlM_append, hrun]
      simp [hextend]

theorem Numeral.scanned {t : Text} {x : Float} (h : Numeral t x) :
    ∃ n, Scanned t n ∧ n.complete = true ∧ n.toFloat = x := by
  have hmarked : ∀ {s ds tail : Text} {negative lowered : Bool} {n places : Nat} {u : UInt16},
      Mantissa s negative n places → u = unit 'e' ∨ u = unit 'E' → Digits ds →
        (tail = ds ∧ lowered = false ∨ tail = unit '+' :: ds ∧ lowered = false ∨
          tail = unit '-' :: ds ∧ lowered = true) →
        Nearest (Number.signOf negative)
          (n * 10 ^ ((if lowered then -(digitsValue ds : Int) else digitsValue ds) - places)) (view x) →
        ∃ n, Scanned (s ++ u :: tail) n ∧ n.complete = true ∧ n.toFloat = x :=
    fun hm hu hd ht hx => ⟨_, .exponent hm hu ht hd, rfl, (Number.ofDecimal_nearest _ _ _).eq hx⟩
  obtain ⟨hm, he, hx⟩ := h
  cases he with
  | absent =>
    obtain ⟨phase, hphase, hscan⟩ := hm.scanned
    rw [List.append_nil]
    refine ⟨_, hscan, ?_, (Number.ofDecimal_nearest _ _ _).eq hx⟩
    obtain rfl | rfl | rfl := hphase <;> rfl
  | unsigned hu hd => exact hmarked hm hu hd (.inl ⟨rfl, rfl⟩) hx
  | raised hu hd => exact hmarked hm hu hd (.inr (.inl ⟨rfl, rfl⟩)) hx
  | lowered hu hd => exact hmarked hm hu hd (.inr (.inr ⟨rfl, rfl⟩)) hx

end LimitBook.Json.Grammar
