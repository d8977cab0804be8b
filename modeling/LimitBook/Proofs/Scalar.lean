import LimitBook.Order

namespace LimitBook

/-- What the book takes for granted of its numbers. Nothing is asked of a number that is not finite,
and of arithmetic no more than this: taking a finite number from itself leaves dust, and taking a
smaller one from a larger leaves a finite number. Rounding is free otherwise. -/
class Scalar.Lawful (α : Type) [Scalar α] : Prop where
  lt_iff : ∀ {a b : α}, a < b ↔ a ≤ b ∧ ¬b ≤ a
  beq_iff : ∀ {a b : α}, (a == b) = true ↔ a ≤ b ∧ b ≤ a
  le_trans : ∀ {a b c : α}, a ≤ b → b ≤ c → a ≤ c
  le_total : ∀ {a b : α}, isFinite a = true → isFinite b = true → a ≤ b ∨ b ≤ a
  eq_of_le_of_le : ∀ {a b : α}, isPositive a = true → a ≤ b → b ≤ a → a = b
  finite_zero : isFinite (zero : α) = true
  finite_dust : isFinite (dust : α) = true
  zero_lt_dust : (zero : α) < dust
  finite_sub : ∀ {a b : α}, isFinite a = true → isFinite b = true → zero < b → b ≤ a →
    isFinite (a - b) = true
  sub_self_lt : ∀ {a : α}, isFinite a = true → a - a < dust

namespace Scalar

variable {α : Type} [Scalar α] [Lawful α] {a b c : α}

theorem le_of_lt (h : a < b) : a ≤ b := (Lawful.lt_iff.mp h).1

theorem not_le_of_lt (h : a < b) : ¬b ≤ a := (Lawful.lt_iff.mp h).2

theorem lt_irrefl (a : α) : ¬a < a := fun h => not_le_of_lt h (le_of_lt h)

theorem le_refl (h : isFinite a = true) : a ≤ a := (Lawful.le_total h h).elim id id

theorem lt_of_lt_of_le (hab : a < b) (hbc : b ≤ c) : a < c :=
  Lawful.lt_iff.mpr ⟨Lawful.le_trans (le_of_lt hab) hbc,
    fun h => not_le_of_lt hab (Lawful.le_trans hbc h)⟩

theorem lt_of_le_of_lt (hab : a ≤ b) (hbc : b < c) : a < c :=
  Lawful.lt_iff.mpr ⟨Lawful.le_trans hab (le_of_lt hbc),
    fun h => not_le_of_lt hbc (Lawful.le_trans h hab)⟩

theorem lt_trans (hab : a < b) (hbc : b < c) : a < c := lt_of_lt_of_le hab (le_of_lt hbc)

theorem not_lt_iff (ha : isFinite a = true) (hb : isFinite b = true) : ¬a < b ↔ b ≤ a := by
  constructor
  · intro h
    obtain hab | hba := Lawful.le_total ha hb
    · by_cases hba : b ≤ a
      · exact hba
      · exact absurd (Lawful.lt_iff.mpr ⟨hab, hba⟩) h
    · exact hba
  · exact fun hba hab => not_le_of_lt hab hba

theorem lt_or_le (ha : isFinite a = true) (hb : isFinite b = true) : a < b ∨ b ≤ a := by
  by_cases h : a < b
  · exact .inl h
  · exact .inr ((not_lt_iff ha hb).mp h)

theorem beq_self (h : isFinite a = true) : (a == a) = true :=
  Lawful.beq_iff.mpr ⟨le_refl h, le_refl h⟩

omit [Lawful α] in
theorem isPositive_iff : isPositive a = true ↔ isFinite a = true ∧ zero < a := by
  simp [isPositive]

omit [Lawful α] in
theorem isPositive.finite (h : isPositive a = true) : isFinite a = true :=
  (isPositive_iff.mp h).1

theorem eq_of_beq (ha : isPositive a = true) (h : (a == b) = true) : a = b :=
  have hab := Lawful.beq_iff.mp h
  Lawful.eq_of_le_of_le ha hab.1 hab.2

theorem same_eq_beq (ha : isFinite a = true) : same a b = (a == b) := by
  simp [same, beq_self ha]

theorem same_self (ha : isFinite a = true) : same a a = true := (same_eq_beq ha).trans (beq_self ha)

theorem same_iff (ha : isPositive a = true) : same a b = true ↔ a = b := by
  rw [same_eq_beq (isPositive.finite ha)]
  constructor
  · exact eq_of_beq ha
  · rintro rfl
    exact beq_self (isPositive.finite ha)

theorem lt_or_eq_or_lt (ha : isPositive a = true) (hb : isPositive b = true) :
    a < b ∨ a = b ∨ b < a := by
  obtain h | h := lt_or_le (isPositive.finite ha) (isPositive.finite hb)
  · exact .inl h
  · obtain h' | h' := lt_or_le (isPositive.finite hb) (isPositive.finite ha)
    · exact .inr (.inr h')
    · exact .inr (.inl (Lawful.eq_of_le_of_le ha h' h))

omit [Lawful α] in
theorem smaller_of_lt (h : a < b) : smaller a b = a := by simp [smaller, h]

theorem smaller_of_le (h : b ≤ a) : smaller a b = b := by
  have hn : ¬a < b := fun hab => not_le_of_lt hab h
  simp [smaller, hn, h]

theorem smaller_comm (ha : isPositive a = true) (hb : isPositive b = true) :
    smaller a b = smaller b a := by
  obtain h | rfl | h := lt_or_eq_or_lt ha hb
  · rw [smaller_of_lt h, smaller_of_le (le_of_lt h)]
  · rfl
  · rw [smaller_of_le (le_of_lt h), smaller_of_lt h]

end Scalar

section Quantity

variable {α : Type} [Scalar α]

/-- Finite, and more than dust. -/
def Counts (q : α) : Prop := Scalar.isFinite q = true ∧ negligible q = false

/-- What is left of `r` after a trade of `q`. -/
def leftOver (r q : α) : α := if negligible (r - q) then Scalar.zero else r - q

/-- What is left of `q` after some fills. -/
def remainder (q : α) (fs : List (Fill α)) : α := fs.foldl (fun r f => leftOver r f.quantity) q

theorem Order.fill_remaining (o : Order α) (q : α) :
    (o.fill q).remaining = leftOver o.remaining q := rfl

theorem negligible_iff {q : α} : negligible q = true ↔ q < Scalar.dust := by simp [negligible]

variable [Scalar.Lawful α]

theorem negligible_zero : negligible (Scalar.zero : α) = true :=
  negligible_iff.mpr Scalar.Lawful.zero_lt_dust

theorem leftOver_beq (r q : α) : (leftOver r q == Scalar.zero) = negligible (leftOver r q) := by
  unfold leftOver
  cases hn : negligible (r - q) with
  | true =>
    rw [if_pos rfl, negligible_zero, Scalar.beq_self Scalar.Lawful.finite_zero]
  | false =>
    rw [if_neg Bool.false_ne_true, hn]
    refine Bool.eq_false_iff.mpr fun hz => ?_
    have hle := (Scalar.Lawful.beq_iff.mp hz).1
    have hlt := negligible_iff.mpr (Scalar.lt_of_le_of_lt hle Scalar.Lawful.zero_lt_dust)
    rw [hn] at hlt
    cases hlt

theorem negligible_leftOver (r q : α) : negligible (leftOver r q) = negligible (r - q) := by
  unfold leftOver
  cases hn : negligible (r - q) with
  | true => rw [if_pos rfl, negligible_zero]
  | false => rw [if_neg Bool.false_ne_true, hn]

theorem Order.fill_remaining_beq (o : Order α) (q : α) :
    ((o.fill q).remaining == Scalar.zero) = negligible (o.fill q).remaining :=
  leftOver_beq o.remaining q

namespace Counts

variable {q r : α}

theorem dust_le (h : Counts q) : Scalar.dust ≤ q :=
  (Scalar.not_lt_iff h.1 Scalar.Lawful.finite_dust).mp fun hq =>
    Bool.false_ne_true (h.2.symm.trans (negligible_iff.mpr hq))

theorem zero_lt (h : Counts q) : Scalar.zero < q :=
  Scalar.lt_of_lt_of_le Scalar.Lawful.zero_lt_dust (dust_le h)

theorem beq_zero (h : Counts q) : (q == Scalar.zero) = false :=
  Bool.eq_false_iff.mpr fun hz => Scalar.not_le_of_lt (zero_lt h) (Scalar.Lawful.beq_iff.mp hz).1

theorem isPositive (h : Counts q) : Scalar.isPositive q = true :=
  Scalar.isPositive_iff.mpr ⟨h.1, zero_lt h⟩

omit [Scalar.Lawful α] in
theorem of_finite (h : Scalar.isFinite q = true) : negligible q = true ∨ Counts q := by
  cases hn : negligible q with
  | true => exact .inl rfl
  | false => exact .inr ⟨h, hn⟩

end Counts

theorem isFinite_of_zero_or {q : α} (h : q = Scalar.zero ∨ Counts q) :
    Scalar.isFinite q = true := by
  obtain rfl | h := h
  · exact Scalar.Lawful.finite_zero
  · exact h.1

variable {q r : α}

theorem leftOver_self (h : Scalar.isFinite r = true) : leftOver r r = Scalar.zero := by
  have hn : negligible (r - r) = true := negligible_iff.mpr (Scalar.Lawful.sub_self_lt h)
  simp [leftOver, hn]

theorem leftOver_cases (hr : Scalar.isFinite r = true) (hq : Counts q) (hle : q ≤ r) :
    leftOver r q = Scalar.zero ∨ Counts (leftOver r q) := by
  unfold leftOver
  cases hn : negligible (r - q) with
  | true => exact .inl rfl
  | false => exact .inr ⟨Scalar.Lawful.finite_sub hr hq.1 hq.zero_lt hle, hn⟩

/-- A trade between two quantities that count is of one of them, so it uses up at least one party
and leaves to the other nothing or a quantity that counts. -/
theorem trade_cases (hr : Counts r) (hq : Counts q) :
    Counts (Scalar.smaller r q) ∧
      ((leftOver r (Scalar.smaller r q) = Scalar.zero ∧
          (leftOver q (Scalar.smaller r q) = Scalar.zero ∨
            Counts (leftOver q (Scalar.smaller r q)))) ∨
        (Counts (leftOver r (Scalar.smaller r q)) ∧
          leftOver q (Scalar.smaller r q) = Scalar.zero)) := by
  obtain h | h := Scalar.lt_or_le hr.1 hq.1
  · rw [Scalar.smaller_of_lt h]
    exact ⟨hr, .inl ⟨leftOver_self hr.1, leftOver_cases hq.1 hr (Scalar.le_of_lt h)⟩⟩
  · rw [Scalar.smaller_of_le h]
    refine ⟨hq, ?_⟩
    obtain hz | hc := leftOver_cases hr.1 hq h
    · exact .inl ⟨hz, .inl (leftOver_self hq.1)⟩
    · exact .inr ⟨hc, leftOver_self hq.1⟩

/-- A trade of a order with something left leaves finite remainders, and uses up one of the two. -/
theorem trade_left {taker maker : Order α} (ht : Scalar.isFinite taker.remaining = true)
    (hn : ¬negligible taker.remaining = true) (hm : Counts maker.remaining) :
    let q := Scalar.smaller taker.remaining maker.remaining
    ((taker.fill q).remaining = Scalar.zero ∨ Counts (taker.fill q).remaining) ∧
      ((maker.fill q).remaining = Scalar.zero ∨
        Counts (maker.fill q).remaining ∧ (taker.fill q).remaining = Scalar.zero) := by
  have hc : Counts taker.remaining := (Counts.of_finite ht).resolve_left hn
  obtain ⟨hz, hz' | hc'⟩ | ⟨hc', hz⟩ := (trade_cases hc hm).2
  · exact ⟨.inl hz, .inl hz'⟩
  · exact ⟨.inl hz, .inr ⟨hc', hz⟩⟩
  · exact ⟨.inr hc', .inl hz⟩

end Quantity

end LimitBook
