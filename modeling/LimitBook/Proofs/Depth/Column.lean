import LimitBook.Depth.Table
import LimitBook.Proofs.Book.Depth
import LimitBook.Proofs.Number.Width

namespace LimitBook

open Text

namespace Number

theorem bar_notMem_digits {t : Text} (h : ∀ u ∈ t, isDigit u = true) : unit '|' ∉ t := fun hbar =>
  absurd (h _ hbar) (by decide)

theorem bar_notMem_signed (n : Int) : unit '|' ∉ signed n := by
  have hdigits := bar_notMem_digits (isDigit_ofNat n.natAbs)
  unfold signed
  split_ifs <;> exact List.not_mem_cons_of_ne_of_not_mem (by decide) hdigits

theorem bar_notMem_place (l : Layout) {d : Digits} (hd : ∀ u ∈ ofChars d.chars, isDigit u = true) :
    unit '|' ∉ l.place d := by
  have hdigits := bar_notMem_digits hd
  have hzeros : ∀ n, unit '|' ∉ zeros n := fun n hbar =>
    absurd (List.eq_of_mem_replicate hbar) (by decide)
  have htail : unit '|' ∉ unit 'e' :: signed (d.point - 1) :=
    List.not_mem_cons_of_ne_of_not_mem (by decide) (bar_notMem_signed _)
  have hzero : unit '|' ∉ ofString "0." := by decide
  have hpoint : unit '|' ≠ unit '.' := by decide
  unfold Layout.place
  simp only
  generalize ofChars d.chars = digits at *
  split_ifs with hbefore hwithin hlong
  · simp only [List.mem_append, hzero, hzeros, hdigits, or_self, not_false_eq_true]
  · simp only [List.mem_append, hzeros, hdigits, or_self, not_false_eq_true]
  · simp only [List.mem_append, List.mem_cons, hpoint, mt List.mem_of_mem_take hdigits,
      mt List.mem_of_mem_drop hdigits, or_self, not_false_eq_true]
  · cases digits with
    | nil => exact htail
    | cons u us =>
      obtain ⟨hu, hus⟩ := not_or.mp (List.mem_cons.not.mp hdigits)
      cases us with
      | nil => exact List.not_mem_cons_of_ne_of_not_mem hu htail
      | cons v us =>
        have hrest : unit '|' ∉ v :: us ++ unit 'e' :: signed (d.point - 1) := fun hbar =>
          (List.mem_append.mp hbar).elim hus htail
        exact List.not_mem_cons_of_ne_of_not_mem hu
          (List.not_mem_cons_of_ne_of_not_mem hpoint hrest)

theorem bar_notMem_format {q : ℚ} {x : Float}
    (h : Double.Nearest .positive q (Double.view x)) : unit '|' ∉ plain.format x := by
  obtain hformat | hformat | ⟨m, e, hm, hc, -, hformat⟩ := format_of_nearest h
  · rw [hformat]
    decide
  · rw [hformat]
    decide
  · obtain ⟨n, k, hn, hshortest, -⟩ := shortest_near hm hc
    rw [hformat]
    exact bar_notMem_place plain (Json.Grammar.ofScaled_leading hn hshortest).1.digits.all

end Number

namespace Depth

open Book BookM

def header : Text := padStart columnWidth (unit ' ') "Price" ++ bar ++ ofString "Quantity"

/-- Where the bar of a line stands. -/
def barColumn (line : Text) : Nat := (line.takeWhile (· != unit '|')).length

theorem length_padStart (width : Nat) (fill : UInt16) (t : Text) :
    (padStart width fill t).length = max width t.length := by
  rw [padStart, List.length_append, List.length_replicate]
  omega

theorem barColumn_padStart {t : Text} (ht : unit '|' ∉ t) (width : Nat) (rest : Text) :
    barColumn (padStart width (unit ' ') t ++ bar ++ rest) = max width t.length + 1 := by
  have hbar : bar = [unit ' '] ++ unit '|' :: [unit ' '] := by decide
  have hbefore : ∀ u ∈ padStart width (unit ' ') t ++ [unit ' '], (u != unit '|') = true := by
    intro u hu
    rw [bne_iff_ne]
    rintro rfl
    simp only [padStart, List.mem_append, List.mem_singleton] at hu
    obtain (hblank | hin) | hblank := hu
    · exact absurd (List.eq_of_mem_replicate hblank) (by decide)
    · exact ht hin
    · exact absurd hblank (by decide)
  rw [barColumn, hbar, ← List.append_assoc, List.append_assoc,
    List.takeWhile_append_of_pos hbefore, List.cons_append, List.takeWhile_cons_of_neg (by decide),
    List.append_nil, List.length_append, length_padStart, List.length_singleton]

theorem amount_spec {x : Float} (hx : Scalar.isPositive x = true) :
    (amount x).length ≤ 21 ∧ unit '|' ∉ amount x := by
  obtain ⟨m, e, hm, hview⟩ := Double.view_of_isPositive hx
  have hnearest := Number.roundTo_nearest hview digitsShown
  obtain ⟨hlow, hhigh⟩ := Number.significant_bounds hm e (show 1 ≤ digitsShown by decide)
  have hpos := Nat.lt_of_lt_of_le (Nat.pow_pos (by decide)) hlow
  exact ⟨Number.format_length_le ⟨hpos, hhigh⟩ hnearest, Number.bar_notMem_format hnearest⟩

theorem length_amount_decimal {n k : Nat} (hn : n < 10 ^ 11) (hk : k ≤ 10)
    (hpos : Scalar.isPositive (Number.ofDecimal false n (-k)) = true) :
    (amount (Number.ofDecimal false n (-k))).length ≤ 12 := by
  obtain rfl | hn' := Nat.eq_zero_or_pos n
  · have hzero : Number.ofDecimal false 0 (-k) = 0.0 := rfl
    rw [hzero] at hpos
    exact absurd hpos (by decide +kernel)
  · have hshort : Number.Short n k := ⟨hn', hn, hk⟩
    have hrounded : Number.roundTo digitsShown (Number.ofDecimal false n (-k)) = _ := hshort.roundTo
    rw [amount, hrounded]
    exact hshort.format_length_le

theorem barColumn_header : barColumn header = columnWidth + 1 := by
  rw [header, barColumn_padStart (by decide)]
  rfl

theorem barColumn_row {r : Row Float} (hr : Scalar.isPositive r.price = true) :
    barColumn (row r) = max columnWidth (amount r.price).length + 1 :=
  barColumn_padStart (amount_spec hr).2 columnWidth _

section Tables

variable {ω : Type} {clock : BookM Float ω Float} {b : Book Float}

theorem isPositive_of_mem_view (h : b.Filed) (n : Nat) :
    ∀ r ∈ (b.view n).asks ++ (b.view n).bids, Scalar.isPositive r.price = true := by
  have hrows : ∀ side, ∀ r ∈ rows (b.ladder side) n, Scalar.isPositive r.price = true := by
    intro side r hr
    rw [h.rows_eq] at hr
    obtain ⟨k, hk, rfl⟩ := List.mem_map.mp hr
    exact (h.ranks side).positive k (List.mem_of_mem_take hk)
  intro r hr
  obtain hr | hr := List.mem_append.mp hr
  · exact hrows .sell r (List.mem_reverse.mp hr)
  · exact hrows .buy r hr

theorem mem_lines (symbol : Text) (d : Book.Depth Float) (seq : Option Float) :
    header ∈ lines symbol d seq ∧ ∀ r ∈ d.asks ++ d.bids, row r ∈ lines symbol d seq := by
  refine ⟨by simp [lines, header], fun r hr => ?_⟩
  obtain hask | hbid := List.mem_append.mp hr
  · simp [lines, List.mem_map_of_mem (f := row) hask]
  · simp [lines, List.mem_map_of_mem (f := row) hbid]

/-- The bar of a row stands where the longer one of its price and the column ends. So it stands
under that of the header exactly if the price takes twelve units of text at most, as all prices of
up to eleven digits do, of which up to ten are behind the point; and whatever the price is, no more
than nine to the right of it. -/
theorem bars_after (hd : Discreet clock) (calls : List (Call Float)) (symbol : Text) (w : ω)
    (n : Float) (name : Text) (seq : Option Float) :
    let s := after clock calls (empty symbol, w)
    ∃ d, (depth n).run s = (.ok d, s) ∧ header ∈ lines name d seq ∧
      ∀ r ∈ d.asks ++ d.bids, row r ∈ lines name d seq ∧
        barColumn (row r) = max (barColumn header) ((amount r.price).length + 1) ∧
        (barColumn (row r) = barColumn header ↔ (amount r.price).length ≤ 12) ∧
        barColumn (row r) ≤ barColumn header + 9 ∧
        ∀ m k : Nat, m < 10 ^ 11 → k ≤ 10 → r.price = Number.ofDecimal false m (-k) →
          barColumn (row r) = barColumn header := by
  intro s
  obtain ⟨hf, hb⟩ : s.1.Filed ∧ s.1.busy = false := filed_after hd calls symbol w
  refine ⟨_, depth_run n hb, (mem_lines name _ seq).1, fun r hr => ?_⟩
  have hprice := isPositive_of_mem_view hf _ r hr
  have hlength := (amount_spec hprice).1
  have hwidth : columnWidth = 12 := rfl
  rw [barColumn_row hprice, barColumn_header]
  refine ⟨(mem_lines name _ seq).2 r hr, by omega, by omega, by omega, fun m k hm hk hdecimal => ?_⟩
  have hshort := length_amount_decimal hm hk (hdecimal ▸ hprice)
  rw [← hdecimal] at hshort
  omega

def tickCalls : List (Call Float) :=
  [.updateLevel ⟨.buy, 67123.4, 1⟩, .updateLevel ⟨.sell, 67123.5, 2⟩]

theorem bars_after_tickCalls :
    let s := after (pure 0) tickCalls (empty [], ())
    Discreet (pure 0 : BookM Float Unit Float) ∧ ∃ d, (depth 5).run s = (.ok d, s) ∧
      (d.asks ++ d.bids).map (·.price) = [67123.5, 67123.4] ∧
      ∀ r ∈ d.asks ++ d.bids, barColumn (row r) = barColumn header := by
  intro s
  obtain ⟨d, hrun, -, hrows⟩ := bars_after (discreet_pure 0) tickCalls [] () 5 [] none
  have hview := hrun.symm.trans (depth_run 5 (filed_after (discreet_pure 0) tickCalls [] ()).2)
  obtain rfl : d = s.1.view (Scalar.floorNat (5 : Float)) := Except.ok.inj (Prod.mk.inj hview).1
  have hprices : (((s.1.view (Scalar.floorNat (5 : Float))).asks ++
      (s.1.view (Scalar.floorNat (5 : Float))).bids).map (·.price)) = [67123.5, 67123.4] := by
    decide +kernel
  refine ⟨discreet_pure 0, _, hrun, hprices, fun r hr => ?_⟩
  obtain ⟨-, -, -, -, hticks⟩ := hrows r hr
  have hprice : r.price = 67123.5 ∨ r.price = 67123.4 := by
    have hmem : r.price ∈ ([67123.5, 67123.4] : List Float) := hprices ▸ List.mem_map_of_mem hr
    simpa using hmem
  obtain hask | hbid := hprice
  · exact hticks 671235 1 (by decide) (by decide) (hask.trans (by decide +kernel))
  · exact hticks 671234 1 (by decide) (by decide) (hbid.trans (by decide +kernel))

/-- A price of twelve digits with its point is one unit of text too long. -/
theorem crooked_of_longPrice :
    let s := after (pure 0) [.updateLevel ⟨.buy, 123456.789012, 1⟩] (empty [], ())
    Discreet (pure 0 : BookM Float Unit Float) ∧ ∃ d, (depth 5).run s = (.ok d, s) ∧
      ∃ r ∈ d.bids, Scalar.isPositive r.price = true ∧ row r ∈ lines [] d none ∧
        amount r.price = ofString "123456.789012" ∧
        barColumn (row r) = 14 ∧ barColumn header = 13 := by
  intro s
  have hprices : (s.1.view (Scalar.floorNat (5 : Float))).bids.map (·.price) = [123456.789012] := by
    decide +kernel
  obtain ⟨r, hr, hprice⟩ := List.mem_map.mp (hprices ▸ List.mem_singleton_self _)
  have hpos : Scalar.isPositive r.price = true := hprice ▸ (by decide +kernel)
  have hamount : amount r.price = ofString "123456.789012" := hprice ▸ (by decide +kernel)
  refine ⟨discreet_pure 0, _, depth_run 5 (filed_after (discreet_pure 0) _ [] ()).2, r, hr, hpos,
    (mem_lines [] _ none).2 r (List.mem_append_right _ hr), hamount, ?_, barColumn_header⟩
  rw [barColumn_row hpos, hamount]
  decide

end Tables

end Depth

end LimitBook
