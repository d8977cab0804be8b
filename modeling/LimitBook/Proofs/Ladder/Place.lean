import LimitBook.Ladder

namespace LimitBook.Ladder

section Slices

variable {α : Type} (ps : List α) {lo mid hi : Nat}

theorem slice_take (hhi : mid ≤ hi) :
    ((ps.take hi).drop lo).take (mid - lo) = (ps.take mid).drop lo := by
  rw [← List.drop_take, List.take_take, Nat.min_eq_left hhi]

theorem slice_drop (hlo : lo ≤ mid) :
    ((ps.take hi).drop lo).drop (mid - lo) = (ps.take hi).drop mid := by
  rw [List.drop_drop, Nat.add_sub_cancel' hlo]

theorem slice_append (hlo : lo ≤ mid) (hhi : mid ≤ hi) :
    (ps.take mid).drop lo ++ (ps.take hi).drop mid = (ps.take hi).drop lo := by
  rw [← slice_take ps hhi, ← slice_drop ps hlo, List.take_append_drop]

theorem slice_middle (hlt : lo < hi) (hps : hi ≤ ps.length) :
    ∃ c, ps[(lo + hi) / 2]? = some c ∧ ((ps.take hi).drop lo).length / 2 = (lo + hi) / 2 - lo ∧
      ((ps.take hi).drop lo)[((ps.take hi).drop lo).length / 2]? = some c := by
  have hlen : ((ps.take hi).drop lo).length / 2 = (lo + hi) / 2 - lo := by
    rw [List.length_drop, List.length_take, Nat.min_eq_left hps]
    omega
  have hmid : lo + ((lo + hi) / 2 - lo) = (lo + hi) / 2 := by omega
  have hc : ps[(lo + hi) / 2]? = some _ := List.getElem?_eq_getElem (by omega)
  refine ⟨_, hc, hlen, ?_⟩
  rw [hlen, List.getElem?_drop, hmid, List.getElem?_take_of_lt (by omega), hc]

end Slices

section Place

variable {α : Type} [Scalar α]

/-- Where a price goes in a list from best to worst, searched for between two bounds. -/
def place (side : Side) (p : α) (ps : List α) (lo hi : Nat) : Nat :=
  if lo < hi then
    let mid := (lo + hi) / 2
    if ps[mid]?.any (better side · p) then place side p ps (mid + 1) hi
    else place side p ps lo mid
  else lo
termination_by hi - lo

theorem place_bounds (side : Side) (p : α) (ps : List α) {lo hi : Nat} (h : lo ≤ hi) :
    lo ≤ place side p ps lo hi ∧ place side p ps lo hi ≤ hi := by
  fun_induction place side p ps lo hi <;> grind

theorem insertPrice_halve {side : Side} {p c : α} {ps : List α}
    (hc : ps[ps.length / 2]? = some c) :
    insertPrice side p ps =
      if better side c p then
        ps.take (ps.length / 2 + 1) ++ insertPrice side p (ps.drop (ps.length / 2 + 1))
      else insertPrice side p (ps.take (ps.length / 2)) ++ ps.drop (ps.length / 2) := by
  rw [insertPrice]
  split
  · next hn => exact absurd (hn.symm.trans hc) (by simp)
  · next d hd => rw [Option.some.inj (hd.symm.trans hc)]

theorem insertPrice_slice (side : Side) (p : α) (ps : List α) {lo hi : Nat} (h : lo ≤ hi)
    (hps : hi ≤ ps.length) :
    insertPrice side p ((ps.take hi).drop lo) =
      (ps.take (place side p ps lo hi)).drop lo ++
        p :: (ps.take hi).drop (place side p ps lo hi) := by
  fun_induction place side p ps lo hi with
  | case1 lo hi hlt mid hb ih =>
    obtain ⟨c, hc, hlen, hqs⟩ := slice_middle ps hlt hps
    have hlo : lo ≤ mid + 1 := by omega
    have hhi : mid + 1 ≤ hi := by omega
    have hnext : (lo + hi) / 2 - lo + 1 = mid + 1 - lo := by omega
    have hbc : better side c p = true := by simpa [mid, hc] using hb
    rw [insertPrice_halve hqs, if_pos hbc, hlen, hnext, slice_take ps hhi, slice_drop ps hlo,
      ih hhi hps, ← List.append_assoc, slice_append ps hlo (place_bounds side p ps hhi).1]
  | case2 lo hi hlt mid hb ih =>
    obtain ⟨c, hc, hlen, hqs⟩ := slice_middle ps hlt hps
    have hlo : lo ≤ mid := by omega
    have hhi : mid ≤ hi := by omega
    have hbc : ¬better side c p = true := by simpa [mid, hc] using hb
    rw [insertPrice_halve hqs, if_neg hbc, hlen, slice_take ps hhi, slice_drop ps hlo,
      ih hlo (Nat.le_trans hhi hps), List.append_assoc, List.cons_append,
      slice_append ps (place_bounds side p ps hlo).2 hhi]
  | case3 lo hi hlt =>
    obtain rfl : lo = hi := by omega
    have hnil : (ps.take lo).drop lo = [] := by simp
    rw [hnil, insertPrice]
    simp

theorem insertPrice_eq_place (side : Side) (p : α) (ps : List α) :
    insertPrice side p ps =
      ps.take (place side p ps 0 ps.length) ++ p :: ps.drop (place side p ps 0 ps.length) := by
  simpa using insertPrice_slice side p ps (Nat.zero_le _) (Nat.le_refl ps.length)

theorem upsert_place {l : Ladder α} {p : α} (hl : l.level? p = none) :
    (l.upsert p).2.prices = l.prices.take (place l.side p l.prices 0 l.size) ++
      p :: l.prices.drop (place l.side p l.prices 0 l.size) := by
  simp only [upsert, hl]
  exact insertPrice_eq_place l.side p l.prices

end Place

end LimitBook.Ladder
