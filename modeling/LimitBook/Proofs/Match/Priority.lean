import LimitBook.Proofs.Match

namespace LimitBook

variable {α : Type} [Scalar α]

/-- An order of `p` in the line `q` has had its turn: in what is left of the line, `q'`, nothing
stands that stood ahead of it. -/
def Served (p : Party) (q q' : List (α × Handle × Order α)) : Prop :=
  ∃ front c back, (front ++ c :: back).Sublist q ∧ c.2.2.party = p ∧ q'.Sublist (c :: back)

section Served

omit [Scalar α]

variable {p : Party} {q q' r : List (α × Handle × Order α)}

theorem Served.mono (h : Served p q q') {s s' : List (α × Handle × Order α)} (hq : q.Sublist s)
    (hq' : s'.Sublist q') : Served p s s' := by
  obtain ⟨front, c, back, hs, hp, hs'⟩ := h
  exact ⟨front, c, back, hs.trans hq, hp, hq'.trans hs'⟩

theorem Served.behind (h : Served p q q') (r : List (α × Handle × Order α)) :
    Served p (r ++ q) q' := h.mono (List.sublist_append_right r q) (.refl q')

end Served

namespace Ladder

variable {σ : Type} {turn : σ → Level α → Option (σ × Level α × Bool)} {ks : List (Level α)}

/-- Where every turn leaves some of the orders of a level as they stood, so does the whole walk. -/
theorem sift_sublist (hturn : ∀ s k s' k' more, turn s k = some (s', k', more) →
      k'.census.Sublist k.census) (s : σ) :
    ((sift turn ks s).2.flatMap Level.census).Sublist (ks.flatMap Level.census) := by
  fun_induction sift turn ks s with
  | case1 | case2 => exact .refl _
  | case3 k ks s s' k' ht =>
    rw [List.flatMap_append, kept_census, List.flatMap_cons]
    exact (hturn _ _ _ _ _ ht).append (.refl _)
  | case4 k ks s s' k' ht ih =>
    rw [List.flatMap_append, kept_census, List.flatMap_cons]
    exact (hturn _ _ _ _ _ ht).append ih

end Ladder

namespace Match

section Draw

variable {price : α} {rs : List (Resting α)} {taker : Order α} [Scalar.Lawful α]

theorem draw_served (ht : Scalar.isFinite taker.remaining = true)
    (hr : ∀ r ∈ rs, Counts r.order.remaining) :
    ∀ f ∈ (draw taker price rs).fills, ∃ front r back, rs = front ++ r :: back ∧
      r.order.party = f.passive ∧
        ((draw taker price rs).left.map Resting.terms).Sublist ((r :: back).map Resting.terms) := by
  fun_induction draw taker price rs with
  | case1 | case2 => simp
  | case3 taker r rs hn q maker rest fills hm ih =>
    obtain ⟨hq, -⟩ := trade_left ht hn (hr r List.mem_cons_self)
    intro f hf
    obtain rfl | hf := List.mem_cons.mp hf
    · exact ⟨[], r, rs, rfl, rfl, (draw_left _ _ _).cons _⟩
    · obtain ⟨front, r', back, rfl, hp, hl⟩ :=
        ih (isFinite_of_zero_or hq) (fun x hx => hr x (List.mem_cons_of_mem _ hx)) f hf
      exact ⟨r :: front, r', back, rfl, hp, hl⟩
  | case4 taker r rs hn q maker rest fills hm ih =>
    obtain ⟨-, hz⟩ := trade_left ht hn (hr r List.mem_cons_self)
    have hz := (hz.resolve_left fun he => hm (he ▸ negligible_zero)).2
    have hdone : negligible (taker.fill q).remaining = true := hz ▸ negligible_zero
    have hrest : rest.fills = [] := by
      simp only [rest, draw_of_negligible price rs hdone]
    intro f hf
    obtain rfl : f = trade taker price r.order q := by simpa [fills, hrest] using hf
    exact ⟨[], r, rs, rfl, rfl, (draw_left _ _ _).cons_cons _⟩

end Draw

section Incoming

variable {ks : List (Level α)} {n : Nat} [Scalar.Lawful α]

omit [Scalar.Lawful α] in
theorem leave_census (run : Run α) (k : Level α) : (run.leave k).census.Sublist k.census := by
  have h := (draw_left run.taker k.price k.queue).map fun t => (k.price, t)
  rw [List.map_map, List.map_map] at h
  exact h

omit [Scalar.Lawful α] in
theorem sift_census (ks : List (Level α)) (run : Run α) :
    ((Ladder.sift turn ks run).2.flatMap Level.census).Sublist (ks.flatMap Level.census) :=
  Ladder.sift_sublist (fun run k run' k' more hturn => by
    obtain ⟨-, -, -, rfl⟩ := turn_eq_some hturn
    exact leave_census run k) run

theorem through_served (run : Run α) {k : Level α} (ht : Scalar.isFinite run.taker.remaining = true)
    (hk : k.Sound n) {rest rest' : List (α × Handle × Order α)} (hrest : rest'.Sublist rest) :
    ∀ f ∈ (run.through k).fills, f ∈ run.fills ∨
      Served f.passive (k.census ++ rest) ((run.leave k).census ++ rest') := by
  intro f hf
  refine (List.mem_append.mp hf).imp_right fun hf => ?_
  obtain ⟨front, r, back, hq, hp, hl⟩ := draw_served ht hk.counts f hf
  have hl := hl.map fun t => (k.price, t)
  rw [List.map_map, List.map_map] at hl
  refine ⟨front.map fun r => (k.price, r.terms), (k.price, r.terms),
    back.map (fun r => (k.price, r.terms)) ++ rest, ?_, hp, hl.append hrest⟩
  rw [Level.census, hq]
  simp

theorem sift_served (run : Run α) (ht : Scalar.isFinite run.taker.remaining = true)
    (hk : ∀ k ∈ ks, k.Sound n) :
    ∀ f ∈ (Ladder.sift turn ks run).1.fills, f ∈ run.fills ∨
      Served f.passive (ks.flatMap Level.census)
        ((Ladder.sift turn ks run).2.flatMap Level.census) := by
  fun_induction Ladder.sift turn ks run with
  | case1 run | case2 k ks run hturn => exact fun f hf => .inl hf
  | case3 k ks run run' k' hturn => exact absurd (turn_eq_some hturn).2.1 (by simp)
  | case4 k ks run run' k' hturn ih =>
    obtain ⟨-, -, rfl, rfl⟩ := turn_eq_some hturn
    have hcounts := (hk k List.mem_cons_self).counts
    obtain ⟨hf, -, -⟩ := draw_counts k.price ht hcounts
    rw [List.flatMap_append, Ladder.kept_census, List.flatMap_cons]
    intro f hmem
    cases hn : negligible (run.through k).taker.remaining with
    | true =>
      have hrest := sift_census ks (run.through k)
      rw [sift_of_negligible hn] at hmem
      exact through_served run ht (hk k List.mem_cons_self) hrest f hmem
    | false =>
      have hgone : (run.leave k).census = [] := by
        rw [Level.census, Run.leave, Level.settle, draw_drained k.price ht hcounts hn, List.map_nil]
      rw [hgone, List.nil_append]
      obtain hmem | hserved := ih hf (fun j hj => hk j (List.mem_cons_of_mem _ hj)) f hmem
      · have hserved := through_served run ht (hk k List.mem_cons_self)
          (sift_census ks (run.through k)) f hmem
        rwa [hgone, List.nil_append] at hserved
      · exact .inr (hserved.behind _)

end Incoming

end Match

end LimitBook
