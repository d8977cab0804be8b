import LimitBook.Match
import LimitBook.Proofs.Ladder

namespace LimitBook.Match

variable {α : Type} [Scalar α]

section Draw

variable (taker : Order α) (price : α) (rs : List (Resting α))

theorem draw_taker_terms : (draw taker price rs).taker.terms = taker.terms := by
  fun_induction draw taker price rs with
  | case1 | case2 => rfl
  | case3 taker r rs _ q maker rest fills _ ih | case4 taker r rs _ q maker rest fills _ ih =>
    exact ih.trans (taker.fill_terms q)

theorem draw_taker_side : (draw taker price rs).taker.side = taker.side := by
  have h := congrArg Order.side (draw_taker_terms taker price rs)
  exact h

theorem draw_taker_price : (draw taker price rs).taker.price = taker.price := by
  have h := congrArg Order.price (draw_taker_terms taker price rs)
  exact h

theorem draw_left :
    ((draw taker price rs).left.map Resting.terms).Sublist (rs.map Resting.terms) := by
  fun_induction draw taker price rs with
  | case1 => exact List.Sublist.refl _
  | case2 => exact List.Sublist.refl _
  | case3 taker r rs _ q maker rest fills _ ih => exact ih.cons _
  | case4 taker r rs _ q maker rest fills _ ih => exact ih.cons_cons _

theorem draw_perm :
    (((draw taker price rs).left ++ (draw taker price rs).gone).map Resting.terms).Perm
      (rs.map Resting.terms) := by
  fun_induction draw taker price rs with
  | case1 => exact .nil
  | case2 => simp
  | case3 taker r rs _ q maker rest fills _ ih =>
    simp only [List.map_append, List.map_cons] at ih ⊢
    exact List.perm_middle.trans (ih.cons _)
  | case4 taker r rs _ q maker rest fills _ ih => exact ih.cons _

theorem draw_of_negligible {taker : Order α} (h : negligible taker.remaining = true) :
    draw taker price rs = ⟨taker, rs, [], []⟩ := by
  cases rs with
  | nil => rfl
  | cons r rs => simp [draw, h]

theorem draw_gone {taker : Order α} {r : Resting α} {q : α}
    (hn : ¬negligible taker.remaining = true)
    (hq : q = Scalar.smaller taker.remaining r.order.remaining)
    (hm : negligible (r.order.fill q).remaining = true) :
    draw taker price (r :: rs) =
      { draw (taker.fill q) price rs with
        gone := ⟨r.handle, r.order.fill q⟩ :: (draw (taker.fill q) price rs).gone
        fills := trade taker price r.order q :: (draw (taker.fill q) price rs).fills } := by
  subst hq
  simp [draw, hn, hm]

theorem draw_stays {taker : Order α} {r : Resting α} {q : α}
    (hn : ¬negligible taker.remaining = true)
    (hq : q = Scalar.smaller taker.remaining r.order.remaining)
    (hm : ¬negligible (r.order.fill q).remaining = true) :
    draw taker price (r :: rs) =
      { draw (taker.fill q) price rs with
        left := ⟨r.handle, r.order.fill q⟩ :: (draw (taker.fill q) price rs).left
        fills := trade taker price r.order q :: (draw (taker.fill q) price rs).fills } := by
  subst hq
  simp [draw, hn, hm]

theorem draw_untraded (h : (draw taker price rs).fills = []) :
    draw taker price rs = ⟨taker, rs, [], []⟩ := by
  fun_induction draw taker price rs with
  | case1 | case2 => rfl
  | case3 | case4 => cases h

variable [Scalar.Lawful α] {taker rs}

theorem draw_spent (ht : taker.remaining = Scalar.zero ∨ Counts taker.remaining)
    (hr : ∀ r ∈ rs, Counts r.order.remaining) :
    (draw taker price rs).taker.remaining = Scalar.zero ∨
      Counts (draw taker price rs).taker.remaining := by
  fun_induction draw taker price rs with
  | case1 | case2 => exact ht
  | case3 taker r rs hn q maker rest fills _ ih | case4 taker r rs hn q maker rest fills _ ih =>
    obtain ⟨hr, hrs⟩ := List.forall_mem_cons.mp hr
    exact ih (trade_left (isFinite_of_zero_or ht) hn hr).1 hrs

theorem draw_counts (ht : Scalar.isFinite taker.remaining = true)
    (hr : ∀ r ∈ rs, Counts r.order.remaining) :
    Scalar.isFinite (draw taker price rs).taker.remaining = true ∧
      (∀ r ∈ (draw taker price rs).left, Counts r.order.remaining) ∧
      ∀ r ∈ (draw taker price rs).gone, r.order.remaining = Scalar.zero := by
  fun_induction draw taker price rs with
  | case1 => exact ⟨ht, by simp, by simp⟩
  | case2 => exact ⟨ht, hr, by simp⟩
  | case3 taker r rs hn q maker rest fills hm ih =>
    obtain ⟨hq, hz⟩ := trade_left ht hn (hr r List.mem_cons_self)
    obtain ⟨hf, hl, hg⟩ := ih (isFinite_of_zero_or hq) fun x hx => hr x (List.mem_cons_of_mem _ hx)
    refine ⟨hf, hl, fun x hx => ?_⟩
    obtain rfl | hx := List.mem_cons.mp hx
    · exact hz.resolve_right fun hc => by simp [hc.1.2, maker, q] at hm
    · exact hg x hx
  | case4 taker r rs hn q maker rest fills hm ih =>
    obtain ⟨hq, hz⟩ := trade_left ht hn (hr r List.mem_cons_self)
    obtain ⟨hf, hl, hg⟩ := ih (isFinite_of_zero_or hq) fun x hx => hr x (List.mem_cons_of_mem _ hx)
    refine ⟨hf, fun x hx => ?_, hg⟩
    obtain rfl | hx := List.mem_cons.mp hx
    · exact (hz.resolve_left fun he => hm (he ▸ negligible_zero)).1
    · exact hl x hx

theorem draw_drained (ht : Scalar.isFinite taker.remaining = true)
    (hr : ∀ r ∈ rs, Counts r.order.remaining)
    (h : negligible (draw taker price rs).taker.remaining = false) :
    (draw taker price rs).left = [] := by
  fun_induction draw taker price rs with
  | case1 => rfl
  | case2 taker r rs hn => simp [hn] at h
  | case3 taker r rs hn q maker rest fills hm ih =>
    obtain ⟨hq, -⟩ := trade_left ht hn (hr r List.mem_cons_self)
    exact ih (isFinite_of_zero_or hq) (fun x hx => hr x (List.mem_cons_of_mem _ hx)) h
  | case4 taker r rs hn q maker rest fills hm ih =>
    obtain ⟨-, hz⟩ := trade_left ht hn (hr r List.mem_cons_self)
    have hz := (hz.resolve_left fun he => hm (he ▸ negligible_zero)).2
    have hdone : negligible (taker.fill q).remaining = true := hz ▸ negligible_zero
    have hrest : rest.taker = taker.fill q := by
      simp only [rest, draw_of_negligible price rs hdone]
    simp [hrest, hdone] at h

end Draw

def Run.through (run : Run α) (k : Level α) : Run α :=
  let d := draw run.taker k.price k.queue
  { taker := d.taker, fills := run.fills ++ d.fills,
    exhausted := run.exhausted ++ d.gone.map (·.order) }

def Run.leave (run : Run α) (k : Level α) : Level α :=
  let d := draw run.taker k.price k.queue
  k.settle d.left d.gone

def turn (run : Run α) (k : Level α) : Option (Run α × Level α × Bool) :=
  if negligible run.taker.remaining then none
  else if crosses run.taker.side run.taker.price k.price then
    some (run.through k, run.leave k, true)
  else none

theorem visits : Ladder.Visits visit (turn (α := α)) := by
  intro run k l
  unfold visit turn
  by_cases hn : negligible run.taker.remaining = true
  · simp [hn]
  · by_cases hc : crosses run.taker.side run.taker.price k.price = true
    · simp [hn, hc, Run.through, Run.leave, Level.settle]
    · simp [hn, hc]

theorem turn_eq_some {run run' : Run α} {k k' : Level α} {more : Bool}
    (h : turn run k = some (run', k', more)) :
    crosses run.taker.side run.taker.price k.price = true ∧ more = true ∧ run' = run.through k ∧
      k' = run.leave k := by
  unfold turn at h
  split at h
  · cases h
  · split at h
    · rename_i hc
      cases h
      exact ⟨hc, rfl, rfl, rfl⟩
    · cases h

theorem through_of_negligible {run : Run α} (k : Level α)
    (h : negligible run.taker.remaining = true) : run.through k = run ∧ run.leave k = k := by
  simp [Run.through, Run.leave, draw_of_negligible _ _ h, Level.settle]

theorem through_of_untraded {run : Run α} (k : Level α)
    (h : (draw run.taker k.price k.queue).fills = []) : run.through k = run ∧ run.leave k = k := by
  simp [Run.through, Run.leave, draw_untraded _ _ _ h, Level.settle]

@[simp]
theorem through_taker_side (run : Run α) (k : Level α) :
    (run.through k).taker.side = run.taker.side := draw_taker_side _ _ _

@[simp]
theorem through_taker_price (run : Run α) (k : Level α) :
    (run.through k).taker.price = run.taker.price := draw_taker_price _ _ _

section Incoming

variable {taker : Order α} {side : Side} {ks : List (Level α)} {run : Run α}

theorem sift_taker_terms (ks : List (Level α)) (run : Run α) :
    (Ladder.sift turn ks run).1.taker.terms = run.taker.terms := by
  refine (Ladder.sift_induction (P := fun (run' : Run α) => run'.taker.terms = run.taker.terms)
    (Q := fun _ => True) ?_ rfl fun _ _ => trivial).1
  intro run' k run'' k' more hrun _ hturn
  obtain ⟨-, -, rfl, rfl⟩ := turn_eq_some hturn
  exact ⟨(draw_taker_terms _ _ _).trans hrun, fun _ => trivial⟩

theorem sift_untraded (run : Run α) (h : (Ladder.sift turn ks run).1.fills = []) :
    (Ladder.sift turn ks run).1 = run := by
  refine (Ladder.sift_induction (P := fun (run' : Run α) => run'.fills = [] → run' = run)
    (Q := fun _ => True) ?_ (fun _ => rfl) fun _ _ => trivial).1 h
  intro run' k run'' k' more hrun _ hturn
  obtain ⟨-, -, rfl, rfl⟩ := turn_eq_some hturn
  refine ⟨fun hfills => ?_, fun _ => trivial⟩
  obtain ⟨hbefore, hdraw⟩ := List.append_eq_nil_iff.mp hfills
  rw [(through_of_untraded k hdraw).1, hrun hbefore]

theorem sift_leaves (run : Run α) (hk : ∀ k ∈ ks, k.Kept side) :
    ∃ gone, Ladder.Leaves side ks (Ladder.sift turn ks run).2 gone ∧
      (Ladder.sift turn ks run).1.exhausted.map Order.terms =
        run.exhausted.map Order.terms ++ gone.map (·.2.2) := by
  refine Ladder.sift_leaves []
    (R := fun (run' : Run α) before => run'.exhausted.map Order.terms =
      run.exhausted.map Order.terms ++ before.map (·.2.2)) ?_ (by simp) hk
  intro run' before k run'' k' more hr hkept hturn
  obtain ⟨-, -, rfl, rfl⟩ := turn_eq_some hturn
  refine ⟨_, Level.settle_leaves hkept (draw_left _ _ _) (draw_perm _ _ _), ?_⟩
  simp [Run.through, hr, Resting.terms, Function.comp_def]

variable [Scalar.Lawful α]

theorem sift_counted (run : Run α) (ht : Scalar.isFinite run.taker.remaining = true)
    (hk : ∀ k ∈ ks, k.Counted) :
    Scalar.isFinite (Ladder.sift turn ks run).1.taker.remaining = true ∧
      ∀ k ∈ (Ladder.sift turn ks run).2, k.Counted := by
  refine Ladder.sift_induction (P := fun run : Run α => Scalar.isFinite run.taker.remaining = true)
    ?_ ht hk
  intro run k run' k' more hrun hcounted hturn
  obtain ⟨-, -, rfl, rfl⟩ := turn_eq_some hturn
  obtain ⟨hf, hl, -⟩ := draw_counts k.price hrun hcounted
  exact ⟨hf, fun _ => hl⟩

theorem sift_spent (run : Run α)
    (ht : run.taker.remaining = Scalar.zero ∨ Counts run.taker.remaining)
    (hk : ∀ k ∈ ks, k.Counted) :
    (Ladder.sift turn ks run).1.taker.remaining = Scalar.zero ∨
      Counts (Ladder.sift turn ks run).1.taker.remaining := by
  refine (Ladder.sift_induction (P := fun run : Run α =>
    run.taker.remaining = Scalar.zero ∨ Counts run.taker.remaining) ?_ ht hk).1
  intro run k run' k' more hrun hcounted hturn
  obtain ⟨-, -, rfl, rfl⟩ := turn_eq_some hturn
  obtain ⟨-, hl, -⟩ := draw_counts k.price (isFinite_of_zero_or hrun) hcounted
  exact ⟨draw_spent k.price hrun hcounted, fun _ => hl⟩

theorem sift_sound {n : Nat} (run : Run α) (ht : Scalar.isFinite run.taker.remaining = true)
    (hk : ∀ k ∈ ks, k.Sound n) :
    Scalar.isFinite (Ladder.sift turn ks run).1.taker.remaining = true ∧
      ∀ k ∈ (Ladder.sift turn ks run).2, k.Sound n := by
  refine Ladder.sift_induction (P := fun run : Run α => Scalar.isFinite run.taker.remaining = true)
    ?_ ht hk
  intro run k run' k' more hrun hsound hturn
  obtain ⟨-, -, rfl, rfl⟩ := turn_eq_some hturn
  obtain ⟨hf, hl, -⟩ := draw_counts k.price hrun hsound.counts
  exact ⟨hf, fun hne => hsound.thins ⟨rfl, draw_left _ _ _⟩ ⟨hne, hl⟩⟩

theorem crosses_of_better {side : Side} {limit p q : α}
    (hb : Ladder.better side.opposite p q = true) (hc : crosses side limit q = true) :
    crosses side limit p = true := by
  cases side <;> simp only [Side.opposite, Ladder.better, crosses, decide_eq_true_eq] at *
  · exact Scalar.Lawful.le_trans (Scalar.le_of_lt hb) hc
  · exact Scalar.Lawful.le_trans hc (Scalar.le_of_lt hb)

theorem crosses_of_better_limit {side : Side} {p q limit : α}
    (hb : Ladder.better side p q = true) (hc : crosses side q limit = true) :
    crosses side p limit = true := by
  cases side <;> simp only [Ladder.better, crosses, decide_eq_true_eq] at *
  · exact Scalar.Lawful.le_trans hc (Scalar.le_of_lt hb)
  · exact Scalar.Lawful.le_trans (Scalar.le_of_lt hb) hc

theorem not_crosses_of_head {side : Side} {limit : α} {ks : List (Level α)}
    (hs : ks.Pairwise fun a b => Ladder.better side.opposite a.price b.price = true)
    (hk : ∀ k, ks.head? = some k → crosses side limit k.price = false) :
    ∀ j ∈ ks, crosses side limit j.price = false := by
  cases ks with
  | nil => simp
  | cons k ks =>
    have hk := hk k rfl
    intro j hj
    obtain rfl | hj := List.mem_cons.mp hj
    · exact hk
    · refine Bool.eq_false_iff.mpr fun hj' => ?_
      rw [crosses_of_better ((List.pairwise_cons.mp hs).1 j hj) hj'] at hk
      cases hk

omit [Scalar.Lawful α] in
theorem sift_of_negligible (h : negligible run.taker.remaining = true) :
    Ladder.sift turn ks run = (run, ks) := by
  cases ks with
  | nil => rfl
  | cons k ks => simp [Ladder.sift, turn, h]

omit [Scalar.Lawful α] in
theorem sift_of_not_crosses
    (h : ∀ k ∈ ks, crosses run.taker.side run.taker.price k.price = false) :
    Ladder.sift turn ks run = (run, ks) := by
  cases ks with
  | nil => rfl
  | cons k ks => simp [Ladder.sift, turn, h k List.mem_cons_self]

theorem sift_copies_of_head
    (hs : ks.Pairwise fun a b => Ladder.better run.taker.side.opposite a.price b.price = true)
    (hk : ∀ k, ks.head? = some k → crosses run.taker.side run.taker.price k.price = false) :
    Ladder.sift turn (Ladder.copies ks) run = (run, Ladder.copies ks) := by
  refine sift_of_not_crosses fun k hk' => ?_
  obtain ⟨j, hj, rfl, -⟩ := Ladder.mem_copies.mp hk'
  exact not_crosses_of_head hs hk j hj

omit [Scalar.Lawful α] in
theorem sift_copies (k : Level α)
    (h : crosses run.taker.side run.taker.price k.price = true) :
    Ladder.sift turn (Ladder.copies (k :: ks)) run =
      ((Ladder.sift turn (Ladder.copies ks) (run.through k.locals)).1,
        Ladder.kept (run.leave k.locals) ++
          (Ladder.sift turn (Ladder.copies ks) (run.through k.locals)).2) := by
  have hcons : Ladder.copies (k :: ks) = Ladder.kept k.locals ++ Ladder.copies ks := rfl
  by_cases hn : negligible run.taker.remaining = true
  · obtain ⟨hthrough, hleave⟩ := through_of_negligible k.locals hn
    rw [hthrough, hleave, sift_of_negligible hn, sift_of_negligible hn, hcons]
  · by_cases hq : k.locals.queue = []
    · have hkept : Ladder.kept k.locals = [] := if_pos ((Level.isEmpty_iff _).mpr hq)
      rw [hcons, hkept]
      simp [Run.through, Run.leave, hq, draw, Level.settle, Ladder.kept, Level.isEmpty]
    · have hkept : Ladder.kept k.locals = [k.locals] :=
        if_neg fun he => hq ((Level.isEmpty_iff _).mp he)
      have hturn : turn run k.locals = some (run.through k.locals, run.leave k.locals, true) :=
        (if_neg hn).trans (if_pos h)
      rw [hcons, hkept]
      simp only [List.singleton_append, Ladder.sift, hturn]

theorem sift_drained {n : Nat} (run : Run α) (ht : Scalar.isFinite run.taker.remaining = true)
    (hk : ∀ k ∈ ks, k.Sound n)
    (hs : ks.Pairwise fun a b => Ladder.better run.taker.side.opposite a.price b.price = true)
    (h : negligible (Ladder.sift turn ks run).1.taker.remaining = false) :
    ∀ k ∈ (Ladder.sift turn ks run).2, crosses run.taker.side run.taker.price k.price = false := by
  fun_induction Ladder.sift turn ks run with
  | case1 run => simp
  | case2 k ks run hturn =>
    have hc : crosses run.taker.side run.taker.price k.price = false := by
      unfold turn at hturn
      simp only [h, Bool.false_eq_true, if_false, ite_eq_right_iff, reduceCtorEq, imp_false,
        Bool.not_eq_true] at hturn
      exact hturn
    exact not_crosses_of_head hs (by simpa using hc)
  | case3 k ks run run' k' hturn => exact absurd (turn_eq_some hturn).2.1 (by simp)
  | case4 k ks run run' k' hturn ih =>
    obtain ⟨-, -, rfl, rfl⟩ := turn_eq_some hturn
    have hcounts := (hk k List.mem_cons_self).counts
    obtain ⟨hf, -, -⟩ := draw_counts k.price ht hcounts
    rw [through_taker_side, through_taker_price] at ih
    intro j hj
    obtain hj | hj := List.mem_append.mp hj
    · obtain ⟨rfl, hne⟩ := Ladder.mem_kept.mp hj
      cases hn : negligible (run.through k).taker.remaining with
      | true =>
        rw [sift_of_negligible hn, hn] at h
        cases h
      | false => exact absurd (draw_drained k.price ht hcounts hn) hne
    · exact ih hf (fun j hj => hk j (List.mem_cons_of_mem _ hj)) (List.pairwise_cons.mp hs).2 h j hj

end Incoming

end LimitBook.Match
