import LimitBook.Proofs.Match
import LimitBook.Proofs.Scalar.Double

namespace LimitBook.Match

variable {α : Type} [Scalar α]

/-- What is left of an order and of a line that it went down. -/
structure Greedy (α : Type) where
  taker : Order α
  walked : List (α × Resting α)
  ahead : List (α × Resting α)
  fills : List (Fill α)

namespace Greedy

def gone (g : Greedy α) : List (α × Resting α) :=
  g.walked.filter fun m => m.2.order.remaining == Scalar.zero

def left (g : Greedy α) : List (α × Resting α) :=
  (g.walked.filter fun m => !(m.2.order.remaining == Scalar.zero)) ++ g.ahead

/-- A trade of `q` with the order at the head of the line, and then the others. -/
def cons (taker : Order α) (m : α × Resting α) (q : α) (g : Greedy α) : Greedy α :=
  { g with
    walked := (m.1, ⟨m.2.handle, m.2.order.fill q⟩) :: g.walked
    fills :=
      { passive := m.2.order.party, aggressive := taker.party, price := m.1, quantity := q,
        aggressor := taker.side, virtual := false } :: g.fills }

def append (g g' : Greedy α) : Greedy α :=
  ⟨g'.taker, g.walked ++ g'.walked, g.ahead ++ g'.ahead, g.fills ++ g'.fills⟩

theorem append_gone (g g' : Greedy α) : (g.append g').gone = g.gone ++ g'.gone :=
  List.filter_append ..

variable [Scalar.Lawful α] (taker : Order α) (m : α × Resting α) (q : α) (g : Greedy α)

theorem cons_gone : (g.cons taker m q).gone =
    if negligible (m.2.order.fill q).remaining then (m.1, ⟨m.2.handle, m.2.order.fill q⟩) :: g.gone
    else g.gone := by
  rw [← Order.fill_remaining_beq]
  exact List.filter_cons

theorem cons_left : (g.cons taker m q).left =
    if negligible (m.2.order.fill q).remaining then g.left
    else (m.1, ⟨m.2.handle, m.2.order.fill q⟩) :: g.left := by
  rw [← Order.fill_remaining_beq]
  unfold left cons
  rw [List.filter_cons]
  cases (m.2.order.fill q).remaining == Scalar.zero <;> rfl

end Greedy

/-- Goes down a line while something of the taker is left. Every trade is of the smaller remainder,
at the price of the order that waits. -/
def greedy (taker : Order α) : List (α × Resting α) → Greedy α
  | [] => ⟨taker, [], [], []⟩
  | m :: ms =>
    if negligible taker.remaining then ⟨taker, [], m :: ms, []⟩
    else
      let q := Scalar.smaller taker.remaining m.2.order.remaining
      (greedy (taker.fill q) ms).cons taker m q

section Line

variable (taker : Order α) (price : α) (rs : List (Resting α)) (ms ms' : List (α × Resting α))

theorem greedy_of_negligible {taker : Order α} (h : negligible taker.remaining = true) :
    greedy taker ms = ⟨taker, [], ms, []⟩ := by
  cases ms with
  | nil => rfl
  | cons m ms => simp [greedy, h]

theorem greedy_ahead (h : negligible (greedy taker ms).taker.remaining = false) :
    (greedy taker ms).ahead = [] := by
  fun_induction greedy taker ms with
  | case1 => rfl
  | case2 taker m ms hn => exact absurd h (by simp [hn])
  | case3 taker m ms hn q ih => exact ih h

theorem greedy_append :
    greedy taker (ms ++ ms') = (greedy taker ms).append (greedy (greedy taker ms).taker ms') := by
  fun_induction greedy taker ms with
  | case1 taker => rfl
  | case2 taker m ms hn =>
    rw [greedy_of_negligible _ hn, greedy_of_negligible _ hn]
    rfl
  | case3 taker m ms hn q ih =>
    rw [List.cons_append, greedy, if_neg hn]
    exact congrArg (Greedy.cons taker m q) ih

/-- Where orders are still ahead the taker has nothing left, so they stay behind all that are left
of those it walked. -/
theorem greedy_append_left :
    (greedy taker (ms ++ ms')).left =
      (greedy taker ms).left ++ (greedy (greedy taker ms).taker ms').left := by
  rw [greedy_append]
  cases hn : negligible (greedy taker ms).taker.remaining with
  | true =>
    rw [greedy_of_negligible ms' hn]
    simp [Greedy.left, Greedy.append]
  | false => simp [Greedy.left, Greedy.append, greedy_ahead taker ms hn]

variable [Scalar.Lawful α]

theorem draw_greedy :
    let d := draw taker price rs
    let g := greedy taker (rs.map (price, ·))
    d.taker = g.taker ∧ d.fills = g.fills ∧ d.gone = g.gone.map (·.2) ∧
      d.left.map (price, ·) = g.left := by
  fun_induction draw taker price rs with
  | case1 => exact ⟨rfl, rfl, rfl, rfl⟩
  | case2 taker r rs hn =>
    rw [greedy_of_negligible _ hn]
    exact ⟨rfl, rfl, rfl, rfl⟩
  | case3 taker r rs hn q maker rest fills hm ih =>
    obtain ⟨ht, hf, hg, hl⟩ := ih
    rw [List.map_cons, greedy, if_neg hn]
    refine ⟨ht, congrArg _ hf, ?_, ?_⟩
    · rw [Greedy.cons_gone, if_pos hm]
      exact congrArg _ hg
    · rw [Greedy.cons_left, if_pos hm]
      exact hl
  | case4 taker r rs hn q maker rest fills hm ih =>
    obtain ⟨ht, hf, hg, hl⟩ := ih
    rw [List.map_cons, greedy, if_neg hn]
    refine ⟨ht, congrArg _ hf, ?_, ?_⟩
    · rw [Greedy.cons_gone, if_neg hm]
      exact hg
    · rw [Greedy.cons_left, if_neg hm]
      exact congrArg _ hl

variable {taker ms}

/-- A fill is a trade with the order in its place in the line, of what that has left and of what is
left of the taker by then; both count. -/
theorem greedy_fill (ht : Scalar.isFinite taker.remaining = true)
    (hm : ∀ m ∈ ms, Counts m.2.order.remaining) {before rest : List (Fill α)} {f : Fill α}
    (hf : (greedy taker ms).fills = before ++ f :: rest) :
    ∃ passed m behind, ms = passed ++ m :: behind ∧
      before.map (fun g => (g.price, g.passive)) = passed.map (fun m => (m.1, m.2.order.party)) ∧
      Counts (remainder taker.remaining before) ∧
      f = ⟨m.2.order.party, taker.party, m.1,
        Scalar.smaller (remainder taker.remaining before) m.2.order.remaining, taker.side,
        false⟩ := by
  induction ms generalizing taker before with
  | nil => simp [greedy] at hf
  | cons m ms ih =>
    obtain ⟨hcounts, hms⟩ := List.forall_mem_cons.mp hm
    by_cases hn : negligible taker.remaining = true
    · simp [greedy, hn] at hf
    · rw [greedy, if_neg hn, Greedy.cons] at hf
      cases before with
      | nil =>
        obtain ⟨rfl, -⟩ := List.cons.inj hf
        exact ⟨[], m, ms, rfl, rfl, (Counts.of_finite ht).resolve_left hn, rfl⟩
      | cons g before =>
        obtain ⟨rfl, hrest⟩ := List.cons.inj hf
        obtain ⟨hleft, -⟩ := trade_left ht hn hcounts
        obtain ⟨passed, m', behind, rfl, hkeys, hr, hf'⟩ :=
          ih (isFinite_of_zero_or hleft) hms hrest
        exact ⟨m :: passed, m', behind, rfl, congrArg _ hkeys, hr, hf'⟩

end Line

section Levels

variable {run : Run α} {k : Level α} {ks near far : List (Level α)} [Scalar.Lawful α]

theorem through_greedy (run : Run α) (k : Level α) :
    let g := greedy run.taker k.seats
    run.through k =
        ⟨g.taker, run.fills ++ g.fills, run.exhausted ++ g.gone.map (·.2.order)⟩ ∧
      (run.leave k).seats = g.left := by
  obtain ⟨ht, hf, hg, hl⟩ := draw_greedy run.taker k.price k.queue
  refine ⟨?_, hl⟩
  unfold Run.through
  simp only [ht, hf, hg, List.map_map]
  rfl

theorem sift_greedy
    (hnear : ∀ k ∈ near, crosses run.taker.side run.taker.price k.price = true)
    (hfar : ∀ k ∈ far, crosses run.taker.side run.taker.price k.price = false) :
    let s := Ladder.sift turn (near ++ far) run
    let g := greedy run.taker (near.flatMap Level.seats)
    s.1 = ⟨g.taker, run.fills ++ g.fills, run.exhausted ++ g.gone.map (·.2.order)⟩ ∧
      s.2.flatMap Level.seats = g.left ++ far.flatMap Level.seats := by
  induction near generalizing run with
  | nil =>
    rw [List.nil_append, sift_of_not_crosses hfar]
    simp [greedy, Greedy.gone, Greedy.left]
  | cons k near ih =>
    obtain ⟨hk, hnear⟩ := List.forall_mem_cons.mp hnear
    by_cases hn : negligible run.taker.remaining = true
    · rw [sift_of_negligible hn, greedy_of_negligible _ hn]
      simp [Greedy.gone, Greedy.left]
    · have hturn : turn run k = some (run.through k, run.leave k, true) :=
        (if_neg hn).trans (if_pos hk)
      obtain ⟨hthrough, hleave⟩ := through_greedy run k
      obtain ⟨hs, hl⟩ := @ih (run.through k) (by simpa using hnear) (by simpa using hfar)
      have ht : (run.through k).taker = (greedy run.taker k.seats).taker :=
        congrArg Run.taker hthrough
      simp only [List.cons_append, Ladder.sift, hturn, List.flatMap_cons, List.flatMap_append,
        Ladder.kept_seats, greedy_append_left]
      rw [ht] at hs hl
      refine ⟨?_, ?_⟩
      · rw [hs, hthrough, greedy_append, Greedy.append_gone]
        simp [Greedy.append]
      · rw [hleave, hl, List.append_assoc]

/-- The taker comes to the level `k` behind `front` with something left, and its limit crosses. -/
def Reaches (taker : Order α) (front : List (Level α)) (k : Level α) : Prop :=
  crosses taker.side taker.price k.price = true ∧
    negligible (greedy taker (front.flatMap Level.seats)).taker.remaining = false

theorem reaches_cons {front : List (Level α)} (j : Level α) :
    Reaches run.taker (j :: front) k ↔ Reaches (run.through j).taker front k := by
  have ht := congrArg Run.taker (through_greedy run j).1
  unfold Reaches
  rw [through_taker_side, through_taker_price, ht, List.flatMap_cons, greedy_append]
  rfl

omit [Scalar.Lawful α] in
theorem turn_cases (run : Run α) (k : Level α) :
    turn run k = none ∧ (negligible run.taker.remaining = true ∨
        ¬crosses run.taker.side run.taker.price k.price = true) ∨
      turn run k = some (run.through k, run.leave k, true) ∧
        negligible run.taker.remaining = false ∧
          crosses run.taker.side run.taker.price k.price = true := by
  unfold turn
  split
  · exact .inl ⟨rfl, .inl ‹_›⟩
  · rename_i hn
    split
    · exact .inr ⟨rfl, Bool.eq_false_iff.mpr hn, ‹_›⟩
    · exact .inl ⟨rfl, .inr ‹_›⟩

omit [Scalar.Lawful α] in
theorem not_reaches_of_negligible {front : List (Level α)} {taker : Order α}
    (h : negligible taker.remaining = true) : ¬Reaches taker front k := by
  rintro ⟨-, hn⟩
  rw [greedy_of_negligible _ h, h] at hn
  cases hn

omit [Scalar.Lawful α] in
theorem sift_prices (ks : List (Level α)) (run : Run α) :
    ((Ladder.sift turn ks run).2.map (·.price)).Sublist (ks.map (·.price)) :=
  Ladder.sift_prices (fun _ _ _ _ _ => visits.price) run

/-- A level that the taker does not come to stands as it stood; one that it comes to stands only
with orders. -/
theorem sift_reaches {front back : List (Level α)} (run : Run α)
    (hs : (front ++ k :: back).Pairwise fun a b =>
      Ladder.better run.taker.side.opposite a.price b.price = true) :
    (¬Reaches run.taker front k → k ∈ (Ladder.sift turn (front ++ k :: back) run).2) ∧
      (Reaches run.taker front k → ∀ j ∈ (Ladder.sift turn (front ++ k :: back) run).2,
        j.price = k.price → j.queue ≠ []) := by
  induction front generalizing run with
  | nil =>
    obtain ⟨ht, hstop⟩ | ⟨ht, hn, hc⟩ := turn_cases run k
    · simp only [List.nil_append, Ladder.sift, ht]
      refine ⟨fun _ => List.mem_cons_self, fun hr => ?_⟩
      exact hstop.elim (fun hn => (not_reaches_of_negligible hn hr).elim) fun hc => (hc hr.1).elim
    · simp only [List.nil_append, Ladder.sift, ht]
      refine ⟨fun hr => (hr ⟨hc, hn⟩).elim, fun _ j hj hp => ?_⟩
      obtain hj | hj := List.mem_append.mp hj
      · obtain ⟨rfl, hne⟩ := Ladder.mem_kept.mp hj
        exact hne
      · have hj' := (sift_prices back (run.through k)).subset (List.mem_map_of_mem hj)
        obtain ⟨i, hi, hip⟩ := List.mem_map.mp hj'
        exact absurd (hip.trans hp).symm
          (Ladder.better_ne ((List.pairwise_cons.mp hs).1 i hi))
  | cons f front ih =>
    obtain ⟨hf, hs⟩ := List.pairwise_cons.mp hs
    have hfk := hf k (by simp)
    obtain ⟨ht, hstop⟩ | ⟨ht, hn, hc⟩ := turn_cases run f
    · simp only [List.cons_append, Ladder.sift, ht]
      refine ⟨fun _ => by simp, fun hr => ?_⟩
      exact hstop.elim (fun hn => (not_reaches_of_negligible hn hr).elim)
        fun hc => (hc (crosses_of_better hfk hr.1)).elim
    · obtain ⟨hstays, horders⟩ := ih (run.through f) (by simpa using hs)
      simp only [List.cons_append, Ladder.sift, ht, reaches_cons]
      refine ⟨fun hr => List.mem_append_right _ (hstays hr), fun hr j hj hp => ?_⟩
      obtain hj | hj := List.mem_append.mp hj
      · obtain ⟨rfl, -⟩ := Ladder.mem_kept.mp hj
        exact absurd hp (Ladder.better_ne hfk)
      · exact horders hr j hj hp

theorem sift_drops_iff {front back : List (Level α)} (run : Run α)
    (hs : (front ++ k :: back).Pairwise fun a b =>
      Ladder.better run.taker.side.opposite a.price b.price = true) :
    let ks' := (Ladder.sift turn (front ++ k :: back) run).2
    (∀ j ∈ ks', j.price ≠ k.price) ↔
      Reaches run.taker front k ∧ ∀ m ∈ ks'.flatMap Level.seats, m.1 ≠ k.price := by
  intro ks'
  obtain ⟨hstays, horders⟩ := sift_reaches run hs
  constructor
  · intro hnone
    refine ⟨Classical.byContradiction fun hr => hnone k (hstays hr) rfl, fun m hm => ?_⟩
    obtain ⟨j, hj, r, -, rfl⟩ := Ladder.mem_seats.mp hm
    exact hnone j hj
  · rintro ⟨hr, hseat⟩ j hj hp
    obtain ⟨r, hr⟩ := List.exists_mem_of_ne_nil _ (horders hr j hj hp)
    exact hseat (j.price, r) (Ladder.mem_seats.mpr ⟨j, hj, r, hr, rfl⟩) hp

theorem filter_crosses {side : Side} {limit : α}
    (hs : ks.Pairwise fun a b => Ladder.better side.opposite a.price b.price = true) :
    (ks.filter fun k => crosses side limit k.price) ++
      (ks.filter fun k => !crosses side limit k.price) = ks := by
  induction ks with
  | nil => rfl
  | cons k ks ih =>
    cases hc : crosses side limit k.price with
    | true =>
      simpa [hc] using ih (List.pairwise_cons.mp hs).2
    | false =>
      have hnone := not_crosses_of_head hs fun j hj => Option.some.inj hj ▸ hc
      rw [List.filter_eq_nil_iff.mpr fun j hj => Bool.eq_false_iff.mp (hnone j hj),
        List.filter_eq_self.mpr fun j hj => by rw [hnone j hj, Bool.not_false], List.nil_append]

theorem sift_line (run : Run α)
    (hs : ks.Pairwise fun a b =>
      Ladder.better run.taker.side.opposite a.price b.price = true) :
    let near := ks.filter fun k => crosses run.taker.side run.taker.price k.price
    let far := ks.filter fun k => !crosses run.taker.side run.taker.price k.price
    let s := Ladder.sift turn ks run
    let g := greedy run.taker (near.flatMap Level.seats)
    s.1 = ⟨g.taker, run.fills ++ g.fills, run.exhausted ++ g.gone.map (·.2.order)⟩ ∧
      s.2.flatMap Level.seats = g.left ++ far.flatMap Level.seats := by
  intro near far
  have hnear : ∀ k ∈ near, crosses run.taker.side run.taker.price k.price = true := fun k hk =>
    (List.mem_filter.mp hk).2
  have hfar : ∀ k ∈ far, crosses run.taker.side run.taker.price k.price = false := fun k hk =>
    Bool.not_eq_true' .. ▸ (List.mem_filter.mp hk).2
  have h := sift_greedy hnear hfar
  rwa [filter_crosses hs] at h

theorem reaches_of_left {front back : List (Level α)} {taker : Order α}
    (hs : (front ++ k :: back).Pairwise fun a b =>
      Ladder.better taker.side.opposite a.price b.price = true)
    (hc : crosses taker.side taker.price k.price = true)
    (hn : negligible (greedy taker (((front ++ k :: back).filter fun j =>
      crosses taker.side taker.price j.price).flatMap Level.seats)).taker.remaining = false) :
    Reaches taker front k := by
  refine ⟨hc, Bool.eq_false_iff.mpr fun hfront => ?_⟩
  have hall : front.filter (fun j => crosses taker.side taker.price j.price) = front :=
    List.filter_eq_self.mpr fun j hj =>
      crosses_of_better ((List.pairwise_append.mp hs).2.2 j hj k List.mem_cons_self) hc
  rw [List.filter_append, hall, List.flatMap_append, greedy_append, Greedy.append,
    greedy_of_negligible _ hfront, hfront] at hn
  cases hn

end Levels

section Doubles

theorem greedy_drained {taker : Order Float} {ms : List (Float × Resting Float)}
    (ht : Scalar.isFinite taker.remaining = true)
    (hm : ∀ m ∈ ms, Scalar.isFinite m.2.order.remaining = true ∧
      Scalar.zero ≤ m.2.order.remaining)
    (h : negligible (greedy taker ms).taker.remaining = false) : (greedy taker ms).left = [] := by
  induction ms generalizing taker with
  | nil => rfl
  | cons m ms ih =>
    obtain ⟨⟨hf, hz⟩, hms⟩ := List.forall_mem_cons.mp hm
    by_cases hn : negligible taker.remaining = true
    · rw [greedy_of_negligible _ hn, hn] at h
      cases h
    · rw [greedy, if_neg hn] at h ⊢
      obtain hlt | hle := Scalar.lt_or_le ht hf
      · have hspent : negligible (taker.fill taker.remaining).remaining = true := by
          rw [Order.fill_remaining, leftOver_self ht, negligible_zero]
        have htaker : (greedy (taker.fill taker.remaining) ms).taker = taker.fill taker.remaining :=
          congrArg Greedy.taker (greedy_of_negligible ms hspent)
        rw [Scalar.smaller_of_lt hlt] at h
        simp only [Greedy.cons, htaker, hspent, Bool.true_eq_false] at h
      · have hspent : negligible (m.2.order.fill m.2.order.remaining).remaining = true := by
          rw [Order.fill_remaining, leftOver_self hf, negligible_zero]
        have hfin : Scalar.isFinite (taker.fill m.2.order.remaining).remaining = true := by
          rw [Order.fill_remaining, leftOver]
          split
          · rfl
          · exact Double.isFinite_sub_of_nonneg ht hf hz hle
        rw [Scalar.smaller_of_le hle] at h ⊢
        rw [Greedy.cons_left, if_pos hspent]
        exact ih hfin hms h

/-- A taker with something left at the end leaves no level that its limit crosses: it has come to
it, and with all of the line used up no order is left there. -/
theorem sift_uncrossed {ks : List (Level Float)} (run : Run Float)
    (hs : ks.Pairwise fun a b =>
      Ladder.better run.taker.side.opposite a.price b.price = true)
    (ht : Scalar.isFinite run.taker.remaining = true)
    (hk : ∀ k ∈ ks, ∀ o ∈ k.orders, o.remaining.isFinite = true ∧ 0 ≤ o.remaining)
    (hn : negligible (Ladder.sift turn ks run).1.taker.remaining = false) :
    ∀ j ∈ (Ladder.sift turn ks run).2,
      crosses run.taker.side run.taker.price j.price = false := by
  intro j hj
  refine Bool.eq_false_iff.mpr fun hc => ?_
  obtain ⟨hrun, hseats⟩ := sift_line run hs
  rw [hrun] at hn
  have hdrained := greedy_drained ht (fun m hm => by
    obtain ⟨i, hi, x, hx, rfl⟩ := Ladder.mem_seats.mp hm
    exact hk i (List.mem_filter.mp hi).1 x.order (List.mem_map_of_mem hx)) hn
  rw [hdrained, List.nil_append] at hseats
  obtain ⟨k, hk', hp⟩ := List.mem_map.mp ((sift_prices ks run).subset (List.mem_map_of_mem hj))
  obtain ⟨front, back, rfl⟩ := List.append_of_mem hk'
  have hr : Reaches run.taker front k := reaches_of_left hs (hp ▸ hc) hn
  obtain ⟨r, hr⟩ := List.exists_mem_of_ne_nil _ ((sift_reaches run hs).2 hr j hj hp.symm)
  have hmem := hseats ▸ Ladder.mem_seats.mpr ⟨j, hj, r, hr, rfl⟩
  obtain ⟨i, hi, x, -, hix⟩ := Ladder.mem_seats.mp hmem
  have hi := (List.mem_filter.mp hi).2
  rw [(Prod.mk.inj hix).1, hc] at hi
  cases hi

/-- Matching is the greedy walk down the line of all orders that the limit crosses, by level and
then by place. It trades what that trades; the orders used up are those of the walk, and leave in
its order; every other order stays at its price and in its place, as the walk leaves it. A level
goes exactly when the taker has come to it with something left and no order is left there; and when
something of the taker is left at the end, its limit crosses no level that is. -/
theorem incoming_greedy {taker : Order Float} {l : Ladder Float} {ks : List (Level Float)}
    (hl : l.Lists taker.side.opposite ks) (ht : taker.remaining.isFinite = true)
    (hk : ∀ k ∈ ks, ∀ o ∈ k.orders, o.remaining.isFinite = true ∧ 0 ≤ o.remaining) :
    let near := ks.filter fun k => crosses taker.side taker.price k.price
    let far := ks.filter fun k => !crosses taker.side taker.price k.price
    let g := greedy taker (near.flatMap Level.seats)
    (incoming taker l).1 = ⟨g.taker, g.fills, g.gone.map (·.2.order)⟩ ∧
      ∃ ks', (incoming taker l).2.Lists taker.side.opposite ks' ∧
        ks'.flatMap Level.seats = g.left ++ far.flatMap Level.seats ∧
        (ks'.map (·.price)).Sublist (ks.map (·.price)) ∧
        (∀ front k back, ks = front ++ k :: back →
          ((∀ j ∈ ks', j.price ≠ k.price) ↔
            Reaches taker front k ∧ ∀ m ∈ ks'.flatMap Level.seats, m.1 ≠ k.price)) ∧
        (negligible g.taker.remaining = false →
          ∀ j ∈ ks', crosses taker.side taker.price j.price = false) := by
  intro near far g
  obtain ⟨hm, hl'⟩ := hl.walk visits ⟨taker, [], []⟩
  obtain ⟨hrun, hseats⟩ := sift_line ⟨taker, [], []⟩ hl.sorted
  refine ⟨hm.trans hrun, _, hl', hseats, sift_prices ks _, ?_, fun hn => ?_⟩
  · rintro front k back rfl
    exact sift_drops_iff ⟨taker, [], []⟩ hl.sorted
  · refine sift_uncrossed ⟨taker, [], []⟩ hl.sorted ht hk ?_
    rw [hrun]
    exact hn

def ask (party : Party) (price quantity : Float) (arrival : Nat) : Order Float :=
  { party, side := .sell, price, remaining := quantity, original := quantity, filled := 0,
    symbol := [], timestamp := 0, arrival }

def unevenAsks : List (Level Float) :=
  [⟨9, [⟨0, ask (.local 1) 9 0 1⟩, ⟨1, ask (.local 2) 9 2 2⟩], [], 2⟩, .empty 9.5,
    ⟨10, [⟨0, ask .external 10 4 3⟩, ⟨1, ask (.local 3) 10 1 4⟩], [], 2⟩,
    ⟨11, [⟨0, ask (.local 4) 11 1 5⟩], [], 1⟩]

theorem incoming_greedy_unevenAsks :
    let l : Ladder Float := ⟨.sell, unevenAsks, unevenAsks.map (·.price)⟩
    let taker : Order Float := { ask (.local 7) 10 5 6 with side := .buy }
    l.Lists .sell unevenAsks ∧
      (incoming taker l).1.fills = [⟨.local 1, .local 7, 9, 0, .buy, false⟩,
        ⟨.local 2, .local 7, 9, 2, .buy, false⟩, ⟨.external, .local 7, 10, 3, .buy, false⟩] ∧
      (incoming taker l).1.exhausted.map (·.party) = [.local 1, .local 2] ∧
      ∃ ks', (incoming taker l).2.Lists .sell ks' ∧
        (ks'.flatMap Level.seats).map (fun m => (m.1, m.2.order.party, m.2.order.remaining)) =
          [(10, .external, 1), (10, .local 3, 1), (11, .local 4, 1)] ∧
        ∀ j ∈ ks', j.price ≠ 9.5 := by
  intro l taker
  have hl : l.Lists .sell unevenAsks :=
    ⟨rfl, rfl, .refl _, by decide +kernel, by decide +kernel⟩
  have hk : ∀ k ∈ unevenAsks, ∀ o ∈ k.orders, o.remaining.isFinite = true ∧ 0 ≤ o.remaining := by
    decide +kernel
  have ht : taker.remaining.isFinite = true := by decide +kernel
  obtain ⟨hm, ks', hl', hseats, -, hdropped, -⟩ := incoming_greedy hl ht hk
  refine ⟨hl, ?_, ?_, ks', hl', ?_, ?_⟩
  · rw [hm]
    decide +kernel
  · rw [hm]
    decide +kernel
  · rw [hseats]
    decide +kernel
  · refine (hdropped [_] _ _ rfl).mpr ⟨⟨by decide +kernel, by decide +kernel⟩, ?_⟩
    rw [hseats]
    decide +kernel

end Doubles

end LimitBook.Match
