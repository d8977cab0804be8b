import LimitBook.Proofs.Match
import LimitBook.Proofs.Sweep.Resolve
import LimitBook.Proofs.Sweep.Virtual

namespace LimitBook

namespace Ladder

variable {α : Type}

def occupied (ks : List (Level α)) : List (Level α) := ks.filter fun k => !k.isEmpty

section Occupied

variable {k : Level α} {ks js : List (Level α)}

theorem mem_occupied : k ∈ occupied ks ↔ k ∈ ks ∧ k.queue ≠ [] := by
  rw [occupied, List.mem_filter, Bool.not_eq_true', Bool.eq_false_iff, ne_eq, Level.isEmpty_iff]

theorem occupied_append (ks js : List (Level α)) :
    occupied (ks ++ js) = occupied ks ++ occupied js := List.filter_append ..

theorem occupied_cons (k : Level α) (ks : List (Level α)) :
    occupied (k :: ks) = kept k ++ occupied ks := by
  unfold occupied kept
  cases hk : k.isEmpty <;> simp [hk]

theorem occupied_kept (k : Level α) : occupied (kept k) = kept k := by
  unfold occupied kept
  cases hk : k.isEmpty <;> simp [hk]

theorem kept_of_vacant (h : k.queue = []) : kept k = [] := if_pos ((Level.isEmpty_iff k).mpr h)

theorem kept_of_nonempty (h : k.queue ≠ []) : kept k = [k] :=
  if_neg (mt (Level.isEmpty_iff k).mp h)

theorem occupied_of_vacant (h : k.queue = []) (ks : List (Level α)) :
    occupied (k :: ks) = occupied ks := by
  rw [occupied_cons, kept_of_vacant h, List.nil_append]

theorem occupied_of_nonempty (h : k.queue ≠ []) (ks : List (Level α)) :
    occupied (k :: ks) = k :: occupied ks := by
  rw [occupied_cons, kept_of_nonempty h, List.singleton_append]

theorem occupied_eq_self (h : ∀ k ∈ ks, k.queue ≠ []) : occupied ks = ks :=
  List.filter_eq_self.mpr fun k hk => by simpa using mt (Level.isEmpty_iff k).mp (h k hk)

end Occupied

/-- The levels of `ks'` are levels of `ks` or hold orders. -/
def Tidies (ks ks' : List (Level α)) : Prop := ∀ k ∈ ks', k ∈ ks ∨ k.queue ≠ []

variable {ks ks' ks'' : List (Level α)}

theorem Tidies.refl (ks : List (Level α)) : Tidies ks ks := fun _ => .inl

theorem Tidies.trans (h : Tidies ks ks') (h' : Tidies ks' ks'') : Tidies ks ks'' := fun k hk =>
  (h' k hk).elim (h k) .inr

theorem sift_tidies {σ : Type} (turn : σ → Level α → Option (σ × Level α × Bool))
    (ks : List (Level α)) (s : σ) : Tidies ks (sift turn ks s).2 :=
  (sift_induction (P := fun _ => True) (Q := fun k => k ∈ ks ∨ k.queue ≠ [])
    (fun _ _ _ _ _ _ _ _ => ⟨trivial, .inr⟩) trivial fun _ => .inl).2

end Ladder

open Ladder

variable {α : Type} [Scalar α] [Scalar.Lawful α]

namespace Match

omit [Scalar.Lawful α] in
theorem through_of_vacant (run : Run α) {k : Level α} (h : k.queue = []) :
    run.through k = run ∧ (run.leave k).queue = [] := by
  simp [Run.through, Run.leave, h, draw, Level.settle]

omit [Scalar.Lawful α] in
theorem sift_untraded_occupied (run : Run α) {ks : List (Level α)}
    (h : (sift turn ks run).1.fills = []) : occupied (sift turn ks run).2 = occupied ks := by
  fun_induction sift turn ks run with
  | case1 | case2 => rfl
  | case3 k ks run run' k' hturn => exact absurd (turn_eq_some hturn).2.1 (by simp)
  | case4 k ks run run' k' hturn ih =>
    obtain ⟨-, -, rfl, rfl⟩ := turn_eq_some hturn
    have hthrough := congrArg Run.fills (sift_untraded (run.through k) h)
    obtain ⟨-, hdraw⟩ := List.append_eq_nil_iff.mp (hthrough.symm.trans h)
    rw [(through_of_untraded k hdraw).2, occupied_append, occupied_kept, ih h, occupied_cons]

theorem sift_occupied (run : Run α) {ks : List (Level α)} (hs : ks.Pairwise fun a b =>
      Ladder.better run.taker.side.opposite a.price b.price = true) :
    (sift turn ks run).1 = (sift turn (occupied ks) run).1 ∧
      occupied (sift turn ks run).2 = (sift turn (occupied ks) run).2 := by
  induction ks generalizing run with
  | nil => exact ⟨rfl, rfl⟩
  | cons k ks ih =>
    cases hturn : turn run k with
    | none =>
      have hstop : sift turn (k :: ks) run = (run, k :: ks) := by simp only [sift, hturn]
      have hrest : sift turn (occupied (k :: ks)) run = (run, occupied (k :: ks)) := by
        by_cases hn : negligible run.taker.remaining = true
        · exact sift_of_negligible hn
        · have hc : crosses run.taker.side run.taker.price k.price = false := by
            simpa [turn, hn] using hturn
          refine sift_of_not_crosses fun j hj => ?_
          exact not_crosses_of_head hs (by simpa using hc) j (mem_occupied.mp hj).1
      rw [hstop, hrest]
      exact ⟨rfl, rfl⟩
    | some t =>
      obtain ⟨run', k', more⟩ := t
      obtain ⟨-, rfl, rfl, rfl⟩ := turn_eq_some hturn
      have hgo : sift turn (k :: ks) run = ((sift turn ks (run.through k)).1,
          kept (run.leave k) ++ (sift turn ks (run.through k)).2) := by simp only [sift, hturn]
      rw [hgo, occupied_append, occupied_kept]
      obtain ⟨hrun, hlevels⟩ := ih (run.through k) (by
        rw [through_taker_side]
        exact (List.pairwise_cons.mp hs).2)
      by_cases hk : k.queue = []
      · obtain ⟨hthrough, hleave⟩ := through_of_vacant run hk
        rw [hthrough] at hrun hlevels ⊢
        rw [occupied_of_vacant hk, kept_of_vacant hleave]
        exact ⟨hrun, hlevels⟩
      · rw [occupied_of_nonempty hk]
        simp only [sift, hturn, hrun, hlevels, and_self]

end Match

namespace Sweep

section Asks

variable {run : BidRun α} {as : List (Level α)}

omit [Scalar.Lawful α] in
theorem sift_ask_beyond (run : BidRun α) {ks : List (Level α)}
    (h : ∀ j ∈ ks, run.level.price < j.price) :
    sift turnAsk ks run = (run, ks) := by
  cases ks with
  | nil => rfl
  | cons k ks => simp [sift, turnAsk, h k List.mem_cons_self]

omit [Scalar.Lawful α] in
theorem turnAsk_vacant {k : Level α} (hk : k.queue = []) (hb : run.level.Stocked)
    (hle : ¬run.level.price < k.price) :
    ∃ k', turnAsk run k = some (run, k', true) ∧ k'.queue = [] := by
  refine ⟨k.settle [] [], ?_, rfl⟩
  have hne : run.level.isEmpty = false :=
    Bool.eq_false_iff.mpr (mt (Level.isEmpty_iff _).mp hb.nonempty)
  simp only [turnAsk, hle, if_false, hk, cross_nil _ _ hb.counts, Level.settle, List.append_nil,
    List.map_nil, List.reverse_nil, List.nil_append]
  simpa [Level.isEmpty] using hne

theorem sift_ask_occupied (run : BidRun α) (hb : run.level.Stocked) (ha : ∀ k ∈ as, k.Counted)
    (hs : as.Pairwise fun a b => Ladder.better .sell a.price b.price = true) :
    (sift turnAsk as run).1 = (sift turnAsk (occupied as) run).1 ∧
      occupied (sift turnAsk as run).2 = (sift turnAsk (occupied as) run).2 := by
  induction as generalizing run with
  | nil => exact ⟨rfl, rfl⟩
  | cons k as ih =>
    obtain ⟨hk, ha⟩ := List.forall_mem_cons.mp ha
    obtain ⟨hsk, hs⟩ := List.pairwise_cons.mp hs
    by_cases hlt : run.level.price < k.price
    · have hbeyond : ∀ j ∈ k :: as, run.level.price < j.price := by
        refine List.forall_mem_cons.mpr ⟨hlt, fun j hj => ?_⟩
        exact Scalar.lt_trans hlt (of_decide_eq_true (hsk j hj))
      rw [sift_ask_beyond _ hbeyond, sift_ask_beyond _ fun j hj => hbeyond j (mem_occupied.mp hj).1]
      exact ⟨rfl, rfl⟩
    · by_cases hq : k.queue = []
      · obtain ⟨k', hturn, hk'⟩ := turnAsk_vacant hq hb hlt
        rw [occupied_of_vacant hq]
        simp only [sift, hturn, kept_of_vacant hk', List.nil_append]
        exact ih run hb ha hs
      · rw [occupied_of_nonempty hq]
        rcases hturn : turnAsk run k with _ | ⟨run', k', more⟩
        · simp [turnAsk, hlt] at hturn
        · obtain ⟨hb', -⟩ := turnAsk_counted hb.counts hk hturn
          obtain ⟨-, -, -, -, hmore⟩ := turnAsk_eq_some hturn
          cases more with
          | false => simp only [sift, hturn, occupied_append, occupied_kept, and_self]
          | true =>
            have hne : run'.level.queue ≠ [] := fun he => by
              simp [(Level.isEmpty_iff _).mpr he] at hmore
            obtain ⟨hrun, hlevels⟩ := ih run' ⟨hne, hb'⟩ ha hs
            simp only [sift, hturn, occupied_append, occupied_kept, hrun, hlevels, and_self]

omit [Scalar.Lawful α] in
theorem sift_ask_vacant (as : List (Level α)) (run : BidRun α) (hb : run.level.queue = []) :
    (sift turnAsk as run).1 = run ∧ occupied (sift turnAsk as run).2 = occupied as := by
  cases as with
  | nil => exact ⟨rfl, rfl⟩
  | cons k as =>
    by_cases hlt : run.level.price < k.price
    · simp [sift, turnAsk, hlt]
    · have hsettle : ∀ l : Level α, l.queue = [] → l.settle [] [] = l := by
        rintro ⟨_, _, _, _⟩ rfl
        rfl
      have hlevel := hsettle run.level hb
      have hturn : turnAsk run k = some (run, k, false) := by
        simp only [turnAsk, hlt, if_false, hb, cross, hlevel, List.append_nil,
          (Level.isEmpty_iff _).mpr hb]
        rfl
      simp only [sift, hturn, occupied_append, occupied_kept, occupied_cons, and_self]

theorem sift_ask_tidies (run : BidRun α)
    (hs : as.Pairwise fun a b => Ladder.better .sell a.price b.price = true)
    (hne : (sift turnAsk as run).1.level.queue ≠ []) :
    ∀ j ∈ (sift turnAsk as run).2, ¬run.level.price < j.price → j.queue ≠ [] := by
  fun_induction sift turnAsk as run with
  | case1 run => simp
  | case2 k as run hturn =>
    have hlt : run.level.price < k.price := by
      unfold turnAsk at hturn
      by_contra hn
      rw [if_neg hn] at hturn
      cases hturn
    intro j hj hle
    refine absurd ?_ hle
    obtain rfl | hj := List.mem_cons.mp hj
    · exact hlt
    · exact Scalar.lt_trans hlt (of_decide_eq_true ((List.pairwise_cons.mp hs).1 j hj))
  | case3 k as run run' k' hturn =>
    obtain ⟨-, -, -, -, hmore⟩ := turnAsk_eq_some hturn
    exact absurd ((Level.isEmpty_iff _).mp (by simpa using hmore.symm)) hne
  | case4 k as run run' k' hturn ih =>
    intro j hj hle
    obtain hj | hj := List.mem_append.mp hj
    · obtain ⟨rfl, hq⟩ := mem_kept.mp hj
      exact hq
    · refine ih (List.pairwise_cons.mp hs).2 hne j hj ?_
      rwa [(turnAsk_thins hturn).1.price]

end Asks

section Bids

variable {as bs : List (Level α)} {k : Level α} {run run' : AskRun α}

theorem turnBid_beyond (ha : run.asks.Lists .sell as)
    (h : ∀ k ∈ bs, ∀ j ∈ as, k.price < j.price) : sift turnBid bs run = (run, bs) := by
  cases bs with
  | nil => rfl
  | cons k bs =>
    obtain ⟨hturn, -⟩ | ⟨⟨j, hj, hle⟩, -⟩ := turnBid_lists ha k
    · simp only [sift, hturn]
    · exact absurd (h k List.mem_cons_self j (List.mem_of_head? hj)) hle

theorem beyond_of_head {asks : Ladder α} (hk : ∀ j, as.head? = some j → k.price < j.price)
    (hp : ∀ i ∈ k :: bs, Scalar.isFinite i.price = true) (ha : asks.Lists .sell as)
    (hb : (k :: bs).Pairwise fun a b => Ladder.better .buy a.price b.price = true) :
    ∀ i ∈ k :: bs, ∀ j ∈ as, i.price < j.price := fun i hi j hj =>
  (Scalar.lt_or_le (hp i hi) (ha.finite j hj)).resolve_right
    (not_crossed_of_head hk hb ha.sorted i hi j hj)

/-- A bid level that goes down the asks does to those that hold orders what it does when there are
no others, even where it does not set out then. -/
theorem sift_bid_step (ha : run.asks.Lists .sell (occupied as)) (hk : k.Counted)
    (hac : ∀ j ∈ as, j.Counted) (hp : ∀ i ∈ k :: bs, Scalar.isFinite i.price = true)
    (hb : (k :: bs).Pairwise fun a b => Ladder.better .buy a.price b.price = true)
    (has : as.Pairwise fun a b => Ladder.better .sell a.price b.price = true) :
    let t := sift turnAsk as ⟨k, run.progress⟩
    ∃ run', run'.asks.Lists .sell (occupied t.2) ∧ run'.progress = t.1.progress ∧
      sift turnBid (occupied (k :: bs)) run =
        ((sift turnBid (occupied bs) run').1,
          kept t.1.level ++ (sift turnBid (occupied bs) run').2) := by
  intro t
  by_cases hq : k.queue = []
  · obtain ⟨hrun, hlevels⟩ := sift_ask_vacant as ⟨k, run.progress⟩ hq
    refine ⟨run, ?_, (congrArg BidRun.progress hrun).symm, ?_⟩
    · rwa [hlevels]
    · rw [occupied_of_vacant hq, hrun, kept_of_vacant hq, List.nil_append]
  · obtain ⟨hrun, hlevels⟩ := sift_ask_occupied ⟨k, run.progress⟩ ⟨hq, hk⟩ hac has
    rw [occupied_of_nonempty hq]
    obtain ⟨hturn, hhead⟩ | ⟨-, asks, hl, hturn⟩ := turnBid_lists ha k
    · have hbeyond := beyond_of_head hhead hp ha hb
      have hstay := sift_ask_beyond ⟨k, run.progress⟩ (hbeyond k List.mem_cons_self)
      rw [hstay] at hrun hlevels
      refine ⟨run, ?_, (congrArg BidRun.progress hrun).symm, ?_⟩
      · rwa [hlevels]
      · rw [hrun, kept_of_nonempty hq, turnBid_beyond ha fun i hi =>
          hbeyond i (List.mem_cons_of_mem _ (mem_occupied.mp hi).1)]
        simp only [sift, hturn, List.singleton_append]
    · refine ⟨⟨asks, (sift turnAsk (occupied as) ⟨k, run.progress⟩).1.progress⟩, ?_,
        (congrArg BidRun.progress hrun).symm, ?_⟩
      · rwa [hlevels]
      · simp only [sift, hturn, t, hrun]

/-- A sweep does to the levels that hold orders what it does when there are no others. Where the
levels that it leaves cross, all of them hold orders. -/
theorem sift_bid_occupied (run run' : AskRun α) (ha : run.asks.Lists .sell as)
    (ha' : run'.asks.Lists .sell (occupied as)) (hprogress : run'.progress = run.progress)
    (hbc : ∀ k ∈ bs, k.Counted) (hac : ∀ j ∈ as, j.Counted)
    (hp : ∀ k ∈ bs, Scalar.isFinite k.price = true)
    (hb : bs.Pairwise fun a b => Ladder.better .buy a.price b.price = true) :
    let r := sift turnBid bs run
    let r' := sift turnBid (occupied bs) run'
    ∃ js, r.1.asks.Lists .sell js ∧ r'.1.asks.Lists .sell (occupied js) ∧
      r'.1.progress = r.1.progress ∧ occupied r.2 = r'.2 ∧ Tidies as js ∧
        ∀ k ∈ r.2, ∀ j ∈ js, ¬k.price < j.price → k.queue ≠ [] ∧ j.queue ≠ [] := by
  induction bs generalizing as run run' with
  | nil => exact ⟨as, ha, ha', hprogress, rfl, .refl as, by simp [sift]⟩
  | cons k bs ih =>
    obtain ⟨hk, hbc'⟩ := List.forall_mem_cons.mp hbc
    obtain ⟨hturn, hhead⟩ | ⟨-, asks, hl, hturn⟩ := turnBid_lists ha k
    · have hbeyond := beyond_of_head hhead hp ha hb
      have hstay : sift turnBid (k :: bs) run = (run, k :: bs) := by simp only [sift, hturn]
      have hstay' : sift turnBid (occupied (k :: bs)) run' = (run', occupied (k :: bs)) :=
        turnBid_beyond ha' fun i hi j hj =>
          hbeyond i (mem_occupied.mp hi).1 j (mem_occupied.mp hj).1
      rw [hstay, hstay']
      exact ⟨as, ha, ha', hprogress, rfl, .refl as, fun i hi j hj hle =>
        absurd (hbeyond i hi j hj) hle⟩
    · obtain ⟨run'', hl', hprogress', hstep⟩ := sift_bid_step ha' hk hac hp hb ha.sorted
      have hgo : sift turnBid (k :: bs) run = ((sift turnBid bs
            ⟨asks, (sift turnAsk as ⟨k, run.progress⟩).1.progress⟩).1,
          kept (sift turnAsk as ⟨k, run.progress⟩).1.level ++ (sift turnBid bs
            ⟨asks, (sift turnAsk as ⟨k, run.progress⟩).1.progress⟩).2) := by
        simp only [sift, hturn]
      rw [hprogress] at hl' hprogress' hstep
      obtain ⟨hlevel, hasks⟩ := sift_ask_counted (Q := Level.Counted) (fun _ hk => hk)
        (fun _ hk _ => hk) ⟨k, run.progress⟩ hk hac
      have htidies : Tidies as (sift turnAsk as ⟨k, run.progress⟩).2 := sift_tidies _ _ _
      obtain ⟨js, hj, hj', hpr, hlevels, ht, hcross⟩ := ih
        ⟨asks, (sift turnAsk as ⟨k, run.progress⟩).1.progress⟩ run'' hl hl' hprogress' hbc' hasks
        (fun i hi => hp i (List.mem_cons_of_mem _ hi)) (List.pairwise_cons.mp hb).2
      rw [hgo, hstep]
      refine ⟨js, hj, hj', hpr, ?_, htidies.trans ht, fun i hi j hj hle => ?_⟩
      · rw [occupied_append, occupied_kept, hlevels]
      · obtain hi | hi := List.mem_append.mp hi
        · obtain ⟨rfl, hne⟩ := mem_kept.mp hi
          refine ⟨hne, (ht j hj).elim (fun hj => ?_) id⟩
          refine sift_ask_tidies ⟨k, run.progress⟩ ha.sorted hne j hj ?_
          rwa [(sift_ask_thins as ⟨k, run.progress⟩).1.price] at hle
        · exact hcross i hi j hj hle

theorem isCrossed_occupied {bids bids' asks asks' : Ladder α} (hb : bids.Lists .buy bs)
    (ha : asks.Lists .sell as) (hb' : bids'.Lists .buy (occupied bs))
    (ha' : asks'.Lists .sell (occupied as))
    (hcross : ∀ k ∈ bs, ∀ j ∈ as, ¬k.price < j.price → k.queue ≠ [] ∧ j.queue ≠ []) :
    isCrossed bids' asks' = isCrossed bids asks := by
  unfold isCrossed
  rw [hb.bestPrice, ha.bestPrice, hb'.bestPrice, ha'.bestPrice]
  cases bs with
  | nil => rfl
  | cons k bs =>
    cases as with
    | nil =>
      cases (occupied (k :: bs)).head? <;> rfl
    | cons j as =>
      by_cases hlt : k.price < j.price
      · have hbeyond := beyond_of_head (by simpa using hlt) hb.finite ha hb.sorted
        have hnot : ¬j.price ≤ k.price := Scalar.not_le_of_lt hlt
        simp only [List.head?_cons, Option.map_some, hnot, decide_false]
        cases hk : (occupied (k :: bs)).head? with
        | none => rfl
        | some i =>
          cases hj : (occupied (j :: as)).head? with
          | none => rfl
          | some i' =>
            have hi := (mem_occupied.mp (List.mem_of_head? hk)).1
            have hi' := (mem_occupied.mp (List.mem_of_head? hj)).1
            exact decide_eq_false (Scalar.not_le_of_lt (hbeyond i hi i' hi'))
      · obtain ⟨hk, hj⟩ := hcross k List.mem_cons_self j List.mem_cons_self hlt
        rw [occupied_of_nonempty hk, occupied_of_nonempty hj]
        rfl

theorem sweep_occupied {bids bids' asks asks' : Ladder α} (hb : bids.Lists .buy bs)
    (ha : asks.Lists .sell as) (hb' : bids'.Lists .buy (occupied bs))
    (ha' : asks'.Lists .sell (occupied as)) (hbc : ∀ k ∈ bs, k.Counted)
    (hac : ∀ k ∈ as, k.Counted) :
    let s := sweep bids asks
    let s' := sweep bids' asks'
    ∃ ks js, s.bids.Lists .buy ks ∧ s.asks.Lists .sell js ∧ s'.bids.Lists .buy (occupied ks) ∧
      s'.asks.Lists .sell (occupied js) ∧ s'.fills = s.fills ∧ s'.exhausted = s.exhausted ∧
        s'.residualCross = s.residualCross := by
  intro s s'
  obtain ⟨hw, hl⟩ := hb.walk visits_bid ⟨asks, ⟨[], []⟩⟩
  obtain ⟨hw', hl'⟩ := hb'.walk visits_bid ⟨asks', ⟨[], []⟩⟩
  obtain ⟨js, hj, hj', hprogress, hlevels, -, hcross⟩ := sift_bid_occupied
    ⟨asks, ⟨[], []⟩⟩ ⟨asks', ⟨[], []⟩⟩ ha ha' rfl hbc hac hb.finite hb.sorted
  rw [← hw] at hj
  rw [← hw'] at hj'
  rw [← hw, ← hw'] at hprogress
  rw [← hlevels] at hl'
  exact ⟨_, js, hl, hj, hl', hj', congrArg Progress.fills hprogress,
    congrArg Progress.exhausted hprogress, isCrossed_occupied hl hj hl' hj' hcross⟩

end Bids

end Sweep

end LimitBook
