import LimitBook.Sweep
import LimitBook.Proofs.Ladder

namespace LimitBook.Sweep

variable {α : Type} [Scalar α]

section Meet

variable (bidPrice askPrice : α) (bid : Order α) (asks : List (Resting α))

theorem meet_bid_terms : (meet bidPrice askPrice bid asks).bid.terms = bid.terms := by
  fun_induction meet bidPrice askPrice bid asks with
  | case1 | case2 => rfl
  | case3 bid a asks _ _ q ask rest fills _ ih | case4 bid a asks _ _ q ask rest fills _ ih =>
    exact ih.trans (bid.fill_terms q)
  | case5 bid a asks _ _ rest ih => exact ih

theorem meet_left :
    ((meet bidPrice askPrice bid asks).left.map Resting.terms).Sublist
      (asks.map Resting.terms) := by
  fun_induction meet bidPrice askPrice bid asks with
  | case1 | case2 => exact List.Sublist.refl _
  | case3 bid a asks _ _ q ask rest fills _ ih => exact ih.cons _
  | case4 bid a asks _ _ q ask rest fills _ ih => exact ih.cons_cons _
  | case5 bid a asks _ _ rest ih => exact ih.cons_cons _

theorem meet_perm :
    (((meet bidPrice askPrice bid asks).left ++ (meet bidPrice askPrice bid asks).gone).map
      Resting.terms).Perm (asks.map Resting.terms) := by
  fun_induction meet bidPrice askPrice bid asks with
  | case1 => exact .nil
  | case2 => simp
  | case3 bid a asks _ _ q ask rest fills _ ih =>
    simp only [List.map_append, List.map_cons] at ih ⊢
    exact List.perm_middle.trans (ih.cons _)
  | case4 bid a asks _ _ q ask rest fills _ ih => exact ih.cons _
  | case5 bid a asks _ _ rest ih => exact ih.cons _

variable [Scalar.Lawful α] {bid asks}

theorem meet_counts (hb : bid.remaining = Scalar.zero ∨ Counts bid.remaining)
    (ha : ∀ a ∈ asks, Counts a.order.remaining) :
    ((meet bidPrice askPrice bid asks).bid.remaining = Scalar.zero ∨
        Counts (meet bidPrice askPrice bid asks).bid.remaining) ∧
      ∀ a ∈ (meet bidPrice askPrice bid asks).left, Counts a.order.remaining := by
  fun_induction meet bidPrice askPrice bid asks with
  | case1 => exact ⟨hb, by simp⟩
  | case2 => exact ⟨hb, ha⟩
  | case3 bid a asks hn _ q ask rest fills hm ih =>
    have ha' := ha a List.mem_cons_self
    obtain ⟨hq, -⟩ := trade_left (isFinite_of_zero_or hb) hn ha'
    exact ih hq fun x hx => ha x (List.mem_cons_of_mem _ hx)
  | case4 bid a asks hn _ q ask rest fills hm ih =>
    have ha' := ha a List.mem_cons_self
    obtain ⟨hq, hz⟩ := trade_left (isFinite_of_zero_or hb) hn ha'
    obtain ⟨hb', hl⟩ := ih hq fun x hx => ha x (List.mem_cons_of_mem _ hx)
    refine ⟨hb', fun x hx => ?_⟩
    obtain rfl | hx := List.mem_cons.mp hx
    · exact (hz.resolve_left fun he => hm (he ▸ negligible_zero)).1
    · exact hl x hx
  | case5 bid a asks _ _ rest ih =>
    obtain ⟨hb', hl⟩ := ih hb fun x hx => ha x (List.mem_cons_of_mem _ hx)
    refine ⟨hb', fun x hx => ?_⟩
    obtain rfl | hx := List.mem_cons.mp hx
    · exact ha x List.mem_cons_self
    · exact hl x hx

end Meet

section Cross

variable (bidPrice askPrice : α) (bids asks : List (Resting α))

theorem cross_bids :
    ((cross bidPrice askPrice bids asks).bids.map Resting.terms).Sublist
      (bids.map Resting.terms) := by
  fun_induction cross bidPrice askPrice bids asks with
  | case1 => exact List.Sublist.refl _
  | case2 b bids asks m rest used bid _ ih => exact ih.cons _
  | case3 b bids asks m rest used bid _ ih =>
    have ht : bid.terms = b.terms :=
      Prod.ext rfl (meet_bid_terms bidPrice askPrice b.order asks)
    simp only [List.map_cons, ht]
    exact ih.cons_cons _

theorem cross_bids_perm :
    (((cross bidPrice askPrice bids asks).bids ++ (cross bidPrice askPrice bids asks).bidsGone).map
      Resting.terms).Perm (bids.map Resting.terms) := by
  fun_induction cross bidPrice askPrice bids asks with
  | case1 => exact .nil
  | case2 b bids asks m rest used bid _ ih =>
    have ht : bid.terms = b.terms :=
      Prod.ext rfl (meet_bid_terms bidPrice askPrice b.order asks)
    simp only [List.map_append, List.map_cons, ht] at ih ⊢
    exact List.perm_middle.trans (ih.cons _)
  | case3 b bids asks m rest used bid _ ih =>
    have ht : bid.terms = b.terms :=
      Prod.ext rfl (meet_bid_terms bidPrice askPrice b.order asks)
    simp only [List.map_append, List.map_cons, List.cons_append, ht] at ih ⊢
    exact ih.cons _

theorem cross_asks :
    ((cross bidPrice askPrice bids asks).asks.map Resting.terms).Sublist
      (asks.map Resting.terms) := by
  fun_induction cross bidPrice askPrice bids asks with
  | case1 => exact List.Sublist.refl _
  | case2 b bids asks m rest used bid _ ih | case3 b bids asks m rest used bid _ ih =>
    exact ih.trans (meet_left _ _ _ _)

theorem cross_asks_perm :
    (((cross bidPrice askPrice bids asks).asks ++ (cross bidPrice askPrice bids asks).asksGone).map
      Resting.terms).Perm (asks.map Resting.terms) := by
  fun_induction cross bidPrice askPrice bids asks with
  | case1 => simp
  | case2 b bids asks m rest used bid _ ih | case3 b bids asks m rest used bid _ ih =>
    refine List.Perm.trans ?_ (meet_perm bidPrice askPrice b.order asks)
    simp only [List.map_append] at ih ⊢
    refine (List.perm_append_comm_assoc _ _ _).trans ?_
    exact (ih.append_left _).trans List.perm_append_comm

theorem cross_exhausted :
    (cross bidPrice askPrice bids asks).exhausted.Perm
      ((cross bidPrice askPrice bids asks).bidsGone.map (·.order) ++
        (cross bidPrice askPrice bids asks).asksGone.map (·.order)) := by
  fun_induction cross bidPrice askPrice bids asks with
  | case1 => exact .nil
  | case2 b bids asks m rest used bid _ ih =>
    simp only [List.map_cons, List.map_append, List.cons_append]
    refine List.perm_middle.trans (List.Perm.cons _ ?_)
    exact (ih.append_left _).trans (List.perm_append_comm_assoc _ _ _)
  | case3 b bids asks m rest used bid _ ih =>
    simp only [List.map_append]
    exact (ih.append_left _).trans (List.perm_append_comm_assoc _ _ _)

variable [Scalar.Lawful α] {bids asks}

theorem cross_counts (hb : ∀ b ∈ bids, Counts b.order.remaining)
    (ha : ∀ a ∈ asks, Counts a.order.remaining) :
    (∀ b ∈ (cross bidPrice askPrice bids asks).bids, Counts b.order.remaining) ∧
      ∀ a ∈ (cross bidPrice askPrice bids asks).asks, Counts a.order.remaining := by
  fun_induction cross bidPrice askPrice bids asks with
  | case1 => exact ⟨by simp, ha⟩
  | case2 b bids asks m rest used bid _ ih =>
    obtain ⟨-, hl⟩ := meet_counts bidPrice askPrice (.inr (hb b List.mem_cons_self)) ha
    exact ih (fun x hx => hb x (List.mem_cons_of_mem _ hx)) hl
  | case3 b bids asks m rest used bid hm ih =>
    obtain ⟨hb', hl⟩ := meet_counts bidPrice askPrice (.inr (hb b List.mem_cons_self)) ha
    obtain ⟨hbs, has⟩ := ih (fun x hx => hb x (List.mem_cons_of_mem _ hx)) hl
    refine ⟨fun x hx => ?_, has⟩
    obtain rfl | hx := List.mem_cons.mp hx
    · exact hb'.resolve_left fun he => hm (he ▸ negligible_zero)
    · exact hbs x hx

end Cross

def turnAsk (run : BidRun α) (ask : Level α) : Option (BidRun α × Level α × Bool) :=
  if run.level.price < ask.price then none
  else
    let c := cross run.level.price ask.price run.level.queue ask.queue
    let level := run.level.settle c.bids c.bidsGone
    some ({ level
            progress :=
              { fills := run.progress.fills ++ c.fills
                exhausted := run.progress.exhausted ++ c.exhausted } },
      ask.settle c.asks c.asksGone, !level.isEmpty)

theorem visits_ask : Ladder.Visits visitAsk (turnAsk (α := α)) := by
  intro run ask asks
  unfold visitAsk turnAsk
  by_cases h : run.level.price < ask.price
  · simp [h]
  · simp [h, Level.settle]

def turnBid (run : AskRun α) (bid : Level α) : Option (AskRun α × Level α × Bool) :=
  match run.asks.bestPrice with
  | none => none
  | some best =>
    if bid.price < best then none
    else
      let w := Ladder.walk visitAsk run.asks.prices ⟨bid, run.progress⟩ run.asks
      some (⟨w.2, w.1.progress⟩, w.1.level, true)

theorem walk_price (prices : List α) (run : BidRun α) (asks : Ladder α) :
    (Ladder.walk visitAsk prices run asks).1.level.price = run.level.price := by
  induction prices generalizing run asks with
  | nil => rfl
  | cons p prices ih =>
    unfold Ladder.walk
    cases hl : asks.level? p with
    | none => exact ih run asks
    | some ask =>
      have hv := visits_ask run ask asks
      cases ht : turnAsk run ask with
      | none =>
        simp only [ht] at hv
        simp only [hv]
      | some t =>
        obtain ⟨run', ask', more⟩ := t
        simp only [ht] at hv
        have hp : run'.level.price = run.level.price := by
          unfold turnAsk at ht
          split at ht
          · cases ht
          · cases ht
            rfl
        cases more <;> simp only [hv.1]
        · exact hp
        · exact (ih run' _).trans hp

theorem visits_bid : Ladder.Visits visitBid (turnBid (α := α)) := by
  intro run bid bids
  unfold visitBid turnBid
  cases hb : run.asks.bestPrice with
  | none => simp
  | some best =>
    by_cases h : bid.price < best
    · simp [h]
    · simp [h, walk_price]

theorem turnAsk_eq_some {run run' : BidRun α} {ask ask' : Level α} {more : Bool}
    (h : turnAsk run ask = some (run', ask', more)) :
    let c := cross run.level.price ask.price run.level.queue ask.queue
    ¬run.level.price < ask.price ∧ run'.level = run.level.settle c.bids c.bidsGone ∧
      run'.progress = ⟨run.progress.fills ++ c.fills, run.progress.exhausted ++ c.exhausted⟩ ∧
        ask' = ask.settle c.asks c.asksGone ∧ more = !run'.level.isEmpty := by
  unfold turnAsk at h
  split at h
  · cases h
  · rename_i hp
    cases h
    exact ⟨hp, rfl, rfl, rfl, rfl⟩

theorem turnBid_eq_some {run run' : AskRun α} {bid bid' : Level α} {more : Bool}
    (h : turnBid run bid = some (run', bid', more)) :
    let w := Ladder.walk visitAsk run.asks.prices ⟨bid, run.progress⟩ run.asks
    run' = ⟨w.2, w.1.progress⟩ ∧ bid' = w.1.level ∧ more = true := by
  unfold turnBid at h
  split at h
  · cases h
  · split at h
    · cases h
    · cases h
      exact ⟨rfl, rfl, rfl⟩

theorem turnBid_lists [Scalar.Lawful α] {as : List (Level α)} {run : AskRun α}
    (ha : run.asks.Lists .sell as) (bid : Level α) :
    (turnBid run bid = none ∧ ∀ k, as.head? = some k → bid.price < k.price) ∨
    ((∃ k, as.head? = some k ∧ ¬bid.price < k.price) ∧
      ∃ asks, asks.Lists .sell (Ladder.sift turnAsk as ⟨bid, run.progress⟩).2 ∧
        turnBid run bid =
          some (⟨asks, (Ladder.sift turnAsk as ⟨bid, run.progress⟩).1.progress⟩,
            (Ladder.sift turnAsk as ⟨bid, run.progress⟩).1.level, true)) := by
  obtain ⟨hw, ha'⟩ := ha.walk visits_ask ⟨bid, run.progress⟩
  rw [← hw]
  unfold turnBid
  rw [ha.bestPrice]
  cases as with
  | nil => exact .inl ⟨rfl, by simp⟩
  | cons k as =>
    by_cases hlt : bid.price < k.price
    · exact .inl ⟨if_pos hlt, by simpa using hlt⟩
    · exact .inr ⟨⟨k, rfl, hlt⟩, _, ha', if_neg hlt⟩

section Leaves

/-- A bid level on its way has left `level` behind with `asksGone` gone from the asks so far, and
the orders used up since `before` are those gone from either. -/
def Spends (level : Level α) (before : List (Order α)) (run : BidRun α)
    (asksGone : List (α × Handle × Order α)) : Prop :=
  ∃ bidsGone, Level.Leaves .buy level run.level bidsGone ∧
    (run.progress.exhausted.map Order.terms).Perm
      (before.map Order.terms ++ (bidsGone ++ asksGone).map (·.2.2))

theorem turnAsk_spends {level : Level α} {before : List (Order α)} {run run' : BidRun α}
    {asksGone : List (α × Handle × Order α)} {ask ask' : Level α} {more : Bool}
    (hs : Spends level before run asksGone) (hk : ask.Kept .sell)
    (ht : turnAsk run ask = some (run', ask', more)) :
    ∃ gone, Level.Leaves .sell ask ask' gone ∧ Spends level before run' (asksGone ++ gone) := by
  obtain ⟨bidsGone, hb, hp⟩ := hs
  obtain ⟨-, hlevel, hprogress, rfl, -⟩ := turnAsk_eq_some ht
  refine ⟨_, Level.settle_leaves hk (cross_asks _ _ _ _) (cross_asks_perm _ _ _ _), _,
    hlevel ▸ hb.trans (Level.settle_leaves hb.kept (cross_bids _ _ _ _) (cross_bids_perm _ _ _ _)),
    ?_⟩
  have hc := (cross_exhausted run.level.price ask.price run.level.queue ask.queue).map Order.terms
  rw [hprogress, List.map_append]
  refine (hp.append hc).trans ?_
  rw [List.append_assoc]
  refine List.Perm.append_left _ ?_
  simp only [List.map_append, List.map_map]
  exact Ladder.perm_exchange _ _ _ _

theorem sift_ask_leaves {as : List (Level α)} (run : BidRun α) (hb : run.level.Kept .buy)
    (ha : ∀ k ∈ as, k.Kept .sell) :
    ∃ bidsGone asksGone,
      Level.Leaves .buy run.level (Ladder.sift turnAsk as run).1.level bidsGone ∧
      Ladder.Leaves .sell as (Ladder.sift turnAsk as run).2 asksGone ∧
      ((Ladder.sift turnAsk as run).1.progress.exhausted.map Order.terms).Perm
        (run.progress.exhausted.map Order.terms ++ (bidsGone ++ asksGone).map (·.2.2)) := by
  have hstart : Spends run.level run.progress.exhausted run [] := ⟨[], .refl hb, by simp⟩
  obtain ⟨asksGone, hl, bidsGone, hb', hp⟩ :=
    Ladder.sift_leaves [] (fun _ _ _ _ _ _ => turnAsk_spends) hstart ha
  exact ⟨bidsGone, asksGone, hb', hl, hp⟩

/-- The bids have gone through the asks `as` with `bidsGone` gone so far, and the orders used up are
those gone from either side. -/
def Clears (as : List (Level α)) (run : AskRun α) (bidsGone : List (α × Handle × Order α)) : Prop :=
  ∃ as' asksGone, run.asks.Ranks .sell as' ∧ Ladder.Leaves .sell as as' asksGone ∧
    (run.progress.exhausted.map Order.terms).Perm ((bidsGone ++ asksGone).map (·.2.2))

variable [Scalar.Lawful α]

theorem turnBid_clears {as : List (Level α)} {run run' : AskRun α}
    {bidsGone : List (α × Handle × Order α)} {bid bid' : Level α} {more : Bool}
    (hs : Clears as run bidsGone) (hk : bid.Kept .buy)
    (ht : turnBid run bid = some (run', bid', more)) :
    ∃ gone, Level.Leaves .buy bid bid' gone ∧ Clears as run' (bidsGone ++ gone) := by
  obtain ⟨as', asksGone, hr, hl, hp⟩ := hs
  obtain ⟨rfl, rfl, -⟩ := turnBid_eq_some ht
  obtain ⟨hw, hr'⟩ := hr.walk visits_ask ⟨bid, run.progress⟩
  obtain ⟨gone, asksGone', hb, hl', hp'⟩ := sift_ask_leaves ⟨bid, run.progress⟩ hk hl.kept
  rw [hw]
  refine ⟨gone, hb, _, _, hr', hl.trans hl', hp'.trans ((hp.append_right _).trans ?_)⟩
  simp only [List.map_append]
  exact Ladder.perm_exchange _ _ _ _

theorem sweep_leaves {bs as : List (Level α)} {bids asks : Ladder α} (hb : bids.Ranks .buy bs)
    (ha : asks.Ranks .sell as) (hbk : ∀ k ∈ bs, k.Kept .buy) (hak : ∀ k ∈ as, k.Kept .sell) :
    ∃ bs' as' bidsGone asksGone,
      (sweep bids asks).bids.Ranks .buy bs' ∧ (sweep bids asks).asks.Ranks .sell as' ∧
      Ladder.Leaves .buy bs bs' bidsGone ∧ Ladder.Leaves .sell as as' asksGone ∧
      ((sweep bids asks).exhausted.map Order.terms).Perm
        ((bidsGone ++ asksGone).map (·.2.2)) := by
  obtain ⟨hw, hr⟩ := hb.walk visits_bid ⟨asks, ⟨[], []⟩⟩
  have hstart : Clears as ⟨asks, ⟨[], []⟩⟩ [] := ⟨as, [], ha, .refl hak, by simp⟩
  obtain ⟨bidsGone, hl, as', asksGone, hr', hl', hp⟩ :=
    Ladder.sift_leaves [] (fun _ _ _ _ _ _ => turnBid_clears) hstart hbk
  rw [← hw] at hr' hp
  exact ⟨_, as', bidsGone, asksGone, hr, hr', hl, hl', hp⟩

end Leaves

section Counted

variable [Scalar.Lawful α]

theorem turnAsk_counted {run run' : BidRun α} {ask ask' : Level α} {more : Bool}
    (hb : run.level.Counted) (ha : ask.Counted) (ht : turnAsk run ask = some (run', ask', more)) :
    run'.level.Counted ∧ ask'.Counted := by
  obtain ⟨-, hlevel, -, rfl, -⟩ := turnAsk_eq_some ht
  rw [hlevel]
  exact cross_counts _ _ hb ha

variable {Q : Level α → Prop} {as bs : List (Level α)}

theorem sift_ask_counted (hQ : ∀ k, Q k → k.Counted)
    (hQ' : ∀ k : Level α, k.Counted → k.queue ≠ [] → Q k) (run : BidRun α)
    (hb : run.level.Counted) (ha : ∀ k ∈ as, Q k) :
    (Ladder.sift turnAsk as run).1.level.Counted ∧ ∀ k ∈ (Ladder.sift turnAsk as run).2, Q k :=
  Ladder.sift_induction (P := fun (run : BidRun α) => run.level.Counted)
    (fun _ _ _ k' _ hrun hk ht => (turnAsk_counted hrun (hQ _ hk) ht).imp_right (hQ' k')) hb ha

theorem turnBid_counted (hQ : ∀ k, Q k → k.Counted)
    (hQ' : ∀ k : Level α, k.Counted → k.queue ≠ [] → Q k) {run run' : AskRun α}
    {bid bid' : Level α} {more : Bool} (ha : ∃ as, run.asks.Ranks .sell as ∧ ∀ k ∈ as, Q k)
    (hb : bid.Counted) (ht : turnBid run bid = some (run', bid', more)) :
    (∃ as, run'.asks.Ranks .sell as ∧ ∀ k ∈ as, Q k) ∧ bid'.Counted := by
  obtain ⟨as, hr, has⟩ := ha
  obtain ⟨rfl, rfl, -⟩ := turnBid_eq_some ht
  obtain ⟨hw, hr'⟩ := hr.walk visits_ask ⟨bid, run.progress⟩
  obtain ⟨hb', has'⟩ := sift_ask_counted hQ hQ' ⟨bid, run.progress⟩ hb has
  rw [hw]
  exact ⟨⟨_, hr', has'⟩, hb'⟩

theorem sweep_counted (hQ : ∀ k, Q k → k.Counted)
    (hQ' : ∀ k : Level α, k.Counted → k.queue ≠ [] → Q k) {bids asks : Ladder α}
    (hb : bids.Ranks .buy bs) (ha : asks.Ranks .sell as) (hbs : ∀ k ∈ bs, Q k)
    (has : ∀ k ∈ as, Q k) :
    ∃ bs' as', (sweep bids asks).bids.Ranks .buy bs' ∧ (sweep bids asks).asks.Ranks .sell as' ∧
      (∀ k ∈ bs', Q k) ∧ ∀ k ∈ as', Q k := by
  obtain ⟨hw, hr⟩ := hb.walk visits_bid ⟨asks, ⟨[], []⟩⟩
  obtain ⟨⟨as', hr', has'⟩, hbs'⟩ := Ladder.sift_induction (s := ⟨asks, ⟨[], []⟩⟩)
    (P := fun (run : AskRun α) => ∃ as, run.asks.Ranks .sell as ∧ ∀ k ∈ as, Q k)
    (fun _ _ _ k' _ hrun hk ht =>
      (turnBid_counted hQ hQ' hrun (hQ _ hk) ht).imp_right (hQ' k')) ⟨as, ha, has⟩ hbs
  rw [← hw] at hr'
  exact ⟨_, as', hr, hr', hbs', has'⟩

theorem sweep_stocked {bids asks : Ladder α} (hb : bids.Ranks .buy bs)
    (ha : asks.Ranks .sell as) (hbs : ∀ k ∈ bs, k.Stocked) (has : ∀ k ∈ as, k.Stocked) :
    ∃ bs' as', (sweep bids asks).bids.Ranks .buy bs' ∧ (sweep bids asks).asks.Ranks .sell as' ∧
      (∀ k ∈ bs', k.Stocked) ∧ ∀ k ∈ as', k.Stocked :=
  sweep_counted (fun _ hk => hk.counts) (fun _ hk hne => ⟨hne, hk⟩) hb ha hbs has

end Counted

end LimitBook.Sweep
