import LimitBook.Proofs.Match
import LimitBook.Proofs.Sweep

namespace LimitBook

/-- The same trade, with the feed as the aggressive party. -/
def Fill.virtually {α : Type} (f : Fill α) : Fill α :=
  { f with aggressive := .external, virtual := true }

namespace Sweep

variable {α : Type} [Scalar α]

section Quiet

theorem meet_bare (bidPrice askPrice : α) {bid : Order α} {asks : List (Resting α)}
    (hb : bid.isLocal = false) (ha : ∀ a ∈ asks, a.order.isLocal = false) :
    meet bidPrice askPrice bid asks = ⟨bid, asks, [], []⟩ := by
  induction asks with
  | nil => rfl
  | cons a asks ih =>
    have ih := ih fun x hx => ha x (List.mem_cons_of_mem _ hx)
    simp [meet, hb, ha a List.mem_cons_self, ih]

theorem cross_bare (bidPrice askPrice : α) {bids asks : List (Resting α)}
    (hc : ∀ b ∈ bids, Counts b.order.remaining) (hb : ∀ b ∈ bids, b.order.isLocal = false)
    (ha : ∀ a ∈ asks, a.order.isLocal = false) :
    cross bidPrice askPrice bids asks = ⟨bids, [], asks, [], [], []⟩ := by
  induction bids with
  | nil => rfl
  | cons b bids ih =>
    have ih := ih (fun x hx => hc x (List.mem_cons_of_mem _ hx)) fun x hx =>
      hb x (List.mem_cons_of_mem _ hx)
    have hn := (hc b List.mem_cons_self).2
    simp [cross, meet_bare bidPrice askPrice (hb b List.mem_cons_self) ha, hn, ih]

theorem cross_nil (bidPrice askPrice : α) {bids : List (Resting α)}
    (hc : ∀ b ∈ bids, Counts b.order.remaining) :
    cross bidPrice askPrice bids [] = ⟨bids, [], [], [], [], []⟩ := by
  induction bids with
  | nil => rfl
  | cons b bids ih =>
    have ih := ih fun x hx => hc x (List.mem_cons_of_mem _ hx)
    simp [cross, meet, (hc b List.mem_cons_self).2, ih]

def Apart (bs as : List (Level α)) : Prop :=
  ∀ k ∈ bs, ∀ j ∈ as, j.price ≤ k.price → k.Bare ∧ j.Bare

theorem Apart.thins {bs as bs' as' : List (Level α)} (h : Apart bs as)
    (hb : ∀ k ∈ bs', ∃ j ∈ bs, k.Thins j) (ha : ∀ k ∈ as', ∃ j ∈ as, k.Thins j) :
    Apart bs' as' := by
  intro k hk j hj hp
  obtain ⟨k', hk', htk⟩ := hb k hk
  obtain ⟨j', hj', htj⟩ := ha j hj
  rw [htk.price, htj.price] at hp
  obtain ⟨hbk, hbj⟩ := h k' hk' j' hj' hp
  exact ⟨htk.bare hbk, htj.bare hbj⟩

variable {bs as : List (Level α)}

theorem kept_of_stocked {k : Level α} (h : k.Stocked) : Ladder.kept k = [k] := by
  unfold Ladder.kept
  rw [if_neg fun he => h.nonempty ((Level.isEmpty_iff k).mp he)]

variable [Scalar.Lawful α]

theorem sift_ask_quiet (run : BidRun α) (hp : Scalar.isPositive run.level.price = true)
    (hap : ∀ k ∈ as, Scalar.isPositive k.price = true) (hb : run.level.Stocked)
    (has : ∀ k ∈ as, k.Stocked)
    (hq : ∀ k ∈ as, k.price ≤ run.level.price → run.level.Bare ∧ k.Bare) :
    Ladder.sift turnAsk as run = (run, as) := by
  induction as with
  | nil => rfl
  | cons k as ih =>
    have ih := ih (fun j hj => hap j (List.mem_cons_of_mem _ hj))
      (fun j hj => has j (List.mem_cons_of_mem _ hj)) fun j hj => hq j (List.mem_cons_of_mem _ hj)
    by_cases hlt : run.level.price < k.price
    · simp [Ladder.sift, turnAsk, hlt]
    · have hle := (Scalar.not_lt_iff (Scalar.isPositive.finite hp)
        (Scalar.isPositive.finite (hap k List.mem_cons_self))).mp hlt
      obtain ⟨hbare, hkbare⟩ := hq k List.mem_cons_self hle
      have hc := cross_bare run.level.price k.price hb.counts hbare hkbare
      have hne : run.level.isEmpty = false :=
        Bool.eq_false_iff.mpr fun he => hb.nonempty ((Level.isEmpty_iff _).mp he)
      have hturn : turnAsk run k = some (run, k, true) := by
        simp only [turnAsk, hlt, if_false, hc, Level.settle, List.map_nil, List.reverse_nil,
          List.nil_append, List.append_nil, Option.some.injEq, Prod.mk.injEq, true_and]
        simpa [Level.isEmpty] using hne
      simp [Ladder.sift, hturn, ih, kept_of_stocked (has k List.mem_cons_self)]

theorem turnBid_sift {run : AskRun α} (hr : run.asks.Ranks .sell as) (bid : Level α) :
    (turnBid run bid = none ∧ ∀ k, as.head? = some k → bid.price < k.price) ∨
    ((∃ k, as.head? = some k ∧ ¬bid.price < k.price) ∧
      ∃ asks, asks.Ranks .sell (Ladder.sift turnAsk as ⟨bid, run.progress⟩).2 ∧
        turnBid run bid =
          some (⟨asks, (Ladder.sift turnAsk as ⟨bid, run.progress⟩).1.progress⟩,
            (Ladder.sift turnAsk as ⟨bid, run.progress⟩).1.level, true)) := by
  obtain hnone | ⟨hhead, asks, hl, hturn⟩ := turnBid_lists hr.lists bid
  · exact .inl hnone
  · refine .inr ⟨hhead, asks, hl.ranks fun k hk => ?_, hturn⟩
    obtain ⟨j, hj, hp⟩ := List.mem_map.mp <|
      (Ladder.sift_prices (fun _ _ _ _ _ => visits_ask.price) _).subset (List.mem_map_of_mem hk)
    rw [← hp]
    exact hr.positive j hj

theorem sift_bid_quiet (run : AskRun α) (hr : run.asks.Ranks .sell as)
    (hbp : ∀ k ∈ bs, Scalar.isPositive k.price = true) (hbs : ∀ k ∈ bs, k.Stocked)
    (has : ∀ k ∈ as, k.Stocked) (hq : Apart bs as) :
    ∃ asks, asks.Ranks .sell as ∧ Ladder.sift turnBid bs run = (⟨asks, run.progress⟩, bs) := by
  induction bs generalizing run with
  | nil => exact ⟨run.asks, hr, rfl⟩
  | cons k bs ih =>
    have hk := hbs k List.mem_cons_self
    have hquiet := sift_ask_quiet ⟨k, run.progress⟩ (hbp k List.mem_cons_self) hr.positive
      hk has (hq k List.mem_cons_self)
    obtain ⟨ht, -⟩ | ⟨-, asks, hr', ht⟩ := turnBid_sift hr k
    · exact ⟨run.asks, hr, by simp [Ladder.sift, ht]⟩
    · rw [hquiet] at hr' ht
      obtain ⟨asks', hr'', hs⟩ := ih ⟨asks, run.progress⟩ hr'
        (fun j hj => hbp j (List.mem_cons_of_mem _ hj))
        (fun j hj => hbs j (List.mem_cons_of_mem _ hj)) fun j hj => hq j (List.mem_cons_of_mem _ hj)
      exact ⟨asks', hr'', by simp [Ladder.sift, ht, hs, kept_of_stocked hk]⟩

theorem sweep_quiet {bids asks : Ladder α} (hb : bids.Ranks .buy bs) (ha : asks.Ranks .sell as)
    (hbs : ∀ k ∈ bs, k.Stocked) (has : ∀ k ∈ as, k.Stocked) (hq : Apart bs as) :
    (sweep bids asks).bids.Ranks .buy bs ∧ (sweep bids asks).asks.Ranks .sell as ∧
      (sweep bids asks).fills = [] := by
  obtain ⟨hw, hr⟩ := hb.walk visits_bid ⟨asks, ⟨[], []⟩⟩
  obtain ⟨asks', hr', hs⟩ := sift_bid_quiet ⟨asks, ⟨[], []⟩⟩ ha hb.positive hbs has hq
  rw [hs] at hw hr
  unfold sweep
  simp only [hw]
  exact ⟨hr, hr', trivial⟩

end Quiet

section Echo

/-- The queue is an aggregate that stands in for the incoming order, or nothing when that has
nothing left. -/
def StandsIn (own : List (Resting α)) (taker : Order α) : Prop :=
  (own = [] ∧ negligible taker.remaining = true) ∨
    ∃ h o, own = [⟨h, o⟩] ∧ o.party = .external ∧ o.side = taker.side ∧
      o.remaining = taker.remaining ∧ negligible taker.remaining = false

variable {taker bid ask : Order α} {asks bids : List (Resting α)}

omit [Scalar α] in
theorem trade_bid (bidPrice askPrice q : α) {maker : Order α} (hb : bid.party = .external)
    (hs : bid.side = taker.side) :
    trade bid bidPrice maker askPrice q = (Match.trade taker askPrice maker q).virtually := by
  have hp : bidIsPassive bid maker = false := by
    simp [bidIsPassive, Order.isLocal_eq_false hb]
  simp [trade, hp, Match.trade, Fill.virtually, hb, hs]

theorem fill_remaining_eq {o o' : Order α} (h : o.remaining = o'.remaining) (q : α) :
    (o.fill q).remaining = (o'.fill q).remaining := by
  rw [Order.fill_remaining, Order.fill_remaining, h]

/-- A bid for the feed has traded with asks as an incoming order did with the local ones. -/
structure Echoes (m : Meeting α) (d : Match.Draw α) : Prop where
  left : m.left.filter (·.order.isLocal) = d.left
  gone : m.gone = d.gone
  fills : m.fills = d.fills.map Fill.virtually
  party : m.bid.party = .external
  side : m.bid.side = d.taker.side
  remaining : m.bid.remaining = d.taker.remaining

theorem meet_echoes (bidPrice askPrice : α) (asks : List (Resting α)) (hb : bid.party = .external)
    (hs : bid.side = taker.side) (hr : bid.remaining = taker.remaining) :
    Echoes (meet bidPrice askPrice bid asks)
      (Match.draw taker askPrice (asks.filter (·.order.isLocal))) := by
  fun_induction meet bidPrice askPrice bid asks generalizing taker with
  | case1 bid => exact ⟨rfl, rfl, rfl, hb, hs, hr⟩
  | case2 bid a asks hn =>
    rw [Match.draw_of_negligible _ _ (hr ▸ hn)]
    exact ⟨rfl, rfl, rfl, hb, hs, hr⟩
  | case3 bid a asks hn hl q ask rest fills hm =>
    rename_i ih
    have ha : a.order.isLocal = true := by
      simpa [Order.isLocal_eq_false hb] using hl
    have hs' : (bid.fill q).side = (taker.fill q).side := hs
    have hq : q = Scalar.smaller taker.remaining a.order.remaining := by rw [← hr]
    have ih := ih hb hs' (fill_remaining_eq hr q)
    rw [List.filter_cons, if_pos ha, Match.draw_gone _ _ (hr ▸ hn) hq hm]
    refine ⟨ih.left, ?_, ?_, ih.party, ih.side, ih.remaining⟩
    · simp only [rest, ih.gone, ask]
    · simp only [fills, rest, ih.fills, trade_bid bidPrice askPrice q hb hs, List.map_cons]
  | case4 bid a asks hn hl q ask rest fills hm =>
    rename_i ih
    have ha : a.order.isLocal = true := by
      simpa [Order.isLocal_eq_false hb] using hl
    have hs' : (bid.fill q).side = (taker.fill q).side := hs
    have hq : q = Scalar.smaller taker.remaining a.order.remaining := by rw [← hr]
    have ih := ih hb hs' (fill_remaining_eq hr q)
    rw [List.filter_cons, if_pos ha, Match.draw_stays _ _ (hr ▸ hn) hq hm]
    refine ⟨?_, ih.gone, ?_, ih.party, ih.side, ih.remaining⟩
    · have ha' : ask.isLocal = true := ha
      simp only [List.filter_cons, ha', if_true, rest, ih.left, ask]
    · simp only [fills, rest, ih.fills, trade_bid bidPrice askPrice q hb hs, List.map_cons]
  | case5 bid a asks hn hl rest =>
    rename_i ih
    have ha : ¬a.order.isLocal = true := fun ha => hl (by simp [ha])
    have ih := ih hb hs hr
    rw [List.filter_cons, if_neg ha]
    refine ⟨?_, ih.gone, ih.fills, ih.party, ih.side, ih.remaining⟩
    rw [List.filter_cons, if_neg ha]
    exact ih.left

/-- A level with an aggregate has crossed another as an incoming order met the local orders of
that: `own` is left of the aggregate, and `other` of the other level, which has lost `gone`. -/
structure Mirrors (own other gone : List (Resting α)) (fills : List (Fill α)) (d : Match.Draw α) :
    Prop where
  own : StandsIn own d.taker
  left : other.filter (·.order.isLocal) = d.left
  gone : gone = d.gone
  fills : fills = d.fills.map Fill.virtually

theorem mirrors_of_negligible {own other : List (Resting α)} (price : α)
    (h : negligible taker.remaining = true) (hs : StandsIn own taker) :
    Mirrors own other [] [] (Match.draw taker price (other.filter (·.order.isLocal))) := by
  rw [Match.draw_of_negligible _ _ h]
  exact ⟨hs, rfl, rfl, rfl⟩

theorem cross_buys (bidPrice askPrice : α) (asks : List (Resting α)) {own : List (Resting α)}
    (hs : StandsIn own taker) :
    let c := cross bidPrice askPrice own asks
    Mirrors c.bids c.asks c.asksGone c.fills
      (Match.draw taker askPrice (asks.filter (·.order.isLocal))) := by
  obtain ⟨rfl, hn⟩ | ⟨h, o, rfl, hp, hside, hr, hn⟩ := hs
  · exact mirrors_of_negligible askPrice hn (.inl ⟨rfl, hn⟩)
  · have he := meet_echoes bidPrice askPrice asks hp hside hr
    cases hm : negligible (meet bidPrice askPrice o asks).bid.remaining with
    | true =>
      simp only [cross, hm, if_true, List.append_nil]
      exact ⟨.inl ⟨rfl, he.remaining ▸ hm⟩, he.left, he.gone, he.fills⟩
    | false =>
      simp only [cross, hm, Bool.false_eq_true, if_false, List.append_nil]
      exact ⟨.inr ⟨h, _, rfl, he.party, he.side, he.remaining, he.remaining ▸ hm⟩, he.left, he.gone,
        he.fills⟩

omit [Scalar α] in
theorem trade_ask (bidPrice askPrice q : α) {maker : Order α} (hm : maker.isLocal = true)
    (ha : ask.party = .external) (hs : ask.side = taker.side) :
    trade maker bidPrice ask askPrice q = (Match.trade taker bidPrice maker q).virtually := by
  have hp : bidIsPassive maker ask = true := by
    simp [bidIsPassive, hm, Order.isLocal_eq_false ha]
  simp [trade, hp, Match.trade, Fill.virtually, ha, hs]

theorem standsIn_fill {o : Order α} (h : Handle) (ho : o.party = .external)
    (hs : o.side = taker.side) (hr : o.remaining = taker.remaining) (q : α) :
    StandsIn (if negligible (o.fill q).remaining then [] else [⟨h, o.fill q⟩]) (taker.fill q) := by
  have hr' := fill_remaining_eq hr q
  cases hn : negligible (o.fill q).remaining with
  | true => exact .inl ⟨rfl, hr' ▸ hn⟩
  | false => exact .inr ⟨h, o.fill q, rfl, ho, hs, hr', hr' ▸ hn⟩

theorem meet_single (bidPrice askPrice : α) {b o : Order α} {h : Handle} {q : α}
    (hb : b.isLocal = true) (hn : negligible b.remaining = false)
    (hq : q = Scalar.smaller b.remaining o.remaining) :
    meet bidPrice askPrice b [⟨h, o⟩] =
      { bid := b.fill q
        left := if negligible (o.fill q).remaining then [] else [⟨h, o.fill q⟩]
        gone := if negligible (o.fill q).remaining then [⟨h, o.fill q⟩] else []
        fills := [trade b bidPrice o askPrice q] } := by
  subst hq
  simp only [meet, hn, hb, Bool.true_or, if_true, Bool.false_eq_true, if_false]
  split <;> rfl

variable [Scalar.Lawful α]

theorem cross_sells (bidPrice askPrice : α) {own : List (Resting α)} (hs : StandsIn own taker)
    (ht : Scalar.isFinite taker.remaining = true) (hb : ∀ b ∈ bids, Counts b.order.remaining) :
    let c := cross bidPrice askPrice bids own
    Mirrors c.asks c.bids c.bidsGone c.fills
      (Match.draw taker bidPrice (bids.filter (·.order.isLocal))) := by
  induction bids generalizing own taker with
  | nil => exact ⟨hs, rfl, rfl, rfl⟩
  | cons b bids ih =>
    have hcounts := hb b List.mem_cons_self
    have hb' : ∀ x ∈ bids, Counts x.order.remaining := fun x hx => hb x (List.mem_cons_of_mem _ hx)
    obtain ⟨rfl, hn⟩ | ⟨h, o, rfl, hp, hside, hr, hn⟩ := hs
    · rw [cross_nil bidPrice askPrice hb]
      exact mirrors_of_negligible bidPrice hn (.inl ⟨rfl, hn⟩)
    · have hto : Counts taker.remaining := ⟨ht, hn⟩
      cases hbl : b.order.isLocal with
      | false =>
        have hmeet : meet bidPrice askPrice b.order [⟨h, o⟩] = ⟨b.order, [⟨h, o⟩], [], []⟩ :=
          meet_bare bidPrice askPrice hbl (by simpa using Order.isLocal_eq_false hp)
        have ih := ih (.inr ⟨h, o, rfl, hp, hside, hr, hn⟩) ht hb'
        simp only [cross, hmeet, hcounts.2, Bool.false_eq_true, if_false, List.filter_cons, hbl]
        refine ⟨ih.own, ?_, ih.gone, ih.fills⟩
        simp only [List.filter_cons, hbl, Bool.false_eq_true, if_false, ih.left]
      | true =>
        obtain ⟨q, hq⟩ : ∃ q, q = Scalar.smaller taker.remaining b.order.remaining := ⟨_, rfl⟩
        have hq' : q = Scalar.smaller b.order.remaining o.remaining := by
          rw [hq, hr, Scalar.smaller_comm hto.isPositive hcounts.isPositive]
        have hmeet := meet_single bidPrice askPrice (h := h) hbl hcounts.2 hq'
        have hleft := (trade_left ht (by simp [hn]) hcounts).1
        have htrade := trade_ask bidPrice askPrice q hbl hp hside
        rw [← hq] at hleft
        have ih := ih (standsIn_fill h hp hside hr q) (isFinite_of_zero_or hleft) hb'
        have hnt : ¬negligible taker.remaining = true := by simp [hn]
        by_cases hm : negligible (b.order.fill q).remaining = true
        · rw [List.filter_cons, if_pos hbl, Match.draw_gone _ _ hnt hq hm]
          simp only [cross, hmeet, hm, if_true]
          refine ⟨ih.own, ih.left, ?_, ?_⟩
          · rw [ih.gone]
          · simp only [ih.fills, htrade, List.singleton_append, List.map_cons]
        · rw [List.filter_cons, if_pos hbl, Match.draw_stays _ _ hnt hq hm]
          simp only [cross, hmeet, hm]
          refine ⟨ih.own, ?_, ih.gone, ?_⟩
          · have hbl' : (b.order.fill q).isLocal = true := hbl
            simp only [Bool.false_eq_true, if_false, List.filter_cons, hbl', if_true, ih.left]
          · simp only [Bool.false_eq_true, if_false, ih.fills, htrade, List.singleton_append,
              List.map_cons]

end Echo

section Shadow

variable [Scalar.Lawful α] {as bs : List (Level α)} {t : Match.Run α}

/-- An aggregate on its way through the other side has come as far as an incoming order on its way
through the local orders there. -/
structure Shadows (own : Level α) (fills : List (Fill α)) (t : Match.Run α) : Prop where
  price : own.price = t.taker.price
  own : StandsIn own.queue t.taker
  fills : fills = t.fills.map Fill.virtually

omit [Scalar.Lawful α] in
theorem Shadows.step {own k : Level α} {fills more : List (Fill α)}
    {left other gone : List (Resting α)} (h : Shadows own fills t)
    (hm : Mirrors left other gone more (Match.draw t.taker k.price k.locals.queue))
    (lost : List (Resting α)) :
    Shadows (own.settle left lost) (fills ++ more) (t.through k.locals) ∧
      (k.settle other gone).locals = t.leave k.locals := by
  refine ⟨⟨?_, hm.own, ?_⟩, ?_⟩
  · rw [Match.through_taker_price]
    exact h.price
  · rw [h.fills, hm.fills, Match.Run.through, List.map_append]
    rfl
  · simp only [Match.Run.leave, Level.locals, Level.settle, hm.left, hm.gone]

omit [Scalar α] [Scalar.Lawful α] in
theorem copies_kept_append (k : Level α) (ks : List (Level α)) :
    Ladder.copies (Ladder.kept k ++ ks) = Ladder.kept k.locals ++ Ladder.copies ks := by
  rw [Ladder.copies, List.flatMap_append, Ladder.kept_flatMap fun hq => ?_]
  · rfl
  · rw [Ladder.kept, if_pos]
    simp [Level.isEmpty, Level.locals, hq]

omit [Scalar.Lawful α] in
theorem Shadows.negligible {own : Level α} {fills : List (Fill α)} (h : Shadows own fills t)
    (hq : own.queue = []) : LimitBook.negligible t.taker.remaining = true := by
  obtain ⟨-, hn⟩ | ⟨a, o, ho, -⟩ := h.own
  · exact hn
  · rw [hq] at ho
    cases ho

omit [Scalar.Lawful α] in
theorem turnAsk_shadows {run run' : BidRun α} {k k' : Level α} {more : Bool}
    (h : Shadows run.level run.progress.fills t) (ht : turnAsk run k = some (run', k', more)) :
    Shadows run'.level run'.progress.fills (t.through k.locals) ∧
      k'.locals = t.leave k.locals := by
  obtain ⟨-, hlevel, hprogress, rfl, -⟩ := turnAsk_eq_some ht
  have hm := cross_buys run.level.price k.price k.queue h.own
  rw [hlevel, hprogress]
  exact h.step hm _

/-- A bid for the feed goes through the asks as an incoming order does through the local ones. -/
theorem sift_ask_shadows (run : BidRun α) (h : Shadows run.level run.progress.fills t)
    (hside : t.taker.side = .buy) (hp : Scalar.isPositive run.level.price = true)
    (hap : ∀ k ∈ as, Scalar.isPositive k.price = true)
    (hs : as.Pairwise fun a b => Ladder.better .sell a.price b.price = true) :
    Shadows (Ladder.sift turnAsk as run).1.level (Ladder.sift turnAsk as run).1.progress.fills
        (Ladder.sift Match.turn (Ladder.copies as) t).1 ∧
      Ladder.copies (Ladder.sift turnAsk as run).2 =
        (Ladder.sift Match.turn (Ladder.copies as) t).2 := by
  induction as generalizing run t with
  | nil => exact ⟨h, rfl⟩
  | cons k as ih =>
    by_cases hlt : run.level.price < k.price
    · have hnone : ∀ j, (k :: as).head? = some j →
          crosses t.taker.side t.taker.price j.price = false := by
        rintro _ ⟨⟩
        rw [hside, ← h.price]
        exact decide_eq_false (Scalar.not_le_of_lt hlt)
      rw [Match.sift_copies_of_head (by rwa [hside]) hnone]
      simp only [Ladder.sift, turnAsk, hlt, if_true]
      exact ⟨h, trivial⟩
    · have hle := (Scalar.not_lt_iff (Scalar.isPositive.finite hp)
        (Scalar.isPositive.finite (hap k List.mem_cons_self))).mp hlt
      have hcross : crosses t.taker.side t.taker.price k.price = true := by
        rw [hside, ← h.price]
        exact decide_eq_true hle
      obtain ⟨run', k', more, hturn⟩ : ∃ run' k' more, turnAsk run k = some (run', k', more) :=
        ⟨_, _, _, if_neg hlt⟩
      obtain ⟨-, hlevel, -, -, rfl⟩ := turnAsk_eq_some hturn
      obtain ⟨h', hk'⟩ := turnAsk_shadows h hturn
      rw [Match.sift_copies k hcross, ← hk']
      cases he : run'.level.isEmpty with
      | true =>
        have hn := h'.negligible ((Level.isEmpty_iff _).mp he)
        rw [Match.sift_of_negligible hn]
        simp only [Ladder.sift, hturn, he, Bool.not_true]
        exact ⟨h', copies_kept_append k' as⟩
      | false =>
        have hp' : Scalar.isPositive run'.level.price = true := by rw [hlevel]; exact hp
        obtain ⟨hshadow, hcopies⟩ := ih run' h' (by simpa using hside) hp'
          (fun j hj => hap j (List.mem_cons_of_mem _ hj)) (List.pairwise_cons.mp hs).2
        simp only [Ladder.sift, hturn, he, Bool.not_false]
        exact ⟨hshadow, by rw [copies_kept_append, hcopies]⟩

omit [Scalar.Lawful α] in
theorem Shadows.crosses_iff {own : Level α} {fills : List (Fill α)} (h : Shadows own fills t)
    (hside : t.taker.side = .sell) (p : α) :
    crosses t.taker.side t.taker.price p = true ↔ own.price ≤ p := by
  rw [hside, ← h.price]
  exact decide_eq_true_iff

omit [Scalar.Lawful α] in
theorem StandsIn.counts {own : List (Resting α)} {taker : Order α} (h : StandsIn own taker)
    (ht : Scalar.isFinite taker.remaining = true) : ∀ r ∈ own, Counts r.order.remaining := by
  obtain ⟨rfl, -⟩ | ⟨a, o, rfl, -, -, hr, hn⟩ := h
  · simp
  · have hc : Counts o.remaining := hr ▸ ⟨ht, hn⟩
    simpa using hc

theorem sift_own_shadows {own k : Level α} {progress : Progress α}
    (h : Shadows own progress.fills t) (ht : Scalar.isFinite t.taker.remaining = true)
    (hp : Scalar.isPositive k.price = true) (hap : ∀ j ∈ as, Scalar.isPositive j.price = true)
    (hk : k.Stocked) (has : ∀ j ∈ as, j.Stocked) (hle : ¬k.price < own.price)
    (hq : ∀ j ∈ as, j.price ≤ k.price → k.Bare ∧ j.Bare) :
    ∃ run' own', Ladder.sift turnAsk (own :: as) ⟨k, progress⟩ = (run', Ladder.kept own' ++ as) ∧
      Shadows own' run'.progress.fills (t.through k.locals) ∧
        run'.level.locals = t.leave k.locals := by
  obtain ⟨run', own', more, hturn⟩ :
      ∃ run' own' more, turnAsk ⟨k, progress⟩ own = some (run', own', more) :=
    ⟨_, _, _, if_neg hle⟩
  obtain ⟨-, hlevel, hprogress, rfl, rfl⟩ := turnAsk_eq_some hturn
  have hm := cross_sells k.price own.price h.own ht hk.counts
  obtain ⟨h', hleave⟩ := h.step (k := k) hm (cross k.price own.price k.queue own.queue).asksGone
  refine ⟨run', _, ?_, by rw [hprogress]; exact h', by rw [hlevel]; exact hleave⟩
  have hthins : run'.level.Thins k := hlevel ▸ ⟨rfl, cross_bids k.price own.price _ _⟩
  have hcounts := (turnAsk_counted hk.counts (h.own.counts ht) hturn).1
  cases he : run'.level.isEmpty with
  | true => simp only [Ladder.sift, hturn, he, Bool.not_true]
  | false =>
    have hne : run'.level.queue ≠ [] := fun hq =>
      Bool.false_ne_true (he.symm.trans ((Level.isEmpty_iff _).mpr hq))
    have hquiet : Ladder.sift turnAsk as run' = (run', as) := by
      refine sift_ask_quiet run' (hthins.price ▸ hp) hap ⟨hne, hcounts⟩ has fun j hj hjp => ?_
      rw [hthins.price] at hjp
      exact (hq j hj hjp).imp_left hthins.bare
    simp only [Ladder.sift, hturn, he, Bool.not_false, hquiet]

theorem sift_bid_shadows (run : AskRun α) {own : Level α} (h : Shadows own run.progress.fills t)
    (hr : run.asks.Ranks .sell (Ladder.kept own ++ as)) (hside : t.taker.side = .sell)
    (ht : Scalar.isFinite t.taker.remaining = true)
    (hbp : ∀ k ∈ bs, Scalar.isPositive k.price = true) (hbs : ∀ k ∈ bs, k.Stocked)
    (has : ∀ k ∈ as, k.Stocked) (hq : Apart bs as)
    (hs : bs.Pairwise fun a b => Ladder.better .buy a.price b.price = true) :
    ∃ own', Shadows own' (Ladder.sift turnBid bs run).1.progress.fills
        (Ladder.sift Match.turn (Ladder.copies bs) t).1 ∧
      (Ladder.sift turnBid bs run).1.asks.Ranks .sell (Ladder.kept own' ++ as) ∧
      Ladder.copies (Ladder.sift turnBid bs run).2 =
        (Ladder.sift Match.turn (Ladder.copies bs) t).2 := by
  induction bs generalizing run own t with
  | nil => exact ⟨own, h, hr, rfl⟩
  | cons k bs ih =>
    have hk := hbs k List.mem_cons_self
    have hkp := hbp k List.mem_cons_self
    have hbp' : ∀ j ∈ bs, Scalar.isPositive j.price = true := fun j hj =>
      hbp j (List.mem_cons_of_mem _ hj)
    have hbs' : ∀ j ∈ bs, j.Stocked := fun j hj => hbs j (List.mem_cons_of_mem _ hj)
    have hq' : Apart bs as := fun j hj => hq j (List.mem_cons_of_mem _ hj)
    have hs' := (List.pairwise_cons.mp hs).2
    have hap : ∀ j ∈ as, Scalar.isPositive j.price = true := fun j hj =>
      hr.positive j (List.mem_append_right _ hj)
    by_cases hown : own.queue = []
    · have hn := h.negligible hown
      have hkept : Ladder.kept own = [] := if_pos ((Level.isEmpty_iff own).mpr hown)
      rw [hkept, List.nil_append] at hr
      obtain ⟨asks, hr', hquiet⟩ := sift_bid_quiet run hr hbp hbs has hq
      rw [Match.sift_of_negligible hn, hquiet]
      exact ⟨own, h, by rwa [hkept], rfl⟩
    · have hkept : Ladder.kept own = [own] := if_neg fun he => hown ((Level.isEmpty_iff own).mp he)
      rw [hkept] at hr
      obtain ⟨hturn, hlt⟩ | ⟨⟨_, ⟨⟩, hle⟩, asks, hr', hturn⟩ := turnBid_sift hr k
      · have hnone : ∀ j, (k :: bs).head? = some j →
            crosses t.taker.side t.taker.price j.price = false := by
          rintro _ ⟨⟩
          refine Bool.eq_false_iff.mpr fun hc => ?_
          exact Scalar.not_le_of_lt (hlt own rfl) ((h.crosses_iff hside _).mp hc)
        rw [Match.sift_copies_of_head (by rwa [hside]) hnone]
        simp only [Ladder.sift, hturn]
        exact ⟨own, h, by rwa [hkept], trivial⟩
      · obtain ⟨run', own', hsift, h', hleave⟩ :=
          sift_own_shadows h ht hkp hap hk has hle (hq k List.mem_cons_self)
        rw [List.singleton_append, hsift] at hr' hturn
        have hcross : crosses t.taker.side t.taker.price k.price = true :=
          (h.crosses_iff hside _).mpr ((Scalar.not_lt_iff (Scalar.isPositive.finite hkp)
            (Scalar.isPositive.finite (hr.positive own (by simp)))).mp hle)
        have ht' : Scalar.isFinite (t.through k.locals).taker.remaining = true :=
          (Match.draw_counts _ ht fun r hr => hk.counts r (List.mem_of_mem_filter hr)).1
        obtain ⟨own'', hshadow, hranks, hcopies⟩ :=
          ih ⟨asks, run'.progress⟩ h' hr' (by simpa using hside) ht' hbp' hbs' hq' hs'
        rw [Match.sift_copies k hcross]
        simp only [Ladder.sift, hturn]
        exact ⟨own'', hshadow, hranks, by rw [copies_kept_append, hcopies, hleave]⟩

theorem sweep_sift {bids : Ladder α} (hb : bids.Ranks .buy bs) (asks : Ladder α) :
    (sweep bids asks).bids.Ranks .buy (Ladder.sift turnBid bs ⟨asks, ⟨[], []⟩⟩).2 ∧
      (sweep bids asks).asks = (Ladder.sift turnBid bs ⟨asks, ⟨[], []⟩⟩).1.asks ∧
      (sweep bids asks).fills = (Ladder.sift turnBid bs ⟨asks, ⟨[], []⟩⟩).1.progress.fills := by
  obtain ⟨hw, hr⟩ := hb.walk visits_bid ⟨asks, ⟨[], []⟩⟩
  exact ⟨hr, congrArg AskRun.asks hw, congrArg (·.progress.fills) hw⟩

theorem sweep_buys {bids asks : Ladder α} {own : Level α} (h : Shadows own [] t)
    (hside : t.taker.side = .buy) (hb : bids.Ranks .buy (own :: bs)) (ha : asks.Ranks .sell as)
    (hbs : ∀ k ∈ own :: bs, k.Kept .buy ∧ k.Stocked) (has : ∀ k ∈ as, k.Kept .sell ∧ k.Stocked)
    (hq : Apart bs as) :
    ∃ own' as', (sweep bids asks).bids.Ranks .buy (Ladder.kept own' ++ bs) ∧
      (sweep bids asks).asks.Ranks .sell as' ∧
      Shadows own' (sweep bids asks).fills (Ladder.sift Match.turn (Ladder.copies as) t).1 ∧
      Ladder.copies as' = (Ladder.sift Match.turn (Ladder.copies as) t).2 := by
  obtain ⟨hr, hasks, hfills⟩ := sweep_sift hb asks
  rw [hasks, hfills]
  obtain ⟨hown, hbs'⟩ := List.forall_mem_cons.mp hbs
  have hp := hb.positive own List.mem_cons_self
  have ha' : (⟨asks, ⟨[], []⟩⟩ : AskRun α).asks.Ranks .sell as := ha
  obtain ⟨hturn, hlt⟩ | ⟨-, asks', hr', hturn⟩ := turnBid_sift ha' own
  · have hnone : ∀ j, as.head? = some j → crosses t.taker.side t.taker.price j.price = false := by
      intro j hj
      rw [hside, ← h.price]
      exact decide_eq_false (Scalar.not_le_of_lt (hlt j hj))
    rw [Match.sift_copies_of_head (by rw [hside]; exact ha.sorted) hnone]
    simp only [Ladder.sift, hturn] at hr ⊢
    exact ⟨own, as, by rwa [kept_of_stocked hown.2], ha, h, rfl⟩
  · obtain ⟨hshadow, hcopies⟩ := sift_ask_shadows ⟨own, ⟨[], []⟩⟩ h hside hp ha.positive ha.sorted
    obtain ⟨_, _, -, hleaves, -⟩ :=
      sift_ask_leaves ⟨own, ⟨[], []⟩⟩ hown.1 fun k hk => (has k hk).1
    obtain ⟨-, has'⟩ :=
      sift_ask_counted (Q := Level.Stocked) (fun _ hk => hk.counts) (fun _ hk hne => ⟨hne, hk⟩)
        ⟨own, ⟨[], []⟩⟩ hown.2.counts fun k hk => (has k hk).2
    have hq' : Apart bs (Ladder.sift turnAsk as ⟨own, ⟨[], []⟩⟩).2 :=
      hq.thins (fun k hk => ⟨k, hk, .refl k⟩) hleaves.thins
    obtain ⟨asks'', hr'', hquiet⟩ := sift_bid_quiet
      ⟨asks', (Ladder.sift turnAsk as ⟨own, ⟨[], []⟩⟩).1.progress⟩ hr'
      (fun k hk => hb.positive k (List.mem_cons_of_mem _ hk)) (fun k hk => (hbs' k hk).2) has' hq'
    simp only [Ladder.sift, hturn, hquiet] at hr ⊢
    exact ⟨_, _, hr, hr'', hshadow, hcopies⟩

theorem sweep_sells {bids asks : Ladder α} {own : Level α} (h : Shadows own [] t)
    (hside : t.taker.side = .sell) (ht : Scalar.isFinite t.taker.remaining = true)
    (hb : bids.Ranks .buy bs) (ha : asks.Ranks .sell (own :: as))
    (hbs : ∀ k ∈ bs, k.Stocked) (has : ∀ k ∈ own :: as, k.Stocked) (hq : Apart bs as) :
    ∃ own' bs', (sweep bids asks).asks.Ranks .sell (Ladder.kept own' ++ as) ∧
      (sweep bids asks).bids.Ranks .buy bs' ∧
      Shadows own' (sweep bids asks).fills (Ladder.sift Match.turn (Ladder.copies bs) t).1 ∧
      Ladder.copies bs' = (Ladder.sift Match.turn (Ladder.copies bs) t).2 := by
  obtain ⟨hr, hasks, hfills⟩ := sweep_sift hb asks
  rw [hasks, hfills]
  obtain ⟨hown, has'⟩ := List.forall_mem_cons.mp has
  obtain ⟨own', hshadow, hranks, hcopies⟩ := sift_bid_shadows ⟨asks, ⟨[], []⟩⟩ h
    (by rwa [kept_of_stocked hown]) hside ht hb.positive hbs has' hq hb.sorted
  exact ⟨own', _, hranks, hr, hshadow, hcopies⟩

end Shadow

end Sweep

end LimitBook
