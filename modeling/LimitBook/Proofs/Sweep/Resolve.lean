import Mathlib.Data.List.Perm.Basic
import LimitBook.Proofs.Scalar.Double
import LimitBook.Proofs.Sweep
import LimitBook.Proofs.Sweep.Part

namespace LimitBook.Sweep

variable {α : Type} [Scalar α]

/-- A trade of a bid with an ask, each in its place and as it is just before. -/
structure Deal (α : Type) where
  bidPrice : α
  bid : Resting α
  askPrice : α
  ask : Resting α

namespace Deal

def quantity (d : Deal α) : α := Scalar.smaller d.bid.order.remaining d.ask.order.remaining

def bidPart (d : Deal α) : Part α := ⟨(d.bidPrice, d.bid), d.quantity⟩

def askPart (d : Deal α) : Part α := ⟨(d.askPrice, d.ask), d.quantity⟩

/-- The deal as a fill. A local order waits and sets the price; of two, the one that arrived
before. -/
def fill (d : Deal α) : Fill α :=
  if d.ask.order.isLocal = false ∨
      d.bid.order.isLocal = true ∧ d.bid.order.arrival < d.ask.order.arrival then
    { passive := d.bid.order.party, aggressive := d.ask.order.party, price := d.bidPrice,
      quantity := d.quantity, aggressor := .sell, virtual := true }
  else
    { passive := d.ask.order.party, aggressive := d.bid.order.party, price := d.askPrice,
      quantity := d.quantity, aggressor := .buy, virtual := true }

/-- The prices of the two cross, and the feed is not on both sides. -/
structure Fits (d : Deal α) : Prop where
  crosses : d.askPrice ≤ d.bidPrice
  «local» : (d.bid.order.isLocal || d.ask.order.isLocal) = true

def used (d : Deal α) : List (Order α) :=
  d.askPart.gone.map (·.2.order) ++ d.bidPart.gone.map (·.2.order)

def traded (d : Deal α) : Fill α :=
  trade d.bid.order d.bidPrice d.ask.order d.askPrice d.quantity

end Deal

/-- How far a sweep has come: what is left of both sides, in line, and what has been reported. -/
structure Stand (α : Type) where
  bids : List (α × Resting α)
  asks : List (α × Resting α)
  progress : Progress α

/-- The deals take a sweep from `s` to `s'`. -/
structure Resolves (ds : List (Deal α)) (s s' : Stand α) : Prop where
  bids : Trades s.bids (ds.map Deal.bidPart) s'.bids
  asks : Trades s.asks (ds.map Deal.askPart) s'.asks
  fits : ∀ d ∈ ds, d.Fits
  fills : s'.progress.fills = s.progress.fills ++ ds.map Deal.traded
  exhausted : s'.progress.exhausted = s.progress.exhausted ++ ds.flatMap Deal.used

section Resolves

variable {s s' s'' : Stand α} {ds ds' : List (Deal α)} {bs bs' as as' : List (α × Resting α)}
  {p p' : Progress α}

theorem resolves_refl (s : Stand α) : Resolves [] s s :=
  ⟨.nil _, .nil _, by simp, by simp, by simp⟩

theorem Resolves.trans (h : Resolves ds s s') (h' : Resolves ds' s' s'') :
    Resolves (ds ++ ds') s s'' where
  bids := by
    rw [List.map_append]
    exact h.bids.trans h'.bids
  asks := by
    rw [List.map_append]
    exact h.asks.trans h'.asks
  fits := List.forall_mem_append.mpr ⟨h.fits, h'.fits⟩
  fills := by rw [h'.fills, h.fills, List.map_append, List.append_assoc]
  exhausted := by rw [h'.exhausted, h.exhausted, List.flatMap_append, List.append_assoc]

theorem Resolves.ahead (h : Resolves ds ⟨bs, as, p⟩ ⟨bs', as', p'⟩)
    (before before' : List (α × Resting α)) :
    Resolves ds ⟨before ++ bs, before' ++ as, p⟩ ⟨before ++ bs', before' ++ as', p'⟩ :=
  ⟨h.bids.ahead before, h.asks.ahead before', h.fits, h.fills, h.exhausted⟩

theorem Resolves.bidsBehind (h : Resolves ds ⟨bs, as, p⟩ ⟨bs', as', p'⟩)
    (behind : List (α × Resting α)) : Resolves ds ⟨bs ++ behind, as, p⟩ ⟨bs' ++ behind, as', p'⟩ :=
  ⟨h.bids.behind behind, h.asks, h.fits, h.fills, h.exhausted⟩

theorem Resolves.asksBehind (h : Resolves ds ⟨bs, as, p⟩ ⟨bs', as', p'⟩)
    (behind : List (α × Resting α)) : Resolves ds ⟨bs, as ++ behind, p⟩ ⟨bs', as' ++ behind, p'⟩ :=
  ⟨h.bids, h.asks.behind behind, h.fits, h.fills, h.exhausted⟩

theorem Deal.Fits.resolves {d : Deal α} (h : d.Fits) (p : Progress α) :
    Resolves [d] ⟨[(d.bidPrice, d.bid)], [(d.askPrice, d.ask)], p⟩
      ⟨d.bidPart.left, d.askPart.left, ⟨p.fills ++ [d.traded], p.exhausted ++ d.used⟩⟩ where
  bids := trades_singleton d.bidPart
  asks := trades_singleton d.askPart
  fits := List.forall_mem_singleton.mpr h
  fills := rfl
  exhausted := by rw [List.flatMap_singleton]

end Resolves

section Meet

variable {bidPrice askPrice : α} {b : Resting α} {asks : List (Resting α)}

theorem meet_of_negligible {bid : Order α} (bidPrice askPrice : α) (asks : List (Resting α))
    (hn : negligible bid.remaining = true) :
    meet bidPrice askPrice bid asks = ⟨bid, asks, [], []⟩ := by
  cases asks <;> simp [meet, hn]

def Meeting.bidLeft (m : Meeting α) (price : α) (h : Handle) : List (α × Resting α) :=
  if negligible m.bid.remaining then [] else [(price, ⟨h, m.bid⟩)]

def Meeting.bidGone (m : Meeting α) : List (Order α) :=
  if negligible m.bid.remaining then [m.bid] else []

theorem meet_deal (d : Deal α) (asks : List (Resting α))
    (hn : negligible d.bid.order.remaining = false)
    (hl : (d.bid.order.isLocal || d.ask.order.isLocal) = true) :
    let m := meet d.bidPrice d.askPrice d.bid.order (d.ask :: asks)
    let rest := meet d.bidPrice d.askPrice d.bidPart.done.2.order asks
    m.bid = rest.bid ∧ m.fills = d.traded :: rest.fills ∧
      m.left.map (d.askPrice, ·) = d.askPart.left ++ rest.left.map (d.askPrice, ·) ∧
      m.gone.map (·.order) = d.askPart.gone.map (·.2.order) ++ rest.gone.map (·.order) := by
  intro m rest
  have hm : m =
      (let fills := d.traded :: rest.fills
       if negligible d.askPart.done.2.order.remaining then
        { rest with gone := d.askPart.done.2 :: rest.gone, fills }
       else { rest with left := d.askPart.done.2 :: rest.left, fills }) := by
    unfold m
    rw [meet, if_neg (by simp [hn]), if_pos hl]
    rfl
  rw [hm]
  unfold Part.left Part.gone
  cases negligible d.askPart.done.2.order.remaining <;> exact ⟨rfl, rfl, rfl, rfl⟩

theorem meet_pass {a : Resting α} (hn : negligible b.order.remaining = false)
    (hl : ¬(b.order.isLocal || a.order.isLocal) = true) :
    meet bidPrice askPrice b.order (a :: asks) =
      { meet bidPrice askPrice b.order asks with
        left := a :: (meet bidPrice askPrice b.order asks).left } := by
  rw [meet, if_neg (by simp [hn]), if_neg hl]

theorem meet_resolves (hle : askPrice ≤ bidPrice) (b : Resting α) (asks : List (Resting α))
    (p : Progress α) (hn : negligible b.order.remaining = false) :
    let m := meet bidPrice askPrice b.order asks
    ∃ ds, Resolves ds ⟨[(bidPrice, b)], asks.map (askPrice, ·), p⟩
      ⟨m.bidLeft bidPrice b.handle, m.left.map (askPrice, ·),
        ⟨p.fills ++ m.fills, p.exhausted ++ (m.gone.map (·.order) ++ m.bidGone)⟩⟩ := by
  induction asks generalizing b p with
  | nil =>
    refine ⟨[], ?_⟩
    simp only [meet, Meeting.bidLeft, Meeting.bidGone, hn]
    simpa using resolves_refl _
  | cons a asks ih =>
    by_cases hl : (b.order.isLocal || a.order.isLocal) = true
    · obtain ⟨d, rfl, rfl, rfl, rfl⟩ : ∃ d : Deal α, d.bidPrice = bidPrice ∧ d.bid = b ∧
          d.askPrice = askPrice ∧ d.ask = a := ⟨⟨bidPrice, b, askPrice, a⟩, rfl, rfl, rfl, rfl⟩
      have hd : d.Fits := ⟨hle, hl⟩
      have hstep := (hd.resolves p).asksBehind (asks.map (d.askPrice, ·))
      obtain ⟨hbid, hfills, hleft, hgone⟩ := meet_deal d asks hn hl
      simp only [Meeting.bidLeft, Meeting.bidGone, hbid, hfills, hleft, hgone]
      cases hdone : negligible d.bidPart.done.2.order.remaining with
      | true =>
        rw [meet_of_negligible _ _ _ hdone]
        refine ⟨[d], ?_⟩
        simpa [Deal.used, Part.left, Part.gone, hdone] using hstep
      | false =>
        have hstays : d.bidPart.left = [d.bidPart.done] := by simp [Part.left, hdone]
        have hused : d.used = d.askPart.gone.map (·.2.order) := by
          simp [Deal.used, Part.gone, hdone]
        obtain ⟨ds, h⟩ := ih ⟨d.bid.handle, d.bidPart.done.2.order⟩
          ⟨p.fills ++ [d.traded], p.exhausted ++ d.used⟩ hdone
        rw [hstays] at hstep
        refine ⟨[d] ++ ds, ?_⟩
        have hall := hstep.trans (h.ahead [] d.askPart.left)
        simpa [Meeting.bidLeft, Meeting.bidGone, hused] using hall
    · obtain ⟨ds, h⟩ := ih b p hn
      rw [meet_pass hn hl]
      exact ⟨ds, h.ahead [] [(askPrice, a)]⟩

end Meet

theorem cross_resolves {bidPrice askPrice : α} (hle : askPrice ≤ bidPrice)
    (bids asks : List (Resting α)) (p : Progress α)
    (hn : ∀ b ∈ bids, negligible b.order.remaining = false) :
    let c := cross bidPrice askPrice bids asks
    ∃ ds, Resolves ds ⟨bids.map (bidPrice, ·), asks.map (askPrice, ·), p⟩
      ⟨c.bids.map (bidPrice, ·), c.asks.map (askPrice, ·),
        ⟨p.fills ++ c.fills, p.exhausted ++ c.exhausted⟩⟩ := by
  induction bids generalizing asks p with
  | nil =>
    refine ⟨[], ?_⟩
    simp only [cross, List.append_nil]
    exact resolves_refl _
  | cons b bids ih =>
    obtain ⟨hb, hbids⟩ := List.forall_mem_cons.mp hn
    obtain ⟨ds, hm⟩ := meet_resolves hle b asks p hb
    obtain ⟨ds', hc⟩ := ih (meet bidPrice askPrice b.order asks).left _ hbids
    refine ⟨ds ++ ds', ?_⟩
    have hall := (hm.bidsBehind (bids.map (bidPrice, ·))).trans (hc.ahead _ [])
    simp only [cross]
    split <;> simpa [Meeting.bidLeft, Meeting.bidGone, *] using hall

section Walks

variable [Scalar.Lawful α] {run run' : BidRun α} {k k' : Level α} {more : Bool}
  {as bs : List (Level α)}

theorem turnAsk_resolves (hp : Scalar.isFinite run.level.price = true)
    (hk : Scalar.isFinite k.price = true) (hb : run.level.Counted)
    (ht : turnAsk run k = some (run', k', more)) :
    ∃ ds, Resolves ds ⟨run.level.seats, k.seats, run.progress⟩
      ⟨run'.level.seats, k'.seats, run'.progress⟩ := by
  obtain ⟨hlt, hlevel, hprogress, rfl, -⟩ := turnAsk_eq_some ht
  have hle := (Scalar.not_lt_iff hp hk).mp hlt
  obtain ⟨ds, h⟩ := cross_resolves hle run.level.queue k.queue run.progress fun b hb' =>
    (hb b hb').2
  rw [hlevel, hprogress]
  exact ⟨ds, h⟩

theorem sift_ask_resolves (run : BidRun α) (hp : Scalar.isFinite run.level.price = true)
    (ha : ∀ k ∈ as, Scalar.isFinite k.price = true) (hb : run.level.Counted)
    (hc : ∀ k ∈ as, k.Counted) :
    let w := Ladder.sift turnAsk as run
    ∃ ds, Resolves ds ⟨run.level.seats, as.flatMap Level.seats, run.progress⟩
      ⟨w.1.level.seats, w.2.flatMap Level.seats, w.1.progress⟩ := by
  fun_induction Ladder.sift turnAsk as run with
  | case1 run => exact ⟨[], resolves_refl _⟩
  | case2 k as run => exact ⟨[], resolves_refl _⟩
  | case3 k as run run' k' ht =>
    obtain ⟨ds, h⟩ := turnAsk_resolves hp (ha k List.mem_cons_self) hb ht
    refine ⟨ds, ?_⟩
    simp only [List.flatMap_cons, List.flatMap_append, Ladder.kept_seats]
    exact h.asksBehind _
  | case4 k as run run' k' ht ih =>
    obtain ⟨hk, ha⟩ := List.forall_mem_cons.mp ha
    obtain ⟨hkc, hc⟩ := List.forall_mem_cons.mp hc
    obtain ⟨ds, h⟩ := turnAsk_resolves hp hk hb ht
    obtain ⟨hb', -⟩ := turnAsk_counted hb hkc ht
    obtain ⟨-, hlevel, -⟩ := turnAsk_eq_some ht
    have hp' : Scalar.isFinite run'.level.price = true := by
      rw [hlevel]
      exact hp
    obtain ⟨ds', h'⟩ := ih hp' ha hb' hc
    refine ⟨ds ++ ds', ?_⟩
    simp only [List.flatMap_cons, List.flatMap_append, Ladder.kept_seats]
    exact (h.asksBehind _).trans (h'.ahead [] k'.seats)

end Walks

section Aloof

/-- The orders of two levels do not trade with each other: all are aggregates. -/
def Aloof (k j : Level α) : Prop :=
  ∀ b ∈ k.queue, ∀ a ∈ j.queue, b.order.isLocal = false ∧ a.order.isLocal = false

theorem Aloof.thins {k k' j j' : Level α} (h : Aloof k j) (hk : k'.Thins k) (hj : j'.Thins j) :
    Aloof k' j' := by
  intro b hb a ha
  obtain ⟨b', hb', hbt⟩ := hk.mem hb
  obtain ⟨a', ha', hat⟩ := hj.mem ha
  have hbl : b'.order.isLocal = b.order.isLocal := congrArg (fun t => t.2.isLocal) hbt
  have hal : a'.order.isLocal = a.order.isLocal := congrArg (fun t => t.2.isLocal) hat
  rw [← hbl, ← hal]
  exact h b' hb' a' ha'

variable [Scalar.Lawful α] (bidPrice askPrice : α)

theorem meet_aloof {bid : Order α} {asks : List (Resting α)}
    (hb : bid.remaining = Scalar.zero ∨ Counts bid.remaining)
    (ha : ∀ a ∈ asks, Counts a.order.remaining)
    (hn : negligible (meet bidPrice askPrice bid asks).bid.remaining = false) :
    ∀ a ∈ (meet bidPrice askPrice bid asks).left,
      bid.isLocal = false ∧ a.order.isLocal = false := by
  fun_induction meet bidPrice askPrice bid asks with
  | case1 => simp
  | case2 bid a asks hneg => simp [hneg] at hn
  | case3 bid a asks hneg _ q ask rest fills hm ih =>
    obtain ⟨ha, has⟩ := List.forall_mem_cons.mp ha
    exact ih (trade_left (isFinite_of_zero_or hb) hneg ha).1 has hn
  | case4 bid a asks hneg _ q ask rest fills hm ih =>
    obtain ⟨ha, has⟩ := List.forall_mem_cons.mp ha
    obtain ⟨-, hz⟩ := trade_left (isFinite_of_zero_or hb) hneg ha
    have hspent := (hz.resolve_left fun he => hm (he ▸ negligible_zero)).2
    have hdone : negligible (bid.fill q).remaining = true := hspent ▸ negligible_zero
    have hrest : rest.bid = bid.fill q := by
      simp only [rest, meet_of_negligible _ _ _ hdone]
    simp [hrest, hdone] at hn
  | case5 bid a asks hneg hl rest ih =>
    have hpass : bid.isLocal = false ∧ a.order.isLocal = false := by simpa using hl
    refine List.forall_mem_cons.mpr ⟨hpass, ?_⟩
    exact ih hb (fun x hx => ha x (List.mem_cons_of_mem _ hx)) hn

theorem cross_aloof {bids asks : List (Resting α)} (hb : ∀ b ∈ bids, Counts b.order.remaining)
    (ha : ∀ a ∈ asks, Counts a.order.remaining) :
    ∀ b ∈ (cross bidPrice askPrice bids asks).bids,
      ∀ a ∈ (cross bidPrice askPrice bids asks).asks,
        b.order.isLocal = false ∧ a.order.isLocal = false := by
  fun_induction cross bidPrice askPrice bids asks with
  | case1 => simp
  | case2 b bids asks m rest used bid _ ih =>
    obtain ⟨hb, hbs⟩ := List.forall_mem_cons.mp hb
    exact ih hbs (meet_counts bidPrice askPrice (.inr hb) ha).2
  | case3 b bids asks m rest used bid hn ih =>
    obtain ⟨hb, hbs⟩ := List.forall_mem_cons.mp hb
    have hrest := ih hbs (meet_counts bidPrice askPrice (.inr hb) ha).2
    refine List.forall_mem_cons.mpr ⟨fun a ha' => ?_, hrest⟩
    obtain ⟨t, ht, htm⟩ := List.mem_map.mp
      ((cross_asks bidPrice askPrice bids m.left).subset (List.mem_map_of_mem ha'))
    have hal : t.order.isLocal = a.order.isLocal := congrArg (fun t => t.2.isLocal) htm
    have hterms := congrArg Order.isLocal (meet_bid_terms bidPrice askPrice b.order asks)
    have hbl : bid.order.isLocal = b.order.isLocal := hterms
    rw [← hal, hbl]
    exact meet_aloof bidPrice askPrice (.inr hb) ha (Bool.eq_false_iff.mpr hn) t ht

variable {bidPrice askPrice} {as bs : List (Level α)}

omit [Scalar.Lawful α] in
theorem turnAsk_thins {run run' : BidRun α} {k k' : Level α} {more : Bool}
    (ht : turnAsk run k = some (run', k', more)) :
    run'.level.Thins run.level ∧ k'.Thins k := by
  obtain ⟨-, hlevel, -, rfl, -⟩ := turnAsk_eq_some ht
  rw [hlevel]
  exact ⟨⟨rfl, cross_bids _ _ _ _⟩, ⟨rfl, cross_asks _ _ _ _⟩⟩

omit [Scalar.Lawful α] in
theorem sift_ask_thins (as : List (Level α)) (run : BidRun α) :
    (Ladder.sift turnAsk as run).1.level.Thins run.level ∧
      ∀ k ∈ (Ladder.sift turnAsk as run).2, ∃ j ∈ as, k.Thins j := by
  refine Ladder.sift_induction (P := fun (run' : BidRun α) => run'.level.Thins run.level)
    (Q := fun k => ∃ j ∈ as, k.Thins j) ?_ (.refl _) fun k hk => ⟨k, hk, .refl k⟩
  intro run₁ k run₂ k' more hrun ⟨j, hj, hk⟩ ht
  obtain ⟨hlevel, hk'⟩ := turnAsk_thins ht
  exact ⟨hlevel.trans hrun, fun _ => ⟨j, hj, hk'.trans hk⟩⟩

theorem turnAsk_aloof {run run' : BidRun α} {k k' : Level α} {more : Bool}
    (hb : run.level.Counted) (hk : k.Counted) (ht : turnAsk run k = some (run', k', more)) :
    Aloof run'.level k' := by
  obtain ⟨-, hlevel, -, rfl, -⟩ := turnAsk_eq_some ht
  rw [hlevel]
  exact cross_aloof _ _ hb hk

theorem sift_ask_aloof (run : BidRun α) (hb : run.level.Counted) (hc : ∀ k ∈ as, k.Counted)
    (hs : as.Pairwise fun a b => Ladder.better .sell a.price b.price = true) :
    ∀ j ∈ (Ladder.sift turnAsk as run).2, j.price ≤ run.level.price →
      Aloof (Ladder.sift turnAsk as run).1.level j := by
  fun_induction Ladder.sift turnAsk as run with
  | case1 => simp
  | case2 k as run ht =>
    have hlt : run.level.price < k.price := by
      unfold turnAsk at ht
      split at ht
      · assumption
      · cases ht
    intro j hj hle
    exfalso
    obtain rfl | hj := List.mem_cons.mp hj
    · exact Scalar.not_le_of_lt hlt hle
    · have hkj : k.price < j.price := of_decide_eq_true ((List.pairwise_cons.mp hs).1 j hj)
      exact Scalar.not_le_of_lt (Scalar.lt_trans hlt hkj) hle
  | case3 k as run run' k' ht =>
    obtain ⟨-, -, -, -, hmore⟩ := turnAsk_eq_some ht
    have hempty : run'.level.queue = [] := by
      refine (Level.isEmpty_iff _).mp ?_
      simpa using hmore.symm
    intro j _ _ b hb'
    simp [hempty] at hb'
  | case4 k as run run' k' ht ih =>
    obtain ⟨hk, hc⟩ := List.forall_mem_cons.mp hc
    have hb' := (turnAsk_counted hb hk ht).1
    have haloof := turnAsk_aloof hb hk ht
    rw [← (turnAsk_thins ht).1.price]
    intro j hj hle
    obtain hj | hj := List.mem_append.mp hj
    · obtain ⟨rfl, -⟩ := Ladder.mem_kept.mp hj
      exact haloof.thins (sift_ask_thins as run').1 (.refl j)
    · exact ih hb' hc (List.pairwise_cons.mp hs).2 j hj hle

/-- A level that lies beyond the best of the other side crosses none of it, nor does any behind. -/
theorem not_crossed_of_head {k : Level α} {bs : List (Level α)} (hk : ∀ j, as.head? = some j →
      k.price < j.price)
    (hb : (k :: bs).Pairwise fun a b => Ladder.better .buy a.price b.price = true)
    (ha : as.Pairwise fun a b => Ladder.better .sell a.price b.price = true) :
    ∀ i ∈ k :: bs, ∀ j ∈ as, ¬j.price ≤ i.price := by
  intro i hi j hj
  have hkj : k.price < j.price := by
    cases as with
    | nil => cases hj
    | cons best as =>
      obtain rfl | hj := List.mem_cons.mp hj
      · exact hk j rfl
      · exact Scalar.lt_trans (hk best rfl) (of_decide_eq_true ((List.pairwise_cons.mp ha).1 j hj))
  obtain rfl | hi := List.mem_cons.mp hi
  · exact Scalar.not_le_of_lt hkj
  · have hik : i.price < k.price := of_decide_eq_true ((List.pairwise_cons.mp hb).1 i hi)
    exact Scalar.not_le_of_lt (Scalar.lt_trans hik hkj)

/-- Where a walk of bids through the asks of `as` may end: all levels hold orders, those of `as'`
are left of `as`, and none of them would still trade with one of `bs`. -/
structure Settled (as bs as' : List (Level α)) : Prop where
  bids : ∀ k ∈ bs, k.Stocked
  asks : ∀ j ∈ as', j.Stocked
  thins : ∀ j ∈ as', ∃ i ∈ as, j.Thins i
  aloof : ∀ k ∈ bs, ∀ j ∈ as', j.price ≤ k.price → Aloof k j

omit [Scalar.Lawful α] in
theorem settled_of_not_crossed (hb : ∀ k ∈ bs, k.Stocked) (ha : ∀ j ∈ as, j.Stocked)
    (h : ∀ k ∈ bs, ∀ j ∈ as, ¬j.price ≤ k.price) : Settled as bs as :=
  ⟨hb, ha, fun j hj => ⟨j, hj, .refl j⟩, fun k hk j hj hle => absurd hle (h k hk j hj)⟩

omit [Scalar.Lawful α] in
theorem Settled.cons {as₁ as' : List (Level α)} {k : Level α} (h : Settled as₁ bs as')
    (hk : k.Counted) (ht : ∀ j ∈ as₁, ∃ i ∈ as, j.Thins i)
    (ha : ∀ j ∈ as₁, j.price ≤ k.price → Aloof k j) : Settled as (Ladder.kept k ++ bs) as' where
  bids i hi := by
    obtain hi | hi := List.mem_append.mp hi
    · obtain ⟨rfl, hne⟩ := Ladder.mem_kept.mp hi
      exact ⟨hne, hk⟩
    · exact h.bids i hi
  asks := h.asks
  thins j hj := by
    obtain ⟨i, hi, hji⟩ := h.thins j hj
    obtain ⟨i', hi', hii⟩ := ht i hi
    exact ⟨i', hi', hji.trans hii⟩
  aloof i hi j hj hle := by
    obtain hi | hi := List.mem_append.mp hi
    · obtain ⟨rfl, -⟩ := Ladder.mem_kept.mp hi
      obtain ⟨j', hj', hjj⟩ := h.thins j hj
      rw [hjj.price] at hle
      exact (ha j' hj' hle).thins (.refl _) hjj
    · exact h.aloof i hi j hj hle

/-- The bids of `bs` go through the asks of `as` by a list of deals, and what is left is settled. -/
theorem sift_bid_resolves (run : AskRun α) (ha : run.asks.Lists .sell as)
    (hp : ∀ k ∈ bs, Scalar.isFinite k.price = true) (hbs : ∀ k ∈ bs, k.Stocked)
    (has : ∀ k ∈ as, k.Stocked)
    (hs : bs.Pairwise fun a b => Ladder.better .buy a.price b.price = true) :
    let w := Ladder.sift turnBid bs run
    ∃ ds as', Resolves ds ⟨bs.flatMap Level.seats, as.flatMap Level.seats, run.progress⟩
        ⟨w.2.flatMap Level.seats, as'.flatMap Level.seats, w.1.progress⟩ ∧
      w.1.asks.Lists .sell as' ∧ Settled as w.2 as' := by
  fun_induction Ladder.sift turnBid bs run generalizing as with
  | case1 run => exact ⟨[], as, resolves_refl _, ha, settled_of_not_crossed hbs has (by simp)⟩
  | case2 k bs run ht =>
    obtain ⟨-, hhead⟩ | ⟨-, _, -, ht'⟩ := turnBid_lists ha k
    · have hnone := not_crossed_of_head hhead hs ha.sorted
      exact ⟨[], as, resolves_refl _, ha, settled_of_not_crossed hbs has hnone⟩
    · rw [ht] at ht'
      cases ht'
  | case3 k bs run run' k' ht =>
    obtain ⟨-, -, hmore⟩ := turnBid_eq_some ht
    cases hmore
  | case4 k bs run run' k' ht ih =>
    obtain ⟨ht', -⟩ | ⟨-, asks, hl, ht'⟩ := turnBid_lists ha k
    · rw [ht] at ht'
      cases ht'
    · rw [ht] at ht'
      obtain ⟨hk, hbs⟩ := List.forall_mem_cons.mp hbs
      obtain ⟨hkp, hp⟩ := List.forall_mem_cons.mp hp
      have hcounts : ∀ j ∈ as, j.Counted := fun j hj => (has j hj).counts
      obtain ⟨hlevel, has'⟩ := sift_ask_counted (Q := Level.Stocked) (fun _ hk => hk.counts)
        (fun _ hk hne => ⟨hne, hk⟩) ⟨k, run.progress⟩ hk.counts has
      obtain ⟨hthin, hthins⟩ := sift_ask_thins as ⟨k, run.progress⟩
      have haloof := sift_ask_aloof ⟨k, run.progress⟩ hk.counts hcounts ha.sorted
      obtain ⟨ds, h⟩ := sift_ask_resolves ⟨k, run.progress⟩ hkp ha.finite hk.counts hcounts
      obtain ⟨rfl, rfl, -⟩ : run' = ⟨asks, _⟩ ∧ k' = _ ∧ true = true := by
        simpa using Option.some.inj ht'
      obtain ⟨ds', as', h', hl', hsettled⟩ := ih hl hp hbs has' (List.pairwise_cons.mp hs).2
      refine ⟨ds ++ ds', as', ?_, hl', hsettled.cons hlevel hthins fun j hj hle => ?_⟩
      · simp only [List.flatMap_cons, List.flatMap_append, Ladder.kept_seats]
        exact (h.bidsBehind _).trans (h'.ahead _ [])
      · rw [hthin.price] at hle
        exact haloof j hj hle

end Aloof

section Whole

theorem Deal.Fits.traded_eq {d : Deal α} (h : d.Fits) (hb : d.bid.order.side = .buy)
    (ha : d.ask.order.side = .sell) : d.traded = d.fill ∧ d.fill.passive.isLocal = true := by
  have hlocal : d.bid.order.isLocal = true ∨ d.ask.order.isLocal = true := by simpa using h.local
  have hpassive : bidIsPassive d.bid.order d.ask.order = true ↔ d.ask.order.isLocal = false ∨
      d.bid.order.isLocal = true ∧ d.bid.order.arrival < d.ask.order.arrival := by
    unfold bidIsPassive
    cases hbl : d.bid.order.isLocal <;> cases hal : d.ask.order.isLocal <;> simp_all
  unfold Deal.traded trade Deal.fill
  by_cases hw : d.ask.order.isLocal = false ∨
      d.bid.order.isLocal = true ∧ d.bid.order.arrival < d.ask.order.arrival
  · simp only [hpassive.mpr hw, if_pos hw, if_true, ha, true_and]
    exact hw.elim (fun hal => hlocal.resolve_right (by simp [hal])) And.left
  · simp only [mt hpassive.mp hw, if_neg hw, if_false, hb, Bool.false_eq_true, true_and]
    exact Bool.eq_true_of_not_eq_false fun hal => hw (.inl hal)

variable [Scalar.Lawful α] {bids asks : Ladder α} {bs as : List (Level α)}

theorem stocked_alive (h : ∀ k ∈ bs, k.Stocked) :
    ∀ m ∈ bs.flatMap Level.seats, spent m = false := by
  intro m hm
  obtain ⟨k, hk, r, hr, rfl⟩ := Ladder.mem_seats.mp hm
  exact ((h k hk).counts r hr).beq_zero

theorem isCrossed_iff (hb : bids.Lists .buy bs) (ha : asks.Lists .sell as)
    (hbs : ∀ k ∈ bs, k.queue ≠ []) (has : ∀ k ∈ as, k.queue ≠ []) :
    isCrossed bids asks = true ↔
      ∃ b ∈ bs.flatMap Level.seats, ∃ a ∈ as.flatMap Level.seats, a.1 ≤ b.1 := by
  unfold isCrossed
  rw [hb.bestPrice, ha.bestPrice]
  cases bs with
  | nil => simp
  | cons k bs =>
    cases as with
    | nil => simp
    | cons j as =>
      refine decide_eq_true_iff.trans ⟨fun hle => ?_, ?_⟩
      · obtain ⟨r, hr⟩ := List.exists_mem_of_ne_nil _ (hbs k List.mem_cons_self)
        obtain ⟨s, hs⟩ := List.exists_mem_of_ne_nil _ (has j List.mem_cons_self)
        exact ⟨_, Ladder.mem_seats.mpr ⟨k, List.mem_cons_self, r, hr, rfl⟩, _,
          Ladder.mem_seats.mpr ⟨j, List.mem_cons_self, s, hs, rfl⟩, hle⟩
      · rintro ⟨b, hb', a, ha', hle⟩
        obtain ⟨i, hi, _, _, rfl⟩ := Ladder.mem_seats.mp hb'
        obtain ⟨i', hi', _, _, rfl⟩ := Ladder.mem_seats.mp ha'
        refine (Scalar.lt_or_le (hb.finite k List.mem_cons_self)
          (ha.finite j List.mem_cons_self)).resolve_left fun hlt => ?_
        exact not_crossed_of_head (by simpa using hlt) hb.sorted ha.sorted i hi i' hi' hle

omit [Scalar.Lawful α] in
theorem used_perm (ds : List (Deal α)) :
    (ds.flatMap Deal.used).Perm (((ds.map Deal.bidPart).flatMap Part.gone ++
      (ds.map Deal.askPart).flatMap Part.gone).map (·.2.order)) := by
  rw [List.map_append, List.map_flatMap, List.map_flatMap, List.flatMap_map, List.flatMap_map]
  exact (List.flatMap_append_perm ds _ _).symm.trans List.perm_append_comm

end Whole

section Doubles

/-- A level as a sweep may find it: it holds orders of its side, each behind a handle of its own and
with no less left than counts. -/
structure Ready (side : Side) (k : Level Float) : Prop where
  nonempty : k.isEmpty = false
  handles : (Level.handles k.queue).Nodup
  orders : ∀ o ∈ k.orders, o.side = side ∧ o.remaining.isFinite = true ∧ 1e-10 ≤ o.remaining

instance (side : Side) (k : Level Float) : Decidable (Ready side k) :=
  decidable_of_iff (k.isEmpty = false ∧ (Level.handles k.queue).Nodup ∧ ∀ o ∈ k.orders,
    o.side = side ∧ o.remaining.isFinite = true ∧ 1e-10 ≤ o.remaining)
    ⟨fun h => ⟨h.1, h.2.1, h.2.2⟩, fun h => ⟨h.nonempty, h.handles, h.orders⟩⟩

theorem Ready.stocked {side : Side} {k : Level Float} (h : Ready side k) : k.Stocked where
  nonempty := List.isEmpty_eq_false_iff.mp h.nonempty
  counts r hr := by
    obtain ⟨-, hf, hd⟩ := h.orders r.order (List.mem_map_of_mem hr)
    exact ⟨hf, Bool.eq_false_iff.mpr fun hn => Scalar.not_le_of_lt (negligible_iff.mp hn) hd⟩

theorem ready_alive {side : Side} {ks : List (Level Float)} (h : ∀ k ∈ ks, Ready side k) :
    ∀ m ∈ ks.flatMap Level.seats, spent m = false := stocked_alive fun k hk => (h k hk).stocked

theorem ready_side {side : Side} {ks : List (Level Float)} {ps : List (Part Float)}
    {left gone : List (Float × Resting Float)} (h : ∀ k ∈ ks, Ready side k)
    (ha : Accounts (ks.flatMap Level.seats) ps left gone) {p : Part Float} (hp : p ∈ ps) :
    p.seat.2.order.side = side := by
  obtain ⟨m, hm, ht⟩ := ha.terms p hp
  obtain ⟨k, hk, r, hr, rfl⟩ := Ladder.mem_seats.mp hm
  have hside : r.order.side = p.seat.2.order.side := congrArg (fun t => t.2.side) ht
  rw [← hside]
  exact ((h k hk).orders r.order (List.mem_map_of_mem hr)).1

/-- A sweep comes down to some deals, one after the other. Each is of all that one of the two has
left by then, and the fill of each names a local order as the passive one, at the price of its
level. Of the orders on either side, as their own parts of the deals have made them, those with
something left stay, in their places, and those with nothing left are gone and have been reported.
No level is left without orders; orders that still cross are aggregates, and the sweep says whether
there are any. -/
theorem sweep_resolves {bids asks : Ladder Float} {bs as : List (Level Float)}
    (hb : bids.Lists .buy bs) (ha : asks.Lists .sell as) (hbs : ∀ k ∈ bs, Ready .buy k)
    (has : ∀ k ∈ as, Ready .sell k) :
    let s := sweep bids asks
    ∃ (bs' as' : List (Level Float)) (ds : List (Deal Float))
      (bidsGone asksGone : List (Float × Resting Float)),
      s.bids.Lists .buy bs' ∧ s.asks.Lists .sell as' ∧
      (∀ k ∈ bs' ++ as', k.isEmpty = false) ∧
      (∀ b ∈ bs'.flatMap Level.seats, ∀ a ∈ as'.flatMap Level.seats, a.1 ≤ b.1 →
        b.2.order.party = .external ∧ a.2.order.party = .external) ∧
      (s.residualCross = true ↔
        ∃ b ∈ bs'.flatMap Level.seats, ∃ a ∈ as'.flatMap Level.seats, a.1 ≤ b.1) ∧
      s.fills = ds.map Deal.fill ∧ (∀ d ∈ ds, d.Fits ∧ d.fill.passive.isLocal = true) ∧
      Accounts (bs.flatMap Level.seats) (ds.map Deal.bidPart) (bs'.flatMap Level.seats) bidsGone ∧
      Accounts (as.flatMap Level.seats) (ds.map Deal.askPart) (as'.flatMap Level.seats) asksGone ∧
      s.exhausted.Perm ((bidsGone ++ asksGone).map (·.2.order)) := by
  intro s
  obtain ⟨hw, hb'⟩ := hb.walk visits_bid ⟨asks, ⟨[], []⟩⟩
  obtain ⟨ds, as', h, ha', hsettled⟩ := sift_bid_resolves ⟨asks, ⟨[], []⟩⟩ ha hb.finite
    (fun k hk => (hbs k hk).stocked) (fun k hk => (has k hk).stocked) hb.sorted
  have hbids' := fun k hk => (hsettled.bids k hk).nonempty
  have hasks' := fun k hk => (hsettled.asks k hk).nonempty
  have hbids := h.bids.accounts (seated_of_lists hb fun k hk => (hbs k hk).handles)
    (ready_alive hbs)
  have hasks := h.asks.accounts (seated_of_lists ha fun k hk => (has k hk).handles)
    (ready_alive has)
  have hfills : ∀ d ∈ ds, d.traded = d.fill ∧ d.fill.passive.isLocal = true := fun d hd =>
    (h.fits d hd).traded_eq (ready_side hbs hbids (List.mem_map_of_mem hd))
      (ready_side has hasks (List.mem_map_of_mem hd))
  have hsa : s.asks = (Ladder.sift turnBid bs ⟨asks, ⟨[], []⟩⟩).1.asks := congrArg AskRun.asks hw
  have hsf : s.fills = ds.map Deal.traded := (congrArg (·.progress.fills) hw).trans h.fills
  have hse : s.exhausted = ds.flatMap Deal.used :=
    (congrArg (·.progress.exhausted) hw).trans h.exhausted
  rw [← hsa] at ha'
  refine ⟨_, as', ds, _, _, hb', ha', fun k hk => ?_, ?_, ?_, ?_, fun d hd => ?_, hbids, hasks,
    hse ▸ used_perm ds⟩
  · refine List.isEmpty_eq_false_iff.mpr ?_
    exact (List.mem_append.mp hk).elim (hbids' k) (hasks' k)
  · intro b hb a ha hle
    obtain ⟨k, hk, r, hr, rfl⟩ := Ladder.mem_seats.mp hb
    obtain ⟨j, hj, x, hx, rfl⟩ := Ladder.mem_seats.mp ha
    obtain ⟨hrl, hxl⟩ := hsettled.aloof k hk j hj hle r hr x hx
    exact ⟨Order.isLocal_eq_false_iff.mp hrl, Order.isLocal_eq_false_iff.mp hxl⟩
  · exact isCrossed_iff hb' ha' hbids' hasks'
  · rw [hsf]
    exact List.map_congr_left fun d hd => (hfills d hd).1
  · exact ⟨h.fits d hd, (hfills d hd).2⟩

def waiting (side : Side) (price : Float) (handle : Handle) (party : Party) (quantity : Float)
    (arrival : Nat) : Resting Float where
  handle := handle
  order :=
    { party, side, price, remaining := quantity, original := quantity, filled := 0, symbol := [],
      timestamp := 0, arrival }

def crossingBids : List (Level Float) :=
  [⟨102, [waiting .buy 102 0 (.local 1) 1 4], [], 1⟩,
    ⟨101, [waiting .buy 101 0 .external 10 1], [], 1⟩,
    ⟨100, [waiting .buy 100 0 (.local 2) 2 5], [], 1⟩]

def crossingAsks : List (Level Float) :=
  [⟨99, [waiting .sell 99 0 (.local 3) 2 3, waiting .sell 99 1 .external 5 2], [], 2⟩,
    ⟨100, [waiting .sell 100 0 (.local 4) 4 6], [], 1⟩]

theorem sweep_resolves_crossingAsks :
    let bids : Ladder Float := ⟨.buy, crossingBids, crossingBids.map (·.price)⟩
    let asks : Ladder Float := ⟨.sell, crossingAsks, crossingAsks.map (·.price)⟩
    let s := sweep bids asks
    bids.Lists .buy crossingBids ∧ asks.Lists .sell crossingAsks ∧
      (∀ k ∈ crossingBids, Ready .buy k) ∧ (∀ k ∈ crossingAsks, Ready .sell k) ∧
      (∃ ds : List (Deal Float), (∀ d ∈ ds, d.Fits) ∧ ds.map Deal.fill =
        [⟨.local 3, .local 1, 99, 1, .buy, true⟩, ⟨.local 3, .external, 99, 1, .buy, true⟩,
          ⟨.local 4, .external, 100, 4, .buy, true⟩, ⟨.local 2, .external, 100, 2, .sell, true⟩]) ∧
      ∃ bs' as', s.bids.Lists .buy bs' ∧ s.asks.Lists .sell as' ∧
        ∃ b ∈ bs'.flatMap Level.seats, ∃ a ∈ as'.flatMap Level.seats, a.1 ≤ b.1 ∧
          b.2.order.party = .external ∧ a.2.order.party = .external := by
  intro bids asks s
  have hb : bids.Lists .buy crossingBids :=
    ⟨rfl, rfl, .refl _, by decide +kernel, by decide +kernel⟩
  have ha : asks.Lists .sell crossingAsks :=
    ⟨rfl, rfl, .refl _, by decide +kernel, by decide +kernel⟩
  have hbr : ∀ k ∈ crossingBids, Ready .buy k := by decide +kernel
  have har : ∀ k ∈ crossingAsks, Ready .sell k := by decide +kernel
  have hfills : s.fills = [⟨.local 3, .local 1, 99, 1, .buy, true⟩,
      ⟨.local 3, .external, 99, 1, .buy, true⟩, ⟨.local 4, .external, 100, 4, .buy, true⟩,
      ⟨.local 2, .external, 100, 2, .sell, true⟩] := by decide +kernel
  have hcross : s.residualCross = true := by decide +kernel
  obtain ⟨bs', as', ds, -, -, hb', ha', -, hapart, hresidual, hds, hfits, -⟩ :=
    sweep_resolves hb ha hbr har
  obtain ⟨b, hbs, a, has, hle⟩ := hresidual.mp hcross
  exact ⟨hb, ha, hbr, har, ⟨ds, fun d hd => (hfits d hd).1, hds.symm.trans hfills⟩,
    bs', as', hb', ha', b, hbs, a, has, hle, hapart b hbs a has hle⟩

end Doubles

end LimitBook.Sweep
