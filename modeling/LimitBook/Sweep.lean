import LimitBook.Ladder

namespace LimitBook.Sweep

variable {α : Type} [Scalar α]

def bidIsPassive (bid ask : Order α) : Bool :=
  bid.isLocal && (!ask.isLocal || bid.arrival < ask.arrival)

def trade (bid : Order α) (bidPrice : α) (ask : Order α) (askPrice q : α) : Fill α :=
  let passive := bidIsPassive bid ask
  { passive := if passive then bid.party else ask.party
    aggressive := if passive then ask.party else bid.party
    price := if passive then bidPrice else askPrice
    quantity := q
    aggressor := if passive then ask.side else bid.side
    virtual := true }

/-- What is left of a bid and of the asks that it met. -/
structure Meeting (α : Type) where
  bid : Order α
  left : List (Resting α)
  gone : List (Resting α)
  fills : List (Fill α)

/-- One bid against the asks of a level, from the head, while something of it is left. -/
def meet (bidPrice askPrice : α) (bid : Order α) : List (Resting α) → Meeting α
  | [] => ⟨bid, [], [], []⟩
  | a :: asks =>
    if negligible bid.remaining then ⟨bid, a :: asks, [], []⟩
    else if bid.isLocal || a.order.isLocal then
      let q := Scalar.smaller bid.remaining a.order.remaining
      let ask := a.order.fill q
      let rest := meet bidPrice askPrice (bid.fill q) asks
      let fills := trade bid bidPrice a.order askPrice q :: rest.fills
      if negligible ask.remaining then { rest with gone := ⟨a.handle, ask⟩ :: rest.gone, fills }
      else { rest with left := ⟨a.handle, ask⟩ :: rest.left, fills }
    else
      let rest := meet bidPrice askPrice bid asks
      { rest with left := a :: rest.left }

/-- What is left of two crossed levels. -/
structure Crossing (α : Type) where
  bids : List (Resting α)
  bidsGone : List (Resting α)
  asks : List (Resting α)
  asksGone : List (Resting α)
  fills : List (Fill α)
  exhausted : List (Order α)

/-- The bids of a level, from the head, each against the asks that the earlier ones left. -/
def cross (bidPrice askPrice : α) : List (Resting α) → List (Resting α) → Crossing α
  | [], asks => ⟨[], [], asks, [], [], []⟩
  | b :: bids, asks =>
    let m := meet bidPrice askPrice b.order asks
    let rest := cross bidPrice askPrice bids m.left
    let used := m.gone.map (·.order)
    let bid : Resting α := ⟨b.handle, m.bid⟩
    if negligible m.bid.remaining then
      { rest with
        bidsGone := bid :: rest.bidsGone
        asksGone := m.gone ++ rest.asksGone
        fills := m.fills ++ rest.fills
        exhausted := used ++ m.bid :: rest.exhausted }
    else
      { rest with
        bids := bid :: rest.bids
        asksGone := m.gone ++ rest.asksGone
        fills := m.fills ++ rest.fills
        exhausted := used ++ rest.exhausted }

structure Progress (α : Type) where
  fills : List (Fill α)
  exhausted : List (Order α)

/-- A bid level on its way through the asks. -/
structure BidRun (α : Type) where
  level : Level α
  progress : Progress α

def visitAsk (run : BidRun α) (ask : Level α) (asks : Ladder α) : BidRun α × Ladder α × Bool :=
  if run.level.price < ask.price then (run, asks, false)
  else
    let c := cross run.level.price ask.price run.level.queue ask.queue
    let level := run.level.settle c.bids c.bidsGone
    ({ level
       progress :=
        { fills := run.progress.fills ++ c.fills
          exhausted := run.progress.exhausted ++ c.exhausted } },
      asks.restore (ask.settle c.asks c.asksGone), !level.isEmpty)

/-- All the bids on their way through the asks. -/
structure AskRun (α : Type) where
  asks : Ladder α
  progress : Progress α

def visitBid (run : AskRun α) (bid : Level α) (bids : Ladder α) : AskRun α × Ladder α × Bool :=
  match run.asks.bestPrice with
  | none => (run, bids, false)
  | some best =>
    if bid.price < best then (run, bids, false)
    else
      let (b, asks) := Ladder.walk visitAsk run.asks.prices ⟨bid, run.progress⟩ run.asks
      (⟨asks, b.progress⟩, bids.restore b.level, true)

def isCrossed (bids asks : Ladder α) : Bool :=
  match bids.bestPrice, asks.bestPrice with
  | some bid, some ask => ask ≤ bid
  | _, _ => false

structure Outcome (α : Type) where
  bids : Ladder α
  asks : Ladder α
  fills : List (Fill α)
  exhausted : List (Order α)
  residualCross : Bool

/-- Sweeps a crossed book after the feed has changed a level. Every crossed pair of levels is gone
through by priority, the bids outside and the asks inside. Two aggregates never trade with each
other; any other pair trades, the local party passive and its level setting the price. Of two local
parties the earlier arrival is passive. -/
def sweep (bids asks : Ladder α) : Outcome α :=
  let (run, bids) := Ladder.walk visitBid bids.prices ⟨asks, ⟨[], []⟩⟩ bids
  ⟨bids, run.asks, run.progress.fills, run.progress.exhausted, isCrossed bids run.asks⟩

end LimitBook.Sweep
