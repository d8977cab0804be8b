import LimitBook.Match
import LimitBook.Sweep

namespace LimitBook

structure Place (α : Type) where
  side : Side
  price : α
  handle : Handle

/-- The order book of one instrument: two ladders, and an index from the ids of the local orders to
the places where they rest. -/
structure Book (α : Type) where
  symbol : Text
  bids : Ladder α
  asks : Ladder α
  index : List (OrderId × Place α)
  sequenceId : Option α
  arrivals : Nat
  busy : Bool

structure Submission (α : Type) where
  id : OrderId
  side : Side
  price : α
  quantity : α
  symbol : Text

inductive RejectReason where
  | duplicateId
  | invalidQuantity
  | invalidPrice
  | symbolMismatch
deriving DecidableEq, Repr

def RejectReason.name : RejectReason → String
  | duplicateId => "DUPLICATE_ID"
  | invalidQuantity => "INVALID_QUANTITY"
  | invalidPrice => "INVALID_PRICE"
  | symbolMismatch => "SYMBOL_MISMATCH"

/-- What became of an accepted order: all traded, partly traded, or resting whole. -/
inductive Status where
  | filled
  | partly
  | resting
deriving DecidableEq, Repr

def Status.name : Status → String
  | filled => "FILLED"
  | partly => "PARTIAL"
  | resting => "OPEN"

inductive SubmitResult (α : Type) where
  | rejected (reason : RejectReason)
  | accepted (status : Status) (fills : List (Fill α)) (resting : α) (order : Order α)

structure CancelResult (α : Type) where
  found : Bool
  order : Option (Order α)

/-- The feed's total for one price. -/
structure LevelUpdate (α : Type) where
  side : Side
  price : α
  totalQty : α

inductive UpdateFault where
  | invalidPrice
  | invalidQuantity
deriving DecidableEq, Repr

def UpdateFault.name : UpdateFault → String
  | invalidPrice => "INVALID_PRICE"
  | invalidQuantity => "INVALID_QUANTITY"

inductive UpdateResult (α : Type) where
  | applied (fills : List (Fill α)) (residualCross : Bool)
  | rejected (reason : UpdateFault) (update : LevelUpdate α)

variable {α : Type} [Scalar α]

namespace LevelUpdate

def fault? (u : LevelUpdate α) : Option UpdateFault :=
  if !Scalar.isPositive u.price then some .invalidPrice
  else if !Scalar.isNonneg u.totalQty then some .invalidQuantity
  else none

def firstFault? : List (LevelUpdate α) → Option (UpdateFault × LevelUpdate α)
  | [] => none
  | u :: us =>
    match u.fault? with
    | some reason => some (reason, u)
    | none => firstFault? us

end LevelUpdate

namespace Book

def empty (symbol : Text) : Book α :=
  { symbol, bids := .empty .buy, asks := .empty .sell, index := [], sequenceId := none,
    arrivals := 0, busy := false }

def ladder (b : Book α) : Side → Ladder α
  | .buy => b.bids
  | .sell => b.asks

def setLadder (b : Book α) (side : Side) (l : Ladder α) : Book α :=
  match side with
  | .buy => { b with bids := l }
  | .sell => { b with asks := l }

def bestBid (b : Book α) : Option α := b.bids.bestPrice

def bestAsk (b : Book α) : Option α := b.asks.bestPrice

def size (b : Book α) : Nat := b.index.length

def place? (b : Book α) (id : OrderId) : Option (Place α) := b.index.lookup id

def hasOrder (b : Book α) (id : OrderId) : Bool := (b.place? id).isSome

def orderAt? (b : Book α) (p : Place α) : Option (Order α) :=
  ((b.ladder p.side).level? p.price).bind (·.get? p.handle)

def getOrder? (b : Book α) (id : OrderId) : Option (Order α) :=
  ((b.place? id).bind b.orderAt?).filter (·.isLocal)

def forget (b : Book α) (id : OrderId) : Book α :=
  { b with index := b.index.filter fun e => e.1 ≠ id }

def release (b : Book α) (exhausted : List (Order α)) : Book α :=
  exhausted.foldl (fun b o => match o.party with | .local id => b.forget id | .external => b) b

def enter (b : Book α) (id : OrderId) (p : Place α) : Book α :=
  { b with index := (b.forget id).index ++ [(id, p)] }

def refusal? (b : Book α) (s : Submission α) : Option RejectReason :=
  if b.hasOrder s.id then some .duplicateId
  else if !Scalar.isPositive s.quantity then some .invalidQuantity
  else if !Scalar.isPositive s.price then some .invalidPrice
  else if s.symbol ≠ b.symbol then some .symbolMismatch
  else none

def arrive (b : Book α) (s : Submission α) (now : α) : Order α :=
  { party := .local s.id, side := s.side, price := s.price, remaining := s.quantity,
    original := s.quantity, filled := Scalar.zero, symbol := s.symbol, timestamp := now,
    arrival := b.arrivals + 1 }

def rest (b : Book α) (id : OrderId) (o : Order α) : Book α :=
  let (level, ladder) := (b.ladder o.side).upsert o.price
  let (handle, level) := level.pushBack o
  (b.setLadder o.side (ladder.put level)).enter id ⟨o.side, o.price, handle⟩

/-- Matches a new order and rests what is left of it. -/
def accept (b : Book α) (s : Submission α) (now : α) : SubmitResult α × Book α :=
  let o := b.arrive s now
  let (run, opposing) := Match.incoming o (b.ladder s.side.opposite)
  let b := ({ b with arrivals := b.arrivals + 1 }.setLadder s.side.opposite opposing).release
    run.exhausted
  if negligible run.taker.remaining then (.accepted .filled run.fills Scalar.zero run.taker, b)
  else
    (.accepted (if run.fills.isEmpty then .resting else .partly) run.fills run.taker.remaining
      run.taker, b.rest s.id run.taker)

def remove (b : Book α) (id : OrderId) : CancelResult α × Book α :=
  match b.place? id with
  | none => (⟨false, none⟩, b)
  | some p =>
    let ladder := b.ladder p.side
    let removed := (ladder.level? p.price).bind (·.remove? p.handle)
    let ladder := match removed with
      | some (_, level) => ladder.put level
      | none => ladder
    (⟨true, (removed.map (·.1)).filter (·.isLocal)⟩,
      (b.forget id).setLadder p.side (ladder.removeIfEmpty p.price).2)

def clear (b : Book α) : Book α :=
  { b with bids := b.bids.clear, asks := b.asks.clear, index := [], sequenceId := none }

def aggregate? (level : Level α) : Option (Resting α) :=
  level.queue.head?.filter fun r => !r.order.isLocal

def dropAggregate (b : Book α) (u : LevelUpdate α) : Book α :=
  let ladder := b.ladder u.side
  let removed := (ladder.level? u.price).bind fun level =>
    (aggregate? level).bind fun r => level.remove? r.handle
  match removed with
  | some (_, level) => b.setLadder u.side ((ladder.put level).removeIfEmpty u.price).2
  | none => b

/-- Makes sure of the level and, where an aggregate rests, gives it its new size. -/
def resize (b : Book α) (u : LevelUpdate α) : Book α :=
  let (level, ladder) := (b.ladder u.side).upsert u.price
  if (aggregate? level).isSome then
    b.setLadder u.side <| ladder.put <| level.updateFront fun o =>
      { o with remaining := u.totalQty, original := u.totalQty, filled := Scalar.zero }
  else b.setLadder u.side ladder

/-- Dates the aggregate, or rests a new one ahead of all orders at the price. -/
def stamp (b : Book α) (u : LevelUpdate α) (now : α) : Book α :=
  let ladder := b.ladder u.side
  match ladder.level? u.price with
  | none => b
  | some level =>
    if (aggregate? level).isSome then
      b.setLadder u.side (ladder.put (level.updateFront fun o => { o with timestamp := now }))
    else
      let arrival := b.arrivals + 1
      let o : Order α :=
        { party := .external, side := u.side, price := u.price, remaining := u.totalQty,
          original := u.totalQty, filled := Scalar.zero, symbol := b.symbol, timestamp := now,
          arrival }
      { b with arrivals := arrival }.setLadder u.side (ladder.put (level.pushFront o).2)

/-- Trades off whatever the last update made cross. -/
def uncross (b : Book α) : (List (Fill α) × Bool) × Book α :=
  let s := Sweep.sweep b.bids b.asks
  ((s.fills, s.residualCross), { b with bids := s.bids, asks := s.asks }.release s.exhausted)

structure Row (α : Type) where
  price : α
  totalQty : α
  orders : Nat

/-- The best levels of both sides: the asks from worst to best, the bids from best to worst. -/
structure Depth (α : Type) where
  asks : List (Row α)
  bids : List (Row α)

def row (l : Ladder α) (price : α) : Row α :=
  match l.level? price with
  | some level => ⟨price, level.totalQty, level.size⟩
  | none => ⟨price, Scalar.zero, 0⟩

def rows (l : Ladder α) (n : Nat) : List (Row α) := (l.topPrices n).map (row l)

def view (b : Book α) (n : Nat) : Depth α := ⟨(rows b.asks n).reverse, rows b.bids n⟩

end Book

end LimitBook
