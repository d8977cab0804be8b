import LimitBook.Scalar
import LimitBook.Text

namespace LimitBook

inductive Side where
  | buy
  | sell
deriving DecidableEq, Repr

namespace Side

def opposite : Side → Side
  | buy => sell
  | sell => buy

def name : Side → String
  | buy => "BUY"
  | sell => "SELL"

end Side

abbrev OrderId := Nat

/-- A local order by its id, or the feed's aggregate, which stands for all the resting size at a
price that has no owner here. -/
inductive Party where
  | local (id : OrderId)
  | external
deriving DecidableEq, Repr

namespace Party

def isLocal : Party → Bool
  | .local _ => true
  | .external => false

def id? : Party → Option OrderId
  | .local id => some id
  | .external => none

def name : Party → Text
  | .local id => Text.ofNat id
  | .external => "EXTERNAL"

end Party

structure Order (α : Type) where
  party : Party
  side : Side
  price : α
  remaining : α
  original : α
  filled : α
  symbol : Text
  timestamp : α
  arrival : Nat
deriving DecidableEq

structure Fill (α : Type) where
  passive : Party
  aggressive : Party
  price : α
  quantity : α
  aggressor : Side
  /-- Did the trade come from sweeping a crossed book, and not from a submission? -/
  virtual : Bool
deriving DecidableEq

variable {α : Type} [Scalar α]

def negligible (q : α) : Bool := q < Scalar.dust

def crosses (side : Side) (limit price : α) : Bool :=
  match side with
  | .buy => price ≤ limit
  | .sell => limit ≤ price

namespace Order

/-- The order after a trade of `q`; a remainder too small to count becomes zero. -/
def fill (o : Order α) (q : α) : Order α :=
  let left := o.remaining - q
  { o with remaining := if negligible left then Scalar.zero else left, filled := o.filled + q }

def isLocal (o : Order α) : Bool := o.party.isLocal

end Order

end LimitBook
