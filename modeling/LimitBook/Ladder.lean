import LimitBook.Level

namespace LimitBook

/-- One side of the book: its levels, and their prices from best to worst, bids falling and asks
rising. -/
structure Ladder (α : Type) where
  side : Side
  levels : List (Level α)
  prices : List α

namespace Ladder

variable {α : Type} [Scalar α]

def empty (side : Side) : Ladder α := ⟨side, [], []⟩

def size (l : Ladder α) : Nat := l.prices.length

def bestPrice (l : Ladder α) : Option α := l.prices.head?

def find? (price : α) : List (Level α) → Option (Level α)
  | [] => none
  | level :: rest => if Scalar.same level.price price then some level else find? price rest

def level? (l : Ladder α) (price : α) : Option (Level α) := find? price l.levels

def aggregateQty (l : Ladder α) (price : α) : α :=
  match l.level? price with
  | some level => level.totalQty
  | none => Scalar.zero

/-- The first `n` prices, or for a negative `n` all but the last `-n`. -/
def topPrices (l : Ladder α) : Int → List α
  | .ofNat n => l.prices.take n
  | .negSucc n => l.prices.take (l.prices.length - (n + 1))

def better (side : Side) (a b : α) : Bool :=
  match side with
  | .buy => b < a
  | .sell => a < b

/-- The prices with one more, placed by halving the list. -/
def insertPrice (side : Side) (price : α) (prices : List α) : List α :=
  let middle := prices.length / 2
  match _h : prices[middle]? with
  | none => price :: prices
  | some current =>
    if better side current price then
      prices.take (middle + 1) ++ insertPrice side price (prices.drop (middle + 1))
    else insertPrice side price (prices.take middle) ++ prices.drop middle
termination_by prices.length
decreasing_by
  all_goals
    have := (List.getElem?_eq_some_iff.1 _h).1
    simp only [List.length_take, List.length_drop]
    omega

def upsert (l : Ladder α) (price : α) : Level α × Ladder α :=
  match l.level? price with
  | some level => (level, l)
  | none =>
    let level := Level.empty price
    (level, { l with
      levels := l.levels ++ [level]
      prices := insertPrice l.side price l.prices })

def put (l : Ladder α) (level : Level α) : Ladder α :=
  { l with levels := l.levels.map fun k => if Scalar.same k.price level.price then level else k }

def removeIfEmpty (l : Ladder α) (price : α) : Bool × Ladder α :=
  match l.level? price with
  | none => (false, l)
  | some level =>
    if level.isEmpty then
      (true, { l with
        levels := l.levels.filter fun k => !Scalar.same k.price price
        prices := l.prices.erase price })
    else (false, l)

def restore (l : Ladder α) (level : Level α) : Ladder α :=
  ((l.put level).removeIfEmpty level.price).2

def clear (l : Ladder α) : Ladder α := { l with levels := [], prices := [] }

/-- Goes through prices in order and hands `f` the level that each has at its turn, passing over
those without one. What `f` does to the ladder shows at later turns; the walk ends early when `f`
answers false. -/
def walk (f : σ → Level α → Ladder α → σ × Ladder α × Bool) :
    List α → σ → Ladder α → σ × Ladder α
  | [], s, l => (s, l)
  | price :: prices, s, l =>
    match l.level? price with
    | none => walk f prices s l
    | some level =>
      match f s level l with
      | (s, l, true) => walk f prices s l
      | (s, l, false) => (s, l)

end Ladder

end LimitBook
