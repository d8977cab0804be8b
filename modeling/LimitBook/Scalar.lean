import LimitBook.Number.Binary

namespace LimitBook

/-- The numbers that prices, quantities and times are made of. The book runs on doubles and uses no
more of them than this. -/
class Scalar (α : Type) extends Add α, Sub α, LT α, LE α, BEq α where
  decLt (a b : α) : Decidable (a < b)
  decLe (a b : α) : Decidable (a ≤ b)
  zero : α
  dust : α
  isFinite : α → Bool
  floorNat : α → Nat

namespace Scalar

variable {α : Type} [Scalar α]

instance (a b : α) : Decidable (a < b) := decLt a b

instance (a b : α) : Decidable (a ≤ b) := decLe a b

/-- The smaller of two numbers, and what is no number if one of them is none. -/
def smaller (a b : α) : α :=
  if a < b then a else if b ≤ a then b else if a == a then b else a

/-- Equality of keys: as numbers, and what is no number equals itself. -/
def same (a b : α) : Bool := a == b || (!(a == a) && !(b == b))

def isPositive (a : α) : Bool := isFinite a && zero < a

def isNonneg (a : α) : Bool := isFinite a && zero ≤ a

end Scalar

instance : Scalar Float where
  decLt := inferInstance
  decLe := inferInstance
  zero := 0
  dust := 1e-10
  isFinite := Float.isFinite
  floorNat := Number.floorNat

end LimitBook
