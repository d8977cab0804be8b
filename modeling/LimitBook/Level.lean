import LimitBook.Order

namespace LimitBook

abbrev Handle := Nat

structure Resting (α : Type) where
  handle : Handle
  order : Order α

/-- The orders that rest at one price, in priority order, each behind a handle that stays its own
until the order leaves. A handle given back is the next one given out. -/
structure Level (α : Type) where
  price : α
  queue : List (Resting α)
  /-- The handles given back, the last one first. -/
  free : List Handle
  allocated : Nat

namespace Level

variable {α : Type}

def empty (price : α) : Level α := ⟨price, [], [], 0⟩

def isEmpty (l : Level α) : Bool := l.queue.isEmpty

def size (l : Level α) : Nat := l.queue.length

def orders (l : Level α) : List (Order α) := l.queue.map (·.order)

def find? (h : Handle) : List (Resting α) → Option (Order α)
  | [] => none
  | r :: rs => if r.handle = h then some r.order else find? h rs

def get? (l : Level α) (h : Handle) : Option (Order α) := find? h l.queue

def peekFront? (l : Level α) : Option (Order α) := l.queue.head?.map (·.order)

def allocate (l : Level α) : Handle × Level α :=
  match l.free with
  | h :: free => (h, { l with free })
  | [] => (l.allocated, { l with allocated := l.allocated + 1 })

def pushBack (l : Level α) (o : Order α) : Handle × Level α :=
  let (h, l) := l.allocate
  (h, { l with queue := l.queue ++ [⟨h, o⟩] })

def pushFront (l : Level α) (o : Order α) : Handle × Level α :=
  let (h, l) := l.allocate
  (h, { l with queue := ⟨h, o⟩ :: l.queue })

def remove? (l : Level α) (h : Handle) : Option (Order α × Level α) :=
  (l.get? h).map fun o =>
    (o, { l with queue := l.queue.filter (·.handle ≠ h), free := h :: l.free })

/-- The level with the order behind `h` changed in its place. -/
def update (l : Level α) (h : Handle) (f : Order α → Order α) : Level α :=
  { l with queue := l.queue.map fun r => if r.handle = h then { r with order := f r.order } else r }

def updateFront (l : Level α) (f : Order α → Order α) : Level α :=
  match l.queue with
  | [] => l
  | r :: rs => { l with queue := { r with order := f r.order } :: rs }

/-- The level once trading has gone through its queue: `left` stays, and `gone` left in this
order. -/
def settle (l : Level α) (left gone : List (Resting α)) : Level α :=
  { l with queue := left, free := (gone.map (·.handle)).reverse ++ l.free }

def totalQty [Scalar α] (l : Level α) : α :=
  l.queue.foldl (fun sum r => sum + r.order.remaining) Scalar.zero

end Level

end LimitBook
