import LimitBook.Level
import LimitBook.Number.Format

namespace LimitBook

structure Slot (α : Type) where
  order : Option (Order α)
  prev : Option Handle
  next : Option Handle

/-- The orders at one price as they are kept: in slots that never move, each linked to the slot
before it and the slot behind it. The number of a slot is the handle of its order, and a slot that
an order has left is the next one to be used. -/
structure Arena (α : Type) where
  price : α
  slots : Array (Slot α)
  /-- The slots without an order, the one that was left last in front. -/
  free : List Handle
  head : Option Handle
  tail : Option Handle
  count : Int

namespace Arena

variable {α : Type}

/-- A slot was asked for that is not there. -/
structure Missing (α : Type) where
  handle : Handle
  price : α

def Missing.message (m : Missing Float) : Text :=
  "No slot for handle " ++ Text.ofNat m.handle ++ " at price " ++ Number.plain.format m.price

def empty (price : α) : Arena α := ⟨price, #[], [], none, none, 0⟩

def size (a : Arena α) : Int := a.count

def isEmpty (a : Arena α) : Bool := a.count == 0

def slot? (a : Arena α) : Int → Option (Slot α)
  | .ofNat h => a.slots[h]?
  | .negSucc _ => none

def get? (a : Arena α) (h : Int) : Option (Order α) := (a.slot? h).bind (·.order)

def next? (a : Arena α) (h : Int) : Option Handle := (a.slot? h).bind (·.next)

def prev? (a : Arena α) (h : Int) : Option Handle := (a.slot? h).bind (·.prev)

def peekFront? (a : Arena α) : Option (Order α) := a.head.bind fun h => a.get? h

def trail (step : Handle → Option Handle) : Nat → Option Handle → Option (List Handle)
  | _, none => some []
  | 0, some _ => none
  | n + 1, some h => do return h :: (← trail step n (step h))

/-- The handles in priority order. A walk with more steps than there are slots comes back to a slot
where it has been, and never ends. -/
def walk (a : Arena α) : Option (List Handle) :=
  trail (fun h => a.next? h) (a.slots.size + 1) a.head

def orders (a : Arena α) : Option (List (Order α)) :=
  a.walk.map fun hs => hs.filterMap fun h : Handle => a.get? h

def totalQty [Scalar α] (a : Arena α) : Option α :=
  a.walk.map fun hs =>
    hs.foldl (fun sum (h : Handle) => sum + ((a.get? h).map (·.remaining)).getD Scalar.zero)
      Scalar.zero

def change (a : Arena α) (h : Handle) (f : Slot α → Slot α) : Except (Missing α) (Arena α) :=
  match a.slots[h]? with
  | some s => .ok { a with slots := a.slots.setIfInBounds h (f s) }
  | none => .error ⟨h, a.price⟩

def linkNext (a : Arena α) (prev next : Option Handle) : Except (Missing α) (Arena α) :=
  match prev with
  | none => .ok { a with head := next }
  | some h => a.change h fun s => { s with next }

def linkPrev (a : Arena α) (next prev : Option Handle) : Except (Missing α) (Arena α) :=
  match next with
  | none => .ok { a with tail := prev }
  | some h => a.change h fun s => { s with prev }

def allocate (a : Arena α) (o : Order α) : Except (Missing α) (Handle × Arena α) :=
  match a.free with
  | h :: free => do
    let a ← { a with free, count := a.count + 1 }.change h fun s => { s with order := some o }
    return (h, a)
  | [] => .ok (a.slots.size,
    { a with slots := a.slots.push ⟨some o, none, none⟩, count := a.count + 1 })

def pushBack (a : Arena α) (o : Order α) : Except (Missing α) (Handle × Arena α) := do
  let (h, a) ← a.allocate o
  let last := a.tail
  let a ← a.linkPrev (some h) last
  let a ← a.linkNext last (some h)
  let a ← a.linkPrev none (some h)
  return (h, a)

def pushFront (a : Arena α) (o : Order α) : Except (Missing α) (Handle × Arena α) := do
  let (h, a) ← a.allocate o
  let first := a.head
  let a ← a.linkNext (some h) first
  let a ← a.linkPrev first (some h)
  let a ← a.linkNext none (some h)
  return (h, a)

def remove (a : Arena α) : Int → Except (Missing α) (Option (Order α) × Arena α)
  | .negSucc _ => .ok (none, a)
  | .ofNat h =>
    match a.slots[h]? with
    | none => .ok (none, a)
    | some ⟨none, _, _⟩ => .ok (none, a)
    | some ⟨some o, prev, next⟩ => do
      let a ← a.linkNext prev next
      let a ← a.linkPrev next prev
      let a ← a.change h fun _ => ⟨none, none, none⟩
      return (some o, { a with free := h :: a.free, count := a.count - 1 })

def update (a : Arena α) (f : Order α → Order α) : Int → Arena α
  | .negSucc _ => a
  | .ofNat h => { a with slots := a.slots.modify h fun s => { s with order := s.order.map f } }

/-- Goes through the orders from `h` on, unless there are more than `n`. What is behind an order is
read before its turn, which may take it out. -/
def visit (turn : σ → Order α → σ × Bool) :
    Nat → Option Handle → σ → Arena α → Option (Except (Missing α) (σ × Arena α))
  | _, none, s, a => some (.ok (s, a))
  | 0, some _, _, _ => none
  | n + 1, some h, s, a =>
    let next := a.next? h
    match a.get? h with
    | none => visit turn n next s a
    | some o =>
      match turn s o with
      | (s, false) => visit turn n next s a
      | (s, true) =>
        match a.remove h with
        | .error e => some (.error e)
        | .ok (_, a) => visit turn n next s a

/-- What comes of a walk: nothing if it does not end, and an error if it asks for a slot that is not
there. -/
abbrev Trip (α β : Type) : Type := ExceptT (Missing α) Option β

structure Turn (σ α : Type) where
  state : σ
  order : Order α
  leaves : Bool

/-- Goes through the orders from `h` on, unless there are more than `n`, until a turn ends the walk.
A turn changes its order in its place and may take it out. -/
def pass (turn : σ → Order α → Trip α (Option (Turn σ α))) :
    Nat → Option Handle → σ → Arena α → Trip α (σ × Arena α)
  | _, none, s, a => pure (s, a)
  | 0, some _, _, _ => ExceptT.mk none
  | n + 1, some h, s, a => do
    let next := a.next? h
    match a.get? h with
    | none => pass turn n next s a
    | some o =>
      match ← turn s o with
      | none => return (s, a)
      | some t =>
        let a := a.update (fun _ => t.order) h
        if t.leaves then
          let (_, a) ← a.remove h
          pass turn n next t.state a
        else pass turn n next t.state a

def passAll (turn : σ → Order α → Trip α (Option (Turn σ α))) (s : σ) (a : Arena α) :
    Trip α (σ × Arena α) :=
  pass turn a.slots.size a.head s a

end Arena

end LimitBook
