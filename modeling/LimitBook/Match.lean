import LimitBook.Ladder

namespace LimitBook.Match

variable {α : Type} [Scalar α]

/-- What is left of the taker and of a queue that it traded with. -/
structure Draw (α : Type) where
  taker : Order α
  left : List (Resting α)
  gone : List (Resting α)
  fills : List (Fill α)

def trade (taker : Order α) (price : α) (maker : Order α) (q : α) : Fill α :=
  { passive := maker.party, aggressive := taker.party, price, quantity := q,
    aggressor := taker.side, virtual := false }

/-- Trades with the head of the queue until the taker has nothing left. -/
def draw (taker : Order α) (price : α) : List (Resting α) → Draw α
  | [] => ⟨taker, [], [], []⟩
  | r :: rs =>
    if negligible taker.remaining then ⟨taker, r :: rs, [], []⟩
    else
      let q := Scalar.smaller taker.remaining r.order.remaining
      let maker := r.order.fill q
      let rest := draw (taker.fill q) price rs
      let fills := trade taker price r.order q :: rest.fills
      if negligible maker.remaining then
        { rest with gone := ⟨r.handle, maker⟩ :: rest.gone, fills }
      else { rest with left := ⟨r.handle, maker⟩ :: rest.left, fills }

structure Run (α : Type) where
  taker : Order α
  fills : List (Fill α)
  /-- The orders used up, in the order in which they left. -/
  exhausted : List (Order α)

def visit (run : Run α) (level : Level α) (opposing : Ladder α) : Run α × Ladder α × Bool :=
  if negligible run.taker.remaining then (run, opposing, false)
  else if crosses run.taker.side run.taker.price level.price then
    let d := draw run.taker level.price level.queue
    ({ taker := d.taker, fills := run.fills ++ d.fills,
       exhausted := run.exhausted ++ d.gone.map (·.order) },
      opposing.restore (level.settle d.left d.gone), true)
  else (run, opposing, false)

def incoming (taker : Order α) (opposing : Ladder α) : Run α × Ladder α :=
  Ladder.walk visit opposing.prices ⟨taker, [], []⟩ opposing

end LimitBook.Match
