import LimitBook.Match
import LimitBook.Proofs.Arena.Walk
import LimitBook.Sweep

namespace LimitBook.Arena

variable {α : Type} [Scalar α]

section Match

open LimitBook.Match (Run)

variable {a : Arena α} {l : Level α}

/-- The turn of an order that rests at `price`, with an incoming order on its way. -/
def drawTurn (price : α) (run : Run α) (maker : Order α) : Option (Turn (Run α) α) :=
  if negligible run.taker.remaining then none
  else
    let q := Scalar.smaller run.taker.remaining maker.remaining
    let order := maker.fill q
    let leaves := negligible order.remaining
    some
      { state :=
          { taker := run.taker.fill q
            fills := run.fills ++ [Match.trade run.taker price maker q]
            exhausted := run.exhausted ++ if leaves then [order] else [] }
        order, leaves }

/-- An incoming order on its way through the orders at one price. -/
def draw (run : Run α) (a : Arena α) : Trip α (Run α × Arena α) :=
  a.passAll (alone (drawTurn a.price)) run

theorem passed_drawTurn (price : α) (run : Run α) (rs : List (Resting α)) :
    let d := Match.draw run.taker price rs
    passed (drawTurn price) run rs =
      ⟨⟨d.taker, run.fills ++ d.fills, run.exhausted ++ d.gone.map (·.order)⟩, d.left, d.gone⟩ := by
  induction rs generalizing run with
  | nil => simp [passed, Match.draw]
  | cons r rs ih =>
    simp only [passed, drawTurn, Match.draw]
    cases negligible run.taker.remaining with
    | true => simp
    | false =>
      simp only [Bool.false_eq_true, if_false, ih]
      split <;> simp

/-- Matching against the orders of an arena is matching against the queue of its level, and the
level is settled as the arena is left. -/
theorem Holds.draw (hl : a.Holds l) (run : Run α) :
    let d := Match.draw run.taker l.price l.queue
    ∃ a', a.draw run = pure (⟨d.taker, run.fills ++ d.fills,
        run.exhausted ++ d.gone.map (·.order)⟩, a') ∧ a'.Holds (l.settle d.left d.gone) := by
  have hpass := hl.passAll_alone (drawTurn a.price) run
  rw [passed_drawTurn] at hpass
  rw [← hl.price]
  exact hpass

end Match

section Sweep

open LimitBook.Sweep (Progress)

variable {a a' : Arena α} {l l' : Level α}

def meetTurn (bidPrice askPrice : α) (s : Order α × Progress α) (ask : Order α) :
    Option (Turn (Order α × Progress α) α) :=
  let (bid, progress) := s
  if negligible bid.remaining then none
  else if bid.isLocal || ask.isLocal then
    let q := Scalar.smaller bid.remaining ask.remaining
    let order := ask.fill q
    let leaves := negligible order.remaining
    some
      { state := (bid.fill q,
          { fills := progress.fills ++ [Sweep.trade bid bidPrice ask askPrice q]
            exhausted := progress.exhausted ++ if leaves then [order] else [] })
        order, leaves }
  else some ⟨s, ask, false⟩

def meet (bidPrice : α) (bid : Order α) (progress : Progress α) (asks : Arena α) :
    Trip α ((Order α × Progress α) × Arena α) :=
  asks.passAll (alone (meetTurn bidPrice asks.price)) (bid, progress)

theorem passed_meetTurn (bidPrice askPrice : α) (bid : Order α) (p : Progress α)
    (rs : List (Resting α)) :
    let m := Sweep.meet bidPrice askPrice bid rs
    passed (meetTurn bidPrice askPrice) (bid, p) rs =
      ⟨(m.bid, ⟨p.fills ++ m.fills, p.exhausted ++ m.gone.map (·.order)⟩), m.left, m.gone⟩ := by
  induction rs generalizing bid p with
  | nil => simp [passed, Sweep.meet]
  | cons r rs ih =>
    simp only [passed, meetTurn, Sweep.meet]
    cases negligible bid.remaining with
    | true => simp
    | false =>
      cases bid.isLocal || r.order.isLocal with
      | true =>
        simp only [Bool.false_eq_true, if_false, if_true, ih]
        split <;> simp
      | false => simp [ih]

theorem Holds.meet (hl : a.Holds l) (bidPrice : α) (bid : Order α) (p : Progress α) :
    let m := Sweep.meet bidPrice l.price bid l.queue
    ∃ a', a.meet bidPrice bid p = pure ((m.bid, ⟨p.fills ++ m.fills,
        p.exhausted ++ m.gone.map (·.order)⟩), a') ∧ a'.Holds (l.settle m.left m.gone) := by
  have hpass := hl.passAll_alone (meetTurn bidPrice a.price) (bid, p)
  rw [passed_meetTurn] at hpass
  rw [← hl.price]
  exact hpass

/-- The turn of a bid, which goes through the asks as the bids before it have left them. -/
def crossTurn (bidPrice : α) (s : Arena α × Progress α) (bid : Order α) :
    Trip α (Option (Turn (Arena α × Progress α) α)) := do
  let ((order, progress), asks) ← s.1.meet bidPrice bid s.2
  let leaves := negligible order.remaining
  return some
    { state := (asks,
        { progress with
          exhausted := progress.exhausted ++ if leaves then [order] else [] })
      order, leaves }

/-- The bids at one price on their way through the asks at another. -/
def cross (progress : Progress α) (bids asks : Arena α) :
    Trip α ((Arena α × Progress α) × Arena α) :=
  bids.passAll (crossTurn bids.price) (asks, progress)

def settleTurn (bidPrice : α) (s : Level α × Progress α) (bid : Order α) :
    Option (Turn (Level α × Progress α) α) :=
  let m := Sweep.meet bidPrice s.1.price bid s.1.queue
  let leaves := negligible m.bid.remaining
  some
    { state := (s.1.settle m.left m.gone,
        { fills := s.2.fills ++ m.fills
          exhausted := s.2.exhausted ++ m.gone.map (·.order) ++
            if leaves then [m.bid] else [] })
      order := m.bid, leaves }

/-- The asks are kept in the arena, and as much has been reported. -/
def Keeps (s : Arena α × Progress α) (s' : Level α × Progress α) : Prop :=
  s.1.Holds s'.1 ∧ s.2 = s'.2

theorem follows_crossTurn (bidPrice : α) :
    Follows Keeps (crossTurn bidPrice) (settleTurn bidPrice) := by
  rintro ⟨a, p⟩ ⟨l, _⟩ bid ⟨hl, rfl⟩
  obtain ⟨a', ha', hl'⟩ := hl.meet bidPrice bid p
  exact ⟨_, by rw [crossTurn, ha']; rfl, hl', rfl⟩

theorem passed_settleTurn (bidPrice : α) (l : Level α) (p : Progress α) (rs : List (Resting α)) :
    let c := Sweep.cross bidPrice l.price rs l.queue
    passed (settleTurn bidPrice) (l, p) rs =
      ⟨(l.settle c.asks c.asksGone, ⟨p.fills ++ c.fills, p.exhausted ++ c.exhausted⟩),
        c.bids, c.bidsGone⟩ := by
  induction rs generalizing l p with
  | nil => simp [passed, Sweep.cross, Level.settle]
  | cons r rs ih =>
    simp only [passed, settleTurn, Sweep.cross, ih]
    split <;> simp [Level.settle]

/-- Sweeping the arenas of two prices is crossing the queues of their levels, and both levels are
settled as the arenas are left. -/
theorem Holds.cross (hl : a.Holds l) (hl' : a'.Holds l') (p : Progress α) :
    let c := Sweep.cross l.price l'.price l.queue l'.queue
    ∃ bids asks, a.cross p a' = pure ((asks, ⟨p.fills ++ c.fills, p.exhausted ++ c.exhausted⟩),
        bids) ∧ bids.Holds (l.settle c.bids c.bidsGone) ∧
          asks.Holds (l'.settle c.asks c.asksGone) := by
  have hs : Keeps (a', p) (l', p) := ⟨hl', rfl⟩
  obtain ⟨⟨asks, progress⟩, bids, hrun, ⟨hasks, rfl⟩, hbids⟩ :=
    hl.passAll (follows_crossTurn a.price) hs
  rw [passed_settleTurn] at hrun hasks hbids
  rw [← hl.price]
  exact ⟨bids, asks, hrun, hbids, hasks⟩

end Sweep

end LimitBook.Arena
