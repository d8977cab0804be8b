namespace LimitBook.Feed

/-- A timer that is set: when it is due, and its place among all timers ever set. -/
structure Alarm where
  due : Nat
  rank : Nat
deriving DecidableEq, Repr

def Alarm.before (a b : Alarm) : Bool := a.due < b.due || (a.due == b.due && a.rank < b.rank)

structure Timers where
  now : Nat
  made : Nat
  reconnect : Option Alarm
  ping : Option Alarm
deriving DecidableEq, Repr

inductive Bell where
  | reconnect
  | ping
deriving DecidableEq, Repr

namespace Timers

def idle : Timers := ⟨0, 0, none, none⟩

def setReconnect (t : Timers) (delay : Nat) : Timers :=
  { t with reconnect := some ⟨t.now + delay, t.made⟩, made := t.made + 1 }

def setPing (t : Timers) (period : Nat) : Timers :=
  { t with ping := some ⟨t.now + period, t.made⟩, made := t.made + 1 }

def clearReconnect (t : Timers) : Timers := { t with reconnect := none }

def clearPing (t : Timers) : Timers := { t with ping := none }

/-- The timer that goes off next: the earlier one, and of two due at once the one that was set
first. -/
def next? (t : Timers) : Option (Bell × Alarm) :=
  match t.reconnect, t.ping with
  | none, none => none
  | some a, none => some (.reconnect, a)
  | none, some b => some (.ping, b)
  | some a, some b => if a.before b then some (.reconnect, a) else some (.ping, b)

def dueBy? (t : Timers) (time : Nat) : Option (Bell × Alarm) :=
  t.next?.filter fun x => x.2.due ≤ time

def ring (t : Timers) (period : Nat) : Bell × Alarm → Timers
  | (.reconnect, a) => { t with now := a.due, reconnect := none }
  | (.ping, a) => { t with now := a.due, ping := some { a with due := a.due + period } }

end Timers

end LimitBook.Feed
