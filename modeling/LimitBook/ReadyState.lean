namespace LimitBook

inductive ReadyState where
  | connecting
  | opened
  | closing
  | closed
deriving DecidableEq, Repr

def ReadyState.ofCode : Nat → ReadyState
  | 0 => connecting
  | 1 => opened
  | 2 => closing
  | _ => closed

end LimitBook
