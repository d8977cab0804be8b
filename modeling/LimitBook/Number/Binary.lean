import LimitBook.Number.Power

namespace LimitBook.Number

/-- What a double stands for: no number, an infinity, or a signed multiple of a power of two. -/
inductive Binary where
  | nan
  | infinite (negative : Bool)
  | finite (negative : Bool) (mantissa : Nat) (exponent : Int)

namespace Binary

def ofFloat (x : Float) : Binary :=
  let bits := x.toBits.toNat
  let negative := bits / twoPow 63 == 1
  let exponent : Nat := bits / twoPow 52 % twoPow 11
  let fraction := bits % twoPow 52
  if exponent = 2047 then if fraction = 0 then infinite negative else nan
  else if exponent = 0 then finite negative fraction (-1074)
  else finite negative (fraction + twoPow 52) (exponent - 1075)

def whole (mantissa : Nat) : Int → Nat
  | .ofNat e => mantissa * twoPow e
  | .negSucc e => mantissa / twoPow (e + 1)

def isWhole (mantissa : Nat) : Int → Bool
  | .ofNat _ => true
  | .negSucc e => mantissa % twoPow (e + 1) == 0

end Binary

/-- The greatest natural number that is no larger; 0 below zero and for what is not finite. -/
def floorNat (x : Float) : Nat :=
  match Binary.ofFloat x with
  | .finite false m e => Binary.whole m e
  | _ => 0

/-- The value without its fraction. An infinity counts as the power of two above every double, and
what is no number as 0. -/
def truncate (x : Float) : Int :=
  match Binary.ofFloat x with
  | .nan => 0
  | .infinite false => twoPow 1024
  | .infinite true => -twoPow 1024
  | .finite false m e => Binary.whole m e
  | .finite true m e => -Binary.whole m e

def isInteger (x : Float) : Bool :=
  match Binary.ofFloat x with
  | .finite _ m e => Binary.isWhole m e
  | _ => false

end LimitBook.Number
