import LimitBook.Number.Binary

namespace LimitBook.Number

/-- Digits d₁d₂…dₙ and a point: the number 0.d₁d₂…dₙ · 10 ^ point. -/
structure Digits where
  chars : List Char
  point : Int
deriving DecidableEq, Repr

namespace Digits

def ofScaled (n : Nat) (exponent : Int) : Digits :=
  let chars := Nat.toDigits 10 n
  ⟨(chars.reverse.dropWhile (· == '0')).reverse, exponent + chars.length⟩

end Digits

structure Ratio where
  num : Nat
  den : Nat

namespace Ratio

def ofBinary (mantissa : Nat) : Int → Ratio
  | .ofNat e => ⟨mantissa * twoPow e, 1⟩
  | .negSucc e => ⟨mantissa, twoPow (e + 1)⟩

/-- The power of ten above the value: `10 ^ (p - 1) ≤ num / den < 10 ^ p`. -/
def magnitude (r : Ratio) : Int :=
  if r.den ≤ r.num then (Nat.toDigits 10 (r.num / r.den)).length
  else 1 - (Nat.toDigits 10 ((r.den - 1) / r.num)).length

def inUnits (r : Ratio) : Int → Ratio
  | .ofNat e => ⟨r.num, r.den * tenPow e⟩
  | .negSucc e => ⟨r.num * tenPow (e + 1), r.den⟩

end Ratio

/-- The numbers that read as one double: the double and the ends of their interval over a common
denominator; the ends belong to it when `closed`. -/
structure Interval where
  low : Nat
  value : Nat
  high : Nat
  den : Nat
  closed : Bool

namespace Interval

/-- The gap below a power of two is half as wide as the gap above it. -/
def ofBinary (mantissa : Nat) (exponent : Int) : Interval :=
  let r := Ratio.ofBinary mantissa exponent
  let unit := r.num / mantissa
  let below := if mantissa = twoPow 52 ∧ exponent ≠ -1074 then 1 else 2
  ⟨4 * r.num - below * unit, 4 * r.num, 4 * r.num + 2 * unit, 4 * r.den, mantissa % 2 == 0⟩

def holds (i : Interval) (n : Nat) : Bool :=
  if i.closed then i.low ≤ n && n ≤ i.high else i.low < n && n < i.high

def inUnits (i : Interval) : Int → Interval
  | .ofNat e => { i with den := i.den * tenPow e }
  | .negSucc e =>
    let k := tenPow (e + 1)
    { i with low := i.low * k, value := i.value * k, high := i.high * k }

/-- The whole number in the interval next to its value, if one of the two around it is there. Of
two at one distance the even one is taken. -/
def nearest? (i : Interval) : Option Nat :=
  let n := i.value / i.den
  let left := i.value - n * i.den
  let right := (n + 1) * i.den - i.value
  match i.holds (n * i.den), i.holds ((n + 1) * i.den) with
  | true, true =>
    if left < right || (left == right && n % 2 == 0) then some n else some (n + 1)
  | true, false => some n
  | false, true => some (n + 1)
  | false, false => none

end Interval

/-- The fewest digits that read back as `mantissa · 2 ^ exponent`. -/
def shortest (mantissa : Nat) (exponent : Int) : Digits :=
  let p := (Ratio.ofBinary mantissa exponent).magnitude
  let i := Interval.ofBinary mantissa exponent
  let found := (List.range' 1 17).findSome? fun (size : Nat) =>
    ((i.inUnits (p - size)).nearest?).map fun n => Digits.ofScaled n (p - size)
  found.getD (Digits.ofScaled mantissa 0)

def Ratio.round (r : Ratio) : Nat := (2 * r.num + r.den) / (2 * r.den)

/-- The value to `size` significant digits, as an integer and the power of ten that scales it. -/
def significant (size : Nat) (mantissa : Nat) (exponent : Int) : Nat × Int :=
  let r := Ratio.ofBinary mantissa exponent
  let p := r.magnitude
  ((r.inUnits (p - size)).round, p - size)

end LimitBook.Number
