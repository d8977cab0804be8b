import LimitBook.Text.Blank

namespace LimitBook.Number

def nan : Float := Float.ofBits 0x7FF8000000000000

def infinity : Float := Float.ofBits 0x7FF0000000000000

/-- The double nearest to `± mantissa · 10 ^ exponent`. Past 10 ^ 310 it is infinite and below
10 ^ -330 it is zero, whatever the digits are. -/
def ofDecimal (negative : Bool) (mantissa : Nat) (exponent : Int) : Float :=
  let top := (Nat.toDigits 10 mantissa).length + exponent
  let x :=
    if mantissa = 0 ∨ top < -330 then 0.0
    else if 310 < top then infinity
    else match exponent with
      | .ofNat e => Float.ofScientific mantissa false e
      | .negSucc e => Float.ofScientific mantissa true (e + 1)
  if negative then -x else x

open Text

structure Decimal where
  whole : Text
  fraction : Text
  exponent : Int

namespace Decimal

def toFloat (d : Decimal) (negative : Bool) : Float :=
  ofDecimal negative ((toNat? 10 (d.whole ++ d.fraction)).getD 0) (d.exponent - d.fraction.length)

def exponent? (t : Text) : Option Int :=
  match t with
  | [] => none
  | u :: digits =>
    if u = unit '-' then if digits.isEmpty then none else (toNat? 10 digits).map fun n => -n
    else if u = unit '+' then if digits.isEmpty then none else (toNat? 10 digits).map Int.ofNat
    else (toNat? 10 t).map Int.ofNat

def tail? : Text → Option Int
  | [] => some 0
  | u :: t => if u = unit 'e' || u = unit 'E' then exponent? t else none

def ofText? (t : Text) : Option Decimal :=
  let whole := t.takeWhile isDigit
  match t.dropWhile isDigit with
  | u :: rest =>
    if u = unit '.' then
      let fraction := rest.takeWhile isDigit
      if whole.isEmpty && fraction.isEmpty then none
      else (tail? (rest.dropWhile isDigit)).map fun e => ⟨whole, fraction, e⟩
    else if whole.isEmpty then none
    else (tail? (u :: rest)).map fun e => ⟨whole, [], e⟩
  | [] => if whole.isEmpty then none else some ⟨whole, [], 0⟩

end Decimal

def unsigned (negative : Bool) (t : Text) : Float :=
  if t = ofString "Infinity" then if negative then -infinity else infinity
  else match Decimal.ofText? t with
    | some d => d.toFloat negative
    | none => nan

def base? (u : UInt16) : Option Nat :=
  if u = unit 'x' || u = unit 'X' then some 16
  else if u = unit 'o' || u = unit 'O' then some 8
  else if u = unit 'b' || u = unit 'B' then some 2
  else none

def inBase? : Text → Option Float
  | z :: b :: u :: digits =>
    if z = unit '0' then
      (base? b).map fun base =>
        match toNat? base (u :: digits) with
        | some n => ofDecimal false n 0
        | none => nan
    else none
  | _ => none

/-- A whole text as a number: blanks around it do not count, nothing at all is zero, and what is no
numeral is no number. -/
def ofText (t : Text) : Float :=
  match trim t with
  | [] => 0
  | u :: t =>
    if u = unit '-' then unsigned true t
    else if u = unit '+' then unsigned false t
    else (inBase? (u :: t)).getD (unsigned false (u :: t))

end LimitBook.Number
