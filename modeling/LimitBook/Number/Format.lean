import LimitBook.Number.Digits
import LimitBook.Number.Numeral

namespace LimitBook.Number

open Text

/-- Which points are written positionally: above `low` and up to `high`. -/
structure Layout where
  low : Int
  high : Int

/-- Zeros follow a number up to 21 places before its point, and at most six stand after it. -/
def plain : Layout := ⟨-6, 21⟩

def signed (n : Int) : Text :=
  if n < 0 then unit '-' :: Text.ofNat n.natAbs else unit '+' :: Text.ofNat n.natAbs

def zeros (n : Nat) : Text := List.replicate n (unit '0')

namespace Layout

def place (l : Layout) (d : Digits) : Text :=
  let digits := ofChars d.chars
  if l.low < d.point && d.point ≤ 0 then ofString "0." ++ zeros d.point.natAbs ++ digits
  else if 0 < d.point && d.point ≤ l.high then
    let n := d.point.toNat
    if digits.length ≤ n then digits ++ zeros (n - digits.length)
    else digits.take n ++ unit '.' :: digits.drop n
  else
    let tail := unit 'e' :: signed (d.point - 1)
    match digits with
    | [] => tail
    | [u] => u :: tail
    | u :: us => u :: unit '.' :: us ++ tail

def format (l : Layout) (x : Float) : Text :=
  match Binary.ofFloat x with
  | .nan => ofString "NaN"
  | .infinite false => ofString "Infinity"
  | .infinite true => ofString "-Infinity"
  | .finite _ 0 _ => ofString "0"
  | .finite false m e => l.place (shortest m e)
  | .finite true m e => unit '-' :: l.place (shortest m e)

end Layout

def roundTo (size : Nat) (x : Float) : Float :=
  match Binary.ofFloat x with
  | .finite negative (m + 1) e =>
    let (n, k) := significant size (m + 1) e
    ofDecimal negative n k
  | _ => x

end LimitBook.Number
