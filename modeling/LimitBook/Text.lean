namespace LimitBook

/-- A sequence of UTF-16 code units. Every sequence of units is a text, unpaired surrogates
included, so names that arrive in escaped form survive as they are. -/
abbrev Text := List UInt16

/-- The code units of one character: one, or a surrogate pair above U+FFFF. -/
def charUnits (c : Char) : Text :=
  let n := c.toNat
  if n < 0x10000 then [n.toUInt16]
  else [(0xD800 + (n - 0x10000) / 0x400).toUInt16, (0xDC00 + (n - 0x10000) % 0x400).toUInt16]

namespace Text

def ofChars (cs : List Char) : Text := cs.flatMap charUnits

def ofString (s : String) : Text := ofChars s.toList

instance : Coe String Text := ⟨ofString⟩

def ofNat (n : Nat) : Text := ofChars (Nat.toDigits 10 n)

def unit (c : Char) : UInt16 := c.toNat.toUInt16

def isDigit (u : UInt16) : Bool := unit '0' ≤ u && u ≤ unit '9'

def isLower (u : UInt16) : Bool := unit 'a' ≤ u && u ≤ unit 'z'

def isUpper (u : UInt16) : Bool := unit 'A' ≤ u && u ≤ unit 'Z'

def isLetter (u : UInt16) : Bool := isLower u || isUpper u

def isHighSurrogate (u : UInt16) : Bool := 0xD800 ≤ u && u < 0xDC00

def isLowSurrogate (u : UInt16) : Bool := 0xDC00 ≤ u && u < 0xE000

def digit? (u : UInt16) : Option Nat :=
  if isDigit u then some (u.toNat - (unit '0').toNat)
  else if unit 'a' ≤ u && u ≤ unit 'f' then some (u.toNat - (unit 'a').toNat + 10)
  else if unit 'A' ≤ u && u ≤ unit 'F' then some (u.toNat - (unit 'A').toNat + 10)
  else none

def toNat? (base : Nat) (t : Text) : Option Nat :=
  t.foldlM (fun n u => (digit? u).bind fun d => if d < base then some (base * n + d) else none) 0

def lower (t : Text) : Text := t.map fun u => if isUpper u then u + 32 else u

/-- The code points of a text; an unpaired surrogate stands for itself. -/
def codePoints : Text → List Nat
  | [] => []
  | [u] => [u.toNat]
  | u :: v :: t =>
    if isHighSurrogate u && isLowSurrogate v then
      (0x10000 + (u.toNat - 0xD800) * 0x400 + (v.toNat - 0xDC00)) :: codePoints t
    else u.toNat :: codePoints (v :: t)

def splitOn (sep : UInt16) : Text → List Text
  | [] => [[]]
  | u :: t =>
    match splitOn sep t with
    | [] => [[u]]
    | piece :: rest => if u = sep then [] :: piece :: rest else (u :: piece) :: rest

/-- What stands before the first unit that satisfies `p`, and that unit with all after it. -/
def breakAt (p : UInt16 → Bool) (t : Text) : Text × Text :=
  (t.takeWhile fun u => !p u, t.dropWhile fun u => !p u)

def padStart (width : Nat) (fill : UInt16) (t : Text) : Text :=
  List.replicate (width - t.length) fill ++ t

def padEnd (width : Nat) (fill : UInt16) (t : Text) : Text :=
  t ++ List.replicate (width - t.length) fill

def join (sep : Text) (ts : List Text) : Text := (ts.intersperse sep).flatten

end Text

end LimitBook
