import LimitBook.Number.Power
import LimitBook.Text.Percent

namespace LimitBook.Config.Host

open Text

/-- A number in decimal, or in octal or hexadecimal after their usual marks. -/
def ipv4Number? : Text → Option Nat
  | [] => none
  | [u] => toNat? 10 [u]
  | u :: v :: t =>
    if u = unit '0' then
      if v = unit 'x' || v = unit 'X' then toNat? 16 t else toNat? 8 (v :: t)
    else toNat? 10 (u :: v :: t)

def parts (t : Text) : List Text :=
  let all := splitOn (unit '.') t
  if 1 < all.length && all.getLast? == some [] then all.dropLast else all

def endsInNumber (t : Text) : Bool :=
  match (parts t).getLast? with
  | none => false
  | some last => (!last.isEmpty && last.all isDigit) || (ipv4Number? last).isSome

/-- At most four numbers; the last one fills all the bytes that the others leave. -/
def isIpv4 (t : Text) : Bool :=
  let ps := parts t
  match ps.mapM ipv4Number? with
  | none => false
  | some ns =>
    ns.length ≤ 4 && ns.dropLast.all (· ≤ 255) &&
      match ns.getLast? with
      | some n => n < Number.twoPow (8 * (5 - ns.length))
      | none => false

def isByte (t : Text) : Bool :=
  match toNat? 10 t with
  | some n => !t.isEmpty && n ≤ 255 && (t.length = 1 || t.head? != some (unit '0'))
  | none => false

def isDotted (t : Text) : Bool :=
  let ps := splitOn (unit '.') t
  ps.length = 4 && ps.all isByte

def isPiece (t : Text) : Bool := (toNat? 16 t).isSome && 1 ≤ t.length && t.length ≤ 4

/-- How many sixteen-bit pieces a text holds; at the end of an address the last two may be
dotted. -/
def pieces? (atEnd : Bool) (t : Text) : Option Nat :=
  if t.isEmpty then some 0
  else
    let ps := splitOn (unit ':') t
    match ps.getLast? with
    | none => none
    | some last =>
      if ps.all isPiece then some ps.length
      else if atEnd && isDotted last && ps.dropLast.all isPiece then some (ps.length + 1)
      else none

def splitGap : Text → Option (Text × Text)
  | u :: v :: t =>
    if u = unit ':' && v = unit ':' then some ([], t)
    else (splitGap (v :: t)).map fun (a, b) => (u :: a, b)
  | _ => none

/-- Eight pieces, or fewer with a gap for at least one. -/
def isIpv6 (t : Text) : Bool :=
  match splitGap t with
  | none => pieces? true t == some 8
  | some (a, b) =>
    match pieces? false a, pieces? true b with
    | some m, some n => m + n ≤ 7
    | _, _ => false

def isForbidden (n : Nat) : Bool :=
  [0x00, 0x09, 0x0A, 0x0D, 0x20, 0x23, 0x2F, 0x3A, 0x3C, 0x3E, 0x3F, 0x40, 0x5B, 0x5C, 0x5D, 0x5E,
    0x7C].contains n

def isForbiddenInName (n : Nat) : Bool := isForbidden n || n ≤ 0x1F || n = 0x25 || n = 0x7F

def isIgnored (n : Nat) : Bool :=
  n = 0xAD || n = 0x34F || n = 0x200B || n = 0x2060 || n = 0xFEFF || (0xFE00 ≤ n && n ≤ 0xFE0F)

/-- Code points outside ASCII that stand for no letter: controls, blanks, surrogates, private use
and the replacement character. -/
def isNoLetter (n : Nat) : Bool :=
  (0x80 ≤ n && n ≤ 0xA0) || (0x2000 ≤ n && n ≤ 0x200A) || (0x200E ≤ n && n ≤ 0x200F) ||
    (0x2028 ≤ n && n ≤ 0x202F) || n = 0x205F || n = 0x3000 || (0xD800 ≤ n && n ≤ 0xF8FF) ||
    (0xFFF9 ≤ n && n ≤ 0xFFFF)

/-- The code point that a name is looked up by: wide forms are narrowed, and every full stop is a
dot. -/
def narrow (n : Nat) : Nat :=
  if n = 0x3002 || n = 0xFF61 then 0x2E
  else if 0xFF01 ≤ n && n ≤ 0xFF5E then n - 0xFEE0
  else n

/-- A name, its escapes undone, as code points; `none` if it holds one that no name may hold. -/
def name? (t : Text) : Option (List Nat) :=
  let codes := ((Utf8.decode (Percent.bytes t)).codePoints.filter (!isIgnored ·)).map narrow
  if codes.isEmpty || codes.any (fun n => isForbiddenInName n || isNoLetter n) then none
  else some codes

def isName (t : Text) : Bool :=
  match name? t with
  | none => false
  | some codes =>
    let name := lower (codes.map Nat.toUInt16)
    !endsInNumber name || isIpv4 name

def bracketed? (t : Text) : Option Text :=
  if t.getLast? = some (unit ']') then some (t.drop 1).dropLast else none

def isBracketed (t : Text) : Bool := (bracketed? t).any isIpv6

def isDomain (t : Text) : Bool :=
  if t.head? = some (unit '[') then isBracketed t else isName t

def isOpaque (t : Text) : Bool :=
  if t.head? = some (unit '[') then isBracketed t else !t.codePoints.any isForbidden

end LimitBook.Config.Host
