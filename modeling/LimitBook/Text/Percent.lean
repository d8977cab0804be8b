import LimitBook.Text.Utf8

namespace LimitBook.Text.Percent

def percent : UInt8 := '%'.toNat.toUInt8

def hexByte? (high low : UInt8) : Option UInt8 :=
  match digit? high.toUInt16, digit? low.toUInt16 with
  | some h, some l => some (16 * h + l).toUInt8
  | _, _ => none

def unescape : List UInt8 → List UInt8
  | b :: h :: l :: bs =>
    if b = percent then
      match hexByte? h l with
      | some c => c :: unescape bs
      | none => b :: unescape (h :: l :: bs)
    else b :: unescape (h :: l :: bs)
  | bs => bs

def wellFormed : List UInt8 → Bool
  | b :: h :: l :: bs =>
    if b = percent then (hexByte? h l).isSome && wellFormed bs else wellFormed (h :: l :: bs)
  | bs => !bs.contains percent

/-- Reads `%41` as the byte 0x41 and lets a percent sign that no two hexadecimal digits follow stand
for itself. -/
def bytes (t : Text) : List UInt8 := unescape (Utf8.encode t)

def decode? (t : Text) : Option Text :=
  if wellFormed (Utf8.encode t) then Utf8.decode? (bytes t) else none

def hexDigit (n : Nat) : UInt16 := unit (Nat.digitChar n).toUpper

def escape (b : UInt8) : Text := [unit '%', hexDigit (b.toNat / 16), hexDigit (b.toNat % 16)]

/-- Every code point that satisfies `p`, and every one above U+007E, written as escapes. -/
def encode (p : Nat → Bool) (t : Text) : Text :=
  t.codePoints.flatMap fun n =>
    if 0x7E < n || p n then (Utf8.encodeCode n).flatMap escape else [n.toUInt16]

end LimitBook.Text.Percent
