import LimitBook.Text

namespace LimitBook.Text.Utf8

/-- A character whose lead byte was read: its bits so far, the bytes still owed, and the range of
the next byte. -/
structure Pending where
  bits : Nat
  owed : Nat
  low : Nat
  high : Nat

abbrev State := Option Pending

inductive Step where
  | char (code : Nat)
  | more (p : Pending)
  | bad

def lead (b : Nat) : Step :=
  if b < 0x80 then .char b
  else if b < 0xC2 then .bad
  else if b < 0xE0 then .more ⟨b - 0xC0, 1, 0x80, 0xBF⟩
  else if b = 0xE0 then .more ⟨0, 2, 0xA0, 0xBF⟩
  else if b = 0xED then .more ⟨13, 2, 0x80, 0x9F⟩
  else if b < 0xF0 then .more ⟨b - 0xE0, 2, 0x80, 0xBF⟩
  else if b = 0xF0 then .more ⟨0, 3, 0x90, 0xBF⟩
  else if b < 0xF4 then .more ⟨b - 0xF0, 3, 0x80, 0xBF⟩
  else if b = 0xF4 then .more ⟨4, 3, 0x80, 0x8F⟩
  else .bad

def trail (p : Pending) (b : Nat) : Step :=
  if p.low ≤ b && b ≤ p.high then
    if p.owed = 1 then .char (p.bits * 64 + (b - 0x80))
    else .more ⟨p.bits * 64 + (b - 0x80), p.owed - 1, 0x80, 0xBF⟩
  else .bad

def replacement : Nat := 0xFFFD

/-- The code points of bytes from a state on. A byte that cannot go on with a character closes it
as U+FFFD and is read again as a first byte. -/
def codes : State → List UInt8 → List Nat
  | none, [] => []
  | some _, [] => [replacement]
  | none, b :: bs =>
    match lead b.toNat with
    | .char c => c :: codes none bs
    | .more p => codes (some p) bs
    | .bad => replacement :: codes none bs
  | some p, b :: bs =>
    match trail p b.toNat with
    | .char c => c :: codes none bs
    | .more q => codes (some q) bs
    | .bad =>
      match lead b.toNat with
      | .char c => replacement :: c :: codes none bs
      | .more q => replacement :: codes (some q) bs
      | .bad => replacement :: replacement :: codes none bs

/-- Reads any bytes: a maximal run of bytes that starts a character but does not finish it, and any
byte that starts none, counts as one U+FFFD. -/
def decode (bs : List UInt8) : Text := (codes none bs).flatMap fun n => charUnits (Char.ofNat n)

def codes? : State → List UInt8 → Option (List Nat)
  | none, [] => some []
  | some _, [] => none
  | none, b :: bs =>
    match lead b.toNat with
    | .char c => (codes? none bs).map (c :: ·)
    | .more p => codes? (some p) bs
    | .bad => none
  | some p, b :: bs =>
    match trail p b.toNat with
    | .char c => (codes? none bs).map (c :: ·)
    | .more q => codes? (some q) bs
    | .bad => none

def decode? (bs : List UInt8) : Option Text :=
  (codes? none bs).map (·.flatMap fun n => charUnits (Char.ofNat n))

/-- The bytes of one code point; a surrogate is written as U+FFFD. -/
def encodeCode (n : Nat) : List UInt8 :=
  if n < 0x80 then [n.toUInt8]
  else if n < 0x800 then [(0xC0 + n / 64).toUInt8, (0x80 + n % 64).toUInt8]
  else if 0xD800 ≤ n && n < 0xE000 then [0xEF, 0xBF, 0xBD]
  else if n < 0x10000 then
    [(0xE0 + n / 4096).toUInt8, (0x80 + n / 64 % 64).toUInt8, (0x80 + n % 64).toUInt8]
  else
    [(0xF0 + n / 262144).toUInt8, (0x80 + n / 4096 % 64).toUInt8, (0x80 + n / 64 % 64).toUInt8,
      (0x80 + n % 64).toUInt8]

def encode (t : Text) : List UInt8 := t.codePoints.flatMap encodeCode

end LimitBook.Text.Utf8
