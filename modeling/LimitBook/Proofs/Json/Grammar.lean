import LimitBook.Json
import LimitBook.Proofs.Number.Decimal
import LimitBook.Proofs.Text.Digits

namespace LimitBook.Json.Grammar

open Text Double

def Blank (t : Text) : Prop := ∀ u ∈ t, u = 0x20 ∨ u = 0x09 ∨ u = 0x0A ∨ u = 0x0D

/-- One digit or more. -/
structure Digits (t : Text) : Prop where
  ne_nil : t ≠ []
  all : ∀ u ∈ t, isDigit u = true

inductive Minus : Text → (negative : Bool) → Prop where
  | absent : Minus [] false
  | present : Minus [unit '-'] true

/-- Digits that do not begin with a zero, or a zero alone. -/
structure Whole (t : Text) : Prop where
  digits : Digits t
  lead : t.head? = some (unit '0') → t = [unit '0']

/-- A point and digits, and these digits. -/
inductive Fraction : Text → Text → Prop where
  | absent : Fraction [] []
  | present {ds : Text} (h : Digits ds) : Fraction (unit '.' :: ds) ds

inductive Exponent : Text → Int → Prop where
  | absent : Exponent [] 0
  | unsigned {u : UInt16} {ds : Text} (hu : u = unit 'e' ∨ u = unit 'E') (h : Digits ds) :
      Exponent (u :: ds) (digitsValue ds)
  | raised {u : UInt16} {ds : Text} (hu : u = unit 'e' ∨ u = unit 'E') (h : Digits ds) :
      Exponent (u :: unit '+' :: ds) (digitsValue ds)
  | lowered {u : UInt16} {ds : Text} (hu : u = unit 'e' ∨ u = unit 'E') (h : Digits ds) :
      Exponent (u :: unit '-' :: ds) (-digitsValue ds)

/-- A numeral without its exponent: its sign, its digits as one number, and how many of them are
behind the point. -/
inductive Mantissa : Text → (negative : Bool) → (n places : Nat) → Prop where
  | mk {sign whole fraction places : Text} {negative : Bool} (hs : Minus sign negative)
      (hw : Whole whole) (hf : Fraction fraction places) :
      Mantissa (sign ++ whole ++ fraction) negative (digitsValue (whole ++ places)) places.length

/-- A numeral and the double that is nearest to it. -/
inductive Numeral : Text → Float → Prop where
  | mk {s t : Text} {negative : Bool} {n places : Nat} {k : Int} {x : Float}
      (hm : Mantissa s negative n places) (he : Exponent t k)
      (hx : Nearest (Number.signOf negative) (n * 10 ^ (k - places)) (view x)) : Numeral (s ++ t) x

def letters : List (UInt16 × UInt16) :=
  [(unit '"', unit '"'), (unit '\\', unit '\\'), (unit '/', unit '/'), (unit 'b', 0x08),
    (unit 'f', 0x0C), (unit 'n', 0x0A), (unit 'r', 0x0D), (unit 't', 0x09)]

/-- Digits of base sixteen and the number that they write. -/
inductive Hex : Text → Nat → Prop where
  | nil : Hex [] 0
  | snoc {t : Text} {n d : Nat} {u : UInt16} (h : Hex t n) (hu : digit? u = some d) :
      Hex (t ++ [u]) (16 * n + d)

/-- What stands for a unit between quotes: the unit itself, unless it is a quote, a backslash or a
control, a letter after a backslash, or its number in four digits. -/
inductive Character : Text → UInt16 → Prop where
  | plain {u : UInt16} (hquote : u ≠ unit '"') (hslash : u ≠ unit '\\') (hcontrol : ¬u < 0x20) :
      Character [u] u
  | letter {c u : UInt16} (h : (c, u) ∈ letters) : Character [unit '\\', c] u
  | code {t : Text} {n : Nat} (h : Hex t n) (hsize : t.length = 4) :
      Character (unit '\\' :: unit 'u' :: t) n.toUInt16

inductive Characters : Text → Text → Prop where
  | nil : Characters [] []
  | snoc {s t c : Text} {u : UInt16} (h : Characters s t) (hc : Character c u) :
      Characters (s ++ c) (t ++ [u])

inductive Quoted : Text → Text → Prop where
  | mk {s t : Text} (h : Characters s t) : Quoted (unit '"' :: (s ++ [unit '"'])) t

/-- The name of a field, with blanks around it. -/
inductive Name : Text → Text → Prop where
  | mk {a s b key : Text} (ha : Blank a) (h : Quoted s key) (hb : Blank b) :
      Name (a ++ s ++ b) key

/-- What a text can stand for inside a value. -/
inductive Part where
  | value (v : Json)
  | element (v : Json)
  | items (vs : List Json)
  | members (fs : Fields)

inductive Derives : Part → Text → Prop where
  | null : Derives (.value .null) (ofString "null")
  | true : Derives (.value (.bool Bool.true)) (ofString "true")
  | false : Derives (.value (.bool Bool.false)) (ofString "false")
  | number {t : Text} {x : Float} (h : Numeral t x) : Derives (.value (.num x)) t
  | string {s t : Text} (h : Quoted s t) : Derives (.value (.str t)) s
  | emptyList {s : Text} (h : Blank s) :
      Derives (.value (.arr [])) (unit '[' :: (s ++ [unit ']']))
  | list {s : Text} {vs : List Json} (h : Derives (.items vs) s) :
      Derives (.value (.arr vs)) (unit '[' :: (s ++ [unit ']']))
  | emptyObject {s : Text} (h : Blank s) :
      Derives (.value (.obj [])) (unit '{' :: (s ++ [unit '}']))
  | object {s : Text} {fs : Fields} (h : Derives (.members fs) s) :
      Derives (.value (.obj fs)) (unit '{' :: (s ++ [unit '}']))
  | element {a s b : Text} {v : Json} (ha : Blank a) (h : Derives (.value v) s) (hb : Blank b) :
      Derives (.element v) (a ++ s ++ b)
  | item {s : Text} {v : Json} (h : Derives (.element v) s) : Derives (.items [v]) s
  | items {s t : Text} {v : Json} {vs : List Json} (hvs : Derives (.items vs) s)
      (h : Derives (.element v) t) : Derives (.items (vs ++ [v])) (s ++ unit ',' :: t)
  | member {name s key : Text} {v : Json} (hname : Name name key) (h : Derives (.element v) s) :
      Derives (.members [(key, v)]) (name ++ unit ':' :: s)
  | members {name s t key : Text} {v : Json} {fs : Fields} (hfs : Derives (.members fs) s)
      (hname : Name name key) (h : Derives (.element v) t) :
      Derives (.members (put key v fs)) (s ++ unit ',' :: (name ++ unit ':' :: t))

end LimitBook.Json.Grammar
