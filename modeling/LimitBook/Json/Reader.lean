import LimitBook.Json
import LimitBook.Number.Numeral

namespace LimitBook.Json.Reader

open Text

inductive Phase where
  | minus
  | zero
  | whole
  | point
  | fraction
  | mark
  | sign
  | exponent
deriving DecidableEq, Repr

structure Numeral where
  phase : Phase
  negative : Bool
  mantissa : Nat
  places : Nat
  lowered : Bool
  exponent : Nat

namespace Numeral

def start? (u : UInt16) : Option Numeral :=
  if u = unit '-' then some ⟨.minus, true, 0, 0, false, 0⟩
  else if u = unit '0' then some ⟨.zero, false, 0, 0, false, 0⟩
  else if isDigit u then some ⟨.whole, false, (digit? u).getD 0, 0, false, 0⟩
  else none

def complete (n : Numeral) : Bool :=
  match n.phase with
  | .zero | .whole | .fraction | .exponent => true
  | _ => false

def digit (n : Numeral) (d : Nat) : Option Numeral :=
  match n.phase with
  | .minus => some { n with phase := if d = 0 then .zero else .whole, mantissa := d }
  | .zero => none
  | .whole => some { n with mantissa := 10 * n.mantissa + d }
  | .point | .fraction =>
    some { n with phase := .fraction, mantissa := 10 * n.mantissa + d, places := n.places + 1 }
  | .mark | .sign | .exponent =>
    some { n with phase := .exponent, exponent := 10 * n.exponent + d }

def extend (n : Numeral) (u : UInt16) : Option Numeral :=
  if isDigit u then n.digit ((digit? u).getD 0)
  else if u = unit '.' then
    match n.phase with
    | .zero | .whole => some { n with phase := .point }
    | _ => none
  else if u = unit 'e' || u = unit 'E' then
    match n.phase with
    | .zero | .whole | .fraction => some { n with phase := .mark }
    | _ => none
  else if u = unit '+' || u = unit '-' then
    match n.phase with
    | .mark => some { n with phase := .sign, lowered := u == unit '-' }
    | _ => none
  else none

def toFloat (n : Numeral) : Float :=
  Number.ofDecimal n.negative n.mantissa
    ((if n.lowered then -(n.exponent : Int) else n.exponent) - n.places)

end Numeral

/-- A list or object that is still open, its parts newest first. -/
inductive Open where
  | list (items : List Json)
  | object (fields : Fields) (key : Text)

inductive Role where
  | key (fields : Fields)
  | value

inductive Mode where
  | value
  | firstItem
  | firstKey
  | key (fields : Fields)
  | colon (fields : Fields) (key : Text)
  | quoted (role : Role) (rev : Text)
  | escape (role : Role) (rev : Text)
  | unicode (role : Role) (rev : Text) (left : Nat) (code : Nat)
  | number (n : Numeral)
  | word (left : Text) (v : Json)
  | after (v : Json)

structure State where
  mode : Mode
  stack : List Open

def start : State := ⟨.value, []⟩

def isSpace (u : UInt16) : Bool := u == 0x20 || u == 0x09 || u == 0x0A || u == 0x0D

def value (stack : List Open) (u : UInt16) : Option State :=
  if u = unit '{' then some ⟨.firstKey, stack⟩
  else if u = unit '[' then some ⟨.firstItem, stack⟩
  else if u = unit '"' then some ⟨.quoted .value [], stack⟩
  else if u = unit 't' then some ⟨.word (ofString "rue") (.bool true), stack⟩
  else if u = unit 'f' then some ⟨.word (ofString "alse") (.bool false), stack⟩
  else if u = unit 'n' then some ⟨.word (ofString "ull") .null, stack⟩
  else (Numeral.start? u).map fun n => ⟨.number n, stack⟩

def after (stack : List Open) (v : Json) (u : UInt16) : Option State :=
  if isSpace u then some ⟨.after v, stack⟩
  else match stack with
    | [] => none
    | .list items :: stack =>
      if u = unit ',' then some ⟨.value, .list (v :: items) :: stack⟩
      else if u = unit ']' then some ⟨.after (.arr (v :: items).reverse), stack⟩
      else none
    | .object fields key :: stack =>
      if u = unit ',' then some ⟨.key (put key v fields), stack⟩
      else if u = unit '}' then some ⟨.after (.obj (put key v fields)), stack⟩
      else none

def escaped? (u : UInt16) : Option UInt16 :=
  if u = unit '"' || u = unit '\\' || u = unit '/' then some u
  else if u = unit 'b' then some 0x08
  else if u = unit 'f' then some 0x0C
  else if u = unit 'n' then some 0x0A
  else if u = unit 'r' then some 0x0D
  else if u = unit 't' then some 0x09
  else none

def close (stack : List Open) (t : Text) : Role → State
  | .value => ⟨.after (.str t), stack⟩
  | .key fields => ⟨.colon fields t, stack⟩

def quoted (stack : List Open) (role : Role) (rev : Text) (u : UInt16) : Option State :=
  if u = unit '"' then some (close stack rev.reverse role)
  else if u = unit '\\' then some ⟨.escape role rev, stack⟩
  else if u < 0x20 then none
  else some ⟨.quoted role (u :: rev), stack⟩

def step (s : State) (u : UInt16) : Option State :=
  match s.mode with
  | .value => if isSpace u then some s else value s.stack u
  | .firstItem =>
    if isSpace u then some s
    else if u = unit ']' then some ⟨.after (.arr []), s.stack⟩
    else value (.list [] :: s.stack) u
  | .firstKey =>
    if isSpace u then some s
    else if u = unit '}' then some ⟨.after (.obj []), s.stack⟩
    else if u = unit '"' then some ⟨.quoted (.key []) [], s.stack⟩
    else none
  | .key fields =>
    if isSpace u then some s
    else if u = unit '"' then some ⟨.quoted (.key fields) [], s.stack⟩
    else none
  | .colon fields key =>
    if isSpace u then some s
    else if u = unit ':' then some ⟨.value, .object fields key :: s.stack⟩
    else none
  | .quoted role rev => quoted s.stack role rev u
  | .escape role rev =>
    if u = unit 'u' then some ⟨.unicode role rev 4 0, s.stack⟩
    else (escaped? u).map fun c => ⟨.quoted role (c :: rev), s.stack⟩
  | .unicode role rev left code =>
    (digit? u).map fun d =>
      if left = 1 then ⟨.quoted role ((16 * code + d).toUInt16 :: rev), s.stack⟩
      else ⟨.unicode role rev (left - 1) (16 * code + d), s.stack⟩
  | .number n =>
    match n.extend u with
    | some n => some ⟨.number n, s.stack⟩
    | none => if n.complete then after s.stack (.num n.toFloat) u else none
  | .word left v =>
    match left with
    | [] => after s.stack v u
    | c :: left => if u = c then some ⟨.word left v, s.stack⟩ else none
  | .after v => after s.stack v u

def finish (s : State) : Option Json :=
  match s.stack, s.mode with
  | [], .after v => some v
  | [], .word [] v => some v
  | [], .number n => if n.complete then some (.num n.toFloat) else none
  | _, _ => none

end Reader

/-- Reads JSON unit by unit, with a stack of the lists and objects that are still open. The grammar
is strict, and of two fields of one name the last one counts. -/
def read? (t : Text) : Option Json := (t.foldlM Reader.step Reader.start).bind Reader.finish

end LimitBook.Json
