import LimitBook.Json
import LimitBook.Number.Format

namespace LimitBook.Json

open Text

def hexDigit (n : Nat) : UInt16 := unit (Nat.digitChar n)

def escapeUnit (u : UInt16) : Text :=
  let n := u.toNat
  [unit '\\', unit 'u', hexDigit (n / 4096), hexDigit (n / 256 % 16), hexDigit (n / 16 % 16),
    hexDigit (n % 16)]

def escape (u : UInt16) : Text :=
  if u = unit '"' then [unit '\\', unit '"']
  else if u = unit '\\' then [unit '\\', unit '\\']
  else if u = 0x08 then [unit '\\', unit 'b']
  else if u = 0x0C then [unit '\\', unit 'f']
  else if u = 0x0A then [unit '\\', unit 'n']
  else if u = 0x0D then [unit '\\', unit 'r']
  else if u = 0x09 then [unit '\\', unit 't']
  else if u < 0x20 then escapeUnit u
  else [u]

/-- The inside of a string: surrogates stand as they are only in pairs. -/
def escapeAll : Text → Text
  | [] => []
  | [u] => if isHighSurrogate u || isLowSurrogate u then escapeUnit u else escape u
  | u :: v :: t =>
    if isHighSurrogate u then
      if isLowSurrogate v then u :: v :: escapeAll t else escapeUnit u ++ escapeAll (v :: t)
    else if isLowSurrogate u then escapeUnit u ++ escapeAll (v :: t)
    else escape u ++ escapeAll (v :: t)

def quote (t : Text) : Text := unit '"' :: escapeAll t ++ [unit '"']

def printNumber (x : Float) : Text :=
  if x.isFinite then Number.plain.format x else ofString "null"

mutual

/-- JSON without blanks. What is not finite is written as null, and an unpaired surrogate as an
escape, so the text is well formed for every value. -/
def print : Json → Text
  | .null => ofString "null"
  | .bool true => ofString "true"
  | .bool false => ofString "false"
  | .num x => printNumber x
  | .str t => quote t
  | .arr items => unit '[' :: printItems items
  | .obj fields => unit '{' :: printFields fields
termination_by structural j => j

def printItems : List Json → Text
  | [] => [unit ']']
  | v :: vs => print v ++ printMoreItems vs
termination_by structural vs => vs

def printMoreItems : List Json → Text
  | [] => [unit ']']
  | v :: vs => unit ',' :: print v ++ printMoreItems vs
termination_by structural vs => vs

def printFields : List (Text × Json) → Text
  | [] => [unit '}']
  | f :: fs => printField f ++ printMoreFields fs
termination_by structural fs => fs

def printMoreFields : List (Text × Json) → Text
  | [] => [unit '}']
  | f :: fs => unit ',' :: printField f ++ printMoreFields fs
termination_by structural fs => fs

def printField : Text × Json → Text
  | (key, v) => quote key ++ unit ':' :: print v
termination_by structural f => f

end

end LimitBook.Json
