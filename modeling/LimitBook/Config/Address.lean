import LimitBook.Config.Host
import LimitBook.Text.Blank

namespace LimitBook.Config.Address

open Text

def webSchemes : List Text := ["http", "https", "ws", "wss", "ftp"]

def isSchemeUnit (u : UInt16) : Bool :=
  isLetter u || isDigit u || u == unit '+' || u == unit '-' || u == unit '.'

def scheme? (t : Text) : Option (Text × Text) :=
  match t.head?, t.dropWhile isSchemeUnit with
  | some first, colon :: rest =>
    if isLetter first && colon = unit ':' then some (lower (t.takeWhile isSchemeUnit), rest)
    else none
  | _, _ => none

def isSlash (web : Bool) (u : UInt16) : Bool := u == unit '/' || (web && u == unit '\\')

def endsHost (web : Bool) (u : UInt16) : Bool := isSlash web u || u == unit '?' || u == unit '#'

def afterAt? (t : Text) : Option Text :=
  if t.contains (unit '@') then some (t.reverse.takeWhile (· != unit '@')).reverse else none

def splitPort (inside : Bool) : Text → Text × Option Text
  | [] => ([], none)
  | u :: t =>
    if u = unit ':' && !inside then ([], some t)
    else
      let inside := if u = unit '[' then true else if u = unit ']' then false else inside
      let (host, port) := splitPort inside t
      (u :: host, port)

def isPort (t : Text) : Bool :=
  match toNat? 10 t with
  | some n => n ≤ 65535
  | none => false

def isHost (web : Bool) (t : Text) : Bool := if web then Host.isDomain t else Host.isOpaque t

def isAuthority (web : Bool) (t : Text) : Bool :=
  let named := (afterAt? t).getD t
  let (host, port) := splitPort false named
  if named.isEmpty then !web && (afterAt? t).isNone
  else
    !host.isEmpty && isHost web host &&
      match port with
      | some p => isPort p
      | none => true

def isDrive (t : Text) : Bool :=
  match t with
  | [u, v] => isLetter u && (v == unit ':' || v == unit '|')
  | _ => false

/-- A file's address: its host may be missing, and a drive may stand in the place of one. -/
def isFileRest (t : Text) : Bool :=
  match t with
  | u :: v :: rest =>
    if isSlash true u && isSlash true v then
      let host := rest.takeWhile (!endsHost true ·)
      host.isEmpty || isDrive host || Host.isDomain host
    else true
  | _ => true

def isAddress (t : Text) : Bool :=
  match scheme? (tidy t) with
  | none => false
  | some (scheme, rest) =>
    if scheme = ofString "file" then isFileRest rest
    else if webSchemes.contains scheme then
      isAuthority true ((rest.dropWhile (isSlash true)).takeWhile (!endsHost true ·))
    else match rest with
      | u :: v :: more =>
        if u = unit '/' && v = unit '/' then isAuthority false (more.takeWhile (!endsHost false ·))
        else true
      | _ => true

end LimitBook.Config.Address
