import LimitBook.Json
import LimitBook.Text.Blank
import LimitBook.Text.Percent

namespace LimitBook.Server

open Text

structure Target where
  path : Text
  query : Text
  full : Text

namespace Target

def dots (t : Text) : Nat :=
  let t := lower t
  if t = ofString "." || t = ofString "%2e" then 1
  else if t = ofString ".." || t = ofString ".%2e" || t = ofString "%2e." || t = ofString "%2e%2e"
  then 2
  else 0

/-- Folders with the dotted ones resolved; those passed so far are given in reverse. -/
def resolve (rev : List Text) : List Text → List Text
  | [] => rev.reverse
  | s :: rest =>
    let last (r : List Text) : List Text := if rest.isEmpty then [] :: r else r
    match dots s with
    | 1 => resolve (last rev) rest
    | 2 => resolve (last rev.tail) rest
    | _ => resolve (s :: rev) rest

def escapedInPath (n : Nat) : Bool :=
  n ≤ 0x20 || [0x22, 0x23, 0x3C, 0x3E, 0x3F, 0x60, 0x7B, 0x7D].contains n

def escapedInQuery (n : Nat) : Bool :=
  n ≤ 0x20 || [0x22, 0x23, 0x27, 0x3C, 0x3E].contains n

/-- A path starts with a slash, a backslash counts as one, and dotted folders are resolved. -/
def normalPath (t : Text) : Text :=
  let t := t.map fun u => if u = unit '\\' then unit '/' else u
  let folders := splitOn (unit '/') (if t.head? = some (unit '/') then t.drop 1 else t)
  Percent.encode escapedInPath <|
    (resolve [] folders).flatMap fun folder => unit '/' :: folder

/-- A target as it is sent: without a fragment, and without a query that is empty. -/
def normal (url : Text) : Text :=
  let t := (tidy url).takeWhile (· != unit '#')
  let (path, query) := breakAt (· == unit '?') t
  normalPath path ++
    if query.length ≤ 1 then [] else unit '?' :: Percent.encode escapedInQuery (query.drop 1)

def ofUrl (url : Text) : Target :=
  let full := normal url
  let (path, rest) := breakAt (fun u => u == unit '?' || u == unit ';') full
  { path, query := rest.drop 1, full }

/-- The folders of the path with their escapes undone; `none` if there is an escape that is none. -/
def folders? (t : Target) : Option (List Text) :=
  (splitOn (unit '/') (t.path.drop 1)).mapM Percent.decode?

/-- A part of a query: a plus is a blank, and escapes that are none stand for themselves. -/
def queryText (t : Text) : Text :=
  let t := t.map fun u => if u = unit '+' then unit ' ' else u
  (Percent.decode? t).getD t

def queryField? (t : Text) : Option (Text × Text) :=
  if t.isEmpty then none
  else
    let (key, value) := breakAt (· == unit '=') t
    some (queryText key, queryText (value.drop 1))

/-- The value of a field that comes up again is the list of all its values. -/
def addField (fs : Json.Fields) (f : Text × Text) : Json.Fields :=
  let v := Json.str f.2
  match Json.get? f.1 fs with
  | none => Json.put f.1 v fs
  | some (.arr vs) => Json.put f.1 (.arr (vs ++ [v])) fs
  | some w => Json.put f.1 (.arr [w, v]) fs

def queryJson (t : Target) : Json :=
  .obj (((splitOn (unit '&') t.query).filterMap queryField?).foldl addField [])

end Target

end LimitBook.Server
