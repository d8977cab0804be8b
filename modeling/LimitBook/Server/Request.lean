import LimitBook.Json.Printer
import LimitBook.Json.Reader
import LimitBook.Server.Target
import LimitBook.Text.Utf8

namespace LimitBook.Server

open Text

structure Request where
  method : Text
  url : Text
  body : Option Text
  contentType : Option Text

inductive Route where
  | submit
  | cancel (id : Text)
  | lookUp (id : Text)
  | depth (query : Json)
  | status
  | health
  | socket
  | probe
  | missing
  | malformed

namespace Route

/-- Longer ids name no order, whatever they hold. -/
def maxIdLength : Nat := 100

def reads (method : Text) : Bool := method = ofString "GET" || method = ofString "HEAD"

def ofFolders (method : Text) (query : Json) (folders : List Text) : Route :=
  match folders with
  | [a] =>
    if method = ofString "POST" && a = ofString "orders" then submit
    else if reads method && a = ofString "health" then health
    else if reads method && a = ofString "ws" then
      if method = ofString "GET" then socket else probe
    else missing
  | [a, b] =>
    if a = ofString "orders" then
      if maxIdLength < b.length then missing
      else if method = ofString "DELETE" then cancel b
      else if reads method then lookUp b
      else missing
    else if reads method && a = ofString "book" && b = ofString "depth" then depth query
    else if reads method && a = ofString "feed" && b = ofString "status" then status
    else missing
  | _ => missing

def ofTarget (method : Text) (t : Target) : Route :=
  match t.folders? with
  | some folders => ofFolders method t.queryJson folders
  | none => malformed

def leads : Route → Bool
  | missing | malformed => false
  | _ => true

end Route

inductive BodyFault where
  | empty
  | notJson
  /-- A field whose name would change the nature of the object it is part of. -/
  | forbidden
  | unsupported (contentType : Text)
  | tooLarge

namespace BodyFault

def status : BodyFault → Nat
  | unsupported _ => 415
  | tooLarge => 413
  | _ => 400

def message : BodyFault → Text
  | empty => "Body cannot be empty when content-type is set to 'application/json'"
  | notJson => "Body is not valid JSON"
  | forbidden => "Object contains forbidden prototype property"
  | unsupported t =>
    ofString "Unsupported Media Type: " ++ if t.isEmpty then ofString "undefined" else t
  | tooLarge => "Request body is too large"

end BodyFault

inductive Media where
  | json
  | plain
  | other
deriving DecidableEq, Repr

namespace Media

def named (name t : Text) : Bool :=
  name.isPrefixOf t &&
    match t.drop name.length with
    | [] => true
    | u :: _ => u == unit ';' || u == unit ' '

def ofText (t : Text) : Media :=
  if named "application/json" (lower t) then json
  else if named "text/plain" (lower t) then plain
  else other

end Media

mutual

def poisoned : Json → Bool
  | .arr items => poisonedItems items
  | .obj fields => poisonedFields fields
  | _ => false
termination_by structural j => j

def poisonedItems : List Json → Bool
  | [] => false
  | v :: vs => poisoned v || poisonedItems vs
termination_by structural vs => vs

def poisonedFields : List (Text × Json) → Bool
  | [] => false
  | f :: fs => poisonedField f || poisonedFields fs
termination_by structural fs => fs

def poisonedField : Text × Json → Bool
  | (key, v) =>
    key = ofString "__proto__" ||
      (key = ofString "constructor" && (v.field? "prototype").isSome) || poisoned v
termination_by structural f => f

end

namespace Request

def goal (r : Request) : Route := .ofTarget r.method (.ofUrl r.url)

def bodyLimit : Nat := 1048576

def hasBody (r : Request) : Bool := ["POST", "PUT", "PATCH"].any (ofString · = r.method)

/-- The methods whose requests may have one, which counts if its type is told. -/
def mayHaveBody (r : Request) : Bool := ["DELETE", "OPTIONS"].any (ofString · = r.method)

def bodiless (r : Request) : Bool := r.body.all (·.isEmpty)

def json (t : Text) : Except BodyFault Json :=
  if t.isEmpty then .error .empty
  else
    match Json.read? (if t.head? = some 0xFEFF then t.drop 1 else t) with
    | none => .error .notJson
    | some j => if poisoned j then .error .forbidden else .ok j

/-- The value of a body by its type. Where the request leads nowhere, a type that is not understood
does not matter. -/
def parse (text contentType : Text) (routed : Bool) : Except BodyFault (Option Json) :=
  let large := bodyLimit < (Utf8.encode text).length
  match Media.ofText contentType with
  | .json => if large then .error .tooLarge else (json text).map some
  | .plain => if large then .error .tooLarge else .ok (some (.str text))
  | .other => if routed then .error (.unsupported contentType) else .ok none

def bodyJson (r : Request) (routed : Bool) : Except BodyFault (Option Json) :=
  let parsed := parse (r.body.getD []) (r.contentType.getD []) routed
  if r.hasBody then
    if r.contentType.isNone && r.bodiless then .ok none else parsed
  else if r.mayHaveBody then
    if r.contentType.isNone || r.bodiless then .ok none else parsed
  else .ok none

end Request

end LimitBook.Server
