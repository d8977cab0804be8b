import LimitBook.Json
import LimitBook.Number.Format

namespace LimitBook.Input

inductive Kind where
  | absent
  | null
  | boolean
  | string
  | number
  | nan
  | array
  | object
deriving DecidableEq, Repr

namespace Kind

def name : Kind → String
  | absent => "undefined"
  | null => "null"
  | boolean => "boolean"
  | string => "string"
  | number => "number"
  | nan => "nan"
  | array => "array"
  | object => "object"

def ofFloat (x : Float) : Kind := if x.isNaN then nan else number

def ofJson : Json → Kind
  | .null => null
  | .bool _ => boolean
  | .num x => ofFloat x
  | .str _ => string
  | .arr _ => array
  | .obj _ => object

def ofJson? : Option Json → Kind
  | none => absent
  | some j => ofJson j

end Kind

inductive Issue where
  | wrongType (expected : Text) (received : Kind)
  | notListed (options : List String) (received : Text)
  | notInteger
  | tooSmall (minimum : Int)
  | tooBig (maximum : Int)
  | badPattern
  | idTooWide
  | neither (first second : Text) (received : Kind)
  | noText
  | badAddress
deriving DecidableEq, Repr

def listed (options : List String) : Text :=
  Text.join " | " (options.map fun o => Text.ofString ("'" ++ o ++ "'"))

def integer (n : Int) : Text :=
  if n < 0 then Text.unit '-' :: Text.ofNat n.natAbs else Text.ofNat n.natAbs

namespace Issue

def wrongTypeMessage (expected : Text) : Kind → Text
  | .absent => "Required"
  | received =>
    Text.ofString "Expected " ++ expected ++ Text.ofString ", received " ++ received.name

def message : Issue → Text
  | wrongType expected received => wrongTypeMessage expected received
  | notListed options received =>
    Text.ofString "Invalid enum value. Expected " ++ listed options ++
      Text.ofString ", received '" ++ received ++ Text.ofString "'"
  | notInteger => "Expected integer, received float"
  | tooSmall m => Text.ofString "Number must be greater than or equal to " ++ integer m
  | tooBig m => Text.ofString "Number must be less than or equal to " ++ integer m
  | badPattern => "Invalid"
  | idTooWide => "id must fit in 64 bits"
  | neither .. => "Invalid input"
  | noText => "String must contain at least 1 character(s)"
  | badAddress => "Invalid url"

def pathJson (path : List Text) : Json := Json.ofList .str path

def wrongTypeFields (path : List Text) (expected : Text) (received : Kind) : Json.Fields :=
  [("code", .str "invalid_type"), ("expected", .str expected), ("received", .str received.name),
    ("path", pathJson path), ("message", .str (wrongTypeMessage expected received))]

def attempt (path : List Text) (expected : Text) (received : Kind) : Json :=
  .obj [("issues", .arr [.obj (wrongTypeFields path expected received)]), ("name", .str "ZodError")]

def rangeFields (path : List Text) (issue : Issue) (code bound : String) (limit : Int) :
    Json.Fields :=
  [("code", .str code), (Text.ofString bound, .num (Float.ofInt limit)), ("type", .str "number"),
    ("inclusive", .bool true), ("exact", .bool false), ("message", .str issue.message),
    ("path", pathJson path)]

def fields (path : List Text) (issue : Issue) : Json.Fields :=
  match issue with
  | wrongType expected received => wrongTypeFields path expected received
  | notListed options received =>
    [("received", .str received), ("code", .str "invalid_enum_value"),
      ("options", Json.ofList (fun o : String => .str o) options), ("path", pathJson path),
      ("message", .str issue.message)]
  | notInteger =>
    [("code", .str "invalid_type"), ("expected", .str "integer"), ("received", .str "float"),
      ("message", .str issue.message), ("path", pathJson path)]
  | tooSmall m => rangeFields path issue "too_small" "minimum" m
  | tooBig m => rangeFields path issue "too_big" "maximum" m
  | badPattern =>
    [("validation", .str "regex"), ("code", .str "invalid_string"),
      ("message", .str issue.message), ("path", pathJson path)]
  | idTooWide =>
    [("code", .str "custom"), ("message", .str issue.message), ("path", pathJson path)]
  | neither first second received =>
    [("code", .str "invalid_union"),
      ("unionErrors", .arr [attempt path first received, attempt path second received]),
      ("path", pathJson path), ("message", .str issue.message)]
  | noText =>
    [("code", .str "too_small"), ("minimum", .num 1), ("type", .str "string"),
      ("inclusive", .bool true), ("exact", .bool false), ("message", .str issue.message),
      ("path", pathJson path)]
  | badAddress =>
    [("validation", .str "url"), ("code", .str "invalid_string"), ("message", .str issue.message),
      ("path", pathJson path)]

end Issue

structure Located where
  path : List Text
  issue : Issue
deriving DecidableEq, Repr

def Located.toJson (l : Located) : Json := .obj (l.issue.fields l.path)

/-- A value, or everything that is wrong with it. -/
abbrev Checked := Except (List Issue)

end LimitBook.Input
