import LimitBook.Text

namespace LimitBook

/-- JSON values. An object keeps its fields in the order in which their names first came, each name
once. -/
inductive Json where
  | null
  | bool (b : Bool)
  | num (x : Float)
  | str (t : Text)
  | arr (items : List Json)
  | obj (fields : List (Text × Json))
deriving Inhabited

namespace Json

abbrev Fields := List (Text × Json)

/-- The fields with `key` set to `v`, in its old place if it had one. -/
def put (key : Text) (v : Json) : Fields → Fields
  | [] => [(key, v)]
  | (k, w) :: fs => if k = key then (k, v) :: fs else (k, w) :: put key v fs

def get? (key : Text) : Fields → Option Json
  | [] => none
  | (k, v) :: fs => if k = key then some v else get? key fs

def field? (key : Text) : Json → Option Json
  | .obj fs => get? key fs
  | _ => none

def ofOption (f : α → Json) : Option α → Json
  | none => .null
  | some a => f a

def ofNat (n : Nat) : Json := .num (Float.ofNat n)

def ofList (f : α → Json) (xs : List α) : Json := .arr (xs.map f)

end Json

end LimitBook
