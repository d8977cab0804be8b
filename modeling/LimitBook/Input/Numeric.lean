import LimitBook.Input.Issue

namespace LimitBook.Input

structure Range where
  minimum : Int
  maximum : Option Int

namespace Range

/-- What keeps a number from being an integer of the range; every fault is listed. -/
def issues (r : Range) (x : Float) : List Issue :=
  (if Number.isInteger x then [] else [.notInteger]) ++
  (if x < Float.ofInt r.minimum then [.tooSmall r.minimum] else []) ++
  match r.maximum with
  | some m => if Float.ofInt m < x then [.tooBig m] else []
  | none => []

def check (r : Range) (x : Float) : Checked Nat :=
  if x.isNaN then .error [.wrongType "number" .nan]
  else match r.issues x with
    | [] => .ok (Number.truncate x).toNat
    | issues => .error issues

end Range

mutual

/-- A part of a list as text: null is nothing, a list its own parts between commas, and an object
only its kind, which no numeral holds. -/
def itemText : Json → Text
  | .null => []
  | .bool true => "true"
  | .bool false => "false"
  | .num x => Number.plain.format x
  | .str t => t
  | .arr items => itemsText items
  | .obj _ => "object"
termination_by structural j => j

def itemsText : List Json → Text
  | [] => []
  | j :: js => itemText j ++ moreText js
termination_by structural js => js

def moreText : List Json → Text
  | [] => []
  | j :: js => Text.unit ',' :: itemText j ++ moreText js
termination_by structural js => js

end

/-- A value as a number; null is zero, and an object is none. -/
def asNumber : Json → Float
  | .null => 0
  | .bool b => if b then 1 else 0
  | .num x => x
  | .str t => Number.ofText t
  | .arr items => Number.ofText (itemsText items)
  | .obj _ => Number.nan

end LimitBook.Input
