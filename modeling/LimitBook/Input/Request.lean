import LimitBook.Input.Numeric
import LimitBook.Order

namespace LimitBook.Input

def idRange : Range := ⟨0, some (Number.twoPow 53 - 1)⟩

def maxId : Nat := Number.twoPow 64 - 1

def isIdText (t : Text) : Bool := t.all Text.isDigit && 1 ≤ t.length && t.length ≤ 20

/-- An id, as decimal text or as a number that a double holds exactly. -/
def orderId : Option Json → Checked OrderId
  | some (.str t) =>
    if isIdText t then
      let n := (Text.toNat? 10 t).getD 0
      if n ≤ maxId then .ok n else .error [.idTooWide]
    else .error [.badPattern]
  | some (.num x) => idRange.check x
  | other => .error [.neither "string" "number" (Kind.ofJson? other)]

def sideOptions : List String := [Side.buy.name, Side.sell.name]

def side : Option Json → Checked Side
  | some (.str t) =>
    if t = Text.ofString Side.buy.name then .ok .buy
    else if t = Text.ofString Side.sell.name then .ok .sell
    else .error [.notListed sideOptions t]
  | other => .error [.wrongType (listed sideOptions) (Kind.ofJson? other)]

def number : Option Json → Checked Float
  | some (.num x) => .ok x
  | other => .error [.wrongType "number" (Kind.ofJson? other)]

def located (name : Text) : Checked α → List Located
  | .ok _ => []
  | .error issues => issues.map fun i => ⟨[name], i⟩

def notObject (j : Option Json) : List Located := [⟨[], .wrongType "object" (Kind.ofJson? j)⟩]

structure NewOrder where
  id : OrderId
  side : Side
  price : Float
  quantity : Float

def newOrder : Option Json → Except (List Located) NewOrder
  | some (.obj fs) =>
    let id := orderId (Json.get? "id" fs)
    let side := side (Json.get? "side" fs)
    let price := number (Json.get? "price" fs)
    let quantity := number (Json.get? "quantity" fs)
    match id, side, price, quantity with
    | .ok id, .ok side, .ok price, .ok quantity => .ok { id, side, price, quantity }
    | _, _, _, _ =>
      .error (located "id" id ++ located "side" side ++ located "price" price ++
        located "quantity" quantity)
  | other => .error (notObject other)

def orderPath : Option Json → Except (List Located) OrderId
  | some (.obj fs) =>
    match orderId (Json.get? "id" fs) with
    | .ok id => .ok id
    | .error issues => .error (located "id" (.error issues : Checked OrderId))
  | other => .error (notObject other)

def levelsRange : Range := ⟨1, some 100⟩

def depthQuery : Option Json → Except (List Located) (Option Nat)
  | some (.obj fs) =>
    match Json.get? "levels" fs with
    | none => .ok none
    | some j =>
      match levelsRange.check (asNumber j) with
      | .ok n => .ok (some n)
      | .error issues => .error (located "levels" (.error issues : Checked Nat))
  | other => .error (notObject other)

end LimitBook.Input
