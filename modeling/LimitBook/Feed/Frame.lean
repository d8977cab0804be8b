import LimitBook.Book
import LimitBook.Json.Reader

namespace LimitBook.Feed

inductive Action where
  | snapshot
  | update
deriving DecidableEq, Repr

def Action.name : Action → String
  | snapshot => "snapshot"
  | update => "update"

structure BookFrame where
  action : Action
  channel : Text
  instId : Text
  seqId : Float
  prevSeqId : Float
  ts : Option Float
  /-- The bids before the asks, each in the order of the exchange. -/
  updates : List (LevelUpdate Float)

inductive EventKind where
  | subscribe
  | unsubscribe
  | error
deriving DecidableEq, Repr

def EventKind.name : EventKind → String
  | subscribe => "subscribe"
  | unsubscribe => "unsubscribe"
  | error => "error"

inductive Frame where
  | book (frame : BookFrame)
  | event (kind : EventKind) (code msg : Option Text)
  | pong

namespace Frame

open Text

/-- Digits, and digits after a point if there is one: no sign, blank or exponent. -/
def isAmount (t : Text) : Bool :=
  let whole := t.takeWhile isDigit
  !whole.isEmpty &&
    match t.dropWhile isDigit with
    | [] => true
    | u :: fraction => u == unit '.' && !fraction.isEmpty && fraction.all isDigit

def amount? : Json → Option Float
  | .str t =>
    if isAmount t then
      let x := Number.ofText t
      if x.isFinite then some x else none
    else none
  | _ => none

def text? : Json → Option Text
  | .str t => some t
  | _ => none

def integer? : Json → Option Float
  | .num x => if Number.isInteger x then some x else none
  | _ => none

def optional? (read : Json → Option α) : Option Json → Option (Option α)
  | none => some none
  | some j => (read j).map some

/-- The price and the size of a level; whatever follows them has to be text. -/
def level? (side : Side) : Json → Option (LevelUpdate Float)
  | .arr (price :: qty :: more) => do
    let price ← amount? price
    let totalQty ← amount? qty
    if more.all fun j => (text? j).isSome then some { side, price, totalQty } else none
  | _ => none

def levels? (side : Side) : Json → Option (List (LevelUpdate Float))
  | .arr items => items.mapM (level? side)
  | _ => none

def arg? (j : Json) : Option (Text × Text) := do
  let channel ← (j.field? "channel").bind text?
  let instId ← (j.field? "instId").bind text?
  return (channel, instId)

def action? : Json → Option Action
  | .str t =>
    if t = ofString "snapshot" then some .snapshot
    else if t = ofString "update" then some .update
    else none
  | _ => none

def payload? : Json → Option Json
  | .arr [j] => some j
  | _ => none

def book? (j : Json) : Option BookFrame := do
  let (channel, instId) ← (j.field? "arg").bind arg?
  let action ← (j.field? "action").bind action?
  let data ← (j.field? "data").bind payload?
  let asks ← (data.field? "asks").bind (levels? .sell)
  let bids ← (data.field? "bids").bind (levels? .buy)
  let ts ← optional? text? (data.field? "ts")
  let _ ← optional? integer? (data.field? "checksum")
  let prevSeqId ← (data.field? "prevSeqId").bind integer?
  let seqId ← (data.field? "seqId").bind integer?
  return { action, channel, instId, seqId, prevSeqId, ts := ts.map Number.ofText,
           updates := bids ++ asks }

def kind? : Json → Option EventKind
  | .str t =>
    if t = ofString "subscribe" then some .subscribe
    else if t = ofString "unsubscribe" then some .unsubscribe
    else if t = ofString "error" then some .error
    else none
  | _ => none

def event? (j : Json) : Option Frame := do
  let kind ← (j.field? "event").bind kind?
  let _ ← optional? arg? (j.field? "arg")
  let code ← optional? text? (j.field? "code")
  let msg ← optional? text? (j.field? "msg")
  return .event kind code msg

def ofJson? (j : Json) : Option Frame := ((book? j).map .book).orElse fun _ => event? j

/-- The frame that a text holds; nothing for a text that is malformed or of no known kind. -/
def ofText? (t : Text) : Option Frame :=
  if t = ofString "pong" then some .pong else (Json.read? t).bind ofJson?

end Frame

end LimitBook.Feed
