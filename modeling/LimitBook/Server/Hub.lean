import LimitBook.Book.Session
import LimitBook.Json.Printer
import LimitBook.ReadyState
import LimitBook.Wire

namespace LimitBook.Server

structure Subscriber where
  state : ReadyState
  fault : Option Fault
  watched : Bool

def Subscriber.isOpen (s : Subscriber) : Bool := s.state = .opened

/-- All sockets that ever connected, by their numbers, and those of them that are followed now, in
the order in which they came. -/
structure Hub where
  sockets : List Subscriber
  clients : List Nat
  /-- The number of clients that are no sockets. They are never open and never leave. -/
  strays : Nat

/-- What was sent to whom, and the error that cut it short. -/
structure Delivery where
  sent : List (Nat × Text)
  fault : Option Fault

namespace Hub

def empty : Hub := ⟨[], [], 0⟩

def size (h : Hub) : Nat := h.clients.length + h.strays

def add (h : Hub) (s : Subscriber) : Nat × Hub :=
  let i := h.sockets.length
  (i, { h with sockets := h.sockets ++ [s], clients := h.clients ++ [i] })

def addStray (h : Hub) : Hub := { h with strays := h.strays + 1 }

def remove (h : Hub) (i : Nat) : Hub := { h with clients := h.clients.filter (· ≠ i) }

def update (h : Hub) (i : Nat) (f : Subscriber → Subscriber) : Hub :=
  { h with sockets := h.sockets.modify i f }

def sendTo (h : Hub) (i : Nat) (text : Text) : Delivery :=
  match h.sockets[i]? with
  | none => ⟨[], none⟩
  | some s =>
    match s.fault with
    | some fault => ⟨[], some fault⟩
    | none => ⟨[(i, text)], none⟩

def isOpen (h : Hub) (i : Nat) : Bool := (h.sockets[i]?).any Subscriber.isOpen

/-- Sends to sockets one after another, up to the first that raises an error. -/
def sendAll (h : Hub) : List (Nat × Text) → Delivery
  | [] => ⟨[], none⟩
  | (i, text) :: rest =>
    let d := h.sendTo i text
    match d.fault with
    | some _ => d
    | none =>
      let more := h.sendAll rest
      { more with sent := d.sent ++ more.sent }

def broadcast (h : Hub) (messages : List Json) : Delivery :=
  h.sendAll <| messages.flatMap fun m => (h.clients.filter h.isOpen).map fun i => (i, m.print)

end Hub

def fillMessage (f : Fill Float) : Json := .obj [("type", .str "fill"), ("data", Wire.fill f)]

def bookMessage (d : Book.Depth Float) (seq : Option Float) : Json :=
  let data : Json.Fields := [("sequenceId", Wire.sequenceId seq)]
  .obj [("type", .str "book_snapshot"), ("data", .obj (Wire.depth d ++ data))]

end LimitBook.Server
