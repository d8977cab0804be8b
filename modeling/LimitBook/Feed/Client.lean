import LimitBook.Feed.Request
import LimitBook.Feed.Timers
import LimitBook.Note

namespace LimitBook.Feed

structure Settings where
  url : Text
  channel : Text
  instId : Text
  reconnectDelay : Nat
  pingInterval : Nat
  /-- The faults since the last snapshot that make the client ask for a new one. -/
  maxSequenceFaults : Nat

abbrev Socket := Nat

/-- Someone who wants to hear of applied frames, and the error that hearing of one raises. -/
structure Listener where
  id : Nat
  fault : Option Fault

/-- The client's side of the feed. Sockets are known by the generation in which they were opened;
what comes from an older one does not count. -/
structure Client where
  settings : Settings
  socket : Option Socket
  /-- Counts the sockets opened and the stops. -/
  generation : Nat
  connected : Bool
  stopped : Bool
  timers : Timers
  listeners : List Listener

inductive Output where
  | connect (socket : Socket) (url : Text)
  | send (socket : Socket) (text : Text)
  | close (socket : Socket)
  | note (note : Note)
  | heard (listener : Nat) (frame : BookFrame) (result : ReconcileResult Float)

namespace Client

def create (settings : Settings) : Client :=
  { settings, socket := none, generation := 0, connected := false, stopped := true,
    timers := .idle, listeners := [] }

def isCurrent (c : Client) (s : Socket) : Bool := s == c.generation

def send (c : Client) (text : Text) : List Output :=
  match c.socket with
  | some s => [.send s text]
  | none => []

def request (c : Client) (r : Request) : List Output :=
  c.send (r.text c.settings.channel c.settings.instId)

def listen (c : Client) (l : Listener) : Client := { c with listeners := c.listeners ++ [l] }

def unlisten (c : Client) (id : Nat) : Bool × Client :=
  (c.listeners.any (·.id == id), { c with listeners := c.listeners.filter (·.id != id) })

def connect (c : Client) : Client × List Output :=
  let socket := c.generation + 1
  ({ c with generation := socket, socket := some socket },
    [.note (.connecting c.settings.url), .connect socket c.settings.url])

def start (c : Client) : Client × List Output :=
  if c.stopped then { c with stopped := false }.connect else (c, [])

def stop (c : Client) : Client × List Output :=
  ({ c with
      stopped := true
      generation := c.generation + 1
      timers := c.timers.clearReconnect.clearPing
      socket := none
      connected := false },
    match c.socket with
    | some s => [.close s]
    | none => [])

def startPing (c : Client) : Client :=
  let timers := c.timers.clearPing
  if c.settings.pingInterval = 0 then { c with timers }
  else { c with timers := timers.setPing c.settings.pingInterval }

def opened (c : Client) (s : Socket) : Client × List Output :=
  if c.isCurrent s then
    ({ c with connected := true }.startPing,
      .note (.subscribing c.settings.channel c.settings.instId) :: c.request .subscribe)
  else (c, [])

def failed (c : Client) (s : Socket) (fault : Fault) : List Output :=
  [.note (.socketFailed fault (!c.isCurrent s))]

variable {ω : Type}

def scheduleReconnect (c : Client) : Client :=
  if c.timers.reconnect.isSome then c
  else { c with timers := c.timers.setReconnect c.settings.reconnectDelay }

/-- The next subscription starts with a snapshot, so the book counts as resyncing from now on. -/
def closed (c : Client) (s : Socket) (code : Float) (reason : Text) :
    FeedM Float ω (Client × List Output) := do
  if c.isCurrent s then
    let c := { c with connected := false, socket := none, timers := c.timers.clearPing }
    if c.stopped then return (c, [])
    else
      markResyncing
      return (c.scheduleReconnect, [.note (.disconnected code reason)])
  else return (c, [])

def tell (c : Client) (frame : BookFrame) (result : ReconcileResult Float) : List Output :=
  c.listeners.flatMap fun l =>
    .heard l.id frame result ::
      match l.fault with
      | some fault => [.note (.listenerFailed fault)]
      | none => []

/-- Asks for a fresh snapshot by leaving the channel and subscribing again. -/
def resync (c : Client) : FeedM Float ω (List Output) := do
  let faults := (← tracker).faults
  markResyncing
  return .note (.tooManyFaults faults) :: c.request .unsubscribe ++ c.request .subscribe

def reconcile (clock : FeedM Float ω Float) (frame : BookFrame) :
    FeedM Float ω (ReconcileResult Float × List Note) := do
  match frame.action with
  | .snapshot =>
    let e : Snapshot Float := ⟨frame.seqId, frame.updates⟩
    let result ← applySnapshot clock e
    return (result, [Note.ofSnapshot e result])
  | .update =>
    let e : Increment Float := ⟨frame.seqId, frame.prevSeqId, frame.updates⟩
    let result ← applyIncrement clock e
    return (result, Note.ofIncrement e (← tracker).faults result)

def needsResync (c : Client) (frame : BookFrame) (t : Tracker) : Bool :=
  frame.action = .update && c.settings.maxSequenceFaults ≤ t.faults && t.state ≠ .resyncing

def bookFrame (c : Client) (clock : FeedM Float ω Float) (frame : BookFrame) :
    FeedM Float ω (List Output) := do
  if frame.instId = c.settings.instId then
    let (result, notes) ← reconcile clock frame
    let told := notes.map .note ++ c.tell frame result
    if c.needsResync frame (← tracker) then return told ++ (← c.resync) else return told
  else return [.note (.otherInstrument frame.instId)]

def excerptLength : Nat := 200

def message (c : Client) (clock : FeedM Float ω Float) (s : Socket) (text : Text) :
    FeedM Float ω (List Output) := do
  if c.isCurrent s then
    match Frame.ofText? text with
    | none => return [.note (.malformed (text.take excerptLength))]
    | some .pong => return []
    | some (.event .error code msg) => return [.note (.feedError code msg)]
    | some (.event kind _ _) => return [.note (.subscription kind)]
    | some (.book frame) => c.bookFrame clock frame
  else return []

def ring (c : Client) (x : Bell × Alarm) : Client × List Output :=
  let c := { c with timers := c.timers.ring c.settings.pingInterval x }
  match x.1 with
  | .reconnect => if c.stopped then (c, []) else c.connect
  | .ping => if c.connected then (c, c.send "ping") else (c, [])

def runUntil (time : Nat) : Nat → Client → Client × List Output
  | 0, c => ({ c with timers := { c.timers with now := time } }, [])
  | fuel + 1, c =>
    match c.timers.dueBy? time with
    | none => ({ c with timers := { c.timers with now := time } }, [])
    | some x =>
      let (c, outs) := c.ring x
      let (c, more) := runUntil time fuel c
      (c, outs ++ more)

/-- Lets time pass. A ping goes off at most once in a unit of time and a reconnect once in all,
which bounds the number of timers. -/
def advance (c : Client) (ms : Nat) : Client × List Output :=
  runUntil (c.timers.now + ms) (ms + 2) c

end Client

end LimitBook.Feed
