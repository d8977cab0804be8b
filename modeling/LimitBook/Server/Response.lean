import LimitBook.Input.Request
import LimitBook.Note
import LimitBook.Server.Hub
import LimitBook.Server.Request

namespace LimitBook.Server

structure Response where
  status : Nat
  body : Option Json
  notes : List Note
  sent : List (Nat × Text)
  stray : Bool

namespace Response

def bare (status : Nat) (body : Option Json) : Response := ⟨status, body, [], [], false⟩

def plain (status : Nat) (body : Json) : Response := bare status (some body)

def problem (status : Nat) (message : Text) : Response :=
  plain status (.obj [("error", .str message)])

def invalid (issues : List Input.Located) : Response :=
  plain 400 (.obj [("error", .str "Validation error"),
    ("details", Json.ofList Input.Located.toJson issues)])

def notFound (method full : Text) : Response :=
  plain 404 (.obj [
    ("message", .str (Text.ofString "Route " ++ method ++ Text.unit ':' :: full ++
      Text.ofString " not found")),
    ("error", .str "Not Found"), ("statusCode", .num 404)])

def badTarget (full : Text) : Response :=
  plain 400 (.obj [("error", .str "Bad Request"), ("code", .str "FST_ERR_BAD_URL"),
    ("message", .str (Text.ofString "'" ++ full ++ Text.ofString "' is not a valid url component")),
    ("statusCode", .num 400)])

def orderNotFound : Response := problem 404 "Order not found"

def rejectStatus : RejectReason → Nat
  | .duplicateId => 409
  | _ => 400

def rejected (id : OrderId) (reason : RejectReason) : Response :=
  { plain (rejectStatus reason) (.obj [("error", .str "Order rejected"),
      ("reason", .str reason.name)]) with notes := [.orderRejected id reason] }

def placed (status : Status) (fills : List (Fill Float)) (resting : Float) (order : Order Float) :
    Response :=
  { plain 201 (.obj [("status", .str status.name), ("restingQty", .num resting),
      ("order", Wire.order order), ("fills", Json.ofList Wire.fill fills)]) with
    notes := fills.map .filled }

def cancelled (order : Option (Order Float)) : Response :=
  plain 200 (.obj [("cancelled", .bool true), ("order", Json.ofOption Wire.order order)])

def failed (notes : List Note) (sent : List (Nat × Text)) (fault : Fault) : Response :=
  { problem 500 "Internal server error" with notes := notes ++ [.unhandled fault], sent }

def announced (r : Response) (d : Delivery) : Response :=
  match d.fault with
  | some fault => failed r.notes d.sent fault
  | none => { r with sent := d.sent }

def cut (r : Response) (method : Text) : Response :=
  if method = Text.ofString "HEAD" then { r with body := none } else r

end Response

def Hub.answered (h : Hub) (r : Response) : Hub := if r.stray then h.addStray else h

def submission (o : Input.NewOrder) (symbol : Text) : Submission Float :=
  { id := o.id, side := o.side, price := o.price, quantity := o.quantity, symbol }

/-- What answers depend on beside the book and the feed. -/
structure Context where
  depthLevels : Float
  hub : Hub
  connected : Bool

variable {ω : Type}

namespace Context

def snapshot (c : Context) : BookM Float ω Json := do
  let d ← Book.depth c.depthLevels
  return bookMessage d (← BookM.book).sequenceId

def submit (c : Context) (clock : BookM Float ω Float) (body : Option Json) :
    BookM Float ω Response := do
  match Input.newOrder body with
  | .error issues => return .invalid issues
  | .ok o =>
    match ← Book.submit clock (submission o (← BookM.book).symbol) with
    | .rejected reason => return .rejected o.id reason
    | .accepted status fills resting order =>
      let messages := fills.map fillMessage ++ [← c.snapshot]
      return (Response.placed status fills resting order).announced (c.hub.broadcast messages)

def cancel (c : Context) (id : OrderId) : BookM Float ω Response := do
  let r ← Book.cancel id
  if r.found then
    return (Response.cancelled r.order).announced (c.hub.broadcast [← c.snapshot])
  else return .orderNotFound

def lookUp (id : OrderId) : BookM Float ω Response := do
  match (← BookM.book).getOrder? id with
  | some o => return .plain 200 (Wire.order o)
  | none => return .orderNotFound

def depth (c : Context) (query : Json) : BookM Float ω Response := do
  match Input.depthQuery (some query) with
  | .error issues => return .invalid issues
  | .ok levels =>
    let d ← Book.depth ((levels.map Float.ofNat).getD c.depthLevels)
    let b ← BookM.book
    let head : Json.Fields :=
      [("symbol", .str b.symbol), ("sequenceId", Wire.sequenceId b.sequenceId)]
    return .plain 200 (.obj (head ++ Wire.depth d))

def status (c : Context) : Feed.FeedM Float ω Response := do
  let t ← Feed.tracker
  return .plain 200 (.obj [("state", .str t.state.name),
    ("sequenceId", Wire.sequenceId (← BookM.book).sequenceId),
    ("faultCount", .ofNat t.faults), ("connected", .bool c.connected)])

/-- Where only the head is asked for, the request is welcomed in place of a socket. It becomes a
client, but nothing can be sent to it. -/
def probe (c : Context) : BookM Float ω Response := do
  let _ ← c.snapshot
  return { Response.failed [.clientConnected (c.hub.size + 1)] [] (.noFunction "socket.send") with
    stray := true }

def withId (id : Text) (f : OrderId → BookM Float ω Response) : BookM Float ω Response :=
  match Input.orderPath (some (.obj [("id", .str id)])) with
  | .ok id => f id
  | .error issues => return .invalid issues

def route (c : Context) (clock : Feed.FeedM Float ω Float) (r : Request) (t : Target)
    (body : Option Json) : Route → Feed.FeedM Float ω Response
  | .submit => c.submit clock body
  | .cancel id => withId id c.cancel
  | .lookUp id => withId id lookUp
  | .depth query => c.depth query
  | .status => c.status
  | .health => return .plain 200 (.obj [("status", .str "ok")])
  | .socket => return .bare 404 none
  | .probe => c.probe
  | .missing => return .notFound r.method t.full
  | .malformed => return .badTarget t.full

/-- The answer to a request. An error on the way is noted and told as a failure. -/
def respond (c : Context) (clock : Feed.FeedM Float ω Float) (r : Request) :
    Feed.FeedM Float ω Response := do
  let target := Target.ofUrl r.url
  match r.goal with
  | .malformed => return (Response.badTarget target.full).cut r.method
  | goal =>
    match r.bodyJson goal.leads with
    | .error fault => return .problem fault.status fault.message
    | .ok body =>
      match ← BookM.attempt (c.route clock r target body goal) with
      | .ok answer => return answer.cut r.method
      | .error fault => return (Response.failed [] [] fault).cut r.method

/-- Follows a new socket and shows it the book. The socket is heard of from then on, unless it could
not be sent the book. -/
def welcome (c : Context) (s : Subscriber) : BookM Float ω (Nat × Hub × List Note × Delivery) := do
  let (i, hub) := c.hub.add s
  let notes := [Note.clientConnected hub.size]
  let d := hub.sendTo i (← c.snapshot).print
  if d.fault.isSome then return (i, hub, notes, d)
  else return (i, hub.update i fun s => { s with watched := true }, notes, d)

end Context

namespace Hub

def isWatched (h : Hub) (i : Nat) : Bool := (h.sockets[i]?).any (·.watched)

def closed (h : Hub) (i : Nat) : Hub × List Note :=
  if h.isWatched i then
    let h := h.remove i
    (h, [.clientDisconnected h.size])
  else (h, [])

def failed (h : Hub) (i : Nat) (fault : Fault) : Hub × List Note :=
  if h.isWatched i then (h.remove i, [.clientFailed fault]) else (h, [])

end Hub

end LimitBook.Server
