import LimitBook.Feed.Frame
import LimitBook.Feed.Reconciler
import LimitBook.Wire

namespace LimitBook

inductive Severity where
  | debug
  | info
  | warn
  | error
deriving DecidableEq, Repr

def Severity.name : Severity → String
  | debug => "debug"
  | info => "info"
  | warn => "warn"
  | error => "error"

inductive Note where
  | snapshotRejected (reason : UpdateFault) (update : LevelUpdate Float) (seqId : Float)
  | snapshotApplied (seqId : Float) (levels : Nat)
  | incrementRejected (reason : UpdateFault) (update : LevelUpdate Float) (seqId : Float)
  | sequenceFault (fault : Feed.SequenceFault Float) (count : Nat)
  | connecting (url : Text)
  | subscribing (channel instId : Text)
  | malformed (start : Text)
  | feedError (code msg : Option Text)
  | subscription (kind : Feed.EventKind)
  | otherInstrument (instId : Text)
  | listenerFailed (fault : Fault)
  | tooManyFaults (count : Nat)
  | disconnected (code : Float) (reason : Text)
  | socketFailed (fault : Fault) (stale : Bool)
  | orderRejected (id : OrderId) (reason : RejectReason)
  | filled (fill : Fill Float)
  | clientConnected (clients : Nat)
  | clientDisconnected (clients : Nat)
  | clientFailed (fault : Fault)
  | unhandled (fault : Fault)

def Fault.toJson (f : Fault) : Json :=
  .obj [("error", .str f.name), ("message", .str f.message)]

namespace Note

def severity : Note → Severity
  | snapshotRejected .. | incrementRejected .. | sequenceFault .. | malformed .. | tooManyFaults ..
  | disconnected .. => .warn
  | snapshotApplied .. | connecting .. | subscribing .. | subscription .. | orderRejected ..
  | filled .. => .info
  | feedError .. | listenerFailed .. | socketFailed .. | clientFailed .. | unhandled .. => .error
  | otherInstrument .. | clientConnected .. | clientDisconnected .. => .debug

def message : Note → String
  | snapshotRejected .. => "Snapshot rejected"
  | snapshotApplied .. => "Snapshot applied"
  | incrementRejected .. => "Incremental update rejected"
  | sequenceFault .. => "Sequence continuity fault"
  | connecting .. => "Connecting to feed"
  | subscribing .. => "Feed connected, subscribing"
  | malformed .. => "Dropped malformed feed frame"
  | feedError .. => "Feed error event"
  | subscription .. => "Feed subscription event"
  | otherInstrument .. => "Ignoring frame for another instrument"
  | listenerFailed .. => "Feed frame listener failed"
  | tooManyFaults .. => "Too many sequence faults, requesting fresh snapshot"
  | disconnected .. => "Feed disconnected"
  | socketFailed .. => "Feed socket error"
  | orderRejected .. => "Order rejected"
  | filled .. => "Fill"
  | clientConnected .. => "WS client connected"
  | clientDisconnected .. => "WS client disconnected"
  | clientFailed .. => "WS error"
  | unhandled .. => "Unhandled error"

def faultFields (f : Feed.SequenceFault Float) (count : Nat) : Json.Fields :=
  [("kind", .str f.kind.name), ("expectedPrevSeqId", .num f.expectedPrev),
    ("receivedPrevSeqId", .num f.receivedPrev), ("seqId", .num f.seqId),
    ("faultCount", .ofNat count)]

def rejection (reason : UpdateFault) (u : LevelUpdate Float) (seqId : Float) : Json :=
  .obj [("reason", .str reason.name), ("update", Wire.update u), ("seqId", .num seqId)]

def data : Note → Json
  | snapshotRejected reason u seqId => rejection reason u seqId
  | snapshotApplied seqId levels => .obj [("seqId", .num seqId), ("levels", .ofNat levels)]
  | incrementRejected reason u seqId => rejection reason u seqId
  | sequenceFault f count => .obj (faultFields f count)
  | connecting url => .obj [("url", .str url)]
  | subscribing channel instId => .obj [("channel", .str channel), ("instId", .str instId)]
  | malformed start => .obj [("frame", .str start)]
  | feedError code msg => .obj [("code", Json.ofOption .str code), ("msg", Json.ofOption .str msg)]
  | subscription kind => .obj [("event", .str kind.name)]
  | otherInstrument instId => .obj [("instId", .str instId)]
  | listenerFailed fault => .obj [("err", fault.toJson)]
  | tooManyFaults count => .obj [("faultCount", .ofNat count)]
  | disconnected code reason => .obj [("code", .num code), ("reason", .str reason)]
  | socketFailed fault stale => .obj [("err", fault.toJson), ("stale", .bool stale)]
  | orderRejected id reason =>
    .obj [("id", .str (Text.ofNat id)), ("reason", .str reason.name)]
  | filled f => Wire.fill f
  | clientConnected n => .obj [("clients", .ofNat n)]
  | clientDisconnected n => .obj [("clients", .ofNat n)]
  | clientFailed fault => .obj [("err", fault.toJson)]
  | unhandled fault => .obj [("err", fault.toJson)]

def ofSnapshot (e : Feed.Snapshot Float) : Feed.ReconcileResult Float → Note
  | .applied .. => snapshotApplied e.seqId e.updates.length
  | .rejected reason u => snapshotRejected reason u e.seqId

def ofIncrement (e : Feed.Increment Float) (faults : Nat) : Feed.ReconcileResult Float → List Note
  | .applied _ none _ => []
  | .applied _ (some f) _ => [sequenceFault f faults]
  | .rejected reason u => [incrementRejected reason u e.seqId]

end Note

end LimitBook
