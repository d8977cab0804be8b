import LimitBook.Book.Session

namespace LimitBook.Feed

inductive SyncState where
  | uninitialized
  | synced
  | gap
  | resyncing
deriving DecidableEq, Repr

def SyncState.name : SyncState → String
  | uninitialized => "UNINITIALIZED"
  | synced => "SYNCED"
  | gap => "GAP"
  | resyncing => "RESYNCING"

inductive FaultKind where
  | gap
  | maintenanceReset
deriving DecidableEq, Repr

def FaultKind.name : FaultKind → String
  | gap => "GAP"
  | maintenanceReset => "MAINTENANCE_RESET"

structure SequenceFault (α : Type) where
  kind : FaultKind
  expectedPrev : α
  receivedPrev : α
  seqId : α

/-- What is known of the feed: how far the book is in step, and the faults since the last
snapshot. -/
structure Tracker where
  state : SyncState
  faults : Nat
deriving DecidableEq, Repr

def Tracker.initial : Tracker := ⟨.uninitialized, 0⟩

structure Snapshot (α : Type) where
  seqId : α
  updates : List (LevelUpdate α)

structure Increment (α : Type) where
  seqId : α
  prevSeqId : α
  updates : List (LevelUpdate α)

inductive ReconcileResult (α : Type) where
  | applied (fills : List (Fill α)) (fault : Option (SequenceFault α)) (residualCross : Bool)
  | rejected (reason : UpdateFault) (update : LevelUpdate α)

namespace Tracker

def afterSnapshot (_ : Tracker) : Tracker := ⟨.synced, 0⟩

def afterFault (t : Tracker) : Tracker :=
  ⟨if t.state = .resyncing then .resyncing else .gap, t.faults + 1⟩

def markResyncing (t : Tracker) : Tracker := { t with state := .resyncing }

end Tracker

variable {α ω : Type} [Scalar α]

/-- The fault of an increment that arrives when `last` was the last number applied. -/
def continuityFault? (last : Option α) (e : Increment α) : Option (SequenceFault α) :=
  match last with
  | none => none
  | some last =>
    if e.prevSeqId == last then none
    else some {
      kind := if e.seqId < e.prevSeqId then .maintenanceReset else .gap
      expectedPrev := last
      receivedPrev := e.prevSeqId
      seqId := e.seqId }

abbrev FeedM (α ω : Type) := BookM α (Tracker × ω)

def tracker : FeedM α ω Tracker := do return (← BookM.outside).1

def modifyTracker (f : Tracker → Tracker) : FeedM α ω Unit :=
  BookM.modifyOutside fun w => (f w.1, w.2)

def markResyncing : FeedM α ω Unit := modifyTracker Tracker.markResyncing

/-- Starts the book afresh from a snapshot. A snapshot with a fault leaves the book alone. -/
def applySnapshot (clock : FeedM α ω α) (e : Snapshot α) : FeedM α ω (ReconcileResult α) := do
  match LevelUpdate.firstFault? e.updates with
  | some (reason, u) => return .rejected reason u
  | none =>
    Book.reset
    match ← Book.updateLevels clock e.updates with
    | .rejected reason u => return .rejected reason u
    | .applied fills residual =>
      Book.setSequenceId (some e.seqId)
      modifyTracker Tracker.afterSnapshot
      return .applied fills none residual

/-- Applies the updates of an increment. A break in the numbering is reported and counted, and the
increment is applied all the same; to ask for a fresh snapshot is the connection's business. -/
def applyIncrement (clock : FeedM α ω α) (e : Increment α) : FeedM α ω (ReconcileResult α) := do
  let fault := continuityFault? (← BookM.book).sequenceId e
  match ← Book.updateLevels clock e.updates with
  | .rejected reason u => return .rejected reason u
  | .applied fills residual =>
    if fault.isSome then modifyTracker Tracker.afterFault
    Book.setSequenceId (some e.seqId)
    return .applied fills fault residual

end LimitBook.Feed
