import LimitBook.Book

namespace LimitBook

inductive Operation where
  | depth
  | submit
  | cancel
  | reset
  | updateLevel
  | updateLevels
  | setSequenceId
deriving DecidableEq, Repr

def Operation.name : Operation → String
  | depth => "depth"
  | submit => "submit"
  | cancel => "cancel"
  | reset => "applyExternalReset"
  | updateLevel => "applyExternalLevelUpdate"
  | updateLevels => "applyExternalLevelUpdates"
  | setSequenceId => "setSequenceId"

inductive Fault where
  | busy (operation : Operation)
  | raised (message : Text)
  | noFunction (name : String)

namespace Fault

def name : Fault → String
  | busy _ => "BookBusyError"
  | raised _ => "Error"
  | noFunction _ => "TypeError"

def message : Fault → Text
  | busy operation =>
    Text.ofString "Order book is busy; cannot start " ++ Text.ofString operation.name ++
      Text.ofString " while another operation is running"
  | raised text => text
  | noFunction name => Text.ofString name ++ Text.ofString " is not a function"

end Fault

/-- Computations on a book and its surroundings `ω`, which both keep their state on an error. -/
abbrev BookM (α ω : Type) := ExceptT Fault (StateM (Book α × ω))

namespace BookM

variable {α ω β : Type}

def book : BookM α ω (Book α) := do return (← get).1

def outside : BookM α ω ω := do return (← get).2

def modifyBook (f : Book α → Book α) : BookM α ω Unit := modify fun s => (f s.1, s.2)

def modifyOutside (f : ω → ω) : BookM α ω Unit := modify fun s => (s.1, f s.2)

def modifyGetBook (f : Book α → β × Book α) : BookM α ω β :=
  modifyGet fun s => let (r, b) := f s.1; (r, (b, s.2))

/-- Runs `body` as the one operation on the book, and frees the book again however it ends. Whatever
tells the time to an operation may use the same book, which then refuses to start another one. -/
def exclusive (operation : Operation) (body : BookM α ω β) : BookM α ω β :=
  ExceptT.mk fun s =>
    if s.1.busy then (.error (.busy operation), s)
    else
      let (r, s) := body.run ({ s.1 with busy := true }, s.2)
      (r, ({ s.1 with busy := false }, s.2))

def attempt (body : BookM α ω β) : BookM α ω (Except Fault β) :=
  ExceptT.mk fun s => let (r, s) := body.run s; (.ok r, s)

end BookM

namespace Book

open BookM

variable {α ω : Type} [Scalar α]

def setSequenceId (seq : Option α) : BookM α ω Unit :=
  exclusive .setSequenceId (modifyBook fun b => { b with sequenceId := seq })

def depth (levels : α) : BookM α ω (Depth α) :=
  exclusive .depth do return (← book).view (Scalar.floorNat levels)

def submit (clock : BookM α ω α) (s : Submission α) : BookM α ω (SubmitResult α) :=
  exclusive .submit do
    match (← book).refusal? s with
    | some reason => return .rejected reason
    | none =>
      let now ← clock
      modifyGetBook fun b => b.accept s now

def cancel (id : OrderId) : BookM α ω (CancelResult α) :=
  exclusive .cancel (modifyGetBook fun b => b.remove id)

def reset : BookM α ω Unit := exclusive .reset (modifyBook clear)

def applyLevel (clock : BookM α ω α) (u : LevelUpdate α) : BookM α ω (List (Fill α) × Bool) := do
  if negligible u.totalQty then modifyBook (·.dropAggregate u)
  else
    modifyBook (·.resize u)
    let now ← clock
    modifyBook (·.stamp u now)
  modifyGetBook uncross

def applyLevels (clock : BookM α ω α) :
    List (LevelUpdate α) → List (Fill α) × Bool → BookM α ω (List (Fill α) × Bool)
  | [], r => return r
  | u :: us, (fills, _) => do
    let (more, residual) ← applyLevel clock u
    applyLevels clock us (fills ++ more, residual)

def updateLevel (clock : BookM α ω α) (u : LevelUpdate α) : BookM α ω (UpdateResult α) :=
  exclusive .updateLevel do
    match u.fault? with
    | some reason => return .rejected reason u
    | none =>
      let (fills, residual) ← applyLevel clock u
      return .applied fills residual

/-- Applies updates in order. If one of them has a fault, none is applied. -/
def updateLevels (clock : BookM α ω α) (us : List (LevelUpdate α)) : BookM α ω (UpdateResult α) :=
  exclusive .updateLevels do
    match LevelUpdate.firstFault? us with
    | some (reason, u) => return .rejected reason u
    | none =>
      let (fills, residual) ← applyLevels clock us ([], false)
      return .applied fills residual

end Book

end LimitBook
