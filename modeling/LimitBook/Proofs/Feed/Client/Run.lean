import Mathlib.Logic.Function.Basic
import LimitBook.Feed.Client
import LimitBook.Feed.Connection
import LimitBook.Proofs.Book.Call

namespace LimitBook.Feed

open Book BookM

namespace Connection

def told (k : Connection) : Signal → Connection
  | .opened => { k with state := .opened }
  | .closed .. => { k with state := .closed }
  | .message _ | .failed _ => k

theorem receive_eq (k : Connection) (a : Arrival) : (k.receive a).1 = k.told (k.receive a).2 := by
  cases a <;> rfl

/-- May the connection tell its owner this, as far as it has come? -/
def mayTell (k : Connection) : Signal → Bool
  | .opened => k.state = .connecting
  | .message _ => k.state = .opened
  | .closed .. => k.state ≠ .closed
  | .failed _ => true

end Connection

abbrev Connections := Socket → Option Connection

namespace Connections

def tell (ks : Connections) (s : Socket) (sig : Signal) : Connections :=
  Function.update ks s ((ks s).map (·.told sig))

def wire (ks : Connections) : Output → Connections
  | .connect s url => Function.update ks s (some (.create url))
  | .close s => Function.update ks s ((ks s).map (·.close))
  | .send .. | .note _ | .heard .. => ks

def wireAll (ks : Connections) (outputs : List Output) : Connections := outputs.foldl wire ks

theorem wireAll_append (ks : Connections) (outputs more : List Output) :
    ks.wireAll (outputs ++ more) = (ks.wireAll outputs).wireAll more := List.foldl_append ..

end Connections

def Timers.alarm? (t : Timers) : Bell → Option Alarm
  | .reconnect => t.reconnect
  | .ping => t.ping

theorem Timers.alarm?_of_dueBy? {t : Timers} {time : Nat} {bell : Bell} {a : Alarm}
    (h : t.dueBy? time = some (bell, a)) : t.alarm? bell = some a := by
  obtain ⟨hnext, -⟩ := Option.filter_eq_some_iff.mp h
  unfold Timers.next? at hnext
  split at hnext
  case h_1 => cases hnext
  case h_2 hr hp =>
    cases hnext
    exact hr
  case h_3 hr hp =>
    cases hnext
    exact hp
  case h_4 a' b hr hp =>
    by_cases hfirst : a'.before b = true
    · rw [if_pos hfirst] at hnext
      cases hnext
      exact hr
    · rw [if_neg hfirst] at hnext
      cases hnext
      exact hp

/-- What may happen to a client or to the book under it. -/
inductive Happening where
  | start
  | stop
  | signal (s : Socket) (sig : Signal)
  | ring (bell : Bell)
  | lapse (time : Nat)
  | listen (l : Listener)
  | unlisten (id : Nat)
  | call (c : Call Float)

variable {ω : Type}

def Client.handle (clock : FeedM Float ω Float) (c : Client) :
    Happening → FeedM Float ω (Client × List Output)
  | .start => return c.start
  | .stop => return c.stop
  | .signal s .opened => return c.opened s
  | .signal s (.message text) => return (c, ← c.message clock s text)
  | .signal s (.closed code reason) => c.closed s code reason
  | .signal s (.failed text) => return (c, c.failed s (.raised text))
  | .ring bell =>
    match c.timers.alarm? bell with
    | some a => return c.ring (bell, a)
    | none => return (c, [])
  | .lapse time => return ({ c with timers := { c.timers with now := time } }, [])
  | .listen l => return (c.listen l, [])
  | .unlisten id => return ((c.unlisten id).2, [])
  | .call call => do
    let _ ← perform clock call
    return (c, [])

/-- A client, the connections that it has made, and its book and tracker. -/
structure World (ω : Type) where
  client : Client
  connections : Connections
  store : Book Float × (Tracker × ω)

namespace World

def create (settings : Settings) (store : Book Float × (Tracker × ω)) : World ω :=
  ⟨.create settings, fun _ => none, store⟩

def tracker (w : World ω) : Tracker := w.store.2.1

/-- Can this happen now? A signal has to come from a connection that has been made and may still
give it, and only a timer that is set goes off. -/
def fits (w : World ω) : Happening → Bool
  | .signal s sig => (w.connections s).any (·.mayTell sig)
  | .ring bell => (w.client.timers.alarm? bell).isSome
  | .start | .stop | .lapse _ | .listen _ | .unlisten _ | .call _ => true

def heard (w : World ω) : Happening → Connections
  | .signal s sig => w.connections.tell s sig
  | .start | .stop | .ring _ | .lapse _ | .listen _ | .unlisten _ | .call _ => w.connections

/-- The world after a happening, and what the client does to the outside. A happening that an error
breaks off leaves the client as it was. -/
def step (clock : FeedM Float ω Float) (w : World ω) (h : Happening) : World ω × List Output :=
  match (w.client.handle clock h).run w.store with
  | (.ok (client, outputs), store) => (⟨client, (w.heard h).wireAll outputs, store⟩, outputs)
  | (.error _, store) => (⟨w.client, w.heard h, store⟩, [])

section Step

variable {clock : FeedM Float ω Float} {w : World ω} {h : Happening} {e : Fault} {c : Client}
  {outputs : List Output} {store : Book Float × (Tracker × ω)}

theorem step_of_ok (hrun : (w.client.handle clock h).run w.store = (.ok (c, outputs), store)) :
    w.step clock h = (⟨c, (w.heard h).wireAll outputs, store⟩, outputs) := by
  rw [step, hrun]

theorem step_of_error (hrun : (w.client.handle clock h).run w.store = (.error e, store)) :
    w.step clock h = (⟨w.client, w.heard h, store⟩, []) := by
  rw [step, hrun]

theorem step_start :
    w.step clock .start =
      (⟨w.client.start.1, w.connections.wireAll w.client.start.2, w.store⟩, w.client.start.2) :=
  step_of_ok rfl

theorem step_stop :
    w.step clock .stop =
      (⟨w.client.stop.1, w.connections.wireAll w.client.stop.2, w.store⟩, w.client.stop.2) :=
  step_of_ok rfl

theorem step_ring {bell : Bell} {a : Alarm} (ha : w.client.timers.alarm? bell = some a) :
    w.step clock (.ring bell) =
      (⟨(w.client.ring (bell, a)).1, w.connections.wireAll (w.client.ring (bell, a)).2, w.store⟩,
        (w.client.ring (bell, a)).2) := by
  apply step_of_ok
  rw [Client.handle, ha]
  rfl

theorem step_opened (s : Socket) :
    w.step clock (.signal s .opened) =
      (⟨(w.client.opened s).1, (w.connections.tell s .opened).wireAll (w.client.opened s).2,
        w.store⟩, (w.client.opened s).2) :=
  step_of_ok rfl

end Step

end World

/-- One happening of a run. -/
structure Moment (ω : Type) where
  before : World ω
  happening : Happening
  outputs : List Output
  after : World ω

namespace World

variable (clock : FeedM Float ω Float)

def moment (w : World ω) (h : Happening) : Moment ω :=
  ⟨w, h, (w.step clock h).2, (w.step clock h).1⟩

def after (hs : List Happening) (w : World ω) : World ω :=
  hs.foldl (fun w h => (w.step clock h).1) w

/-- Can all this happen, one thing after the other? -/
def admits : List Happening → World ω → Bool
  | [], _ => true
  | h :: hs, w => w.fits h && admits hs (w.step clock h).1

/-- What happens in a run, from the first to the last. -/
def moments : List Happening → World ω → List (Moment ω)
  | [], _ => []
  | h :: hs, w => w.moment clock h :: moments hs (w.step clock h).1

theorem run_induction_from {P : List (Moment ω) → World ω → Prop} {past : List (Moment ω)}
    {w : World ω}
    (h₀ : P past w)
    (hstep : ∀ past w h, P past w → w.fits h = true →
      P (past ++ [w.moment clock h]) (w.step clock h).1)
    (hs : List Happening) (ha : w.admits clock hs = true) :
    P (past ++ w.moments clock hs) (w.after clock hs) := by
  induction hs generalizing past w with
  | nil =>
    rw [moments, List.append_nil]
    exact h₀
  | cons h hs ih =>
    obtain ⟨hf, ha⟩ := Bool.and_eq_true_iff.mp ha
    have hrest := ih (hstep past w h h₀ hf) ha
    rw [List.append_assoc, List.singleton_append] at hrest
    exact hrest

/-- What holds at first and is kept by whatever can happen holds after a run, of its moments and of
the world that it leaves. -/
theorem run_induction {P : List (Moment ω) → World ω → Prop} {w : World ω} (h₀ : P [] w)
    (hstep : ∀ past w h, P past w → w.fits h = true →
      P (past ++ [w.moment clock h]) (w.step clock h).1)
    (hs : List Happening) (ha : w.admits clock hs = true) :
    P (w.moments clock hs) (w.after clock hs) :=
  run_induction_from clock h₀ hstep hs ha

theorem moments_snoc (hs : List Happening) (h : Happening) (w : World ω) :
    w.moments clock (hs ++ [h]) = w.moments clock hs ++ [(w.after clock hs).moment clock h] := by
  induction hs generalizing w with
  | nil => rfl
  | cons h' hs ih =>
    rw [List.cons_append, moments, ih]
    rfl

variable {clock}

theorem moments_split {hs : List Happening} {w : World ω} {front back : List (Moment ω)}
    {m : Moment ω} (hm : w.moments clock hs = front ++ m :: back)
    (ha : w.admits clock hs = true) :
    ∃ hs₁ h hs₂, front = w.moments clock hs₁ ∧ w.admits clock hs₁ = true ∧
      (w.after clock hs₁).fits h = true ∧ m = (w.after clock hs₁).moment clock h ∧
        back = m.after.moments clock hs₂ ∧ m.after.admits clock hs₂ = true := by
  induction hs generalizing w front with
  | nil => cases front <;> cases hm
  | cons h hs ih =>
    obtain ⟨hf, ha⟩ := Bool.and_eq_true_iff.mp ha
    cases front with
    | nil =>
      obtain ⟨rfl, rfl⟩ := List.cons.inj hm
      exact ⟨[], h, hs, rfl, rfl, hf, rfl, rfl, ha⟩
    | cons m' front =>
      obtain ⟨rfl, htail⟩ := List.cons.inj hm
      obtain ⟨hs₁, h', hs₂, rfl, ha₁, hrest⟩ := ih htail ha
      exact ⟨h :: hs₁, h', hs₂, rfl, Bool.and_eq_true_iff.mpr ⟨hf, ha₁⟩, hrest⟩

theorem runUntil_eq_after (clock : FeedM Float ω Float) (time fuel : Nat) (w : World ω) :
    ∃ hs, w.admits clock hs = true ∧
      w.after clock hs = ⟨(w.client.runUntil time fuel).1,
        w.connections.wireAll (w.client.runUntil time fuel).2, w.store⟩ ∧
      (w.moments clock hs).flatMap Moment.outputs = (w.client.runUntil time fuel).2 := by
  induction fuel generalizing w with
  | zero => exact ⟨[.lapse time], rfl, rfl, rfl⟩
  | succ fuel ih =>
    cases hdue : w.client.timers.dueBy? time with
    | none =>
      have hrest : w.client.runUntil time (fuel + 1) =
          ({ w.client with timers := { w.client.timers with now := time } }, []) := by
        rw [Client.runUntil, hdue]
      rw [hrest]
      exact ⟨[.lapse time], rfl, rfl, rfl⟩
    | some x =>
      obtain ⟨bell, a⟩ := x
      have ha := Timers.alarm?_of_dueBy? hdue
      obtain ⟨hs, hadmits, hafter, houtputs⟩ := ih (w.step clock (.ring bell)).1
      have hrest : w.client.runUntil time (fuel + 1) =
          (((w.client.ring (bell, a)).1.runUntil time fuel).1,
            (w.client.ring (bell, a)).2 ++ ((w.client.ring (bell, a)).1.runUntil time fuel).2) := by
        rw [Client.runUntil, hdue]
      rw [step_ring ha] at hafter houtputs
      refine ⟨.ring bell :: hs, ?_, ?_, ?_⟩
      · exact Bool.and_eq_true_iff.mpr ⟨congrArg Option.isSome ha, hadmits⟩
      · rw [hrest, Connections.wireAll_append, after, List.foldl_cons, step_ring ha]
        exact hafter
      · rw [hrest, moments, List.flatMap_cons, step_ring ha, houtputs, moment, step_ring ha]

theorem advance_eq_after (clock : FeedM Float ω Float) (ms : Nat) (w : World ω) :
    ∃ hs, w.admits clock hs = true ∧
      w.after clock hs =
        ⟨(w.client.advance ms).1, w.connections.wireAll (w.client.advance ms).2, w.store⟩ ∧
      (w.moments clock hs).flatMap Moment.outputs = (w.client.advance ms).2 :=
  runUntil_eq_after clock _ _ w

end World

end LimitBook.Feed
