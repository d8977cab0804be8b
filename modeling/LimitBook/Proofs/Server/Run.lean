import LimitBook.Proofs.Feed.Effect
import LimitBook.Proofs.Server.Reply

namespace LimitBook.Server

open BookM

/-- What may happen to a server, or to the book under it. -/
inductive Happening where
  | request (connected : Bool) (r : Request)
  | added (s : Subscriber)
  | welcomed (s : Subscriber)
  | turned (i : Nat) (state : ReadyState)
  | closed (i : Nat)
  | failed (i : Nat) (fault : Fault)
  | event (e : Feed.Event Float)

/-- The socket that comes, if one does, raises no error when it is sent something. -/
def Happening.Quiet : Happening → Prop
  | .added s | .welcomed s => s.fault = none
  | .request .. | .turned .. | .closed _ | .failed .. | .event _ => True

/-- The sockets of a server, and its book with what is around it. -/
structure World (ω : Type) where
  hub : Hub
  store : Store ω

/-- One happening of a run: the answer, if it is a request, and what is sent to whom. -/
structure Moment (ω : Type) where
  before : World ω
  happening : Happening
  answer : Option Response
  sent : List (Nat × Text)
  after : World ω

variable {ω : Type}

namespace World

def create (store : Store ω) : World ω := ⟨.empty, store⟩

variable (levels : Float) (clock : Feed.FeedM Float ω Float)

def context (w : World ω) (connected : Bool) : Context := ⟨levels, w.hub, connected⟩

/-- The answer, if there is one, what is sent to whom, and the server afterwards. -/
def step (w : World ω) : Happening → Option Response × List (Nat × Text) × World ω
  | .request connected r =>
    match ((w.context levels connected).respond clock r).run w.store with
    | (.ok a, store) => (some a, a.sent, ⟨w.hub.answered a, store⟩)
    | (.error _, store) => (none, [], ⟨w.hub, store⟩)
  | .added s => (none, [], ⟨(w.hub.add s).2, w.store⟩)
  | .welcomed s =>
    match ((w.context levels false).welcome s).run w.store with
    | (.ok (_, hub, _, d), store) => (none, d.sent, ⟨hub, store⟩)
    | (.error _, store) => (none, [], ⟨(w.hub.add s).2, store⟩)
  | .turned i state => (none, [], ⟨w.hub.update i fun s => { s with state }, w.store⟩)
  | .closed i => (none, [], ⟨(w.hub.closed i).1, w.store⟩)
  | .failed i fault => (none, [], ⟨(w.hub.failed i fault).1, w.store⟩)
  | .event e => (none, [], ⟨w.hub, ((Feed.handle clock e).run w.store).2⟩)

def moment (w : World ω) (h : Happening) : Moment ω :=
  let p := w.step levels clock h
  ⟨w, h, p.1, p.2.1, p.2.2⟩

def after (hs : List Happening) (w : World ω) : World ω :=
  hs.foldl (fun w h => (w.moment levels clock h).after) w

/-- What happens in a run, from the first to the last. -/
def moments : List Happening → World ω → List (Moment ω)
  | [], _ => []
  | h :: hs, w => w.moment levels clock h :: moments hs (w.moment levels clock h).after

end World

/-- The next call of the book is not refused, and the sockets are in good order. -/
structure World.Orderly (w : World ω) : Prop where
  free : w.store.1.busy = false
  hub : w.hub.Orderly

section Steps

variable {c : Context} {levels : Float} {clock : Feed.FeedM Float ω Float} {r : Request}
  {s s' : Store ω} {a : Response} {w : World ω} {h : Happening}

theorem Reply.free (hr : Reply c clock r s a s') (hb : s.1.busy = false) : s'.1.busy = false := by
  cases hr with
  | refused | shown | rejected | probed => exact hb
  | accepted hp hrun | broken hp hrun =>
    rw [← congrArg (·.2.1.busy) hrun]
    exact Book.exclusive_busy _ _ hb
  | cancelled hg hrun =>
    rw [← congrArg (·.2.1.busy) hrun]
    exact Book.exclusive_busy _ _ hb

theorem welcome_run (c : Context) (hb : s.1.busy = false) {t : Subscriber} (ht : t.fault = none) :
    (c.welcome t).run s = (.ok ((c.hub.add t).1,
      (c.hub.add t).2.update (c.hub.add t).1 fun t => { t with watched := true },
      [.clientConnected (c.hub.add t).2.size],
      ⟨[(c.hub.sockets.length, (depthMessage c.depthLevels s.1).print)], none⟩), s) := by
  unfold Context.welcome
  simp only [bind_run, snapshot_run c hb, c.hub.sendTo_add ht, Option.isSome_none,
    Bool.false_eq_true, if_false, pure_run]

namespace World

theorem step_request (hw : w.Orderly) (levels : Float) (clock : Feed.FeedM Float ω Float)
    (connected : Bool) (r : Request) :
    ∃ a store, w.step levels clock (.request connected r) =
        (some a, a.sent, ⟨w.hub.answered a, store⟩) ∧
      Reply (w.context levels connected) clock r w.store a store := by
  obtain ⟨a, store, hrun, hreply⟩ := respond_reply (w.context levels connected) clock r hw.free
  exact ⟨a, store, by simp only [step, hrun], hreply⟩

theorem step_welcomed (hw : w.Orderly) (levels : Float) (clock : Feed.FeedM Float ω Float)
    {s : Subscriber} (hs : s.fault = none) :
    w.step levels clock (.welcomed s) =
      (none, [(w.hub.sockets.length, (depthMessage levels w.store.1).print)],
        ⟨(w.hub.add s).2.update w.hub.sockets.length fun s => { s with watched := true },
          w.store⟩) := by
  simp only [step, welcome_run (w.context levels false) hw.free hs]
  rfl

theorem Orderly.moment (hw : w.Orderly) (levels : Float) (hd : Discreet clock) (hh : h.Quiet) :
    (w.moment levels clock h).after.Orderly := by
  cases h with
  | request connected r =>
    obtain ⟨a, store, hstep, hreply⟩ := step_request hw levels clock connected r
    rw [World.moment, hstep]
    exact ⟨hreply.free hw.free, hw.hub.answered a⟩
  | added s => exact ⟨hw.free, hw.hub.add hh⟩
  | welcomed s =>
    rw [World.moment, step_welcomed hw levels clock hh]
    exact ⟨hw.free, (hw.hub.add hh).update _ fun _ => rfl⟩
  | turned i state => exact ⟨hw.free, hw.hub.update i fun _ => rfl⟩
  | closed i => exact ⟨hw.free, hw.hub.closed i⟩
  | failed i fault => exact ⟨hw.free, hw.hub.failed i fault⟩
  | event e => exact ⟨Feed.handle_busy hd hw.free e, hw.hub⟩

theorem Orderly.after (hw : w.Orderly) (levels : Float) (hd : Discreet clock)
    (hs : List Happening) (hq : ∀ h ∈ hs, h.Quiet) : (w.after levels clock hs).Orderly := by
  induction hs generalizing w with
  | nil => exact hw
  | cons h hs ih =>
    obtain ⟨hh, hq⟩ := List.forall_mem_cons.mp hq
    exact ih (hw.moment levels hd hh) hq

end World

end Steps

end LimitBook.Server
