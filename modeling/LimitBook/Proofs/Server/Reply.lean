import LimitBook.Proofs.Book.Effect
import LimitBook.Proofs.Server.Hub
import LimitBook.Server.Response

namespace LimitBook.Server

open BookM

variable {ω : Type}

/-- A book with what is around it: the tracker of the feed, and the rest. -/
abbrev Store (ω : Type) := Book Float × (Feed.Tracker × ω)

def Route.changes : Route → Bool
  | .submit | .cancel _ => true
  | .lookUp _ | .depth _ | .status | .health | .socket | .probe | .missing | .malformed => false

theorem Route.changes_head (t : Target) :
    (Route.ofTarget (Text.ofString "HEAD") t).changes = false := by
  have hpost : Text.ofString "HEAD" ≠ Text.ofString "POST" := by decide
  have hdelete : Text.ofString "HEAD" ≠ Text.ofString "DELETE" := by decide
  unfold Route.ofTarget
  split
  · unfold Route.ofFolders
    simp only [hpost, hdelete, decide_false, Bool.false_and, Bool.false_eq_true, if_false]
    split
    · split_ifs <;> rfl
    · split_ifs <;> rfl
    · rfl
  · rfl

/-- The answer is that the request succeeded. -/
def Response.Succeeds (a : Response) : Prop := 200 ≤ a.status ∧ a.status < 300

instance (a : Response) : Decidable a.Succeeds := inferInstanceAs (Decidable (_ ∧ _))

@[simp]
theorem Response.failed_status (notes : List Note) (sent : List (Nat × Text)) (fault : Fault) :
    (Response.failed notes sent fault).status = 500 := rfl

@[simp]
theorem Response.rejected_status (id : OrderId) (reason : RejectReason) :
    (Response.rejected id reason).status = Response.rejectStatus reason := rfl

@[simp]
theorem Response.placed_status (status : Status) (fills : List (Fill Float)) (resting : Float)
    (order : Order Float) : (Response.placed status fills resting order).status = 201 := rfl

@[simp]
theorem Response.cancelled_status (order : Option (Order Float)) :
    (Response.cancelled order).status = 200 := rfl

theorem Response.rejectStatus_bounds (reason : RejectReason) :
    400 ≤ Response.rejectStatus reason ∧ Response.rejectStatus reason < 500 := by
  cases reason <;> decide

theorem Response.announced_of_quiet {h : Hub} (hq : h.Quiet) (a : Response) (messages : List Json) :
    a.announced (h.broadcast messages) = { a with sent := (h.broadcast messages).sent } := by
  simp only [Response.announced, hq.broadcast]

theorem Response.cut_of_changes {r : Request} (h : r.goal.changes = true) (a : Response) :
    a.cut r.method = a := by
  have hmethod : r.method ≠ Text.ofString "HEAD" := fun hm => by
    rw [Request.goal, hm, Route.changes_head] at h
    cases h
  rw [Response.cut, if_neg hmethod]

section Cut

variable (a : Response) (method : Text)

@[simp]
theorem Response.cut_status : (a.cut method).status = a.status := by
  unfold Response.cut
  split <;> rfl

@[simp]
theorem Response.cut_sent : (a.cut method).sent = a.sent := by
  unfold Response.cut
  split <;> rfl

@[simp]
theorem Response.cut_stray : (a.cut method).stray = a.stray := by
  unfold Response.cut
  split <;> rfl

end Cut

def Request.Places (r : Request) (o : Input.NewOrder) : Prop :=
  r.goal = .submit ∧ ∃ body, r.bodyJson true = .ok body ∧ Input.newOrder body = .ok o

def Request.placing (order : Text) : Request :=
  ⟨"POST", "/orders", some order, some "application/json"⟩

/-- Nothing is sent to anyone, and no client comes of it. -/
structure Response.Silent (a : Response) : Prop where
  sent : a.sent = []
  stray : a.stray = false

def depthMessage (levels : Float) (b : Book Float) : Json :=
  bookMessage (b.view (Scalar.floorNat levels)) b.sequenceId

/-- What can come of a request: the answer, and the book with what is around it. Whatever is to hold
after any request needs a look at these cases alone. -/
inductive Reply (c : Context) (clock : Feed.FeedM Float ω Float) (r : Request) (s : Store ω) :
    Response → Store ω → Prop where
  | refused {a : Response} (h : a.Silent) (hs : 400 ≤ a.status ∧ a.status < 500 ∧ a.status ≠ 409)
      (hp : ∀ o, ¬r.Places o) : Reply c clock r s a s
  | shown {a : Response} (h : a.Silent) (hs : a.status = 200) (hg : r.goal.changes = false) :
      Reply c clock r s a s
  | rejected {o : Input.NewOrder} {reason : RejectReason} (hp : r.Places o)
      (hrun : (Book.submit clock (submission o s.1.symbol)).run s = (.ok (.rejected reason), s)) :
      Reply c clock r s (.rejected o.id reason) s
  | accepted {o : Input.NewOrder} {status : Status} {fills : List (Fill Float)} {resting : Float}
      {order : Order Float} {s' : Store ω} (hp : r.Places o)
      (hrun : (Book.submit clock (submission o s.1.symbol)).run s =
        (.ok (.accepted status fills resting order), s')) :
      Reply c clock r s ((Response.placed status fills resting order).announced
        (c.hub.broadcast (fills.map fillMessage ++ [depthMessage c.depthLevels s'.1]))) s'
  | broken {o : Input.NewOrder} {e : Fault} {s' : Store ω} (hp : r.Places o)
      (hrun : (Book.submit clock (submission o s.1.symbol)).run s = (.error e, s')) :
      Reply c clock r s (.failed [] [] e) s'
  | cancelled {text : Text} {id : OrderId} {order : Option (Order Float)} {s' : Store ω}
      (hg : r.goal = .cancel text) (hrun : (Book.cancel id).run s = (.ok ⟨true, order⟩, s')) :
      Reply c clock r s ((Response.cancelled order).announced
        (c.hub.broadcast [depthMessage c.depthLevels s'.1])) s'
  | probed {a : Response} (hg : r.goal = .probe) (hs : a.status = 500) (hsent : a.sent = [])
      (hstray : a.stray = true) : Reply c clock r s a s

variable {c : Context} {clock : Feed.FeedM Float ω Float} {r : Request} {s : Store ω}

theorem snapshot_run (c : Context) (hb : s.1.busy = false) :
    (c.snapshot : Feed.FeedM Float ω Json).run s =
      (.ok (depthMessage c.depthLevels s.1), s) := by
  simp only [Context.snapshot, bind_run, Book.depth_run c.depthLevels hb, book_run]
  rfl

/-- The answer to a request on whose way there may have been an error. -/
def Response.ofResult : Except Fault Response → Response
  | .ok a => a
  | .error e => .failed [] [] e

theorem reply_refused {status : Nat} (body : Option Json)
    (hs : 400 ≤ status ∧ status < 500 ∧ status ≠ 409) (hp : ∀ o, ¬r.Places o) :
    Reply c clock r s (.bare status body) s :=
  .refused ⟨rfl, rfl⟩ hs hp

theorem submit_reply (c : Context) (hb : s.1.busy = false) {body : Option Json}
    (hg : r.goal = .submit) (hbody : r.bodyJson true = .ok body) :
    Reply c clock r s (.ofResult ((c.submit clock body).run s).1)
      ((c.submit clock body).run s).2 := by
  unfold Context.submit
  cases ho : Input.newOrder body with
  | error issues =>
    refine reply_refused _ (by decide) fun o ⟨_, body', hbody', ho'⟩ => ?_
    rw [hbody] at hbody'
    cases hbody'
    rw [ho] at ho'
    cases ho'
  | ok o =>
    have hp : r.Places o := ⟨hg, body, hbody, ho⟩
    rcases hrun : (Book.submit clock (submission o s.1.symbol)).run s with ⟨e | x, s'⟩
    · simp only [bind_run, book_run, hrun]
      exact .broken hp hrun
    · cases x with
      | rejected reason =>
        obtain ⟨-, rfl⟩ := Book.submit_rejected hb hrun
        simp only [bind_run, book_run, hrun]
        exact .rejected hp hrun
      | accepted status fills resting order =>
        have hb' : s'.1.busy = false := exclusive_ok hrun
        simp only [bind_run, book_run, hrun, snapshot_run c hb']
        exact .accepted hp hrun

theorem cancel_reply (c : Context) (hb : s.1.busy = false) {text : Text}
    (hg : r.goal = .cancel text) (id : OrderId) :
    Reply c clock r s (.ofResult ((c.cancel id : Feed.FeedM Float ω Response).run s).1)
      ((c.cancel id : Feed.FeedM Float ω Response).run s).2 := by
  unfold Context.cancel
  obtain hrun | ⟨order, s', hrun, hb'⟩ := Book.cancel_cases hb id
  · simp only [bind_run, hrun]
    refine reply_refused _ (by decide) fun o ⟨hg', _⟩ => ?_
    rw [hg] at hg'
    cases hg'
  · simp only [bind_run, hrun, if_true, snapshot_run c hb', pure_run]
    exact .cancelled hg hrun

theorem lookUp_reply {text : Text} (hg : r.goal = .lookUp text) (id : OrderId) :
    Reply c clock r s (.ofResult ((Context.lookUp id : Feed.FeedM Float ω Response).run s).1)
      ((Context.lookUp id : Feed.FeedM Float ω Response).run s).2 := by
  unfold Context.lookUp
  simp only [bind_run, book_run]
  cases s.1.getOrder? id with
  | none => exact reply_refused _ (by decide) fun o ⟨hg', _⟩ => nomatch hg.symm.trans hg'
  | some o => exact .shown ⟨rfl, rfl⟩ rfl (by rw [hg]; rfl)

theorem depth_reply (c : Context) (hb : s.1.busy = false) {query : Json}
    (hg : r.goal = .depth query) :
    Reply c clock r s (.ofResult ((c.depth query : Feed.FeedM Float ω Response).run s).1)
      ((c.depth query : Feed.FeedM Float ω Response).run s).2 := by
  unfold Context.depth
  cases Input.depthQuery (some query) with
  | error issues => exact reply_refused _ (by decide) fun o ⟨hg', _⟩ => nomatch hg.symm.trans hg'
  | ok levels =>
    simp only [bind_run, Book.depth_run _ hb, book_run, pure_run]
    exact .shown ⟨rfl, rfl⟩ rfl (by rw [hg]; rfl)

theorem withId_reply {f : OrderId → Feed.FeedM Float ω Response} (text : Text)
    (hp : ∀ o, ¬r.Places o)
    (hf : ∀ id, Reply c clock r s (.ofResult ((f id).run s).1) ((f id).run s).2) :
    Reply c clock r s (.ofResult ((Context.withId text f).run s).1)
      ((Context.withId text f).run s).2 := by
  unfold Context.withId
  cases Input.orderPath (some (.obj [("id", .str text)])) with
  | error issues => exact reply_refused _ (by decide) hp
  | ok id => exact hf id

theorem probe_reply (c : Context) (hb : s.1.busy = false) (hg : r.goal = .probe) :
    Reply c clock r s (.ofResult ((c.probe : Feed.FeedM Float ω Response).run s).1)
      ((c.probe : Feed.FeedM Float ω Response).run s).2 := by
  unfold Context.probe
  simp only [bind_run, snapshot_run c hb, pure_run]
  exact .probed hg rfl rfl rfl

theorem route_reply (c : Context) (clock : Feed.FeedM Float ω Float) (hb : s.1.busy = false)
    {body : Option Json} (hbody : r.bodyJson r.goal.leads = .ok body) (t : Target) :
    Reply c clock r s (.ofResult ((c.route clock r t body r.goal).run s).1)
      ((c.route clock r t body r.goal).run s).2 := by
  have hplaces : ∀ {g : Route}, r.goal = g → (∀ o, r.Places o → g = .submit) := fun hg o hp =>
    hg.symm.trans hp.1
  cases hg : r.goal with
  | submit =>
    rw [hg] at hbody
    exact submit_reply c hb hg hbody
  | cancel text =>
    exact withId_reply text (fun o hp => nomatch hplaces hg o hp) (cancel_reply c hb hg)
  | lookUp text => exact withId_reply text (fun o hp => nomatch hplaces hg o hp) (lookUp_reply hg)
  | depth query => exact depth_reply c hb hg
  | status => exact .shown ⟨rfl, rfl⟩ rfl (by rw [hg]; rfl)
  | health => exact .shown ⟨rfl, rfl⟩ rfl (by rw [hg]; rfl)
  | socket => exact reply_refused _ (by decide) fun o hp => nomatch hplaces hg o hp
  | probe => exact probe_reply c hb hg
  | missing => exact reply_refused _ (by decide) fun o hp => nomatch hplaces hg o hp
  | malformed => exact reply_refused _ (by decide) fun o hp => nomatch hplaces hg o hp

theorem Reply.cut {a : Response} {s' : Store ω} (h : Reply c clock r s a s') :
    Reply c clock r s (a.cut r.method) s' := by
  have hsilent : a.Silent → (a.cut r.method).Silent := fun h => ⟨by simpa using h.sent, by
    simpa using h.stray⟩
  have hplaces : ∀ {o}, r.Places o → r.goal.changes = true := fun hp => by rw [hp.1]; rfl
  cases h with
  | refused h hs hp => exact .refused (hsilent h) (by simpa using hs) hp
  | shown h hs hg => exact .shown (hsilent h) (by simpa using hs) hg
  | rejected hp hrun =>
    rw [Response.cut_of_changes (hplaces hp)]
    exact .rejected hp hrun
  | accepted hp hrun =>
    rw [Response.cut_of_changes (hplaces hp)]
    exact .accepted hp hrun
  | broken hp hrun =>
    rw [Response.cut_of_changes (hplaces hp)]
    exact .broken hp hrun
  | cancelled hg hrun =>
    rw [Response.cut_of_changes (by rw [hg]; rfl)]
    exact .cancelled hg hrun
  | probed hg hs hsent hstray =>
    exact .probed hg (by simpa using hs) (by simpa using hsent) (by simpa using hstray)

theorem respond_reply (c : Context) (clock : Feed.FeedM Float ω Float) (r : Request)
    (hb : s.1.busy = false) :
    ∃ a s', (c.respond clock r).run s = (.ok a, s') ∧ Reply c clock r s a s' := by
  unfold Context.respond
  simp only
  split
  · rename_i hg
    refine ⟨_, s, rfl, .cut (reply_refused _ (by decide) fun o hp => ?_)⟩
    exact nomatch hg.symm.trans hp.1
  · cases hbody : r.bodyJson r.goal.leads with
    | error fault =>
      have hstatus : 400 ≤ fault.status ∧ fault.status < 500 ∧ fault.status ≠ 409 := by
        cases fault <;> simp [BodyFault.status]
      refine ⟨_, s, rfl, reply_refused _ hstatus fun o ⟨hg, body, hbody', _⟩ => ?_⟩
      rw [hg] at hbody
      exact nomatch hbody.symm.trans hbody'
    | ok body =>
      have hreply := route_reply c clock hb hbody (.ofUrl r.url)
      rcases hrun : (c.route clock r (.ofUrl r.url) body r.goal).run s with ⟨e | a, s'⟩ <;>
      · rw [hrun] at hreply
        refine ⟨_, s', ?_, hreply.cut⟩
        simp only [bind_run, attempt_run, hrun]
        rfl

end LimitBook.Server
