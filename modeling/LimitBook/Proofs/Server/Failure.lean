import LimitBook.Proofs.Feed.Effect
import LimitBook.Proofs.Server.Reply

namespace LimitBook.Server

open BookM

variable {ω : Type} {c : Context} {clock : Feed.FeedM Float ω Float} {r : Request}
  {s s' : Store ω} {a : Response}

/-- Nothing has come of a request: neither the book nor what is around it has changed, nor has the
hub, and nobody has been sent anything. -/
structure Untouched (c : Context) (s : Store ω) (a : Response) (s' : Store ω) : Prop where
  store : s' = s
  hub : c.hub.answered a = c.hub
  sent : a.sent = []

theorem Response.Silent.untouched (h : a.Silent) : Untouched c s a s :=
  ⟨rfl, by rw [Hub.answered, h.stray]; rfl, h.sent⟩

theorem Request.Places.eq {o o' : Input.NewOrder} (h : r.Places o) (h' : r.Places o') : o = o' := by
  obtain ⟨-, body, hbody, ho⟩ := h
  obtain ⟨-, body', hbody', ho'⟩ := h'
  rw [hbody] at hbody'
  cases hbody'
  rw [ho] at ho'
  exact Except.ok.inj ho'

/-- The request places an order, and this is what the book makes of it. -/
def Request.TakenAs (r : Request) (clock : Feed.FeedM Float ω Float) (s : Store ω)
    (result : SubmitResult Float) : Prop :=
  ∃ o, r.Places o ∧ ((Book.submit clock (submission o s.1.symbol)).run s).1 = .ok result

theorem Request.Places.takenAs_iff {o : Input.NewOrder} (hp : r.Places o)
    (result : SubmitResult Float) :
    r.TakenAs clock s result ↔
      ((Book.submit clock (submission o s.1.symbol)).run s).1 = .ok result := by
  constructor
  · rintro ⟨o', hp', hrun⟩
    rwa [hp.eq hp']
  · exact fun hrun => ⟨o, hp, hrun⟩

theorem Request.not_takenAs (hp : ∀ o, ¬r.Places o) (result : SubmitResult Float) :
    ¬r.TakenAs clock s result := fun ⟨o, h, _⟩ => hp o h

def takenStatus : SubmitResult Float → Nat
  | .accepted .. => 201
  | .rejected reason => Response.rejectStatus reason

theorem takenStatus_eq_created {result : SubmitResult Float} :
    takenStatus result = 201 ↔
      ∃ status fills resting order, result = .accepted status fills resting order := by
  cases result with
  | accepted status fills resting order => exact iff_of_true rfl ⟨_, _, _, _, rfl⟩
  | rejected reason =>
    refine iff_of_false ?_ (by simp)
    cases reason <;> simp [takenStatus, Response.rejectStatus]

theorem takenStatus_eq_conflict {result : SubmitResult Float} :
    takenStatus result = 409 ↔ result = .rejected .duplicateId := by
  cases result with
  | accepted status fills resting order => simp [takenStatus]
  | rejected reason => cases reason <;> simp [takenStatus, Response.rejectStatus]

theorem Reply.status_cases (h : Reply c clock r s a s') (hq : c.hub.Quiet) :
    (∃ result, (∀ x, r.TakenAs clock s x ↔ result = x) ∧ a.status = takenStatus result) ∨
      (∀ x, ¬r.TakenAs clock s x) ∧ a.status ≠ 201 ∧ a.status ≠ 409 := by
  have hplaces {g : Route} (hg : r.goal = g) (hne : g ≠ .submit) (o : Input.NewOrder) :
      ¬r.Places o := fun hp => hne (hg.symm.trans hp.1)
  cases h with
  | refused _ hs hp => exact .inr ⟨Request.not_takenAs hp, by omega, by omega⟩
  | shown _ hs hg =>
    have hne : r.goal ≠ .submit := fun hg' => by
      rw [hg'] at hg
      cases hg
    exact .inr ⟨Request.not_takenAs (hplaces rfl hne), by omega, by omega⟩
  | rejected hp hrun =>
    exact .inl ⟨_, fun x => by rw [hp.takenAs_iff, hrun, Except.ok.injEq], rfl⟩
  | accepted hp hrun =>
    exact .inl ⟨_, fun x => by rw [hp.takenAs_iff, hrun, Except.ok.injEq],
      by rw [Response.announced_of_quiet hq]; rfl⟩
  | broken hp hrun =>
    refine .inr ⟨fun x => ?_, by simp, by simp⟩
    rw [hp.takenAs_iff, hrun]
    exact nofun
  | cancelled hg hrun =>
    rw [Response.announced_of_quiet hq]
    exact .inr ⟨Request.not_takenAs (hplaces hg nofun), by simp, by simp⟩
  | probed hg hs => exact .inr ⟨Request.not_takenAs (hplaces hg nofun), by omega, by omega⟩

/-- Unless the request is for the head of a socket's answer, a reply that is no success leaves all
as it was, and it is no failure of the server. -/
theorem Reply.untouched (h : Reply c clock r s a s') (hd : Discreet clock) (hr : Reliable clock)
    (hb : s.1.busy = false) (hq : c.hub.Quiet) (hg : r.goal ≠ .probe) :
    (¬a.Succeeds → Untouched c s a s') ∧ a.status ≠ 500 := by
  cases h with
  | refused ha hs => exact ⟨fun _ => ha.untouched, by omega⟩
  | shown ha hs => exact ⟨fun _ => ha.untouched, by omega⟩
  | @rejected _ reason =>
    refine ⟨fun _ => Response.Silent.untouched ⟨rfl, rfl⟩, ?_⟩
    exact ne_of_lt (Response.rejectStatus_bounds reason).2
  | accepted => simp [Response.Succeeds, Response.announced_of_quiet hq]
  | broken hp hrun => exact absurd (Book.submit_error hd hb hrun).1 (hr.not_raises _)
  | cancelled => simp [Response.Succeeds, Response.announced_of_quiet hq]
  | probed hp => exact absurd hp hg

/-- The request is for the head of the answer that a socket's request would have. -/
def Request.Probes (r : Request) : Prop :=
  r.method = Text.ofString "HEAD" ∧ (Target.ofUrl r.url).folders? = some [Text.ofString "ws"]

theorem Request.goal_eq_probe : r.goal = .probe ↔ r.Probes := by
  have horders : Text.ofString "ws" ≠ Text.ofString "orders" := by decide
  have hhealth : Text.ofString "ws" ≠ Text.ofString "health" := by decide
  have hget : Text.ofString "HEAD" ≠ Text.ofString "GET" := by decide
  unfold Request.goal Request.Probes Route.ofTarget
  constructor
  · intro h
    split at h
    · rename_i folders hfolders
      unfold Route.ofFolders at h
      grind [Route.reads]
    · cases h
  · rintro ⟨hm, hfolders⟩
    rw [hfolders]
    simp [Route.ofFolders, Route.reads, hm, horders, hhealth, hget]

/-- Whatever has happened to a book and its feed, every request is answered. One that does not
succeed has changed nothing and told nobody, and none is answered by a failure of the server, unless
it is for the head of a socket's answer. An order is answered as created if and only if the book
accepts it, and as a conflict if and only if the book rejects it for its id. -/
theorem failure_after (hd : Discreet clock) (hr : Reliable clock)
    (events : List (Feed.Event Float)) (symbol : Text) (w : Feed.Tracker × ω) (hq : c.hub.Quiet)
    (r : Request) :
    let s := Feed.after clock events (Book.empty symbol, w)
    ∃ a s', (c.respond clock r).run s = (.ok a, s') ∧
      (¬r.Probes → (¬a.Succeeds → Untouched c s a s') ∧ a.status ≠ 500) ∧
      (a.status = 201 ↔
        ∃ status fills resting order, r.TakenAs clock s (.accepted status fills resting order)) ∧
      (a.status = 409 ↔ r.TakenAs clock s (.rejected .duplicateId)) := by
  intro s
  have hb : s.1.busy = false := Feed.free_after hd events symbol w
  obtain ⟨a, s', hrun, hreply⟩ := respond_reply c clock r hb
  refine ⟨a, s', hrun, fun hp => hreply.untouched hd hr hb hq (mt Request.goal_eq_probe.mp hp), ?_⟩
  obtain ⟨result, htaken, hstatus⟩ | ⟨hnot, hcreated, hconflict⟩ := hreply.status_cases hq
  · simp only [htaken, hstatus, takenStatus_eq_created, takenStatus_eq_conflict,
      and_self]
  · exact ⟨iff_of_false hcreated fun ⟨_, _, _, _, ht⟩ => hnot _ ht,
      iff_of_false hconflict (hnot _)⟩

def restingEvents : List (Feed.Event Float) := [.call (.submit ⟨1, .buy, 100, 5, []⟩)]

def reusingRequest : Request :=
  .placing "\x7b\"id\":1,\"side\":\"SELL\",\"price\":99,\"quantity\":2\x7d"

/-- An order whose id is taken is answered by a conflict, and the one subscriber does not hear of
it. -/
theorem failure_after_restingEvents :
    let c : Context := ⟨5, ⟨[⟨.opened, none, true⟩], [0], 0⟩, false⟩
    let s := Feed.after (pure 0) restingEvents (Book.empty [], (Feed.Tracker.initial, ()))
    Discreet (pure 0 : Feed.FeedM Float Unit Float) ∧
      Reliable (pure 0 : Feed.FeedM Float Unit Float) ∧ c.hub.Quiet ∧ ¬reusingRequest.Probes ∧
      reusingRequest.TakenAs (pure 0) s (.rejected .duplicateId) ∧
      ∃ a s', (c.respond (pure 0) reusingRequest).run s = (.ok a, s') ∧ a.status = 409 ∧
        Untouched c s a s' := by
  intro c s
  have hq : c.hub.Quiet := by simp [c, Hub.Quiet]
  have hp : ¬reusingRequest.Probes := fun h => absurd h.1 (by decide)
  have hstatus : ((c.respond (pure 0) reusingRequest).run s).1.toOption.map (·.status) =
      some 409 := by decide +kernel
  obtain ⟨a, s', hrun, hfailed, -, hconflict⟩ := failure_after (discreet_pure 0) (reliable_pure 0)
    restingEvents [] (Feed.Tracker.initial, ()) hq reusingRequest
  rw [hrun] at hstatus
  have ha : a.status = 409 := Option.some.inj hstatus
  refine ⟨discreet_pure 0, reliable_pure 0, hq, hp, hconflict.mp ha, a, s', hrun, ha, ?_⟩
  exact (hfailed hp).1 (by rw [Response.Succeeds, ha]; decide)

/-- When nobody follows the book, a request for the head of the answer that a socket would have is
answered by a failure of the server, and there is one client more. -/
theorem counted_of_headRequest :
    let c : Context := ⟨5, .empty, false⟩
    let s : Store Unit := (Book.empty [], (Feed.Tracker.initial, ()))
    let r : Request := ⟨"HEAD", "/ws", none, none⟩
    ∃ a, ((c.respond (pure 0) r).run s).1.toOption = some a ∧ a.status = 500 ∧
      c.hub.size = 0 ∧ (c.hub.answered a).size = 1 := by
  intro c s r
  have hclients : ((c.respond (pure 0) r).run s).1.toOption.map
      (fun a => (a.status, (c.hub.answered a).size)) = some (500, 1) := by decide +kernel
  obtain ⟨a, ha, hsize⟩ := Option.map_eq_some_iff.mp hclients
  obtain ⟨hstatus, hsize⟩ := Prod.mk.inj hsize
  exact ⟨a, ha, hstatus, rfl, hsize⟩

end LimitBook.Server
