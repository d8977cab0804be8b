import LimitBook.Proofs.Json.Printer
import LimitBook.Proofs.Server.Run

namespace LimitBook.Server

open BookM Text Json.Grammar

variable {ω : Type} {c : Context} {levels : Float} {clock : Feed.FeedM Float ω Float}
  {r : Request} {s s' s'' : Store ω} {a : Response} {w : World ω} {i : Nat}

def rowValue (r : Book.Row Float) : Json :=
  .obj [("price", .num r.price), ("totalQty", .num r.totalQty),
    ("orderCount", .num (Float.ofNat r.orders))]

/-- The value that stands for a depth and the number that the book has with it. -/
def depthValue (d : Book.Depth Float) (number : Option Float) : Json :=
  .obj [("type", .str "book_snapshot"),
    ("data", .obj [("asks", .arr (d.asks.map rowValue)), ("bids", .arr (d.bids.map rowValue)),
      ("sequenceId", number.elim .null .num)])]

/-- The text that shows a subscriber the depth of a book, and its number. -/
def picture (levels : Float) (s : Store ω) : Option Text :=
  ((Book.depth levels : Feed.FeedM Float ω _).run s).1.toOption.map fun d =>
    (depthValue d s.1.sequenceId).print

theorem bookMessage_eq (d : Book.Depth Float) (number : Option Float) :
    bookMessage d number = depthValue d number := by
  cases number <;> rfl

theorem distinct_rowValue (r : Book.Row Float) : Distinct (rowValue r) := by
  have hnames : [ofString "price", ofString "totalQty", ofString "orderCount"].Nodup := by decide
  refine .obj hnames ?_
  simp only [List.forall_mem_cons]
  exact ⟨.num _, .num _, .num _, List.forall_mem_nil _⟩

theorem distinct_depthValue (d : Book.Depth Float) (number : Option Float) :
    Distinct (depthValue d number) := by
  have hrows (rows : List (Book.Row Float)) : Distinct (.arr (rows.map rowValue)) :=
    .arr (List.forall_mem_map.mpr fun r _ => distinct_rowValue r)
  have hnumber : Distinct (number.elim .null .num) := by
    cases number with
    | none => exact .null
    | some n => exact .num n
  have houter : [ofString "type", ofString "data"].Nodup := by decide
  have hinner : [ofString "asks", ofString "bids", ofString "sequenceId"].Nodup := by decide
  refine .obj houter ?_
  simp only [List.forall_mem_cons]
  refine ⟨.str _, .obj hinner ?_, List.forall_mem_nil _⟩
  simp only [List.forall_mem_cons]
  exact ⟨hrows _, hrows _, hnumber, List.forall_mem_nil _⟩

theorem read?_picture {d : Book.Depth Float}
    (hd : (Book.depth levels : Feed.FeedM Float ω _).run s = (.ok d, s)) :
    (picture levels s).bind Json.read? = some (written (depthValue d s.1.sequenceId)) := by
  rw [picture, hd]
  exact read?_print (distinct_depthValue d s.1.sequenceId)

theorem picture_of_free (levels : Float) (hb : s.1.busy = false) :
    picture levels s = some (depthMessage levels s.1).print := by
  rw [picture, Book.depth_run levels hb, depthMessage, bookMessage_eq]
  rfl

/-- The fills that an answer tells, each in the text that tells a subscriber of it. -/
def Response.fillTexts (a : Response) : List Text :=
  match a.body.bind (Json.field? "fills") with
  | some (.arr fills) => fills.map fun f => (Json.obj [("type", .str "fill"), ("data", f)]).print
  | _ => []

/-- What a follower is told for the answer to a request that has left the book as it is in `s`. -/
def Response.news (levels : Float) (r : Request) (a : Response) (s : Store ω) : List Text :=
  match r.goal with
  | .submit => if a.status = 201 then a.fillTexts ++ (picture levels s).toList else []
  | .cancel _ => if a.status = 200 then (picture levels s).toList else []
  | .lookUp _ | .depth _ | .status | .health | .socket | .probe | .missing | .malformed => []

def Moment.news (levels : Float) (m : Moment ω) : List Text :=
  match m.happening, m.answer with
  | .request _ r, some a => a.news levels r m.after.store
  | _, _ => []

/-- News of a store that has become another: if there is none, the book is as it was, and if there
is some, the last of it is the depth of the book as it is. -/
structure Current (levels : Float) (s s' : Store ω) (news : List Text) : Prop where
  silent : news = [] → s'.1 = s.1
  last : news ≠ [] → news.getLast? = picture levels s'

theorem current_nil (h : s'.1 = s.1) : Current levels s s' [] := ⟨fun _ => h, absurd rfl⟩

theorem Current.append {news more : List Text} (h : Current levels s s' news)
    (h' : Current levels s' s'' more) (hb' : s'.1.busy = false) (hb'' : s''.1.busy = false) :
    Current levels s s'' (news ++ more) where
  silent hnil := by
    obtain ⟨hnews, hmore⟩ := List.append_eq_nil_iff.mp hnil
    rw [h'.silent hmore, h.silent hnews]
  last hne := by
    by_cases hmore : more = []
    · have hpicture : picture levels s'' = picture levels s' := by
        rw [picture_of_free levels hb'', picture_of_free levels hb', h'.silent hmore]
      rw [hmore, List.append_nil] at hne ⊢
      rw [hpicture, h.last hne]
    · rw [List.getLast?_append_of_ne_nil _ hmore, h'.last hmore]

theorem Response.placed_fillTexts (status : Status) (fills : List (Fill Float)) (resting : Float)
    (order : Order Float) :
    (Response.placed status fills resting order).fillTexts =
      fills.map fun f => (fillMessage f).print := by
  change (fills.map Wire.fill).map _ = _
  rw [List.map_map]
  rfl

theorem Response.news_eq_nil (h : r.goal.changes = true → ¬a.Succeeds) :
    a.news levels r s = [] := by
  unfold Response.news
  split
  case h_1 hg => exact if_neg fun hs => h (by rw [hg]; rfl) (by rw [Response.Succeeds, hs]; decide)
  case h_2 hg => exact if_neg fun hs => h (by rw [hg]; rfl) (by rw [Response.Succeeds, hs]; decide)
  all_goals rfl

/-- A reply is either silent, and then the book is as it was, or it is told to all subscribers, and
then the depth is the last that they are told. -/
theorem Reply.news_cases (h : Reply c clock r s a s') (hd : Discreet clock) (hb : s.1.busy = false)
    (hq : c.hub.Quiet) :
    (a.sent = [] ∧ a.news c.depthLevels r s' = [] ∧ s'.1 = s.1) ∨
      ∃ messages, a.sent = (c.hub.broadcast (messages ++ [depthMessage c.depthLevels s'.1])).sent ∧
        a.news c.depthLevels r s' =
          (messages ++ [depthMessage c.depthLevels s'.1]).map Json.print := by
  have hpicture := picture_of_free c.depthLevels (h.free hb)
  cases h with
  | refused ha hs =>
    refine .inl ⟨ha.sent, Response.news_eq_nil fun _ hok => ?_, rfl⟩
    obtain ⟨-, hok⟩ := hok
    omega
  | shown ha hs hg =>
    refine .inl ⟨ha.sent, Response.news_eq_nil fun h => ?_, rfl⟩
    rw [hg] at h
    cases h
  | @rejected _ reason =>
    refine .inl ⟨rfl, Response.news_eq_nil fun _ hok => ?_, rfl⟩
    have hbounds := Response.rejectStatus_bounds reason
    simp only [Response.Succeeds, Response.rejected_status] at hok
    omega
  | @accepted o status fills resting order s' hp hrun =>
    refine .inr ⟨fills.map fillMessage, ?_, ?_⟩ <;> rw [Response.announced_of_quiet hq]
    simp only [Response.news, hp.1, Response.placed_status, if_true, hpicture]
    change (Response.placed status fills resting order).fillTexts ++ _ = _
    rw [Response.placed_fillTexts, List.map_append, List.map_map]
    rfl
  | broken hp hrun =>
    refine .inl ⟨rfl, Response.news_eq_nil fun _ hok => ?_, (Book.submit_error hd hb hrun).2⟩
    simp [Response.Succeeds] at hok
  | cancelled hg hrun =>
    refine .inr ⟨[], ?_, ?_⟩ <;> rw [Response.announced_of_quiet hq]
    · rfl
    simp only [Response.news, hg, Response.cancelled_status, if_true, hpicture]
    rfl
  | probed hg hs hsent =>
    refine .inl ⟨hsent, Response.news_eq_nil fun h => ?_, rfl⟩
    rw [hg] at h
    cases h

theorem Reply.told (h : Reply c clock r s a s') (hd : Discreet clock) (hb : s.1.busy = false)
    (ho : c.hub.Orderly) (hf : c.hub.Follows i) :
    received i a.sent = a.news c.depthLevels r s' ∧
      Current c.depthLevels s s' (a.news c.depthLevels r s') := by
  obtain ⟨hsent, hnews, hstore⟩ | ⟨messages, hsent, hnews⟩ := h.news_cases hd hb ho.quiet
  · rw [hsent, hnews]
    exact ⟨rfl, current_nil hstore⟩
  · rw [hsent, hnews]
    refine ⟨hf.received_broadcast ho.quiet ho.nodup _, fun hnil => ?_, fun _ => ?_⟩
    · simp at hnil
    · rw [picture_of_free c.depthLevels (h.free hb), List.map_append, List.map_singleton,
        List.getLast?_concat]

theorem moment_told (hw : w.Orderly) (hd : Discreet clock) {h : Happening} (hh : h.Quiet)
    (he : ∀ e, h ≠ .event e) (hf : w.hub.Follows i) :
    let m := w.moment levels clock h
    received i m.sent = m.news levels ∧
      Current levels w.store m.after.store (m.news levels) := by
  intro m
  cases h with
  | request connected r =>
    obtain ⟨a, store, hstep, hreply⟩ := World.step_request hw levels clock connected r
    simp only [m, World.moment, hstep, Moment.news]
    exact hreply.told hd hw.free hw.hub hf
  | welcomed s =>
    -- The socket that comes is shown the book, but its number is that of no client so far.
    have hne : w.hub.sockets.length ≠ i := fun hi =>
      Nat.lt_irrefl _ (hi ▸ hw.hub.known i hf.1)
    simp only [m, World.moment, World.step_welcomed hw levels clock hh]
    exact ⟨by simp [received, Moment.news, hne], current_nil rfl⟩
  | added | turned | closed | failed => exact ⟨rfl, current_nil rfl⟩
  | event e => exact absurd rfl (he e)

theorem moments_told (hw : w.Orderly) (hd : Discreet clock) (hs : List Happening)
    (hq : ∀ h ∈ hs, h.Quiet) (he : ∀ h ∈ hs, ∀ e, h ≠ .event e)
    (hf : ∀ m ∈ w.moments levels clock hs, m.before.hub.Follows i) :
    let ms := w.moments levels clock hs
    received i (ms.flatMap (·.sent)) = ms.flatMap (·.news levels) ∧
      Current levels w.store (w.after levels clock hs).store (ms.flatMap (·.news levels)) := by
  induction hs generalizing w with
  | nil => exact ⟨rfl, current_nil rfl⟩
  | cons h hs ih =>
    obtain ⟨hh, hq⟩ := List.forall_mem_cons.mp hq
    obtain ⟨heh, he⟩ := List.forall_mem_cons.mp he
    obtain ⟨hfh, hf⟩ := List.forall_mem_cons.mp hf
    have hw' := hw.moment levels hd hh
    obtain ⟨hreceived, hcurrent⟩ := ih hw' hq he hf
    obtain ⟨hfirst, hnow⟩ := moment_told hw hd hh heh hfh
    simp only [World.moments, List.flatMap_cons, received_append]
    rw [hreceived, hfirst]
    exact ⟨rfl, hnow.append hcurrent hw'.free (hw'.after levels hd hs hq).free⟩

theorem orderly_create (symbol : Text) (t : Feed.Tracker × ω) :
    (World.create (Book.empty symbol, t)).Orderly := ⟨rfl, Hub.orderly_empty⟩

/-- Whatever has happened to a server before, as long as its book is used by requests alone, a
subscriber that follows it and is open receives what the answers to the requests say: the fills of
each order that is placed and the depth after it, the depth after each order that is cancelled, and
nothing else. If that is nothing, the book is as it was, and otherwise the last of it is the depth
of the book as it is, and is read as such. -/
theorem news_after (hd : Discreet clock) (levels : Float) (symbol : Text) (t : Feed.Tracker × ω)
    (past hs : List Happening) (hq : ∀ h ∈ past ++ hs, h.Quiet)
    (he : ∀ h ∈ hs, ∀ e, h ≠ .event e) (i : Nat) :
    let w := (World.create (Book.empty symbol, t)).after levels clock past
    let ms := w.moments levels clock hs
    let s := (w.after levels clock hs).store
    (∀ m ∈ ms, m.before.hub.Follows i) →
      received i (ms.flatMap (·.sent)) = ms.flatMap (·.news levels) ∧
        Current levels w.store s (received i (ms.flatMap (·.sent))) ∧
        ∃ d, (Book.depth levels : Feed.FeedM Float ω _).run s = (.ok d, s) ∧
          (received i (ms.flatMap (·.sent)) ≠ [] →
            (received i (ms.flatMap (·.sent))).getLast?.bind Json.read? =
              some (written (depthValue d s.1.sequenceId))) := by
  intro w ms s hf
  obtain ⟨hpast, hq⟩ := List.forall_mem_append.mp hq
  have hw : w.Orderly := (orderly_create symbol t).after levels hd past hpast
  have hb : s.1.busy = false := (hw.after levels hd hs hq).free
  obtain ⟨hreceived, hcurrent⟩ := moments_told hw hd hs hq he hf
  rw [hreceived]
  refine ⟨rfl, hcurrent, _, Book.depth_run levels hb, fun hne => ?_⟩
  rw [hcurrent.last hne]
  exact read?_picture (Book.depth_run levels hb)

def openingHours : List Happening :=
  [.welcomed ⟨.opened, none, false⟩,
    .request false
      (.placing "\x7b\"id\":1,\"side\":\"SELL\",\"price\":100,\"quantity\":5\x7d")]

def tradingHours : List Happening :=
  [.request false
      (.placing "\x7b\"id\":2,\"side\":\"BUY\",\"price\":101,\"quantity\":2\x7d"),
    .request false
      (.placing "\x7b\"id\":1,\"side\":\"BUY\",\"price\":99,\"quantity\":2\x7d"),
    .request false ⟨"GET", "/book/depth", none, none⟩,
    .request false ⟨"DELETE", "/orders/1", none, none⟩]

/-- The subscriber receives one fill and the depth twice, the last time that of an empty book. -/
theorem news_after_tradingHours :
    let w :=
      (World.create (Book.empty [], (Feed.Tracker.initial, ()))).after 5 (pure 0) openingHours
    let ms := w.moments 5 (pure 0) tradingHours
    let s := (w.after 5 (pure 0) tradingHours).store
    let told := received 0 (ms.flatMap (·.sent))
    Discreet (pure 0 : Feed.FeedM Float Unit Float) ∧
      (∀ h ∈ openingHours ++ tradingHours, h.Quiet) ∧
      (∀ h ∈ tradingHours, ∀ e, h ≠ .event e) ∧ (∀ m ∈ ms, m.before.hub.Follows 0) ∧
      told.length = 3 ∧ told.getLast? = picture 5 s ∧
      picture 5 s = some (ofString ("\x7b\"type\":\"book_snapshot\"," ++
        "\"data\":\x7b\"asks\":[],\"bids\":[],\"sequenceId\":null\x7d\x7d")) ∧
      ∃ (d : Book.Depth Float) (number : Option Float),
        told.getLast?.bind Json.read? = some (written (depthValue d number)) := by
  intro w ms s told
  have hq : ∀ h ∈ openingHours ++ tradingHours, h.Quiet := by
    simp [openingHours, tradingHours, Happening.Quiet]
  have he : ∀ h ∈ tradingHours, ∀ e, h ≠ .event e := by simp [tradingHours]
  have hf : ∀ m ∈ ms, m.before.hub.Follows 0 := by decide +kernel
  obtain ⟨hreceived, hcurrent, d, -, hread⟩ := news_after (discreet_pure 0) 5 []
    (Feed.Tracker.initial, ()) openingHours tradingHours hq he 0 hf
  have hlength : (ms.flatMap (·.news 5)).length = 3 := by decide +kernel
  rw [← hreceived] at hlength
  have hne : told ≠ [] := List.ne_nil_of_length_eq_add_one hlength
  exact ⟨discreet_pure 0, hq, he, hf, hlength, hcurrent.last hne, by decide +kernel, d, _,
    hread hne⟩

end LimitBook.Server
