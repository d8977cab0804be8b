import LimitBook.Proofs.Feed.Client.Socket
import LimitBook.Proofs.Feed.Tracker

namespace LimitBook.Feed

open Book BookM

def Settings.wording (c : Settings) (r : Request) : Text := r.text c.channel c.instId

variable {ω : Type} {clock : FeedM Float ω Float}

/-- A snapshot that is accepted starts the tracker afresh, and an update that is applied with a
fault adds it to the tracker; nothing else does anything to it. -/
theorem BookFrame.tracker_apply (hc : Aloof clock) (frame : BookFrame)
    (s : Book Float × (Tracker × ω)) :
    let r := ((frame.apply clock).run s).1
    let t := ((frame.apply clock).run s).2.2.1
    (frame.action = .snapshot ∧ t = if isAccepted r then ⟨.synced, 0⟩ else s.2.1) ∨
      frame.action = .update ∧ t = if (faultOf? r).isSome then s.2.1.afterFault else s.2.1 := by
  unfold BookFrame.apply
  cases frame.action with
  | snapshot => exact .inl ⟨rfl, tracker_snapshot hc _⟩
  | update => exact .inr ⟨rfl, tracker_increment hc _⟩

namespace World

/-- The frame of the client's own instrument that a happening brings on the socket held. -/
def taken? (w : World ω) : Happening → Option BookFrame
  | .signal s (.message text) =>
    if w.client.socket = some s then
      match Frame.ofText? text with
      | some (.book frame) => if frame.instId = w.client.settings.instId then some frame else none
      | some (.event ..) | some .pong | none => none
    else none
  | .signal _ .opened | .signal _ (.closed ..) | .signal _ (.failed _) | .start | .stop | .ring _
  | .lapse _ | .listen _ | .unlisten _ | .call _ => none

def accepts (clock : FeedM Float ω Float) (w : World ω) (h : Happening) : Bool :=
  (w.taken? h).any fun frame =>
    frame.action = .snapshot && isAccepted ((frame.apply clock).run w.store).1

/-- What a client says at a happening, and its tracker after it. -/
inductive Deed (clock : FeedM Float ω Float) (w : World ω) (h : Happening) :
    List (Socket × Text) → Tracker → Prop where
  | quiet (ha : w.accepts clock h = false) : Deed clock w h [] w.tracker
  | greeted {s : Socket} (he : h = .signal s .opened) (hs : w.client.socket = some s) :
      Deed clock w h [(s, w.client.settings.wording .subscribe)] w.tracker
  | pinged {s : Socket} (he : h = .ring .ping) (hs : w.client.socket = some s)
      (hc : w.client.connected = true) : Deed clock w h [(s, "ping")] w.tracker
  | lost {s : Socket} {code : Float} {reason : Text} (he : h = .signal s (.closed code reason))
      (hs : w.client.socket = some s) : Deed clock w h [] w.tracker.markResyncing
  | restarted (ha : w.accepts clock h = true) : Deed clock w h [] ⟨.synced, 0⟩
  | faulted {frame : BookFrame} (hf : w.taken? h = some frame) (hu : frame.action = .update)
      (hq : w.client.needsResync frame w.tracker.afterFault = false) :
      Deed clock w h [] w.tracker.afterFault
  | resubscribed {s : Socket} {frame : BookFrame} {t : Tracker} (hf : w.taken? h = some frame)
      (hs : w.client.socket = some s) (hc : w.client.connected = true)
      (ht : t = w.tracker ∨ t = w.tracker.afterFault) (hq : w.client.needsResync frame t = true) :
      Deed clock w h [(s, w.client.settings.wording .unsubscribe),
        (s, w.client.settings.wording .subscribe)] t.markResyncing

variable {w : World ω}

theorem deed_of_aloof {event : Happening} (haloof : Aloof (w.client.handle clock event))
    (ha : w.accepts clock event = false)
    (hsaid : ∀ c outputs store,
      (w.client.handle clock event).run w.store = (.ok (c, outputs), store) →
        said outputs = []) :
    Deed clock w event (said (w.step clock event).2) (w.step clock event).1.tracker := by
  rcases hrun : (w.client.handle clock event).run w.store with ⟨e | ⟨c, outputs⟩, store⟩
  · rw [step_of_error hrun, tracker, haloof.tracker_eq hrun]
    exact .quiet ha
  · rw [step_of_ok hrun, tracker, haloof.tracker_eq hrun]
    simp only
    rw [hsaid c outputs store hrun]
    exact .quiet ha

section Frames

variable {s : Socket} {text : Text} {frame : BookFrame}

theorem taken?_message (hs : w.client.socket = some s)
    (hframe : Frame.ofText? text = some (.book frame))
    (hi : frame.instId = w.client.settings.instId) :
    w.taken? (.signal s (.message text)) = some frame := by
  rw [taken?, if_pos hs, hframe]
  exact if_pos hi

theorem step_message_ok {outputs : List Output} {store : Book Float × (Tracker × ω)}
    (hrun : (w.client.message clock s text).run w.store = (.ok outputs, store)) :
    w.step clock (.signal s (.message text)) =
      (⟨w.client, (w.heard (.signal s (.message text))).wireAll outputs, store⟩, outputs) := by
  apply step_of_ok
  rw [Client.handle, bind_run, hrun]
  rfl

theorem step_message_error {e : Fault} {store : Book Float × (Tracker × ω)}
    (hrun : (w.client.message clock s text).run w.store = (.error e, store)) :
    w.step clock (.signal s (.message text)) =
      (⟨w.client, w.heard (.signal s (.message text)), store⟩, []) := by
  apply step_of_error
  rw [Client.handle, bind_run, hrun]

theorem accepts_frame (clock : FeedM Float ω Float)
    (htaken : w.taken? (.signal s (.message text)) = some frame) :
    w.accepts clock (.signal s (.message text)) = (decide (frame.action = .snapshot) &&
      isAccepted ((frame.apply clock).run w.store).1) := by
  rw [accepts, htaken]
  rfl

theorem deed_of_error (hc : Aloof clock) {e : Fault} {store : Book Float × (Tracker × ω)}
    (htaken : w.taken? (.signal s (.message text)) = some frame)
    (hrun : (frame.apply clock).run w.store = (.error e, store)) :
    Deed clock w (.signal s (.message text)) [] store.2.1 := by
  have ha := accepts_frame clock htaken
  have htracker := frame.tracker_apply hc w.store
  rw [hrun] at ha htracker
  have hstays : store.2.1 = w.tracker := by
    obtain ⟨-, ht⟩ | ⟨-, ht⟩ := htracker <;> exact ht
  rw [hstays]
  exact .quiet (ha.trans (Bool.and_false _))

theorem deed_of_result (hc : Aloof clock) {r : ReconcileResult Float}
    {store : Book Float × (Tracker × ω)}
    (htaken : w.taken? (.signal s (.message text)) = some frame)
    (hrun : (frame.apply clock).run w.store = (.ok r, store))
    (hneeds : w.client.needsResync frame store.2.1 = false) :
    Deed clock w (.signal s (.message text)) [] store.2.1 := by
  have ha := accepts_frame clock htaken
  have htracker := frame.tracker_apply hc w.store
  rw [hrun] at ha htracker
  obtain ⟨hsnapshot, ht⟩ | ⟨hupdate, ht⟩ := htracker
  · rw [hsnapshot] at ha
    by_cases haccepted : isAccepted (.ok r) = true
    · rw [if_pos haccepted] at ht
      rw [ht]
      exact .restarted (ha.trans haccepted)
    · rw [if_neg haccepted] at ht
      rw [ht]
      exact .quiet (ha.trans (Bool.eq_false_iff.mpr haccepted))
  · by_cases hfault : (faultOf? (.ok r)).isSome = true
    · rw [if_pos hfault] at ht
      rw [ht] at hneeds ⊢
      exact .faulted htaken hupdate hneeds
    · rw [if_neg hfault] at ht
      rw [ht]
      rw [hupdate] at ha
      exact .quiet ha

theorem deed_of_resync (hc : Aloof clock) {r : ReconcileResult Float}
    {store : Book Float × (Tracker × ω)} (hs : w.client.socket = some s)
    (hconnected : w.client.connected = true)
    (htaken : w.taken? (.signal s (.message text)) = some frame)
    (hrun : (frame.apply clock).run w.store = (.ok r, store))
    (hneeds : w.client.needsResync frame store.2.1 = true) :
    Deed clock w (.signal s (.message text))
      [(s, w.client.settings.wording .unsubscribe), (s, w.client.settings.wording .subscribe)]
      store.2.1.markResyncing := by
  have htracker := frame.tracker_apply hc w.store
  rw [hrun] at htracker
  obtain ⟨hsnapshot, -⟩ | ⟨-, ht⟩ := htracker
  · rw [Client.needsResync, hsnapshot] at hneeds
    cases hneeds
  · refine .resubscribed htaken hs hconnected ?_ hneeds
    rw [ht]
    exact (ite_eq_or_eq _ _ _).symm

theorem deed_of_frame (hc : Aloof clock) (hcurrent : w.client.isCurrent s = true)
    (hs : w.client.socket = some s) (hconnected : w.client.connected = true)
    (hframe : Frame.ofText? text = some (.book frame))
    (hi : frame.instId = w.client.settings.instId) :
    Deed clock w (.signal s (.message text)) (said (w.step clock (.signal s (.message text))).2)
      (w.step clock (.signal s (.message text))).1.tracker := by
  have htaken := taken?_message hs hframe hi
  have hmessage := Client.message_frame clock hcurrent hframe
  rcases hrun : (frame.apply clock).run w.store with ⟨e | r, store⟩
  · rw [step_message_error (hmessage ▸ Client.bookFrame_error hi hrun)]
    exact deed_of_error hc htaken hrun
  · obtain ⟨outputs, store', hrun', -, hsaid⟩ := Client.bookFrame_ok hi hrun
    rw [step_message_ok (hmessage ▸ hrun'), tracker]
    by_cases hneeds : w.client.needsResync frame store.2.1 = true
    · rw [if_pos hneeds, Client.request, Client.request, Client.said_send hs,
        Client.said_send hs] at hsaid
      rw [hsaid.1, hsaid.2]
      exact deed_of_resync hc hs hconnected htaken hrun hneeds
    · rw [if_neg hneeds] at hsaid
      rw [hsaid.1, hsaid.2]
      exact deed_of_result hc htaken hrun (Bool.eq_false_iff.mpr hneeds)

theorem taken?_eq_some {event : Happening} (ht : w.taken? event = some frame) :
    ∃ s text, event = .signal s (.message text) ∧ w.client.socket = some s ∧
      Frame.ofText? text = some (.book frame) ∧ frame.instId = w.client.settings.instId := by
  cases event with
  | signal s sig =>
    cases sig with
    | message text =>
      by_cases hs : w.client.socket = some s
      · rw [taken?, if_pos hs] at ht
        split at ht
        case h_1 frame' hframe =>
          by_cases hi : frame'.instId = w.client.settings.instId
          · rw [if_pos hi] at ht
            obtain rfl := Option.some.inj ht
            exact ⟨s, text, rfl, hs, hframe, hi⟩
          · rw [if_neg hi] at ht
            cases ht
        all_goals cases ht
      · rw [taken?, if_neg hs] at ht
        cases ht
    | opened | closed | failed => cases ht
  | start | stop | ring | lapse | listen | unlisten | call => cases ht

theorem message_of_untaken (clock : FeedM Float ω Float) (hs : w.client.socket = some s)
    (htaken : w.taken? (.signal s (.message text)) = none) :
    ∃ outputs, (w.client.message clock s text).run w.store = (.ok outputs, w.store) ∧
      said outputs = [] := by
  obtain ⟨outputs, hrun, hidle⟩ | ⟨frame, -, hframe, hi⟩ :=
    w.client.message_cases clock s text w.store
  · exact ⟨outputs, hrun, said_of_idle hidle⟩
  · rw [taken?_message hs hframe hi] at htaken
    cases htaken

end Frames

theorem accepts_of_untaken {event : Happening} (hn : w.taken? event = none) :
    w.accepts clock event = false := by
  rw [accepts, hn]
  rfl

theorem Moored.connected_of_message (h : w.Moored) {s : Socket} {text : Text}
    (hf : w.fits (.signal s (.message text)) = true) (hs : w.client.socket = some s) :
    w.client.connected = true := by
  obtain ⟨k, hk, htell⟩ := fits_signal hf
  obtain ⟨-, k', hk', -, hstate⟩ := h.held s hs
  obtain rfl := Option.some.inj (hk.symm.trans hk')
  have hopened : k.state = .opened := of_decide_eq_true htell
  by_contra hconnected
  have hconnected : w.client.stance.connected ≠ true := hconnected
  rw [if_neg hconnected, hopened] at hstate
  cases hstate

theorem deed_message (h : w.Moored) (hc : Aloof clock) {s : Socket} {text : Text}
    (hf : w.fits (.signal s (.message text)) = true) (hs : w.client.socket = some s) :
    Deed clock w (.signal s (.message text)) (said (w.step clock (.signal s (.message text))).2)
      (w.step clock (.signal s (.message text))).1.tracker := by
  cases htaken : w.taken? (.signal s (.message text)) with
  | none =>
    obtain ⟨outputs, hrun, hsaid⟩ := message_of_untaken clock hs htaken
    rw [step_message_ok hrun, hsaid]
    exact .quiet (accepts_of_untaken htaken)
  | some frame =>
    obtain ⟨s', text', he, -, hframe, hi⟩ := taken?_eq_some htaken
    cases he
    exact deed_of_frame hc (h.listens hs) hs (h.connected_of_message hf hs) hframe hi

theorem deed_missed (h : w.Moored) {s : Socket} {sig : Signal}
    (hf : w.fits (.signal s sig) = true) (hs : w.client.socket ≠ some s)
    (hsig : ∀ text, sig ≠ .failed text) :
    Deed clock w (.signal s sig) (said (w.step clock (.signal s sig)).2)
      (w.step clock (.signal s sig)).1.tracker := by
  rw [h.step_missed hf hs hsig]
  apply Deed.quiet
  apply accepts_of_untaken
  cases sig with
  | message text => exact if_neg hs
  | opened | closed | failed => rfl

theorem deed_ring (h : w.Moored) {bell : Bell} (hf : w.fits (.ring bell) = true) :
    Deed clock w (.ring bell) (said (w.step clock (.ring bell)).2)
      (w.step clock (.ring bell)).1.tracker := by
  obtain ⟨a, ha⟩ := Option.isSome_iff_exists.mp hf
  rw [step_ring ha]
  cases bell with
  | reconnect =>
    have hsaid : said (w.client.ring (.reconnect, a)).2 = [] := by
      unfold Client.ring
      simp only
      split <;> rfl
    rw [hsaid]
    exact .quiet rfl
  | ping =>
    have hconnected : w.client.connected = true := h.pinging (congrArg Option.isSome ha)
    obtain ⟨s, hs⟩ := h.socket_of_connected hconnected
    have hsaid : said (w.client.ring (.ping, a)).2 = [(s, ("ping" : Text))] := by
      unfold Client.ring
      simp only [hconnected, if_true]
      exact Client.said_send hs _
    rw [hsaid]
    exact .pinged rfl hs hconnected

theorem Moored.said_opened (clock : FeedM Float ω Float) (h : w.Moored) {s : Socket}
    (hs : w.client.socket = some s) :
    said (w.step clock (.signal s .opened)).2 = [(s, w.client.settings.wording .subscribe)] := by
  rw [step_opened]
  unfold Client.opened
  rw [if_pos (h.listens hs)]
  exact Client.said_send hs _

/-- Whatever can happen to a client is answered by one of its deeds, if the tracker is left to
the client. -/
theorem Moored.deed (h : w.Moored) (hc : Aloof clock) {event : Happening}
    (hf : w.fits event = true) :
    Deed clock w event (said (w.step clock event).2) (w.step clock event).1.tracker := by
  cases event with
  | start =>
    have hsaid : said w.client.start.2 = [] := by
      unfold Client.start
      split <;> rfl
    rw [step_start, hsaid]
    exact .quiet rfl
  | stop =>
    have hsaid : said w.client.stop.2 = [] := by
      unfold Client.stop
      cases w.client.socket <;> rfl
    rw [step_stop, hsaid]
    exact .quiet rfl
  | ring bell => exact deed_ring h hf
  | signal s sig =>
    by_cases hs : w.client.socket = some s
    · cases sig with
      | opened =>
        rw [h.said_opened clock hs, step_opened]
        exact .greeted rfl hs
      | message text => exact deed_message h hc hf hs
      | closed code reason =>
        rw [step_closed (h.listens hs) (h.running hs)]
        exact .lost rfl hs
      | failed text => exact .quiet rfl
    · cases sig with
      | failed text => exact .quiet rfl
      | opened => exact deed_missed h hf hs fun _ he => by cases he
      | message text => exact deed_missed h hf hs fun _ he => by cases he
      | closed code reason => exact deed_missed h hf hs fun _ he => by cases he
  | lapse | listen | unlisten =>
    refine deed_of_aloof (aloof_pure _) rfl fun c outputs store hrun => ?_
    cases hrun
    rfl
  | call call =>
    refine deed_of_aloof ((aloof_perform hc call).bind fun _ => aloof_pure _) rfl
      fun c outputs store hrun => ?_
    obtain ⟨a, store', -, hout⟩ := bind_eq_ok hrun
    cases hout
    rfl

end World

end LimitBook.Feed
