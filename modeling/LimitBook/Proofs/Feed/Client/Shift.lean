import LimitBook.Proofs.Feed.Client.Message
import LimitBook.Proofs.Feed.Client.Run
import LimitBook.Proofs.Feed.Continuity

namespace LimitBook.Feed

open Book BookM

variable {ω : Type} {clock : FeedM Float ω Float} {w : World ω}

namespace Connections

variable {ks : Connections} {s s' : Socket} {k : Connection} {sig : Signal}

theorem tell_self (hk : ks s = some k) : ks.tell s sig s = some (k.told sig) := by
  rw [tell, Function.update_self, hk]
  rfl

theorem tell_of_ne (hs : s' ≠ s) : ks.tell s sig s' = ks s' := Function.update_of_ne hs _ _

theorem tell_eq (h : ∀ k : Connection, k.told sig = k) : ks.tell s sig = ks := by
  have hid : (fun k : Connection => k.told sig) = id := funext h
  rw [tell, hid, Option.map_id_fun, id, Function.update_eq_self]

/-- The connections once the one behind a socket that was held has been closed. -/
def drop (ks : Connections) : Option Socket → Connections
  | some s => ks.wire (.close s)
  | none => ks

theorem drop_self (hk : ks s = some k) : ks.drop (some s) s = some k.close := by
  rw [drop, wire, Function.update_self, hk]
  rfl

theorem drop_of_ne {held : Option Socket} (hs : held ≠ some s) : ks.drop held s = ks s := by
  cases held with
  | none => rfl
  | some s' => exact Function.update_of_ne (fun he => hs (congrArg some he.symm)) _ _

theorem drop_eq_some {held : Option Socket} (hk : ks.drop held s = some k) :
    ∃ k', ks s = some k' ∧ (held ≠ some s ∧ k = k' ∨ held = some s ∧ k = k'.close) := by
  by_cases hs : held = some s
  · subst hs
    rw [drop, wire, Function.update_self] at hk
    obtain ⟨k', hk', rfl⟩ := Option.map_eq_some_iff.mp hk
    exact ⟨k', hk', .inr ⟨rfl, rfl⟩⟩
  · rw [drop_of_ne hs] at hk
    exact ⟨k, hk, .inl ⟨hs, rfl⟩⟩

theorem tell_eq_some (hk : ks.tell s sig s' = some k) :
    ∃ k', ks s' = some k' ∧ (s' ≠ s ∧ k = k' ∨ s' = s ∧ k = k'.told sig) := by
  by_cases hs : s' = s
  · subst hs
    rw [tell, Function.update_self] at hk
    obtain ⟨k', hk', rfl⟩ := Option.map_eq_some_iff.mp hk
    exact ⟨k', hk', .inr ⟨rfl, rfl⟩⟩
  · rw [tell_of_ne hs] at hk
    exact ⟨k, hk, .inl ⟨hs, rfl⟩⟩

theorem wire_connect_self {url : Text} : ks.wire (.connect s url) s = some (.create url) :=
  Function.update_self ..

theorem wire_connect_of_ne {url : Text} (hs : s' ≠ s) : ks.wire (.connect s url) s' = ks s' :=
  Function.update_of_ne hs ..

end Connections

theorem Connection.closes_told (k : Connection) (sig : Signal) :
    (k.told sig).closes = k.closes := by
  cases sig <;> rfl

theorem Connection.open_of_mayTell {k : Connection} {sig : Signal} (h : k.mayTell sig = true)
    (hs : ∀ text, sig ≠ .failed text) : k.state ≠ .closed := by
  cases sig <;> simp_all [Connection.mayTell]

theorem Connections.wireAll_plain {ks : Connections} {outputs : List Output}
    (h : ∀ o ∈ outputs, o.plain = true) : ks.wireAll outputs = ks := by
  induction outputs with
  | nil => rfl
  | cons o outputs ih =>
    obtain ⟨ho, houtputs⟩ := List.forall_mem_cons.mp h
    rw [wireAll, List.foldl_cons]
    cases o with
    | connect | close => cases ho
    | send | note | heard => exact ih houtputs

theorem Client.handle_stale {c : Client} (clock : FeedM Float ω Float)
    (store : Book Float × (Tracker × ω)) {s : Socket} (sig : Signal) (hs : c.isCurrent s = false) :
    ∃ outputs, (c.handle clock (.signal s sig)).run store = (.ok (c, outputs), store) ∧
      (outputs = [] ∨ ∃ text, sig = .failed text ∧ outputs = c.failed s (.raised text)) := by
  cases sig with
  | opened => exact ⟨[], by rw [handle, opened, hs]; rfl, .inl rfl⟩
  | message text =>
    refine ⟨[], ?_, .inl rfl⟩
    rw [handle, bind_run, message, hs]
    rfl
  | closed code reason => exact ⟨[], by rw [handle, closed, hs]; rfl, .inl rfl⟩
  | failed text => exact ⟨_, rfl, .inr ⟨text, rfl, rfl⟩⟩

/-- What counts of a client for the sockets that it opens. -/
structure Stance where
  settings : Settings
  socket : Option Socket
  generation : Nat
  connected : Bool
  stopped : Bool
  reconnecting : Bool
  pinging : Bool

def Client.stance (c : Client) : Stance where
  settings := c.settings
  socket := c.socket
  generation := c.generation
  connected := c.connected
  stopped := c.stopped
  reconnecting := c.timers.reconnect.isSome
  pinging := c.timers.ping.isSome

def Happening.calm : Happening → Bool
  | .stop | .signal _ .opened | .signal _ (.closed ..) => false
  | .signal _ (.message _) | .signal _ (.failed _) | .start | .ring _ | .lapse _ | .listen _
  | .unlisten _ | .call _ => true

/-- The client stands well with its connections: it holds a socket or waits to connect again, unless
it is stopped; and of its connections no other than the one held is left alone. -/
structure Stance.Moored (c : Stance) (ks : Connections) : Prop where
  stopped : c.stopped = true → c.socket = none
  reconnecting : c.reconnecting = (!c.stopped && c.socket.isNone)
  pinging : c.pinging = true → c.connected = true
  held : ∀ s, c.socket = some s → s = c.generation ∧ ∃ k, ks s = some k ∧ k.closes = 0 ∧
    k.state = if c.connected then .opened else .connecting
  free : c.socket = none →
    c.connected = false ∧ ∀ k, ks c.generation = some k → k.state = .closed
  known : ∀ s k, ks s = some k → s ≤ c.generation
  live : ∀ s k, ks s = some k → k.closes = 0 → k.state ≠ .closed → c.socket = some s

def World.Moored (w : World ω) : Prop := w.client.stance.Moored w.connections

/-- How a client and its connections stand after a happening. -/
inductive World.Shift (w : World ω) : Happening → Stance → Connections → Prop where
  | rest {h : Happening} (hc : h.calm = true) : Shift w h w.client.stance w.connections
  | connected {h : Happening} (hc : h.calm = true) (hs : w.client.socket = none) :
      Shift w h
        ⟨w.client.settings, some (w.client.generation + 1), w.client.generation + 1, false, false,
          false, false⟩
        (w.connections.wire (.connect (w.client.generation + 1) w.client.settings.url))
  | stopped : Shift w .stop
      ⟨w.client.settings, none, w.client.generation + 1, false, true, false, false⟩
      (w.connections.drop w.client.socket)
  | missed {s : Socket} {sig : Signal} {k : Connection} (hk : w.connections s = some k)
      (hopen : k.state ≠ .closed) (hs : w.client.socket ≠ some s) :
      Shift w (.signal s sig) w.client.stance (w.connections.tell s sig)
  | opened {s : Socket} (hs : w.client.socket = some s) (pinging : Bool) :
      Shift w (.signal s .opened) { w.client.stance with connected := true, pinging := pinging }
        (w.connections.tell s .opened)
  | closed {s : Socket} (hs : w.client.socket = some s) (code : Float) (reason : Text) :
      Shift w (.signal s (.closed code reason))
        ⟨w.client.settings, none, w.client.generation, false, false, true, false⟩
        (w.connections.tell s (.closed code reason))

namespace World

theorem moored_create (settings : Settings) (store : Book Float × (Tracker × ω)) :
    (create settings store).Moored where
  stopped _ := rfl
  reconnecting := rfl
  pinging h := by cases h
  held s h := by cases h
  free _ := ⟨rfl, fun k hk => by cases hk⟩
  known s k hk := by cases hk
  live s k hk := by cases hk

theorem Moored.listens (h : w.Moored) {s : Socket} (hs : w.client.socket = some s) :
    w.client.isCurrent s = true := by
  rw [Client.isCurrent, beq_iff_eq]
  exact (h.held s hs).1

theorem Moored.stale (h : w.Moored) {s : Socket} {k : Connection} (hk : w.connections s = some k)
    (hopen : k.state ≠ .closed) (hs : w.client.socket ≠ some s) :
    w.client.isCurrent s = false := by
  rw [Client.isCurrent, beq_eq_false_iff_ne]
  rintro rfl
  cases hheld : w.client.socket with
  | none => exact hopen ((h.free hheld).2 k hk)
  | some s =>
    apply hs
    rw [hheld]
    exact congrArg some (h.held s hheld).1

theorem Moored.fresh (h : w.Moored) : w.connections (w.client.generation + 1) = none := by
  cases hk : w.connections (w.client.generation + 1) with
  | none => rfl
  | some k => exact absurd (h.known _ k hk) (Nat.not_succ_le_self _)

theorem Moored.running (h : w.Moored) {s : Socket} (hs : w.client.socket = some s) :
    w.client.stopped = false := by
  cases hstop : w.client.stopped with
  | false => rfl
  | true =>
    have hnone : w.client.socket = none := h.stopped hstop
    rw [hs] at hnone
    cases hnone

theorem Moored.socket_of_connected (h : w.Moored) (hc : w.client.connected = true) :
    ∃ s, w.client.socket = some s := by
  cases hs : w.client.socket with
  | some s => exact ⟨s, rfl⟩
  | none =>
    have hfree : w.client.connected = false := (h.free hs).1
    rw [hc] at hfree
    cases hfree

theorem Moored.unpinged (h : w.Moored) (hs : w.client.socket = none) :
    w.client.timers.ping.isSome = false := by
  cases hp : w.client.timers.ping.isSome with
  | false => rfl
  | true =>
    obtain ⟨s, hs'⟩ := h.socket_of_connected (h.pinging hp)
    rw [hs] at hs'
    cases hs'

theorem fits_signal {s : Socket} {sig : Signal} (hf : w.fits (.signal s sig) = true) :
    ∃ k, w.connections s = some k ∧ k.mayTell sig = true := by
  rw [fits] at hf
  cases hk : w.connections s with
  | none =>
    rw [hk] at hf
    cases hf
  | some k =>
    rw [hk] at hf
    exact ⟨k, rfl, hf⟩

theorem step_closed {s : Socket} (hc : w.client.isCurrent s = true)
    (hstop : w.client.stopped = false) (code : Float) (reason : Text) :
    w.step clock (.signal s (.closed code reason)) =
      (⟨{ w.client with
          connected := false, socket := none,
          timers := w.client.timers.clearPing }.scheduleReconnect,
        w.connections.tell s (.closed code reason),
        (w.store.1, (w.store.2.1.markResyncing, w.store.2.2))⟩,
        [.note (.disconnected code reason)]) := by
  have hrun : (w.client.handle clock (.signal s (.closed code reason))).run w.store =
      (.ok ({ w.client with
          connected := false, socket := none,
          timers := w.client.timers.clearPing }.scheduleReconnect,
        [.note (.disconnected code reason)]),
        (w.store.1, (w.store.2.1.markResyncing, w.store.2.2))) := by
    rw [Client.handle, Client.closed, hc, if_pos rfl]
    simp only [hstop, Bool.false_eq_true, if_false]
    rfl
  rw [step_of_ok hrun]
  rfl

theorem step_stale (clock : FeedM Float ω Float) {s : Socket} (sig : Signal)
    (hs : w.client.isCurrent s = false) :
    ∃ outputs, w.step clock (.signal s sig) =
        (⟨w.client, w.connections.tell s sig, w.store⟩, outputs) ∧
      (outputs = [] ∨ ∃ text, sig = .failed text ∧
        outputs = w.client.failed s (.raised text)) := by
  obtain ⟨outputs, hrun, houtputs⟩ := Client.handle_stale clock w.store sig hs
  refine ⟨outputs, ?_, houtputs⟩
  rw [step_of_ok hrun]
  obtain rfl | ⟨text, rfl, rfl⟩ := houtputs <;> rfl

theorem shift_connect {event : Happening} (hc : event.calm = true) {c : Client}
    (hs : w.client.socket = none)
    (hstance : c.stance =
      ⟨w.client.settings, none, w.client.generation, false, false, false, false⟩) :
    w.Shift event c.connect.1.stance (w.connections.wireAll c.connect.2) := by
  have hgen : c.generation = w.client.generation := congrArg Stance.generation hstance
  have hsettings : c.settings = w.client.settings := congrArg Stance.settings hstance
  have hconnect : c.connect.1.stance =
      { c.stance with socket := some (c.generation + 1), generation := c.generation + 1 } := rfl
  have hwire : w.connections.wireAll c.connect.2 =
      w.connections.wire (.connect (c.generation + 1) c.settings.url) := rfl
  rw [hwire, hconnect, hstance, hgen, hsettings]
  exact .connected hc hs

theorem shift_start (h : w.Moored) :
    w.Shift .start (w.step clock .start).1.client.stance (w.step clock .start).1.connections := by
  rw [step_start]
  unfold Client.start
  cases hstop : w.client.stopped with
  | false => exact .rest rfl
  | true =>
    have hs : w.client.socket = none := h.stopped hstop
    refine shift_connect rfl hs ?_
    have hreconnect : w.client.timers.reconnect.isSome = false := by
      have hwaits := h.reconnecting
      simp only [Client.stance, hstop, Bool.not_true, Bool.false_and] at hwaits
      exact hwaits
    have hconnected : w.client.connected = false := (h.free hs).1
    simp only [Client.stance, hs, hreconnect, hconnected, h.unpinged hs]

theorem shift_ring (h : w.Moored) {bell : Bell} (hf : w.fits (.ring bell) = true) :
    w.Shift (.ring bell) (w.step clock (.ring bell)).1.client.stance
      (w.step clock (.ring bell)).1.connections := by
  obtain ⟨a, ha⟩ := Option.isSome_iff_exists.mp hf
  rw [step_ring ha]
  cases bell with
  | reconnect =>
    have ha : w.client.timers.reconnect = some a := ha
    have hwaits := h.reconnecting
    simp only [Client.stance, ha, Option.isSome_some, eq_comm (a := true), Bool.and_eq_true,
      Bool.not_eq_true', Option.isNone_iff_eq_none] at hwaits
    obtain ⟨hstop, hs⟩ := hwaits
    unfold Client.ring
    simp only [hstop, Bool.false_eq_true, if_false]
    refine shift_connect rfl hs ?_
    have hconnected : w.client.connected = false := (h.free hs).1
    simp only [Client.stance, Timers.ring, hs, hconnected, h.unpinged hs, Option.isSome_none]
  | ping =>
    have ha : w.client.timers.ping = some a := ha
    have hstance : (w.client.ring (.ping, a)).1.stance = w.client.stance := by
      unfold Client.ring
      simp only
      split <;> simp [Client.stance, Timers.ring, ha]
    have hplain : ∀ o ∈ (w.client.ring (.ping, a)).2, o.plain = true := by
      unfold Client.ring
      simp only
      split
      · exact Client.send_plain _
      · exact List.forall_mem_nil _
    rw [hstance, Connections.wireAll_plain hplain]
    exact .rest rfl

theorem shift_stop :
    w.Shift .stop (w.step clock .stop).1.client.stance (w.step clock .stop).1.connections := by
  have hdrop : w.connections.wireAll w.client.stop.2 = w.connections.drop w.client.socket := by
    unfold Client.stop
    cases w.client.socket <;> rfl
  rw [step_stop, hdrop]
  exact .stopped

theorem shift_opened (h : w.Moored) {s : Socket} (hs : w.client.socket = some s) :
    w.Shift (.signal s .opened) (w.step clock (.signal s .opened)).1.client.stance
      (w.step clock (.signal s .opened)).1.connections := by
  rw [step_opened]
  unfold Client.opened
  rw [if_pos (h.listens hs)]
  have hplain : ∀ o ∈ Output.note (.subscribing w.client.settings.channel w.client.settings.instId)
      :: w.client.request .subscribe, o.plain = true :=
    List.forall_mem_cons.mpr ⟨rfl, Client.send_plain _⟩
  have hstance : ({ w.client with connected := true }.startPing).stance =
      { w.client.stance with
        connected := true
        pinging := ({ w.client with connected := true }.startPing).timers.ping.isSome } := by
    unfold Client.startPing
    simp only
    split <;> rfl
  rw [hstance, Connections.wireAll_plain hplain]
  exact .opened hs _

theorem shift_closed (h : w.Moored) {s : Socket} (hs : w.client.socket = some s) (code : Float)
    (reason : Text) :
    w.Shift (.signal s (.closed code reason))
      (w.step clock (.signal s (.closed code reason))).1.client.stance
      (w.step clock (.signal s (.closed code reason))).1.connections := by
  rw [step_closed (h.listens hs) (h.running hs)]
  have hreconnect : w.client.timers.reconnect = none := by
    have hwaits := h.reconnecting
    simp only [Client.stance, hs, Option.isNone_some, Bool.and_false,
      Option.isSome_eq_false_iff, Option.isNone_iff_eq_none] at hwaits
    exact hwaits
  have hstance : ({ w.client with
      connected := false, socket := none,
      timers := w.client.timers.clearPing }.scheduleReconnect).stance =
      ⟨w.client.settings, none, w.client.generation, false, false, true, false⟩ := by
    unfold Client.scheduleReconnect
    simp [Client.stance, Timers.clearPing, Timers.setReconnect, hreconnect, h.running hs]
  rw [hstance]
  exact .closed hs code reason

theorem Moored.shift_missed (h : w.Moored) {s : Socket} {k : Connection}
    (hk : w.connections s = some k) (hopen : k.state ≠ .closed) (hs : w.client.socket ≠ some s)
    (sig : Signal) :
    w.Shift (.signal s sig) (w.step clock (.signal s sig)).1.client.stance
      (w.step clock (.signal s sig)).1.connections := by
  obtain ⟨outputs, hstep, -⟩ := step_stale clock sig (h.stale hk hopen hs)
  rw [hstep]
  exact .missed hk hopen hs

theorem shift_calm {event : Happening} (hc : event.calm = true)
    (hheard : w.heard event = w.connections)
    (hrest : ∀ c outputs store,
      (w.client.handle clock event).run w.store = (.ok (c, outputs), store) →
        c.stance = w.client.stance ∧ ∀ o ∈ outputs, o.plain = true) :
    w.Shift event (w.step clock event).1.client.stance (w.step clock event).1.connections := by
  rcases hrun : (w.client.handle clock event).run w.store with ⟨e | ⟨c, outputs⟩, store⟩
  · rw [step_of_error hrun, hheard]
    exact .rest hc
  · obtain ⟨hstance, hplain⟩ := hrest c outputs store hrun
    rw [step_of_ok hrun, hheard, hstance, Connections.wireAll_plain hplain]
    exact .rest hc

theorem Moored.shift (clock : FeedM Float ω Float) (h : w.Moored) {event : Happening}
    (hf : w.fits event = true) :
    w.Shift event (w.step clock event).1.client.stance (w.step clock event).1.connections := by
  cases event with
  | start => exact shift_start h
  | stop => exact shift_stop
  | ring bell => exact shift_ring h hf
  | signal s sig =>
    obtain ⟨k, hk, htell⟩ := fits_signal hf
    cases sig with
    | failed text =>
      refine shift_calm rfl (Connections.tell_eq fun _ => rfl) fun c outputs store hrun => ?_
      cases hrun
      exact ⟨rfl, List.forall_mem_singleton.mpr rfl⟩
    | message text =>
      refine shift_calm rfl (Connections.tell_eq fun _ => rfl) fun c outputs store hrun => ?_
      obtain ⟨outputs', store', hrun', hout⟩ := bind_eq_ok hrun
      cases hout
      exact ⟨rfl, Client.message_plain hrun'⟩
    | opened =>
      have hopen : k.state ≠ .closed := Connection.open_of_mayTell htell fun _ he => by cases he
      by_cases hs : w.client.socket = some s
      · exact shift_opened h hs
      · exact h.shift_missed hk hopen hs .opened
    | closed code reason =>
      have hopen : k.state ≠ .closed := Connection.open_of_mayTell htell fun _ he => by cases he
      by_cases hs : w.client.socket = some s
      · exact shift_closed h hs code reason
      · exact h.shift_missed hk hopen hs (.closed code reason)
  | lapse | listen | unlisten =>
    refine shift_calm rfl rfl fun c outputs store hrun => ?_
    cases hrun
    exact ⟨rfl, List.forall_mem_nil _⟩
  | call call =>
    refine shift_calm rfl rfl fun c outputs store hrun => ?_
    obtain ⟨a, store', -, hout⟩ := bind_eq_ok hrun
    cases hout
    exact ⟨rfl, List.forall_mem_nil _⟩

end World

end LimitBook.Feed
