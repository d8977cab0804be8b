import LimitBook.Proofs.Feed.Client.Shift

namespace LimitBook.Feed

variable {ω : Type} {clock : FeedM Float ω Float} {w : World ω}

namespace World

theorem Moored.connected (h : w.Moored) (hfree : w.client.socket = none) (url : Text) :
    Stance.Moored
      ⟨w.client.settings, some (w.client.generation + 1), w.client.generation + 1, false, false,
        false, false⟩
      (w.connections.wire (.connect (w.client.generation + 1) url)) where
  stopped he := by cases he
  reconnecting := rfl
  pinging he := by cases he
  held s he := by
    obtain rfl := Option.some.inj he
    exact ⟨rfl, _, Connections.wire_connect_self, rfl, rfl⟩
  free he := by cases he
  known s k hk := by
    by_cases hs : s = w.client.generation + 1
    · exact Nat.le_of_eq hs
    · rw [Connections.wire_connect_of_ne hs] at hk
      exact Nat.le_succ_of_le (h.known s k hk)
  live s k hk hcloses hopen := by
    by_cases hs : s = w.client.generation + 1
    · exact congrArg some hs.symm
    · rw [Connections.wire_connect_of_ne hs] at hk
      have hheld : w.client.socket = some s := h.live s k hk hcloses hopen
      rw [hfree] at hheld
      cases hheld

theorem Moored.stop (h : w.Moored) :
    Stance.Moored ⟨w.client.settings, none, w.client.generation + 1, false, true, false, false⟩
      (w.connections.drop w.client.socket) where
  stopped _ := rfl
  reconnecting := rfl
  pinging he := by cases he
  held s he := by cases he
  free _ := by
    refine ⟨rfl, fun k hk => ?_⟩
    obtain ⟨k', hk', -⟩ := Connections.drop_eq_some hk
    rw [h.fresh] at hk'
    cases hk'
  known s k hk := by
    obtain ⟨k', hk', -⟩ := Connections.drop_eq_some hk
    exact Nat.le_succ_of_le (h.known s k' hk')
  live s k hk hcloses hopen := by
    obtain ⟨k', hk', ⟨hs, rfl⟩ | ⟨-, rfl⟩⟩ := Connections.drop_eq_some hk
    · exact absurd (h.live s k hk' hcloses hopen) hs
    · cases hcloses

theorem Moored.missed (h : w.Moored) {s : Socket} {k : Connection} (hk : w.connections s = some k)
    (hopen : k.state ≠ .closed) (hs : w.client.socket ≠ some s) (sig : Signal) :
    w.client.stance.Moored (w.connections.tell s sig) where
  stopped := h.stopped
  reconnecting := h.reconnecting
  pinging := h.pinging
  held s' hs' := by
    have hne : s' ≠ s := fun he => hs (hs'.trans (congrArg some he))
    rw [Connections.tell_of_ne hne]
    exact h.held s' hs'
  free hnone := by
    obtain ⟨hconnected, hclosed⟩ := h.free hnone
    refine ⟨hconnected, fun k' hk' => ?_⟩
    have hne : w.client.stance.generation ≠ s := by
      rintro rfl
      exact hopen (hclosed k hk)
    rw [Connections.tell_of_ne hne] at hk'
    exact hclosed k' hk'
  known s' k' hk' := by
    obtain ⟨k'', hk'', -⟩ := Connections.tell_eq_some hk'
    exact h.known s' k'' hk''
  live s' k' hk' hcloses hopen' := by
    obtain ⟨k'', hk'', ⟨-, rfl⟩ | ⟨rfl, rfl⟩⟩ := Connections.tell_eq_some hk'
    · exact h.live s' k' hk'' hcloses hopen'
    · obtain rfl := Option.some.inj (hk.symm.trans hk'')
      rw [Connection.closes_told] at hcloses
      exact h.live s' k hk hcloses hopen

theorem Moored.opened (h : w.Moored) {s : Socket} (hs : w.client.socket = some s)
    (pinging : Bool) :
    Stance.Moored { w.client.stance with connected := true, pinging := pinging }
      (w.connections.tell s .opened) where
  stopped := h.stopped
  reconnecting := h.reconnecting
  pinging _ := rfl
  held s' hs' := by
    obtain rfl := Option.some.inj (hs.symm.trans hs')
    obtain ⟨hgen, k, hk, hcloses, -⟩ := h.held s hs
    exact ⟨hgen, _, Connections.tell_self hk, hcloses, rfl⟩
  free hnone := by
    have hnone : w.client.socket = none := hnone
    rw [hs] at hnone
    cases hnone
  known s' k' hk' := by
    obtain ⟨k'', hk'', -⟩ := Connections.tell_eq_some hk'
    exact h.known s' k'' hk''
  live s' k' hk' hcloses hopen := by
    obtain ⟨k'', hk'', ⟨-, rfl⟩ | ⟨rfl, -⟩⟩ := Connections.tell_eq_some hk'
    · exact h.live s' k' hk'' hcloses hopen
    · exact hs

theorem Moored.closed (h : w.Moored) {s : Socket} (hs : w.client.socket = some s) (code : Float)
    (reason : Text) :
    Stance.Moored ⟨w.client.settings, none, w.client.generation, false, false, true, false⟩
      (w.connections.tell s (.closed code reason)) where
  stopped _ := rfl
  reconnecting := rfl
  pinging he := by cases he
  held s' he := by cases he
  free _ := by
    refine ⟨rfl, fun k' hk' => ?_⟩
    obtain ⟨hgen, k, hk, -⟩ := h.held s hs
    have hgen : s = w.client.generation := hgen
    rw [← hgen, Connections.tell_self hk] at hk'
    obtain rfl := Option.some.inj hk'
    rfl
  known s' k' hk' := by
    obtain ⟨k'', hk'', -⟩ := Connections.tell_eq_some hk'
    exact h.known s' k'' hk''
  live s' k' hk' hcloses hopen := by
    obtain ⟨k'', hk'', ⟨hne, rfl⟩ | ⟨-, rfl⟩⟩ := Connections.tell_eq_some hk'
    · have hheld : w.client.socket = some s' := h.live s' k' hk'' hcloses hopen
      exact absurd (Option.some.inj (hheld.symm.trans hs)) hne
    · exact absurd rfl hopen

theorem Shift.moored {event : Happening} {c : Stance} {ks : Connections} (hs : w.Shift event c ks)
    (h : w.Moored) : c.Moored ks := by
  cases hs with
  | rest => exact h
  | connected _ hfree => exact h.connected hfree _
  | stopped => exact h.stop
  | missed hk hopen hs => exact h.missed hk hopen hs _
  | opened hs pinging => exact h.opened hs pinging
  | closed hs code reason => exact h.closed hs code reason

theorem Moored.step (h : w.Moored) {event : Happening} (hf : w.fits event = true) :
    (w.step clock event).1.Moored :=
  (h.shift _ hf).moored h

theorem moored_after (settings : Settings) (store : Book Float × (Tracker × ω))
    {hs : List Happening} (ha : (create settings store).admits clock hs = true) :
    ((create settings store).after clock hs).Moored :=
  run_induction clock (P := fun _ w => w.Moored) (moored_create settings store)
    (fun _ _ _ h hf => h.step hf) hs ha

/-- A connection that the client has not closed and that has not reported its end. -/
def live (w : World ω) (s : Socket) : Prop :=
  ∃ k, w.connections s = some k ∧ k.closes = 0 ∧ k.state ≠ .closed

theorem Moored.live_iff (h : w.Moored) (s : Socket) : w.live s ↔ w.client.socket = some s := by
  constructor
  · rintro ⟨k, hk, hcloses, hopen⟩
    exact h.live s k hk hcloses hopen
  · intro hs
    obtain ⟨-, k, hk, hcloses, hstate⟩ := h.held s hs
    refine ⟨k, hk, hcloses, ?_⟩
    rw [hstate]
    split <;> simp

/-- What a socket says that is not held leaves all of the client and of its book, and is not
answered. -/
theorem Moored.step_missed (h : w.Moored) {s : Socket} {sig : Signal}
    (hf : w.fits (.signal s sig) = true) (hs : w.client.socket ≠ some s)
    (hsig : ∀ text, sig ≠ .failed text) :
    w.step clock (.signal s sig) = (⟨w.client, w.connections.tell s sig, w.store⟩, []) := by
  obtain ⟨k, hk, htell⟩ := fits_signal hf
  have hopen : k.state ≠ .closed := Connection.open_of_mayTell htell hsig
  obtain ⟨outputs, hstep, rfl | ⟨text, he, -⟩⟩ :=
    step_stale clock sig (h.stale hk hopen hs)
  · exact hstep
  · exact absurd he (hsig text)

/-- Whatever happens to a client, in whatever order: one that is stopped holds no socket and has no
timer set, and one that is running holds a socket or waits to connect again, and not both. The
socket held is the only connection that is left alone, and no other is listened to. -/
theorem socket_after (settings : Settings) (store : Book Float × (Tracker × ω))
    {hs : List Happening} (ha : (create settings store).admits clock hs = true) :
    let w := (create settings store).after clock hs
    (w.client.stopped = true → w.client.socket = none ∧ w.client.timers.reconnect = none ∧
      w.client.timers.ping = none ∧ w.client.connected = false) ∧
    (w.client.stopped = false →
      (w.client.socket.isSome = true ↔ w.client.timers.reconnect = none)) ∧
    (w.client.timers.ping.isSome = true → w.client.connected = true) ∧
    (w.client.connected = true → w.client.socket.isSome = true) ∧
    (∀ s, w.live s ↔ w.client.socket = some s) ∧
    ∀ s sig, w.fits (.signal s sig) = true → w.client.socket ≠ some s →
      (∀ text, sig ≠ .failed text) →
      w.step clock (.signal s sig) = (⟨w.client, w.connections.tell s sig, w.store⟩, []) := by
  intro w
  have h : w.Moored := moored_after settings store ha
  have hwaits : w.client.timers.reconnect.isSome =
      (!w.client.stopped && w.client.socket.isNone) := h.reconnecting
  refine ⟨fun hstop => ?_, fun hrun => ?_, h.pinging, fun hconnected => ?_, h.live_iff,
    fun s sig hf hs hsig => h.step_missed hf hs hsig⟩
  · have hnone : w.client.socket = none := h.stopped hstop
    rw [hstop, Bool.not_true, Bool.false_and] at hwaits
    refine ⟨hnone, ?_, ?_, (h.free hnone).1⟩
    · exact Option.not_isSome_iff_eq_none.mp (Bool.eq_false_iff.mp hwaits)
    · exact Option.not_isSome_iff_eq_none.mp (Bool.eq_false_iff.mp (h.unpinged hnone))
  · rw [hrun, Bool.not_false, Bool.true_and] at hwaits
    rw [← Option.not_isSome_iff_eq_none, hwaits]
    cases w.client.socket <;> simp
  · obtain ⟨s, hs⟩ := h.socket_of_connected hconnected
    rw [hs]
    rfl

def patientSettings : Settings := ⟨"wss://feed", "books", "BTC-USDT", 1000, 15000, 3⟩

def hastyRestart : List Happening :=
  [.start, .signal 1 .opened, .stop, .start, .signal 3 .opened, .signal 1 (.message "pong")]

/-- After a stop and a start before the old connection has ended, the client keeps the new one when
the old one ends at last. -/
theorem socket_after_hastyRestart :
    let w := (create patientSettings (Book.empty [], (Tracker.initial, ()))).after (pure 0)
      hastyRestart
    (create patientSettings (Book.empty [], (Tracker.initial, ()))).admits (pure 0) hastyRestart =
        true ∧
      w.live 3 ∧ ¬ w.live 1 ∧
        (w.step (pure 0) (.signal 1 (.closed 1006 []))).1.client = w.client := by
  intro w
  have ha : (create patientSettings (Book.empty [], (Tracker.initial, ()))).admits (pure 0)
      hastyRestart = true := by decide +kernel
  have hs : w.client.socket = some 3 := by decide +kernel
  have hother : w.client.socket ≠ some 1 := by decide +kernel
  obtain ⟨-, -, -, -, hlive, hmissed⟩ :=
    socket_after patientSettings (Book.empty [], (Tracker.initial, ())) ha
  have hstep := hmissed 1 (.closed 1006 []) (by decide +kernel) hother fun _ he => by cases he
  exact ⟨ha, (hlive 3).mpr hs, mt (hlive 1).mp hother, by rw [hstep]⟩

end World

end LimitBook.Feed
