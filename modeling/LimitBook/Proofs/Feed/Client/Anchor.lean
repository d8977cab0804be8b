import LimitBook.Proofs.Feed.Client.Resync

namespace LimitBook.Feed

variable {ω : Type} {clock : FeedM Float ω Float}

/-- The last snapshot that was accepted in the past, and what has happened since. -/
def LastRestart (clock : FeedM Float ω Float) (past : List (Moment ω)) (m : Moment ω)
    (since : List (Moment ω)) : Prop :=
  (∃ front, past = front ++ m :: since) ∧ m.Restarts clock ∧ ∀ a ∈ since, ¬ a.Restarts clock

section LastRestart

variable {past since : List (Moment ω)} {m a : Moment ω}

theorem lastRestart_snoc (past : List (Moment ω)) (hm : m.Restarts clock) :
    LastRestart clock (past ++ [m]) m [] :=
  ⟨⟨past, rfl⟩, hm, List.forall_mem_nil _⟩

theorem LastRestart.snoc (h : LastRestart clock past m since) (ha : ¬ a.Restarts clock) :
    LastRestart clock (past ++ [a]) m (since ++ [a]) := by
  obtain ⟨⟨front, rfl⟩, hm, hsince⟩ := h
  refine ⟨⟨front, ?_⟩, hm, List.forall_mem_append.mpr ⟨hsince, ?_⟩⟩
  · rw [List.append_assoc, List.cons_append]
  · exact List.forall_mem_singleton.mpr ha

end LastRestart

namespace World

variable {w : World ω} {event : Happening} {past : List (Moment ω)} {s : Socket}

/-- A client that is connected stays so, by the same socket, unless it is stopped or loses it. -/
theorem Shift.keeps {c : Stance} {ks : Connections} (hshift : w.Shift event c ks)
    (hs : w.client.socket = some s) (hconnected : w.client.connected = true) :
    (c.connected = true ∧ c.socket = some s) ∨ event = .stop ∨
      ∃ code reason, event = .signal s (.closed code reason) := by
  cases hshift with
  | rest | missed => exact .inl ⟨hconnected, hs⟩
  | connected _ hnone =>
    rw [hs] at hnone
    cases hnone
  | stopped => exact .inr (.inl rfl)
  | opened => exact .inl ⟨rfl, hs⟩
  | closed hs' code reason =>
    obtain rfl := Option.some.inj (hs.symm.trans hs')
    exact .inr (.inr ⟨code, reason, rfl⟩)

theorem Deed.synced {sent : List (Socket × Text)} {t : Tracker} (hd : Deed clock w event sent t)
    (ht : t.state = .synced) : w.accepts clock event = true ∨ w.tracker.state = .synced := by
  cases hd with
  | quiet | greeted | pinged => exact .inr ht
  | lost | resubscribed => cases ht
  | restarted ha => exact .inl ha
  | faulted => exact absurd ht (Tracker.afterFault_unsynced _)

theorem Moored.accepted (h : w.Moored) (hf : w.fits event = true)
    (ha : w.accepts clock event = true) :
    ∃ s text, event = .signal s (.message text) ∧
      (w.step clock event).1.client.connected = true ∧
        (w.step clock event).1.client.socket = some s := by
  cases htaken : w.taken? event with
  | none =>
    rw [accepts_of_untaken htaken] at ha
    cases ha
  | some frame =>
    obtain ⟨s, text, rfl, hs, -, -⟩ := taken?_eq_some htaken
    obtain hstays | hstop | ⟨code, reason, hclosed⟩ :=
      (h.shift clock hf).keeps hs (h.connected_of_message hf hs)
    · exact ⟨s, text, rfl, hstays⟩
    · cases hstop
    · cases hclosed

/-- A book in step was brought there by the last snapshot that was accepted. The client is connected
by the socket on which that came, unless it has been stopped since. -/
def Anchored (clock : FeedM Float ω Float) (past : List (Moment ω)) (w : World ω) : Prop :=
  w.tracker.state = .synced → ∃ m since s text, LastRestart clock past m since ∧
    m.happening = .signal s (.message text) ∧
      ((w.client.connected = true ∧ w.client.socket = some s) ∨
        ∃ a ∈ since, a.happening = .stop)

theorem Anchored.step (hp : Anchored clock past w) (h : w.Moored) (hc : Aloof clock)
    (hf : w.fits event = true) :
    Anchored clock (past ++ [w.moment clock event]) (w.step clock event).1 := by
  intro hstate
  cases ha : w.accepts clock event with
  | true =>
    obtain ⟨s, text, he, hheld⟩ := h.accepted hf ha
    exact ⟨_, [], s, text, lastRestart_snoc past ha, he, .inl hheld⟩
  | false =>
    have hstate' := ((h.deed hc hf).synced hstate).resolve_left (Bool.eq_false_iff.mp ha)
    obtain ⟨m, since, s, text, hlast, he, hheld⟩ := hp hstate'
    have hlast' : LastRestart clock (past ++ [w.moment clock event]) m
        (since ++ [w.moment clock event]) := hlast.snoc (Bool.eq_false_iff.mp ha)
    refine ⟨m, _, s, text, hlast', he, ?_⟩
    obtain ⟨hconnected, hs⟩ | ⟨a, hmem, hstop⟩ := hheld
    · obtain hstays | hstop | ⟨code, reason, rfl⟩ := (h.shift clock hf).keeps hs hconnected
      · exact .inl hstays
      · exact .inr ⟨_, List.mem_append_right _ (List.mem_singleton.mpr rfl), hstop⟩
      · rw [step_closed (h.listens hs) (h.running hs)] at hstate
        cases hstate
    · exact .inr ⟨a, List.mem_append_left _ hmem, hstop⟩

/-- Whatever happens to a client and its feed, a book in step was brought there by the last snapshot
that was accepted, and the client is connected by the socket on which that came, unless it has been
stopped since. -/
theorem anchored_after (hc : Aloof clock) (settings : Settings)
    {store : Book Float × (Tracker × ω)} (ht : store.2.1 = .initial) {hs : List Happening}
    (ha : (create settings store).admits clock hs = true) :
    let w := (create settings store).after clock hs
    let ms := (create settings store).moments clock hs
    w.tracker.state = .synced → ∃ m since s text, LastRestart clock ms m since ∧
      m.happening = .signal s (.message text) ∧
        ((w.client.connected = true ∧ w.client.socket = some s) ∨
          ∃ a ∈ since, a.happening = .stop) := by
  intro w ms
  have hanchored : w.Moored ∧ Anchored clock ms w := by
    refine run_induction clock (P := fun past w => w.Moored ∧ Anchored clock past w)
      ⟨moored_create settings store, fun hstate => ?_⟩ ?_ hs ha
    · rw [tracker, create, ht] at hstate
      cases hstate
    · exact fun past w event h hf => ⟨h.1.step hf, h.2.step h.1 hc hf⟩
  exact hanchored.2

def restartedFeed : List Happening :=
  [.start, .signal 1 .opened,
    .signal 1 (.message (bidsText .snapshot 1 (-1) [("100", "5")])), .stop, .start,
    .signal 3 .opened, .signal 3 (.message (bidsText .snapshot 20 (-1) [("99", "2")]))]

theorem anchored_after_restartedFeed :
    let w := create strictSettings (Book.empty [], (Tracker.initial, ()))
    let ms := w.moments (pure 0) restartedFeed
    Aloof (pure 0 : FeedM Float Unit Float) ∧ w.admits (pure 0) restartedFeed = true ∧
      (w.after (pure 0) restartedFeed).tracker.state = .synced ∧
        ∃ m since s text, LastRestart (pure 0) ms m since ∧
          m.happening = .signal s (.message text) := by
  intro w ms
  obtain ⟨ha, hstate⟩ : w.admits (pure 0) restartedFeed = true ∧
      (w.after (pure 0) restartedFeed).tracker.state = .synced := by decide +kernel
  obtain ⟨m, since, s, text, hlast, he, -⟩ :=
    anchored_after (aloof_pure 0) strictSettings rfl ha hstate
  exact ⟨aloof_pure 0, ha, hstate, m, since, s, text, hlast, he⟩

def hastyFeed : List Happening :=
  [.start, .signal 1 .opened,
    .signal 1 (.message (bidsText .snapshot 1 (-1) [("100", "5")])), .stop, .start,
    .signal 3 .opened]

/-- A client that got a snapshot is stopped and started again. While it is stopped, and then on a
new socket on which no snapshot has come, the book is shown to be in step. -/
theorem unanchored_of_stop :
    let w := create strictSettings (Book.empty [], (Tracker.initial, ()))
    w.admits (pure 0) hastyFeed = true ∧
      (w.after (pure 0) (hastyFeed.take 4)).tracker.state = .synced ∧
        (w.after (pure 0) (hastyFeed.take 4)).client.connected = false ∧
          (w.after (pure 0) hastyFeed).tracker.state = .synced ∧
            (w.after (pure 0) hastyFeed).client.socket = some 3 ∧
              ∀ text, Happening.signal 3 (.message text) ∉ hastyFeed := by
  intro w
  have hsilent : ∀ text, Happening.signal 3 (.message text) ∉ hastyFeed := by
    simp [hastyFeed]
  obtain ⟨ha, hstopped, hconnected, hstate, hs⟩ : w.admits (pure 0) hastyFeed = true ∧
      (w.after (pure 0) (hastyFeed.take 4)).tracker.state = .synced ∧
        (w.after (pure 0) (hastyFeed.take 4)).client.connected = false ∧
          (w.after (pure 0) hastyFeed).tracker.state = .synced ∧
            (w.after (pure 0) hastyFeed).client.socket = some 3 := by decide +kernel
  exact ⟨ha, hstopped, hconnected, hstate, hs, hsilent⟩

end World

end LimitBook.Feed
