import LimitBook.Proofs.Feed.Client.Speech

namespace LimitBook.Feed

variable {ω : Type} {clock : FeedM Float ω Float}

def Tracker.Heeded (limit : Nat) (t : Tracker) : Prop := limit ≤ t.faults → t.state = .resyncing

/-- The client leaves the channel of a socket and subscribes again. -/
def Moment.Resubscribes (m : Moment ω) : Prop :=
  ∃ s, m.said = (m.before.client.settings.texts .resubscription).map fun text => (s, text)

/-- An accepted snapshot. -/
def Moment.Restarts (clock : FeedM Float ω Float) (m : Moment ω) : Prop :=
  m.before.accepts clock m.happening = true

/-- A snapshot, accepted or not. -/
def Moment.Answers (m : Moment ω) : Prop :=
  ∃ frame, m.before.taken? m.happening = some frame ∧ frame.action = .snapshot

theorem Tracker.afterFault_state (t : Tracker) :
    t.afterFault.state = .resyncing ↔ t.state = .resyncing := by
  unfold Tracker.afterFault
  by_cases ht : t.state = .resyncing
  · rw [if_pos ht]
    exact iff_of_true rfl ht
  · rw [if_neg ht]
    exact iff_of_false nofun ht

theorem Client.needsResync_iff {c : Client} {frame : BookFrame} {t : Tracker} :
    c.needsResync frame t = true ↔ frame.action = .update ∧
      c.settings.maxSequenceFaults ≤ t.faults ∧ t.state ≠ .resyncing := by
  unfold needsResync
  rw [Bool.and_eq_true, Bool.and_eq_true, decide_eq_true_iff, decide_eq_true_iff,
    decide_eq_true_iff, and_assoc]

namespace World

variable {w : World ω} {event : Happening} {sent : List (Socket × Text)} {t : Tracker}

theorem Deed.heeded (hd : Deed clock w event sent t)
    (hpositive : 1 ≤ w.client.settings.maxSequenceFaults)
    (h : w.tracker.Heeded w.client.settings.maxSequenceFaults) :
    t.Heeded w.client.settings.maxSequenceFaults := by
  intro hmany
  cases hd with
  | quiet | greeted | pinged => exact h hmany
  | lost | resubscribed => rfl
  | restarted => exact absurd (hpositive.trans hmany) (Nat.not_succ_le_zero 0)
  | faulted hf hu hq =>
    by_contra hstate
    rw [Client.needsResync_iff.mpr ⟨hu, hmany, hstate⟩] at hq
    cases hq

/-- A client resubscribes when an update makes too many faults, unless it waits for a snapshot. -/
theorem Deed.resubscribes_iff (hd : Deed clock w event sent t)
    (hpositive : 1 ≤ w.client.settings.maxSequenceFaults)
    (h : w.tracker.Heeded w.client.settings.maxSequenceFaults) :
    (∃ s, sent = (w.client.settings.texts .resubscription).map fun text => (s, text)) ↔
      ∃ frame, w.taken? event = some frame ∧ frame.action = .update ∧
        w.client.settings.maxSequenceFaults ≤ t.faults ∧ w.tracker.state ≠ .resyncing := by
  constructor
  · rintro ⟨s, hsent⟩
    have htwo : sent.length = 2 := congrArg List.length hsent
    cases hd with
    | quiet | greeted | pinged | lost | restarted | faulted => cases htwo
    | resubscribed hf _ _ ht hq =>
      obtain ⟨hu, hmany, hstate⟩ := Client.needsResync_iff.mp hq
      refine ⟨_, hf, hu, hmany, ?_⟩
      obtain rfl | rfl := ht
      · exact hstate
      · exact mt (Tracker.afterFault_state _).mpr hstate
  · rintro ⟨frame, hf, hu, hmany, hstate⟩
    cases hd with
    -- Faults that were too many before would have been heeded then.
    | quiet => exact absurd (h hmany) hstate
    | greeted he | lost he | pinged he =>
      rw [he] at hf
      cases hf
    | restarted => exact absurd (hpositive.trans hmany) (Nat.not_succ_le_zero 0)
    | faulted hf' _ hq =>
      obtain rfl := Option.some.inj (hf'.symm.trans hf)
      have hneeds := Client.needsResync_iff.mpr
        ⟨hu, hmany, mt (Tracker.afterFault_state w.tracker).mp hstate⟩
      rw [hneeds] at hq
      cases hq
    | resubscribed => exact ⟨_, rfl⟩

theorem Deed.resyncing (hd : Deed clock w event sent t) (h : w.tracker.state = .resyncing)
    (ha : w.accepts clock event = false) : t.state = .resyncing := by
  cases hd with
  | quiet | greeted | pinged => exact h
  | lost | resubscribed => rfl
  | restarted ha' =>
    rw [ha'] at ha
    cases ha
  | faulted => exact (Tracker.afterFault_state _).mpr h

theorem Moored.restarted_or_resyncing (h : w.Moored) (hc : Aloof clock)
    (ht : w.tracker.state = .resyncing) {hs : List Happening} (ha : w.admits clock hs = true) :
    (∃ m ∈ w.moments clock hs, m.Restarts clock) ∨
      (w.after clock hs).tracker.state = .resyncing := by
  refine (run_induction clock
    (P := fun past w => w.Moored ∧ ((∃ m ∈ past, m.Restarts clock) ∨ w.tracker.state = .resyncing))
    ⟨h, .inr ht⟩ ?_ hs ha).2
  rintro past w event ⟨h, hpast⟩ hf
  refine ⟨h.step hf, ?_⟩
  obtain ⟨m, hm, hrestart⟩ | ht := hpast
  · exact .inl ⟨m, List.mem_append_left _ hm, hrestart⟩
  cases haccepts : w.accepts clock event with
  | true => exact .inl ⟨_, List.mem_append_right _ (List.mem_singleton.mpr rfl), haccepts⟩
  | false => exact .inr ((h.deed hc hf).resyncing ht haccepts)

variable {settings : Settings} {store : Book Float × (Tracker × ω)} {hs : List Happening}

theorem heeded_after (hc : Aloof clock) (hpositive : 1 ≤ settings.maxSequenceFaults)
    (ht : store.2.1 = .initial) (ha : (create settings store).admits clock hs = true) :
    ((create settings store).after clock hs).tracker.Heeded settings.maxSequenceFaults := by
  refine (run_induction clock
    (P := fun _ w => w.Moored ∧ w.client.settings = settings ∧
      w.tracker.Heeded settings.maxSequenceFaults)
    ⟨moored_create settings store, rfl, ?_⟩ ?_ hs ha).2.2
  · intro hmany
    rw [tracker, create, ht] at hmany
    exact absurd (hpositive.trans hmany) (Nat.not_succ_le_zero 0)
  · rintro past w event ⟨h, rfl, hheeded⟩ hf
    exact ⟨h.step hf, h.settings hf, (h.deed hc hf).heeded hpositive hheeded⟩

theorem moment_of_mem (hc : Aloof clock) (hpositive : 1 ≤ settings.maxSequenceFaults)
    (ht : store.2.1 = .initial) (ha : (create settings store).admits clock hs = true)
    {m : Moment ω} (hm : m ∈ (create settings store).moments clock hs) :
    m.before.client.settings = settings ∧
      m.before.tracker.Heeded settings.maxSequenceFaults ∧
        Deed clock m.before m.happening m.said m.after.tracker := by
  obtain ⟨front, back, hsplit⟩ := List.append_of_mem hm
  obtain ⟨hs₁, event, hs₂, -, ha₁, hf, rfl, -⟩ := moments_split hsplit ha
  exact ⟨settings_after settings store ha₁, heeded_after hc hpositive ht ha₁,
    (moored_after settings store ha₁).deed hc hf⟩

/-- A client says nothing to a socket but a subscription, pings and resubscriptions, and nothing at
all to one that has not opened, has closed or was stopped. It resubscribes when an update makes too
many faults, unless it waits for a snapshot; it never leaves too many faults unheeded; and between
two resubscriptions a snapshot is accepted. -/
theorem speech_after (hc : Aloof clock) (hpositive : 1 ≤ settings.maxSequenceFaults)
    (ht : store.2.1 = .initial) (ha : (create settings store).admits clock hs = true) :
    let ms := (create settings store).moments clock hs
    (∀ s, settings.Word (textsTo s ms)) ∧
    (∀ (front back : List (Moment ω)) (m : Moment ω), ms = front ++ m :: back →
      ∀ x ∈ m.said, Standing x.1 (front ++ [m])) ∧
    (∀ m ∈ ms, m.Resubscribes ↔ ∃ frame, m.before.taken? m.happening = some frame ∧
      frame.action = .update ∧ settings.maxSequenceFaults ≤ m.after.tracker.faults ∧
        m.before.tracker.state ≠ .resyncing) ∧
    (∀ m ∈ ms, settings.maxSequenceFaults ≤ m.after.tracker.faults →
      m.after.tracker.state = .resyncing) ∧
    ∀ (front middle back : List (Moment ω)) (m m' : Moment ω),
      ms = front ++ m :: (middle ++ m' :: back) → m.Resubscribes → m'.Resubscribes →
        ∃ a ∈ middle, a.Restarts clock := by
  intro ms
  have hresubscribes : ∀ m ∈ ms, m.Resubscribes ↔ ∃ frame,
      m.before.taken? m.happening = some frame ∧ frame.action = .update ∧
        settings.maxSequenceFaults ≤ m.after.tracker.faults ∧
          m.before.tracker.state ≠ .resyncing := by
    intro m hm
    obtain ⟨rfl, hheeded, hd⟩ := moment_of_mem hc hpositive ht ha hm
    exact hd.resubscribes_iff hpositive hheeded
  have hheeds : ∀ m ∈ ms, settings.maxSequenceFaults ≤ m.after.tracker.faults →
      m.after.tracker.state = .resyncing := by
    intro m hm
    obtain ⟨rfl, hheeded, hd⟩ := moment_of_mem hc hpositive ht ha hm
    exact hd.heeded hpositive hheeded
  refine ⟨fun s => ?_, fun front back m hsplit x hx => ?_, hresubscribes, hheeds,
    fun front middle back m m' hsplit hm hm' => ?_⟩
  · have hword := (spoken_after hc settings store ha).word s
    rw [settings_after settings store ha] at hword
    exact hword
  · obtain ⟨hs₁, event, hs₂, rfl, ha₁, hf, rfl, -⟩ := moments_split hsplit ha
    have h := moored_after settings store ha₁
    exact (recalls_after settings store ha₁).standing_of_said h (h.deed hc hf) hx
  · have hmem : m ∈ ms := hsplit ▸ List.mem_append_right _ (List.mem_cons_self ..)
    have hmem' : m' ∈ ms := by
      rw [hsplit]
      exact List.mem_append_right _ (List.mem_cons_of_mem _ (List.mem_append_right _
        (List.mem_cons_self ..)))
    obtain ⟨-, -, -, hmany, -⟩ := (hresubscribes m hmem).mp hm
    obtain ⟨-, -, -, -, hstate'⟩ := (hresubscribes m' hmem').mp hm'
    have hstate := hheeds m hmem hmany
    obtain ⟨hs₁, event, hs₂, -, ha₁, hf, rfl, hrest, ha₂⟩ := moments_split hsplit ha
    obtain ⟨hs₃, event', hs₄, rfl, ha₃, -, rfl, -⟩ := moments_split hrest.symm ha₂
    have h : (((create settings store).after clock hs₁).step clock event).1.Moored :=
      (moored_after settings store ha₁).step hf
    exact (h.restarted_or_resyncing hc hstate ha₃).resolve_right hstate'

def strictSettings : Settings := { patientSettings with maxSequenceFaults := 1 }

def bidsText (action : Action) (seqId prevSeqId : Float) (bids : List (String × String)) : Text :=
  (Json.obj [
    ("arg", .obj [("channel", .str "books"), ("instId", .str "BTC-USDT")]),
    ("action", .str action.name),
    ("data", .arr [.obj [
      ("asks", .arr []),
      ("bids", .arr (bids.map fun (price, size) => .arr [.str price, .str size])),
      ("prevSeqId", .num prevSeqId),
      ("seqId", .num seqId)]])]).print

def faultyFeed : List Happening :=
  [.start, .signal 1 .opened,
    .signal 1 (.message (bidsText .snapshot 1 (-1) [("100", "5")])),
    .signal 1 (.message (bidsText .update 5 4 [])),
    .signal 1 (.message (bidsText .update 9 8 [])),
    .ring .ping,
    .signal 1 (.message (bidsText .snapshot 20 (-1) [("99", "2")])),
    .signal 1 (.message (bidsText .update 30 25 []))]

/-- A client that puts up with no fault has two before a snapshot and one after it. The second is
not answered, and the third is. -/
theorem speech_after_faultyFeed :
    let w := create strictSettings (Book.empty [], (Tracker.initial, ()))
    let ms := w.moments (pure 0) faultyFeed
    Aloof (pure 0 : FeedM Float Unit Float) ∧ w.admits (pure 0) faultyFeed = true ∧
      (textsTo 1 ms).length = 6 ∧ strictSettings.Word (textsTo 1 ms) ∧
        ∀ m ∈ ms, 1 ≤ m.after.tracker.faults → m.after.tracker.state = .resyncing := by
  intro w ms
  have hpositive : 1 ≤ strictSettings.maxSequenceFaults := by decide
  obtain ⟨ha, hlength⟩ : w.admits (pure 0) faultyFeed = true ∧ (textsTo 1 ms).length = 6 := by
    decide +kernel
  obtain ⟨hword, -, -, hheeds, -⟩ := speech_after (aloof_pure 0) hpositive rfl ha
  exact ⟨aloof_pure 0, ha, hlength, hword 1, hheeds⟩

/-- Something has been said to a socket, and nothing that answers it has happened since. -/
def Asked (answers : Moment ω → Prop) (x : Socket × Text) (past : List (Moment ω)) : Prop :=
  ∃ front m back, past = front ++ m :: back ∧ x ∈ m.said ∧ ∀ a ∈ back, ¬ answers a

section Asked

variable {answers : Moment ω → Prop} {x : Socket × Text} {past : List (Moment ω)} {m : Moment ω}

theorem asked_of_said (past : List (Moment ω)) (hx : x ∈ m.said) : Asked answers x (past ++ [m]) :=
  ⟨past, m, [], rfl, hx, List.forall_mem_nil _⟩

theorem Asked.snoc (h : Asked answers x past) (hm : ¬ answers m) :
    Asked answers x (past ++ [m]) := by
  obtain ⟨front, m', back, rfl, hx, hback⟩ := h
  refine ⟨front, m', back ++ [m], ?_, hx, ?_⟩
  · rw [List.append_assoc, List.cons_append]
  · exact List.forall_mem_append.mpr ⟨hback, List.forall_mem_singleton.mpr hm⟩

theorem not_asked_snoc (past : List (Moment ω)) (hsaid : m.said = []) (hm : answers m) :
    ¬ Asked answers x (past ++ [m]) := by
  rintro ⟨front, m', back, hsplit, hx, hback⟩
  obtain rfl | ⟨back, a, rfl⟩ := List.eq_nil_or_concat' back
  · obtain ⟨-, hlast⟩ := List.append_inj' hsplit rfl
    obtain rfl := List.singleton_inj.mp hlast
    rw [hsaid] at hx
    cases hx
  · rw [← List.cons_append, ← List.append_assoc] at hsplit
    obtain ⟨-, hlast⟩ := List.append_inj' hsplit rfl
    obtain rfl := List.singleton_inj.mp hlast
    exact hback m (List.mem_append_right _ (List.mem_singleton.mpr rfl)) hm

end Asked

theorem Deed.silent_of_snapshot (hd : Deed clock w event sent t) {frame : BookFrame}
    (hf : w.taken? event = some frame) (ha : frame.action = .snapshot) : sent = [] := by
  cases hd with
  | quiet | lost | restarted | faulted => rfl
  | greeted he | pinged he =>
    rw [he] at hf
    cases hf
  | resubscribed hf' _ _ _ hq =>
    obtain rfl := Option.some.inj (hf.symm.trans hf')
    obtain ⟨hu, -⟩ := Client.needsResync_iff.mp hq
    rw [ha] at hu
    cases hu

theorem accepts_of_update {frame : BookFrame} (hf : w.taken? event = some frame)
    (hu : frame.action = .update) : w.accepts clock event = false := by
  rw [accepts, hf, Option.any_some, hu]
  rfl

/-- A tracker that waits for a snapshot has waited before, or the client has just resubscribed, or
it has lost its socket. -/
theorem Deed.resyncing_cases (hd : Deed clock w event sent t) (ht : t.state = .resyncing) :
    (w.tracker.state = .resyncing ∧ w.accepts clock event = false) ∨
      (∃ s, w.client.socket = some s ∧ (s, w.client.settings.wording .subscribe) ∈ sent) ∨
        ∃ s code reason, w.client.socket = some s ∧ event = .signal s (.closed code reason) := by
  cases hd with
  | quiet ha => exact .inl ⟨ht, ha⟩
  | greeted he hs => exact .inr (.inl ⟨_, hs, List.mem_singleton.mpr rfl⟩)
  | pinged he => exact .inl ⟨ht, he ▸ rfl⟩
  | lost he hs => exact .inr (.inr ⟨_, _, _, hs, he⟩)
  | restarted => cases ht
  | faulted hf hu => exact .inl ⟨(Tracker.afterFault_state _).mp ht, accepts_of_update hf hu⟩
  | resubscribed hf hs => exact .inr (.inl ⟨_, hs, List.mem_cons_of_mem _ (List.mem_cons_self ..)⟩)

theorem Moored.unconnected_of_closed (h : w.Moored) {s : Socket} (hs : w.client.socket = some s)
    (code : Float) (reason : Text) :
    (w.step clock (.signal s (.closed code reason))).1.client.connected = false := by
  rw [step_closed (h.listens hs) (h.running hs)]
  unfold Client.scheduleReconnect
  split <;> rfl

/-- A client that is connected and waits for a snapshot has subscribed on its socket, and has had
no snapshot that was accepted since. -/
def Waits (clock : FeedM Float ω Float) (past : List (Moment ω)) (w : World ω) : Prop :=
  w.client.connected = true → w.tracker.state = .resyncing → ∃ s, w.client.socket = some s ∧
    Asked (Moment.Restarts clock) (s, w.client.settings.wording .subscribe) past

theorem Waits.step {past : List (Moment ω)} (hp : Waits clock past w) (h : w.Moored)
    (hc : Aloof clock) (hf : w.fits event = true) :
    Waits clock (past ++ [w.moment clock event]) (w.step clock event).1 := by
  intro hconnected hstate
  obtain ⟨s, hs⟩ := (h.step hf).socket_of_connected hconnected
  obtain ⟨hs', hconnected'⟩ := (h.shift clock hf).connected_cases hconnected hs
  rw [h.settings hf]
  refine ⟨s, hs, ?_⟩
  obtain hconnected' | rfl := hconnected'
  · obtain ⟨hstate', haccepts⟩ | ⟨s', hheld, hsaid⟩ | ⟨s', code, reason, hheld, rfl⟩ :=
      (h.deed hc hf).resyncing_cases hstate
    · obtain ⟨s', hheld, hasked⟩ := hp hconnected' hstate'
      obtain rfl := Option.some.inj (hs'.symm.trans hheld)
      exact hasked.snoc (Bool.eq_false_iff.mp haccepts)
    · obtain rfl := Option.some.inj (hs'.symm.trans hheld)
      exact asked_of_said past hsaid
    · rw [h.unconnected_of_closed hheld] at hconnected
      cases hconnected
  · apply asked_of_said
    have hsaid : (w.moment clock (.signal s .opened)).said = _ := h.said_opened clock hs'
    rw [hsaid]
    exact List.mem_singleton.mpr rfl

/-- Whatever happens to a client, it does not wait for a snapshot on a connection without having
asked for one there. -/
theorem asked_after (hc : Aloof clock) (settings : Settings) (store : Book Float × (Tracker × ω))
    {hs : List Happening} (ha : (create settings store).admits clock hs = true) :
    let w := (create settings store).after clock hs
    w.client.connected = true → w.tracker.state = .resyncing → ∃ s, w.client.socket = some s ∧
      Asked (Moment.Restarts clock) (s, settings.wording .subscribe)
        ((create settings store).moments clock hs) := by
  intro w hconnected hstate
  have hwaits : w.Moored ∧ Waits clock ((create settings store).moments clock hs) w :=
    run_induction clock (P := fun past w => w.Moored ∧ Waits clock past w)
      ⟨moored_create settings store, fun hconnected => by cases hconnected⟩
      (fun _ _ _ h hf => ⟨h.1.step hf, h.2.step h.1 hc hf⟩) hs ha
  obtain ⟨s, hs, hasked⟩ := hwaits.2 hconnected hstate
  rw [settings_after settings store ha] at hasked
  exact ⟨s, hs, hasked⟩

def faultyUpdate : List Happening :=
  [.start, .signal 1 .opened,
    .signal 1 (.message (bidsText .snapshot 1 (-1) [("100", "5")])),
    .signal 1 (.message (bidsText .update 5 4 []))]

theorem asked_after_faultyUpdate :
    let w := create strictSettings (Book.empty [], (Tracker.initial, ()))
    Aloof (pure 0 : FeedM Float Unit Float) ∧ w.admits (pure 0) faultyUpdate = true ∧
      ∃ s, Asked (Moment.Restarts (pure 0)) (s, strictSettings.wording .subscribe)
        (w.moments (pure 0) faultyUpdate) := by
  intro w
  have ha : w.admits (pure 0) faultyUpdate = true := by decide +kernel
  obtain ⟨s, -, hasked⟩ := asked_after (aloof_pure 0) strictSettings
    (Book.empty [], (Tracker.initial, ())) ha (by decide +kernel) (by decide +kernel)
  exact ⟨aloof_pure 0, ha, s, hasked⟩

/-- A client that waits for a snapshot and gets one that is rejected waits on, and has not asked for
another one. -/
theorem unasked_of_rejected (hc : Aloof clock) (settings : Settings)
    (store : Book Float × (Tracker × ω)) {hs : List Happening}
    (ha : (create settings store).admits clock hs = true)
    (hstate : ((create settings store).after clock hs).tracker.state = .resyncing)
    (hf : ((create settings store).after clock hs).fits event = true) {frame : BookFrame}
    (htaken : ((create settings store).after clock hs).taken? event = some frame)
    (haction : frame.action = .snapshot)
    (hrejected : ((create settings store).after clock hs).accepts clock event = false) :
    ((create settings store).after clock (hs ++ [event])).tracker.state = .resyncing ∧
      ∀ x, ¬ Asked Moment.Answers x ((create settings store).moments clock (hs ++ [event])) := by
  have hd := (moored_after settings store ha).deed hc hf
  rw [after, List.foldl_append]
  refine ⟨hd.resyncing hstate hrejected, fun x => ?_⟩
  rw [moments_snoc]
  exact not_asked_snoc _ (hd.silent_of_snapshot htaken haction) ⟨frame, htaken, haction⟩

def spoiltSnapshot : Happening := .signal 1 (.message (bidsText .snapshot 20 (-1) [("0", "5")]))

/-- The client is connected and waits for a snapshot, with no request of one left to be answered. -/
theorem unasked_of_spoiltSnapshot :
    let w := create strictSettings (Book.empty [], (Tracker.initial, ()))
    w.admits (pure 0) (faultyUpdate ++ [spoiltSnapshot]) = true ∧
      (w.after (pure 0) (faultyUpdate ++ [spoiltSnapshot])).client.connected = true ∧
        (w.after (pure 0) (faultyUpdate ++ [spoiltSnapshot])).tracker.state = .resyncing ∧
          ∀ s, ¬ Asked Moment.Answers (s, strictSettings.wording .subscribe)
            (w.moments (pure 0) (faultyUpdate ++ [spoiltSnapshot])) := by
  intro w
  obtain ⟨ha, hf, htaken, hrejected⟩ : w.admits (pure 0) faultyUpdate = true ∧
      (w.after (pure 0) faultyUpdate).fits spoiltSnapshot = true ∧
        ((w.after (pure 0) faultyUpdate).taken? spoiltSnapshot).map (·.action) = some .snapshot ∧
          (w.after (pure 0) faultyUpdate).accepts (pure 0) spoiltSnapshot = false := by
    decide +kernel
  obtain ⟨frame, htaken, haction⟩ := Option.map_eq_some_iff.mp htaken
  obtain ⟨hstate, hunasked⟩ := unasked_of_rejected (aloof_pure 0) strictSettings
    (Book.empty [], (Tracker.initial, ())) ha (by decide +kernel) hf htaken haction hrejected
  obtain ⟨ha', hconnected⟩ : w.admits (pure 0) (faultyUpdate ++ [spoiltSnapshot]) = true ∧
      (w.after (pure 0) (faultyUpdate ++ [spoiltSnapshot])).client.connected = true := by
    decide +kernel
  exact ⟨ha', hconnected, hstate, fun s => hunasked _⟩

end World

end LimitBook.Feed
