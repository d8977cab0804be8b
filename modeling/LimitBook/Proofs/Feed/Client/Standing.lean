import LimitBook.Proofs.Feed.Client.Socket

namespace LimitBook.Feed

variable {ω : Type} {clock : FeedM Float ω Float} {w : World ω}

/-- `k'` is `k` later on: what has opened or closed has done so for good. -/
structure Connection.Later (k k' : Connection) : Prop where
  begun : k.state ≠ .connecting → k'.state ≠ .connecting
  ended : k.state = .closed → k'.state = .closed

namespace Connection

variable {k : Connection} {sig : Signal}

theorem Later.refl (k : Connection) : k.Later k := ⟨id, id⟩

theorem later_close (k : Connection) : k.Later k.close := ⟨id, id⟩

theorem later_told (h : k.mayTell sig = true) : k.Later (k.told sig) := by
  cases sig with
  | opened =>
    have hstate : k.state = .connecting := of_decide_eq_true h
    constructor
    · intro hbegun
      exact absurd hstate hbegun
    · intro hended
      rw [hstate] at hended
      cases hended
  | closed => exact ⟨fun _ => nofun, fun _ => rfl⟩
  | message | failed => exact .refl k

end Connection

namespace World

variable {event : Happening} {c : Stance} {ks : Connections} {s : Socket} {k : Connection}

theorem Shift.later (hshift : w.Shift event c ks) (h : w.Moored) (hf : w.fits event = true)
    (hk : w.connections s = some k) : ∃ k', ks s = some k' ∧ k.Later k' := by
  have htell : ∀ s' sig, w.fits (.signal s' sig) = true →
      ∃ k', w.connections.tell s' sig s = some k' ∧ k.Later k' := by
    intro s' sig hf
    obtain ⟨k', hk', htell⟩ := fits_signal hf
    by_cases hs : s = s'
    · subst hs
      obtain rfl := Option.some.inj (hk.symm.trans hk')
      exact ⟨_, Connections.tell_self hk, Connection.later_told htell⟩
    · exact ⟨k, (Connections.tell_of_ne hs).trans hk, .refl k⟩
  cases hshift with
  | rest => exact ⟨k, hk, .refl k⟩
  | connected =>
    have hne : s ≠ w.client.generation + 1 := by
      rintro rfl
      rw [h.fresh] at hk
      cases hk
    exact ⟨k, (Connections.wire_connect_of_ne hne).trans hk, .refl k⟩
  | stopped =>
    by_cases hs : w.client.socket = some s
    · rw [hs]
      exact ⟨k.close, Connections.drop_self hk, Connection.later_close k⟩
    · exact ⟨k, (Connections.drop_of_ne hs).trans hk, .refl k⟩
  | missed => exact htell _ _ hf
  | opened => exact htell _ _ hf
  | closed => exact htell _ _ hf

theorem Moored.later (clock : FeedM Float ω Float) (h : w.Moored) (hf : w.fits event = true)
    (hk : w.connections s = some k) :
    ∃ k', (w.step clock event).1.connections s = some k' ∧ k.Later k' :=
  (h.shift clock hf).later h hf hk

theorem Shift.connected_cases (hshift : w.Shift event c ks) (hc : c.connected = true)
    (hs : c.socket = some s) :
    w.client.socket = some s ∧ (w.client.connected = true ∨ event = .signal s .opened) := by
  cases hshift with
  | rest | missed => exact ⟨hs, .inl hc⟩
  | opened hs' =>
    have hs : w.client.socket = some s := hs
    obtain rfl := Option.some.inj (hs.symm.trans hs')
    exact ⟨hs, .inr rfl⟩
  | connected | stopped | closed => cases hc

theorem Shift.settings (hshift : w.Shift event c ks) : c.settings = w.client.settings := by
  cases hshift <;> rfl

theorem Moored.settings (h : w.Moored) (hf : w.fits event = true) :
    (w.step clock event).1.client.settings = w.client.settings :=
  (h.shift clock hf).settings

theorem Shift.generation_le (hshift : w.Shift event c ks) :
    w.client.generation ≤ c.generation := by
  cases hshift with
  | rest | missed | opened | closed => exact Nat.le_refl _
  | connected | stopped => exact Nat.le_succ _

theorem Shift.generation_of_stop (hshift : w.Shift .stop c ks) :
    c.generation = w.client.generation + 1 := by
  cases hshift with
  | rest hcalm | connected hcalm => cases hcalm
  | stopped => rfl

theorem Shift.connections_of_signal {sig : Signal} (hshift : w.Shift (.signal s sig) c ks)
    (hsig : (Happening.signal s sig).calm = false) : ks = w.connections.tell s sig := by
  cases hshift with
  | rest hcalm | connected hcalm => exact absurd hcalm (Bool.eq_false_iff.mp hsig)
  | missed | opened | closed => rfl

theorem Moored.connection_of_signal (clock : FeedM Float ω Float) (h : w.Moored) {sig : Signal}
    (hf : w.fits (.signal s sig) = true) (hsig : (Happening.signal s sig).calm = false) :
    ∃ k : Connection, (w.step clock (.signal s sig)).1.connections s = some (k.told sig) := by
  obtain ⟨k, hk, -⟩ := fits_signal hf
  have hks := (h.shift clock hf).connections_of_signal hsig
  exact ⟨k, (congrFun hks s).trans (Connections.tell_self hk)⟩

/-- The socket has opened, it has not closed, and the client has not been stopped since it was
made. -/
structure Standing (s : Socket) (past : List (Moment ω)) : Prop where
  opened : ∃ m ∈ past, m.happening = .signal s .opened
  unclosed : ∀ m ∈ past, ∀ code reason, m.happening ≠ .signal s (.closed code reason)
  unstopped : ∀ m ∈ past, m.happening = .stop → m.before.connections s = none

/-- What the world still shows of its past. -/
structure Recalls (past : List (Moment ω)) (w : World ω) : Prop where
  opened : w.client.connected = true → ∀ s, w.client.socket = some s →
    ∃ m ∈ past, m.happening = .signal s .opened
  closed : ∀ m ∈ past, ∀ s code reason, m.happening = .signal s (.closed code reason) →
    ∃ k, w.connections s = some k ∧ k.state = .closed
  stopped : ∀ m ∈ past, m.happening = .stop → ∀ s k, m.before.connections s = some k →
    s < w.client.generation

variable {past : List (Moment ω)}

theorem recalls_nil (settings : Settings) (store : Book Float × (Tracker × ω)) :
    Recalls [] (create settings store) where
  opened h := by cases h
  closed m hm := by cases hm
  stopped m hm := by cases hm

theorem Recalls.step (hr : Recalls past w) (h : w.Moored) (hf : w.fits event = true) :
    Recalls (past ++ [w.moment clock event]) (w.step clock event).1 where
  opened hc s hs := by
    obtain ⟨hs', hc' | rfl⟩ := (h.shift clock hf).connected_cases hc hs
    · obtain ⟨m, hm, he⟩ := hr.opened hc' s hs'
      exact ⟨m, List.mem_append_left _ hm, he⟩
    · exact ⟨_, List.mem_append_right _ (List.mem_singleton.mpr rfl), rfl⟩
  closed m hm s code reason he := by
    obtain hm | hm := List.mem_append.mp hm
    · obtain ⟨k, hk, hclosed⟩ := hr.closed m hm s code reason he
      obtain ⟨k', hk', hlater⟩ := h.later clock hf hk
      exact ⟨k', hk', hlater.ended hclosed⟩
    · obtain rfl := List.mem_singleton.mp hm
      obtain rfl : event = .signal s (.closed code reason) := he
      obtain ⟨k, hk⟩ := h.connection_of_signal clock hf rfl
      exact ⟨_, hk, rfl⟩
  stopped m hm he s k hk := by
    have hle := (h.shift clock hf).generation_le
    obtain hm | hm := List.mem_append.mp hm
    · exact Nat.lt_of_lt_of_le (hr.stopped m hm he s k hk) hle
    · obtain rfl := List.mem_singleton.mp hm
      obtain rfl : event = .stop := he
      have hstop := (h.shift clock hf).generation_of_stop
      exact Nat.lt_of_le_of_lt (h.known s k hk) (Nat.lt_of_lt_of_eq (Nat.lt_succ_self _) hstop.symm)

/-- A socket that has opened, and is held while neither it closes nor the client is stopped,
stands. -/
theorem Recalls.standing (hr : Recalls past w) (h : w.Moored) (hs : w.client.socket = some s)
    {m : Moment ω} (ho : ∃ m' ∈ past ++ [m], m'.happening = .signal s .opened)
    (hclosed : ∀ code reason, m.happening ≠ .signal s (.closed code reason))
    (hstop : m.happening ≠ .stop) : Standing s (past ++ [m]) where
  opened := ho
  unclosed m' hm code reason he := by
    obtain hm | hm := List.mem_append.mp hm
    · obtain ⟨k, hk, hend⟩ := hr.closed m' hm s code reason he
      obtain ⟨-, k', hk', -, hstate⟩ := h.held s hs
      obtain rfl := Option.some.inj (hk.symm.trans hk')
      rw [hend] at hstate
      split at hstate <;> cases hstate
    · obtain rfl := List.mem_singleton.mp hm
      exact hclosed code reason he
  unstopped m' hm he := by
    obtain hm | hm := List.mem_append.mp hm
    · cases hk : m'.before.connections s with
      | none => rfl
      | some k =>
        have hlt := hr.stopped m' hm he s k hk
        have hgen : s = w.client.generation := (h.held s hs).1
        exact absurd hgen (Nat.ne_of_lt hlt)
    · obtain rfl := List.mem_singleton.mp hm
      exact absurd he hstop

theorem recalls_after (settings : Settings) (store : Book Float × (Tracker × ω))
    {hs : List Happening} (ha : (create settings store).admits clock hs = true) :
    Recalls ((create settings store).moments clock hs) ((create settings store).after clock hs) :=
  (run_induction clock (P := fun past w => w.Moored ∧ Recalls past w)
    ⟨moored_create settings store, recalls_nil settings store⟩
    (fun _ _ _ h hf => ⟨h.1.step hf, h.2.step h.1 hf⟩) hs ha).2

end World

end LimitBook.Feed
