import LimitBook.Proofs.Feed.Client.Deed
import LimitBook.Proofs.Feed.Client.Standing

namespace LimitBook.Feed

variable {ω : Type} {clock : FeedM Float ω Float}

/-- What a client may say when it has subscribed. -/
inductive Phrase where
  | ping
  | resubscription

def Settings.texts (c : Settings) : Phrase → List Text
  | .ping => ["ping"]
  | .resubscription => [c.wording .unsubscribe, c.wording .subscribe]

/-- Nothing, or a subscription and any phrases after it. -/
def Settings.Word (c : Settings) (texts : List Text) : Prop :=
  texts = [] ∨ ∃ ps : List Phrase, texts = c.wording .subscribe :: ps.flatMap c.texts

theorem Settings.Word.append {c : Settings} {texts : List Text} (h : c.Word texts)
    (hne : texts ≠ []) (p : Phrase) : c.Word (texts ++ c.texts p) := by
  obtain rfl | ⟨ps, rfl⟩ := h
  · exact absurd rfl hne
  · refine .inr ⟨ps ++ [p], ?_⟩
    rw [List.flatMap_append, List.flatMap_singleton, List.cons_append]

def textsFor (s : Socket) (sent : List (Socket × Text)) : List Text :=
  sent.filterMap fun x => if x.1 = s then some x.2 else none

theorem textsFor_self (s : Socket) (texts : List Text) :
    textsFor s (texts.map fun text => (s, text)) = texts := by
  rw [textsFor, List.filterMap_map]
  exact (List.filterMap_congr fun _ _ => if_pos rfl).trans List.filterMap_some

theorem textsFor_of_ne {s s' : Socket} (hs : s' ≠ s) (texts : List Text) :
    textsFor s (texts.map fun text => (s', text)) = [] := by
  rw [textsFor, List.filterMap_map]
  exact List.filterMap_eq_nil_iff.mpr fun _ _ => if_neg hs

def Moment.said (m : Moment ω) : List (Socket × Text) := Feed.said m.outputs

/-- The texts handed to a socket in a run, in order. -/
def textsTo (s : Socket) (ms : List (Moment ω)) : List Text := ms.flatMap fun m => textsFor s m.said

theorem textsTo_snoc (s : Socket) (ms : List (Moment ω)) (m : Moment ω) :
    textsTo s (ms ++ [m]) = textsTo s ms ++ textsFor s m.said := by
  rw [textsTo, List.flatMap_append, List.flatMap_singleton]
  rfl

namespace World

variable {w : World ω} {event : Happening} {sent : List (Socket × Text)} {t : Tracker}

/-- A client is silent, or subscribes on a socket that opens, or says a phrase to the one by which
it is connected. -/
theorem Deed.said_cases (hd : Deed clock w event sent t) :
    sent = [] ∨ ∃ s texts, w.client.socket = some s ∧ sent = texts.map (fun text => (s, text)) ∧
      (event = .signal s .opened ∧ texts = [w.client.settings.wording .subscribe] ∨
        (event = .ring .ping ∨ ∃ text, event = .signal s (.message text)) ∧
          w.client.connected = true ∧ ∃ p, texts = w.client.settings.texts p) := by
  cases hd with
  | quiet | lost | restarted | faulted => exact .inl rfl
  | greeted he hs => exact .inr ⟨_, [_], hs, rfl, .inl ⟨he, rfl⟩⟩
  | pinged he hs hc => exact .inr ⟨_, ["ping"], hs, rfl, .inr ⟨.inl he, hc, .ping, rfl⟩⟩
  | resubscribed hf hs hc =>
    obtain ⟨s', text, he, hs', -⟩ := taken?_eq_some hf
    obtain rfl := Option.some.inj (hs.symm.trans hs')
    exact .inr ⟨_, [_, _], hs, rfl, .inr ⟨.inr ⟨text, he⟩, hc, .resubscription, rfl⟩⟩

/-- What has been said to the sockets of a run. -/
structure Spoken (past : List (Moment ω)) (w : World ω) : Prop where
  word : ∀ s, w.client.settings.Word (textsTo s past)
  greeted : w.client.connected = true → ∀ s, w.client.socket = some s → textsTo s past ≠ []
  begun : ∀ s, textsTo s past ≠ [] → ∃ k, w.connections s = some k ∧ k.state ≠ .connecting

variable {past : List (Moment ω)}

theorem spoken_nil (settings : Settings) (store : Book Float × (Tracker × ω)) :
    Spoken [] (create settings store) where
  word _ := .inl rfl
  greeted h := by cases h
  begun _ h := absurd rfl h

theorem Spoken.unopened (hp : Spoken past w) {s : Socket}
    (hf : w.fits (.signal s .opened) = true) : textsTo s past = [] := by
  obtain ⟨k, hk, htell⟩ := fits_signal hf
  have hstate : k.state = .connecting := of_decide_eq_true htell
  by_contra hne
  obtain ⟨k', hk', hbegun⟩ := hp.begun s hne
  obtain rfl := Option.some.inj (hk.symm.trans hk')
  exact hbegun hstate

theorem Spoken.word_step (hp : Spoken past w) (hd : Deed clock w event sent t)
    (hf : w.fits event = true) (s : Socket) :
    w.client.settings.Word (textsTo s past ++ textsFor s sent) := by
  obtain rfl | ⟨s', texts, hs', rfl, htexts⟩ := hd.said_cases
  · rw [textsFor, List.filterMap_nil, List.append_nil]
    exact hp.word s
  by_cases hs : s' = s
  · -- A socket that opens has not been spoken to, and one that is connected has been greeted.
    subst hs
    rw [textsFor_self]
    obtain ⟨rfl, rfl⟩ | ⟨-, hc, p, rfl⟩ := htexts
    · rw [hp.unopened hf]
      exact .inr ⟨[], rfl⟩
    · exact (hp.word s').append (hp.greeted hc s' hs') p
  · rw [textsFor_of_ne hs, List.append_nil]
    exact hp.word s

theorem Spoken.begun_step (hp : Spoken past w) (h : w.Moored) (hd : Deed clock w event sent t)
    (hf : w.fits event = true) {s : Socket} (hne : textsTo s past ++ textsFor s sent ≠ []) :
    ∃ k, (w.step clock event).1.connections s = some k ∧ k.state ≠ .connecting := by
  have hlater : ∀ k, w.connections s = some k → k.state ≠ .connecting →
      ∃ k, (w.step clock event).1.connections s = some k ∧ k.state ≠ .connecting := by
    intro k hk hbegun
    obtain ⟨k', hk', hkk'⟩ := h.later clock hf hk
    exact ⟨k', hk', hkk'.begun hbegun⟩
  by_cases hpast : textsTo s past = []
  · rw [hpast, List.nil_append] at hne
    obtain rfl | ⟨s', texts, hs', rfl, htexts⟩ := hd.said_cases
    · exact absurd rfl hne
    by_cases hs : s' = s
    · subst hs
      obtain ⟨rfl, -⟩ | ⟨-, hc, -⟩ := htexts
      · obtain ⟨k, hk⟩ := h.connection_of_signal clock hf rfl
        exact ⟨_, hk, nofun⟩
      · obtain ⟨-, k, hk, -, hstate⟩ := h.held s' hs'
        have hc : w.client.stance.connected = true := hc
        rw [if_pos hc] at hstate
        exact hlater k hk (hstate ▸ nofun)
    · exact absurd (textsFor_of_ne hs texts) hne
  · obtain ⟨k, hk, hbegun⟩ := hp.begun s hpast
    exact hlater k hk hbegun

theorem Spoken.step (hp : Spoken past w) (h : w.Moored) (hc : Aloof clock)
    (hf : w.fits event = true) :
    Spoken (past ++ [w.moment clock event]) (w.step clock event).1 where
  word s := by
    rw [h.settings hf, textsTo_snoc]
    exact hp.word_step (h.deed hc hf) hf s
  greeted hconnected s hs := by
    rw [textsTo_snoc]
    obtain ⟨hs', hconnected' | rfl⟩ := (h.shift clock hf).connected_cases hconnected hs
    · exact List.append_ne_nil_of_left_ne_nil (hp.greeted hconnected' s hs') _
    · have hsaid : (w.moment clock (.signal s .opened)).said =
          [w.client.settings.wording .subscribe].map fun text => (s, text) :=
        h.said_opened clock hs'
      rw [hsaid, textsFor_self]
      exact List.append_ne_nil_of_right_ne_nil _ nofun
  begun s hne := by
    rw [textsTo_snoc] at hne
    exact hp.begun_step h (h.deed hc hf) hf hne

theorem Recalls.standing_of_said (hr : Recalls past w) (h : w.Moored) {m : Moment ω}
    (hd : Deed clock w m.happening m.said t) {x : Socket × Text} (hx : x ∈ m.said) :
    Standing x.1 (past ++ [m]) := by
  obtain hsent | ⟨s, texts, hs, hsent, hcases⟩ := hd.said_cases
  · rw [hsent] at hx
    cases hx
  rw [hsent] at hx
  obtain ⟨text, -, rfl⟩ := List.mem_map.mp hx
  obtain ⟨he, -⟩ | ⟨he | ⟨text', he⟩, hc, -⟩ := hcases
  · refine hr.standing h hs ⟨m, List.mem_append_right _ (List.mem_singleton.mpr rfl), he⟩ ?_ ?_
    · exact fun code reason he' => by cases he.symm.trans he'
    · exact fun he' => by cases he.symm.trans he'
  all_goals
    obtain ⟨m', hm', ho⟩ := hr.opened hc s hs
    refine hr.standing h hs ⟨m', List.mem_append_left _ hm', ho⟩ ?_ ?_
    · exact fun code reason he' => by cases he.symm.trans he'
    · exact fun he' => by cases he.symm.trans he'

theorem spoken_after (hc : Aloof clock) (settings : Settings)
    (store : Book Float × (Tracker × ω)) {hs : List Happening}
    (ha : (create settings store).admits clock hs = true) :
    Spoken ((create settings store).moments clock hs) ((create settings store).after clock hs) :=
  (run_induction clock (P := fun past w => w.Moored ∧ Spoken past w)
    ⟨moored_create settings store, spoken_nil settings store⟩
    (fun _ _ _ h hf => ⟨h.1.step hf, h.2.step h.1 hc hf⟩) hs ha).2

theorem settings_after (settings : Settings) (store : Book Float × (Tracker × ω))
    {hs : List Happening} (ha : (create settings store).admits clock hs = true) :
    ((create settings store).after clock hs).client.settings = settings :=
  (run_induction clock (P := fun _ w => w.Moored ∧ w.client.settings = settings)
    ⟨moored_create settings store, rfl⟩
    (fun _ _ _ h hf => ⟨h.1.step hf, (h.1.settings hf).trans h.2⟩) hs ha).2

end World

end LimitBook.Feed
