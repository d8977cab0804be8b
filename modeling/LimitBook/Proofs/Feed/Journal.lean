import LimitBook.Feed.Reconciler
import LimitBook.Proofs.Book.Run
import LimitBook.Proofs.Scalar.Double

namespace LimitBook

namespace Feed

open Book BookM

/-- What may happen to a book that a feed keeps. -/
inductive Event (α : Type) where
  | call (c : Call α)
  | snapshot (e : Snapshot α)
  | increment (e : Increment α)
  | resyncing

inductive Outcome (α : Type) where
  | answered (a : Answer α)
  | restarted (r : ReconcileResult α)
  | continued (r : ReconcileResult α)
  | noted

variable {α ω : Type} [Scalar α]

def handle (clock : FeedM α ω α) : Event α → FeedM α ω (Outcome α)
  | .call c => .answered <$> perform clock c
  | .snapshot e => .restarted <$> applySnapshot clock e
  | .increment e => .continued <$> applyIncrement clock e
  | .resyncing => (fun _ => .noted) <$> markResyncing

end Feed

/-- What an outcome tells a journal. An accepted snapshot empties it before the fills count. -/
def Journal.noted {α : Type} [Scalar α] (j : Journal α) : Feed.Outcome α → Journal α
  | .answered a => j.told a
  | .restarted (.applied fills _ _) => Journal.empty.fills fills
  | .continued (.applied fills _ _) => j.fills fills
  | .restarted (.rejected ..) | .continued (.rejected ..) | .noted => j

namespace Feed

open Book BookM

variable {α ω : Type} [Scalar α]

/-- A journal, and the book with its surroundings, after one event and after some. -/
def step (clock : FeedM α ω α) (p : Journal α × (Book α × (Tracker × ω))) (e : Event α) :
    Journal α × (Book α × (Tracker × ω)) :=
  match (handle clock e).run p.2 with
  | (.ok r, s) => (p.1.noted r, s)
  | (.error _, s) => (p.1, s)

def follow (clock : FeedM α ω α) (events : List (Event α))
    (p : Journal α × (Book α × (Tracker × ω))) : Journal α × (Book α × (Tracker × ω)) :=
  events.foldl (step clock) p

variable [Scalar.Lawful α] {s : Book α × (Tracker × ω)} {clock : FeedM α ω α}

theorem snapshot_answers (h : s.1.Sound) (hd : Discreet clock) (hr : Reliable clock)
    (hb : s.1.busy = false) (e : Snapshot α) :
    Answers (applySnapshot clock e) s fun r j => j.noted (.restarted r) := by
  unfold applySnapshot
  cases hu : LevelUpdate.firstFault? e.updates with
  | some f => exact ⟨.rejected f.1 f.2, s, rfl, hb, .refl h⟩
  | none =>
    obtain ⟨_, s₁, hreset, hb₁, hr₁⟩ := h.reset hb
    obtain ⟨fills, residual, s₂, hupdate, hb₂, hr₂⟩ := hr₁.sound.updateLevels_applied hd hr hb₁ hu
    obtain ⟨_, s₃, hnumber, hb₃, hr₃⟩ := hr₂.sound.setSequenceId hb₂ (some e.seqId)
    refine ⟨.applied fills none residual, (s₃.1, (s₃.2.1.afterSnapshot, s₃.2.2)), ?_, hb₃,
      (hr₁.trans hr₂).trans hr₃⟩
    simp only [bind_run, hreset, hupdate, hnumber]
    rfl

theorem increment_answers (h : s.1.Sound) (hd : Discreet clock) (hr : Reliable clock)
    (hb : s.1.busy = false) (e : Increment α) :
    Answers (applyIncrement clock e) s fun r j => j.noted (.continued r) := by
  unfold applyIncrement
  obtain ⟨r, s₁, hupdate, hb₁, hr₁⟩ := h.updateLevels hd hr hb e.updates
  cases r with
  | rejected reason u =>
    refine ⟨.rejected reason u, s₁, ?_, hb₁, hr₁⟩
    simp only [bind_run, book_run, hupdate]
    rfl
  | applied fills residual =>
    have hnumber : ∀ t : Tracker × ω,
        Answers (Book.setSequenceId (some e.seqId)) (s₁.1, t) fun _ j => j := fun t =>
      Sound.setSequenceId (s := (s₁.1, t)) hr₁.sound hb₁ _
    obtain ⟨_, s₂, hrun₂, hb₂, hr₂⟩ := hnumber
      (if (continuityFault? s.1.sequenceId e).isSome then (s₁.2.1.afterFault, s₁.2.2) else s₁.2)
    refine ⟨.applied fills (continuityFault? s.1.sequenceId e) residual, s₂, ?_, hb₂, hr₁.trans hr₂⟩
    simp only [bind_run, book_run, hupdate]
    cases hf : (continuityFault? s.1.sequenceId e).isSome with
    | true =>
      rw [hf, if_pos rfl] at hrun₂
      have hfault : (modifyTracker Tracker.afterFault : FeedM α ω Unit).run s₁ =
          (.ok (), (s₁.1, (s₁.2.1.afterFault, s₁.2.2))) := rfl
      simp only [if_true, bind_run, hfault, hrun₂]
      rfl
    | false =>
      rw [hf, if_neg Bool.false_ne_true] at hrun₂
      simp only [Bool.false_eq_true, if_false, bind_run, hrun₂]
      rfl

theorem handle_answers (h : s.1.Sound) (hd : Discreet clock) (hr : Reliable clock)
    (hb : s.1.busy = false) (e : Event α) :
    Answers (handle clock e) s fun r j => j.noted r := by
  cases e with
  | call c => exact (h.perform hd hr hb c).map _ fun _ => rfl
  | snapshot e => exact (snapshot_answers h hd hr hb e).map _ fun _ => rfl
  | increment e => exact (increment_answers h hd hr hb e).map _ fun _ => rfl
  | resyncing =>
    exact ⟨.noted, (s.1, (s.2.1.markResyncing, s.2.2)), rfl, hb, .refl h⟩

theorem step_tells (hd : Discreet clock) (hr : Reliable clock) (e : Event α)
    {p : Journal α × (Book α × (Tracker × ω))}
    (h : p.2.1.Sound ∧ p.2.1.busy = false ∧ p.1.Tells p.2.1.locals) :
    (step clock p e).2.1.Sound ∧ (step clock p e).2.1.busy = false ∧
      (step clock p e).1.Tells (step clock p e).2.1.locals := by
  obtain ⟨hs, hb, hj⟩ := h
  obtain ⟨r, s', hrun, hb', hrec⟩ := handle_answers hs hd hr hb e
  simp only [step, hrun]
  exact ⟨hrec.sound, hb', hrec.tells p.1 hj⟩

theorem follow_tells (hd : Discreet clock) (hr : Reliable clock) (events : List (Event α))
    {p : Journal α × (Book α × (Tracker × ω))}
    (h : p.2.1.Sound ∧ p.2.1.busy = false ∧ p.1.Tells p.2.1.locals) :
    (follow clock events p).2.1.Sound ∧ (follow clock events p).2.1.busy = false ∧
      (follow clock events p).1.Tells (follow clock events p).2.1.locals := by
  induction events generalizing p with
  | nil => exact h
  | cons e events ih => exact ih (step_tells hd hr e h)

def tradingEvents : List (Event Float) :=
  [.snapshot ⟨1, [⟨.sell, 10, 5⟩]⟩, .call (.submit ⟨1, .buy, 9, 4, []⟩),
    .increment ⟨2, 1, [⟨.sell, 9, 1⟩]⟩]

/-- After any events a journal shows, for every id, what remains and what is filled of the order
that rests under it, and nothing where none does. -/
theorem journal_after {ω : Type} {clock : FeedM Float ω Float} (hd : Discreet clock)
    (hr : Reliable clock) (events : List (Event Float)) (symbol : Text) (w : Tracker × ω) :
    let p := follow clock events (.empty, (Book.empty symbol, w))
    ∀ id, p.1 id = (p.2.1.getOrder? id).map Order.tally := by
  obtain ⟨hs, -, hj⟩ := follow_tells (p := (.empty, (Book.empty symbol, w))) hd hr events
    ⟨sound_empty symbol, rfl, Journal.tells_empty⟩
  exact hs.tells_iff.mp hj

theorem journal_after_tradingEvents :
    let p := follow (pure 0) tradingEvents (.empty, (Book.empty [], (Tracker.initial, ())))
    Discreet (pure 0 : FeedM Float Unit Float) ∧ Reliable (pure 0 : FeedM Float Unit Float) ∧
      p.1 1 = some (3, 1) ∧ (p.2.1.getOrder? 1).map Order.tally = some (3, 1) := by
  have h :=
    journal_after (discreet_pure 0) (reliable_pure 0) tradingEvents [] (Tracker.initial, ()) 1
  have hj : (follow (pure 0) tradingEvents (.empty, (Book.empty [], (Tracker.initial, ())))).1 1 =
      some (3, 1) := by decide +kernel
  exact ⟨discreet_pure 0, reliable_pure 0, hj, h.symm.trans hj⟩

end Feed

end LimitBook
