import LimitBook.Proofs.Book.Priority
import LimitBook.Proofs.Book.Reachable
import LimitBook.Proofs.Feed.Effect

namespace LimitBook

namespace Book

variable {α : Type} [Scalar α] {b : Book α}

theorem Filed.mem_resting (h : b.Filed) {o : Order α} :
    o ∈ b.resting ↔ ∃ side, ∃ k ∈ b.levels side, ∃ r ∈ k.queue, r.order = o := by
  simp only [resting, List.mem_flatMap, List.mem_append, Level.orders, List.mem_map]
  constructor
  · rintro ⟨k, hk | hk, hr⟩
    · exact ⟨.buy, k, h.mem_levels.mp hk, hr⟩
    · exact ⟨.sell, k, h.mem_levels.mp hk, hr⟩
  · rintro ⟨side, k, hk, hr⟩
    have hk' := h.mem_levels.mpr hk
    cases side with
    | buy => exact ⟨k, .inl hk', hr⟩
    | sell => exact ⟨k, .inr hk', hr⟩

end Book

namespace Feed

open Book BookM

variable {α ω : Type} [Scalar α]

def Outcome.accepted? : Outcome α → Option (Order α)
  | .answered a => a.accepted?
  | .restarted _ | .continued _ | .noted => none

/-- The orders accepted, in the order of their acceptance. -/
def accepted (rs : List (Except Fault (Outcome α))) : List (Order α) :=
  rs.filterMap fun r => r.toOption.bind Outcome.accepted?

variable [Scalar.Lawful α] {b b' : Book α} {e : Event α} {r : Outcome α}

theorem Effect.served (he : Effect b e r b') (h : b.Sound) {f : Fill α} (hf : f ∈ r.fills)
    {id : OrderId} (hid : f.passive = .local id) :
    ∃ side, Served (.local id) (b.line side) (b'.line side) ∧
      ∀ s, e = .call (.submit s) → Served (.local id) (b.queue side) (b'.queue side) := by
  cases he with
  | call hc =>
    obtain ⟨side, hserved, hfull⟩ := hc.served h hf hid
    exact ⟨side, hserved, fun s he => hfull s (Event.call.inj he)⟩
  | faultySnapshot | faultyIncrement | resyncing => cases hf
  | snapshot hu ha =>
    obtain ⟨side, hserved⟩ := (ha.serves h.clear (firstFault?_eq_none hu)).served f hf id hid
    refine ⟨side, hserved.mono ?_ (.refl _), fun _ he => by cases he⟩
    rw [Book.line, clear_queue]
    exact List.nil_sublist _
  | increment hu ha =>
    obtain ⟨side, hserved⟩ := (ha.serves h (firstFault?_eq_none hu)).served f hf id hid
    exact ⟨side, hserved, fun _ he => by cases he⟩

theorem Effect.logged {log : List (Order α)} (he : Effect b e r b') (hb : b.Sound)
    (h : b.Logged log) : b'.Logged (log ++ r.accepted?.toList) := by
  cases he with
  | call hc => exact hc.logged hb h
  | faultySnapshot | faultyIncrement | resyncing => exact h.append_none
  | snapshot hu ha =>
    have hlogged := h.clear.applies hb.clear ha (firstFault?_eq_none hu)
    exact (hlogged.beside _ _).append_none
  | increment hu ha =>
    have hlogged := h.applies hb ha (firstFault?_eq_none hu)
    exact (hlogged.beside _ _).append_none

theorem Effect.priority {log : List (Order α)} (he : Effect b e r b') (h : b.Sound)
    (hl : b.Logged log) {f : Fill α} (hf : f ∈ r.fills) {id : OrderId}
    (hid : f.passive = .local id) :
    ∃ o, b.getOrder? id = some o ∧ ∀ x ∈ b'.resting, x.side = o.side →
      (x.isLocal = true ∨ ∃ sub, e = .call (.submit sub)) → Behind log x o := by
  have h' := he.sound h
  obtain ⟨side, hserved, hfull⟩ := he.served h hf hid
  obtain ⟨o, i, ho, rfl, hc, hline⟩ := h.served_ahead List.filter_sublist hserved
  have holocal : o.isLocal = true := by
    rw [Order.isLocal, (h.toFiled.getOrder?_eq_some.mp ho).1]
    rfl
  refine ⟨o, ho, fun x hx hside hkind => ?_⟩
  obtain ⟨side, k, hk, y, hy, rfl⟩ := h'.toFiled.mem_resting.mp hx
  obtain ⟨hyside, hyprice⟩ := (h'.kept side k hk).terms y hy
  obtain rfl : side = o.side := hyside.symm.trans hside
  have hqueue : (y.order.price, y.terms) ∈ b'.queue o.side :=
    mem_queue.mpr ⟨k, hk, y, hy, by rw [hyprice]⟩
  by_cases hlocal : y.order.isLocal = true
  · obtain ⟨hold, hplace⟩ := hline _ (List.mem_filter.mpr ⟨hqueue, hlocal⟩)
    exact hl.behind holocal hc hold hplace
  · -- An aggregate stands at the head of its level, so it is left only at a worse price.
    obtain ⟨sub, hsub⟩ := hkind.resolve_left hlocal
    obtain ⟨o', j, ho', -, -, hall⟩ := h.served_ahead (.refl _) (hfull sub hsub)
    obtain rfl : o' = o := Option.some.inj (ho'.symm.trans ho)
    obtain ⟨-, heq | hbetter | ⟨-, hylocal, -⟩⟩ := hall _ hqueue
    · have hylocal : y.order.isLocal = o'.isLocal := congrArg (·.2.2.isLocal) heq
      exact absurd (hylocal.trans holocal) hlocal
    · exact behind_of_better hbetter
    · exact absurd hylocal hlocal

theorem logged_after {s : Book α × (Tracker × ω)} {clock : FeedM α ω α} (hd : Discreet clock)
    (hr : Reliable clock) (events : List (Event α)) {log : List (Order α)} (h : s.1.Sound)
    (hb : s.1.busy = false) (hl : s.1.Logged log) :
    (after clock events s).1.Logged (log ++ accepted (results clock events s)) := by
  induction events generalizing s log with
  | nil =>
    rw [results, accepted, List.filterMap_nil, List.append_nil]
    exact hl
  | cons e events ih =>
    obtain ⟨r, b', w, hrun, he⟩ := handle_yields hd hr hb e
    have hl' := he.logged h.shut (hl.beside s.1.sequenceId true)
    have hrest := ih (s := (b'.reopened, w)) (he.sound h.shut).reopened rfl
      (hl'.beside b'.sequenceId false)
    rw [after_cons hrun, results_cons hrun]
    have haccepted : accepted (.ok r :: results clock events (b'.reopened, w)) =
        r.accepted?.toList ++ accepted (results clock events (b'.reopened, w)) := by
      unfold accepted
      rw [List.filterMap_cons]
      cases hr : r.accepted? <;> simp [Except.toOption, hr]
    rw [haccepted, ← List.append_assoc]
    exact hrest

omit [Scalar.Lawful α] in
theorem logged_empty (symbol : Text) : (Book.empty symbol : Book α).Logged [] where
  sorted := .nil
  arrived o ho := by cases ho
  last side d hd := by cases side <;> cases hd

def queuedEvents : List (Event Float) :=
  [.call (.submit ⟨1, .sell, 10, 2, []⟩), .call (.submit ⟨2, .sell, 10, 2, []⟩),
    .increment ⟨1, 0, [⟨.sell, 10, 1⟩]⟩, .call (.cancel 1), .call (.submit ⟨1, .sell, 10, 3, []⟩)]

/-- When a local order has traded, no local order is left on its side that had a better price, or
the same price and an earlier acceptance; and when it has traded with a submission, no aggregate
with a price as good. -/
theorem priority_after {ω : Type} {clock : FeedM Float ω Float} (hd : Discreet clock)
    (hr : Reliable clock) (events : List (Event Float)) (symbol : Text) (w : Tracker × ω)
    (e : Event Float) :
    let s := after clock events (Book.empty symbol, w)
    let log := accepted (results clock events (Book.empty symbol, w))
    ∃ r s', (handle clock e).run s = (.ok r, s') ∧
      ∀ f ∈ r.fills, ∀ id, f.passive = .local id → ∃ o, s.1.getOrder? id = some o ∧
        ∀ x ∈ s'.1.resting, x.side = o.side →
          (x.isLocal = true ∨ ∃ sub, e = .call (.submit sub)) → Behind log x o := by
  intro s log
  obtain ⟨hs, hb⟩ := sound_after hd hr events symbol w
  have hl : s.1.Logged log :=
    logged_after (s := (_, w)) hd hr events (sound_empty symbol) rfl (logged_empty symbol)
  obtain ⟨r, b', v, hrun, he⟩ := handle_yields hd hr hb e
  exact ⟨r, _, hrun, fun f hf id hid =>
    he.priority hs.shut (hl.beside s.1.sequenceId true) hf hid⟩

theorem priority_after_queuedEvents :
    let s := after (pure 0) queuedEvents (Book.empty [], (Tracker.initial, ()))
    let log := accepted (results (pure 0) queuedEvents (Book.empty [], (Tracker.initial, ())))
    let e : Event Float := .call (.submit ⟨3, .buy, 10, 2, []⟩)
    Discreet (pure 0 : FeedM Float Unit Float) ∧ Reliable (pure 0 : FeedM Float Unit Float) ∧
      ∃ r s', (handle (pure 0) e).run s = (.ok r, s') ∧
        r.fills.map (·.passive) = [.external, .local 2] ∧
          ∃ o, s.1.getOrder? 2 = some o ∧ ∀ x ∈ s'.1.resting, x.side = o.side → Behind log x o := by
  intro s log e
  obtain ⟨r, s', hrun, hfills⟩ := priority_after (discreet_pure 0) (reliable_pure 0) queuedEvents []
    (Tracker.initial, ()) e
  have hpassive : ((handle (pure 0) e).run s).1.toOption.map (fun r => r.fills.map (·.passive)) =
      some [.external, .local 2] := by decide +kernel
  rw [hrun] at hpassive
  have hpassive : r.fills.map (·.passive) = [.external, .local 2] := Option.some.inj hpassive
  have hmem : Party.local 2 ∈ r.fills.map (·.passive) := hpassive ▸ by simp
  obtain ⟨f, hf, hid⟩ := List.mem_map.mp hmem
  obtain ⟨o, ho, hbehind⟩ := hfills f hf 2 hid
  exact ⟨discreet_pure 0, reliable_pure 0, r, s', hrun, hpassive, o, ho,
    fun x hx hside => hbehind x hx hside (.inr ⟨_, rfl⟩)⟩

end Feed

end LimitBook
