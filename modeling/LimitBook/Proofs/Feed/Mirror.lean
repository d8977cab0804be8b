import LimitBook.Proofs.Book.Mirror
import LimitBook.Proofs.Feed.Effect

namespace LimitBook.Feed

open Book BookM

variable {α ω : Type} [Scalar α]

/-- Events that bring a book the updates `us`, all without a fault, and nothing else. -/
inductive Brings : List (Event α) → List (LevelUpdate α) → Prop where
  | nil : Brings [] []
  | level {es : List (Event α)} {us : List (LevelUpdate α)} (u : LevelUpdate α)
      (hu : u.fault? = none) (h : Brings es us) : Brings (.call (.updateLevel u) :: es) (u :: us)
  | levels {es : List (Event α)} {us : List (LevelUpdate α)} (vs : List (LevelUpdate α))
      (hu : LevelUpdate.firstFault? vs = none) (h : Brings es us) :
      Brings (.call (.updateLevels vs) :: es) (vs ++ us)
  | increment {es : List (Event α)} {us : List (LevelUpdate α)} (e : Increment α)
      (hu : LevelUpdate.firstFault? e.updates = none) (h : Brings es us) :
      Brings (.increment e :: es) (e.updates ++ us)

/-- Events of which the first starts the book afresh, and which bring it the updates `us`. -/
inductive Restarts : List (Event α) → List (LevelUpdate α) → Prop where
  | reset {es : List (Event α)} {us : List (LevelUpdate α)} (h : Brings es us) :
      Restarts (.call .reset :: es) us
  | snapshot {es : List (Event α)} {us : List (LevelUpdate α)} (e : Snapshot α)
      (hu : LevelUpdate.firstFault? e.updates = none) (h : Brings es us) :
      Restarts (.snapshot e :: es) (e.updates ++ us)

variable [Scalar.Lawful α] {s : Book α × (Tracker × ω)} {clock : FeedM α ω α}
  {es : List (Event α)} {us more : List (LevelUpdate α)}

/-- Every one of some results is an outcome without fills. -/
def Quiet (rs : List (Except Fault (Outcome α))) : Prop := ∀ r ∈ rs, ∃ o, r = .ok o ∧ o.fills = []

omit [Scalar.Lawful α] in
/-- Where an event leaves a mirror without trading, and so do those behind it, all of them do. -/
theorem quiet_cons (hd : Discreet clock) (hb : s.1.busy = false) {e : Event α}
    (he : ∀ r b', Effect s.1.shut e r b' → b'.Mirrors us ∧ r.fills = [])
    (hes : ∀ {s : Book α × (Tracker × ω)}, s.1.Mirrors us → s.1.busy = false →
      Succeeded (results clock es s) →
        (after clock es s).1.Mirrors (us ++ more) ∧ Quiet (results clock es s))
    (hok : Succeeded (results clock (e :: es) s)) :
    (after clock (e :: es) s).1.Mirrors (us ++ more) ∧ Quiet (results clock (e :: es) s) := by
  obtain ⟨r, b', w, hrun, heffect⟩ | ⟨err, b', w, hrun, -⟩ := handle_ends hd hb e
  · rw [results_cons hrun] at hok
    obtain ⟨hm, hfills⟩ := he r b' heffect
    obtain ⟨hm', hquiet⟩ :=
      hes (s := (b'.reopened, w)) hm.reopened rfl (List.forall_mem_cons.mp hok).2
    rw [after_cons hrun, results_cons hrun]
    exact ⟨hm', List.forall_mem_cons.mpr ⟨⟨r, rfl, hfills⟩, hquiet⟩⟩
  · rw [results_cons hrun] at hok
    cases (List.forall_mem_cons.mp hok).1

theorem Brings.run (hd : Discreet clock) (h : Brings es more) (hm : s.1.Mirrors us)
    (hb : s.1.busy = false) (hok : Succeeded (results clock es s)) :
    (after clock es s).1.Mirrors (us ++ more) ∧ Quiet (results clock es s) := by
  induction h generalizing s us with
  | nil => exact ⟨by rwa [List.append_nil], fun r hr => by cases hr⟩
  | level u hu _ ih =>
    rw [List.append_cons]
    refine quiet_cons hd hb (fun r b' he => ?_) ih hok
    cases he with
    | call hc =>
      cases hc with
      | faulty hf =>
        rw [hu] at hf
        cases hf
      | updated _ ha => exact hm.shut.applies ha (List.forall_mem_singleton.mpr hu)
  | levels vs hu _ ih =>
    rw [← List.append_assoc]
    refine quiet_cons hd hb (fun r b' he => ?_) ih hok
    cases he with
    | call hc =>
      cases hc with
      | faultyBatch hf =>
        rw [hu] at hf
        cases hf
      | batch _ ha => exact hm.shut.applies ha (firstFault?_eq_none hu)
  | increment e hu _ ih =>
    rw [← List.append_assoc]
    refine quiet_cons hd hb (fun r b' he => ?_) ih hok
    cases he with
    | faultyIncrement hf =>
      rw [hu] at hf
      cases hf
    | increment _ ha =>
      obtain ⟨hm', hfills⟩ := hm.shut.applies ha (firstFault?_eq_none hu)
      exact ⟨hm'.numbered _, hfills⟩

/-- Events that start a book afresh leave a mirror of their updates, even if the clock has left
levels without orders before. -/
theorem Restarts.run (hd : Discreet clock) (h : Restarts es us) (hf : s.1.Filed)
    (hb : s.1.busy = false) (hok : Succeeded (results clock es s)) :
    (after clock es s).1.Mirrors us ∧ Quiet (results clock es s) := by
  cases h with
  | reset h =>
    have hreset : ∀ r b', Effect s.1.shut (.call .reset) r b' →
        b'.Mirrors [] ∧ r.fills = [] := fun r b' he => by
      cases he with
      | call hc =>
        cases hc
        exact ⟨mirrors_clear hf.shut, rfl⟩
    exact quiet_cons hd hb hreset (h.run hd) hok
  | snapshot e hu h =>
    refine quiet_cons hd hb (fun r b' he => ?_) (h.run hd) hok
    cases he with
    | faultySnapshot hf =>
      rw [hu] at hf
      cases hf
    | snapshot _ ha =>
      obtain ⟨hm', hfills⟩ := (mirrors_clear hf.shut).applies ha (firstFault?_eq_none hu)
      exact ⟨hm'.numbered _, hfills⟩

def crossingRestart : List (Event Float) :=
  [.call .reset, .call (.updateLevel ⟨.buy, 10, 5⟩),
    .increment ⟨2, 1, [⟨.sell, 9, 3⟩, ⟨.buy, 10, 4⟩]⟩]

theorem restarts_crossingRestart :
    Restarts crossingRestart [⟨.buy, 10, 5⟩, ⟨.sell, 9, 3⟩, ⟨.buy, 10, 4⟩] :=
  .reset (.level _ (by decide +kernel) (.increment _ (by decide +kernel) .nil))

/-- After a restart, whatever came before it, even calls that the clock broke off, its events
succeed if the clock does not fail. If they do, none of them has fills and no local order rests. A
price has a level just where the last size that the feed gave it counts, and the level holds one
aggregate of that size. So what is shown is the same as after any other restart with the same
updates for each price, in the same order for one price and in any order otherwise. -/
theorem mirror_after {ω : Type} {clock : FeedM Float ω Float} (hd : Discreet clock)
    (past : List (Event Float)) (symbol : Text) (w : Tracker × ω) {es : List (Event Float)}
    {us : List (LevelUpdate Float)} (h : Restarts es us) :
    let s := after clock past (Book.empty symbol, w)
    let b := (after clock es s).1
    (Reliable clock → Succeeded (results clock es s)) ∧ (Succeeded (results clock es s) →
      Quiet (results clock es s) ∧ b.size = 0 ∧
      (∀ side p, (p ∈ (b.ladder side).prices ↔ (LevelUpdate.standing? us side p).isSome = true) ∧
        b.shows? side p =
          (LevelUpdate.standing? us side p).map fun q => [(.external, q, q, 0)]) ∧
        ∀ {ω' : Type} {clock' : FeedM Float ω' Float} (past' : List (Event Float))
          (symbol' : Text) (w' : Tracker × ω') {es' : List (Event Float)}
          {us' : List (LevelUpdate Float)}, Discreet clock' → Restarts es' us' →
          (∀ side p, us'.filter (·.isFor side p) = us.filter (·.isFor side p)) →
          let s' := after clock' past' (Book.empty symbol', w')
          let b' := (after clock' es' s').1
          Succeeded (results clock' es' s') → ∀ side,
            (b'.ladder side).prices = (b.ladder side).prices ∧
              ∀ p, b'.shows? side p = b.shows? side p) := by
  intro s b
  have hb : s.1.busy = false := free_after hd past symbol w
  refine ⟨fun hr => succeeded_of_reliable hd hr es hb, fun hok => ?_⟩
  obtain ⟨hm, hquiet⟩ := h.run hd (filed_after hd past symbol w) hb hok
  refine ⟨hquiet, hm.size_eq, fun side p => ⟨hm.mem_prices side p, hm.shows?_eq side p⟩, ?_⟩
  intro ω' clock' past' symbol' w' es' us' hd' h' hkeys s' b' hok' side
  obtain ⟨hm', -⟩ :=
    h'.run hd' (filed_after hd' past' symbol' w') (free_after hd' past' symbol' w') hok'
  have hstands : ∀ p, LevelUpdate.standing? us' side p = LevelUpdate.standing? us side p :=
    fun p => by rw [LevelUpdate.standing?, LevelUpdate.standing?, hkeys]
  exact ⟨hm.prices_eq hm' hstands, fun p => by rw [hm.shows?_eq, hm'.shows?_eq, hstands]⟩

/-- A clock that looks at the book the first time it is asked, without catching the error that this
raises during an operation, and from then on tells the time. -/
def flinching : FeedM Float Bool Float := do
  if (← outside).2 then
    return 0
  modifyOutside fun t => (t.1, true)
  let _ ← perform (pure 0) (.depth 5)
  return 0

theorem discreet_flinching : Discreet flinching := by
  rintro ⟨b, t, flinched⟩ hb
  cases flinched with
  | true => rfl
  | false =>
    exact ((discreet_perform (pure 0) (.depth 5)).bind fun _ => discreet_pure 0) (b, t, true) hb

def flinchingPast : List (Event Float) :=
  [.call (.updateLevel ⟨.buy, 12, 1⟩), .call (.submit ⟨1, .buy, 11, 2, []⟩)]

theorem mirror_after_crossingRestart :
    let s := after flinching flinchingPast (Book.empty [], (Tracker.initial, false))
    let b := (after flinching crossingRestart s).1
    Discreet flinching ∧ (∃ k ∈ s.1.bids.levels, k.isEmpty = true) ∧
      Succeeded (results flinching crossingRestart s) ∧
        Quiet (results flinching crossingRestart s) ∧ b.size = 0 ∧
          b.shows? .buy 10 = some [(.external, 4, 4, 0)] ∧
            b.shows? .sell 9 = some [(.external, 3, 3, 0)] ∧ b.shows? .buy 11 = none ∧
              b.shows? .buy 12 = none := by
  intro s b
  have hok : Succeeded (results flinching crossingRestart s) := by
    unfold Succeeded
    decide +kernel
  obtain ⟨hquiet, hsize, hshows, -⟩ := (mirror_after discreet_flinching flinchingPast []
    (Tracker.initial, false) restarts_crossingRestart).2 hok
  refine ⟨discreet_flinching, by decide +kernel, hok, hquiet, hsize, (hshows _ _).2.trans ?_,
    (hshows _ _).2.trans ?_, (hshows _ _).2.trans ?_, (hshows _ _).2.trans ?_⟩
  all_goals decide +kernel

end LimitBook.Feed
