import LimitBook.Proofs.Book.Effect

namespace LimitBook

namespace BookM

variable {α β γ ω ω' : Type}

/-- Two computations on the same book, `busy` or free, in surroundings that `R` relates: they end
alike, with the same book, as busy as before, and with surroundings that `R` still relates. -/
def Alike (R : ω → ω' → Prop) (busy : Bool) (m : BookM α ω β) (m' : BookM α ω' β) : Prop :=
  ∀ b w w', b.busy = busy → R w w' → ∃ r b₁ w₁ w₁',
    m.run (b, w) = (r, (b₁, w₁)) ∧ m'.run (b, w') = (r, (b₁, w₁')) ∧ b₁.busy = busy ∧ R w₁ w₁'

section Rules

variable {R : ω → ω' → Prop} {busy : Bool}

theorem alike_pure (a : β) : Alike R busy (pure a : BookM α ω β) (pure a) :=
  fun b w w' hb hw => ⟨.ok a, b, w, w', rfl, rfl, hb, hw⟩

theorem alike_book : Alike R busy (book : BookM α ω (Book α)) book :=
  fun b w w' hb hw => ⟨.ok b, b, w, w', rfl, rfl, hb, hw⟩

theorem alike_modifyBook {f : Book α → Book α} (hf : ∀ b, (f b).busy = b.busy) :
    Alike R busy (modifyBook f : BookM α ω Unit) (modifyBook f) :=
  fun b w w' hb hw => ⟨.ok (), f b, w, w', rfl, rfl, (hf b).trans hb, hw⟩

theorem alike_modifyGetBook {f : Book α → β × Book α} (hf : ∀ b, (f b).2.busy = b.busy) :
    Alike R busy (modifyGetBook f : BookM α ω β) (modifyGetBook f) :=
  fun b w w' hb hw => ⟨.ok (f b).1, (f b).2, w, w', rfl, rfl, (hf b).trans hb, hw⟩

theorem Alike.bind {m : BookM α ω β} {m' : BookM α ω' β} {f : β → BookM α ω γ}
    {f' : β → BookM α ω' γ} (hm : Alike R busy m m') (hf : ∀ a, Alike R busy (f a) (f' a)) :
    Alike R busy (m >>= f) (m' >>= f') := by
  intro b w w' hb hw
  obtain ⟨r, b₁, w₁, w₁', hrun, hrun', hb₁, hw₁⟩ := hm b w w' hb hw
  simp only [bind_run, hrun, hrun']
  cases r with
  | error e => exact ⟨.error e, b₁, w₁, w₁', rfl, rfl, hb₁, hw₁⟩
  | ok a => exact hf a b₁ w₁ w₁' hb₁ hw₁

theorem Alike.map {m : BookM α ω β} {m' : BookM α ω' β} (hm : Alike R busy m m') (f : β → γ) :
    Alike R busy (f <$> m) (f <$> m') := by
  rw [map_eq_pure_bind, map_eq_pure_bind]
  exact hm.bind fun a => alike_pure (f a)

theorem Alike.exclusive {m : BookM α ω β} {m' : BookM α ω' β} (operation : Operation)
    (hm : Alike R true m m') : Alike R false (exclusive operation m) (exclusive operation m') := by
  intro b w w' hb hw
  obtain ⟨r, b₁, w₁, w₁', hrun, hrun', -, hw₁⟩ := hm b.shut w w' rfl hw
  refine ⟨r, b₁.reopened, w₁, w₁', ?_, ?_, rfl, hw₁⟩
  · rw [exclusive_run operation m hb, hrun]
  · rw [exclusive_run operation m' hb, hrun']

end Rules

end BookM

namespace Book

open BookM

variable {α ω ω' : Type} [Scalar α]

section Clocks

variable {b : Book α} {R : ω → ω' → Prop} {clock : BookM α ω α} {clock' : BookM α ω' α}

theorem accept_busy (s : Submission α) (now : α) : (b.accept s now).2.busy = b.busy := by
  unfold Book.accept Book.rest Book.enter
  simp only
  split <;> simp

theorem remove_busy (id : OrderId) : (b.remove id).2.busy = b.busy := by
  unfold Book.remove
  split
  · rfl
  · exact setLadder_busy ..

theorem alike_applyLevel (hc : Alike R true clock clock') (u : LevelUpdate α) :
    Alike R true (applyLevel clock u) (applyLevel clock' u) := by
  have huncross : ∀ b : Book α, b.uncross.2.busy = b.busy := fun b => release_busy _
  cases hn : negligible u.totalQty with
  | true =>
    simp only [Book.applyLevel, hn, if_true]
    exact (alike_modifyBook fun b => dropAggregate_busy).bind fun _ => alike_modifyGetBook huncross
  | false =>
    simp only [Book.applyLevel, hn, Bool.false_eq_true, if_false]
    refine (alike_modifyBook fun b => resize_busy).bind fun _ => hc.bind fun now => ?_
    exact (alike_modifyBook fun b => stamp_busy now).bind fun _ => alike_modifyGetBook huncross

theorem alike_applyLevels (hc : Alike R true clock clock') (us : List (LevelUpdate α))
    (r : List (Fill α) × Bool) :
    Alike R true (applyLevels clock us r) (applyLevels clock' us r) := by
  induction us generalizing r with
  | nil => exact alike_pure r
  | cons u us ih => exact (alike_applyLevel hc u).bind fun _ => ih _

theorem alike_perform (hc : Alike R true clock clock') (c : Call α) :
    Alike R false (perform clock c) (perform clock' c) := by
  cases c with
  | submit s =>
    refine .map (.exclusive .submit (alike_book.bind fun b => ?_)) _
    cases b.refusal? s with
    | some reason => exact alike_pure _
    | none => exact hc.bind fun now => alike_modifyGetBook fun b => accept_busy s now
  | cancel id => exact .map (.exclusive .cancel (alike_modifyGetBook fun b => remove_busy id)) _
  | reset => exact .map (.exclusive .reset (alike_modifyBook (f := clear) fun b => rfl)) _
  | updateLevel u =>
    refine .map (.exclusive .updateLevel ?_) _
    cases u.fault? with
    | some reason => exact alike_pure _
    | none => exact (alike_applyLevel hc u).bind fun _ => alike_pure _
  | updateLevels us =>
    refine .map (.exclusive .updateLevels ?_) _
    cases LevelUpdate.firstFault? us with
    | some f => exact alike_pure _
    | none => exact (alike_applyLevels hc us _).bind fun _ => alike_pure _
  | setSequenceId seq =>
    refine .map (.exclusive .setSequenceId (alike_modifyBook ?_)) _
    exact fun b => rfl
  | depth levels => exact .map (.exclusive .depth (alike_book.bind fun b => alike_pure _)) _

end Clocks

def Call.operation : Call α → Operation
  | .submit _ => .submit
  | .cancel _ => .cancel
  | .reset => .reset
  | .updateLevel _ => .updateLevel
  | .updateLevels _ => .updateLevels
  | .setSequenceId _ => .setSequenceId
  | .depth _ => .depth

abbrev Attempts (α : Type) := List (Call α × Except Fault (Answer α))

/-- Each of these calls has been refused. -/
def refusals (calls : List (Call α)) : Attempts α :=
  calls.map fun c => (c, .error (.busy c.operation))

def plain (tell : ω → α × ω) : BookM α ω α :=
  ExceptT.mk fun s => (.ok (tell s.2).1, (s.1, (tell s.2).2))

/-- Makes calls one after the other and goes on whatever comes of them. -/
def intrude (clock : BookM α (ω × Attempts α) α) : List (Call α) → BookM α (ω × Attempts α) Unit
  | [] => return
  | c :: calls => do
    let r ← attempt (perform clock c)
    modifyOutside fun w => (w.1, w.2 ++ [(c, r)])
    intrude clock calls

/-- A clock that makes calls of the book before it tells the time, each time those that `inner`
chooses. They would have `clock` for their own clock, which may again be one of this kind. -/
def intruder (clock : BookM α (ω × Attempts α) α)
    (inner : Book α × ω × Attempts α → List (Call α)) (tell : ω → α × ω) :
    BookM α (ω × Attempts α) α := do
  intrude clock (inner (← get))
  plain fun w => ((tell w.1).1, ((tell w.1).2, w.2))

section Intruders

variable {s : Book α × ω} {clock : BookM α ω α}

theorem perform_refused (c : Call α) (hb : s.1.busy = true) :
    (perform clock c).run s = (.error (.busy c.operation), s) := by
  have hmap : ∀ {β : Type} (operation : Operation) (f : β → Answer α) (body : BookM α ω β),
      (f <$> exclusive operation body).run s = (.error (.busy operation), s) := by
    intro β operation f body
    rw [map_run, exclusive_refused operation body hb]
    rfl
  cases c <;> exact hmap _ _ _

end Intruders

section Undisturbed

variable (clock : BookM α (ω × Attempts α) α) (inner : Book α × ω × Attempts α → List (Call α))
  (tell : ω → α × ω)

theorem intrude_run {b : Book α} (hb : b.busy = true) (calls : List (Call α)) (w : ω)
    (log : Attempts α) :
    (intrude clock calls).run (b, (w, log)) = (.ok (), (b, (w, log ++ refusals calls))) := by
  induction calls generalizing log with
  | nil =>
    rw [refusals, List.map_nil, List.append_nil]
    rfl
  | cons c calls ih =>
    have hc : (attempt (perform clock c)).run (b, (w, log)) =
        (.ok (.error (.busy c.operation)), (b, (w, log))) := by
      rw [attempt_run, perform_refused c hb]
    have hlog : log ++ refusals (c :: calls) =
        log ++ [(c, .error (.busy c.operation))] ++ refusals calls := by
      rw [List.append_assoc]
      rfl
    rw [hlog, ← ih]
    simp only [intrude, bind_run, hc]
    rfl

theorem intruder_run {b : Book α} (hb : b.busy = true) (w : ω) (log : Attempts α) :
    (intruder clock inner tell).run (b, (w, log)) =
      (.ok (tell w).1, (b, ((tell w).2, log ++ refusals (inner (b, (w, log)))))) := by
  have hget : (get : BookM α (ω × Attempts α) _).run (b, (w, log)) =
      (.ok (b, (w, log)), (b, (w, log))) := rfl
  simp only [intruder, bind_run, hget, intrude_run clock hb]
  rfl

/-- Beside a clock that makes no calls stands one that has made some, all refused. -/
def Beside (log : Attempts α) (w : ω) (w' : ω × Attempts α) : Prop :=
  w'.1 = w ∧ ∃ calls, w'.2 = log ++ refusals calls

theorem intruder_alike (log : Attempts α) :
    Alike (Beside log) true (plain tell) (intruder clock inner tell) := by
  rintro b w ⟨w', log'⟩ hb ⟨hw, calls, hlog⟩
  obtain rfl : w' = w := hw
  obtain rfl : log' = log ++ refusals calls := hlog
  refine ⟨.ok (tell w').1, b, (tell w').2, _, rfl, intruder_run clock inner tell hb w' _, hb,
    rfl, calls ++ inner (b, (w', log ++ refusals calls)), ?_⟩
  rw [refusals, refusals, refusals, List.map_append, List.append_assoc]

/-- A call of a free book does not notice that its clock uses the book, all that the clock asks for
is refused, and the book is free again. -/
theorem intruder_undisturbed {b : Book α} (hb : b.busy = false) (c : Call α) (w : ω)
    (log : Attempts α) :
    ∃ a b' w' calls, (perform (plain tell) c).run (b, w) = (.ok a, (b', w')) ∧
      (perform (intruder clock inner tell) c).run (b, (w, log)) =
        (.ok a, (b', (w', log ++ refusals calls))) ∧ b'.busy = false := by
  have hdiscreet : Discreet (plain tell : BookM α ω α) := fun _ _ => rfl
  have hreliable : Reliable (plain tell : BookM α ω α) := fun s _ => ⟨(tell s.2).1, rfl⟩
  obtain ⟨a, b', w', hrun, -⟩ := (perform_ends (s := (b, w)) hdiscreet hb c).yields hreliable
  obtain ⟨r, b₁, w₁, ⟨w₂, log'⟩, hplain, hintruder, hb₁, hw, calls, hlog⟩ :=
    alike_perform (intruder_alike clock inner tell log) c b w (w, log) hb
      ⟨rfl, [], (List.append_nil log).symm⟩
  rw [hrun] at hplain
  obtain ⟨rfl, hs⟩ := Prod.mk.inj hplain
  obtain ⟨rfl, rfl⟩ := Prod.mk.inj hs
  obtain rfl : w₂ = w' := hw
  obtain rfl : log' = log ++ refusals calls := hlog
  exact ⟨a, b'.reopened, w₂, calls, hrun, hintruder, rfl⟩

/-- However a book came about, a call of it does not notice that its clock uses the book: it gives
the answer, and leaves the book and the time, that it would with a clock that makes no calls.
Whatever such a clock asks for is refused, and whatever is asked for next is not. -/
theorem undisturbed_after {ω₀ : Type} (clock₀ : BookM α ω₀ α) (before : List (Call α))
    (symbol : Text) (w₀ : ω₀) (c : Call α) (w : ω) (log : Attempts α) :
    ∃ a b' w' calls,
      (perform (plain tell) c).run ((after clock₀ before (empty symbol, w₀)).1, w) =
        (.ok a, (b', w')) ∧
      (perform (intruder clock inner tell) c).run
          ((after clock₀ before (empty symbol, w₀)).1, (w, log)) =
        (.ok a, (b', (w', log ++ refusals calls))) ∧
      ∀ next, ∃ a' s', (perform (intruder clock inner tell) next).run
        (b', (w', log ++ refusals calls)) = (.ok a', s') := by
  have hb : (after clock₀ before (empty symbol, w₀)).1.busy = false :=
    after_induction (P := fun s : Book α × ω₀ => s.1.busy = false) rfl
      (fun s c hs => perform_busy c hs) before
  obtain ⟨a, b', w', calls, hplain, hintruder, hb'⟩ :=
    intruder_undisturbed clock inner tell hb c w log
  refine ⟨a, b', w', calls, hplain, hintruder, fun next => ?_⟩
  obtain ⟨a', b'', w'', calls', -, hnext, -⟩ :=
    intruder_undisturbed clock inner tell hb' next w' (log ++ refusals calls)
  exact ⟨a', _, hnext⟩

end Undisturbed

example :
    let clock := intruder (plain fun w : Nat × _ => ((0 : Float), w))
      (fun _ => [.cancel 1, .reset, .depth 5]) fun w => (0, w + 1)
    let s := ((perform clock (.updateLevels [⟨.buy, 10, 1⟩, ⟨.sell, 11, 2⟩])).run
      (empty [], (0, []))).2
    s.2.1 = 2 ∧ s.2.2.length = 6 ∧ s.1.bestBid = some 10 ∧ s.1.bestAsk = some 11 := by
  decide +kernel

end Book

end LimitBook
