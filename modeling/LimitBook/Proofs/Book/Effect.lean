import LimitBook.Proofs.Book.Run

namespace LimitBook.Book

open BookM

variable {α ω : Type} [Scalar α]

def crossed (b : Book α) : Bool := Sweep.isCrossed b.bids b.asks

/-- Updates applied in order, each at some time, with the fills that they bring about. -/
inductive Applies : Book α → List (LevelUpdate α) → List (Fill α) → Book α → Prop where
  | nil (b : Book α) : Applies b [] [] b
  | cons {b b' : Book α} {us : List (LevelUpdate α)} {fills : List (Fill α)} (u : LevelUpdate α)
      (now : α) (h : Applies (b.applied u now).2 us fills b') :
      Applies b (u :: us) ((b.applied u now).1.1 ++ fills) b'

/-- The clock has broken off `u`, one of some updates, when all before it had been applied: its
level is there, and its aggregate, if it had one, has the new size. -/
inductive BrokenOff (u : LevelUpdate α) : Book α → List (LevelUpdate α) → Book α → Prop where
  | here {b : Book α} {us : List (LevelUpdate α)} (hn : negligible u.totalQty = false) :
      BrokenOff u b (u :: us) (b.resize u)
  | later {b b' : Book α} {us : List (LevelUpdate α)} (v : LevelUpdate α) (now : α)
      (h : BrokenOff u (b.applied v now).2 us b') : BrokenOff u b (v :: us) b'

def Call.updates : Call α → List (LevelUpdate α)
  | .updateLevel u => [u]
  | .updateLevels us => us
  | .submit _ | .cancel _ | .reset | .setSequenceId _ | .depth _ => []

/-- The book that is left of `b` when the clock breaks a call off, and the update at which it does
so. -/
inductive Aborted (b : Book α) (c : Call α) : Option (LevelUpdate α) → Book α → Prop where
  | unchanged : Aborted b c none b
  | update {u : LevelUpdate α} {b' : Book α} (hu : ∀ v ∈ c.updates, v.fault? = none)
      (h : BrokenOff u b c.updates b') : Aborted b c (some u) b'

/-- The answer of a call of `b`, and the book after it. Whatever is to hold after any call needs a
look at these cases alone. -/
inductive Effect (b : Book α) : Call α → Answer α → Book α → Prop where
  | refused {s : Submission α} {reason : RejectReason} (h : b.refusal? s = some reason) :
      Effect b (.submit s) (.submitted (.rejected reason)) b
  | accepted {s : Submission α} (now : α) (h : b.refusal? s = none) :
      Effect b (.submit s) (.submitted (b.accept s now).1) (b.accept s now).2
  | cancelled (id : OrderId) :
      Effect b (.cancel id) (.cancelled id (b.remove id).1) (b.remove id).2
  | cleared : Effect b .reset .cleared b.clear
  | faulty {u : LevelUpdate α} {reason : UpdateFault} (h : u.fault? = some reason) :
      Effect b (.updateLevel u) (.updated (.rejected reason u)) b
  | updated {b' : Book α} {u : LevelUpdate α} {fills : List (Fill α)} (h : u.fault? = none)
      (hu : Applies b [u] fills b') :
      Effect b (.updateLevel u) (.updated (.applied fills b'.crossed)) b'
  | faultyBatch {us : List (LevelUpdate α)} {f : UpdateFault × LevelUpdate α}
      (h : LevelUpdate.firstFault? us = some f) :
      Effect b (.updateLevels us) (.updated (.rejected f.1 f.2)) b
  | batch {b' : Book α} {us : List (LevelUpdate α)} {fills : List (Fill α)}
      (h : LevelUpdate.firstFault? us = none) (hu : Applies b us fills b') :
      Effect b (.updateLevels us) (.updated (.applied fills (!us.isEmpty && b'.crossed))) b'
  | numbered (seq : Option α) :
      Effect b (.setSequenceId seq) .numbered { b with sequenceId := seq }
  | shown (levels : α) : Effect b (.depth levels) (.shown (b.view (Scalar.floorNat levels))) b

def Answer.fills : Answer α → List (Fill α)
  | .submitted (.accepted _ fills _ _) | .updated (.applied fills _) => fills
  | .submitted (.rejected _) | .updated (.rejected ..) | .cancelled .. | .cleared | .numbered
  | .shown _ => []

section Kept

variable [Scalar.Lawful α] {b b' : Book α} {us : List (LevelUpdate α)} {fills : List (Fill α)}

theorem Applies.filed (ha : Applies b us fills b') (h : b.Filed) (hu : ∀ u ∈ us, u.fault? = none) :
    b'.Filed := by
  induction ha with
  | nil => exact h
  | cons u now _ ih =>
    obtain ⟨hu, hus⟩ := List.forall_mem_cons.mp hu
    exact ih (h.applied now (fault?_eq_none hu).1) hus

theorem Effect.filed {c : Call α} {a : Answer α} (he : Effect b c a b') (h : b.Filed) :
    b'.Filed := by
  cases he with
  | refused | faulty | faultyBatch | shown => exact h
  | accepted now hs => exact h.accept now hs
  | cancelled id => exact h.removed id
  | cleared => exact h.clear
  | updated hu ha => exact ha.filed h (List.forall_mem_singleton.mpr hu)
  | batch hu ha => exact ha.filed h (firstFault?_eq_none hu)
  | numbered seq => exact h.numbered seq

/-- An update that the clock breaks off leaves a book in order: its level may be there without
orders, or its aggregate at the new size. -/
theorem BrokenOff.filed {u : LevelUpdate α} (hb : BrokenOff u b us b') (h : b.Filed)
    (hu : ∀ v ∈ us, v.fault? = none) : b'.Filed := by
  induction hb with
  | here => exact h.resize (fault?_eq_none (hu _ List.mem_cons_self)).1
  | later v now _ ih =>
    obtain ⟨hv, hus⟩ := List.forall_mem_cons.mp hu
    exact ih (h.applied now (fault?_eq_none hv).1) hus

theorem Aborted.filed {c : Call α} {v : Option (LevelUpdate α)} (ha : Aborted b c v b')
    (h : b.Filed) : b'.Filed := by
  cases ha with
  | unchanged => exact h
  | update hu hb => exact hb.filed h hu

theorem Applies.sound (ha : Applies b us fills b') (h : b.Sound) (hu : ∀ u ∈ us, u.fault? = none) :
    b'.Sound := by
  induction ha with
  | nil => exact h
  | cons u now _ ih =>
    obtain ⟨hu, hus⟩ := List.forall_mem_cons.mp hu
    exact ih (h.applied now hu) hus

theorem Effect.sound {c : Call α} {a : Answer α} (he : Effect b c a b') (h : b.Sound) :
    b'.Sound := by
  cases he with
  | refused | faulty | faultyBatch | shown => exact h
  | accepted now hs => exact h.accept now hs
  | cancelled id => exact h.remove id
  | cleared => exact h.clear
  | updated hu ha => exact ha.sound h (List.forall_mem_singleton.mpr hu)
  | batch hu ha => exact ha.sound h (firstFault?_eq_none hu)
  | numbered seq => exact h.numbered seq

end Kept

section Calls

omit [Scalar α] in
theorem reopened_shut {b : Book α} (h : b.busy = false) : b.shut.reopened = b := by
  obtain ⟨_, _, _, _, _, _, _⟩ := b
  cases h
  rfl

omit [Scalar α] in
theorem shut_reopened {b : Book α} (h : b.busy = true) : b.reopened.shut = b := by
  obtain ⟨_, _, _, _, _, _, _⟩ := b
  cases h
  rfl

/-- The computation succeeds, and its answer and the book, free again, are in `E`. -/
def Yields {β : Type} (m : BookM α ω β) (s : Book α × ω) (E : β → Book α → Prop) : Prop :=
  ∃ a b' w, m.run s = (.ok a, (b'.reopened, w)) ∧ E a b'

variable {β γ : Type} {m : BookM α ω β} {s : Book α × ω}

omit [Scalar α] in
theorem Yields.map {E : γ → Book α → Prop} (f : β → γ) (h : Yields m s fun a => E (f a)) :
    Yields (f <$> m) s E := by
  obtain ⟨a, b', w, hrun, he⟩ := h
  exact ⟨f a, b', w, by rw [map_run, hrun]; rfl, he⟩

omit [Scalar α] in
theorem yields_exclusive {E : β → Book α → Prop} {a : β} {b' : Book α} {w : ω}
    (operation : Operation) (hb : s.1.busy = false) (h : m.run (s.1.shut, s.2) = (.ok a, (b', w)))
    (he : E a b') : Yields (exclusive operation m) s E :=
  ⟨a, b', w, by rw [exclusive_run operation m hb, h], he⟩

/-- The computation succeeds with its answer and the book in `E`, or an error of the clock breaks it
off and leaves a book in `A`; the book is free again in either case. -/
def Ends (clock : BookM α ω α) (m : BookM α ω β) (s : Book α × ω) (E : β → Book α → Prop)
    (A : Book α → Prop) : Prop :=
  Yields m s E ∨ ∃ e b' w, m.run s = (.error e, (b'.reopened, w)) ∧ Raises clock e ∧ A b'

variable {clock : BookM α ω α} {A : Book α → Prop}

omit [Scalar α] in
theorem Ends.yields {E : β → Book α → Prop} (h : Ends clock m s E A) (hr : Reliable clock) :
    Yields m s E :=
  h.resolve_right fun ⟨e, _, _, _, he, _⟩ => hr.not_raises e he

omit [Scalar α] in
theorem Ends.map {E : γ → Book α → Prop} (f : β → γ) (h : Ends clock m s (fun a => E (f a)) A) :
    Ends clock (f <$> m) s E A := by
  obtain h | ⟨e, b', w, hrun, he, ha⟩ := h
  · exact .inl (h.map f)
  · exact .inr ⟨e, b', w, by rw [map_run, hrun]; rfl, he, ha⟩

omit [Scalar α] in
theorem Ends.mono {E : β → Book α → Prop} {A' : Book α → Prop} (h : Ends clock m s E A)
    (ha : ∀ b', A b' → A' b') : Ends clock m s E A' :=
  h.imp_right fun ⟨e, b', w, hrun, he, hb'⟩ => ⟨e, b', w, hrun, he, ha b' hb'⟩

omit [Scalar α] in
theorem ends_exclusive {E : β → Book α → Prop} {e : Fault} {b' : Book α} {w : ω}
    (operation : Operation) (hb : s.1.busy = false)
    (h : m.run (s.1.shut, s.2) = (.error e, (b', w))) (he : Raises clock e) (ha : A b') :
    Ends clock (exclusive operation m) s E A :=
  .inr ⟨e, b', w, by rw [exclusive_run operation m hb, h], he, ha⟩

theorem uncross_crossed (b : Book α) : b.uncross.1.2 = b.uncross.2.crossed := by
  have hbids : b.uncross.2.ladder .buy = (Sweep.sweep b.bids b.asks).bids := release_ladder ..
  have hasks : b.uncross.2.ladder .sell = (Sweep.sweep b.bids b.asks).asks := release_ladder ..
  exact (congrArg₂ Sweep.isCrossed hbids hasks).symm

theorem applyLevels_cases (hd : Discreet clock) (us : List (LevelUpdate α)) (fills : List (Fill α))
    (residual : Bool) (hb : s.1.busy = true) :
    (∃ more b' w, (applyLevels clock us (fills, residual)).run s =
        (.ok (fills ++ more, if us.isEmpty then residual else b'.crossed), (b', w)) ∧
      Applies s.1 us more b') ∨
    ∃ e b' w, (applyLevels clock us (fills, residual)).run s = (.error e, (b', w)) ∧
      Raises clock e ∧ ∃ u, BrokenOff u s.1 us b' := by
  induction us generalizing fills residual s with
  | nil => exact .inl ⟨[], s.1, s.2, by rw [List.append_nil]; rfl, .nil _⟩
  | cons u us ih =>
    obtain ⟨now, w, hrun⟩ | ⟨e, w, hrun, he, hn⟩ := applyLevel_cases hd hb u
    · obtain ⟨more, b', w', hrun', ha⟩ | ⟨e, b', w', hrun', he, v, hv⟩ :=
        ih (s := ((s.1.applied u now).2, w)) (fills ++ (s.1.applied u now).1.1)
          (s.1.applied u now).1.2 ((applied_busy now).trans hb)
      · refine .inl ⟨_, b', w', ?_, .cons u now ha⟩
        simp only [applyLevels, bind_run, hrun, hrun', List.append_assoc]
        cases us with
        | nil =>
          cases ha
          rw [List.isEmpty_nil, if_pos rfl, List.isEmpty_cons, if_neg Bool.false_ne_true,
            Book.applied, uncross_crossed]
        | cons => rfl
      · refine .inr ⟨e, b', w', ?_, he, v, .later u now hv⟩
        simp only [applyLevels, bind_run, hrun, hrun']
    · refine .inr ⟨e, s.1.resize u, w, ?_, he, u, .here hn⟩
      simp only [applyLevels, bind_run, hrun]

theorem updateLevels_ends (hd : Discreet clock) (hb : s.1.busy = false)
    (us : List (LevelUpdate α)) :
    Ends clock (updateLevels clock us) s
      (fun r => Effect s.1.shut (.updateLevels us) (.updated r))
      fun b' => LevelUpdate.firstFault? us = none ∧ ∃ u, BrokenOff u s.1.shut us b' := by
  cases hu : LevelUpdate.firstFault? us with
  | some f =>
    refine .inl (yields_exclusive (a := .rejected f.1 f.2) (w := s.2) .updateLevels hb ?_
      (.faultyBatch hu))
    simp only [hu]
    rfl
  | none =>
    obtain ⟨fills, b', w, hrun, ha⟩ | ⟨e, b', w, hrun, he, hv⟩ :=
      applyLevels_cases (s := (s.1.shut, s.2)) hd us [] false rfl
    · refine .inl (yields_exclusive (w := w) .updateLevels hb ?_ (.batch hu ha))
      simp only [hu, bind_run, hrun, List.nil_append]
      cases us <;> rfl
    · refine ends_exclusive (w := w) .updateLevels hb ?_ he ⟨rfl, hv⟩
      simp only [hu, bind_run, hrun]

theorem updateLevel_ends (hd : Discreet clock) (hb : s.1.busy = false) (u : LevelUpdate α) :
    Ends clock (updateLevel clock u) s (fun r => Effect s.1.shut (.updateLevel u) (.updated r))
      fun b' => u.fault? = none ∧ BrokenOff u s.1.shut [u] b' := by
  cases hu : u.fault? with
  | some reason =>
    refine .inl (yields_exclusive (a := .rejected reason u) (w := s.2) .updateLevel hb ?_
      (.faulty hu))
    simp only [hu]
    rfl
  | none =>
    obtain ⟨now, w, hrun⟩ | ⟨e, w, hrun, he, hn⟩ :=
      applyLevel_cases (s := (s.1.shut, s.2)) hd rfl u
    · have ha := Applies.cons u now (.nil (s.1.shut.applied u now).2)
      rw [List.append_nil] at ha
      have heffect := Effect.updated hu ha
      rw [Book.applied, ← uncross_crossed] at heffect
      refine .inl (yields_exclusive (w := w) .updateLevel hb ?_ heffect)
      simp only [hu, bind_run, hrun]
      rfl
    · refine ends_exclusive (w := w) .updateLevel hb ?_ he ⟨rfl, .here hn⟩
      simp only [hu, bind_run, hrun]

theorem accept_accepted (b : Book α) (s : Submission α) (now : α) :
    ∃ status fills resting o, (b.accept s now).1 = .accepted status fills resting o := by
  unfold Book.accept
  simp only
  split <;> exact ⟨_, _, _, _, rfl⟩

theorem accept_fills (b : Book α) (s : Submission α) (now : α) :
    (Answer.submitted (b.accept s now).1).fills = (b.traded (b.arrive s now)).fills := by
  rw [accept_eq]
  simp only
  split <;> rfl

theorem depth_run {s : Book α × ω} (n : α) (hb : s.1.busy = false) :
    (depth n : BookM α ω _).run s = (.ok (s.1.view (Scalar.floorNat n)), s) := by
  rw [depth, exclusive_run .depth _ hb]
  exact congrArg (fun b => (Except.ok (s.1.view (Scalar.floorNat n)), (b, s.2))) (reopened_shut hb)

theorem submit_run {s : Book α × ω} (clock : BookM α ω α) (hb : s.1.busy = false)
    (sub : Submission α) :
    (submit clock sub).run s = match s.1.refusal? sub with
      | some reason => (.ok (.rejected reason), s)
      | none => match clock.run (s.1.shut, s.2) with
        | (.ok now, t) => (.ok (t.1.accept sub now).1, ((t.1.accept sub now).2.reopened, t.2))
        | (.error e, t) => (.error e, (t.1.reopened, t.2)) := by
  have hrefusal : s.1.shut.refusal? sub = s.1.refusal? sub := rfl
  rw [submit, exclusive_run .submit _ hb]
  cases h : s.1.refusal? sub with
  | some reason =>
    simp only [bind_run, book_run, hrefusal, h]
    exact congrArg (fun b => (Except.ok (SubmitResult.rejected reason), (b, s.2)))
      (reopened_shut hb)
  | none =>
    simp only [bind_run, book_run, hrefusal, h]
    rcases clock.run (s.1.shut, s.2) with ⟨_ | now, t⟩ <;> rfl

theorem submit_rejected (hb : s.1.busy = false) {sub : Submission α} {reason : RejectReason}
    {s' : Book α × ω} (hrun : (submit clock sub).run s = (.ok (.rejected reason), s')) :
    s.1.refusal? sub = some reason ∧ s' = s := by
  rw [submit_run clock hb] at hrun
  cases hs : s.1.refusal? sub with
  | some reason' =>
    rw [hs] at hrun
    cases hrun
    exact ⟨rfl, rfl⟩
  | none =>
    rw [hs] at hrun
    rcases hclock : clock.run (s.1.shut, s.2) with ⟨_ | now, t⟩ <;> simp only [hclock] at hrun
    · cases hrun
    · obtain ⟨status, fills, resting, o, ha⟩ := accept_accepted t.1 sub now
      rw [ha] at hrun
      cases hrun

theorem submit_ends (hd : Discreet clock) (hb : s.1.busy = false) (sub : Submission α) :
    Ends clock (submit clock sub) s (fun r => Effect s.1.shut (.submit sub) (.submitted r))
      fun b' => b' = s.1.shut := by
  have hrefusal : s.1.shut.refusal? sub = s.1.refusal? sub := rfl
  cases hs : s.1.refusal? sub with
  | some reason =>
    refine .inl ⟨.rejected reason, s.1.shut, s.2, ?_, .refused (hrefusal.trans hs)⟩
    simp only [submit_run clock hb, hs, reopened_shut hb]
  | none =>
    obtain ⟨e | now, w, hrun⟩ := hd.run (s := (s.1.shut, s.2)) rfl
    · refine .inr ⟨e, s.1.shut, w, ?_, ⟨_, rfl, congrArg Prod.fst hrun⟩, rfl⟩
      simp only [submit_run clock hb, hs, hrun]
    · refine .inl ⟨_, (s.1.shut.accept sub now).2, w, ?_, .accepted now (hrefusal.trans hs)⟩
      simp only [submit_run clock hb, hs, hrun]

theorem submit_accepted (hd : Discreet clock) (hb : s.1.busy = false) {sub : Submission α}
    {status : Status} {fills : List (Fill α)} {rest : α} {o : Order α} {s' : Book α × ω}
    (hrun : (submit clock sub).run s = (.ok (.accepted status fills rest o), s')) :
    ∃ now, s.1.shut.refusal? sub = none ∧
      (s.1.shut.accept sub now).1 = .accepted status fills rest o ∧
        s'.1 = (s.1.shut.accept sub now).2.reopened := by
  obtain ⟨r, b', w, hrun', he⟩ | ⟨e, b', w, hrun', -⟩ := submit_ends hd hb sub
  · rw [hrun] at hrun'
    generalize hr : SubmitResult.accepted status fills rest o = r' at hrun' ⊢
    cases hrun'
    cases he with
    | refused h => cases hr
    | accepted now h => exact ⟨now, h, rfl, rfl⟩
  · rw [hrun] at hrun'
    cases hrun'

theorem submit_error (hd : Discreet clock) (hb : s.1.busy = false) {sub : Submission α} {e : Fault}
    {s' : Book α × ω} (hrun : (submit clock sub).run s = (.error e, s')) :
    Raises clock e ∧ s'.1 = s.1 := by
  obtain ⟨_, _, _, hrun', -⟩ | ⟨_, _, _, hrun', hraises, rfl⟩ := submit_ends hd hb sub
  · rw [hrun] at hrun'
    cases hrun'
  · rw [hrun] at hrun'
    cases hrun'
    exact ⟨hraises, reopened_shut hb⟩

theorem cancel_run (hb : s.1.busy = false) (id : OrderId) :
    (cancel id).run s =
      (.ok (s.1.shut.remove id).1, ((s.1.shut.remove id).2.reopened, s.2)) := by
  rw [cancel, exclusive_run .cancel _ hb]
  rfl

theorem cancel_cases (hb : s.1.busy = false) (id : OrderId) :
    (cancel id).run s = (.ok ⟨false, none⟩, s) ∨
      ∃ order s', (cancel id).run s = (.ok ⟨true, order⟩, s') ∧ s'.1.busy = false := by
  have hrun := cancel_run hb id
  cases hp : s.1.shut.place? id with
  | none =>
    rw [remove_none hp, reopened_shut hb] at hrun
    exact .inl hrun
  | some p =>
    simp only [remove, hp] at hrun
    exact .inr ⟨_, _, hrun, rfl⟩

/-- A call of a free book does one of the things that calls do, unless the clock breaks it off. -/
theorem perform_ends (hd : Discreet clock) (hb : s.1.busy = false) (c : Call α) :
    Ends clock (perform clock c) s (Effect s.1.shut c) fun b' => ∃ u, Aborted s.1.shut c u b' := by
  cases c with
  | submit sub =>
    exact .map _ ((submit_ends hd hb sub).mono fun b' hb' => ⟨none, hb' ▸ .unchanged⟩)
  | cancel id => exact .inl (.map _ (yields_exclusive .cancel hb rfl (.cancelled id)))
  | reset => exact .inl (.map _ (yields_exclusive .reset hb rfl .cleared))
  | updateLevel u =>
    refine .map _ ((updateLevel_ends hd hb u).mono fun b' ⟨hu, h⟩ => ⟨some u, ?_⟩)
    exact .update (List.forall_mem_singleton.mpr hu) h
  | updateLevels us =>
    refine .map _ ((updateLevels_ends hd hb us).mono fun b' ⟨hu, u, h⟩ => ⟨some u, ?_⟩)
    exact .update (firstFault?_eq_none hu) h
  | setSequenceId seq =>
    exact .inl (.map _ (yields_exclusive .setSequenceId hb rfl (.numbered seq)))
  | depth levels => exact .inl (.map _ (yields_exclusive .depth hb rfl (.shown levels)))

theorem Filed.perform [Scalar.Lawful α] (hd : Discreet clock) (c : Call α) (h : s.1.Filed)
    (hb : s.1.busy = false) : ((perform clock c).run s).2.1.Filed := by
  obtain ⟨a, b', w, hrun, he⟩ | ⟨e, b', w, hrun, -, v, ha⟩ := perform_ends hd hb c
  · rw [hrun]
    exact (he.filed h.shut).reopened
  · rw [hrun]
    exact (ha.filed h.shut).reopened

theorem filed_after [Scalar.Lawful α] (hd : Discreet clock) (calls : List (Call α)) (symbol : Text)
    (w : ω) : (after clock calls (empty symbol, w)).1.Filed ∧
      (after clock calls (empty symbol, w)).1.busy = false := by
  refine after_induction (P := fun s : Book α × ω => s.1.Filed ∧ s.1.busy = false)
    ⟨filed_empty symbol, rfl⟩ (fun s c hs => ?_) calls
  exact ⟨hs.1.perform hd c hs.2, perform_busy c hs.2⟩

end Calls

end LimitBook.Book
