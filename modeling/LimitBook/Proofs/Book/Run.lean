import LimitBook.Proofs.Book.Call
import LimitBook.Proofs.Book.Journal

namespace LimitBook

namespace Book

open BookM

variable {α ω : Type} [Scalar α]

variable [Scalar.Lawful α] {b b' b'' : Book α} {s : Book α × ω} {clock : BookM α ω α}

omit [Scalar.Lawful α] in
theorem Filed.shut (h : b.Filed) : b.shut.Filed := ⟨h.ranks, h.kept, h.index, h.nodup⟩

omit [Scalar.Lawful α] in
theorem Filed.reopened (h : b.Filed) : b.reopened.Filed := ⟨h.ranks, h.kept, h.index, h.nodup⟩

omit [Scalar.Lawful α] in
theorem Filed.numbered (h : b.Filed) (seq : Option α) : { b with sequenceId := seq }.Filed :=
  ⟨h.ranks, h.kept, h.index, h.nodup⟩

omit [Scalar α] [Scalar.Lawful α] in
theorem exclusive_busy {β : Type} (operation : Operation) (body : BookM α ω β)
    (hb : s.1.busy = false) : ((exclusive operation body).run s).2.1.busy = false := by
  rw [exclusive_run operation body hb]
  rfl

omit [Scalar.Lawful α] in
theorem perform_busy (c : Call α) (hb : s.1.busy = false) :
    ((perform clock c).run s).2.1.busy = false := by
  cases c <;> rw [perform, map_run] <;> exact exclusive_busy _ _ hb

theorem Filed.applied (h : b.Filed) {u : LevelUpdate α} (now : α)
    (hp : Scalar.isPositive u.price = true) : (b.applied u now).2.Filed := by
  cases hn : negligible u.totalQty with
  | true =>
    rw [applied_of_negligible now hn]
    exact (h.dropAggregate u).1.uncross
  | false =>
    rw [applied_of_counts now hn]
    exact ((h.resize hp).stamp now).uncross

/-- The book `b'` is sound, and `record` brings a journal of the book `b` in line with it. -/
structure Records (b b' : Book α) (record : Journal α → Journal α) : Prop where
  sound : b'.Sound
  tells : ∀ j : Journal α, j.Tells b.locals → (record j).Tells b'.locals

omit [Scalar.Lawful α] in
theorem Records.refl (h : b.Sound) : Records b b id := ⟨h, fun _ hj => hj⟩

omit [Scalar.Lawful α] in
theorem Records.trans {f g : Journal α → Journal α} (h : Records b b' f) (h' : Records b' b'' g) :
    Records b b'' (g ∘ f) := ⟨h'.sound, fun j hj => h'.tells _ (h.tells j hj)⟩

omit [Scalar.Lawful α] in
theorem Sound.beside (h : b.Sound) (seq : Option α) (busy : Bool) :
    Records b { b with sequenceId := seq, busy := busy } id :=
  ⟨⟨⟨h.ranks, h.kept, h.index, h.nodup⟩, h.sound, h.apart⟩, fun _ hj => hj⟩

omit [Scalar.Lawful α] in
theorem Records.reopened {f : Journal α → Journal α} (h : Records b.shut b' f) :
    Records b b'.reopened f := ⟨(h.sound.beside b'.sequenceId false).sound, h.tells⟩

theorem Sound.accept_records (h : b.Sound) {sub : Submission α} (now : α)
    (hs : b.refusal? sub = none) :
    Records b (b.accept sub now).2 (·.submitted (b.accept sub now).1) :=
  ⟨h.accept now hs, fun _ => h.toFiled.accept_tells now hs⟩

theorem Sound.remove_records (h : b.Sound) (id : OrderId) :
    Records b (b.remove id).2 (·.cancelled id (b.remove id).1) :=
  ⟨h.remove id, fun _ => h.toFiled.remove_tells id⟩

theorem Sound.clear_records (h : b.Sound) : Records b b.clear fun _ => .empty :=
  ⟨h.clear, fun _ _ => Journal.tells_empty⟩

theorem Sound.applied_records (h : b.Sound) {u : LevelUpdate α} (now : α) (hu : u.fault? = none) :
    Records b (b.applied u now).2 (·.fills (b.applied u now).1.1) :=
  ⟨h.applied now hu, fun _ => h.applied_tells now hu⟩

omit [Scalar.Lawful α] in
theorem Sound.shut (h : b.Sound) : b.shut.Sound := (h.beside b.sequenceId true).sound

omit [Scalar.Lawful α] in
theorem Sound.reopened (h : b.Sound) : b.reopened.Sound := (h.beside b.sequenceId false).sound

omit [Scalar.Lawful α] in
theorem Sound.numbered (h : b.Sound) (seq : Option α) : { b with sequenceId := seq }.Sound :=
  (h.beside seq b.busy).sound

def Answers {β : Type} (m : BookM α ω β) (s : Book α × ω) (record : β → Journal α → Journal α) :
    Prop :=
  ∃ a s', m.run s = (.ok a, s') ∧ s'.1.busy = false ∧ Records s.1 s'.1 (record a)

section Answers

variable {β γ : Type} {m : BookM α ω β} {record : β → Journal α → Journal α}

omit [Scalar.Lawful α] in
theorem Records.exclusive {a : β} {t : Book α × ω} (operation : Operation) (hb : s.1.busy = false)
    (h : Records s.1.shut t.1 (record a)) (hrun : m.run (s.1.shut, s.2) = (.ok a, t)) :
    Answers (exclusive operation m) s record :=
  ⟨a, (t.1.reopened, t.2), by rw [exclusive_run operation m hb, hrun], rfl, h.reopened⟩

omit [Scalar.Lawful α] in
theorem Sound.unchanged {a : β} (operation : Operation) (h : s.1.Sound) (hb : s.1.busy = false)
    (ha : record a = id) (hrun : m.run (s.1.shut, s.2) = (.ok a, (s.1.shut, s.2))) :
    Answers (exclusive operation m) s record :=
  Records.exclusive (t := (s.1.shut, s.2)) operation hb (ha ▸ .refl h.shut) hrun

omit [Scalar.Lawful α] in
theorem Answers.map {record' : γ → Journal α → Journal α} (h : Answers m s record) (f : β → γ)
    (hf : ∀ a, record' (f a) = record a) : Answers (f <$> m) s record' := by
  obtain ⟨a, s', hrun, hb, hr⟩ := h
  exact ⟨f a, s', by rw [map_run, hrun]; rfl, hb, by rwa [hf]⟩

end Answers

theorem Sound.submit (h : s.1.Sound) (hd : Discreet clock) (hr : Reliable clock)
    (hb : s.1.busy = false) (sub : Submission α) :
    Answers (submit clock sub) s fun r j => j.submitted r := by
  cases hs : s.1.shut.refusal? sub with
  | some reason =>
    refine h.unchanged (a := .rejected reason) .submit hb rfl ?_
    simp only [bind_run, book_run, hs]
    rfl
  | none =>
    obtain ⟨now, w, hrun⟩ := hd.run_reliable hr (s := (s.1.shut, s.2)) rfl
    refine (h.shut.accept_records now hs).exclusive (t := (_, w)) .submit hb ?_
    simp only [bind_run, book_run, hs, hrun]
    rfl

theorem Sound.cancel (h : s.1.Sound) (hb : s.1.busy = false) (id : OrderId) :
    Answers (cancel id) s fun r j => j.cancelled id r :=
  (h.shut.remove_records id).exclusive .cancel hb rfl

theorem Sound.reset (h : s.1.Sound) (hb : s.1.busy = false) :
    Answers reset s fun _ _ => .empty :=
  h.shut.clear_records.exclusive .reset hb rfl

omit [Scalar.Lawful α] in
theorem Sound.setSequenceId (h : s.1.Sound) (hb : s.1.busy = false) (seq : Option α) :
    Answers (setSequenceId seq) s fun _ j => j :=
  (h.shut.beside seq true).exclusive .setSequenceId hb rfl

omit [Scalar.Lawful α] in
theorem Sound.depth (h : s.1.Sound) (hb : s.1.busy = false) (levels : α) :
    Answers (depth levels) s fun _ j => j :=
  h.unchanged .depth hb rfl rfl

omit [Scalar.Lawful α] in
theorem applyLevel_applied (hd : Discreet clock) (hr : Reliable clock) (hb : s.1.busy = true)
    (u : LevelUpdate α) :
    ∃ now w, (applyLevel clock u).run s =
      (.ok (s.1.applied u now).1, ((s.1.applied u now).2, w)) :=
  (applyLevel_cases hd hb u).resolve_right fun ⟨e, _, _, he, _⟩ => hr.not_raises e he

omit [Scalar.Lawful α] in
theorem updateLevel_applied (hd : Discreet clock) (hr : Reliable clock) (hb : s.1.busy = false)
    {u : LevelUpdate α} (hu : u.fault? = none) :
    ∃ now w, (updateLevel clock u).run s =
      (.ok (.applied (s.1.shut.applied u now).1.1 (s.1.shut.applied u now).1.2),
        ((s.1.shut.applied u now).2.reopened, w)) := by
  obtain ⟨now, w, hrun⟩ := applyLevel_applied (s := (s.1.shut, s.2)) hd hr rfl u
  refine ⟨now, w, ?_⟩
  rw [updateLevel, exclusive_run .updateLevel _ hb]
  simp only [hu, bind_run, hrun]
  rfl

theorem Sound.updateLevel (h : s.1.Sound) (hd : Discreet clock) (hr : Reliable clock)
    (hb : s.1.busy = false) (u : LevelUpdate α) :
    Answers (updateLevel clock u) s fun r j => j.updated r := by
  cases hu : u.fault? with
  | some reason =>
    refine h.unchanged (a := .rejected reason u) .updateLevel hb rfl ?_
    simp only [hu]
    rfl
  | none =>
    obtain ⟨now, w, hrun⟩ := updateLevel_applied hd hr hb hu
    exact ⟨_, _, hrun, rfl, (h.shut.applied_records now hu).reopened⟩

theorem Sound.applyLevels (hd : Discreet clock) (hr : Reliable clock) {us : List (LevelUpdate α)}
    (hu : ∀ u ∈ us, u.fault? = none) (fills : List (Fill α)) (residual : Bool) (h : s.1.Sound)
    (hb : s.1.busy = true) :
    ∃ more residual' s', (applyLevels clock us (fills, residual)).run s =
      (.ok (fills ++ more, residual'), s') ∧ Records s.1 s'.1 fun j => j.fills more := by
  induction us generalizing fills residual s with
  | nil => exact ⟨[], residual, s, by rw [List.append_nil]; rfl, .refl h⟩
  | cons u us ih =>
    obtain ⟨now, w, hrun⟩ := applyLevel_applied hd hr hb u
    have hrec := h.applied_records now (hu u List.mem_cons_self)
    obtain ⟨more, residual', s', hrun', hrec'⟩ :=
      ih (s := ((s.1.applied u now).2, w)) (fun u hm => hu u (List.mem_cons_of_mem _ hm))
        (fills ++ (s.1.applied u now).1.1) (s.1.applied u now).1.2 hrec.sound
        ((applied_busy now).trans hb)
    refine ⟨(s.1.applied u now).1.1 ++ more, residual', s', ?_, ?_⟩
    · rw [List.append_assoc] at hrun'
      simp only [Book.applyLevels, bind_run, hrun, hrun']
    · have hboth := hrec.trans hrec'
      simpa only [Function.comp_def, ← Journal.fills_append] using hboth

theorem Sound.updateLevels_applied (h : s.1.Sound) (hd : Discreet clock) (hr : Reliable clock)
    (hb : s.1.busy = false) {us : List (LevelUpdate α)} (hu : LevelUpdate.firstFault? us = none) :
    ∃ fills residual s', (updateLevels clock us).run s = (.ok (.applied fills residual), s') ∧
      s'.1.busy = false ∧ Records s.1 s'.1 fun j => j.fills fills := by
  obtain ⟨more, residual, s', hrun, hrec⟩ := Sound.applyLevels (s := (s.1.shut, s.2)) hd hr
    (firstFault?_eq_none hu) [] false h.shut rfl
  refine ⟨more, residual, (s'.1.reopened, s'.2), ?_, rfl, hrec.reopened⟩
  rw [Book.updateLevels, exclusive_run .updateLevels _ hb]
  simp only [hu, bind_run, hrun]
  rfl

theorem Sound.updateLevels (h : s.1.Sound) (hd : Discreet clock) (hr : Reliable clock)
    (hb : s.1.busy = false) (us : List (LevelUpdate α)) :
    Answers (updateLevels clock us) s fun r j => j.updated r := by
  cases hu : LevelUpdate.firstFault? us with
  | some f =>
    refine h.unchanged (a := .rejected f.1 f.2) .updateLevels hb rfl ?_
    simp only [hu]
    rfl
  | none =>
    obtain ⟨fills, residual, s', hrun, hb', hrec⟩ := h.updateLevels_applied hd hr hb hu
    exact ⟨.applied fills residual, s', hrun, hb', hrec⟩

end Book

def Journal.told {α : Type} [Scalar α] (j : Journal α) : Book.Answer α → Journal α
  | .submitted r => j.submitted r
  | .cancelled id r => j.cancelled id r
  | .cleared => .empty
  | .updated r => j.updated r
  | .numbered => j
  | .shown _ => j

namespace Book

open BookM

variable {α ω : Type} [Scalar α] [Scalar.Lawful α] {s : Book α × ω} {clock : BookM α ω α}

theorem Sound.perform (h : s.1.Sound) (hd : Discreet clock) (hr : Reliable clock)
    (hb : s.1.busy = false) (c : Call α) : Answers (perform clock c) s fun a j => j.told a := by
  cases c with
  | submit sub => exact (h.submit hd hr hb sub).map _ fun _ => rfl
  | cancel id => exact (h.cancel hb id).map _ fun _ => rfl
  | reset => exact (h.reset hb).map _ fun _ => rfl
  | updateLevel u => exact (h.updateLevel hd hr hb u).map _ fun _ => rfl
  | updateLevels us => exact (h.updateLevels hd hr hb us).map _ fun _ => rfl
  | setSequenceId seq => exact (h.setSequenceId hb seq).map _ fun _ => rfl
  | depth levels => exact (h.depth hb levels).map _ fun _ => rfl

theorem sound_after (hd : Discreet clock) (hr : Reliable clock) (calls : List (Call α))
    (symbol : Text) (w : ω) :
    (after clock calls (empty symbol, w)).1.Sound ∧
      (after clock calls (empty symbol, w)).1.busy = false := by
  refine after_induction (P := fun s : Book α × ω => s.1.Sound ∧ s.1.busy = false)
    ⟨sound_empty symbol, rfl⟩ (fun s c hs => ?_) calls
  obtain ⟨a, s', hrun, hb, hrec⟩ := hs.1.perform hd hr hs.2 c
  rw [hrun]
  exact ⟨hrec.sound, hb⟩

end Book

end LimitBook
