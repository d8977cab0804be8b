import LimitBook.Book.Session
import LimitBook.Proofs.Book.Update

namespace LimitBook

/-- A book in the middle of an operation. -/
def Book.shut {α : Type} (b : Book α) : Book α := { b with busy := true }

def Book.reopened {α : Type} (b : Book α) : Book α := { b with busy := false }

namespace BookM

variable {α ω β γ : Type}

section Running

variable (s : Book α × ω)

theorem pure_run (a : β) : (pure a : BookM α ω β).run s = (.ok a, s) := rfl

theorem bind_run (m : BookM α ω β) (f : β → BookM α ω γ) :
    (m >>= f).run s = match m.run s with
      | (.ok a, s') => (f a).run s'
      | (.error e, s') => (.error e, s') := by
  change ExceptT.bindCont f (m.run s).1 (m.run s).2 = _
  obtain ⟨_ | _, _⟩ := m.run s <;> rfl

theorem map_run (f : β → γ) (m : BookM α ω β) :
    (f <$> m).run s = ((m.run s).1.map f, (m.run s).2) := by
  rw [map_eq_pure_bind, bind_run]
  obtain ⟨_ | _, _⟩ := m.run s <;> rfl

theorem attempt_run (m : BookM α ω β) :
    (attempt m).run s = (.ok (m.run s).1, (m.run s).2) := rfl

theorem book_run : (book : BookM α ω (Book α)).run s = (.ok s.1, s) := rfl

theorem modifyBook_run (f : Book α → Book α) : (modifyBook f).run s = (.ok (), (f s.1, s.2)) := rfl

theorem modifyGetBook_run (f : Book α → β × Book α) :
    (modifyGetBook f).run s = (.ok (f s.1).1, ((f s.1).2, s.2)) := rfl

variable {s}

theorem exclusive_run (operation : Operation) (body : BookM α ω β) (hb : s.1.busy = false) :
    (exclusive operation body).run s =
      ((body.run (s.1.shut, s.2)).1,
        ((body.run (s.1.shut, s.2)).2.1.reopened, (body.run (s.1.shut, s.2)).2.2)) := by
  simp only [exclusive, ExceptT.run_mk, hb, Bool.false_eq_true, if_false]
  rfl

theorem exclusive_refused (operation : Operation) (body : BookM α ω β) (hb : s.1.busy = true) :
    (exclusive operation body).run s = (.error (.busy operation), s) := by
  simp only [exclusive, ExceptT.run_mk, hb, if_true]

theorem exclusive_ok {operation : Operation} {body : BookM α ω β} {a : β} {s' : Book α × ω}
    (hrun : (exclusive operation body).run s = (.ok a, s')) : s'.1.busy = false := by
  cases hb : s.1.busy with
  | true =>
    rw [exclusive_refused operation body hb] at hrun
    cases hrun
  | false =>
    rw [exclusive_run operation body hb] at hrun
    obtain ⟨-, rfl⟩ := Prod.mk.inj hrun
    rfl

end Running

/-- While an operation is running, the book stays as it is. A clock can do no more to a book than
call its operations, and those are refused. -/
def Discreet (m : BookM α ω β) : Prop := ∀ s, s.1.busy = true → (m.run s).2.1 = s.1

/-- While an operation is running, no error is raised. -/
def Reliable (m : BookM α ω β) : Prop := ∀ s, s.1.busy = true → ∃ a, (m.run s).1 = .ok a

/-- While an operation is running, this error can be raised. -/
def Raises (m : BookM α ω β) (e : Fault) : Prop := ∃ s, s.1.busy = true ∧ (m.run s).1 = .error e

theorem Reliable.not_raises {m : BookM α ω β} (h : Reliable m) (e : Fault) : ¬ Raises m e := by
  rintro ⟨s, hb, he⟩
  obtain ⟨a, ha⟩ := h s hb
  rw [ha] at he
  cases he

theorem Discreet.run {m : BookM α ω β} (h : Discreet m) {s : Book α × ω} (hb : s.1.busy = true) :
    ∃ r w, m.run s = (r, (s.1, w)) := by
  refine ⟨(m.run s).1, (m.run s).2.2, ?_⟩
  conv_rhs => rw [← h s hb]
  rfl

theorem Discreet.run_reliable {m : BookM α ω β} (h : Discreet m) (hr : Reliable m)
    {s : Book α × ω} (hb : s.1.busy = true) : ∃ a w, m.run s = (.ok a, (s.1, w)) := by
  obtain ⟨r, w, hrun⟩ := h.run hb
  obtain ⟨a, ha⟩ := hr s hb
  rw [hrun] at ha
  exact ⟨a, w, by rw [hrun, ← ha]⟩

theorem discreet_pure (a : β) : Discreet (pure a : BookM α ω β) := fun _ _ => rfl

theorem reliable_pure (a : β) : Reliable (pure a : BookM α ω β) := fun _ _ => ⟨a, rfl⟩

theorem discreet_exclusive (operation : Operation) (body : BookM α ω β) :
    Discreet (exclusive operation body) := fun s hb => by rw [exclusive_refused _ _ hb]

theorem Discreet.map {m : BookM α ω β} (hm : Discreet m) (f : β → γ) : Discreet (f <$> m) := by
  intro s hb
  rw [map_run]
  exact hm s hb

theorem Discreet.bind {m : BookM α ω β} {f : β → BookM α ω γ} (hm : Discreet m)
    (hf : ∀ a, Discreet (f a)) : Discreet (m >>= f) := by
  intro s hb
  obtain ⟨r, w, hrun⟩ := hm.run hb
  rw [bind_run, hrun]
  cases r with
  | error e => rfl
  | ok a => exact hf a _ hb

theorem Discreet.attempt {m : BookM α ω β} (hm : Discreet m) : Discreet (attempt m) :=
  fun s hb => hm s hb

end BookM

namespace Book

open BookM

variable {α ω : Type} [Scalar α]

inductive Call (α : Type) where
  | submit (s : Submission α)
  | cancel (id : OrderId)
  | reset
  | updateLevel (u : LevelUpdate α)
  | updateLevels (us : List (LevelUpdate α))
  | setSequenceId (seq : Option α)
  | depth (levels : α)

inductive Answer (α : Type) where
  | submitted (r : SubmitResult α)
  | cancelled (id : OrderId) (r : CancelResult α)
  | cleared
  | updated (r : UpdateResult α)
  | numbered
  | shown (d : Depth α)

def perform (clock : BookM α ω α) : Call α → BookM α ω (Answer α)
  | .submit s => .submitted <$> submit clock s
  | .cancel id => .cancelled id <$> cancel id
  | .reset => (fun _ => .cleared) <$> reset
  | .updateLevel u => .updated <$> updateLevel clock u
  | .updateLevels us => .updated <$> updateLevels clock us
  | .setSequenceId seq => (fun _ => .numbered) <$> setSequenceId seq
  | .depth levels => .shown <$> depth levels

theorem discreet_perform (clock : BookM α ω α) (c : Call α) : Discreet (perform clock c) := by
  cases c <;> exact (discreet_exclusive _ _).map _

/-- A book and its surroundings after some calls. -/
def after (clock : BookM α ω α) (calls : List (Call α)) (s : Book α × ω) : Book α × ω :=
  calls.foldl (fun s c => ((perform clock c).run s).2) s

theorem after_snoc (clock : BookM α ω α) (calls : List (Call α)) (c : Call α) (s : Book α × ω) :
    after clock (calls ++ [c]) s = ((perform clock c).run (after clock calls s)).2 :=
  List.foldl_append ..

theorem after_induction {P : Book α × ω → Prop} {clock : BookM α ω α} {s : Book α × ω}
    (hs : P s) (hstep : ∀ s c, P s → P ((perform clock c).run s).2) (calls : List (Call α)) :
    P (after clock calls s) := by
  induction calls generalizing s with
  | nil => exact hs
  | cons c calls ih => exact ih (hstep s c hs)

section Parts

variable {b : Book α} {u : LevelUpdate α} {s : Book α × ω} {clock : BookM α ω α}

omit [Scalar α] in
@[simp]
theorem setLadder_busy (side : Side) (l : Ladder α) : (b.setLadder side l).busy = b.busy := by
  cases side <;> rfl

omit [Scalar α] in
@[simp]
theorem release_busy (os : List (Order α)) : (b.release os).busy = b.busy := by rw [release_eq]

theorem resize_busy : (b.resize u).busy = b.busy := by
  unfold Book.resize
  simp only
  split <;> simp

theorem stamp_busy (now : α) : (b.stamp u now).busy = b.busy := by
  unfold Book.stamp
  simp only
  split
  · rfl
  · split <;> simp

theorem dropAggregate_busy : (b.dropAggregate u).busy = b.busy := by
  unfold Book.dropAggregate
  simp only
  split <;> simp

theorem applied_busy (now : α) : (b.applied u now).2.busy = b.busy := by
  have huncross : ∀ b : Book α, b.uncross.2.busy = b.busy := fun b => release_busy _
  rw [Book.applied, huncross]
  split
  · exact dropAggregate_busy
  · rw [posted, stamp_busy, resize_busy]

theorem applyLevel_of_negligible (clock : BookM α ω α) (s : Book α × ω)
    (hn : negligible u.totalQty = true) (now : α) :
    (applyLevel clock u).run s = (.ok (s.1.applied u now).1, ((s.1.applied u now).2, s.2)) := by
  rw [applied_of_negligible now hn]
  simp only [applyLevel, hn, if_true]
  rfl

theorem applyLevel_of_counts (clock : BookM α ω α) (s : Book α × ω)
    (hn : negligible u.totalQty = false) :
    (applyLevel clock u).run s = match clock.run (s.1.resize u, s.2) with
      | (.ok now, s') => (.ok (s'.1.stamp u now).uncross.1, ((s'.1.stamp u now).uncross.2, s'.2))
      | (.error e, s') => (.error e, s') := by
  simp only [applyLevel, hn, Bool.false_eq_true, if_false, bind_run, modifyBook_run,
    modifyGetBook_run]
  obtain ⟨_ | _, s'⟩ := clock.run (s.1.resize u, s.2) <;> rfl

/-- An update is applied, or an error of the clock breaks it off when its level is there and its
aggregate, if it had one, has the new size. -/
theorem applyLevel_cases (hd : Discreet clock) (hb : s.1.busy = true) (u : LevelUpdate α) :
    (∃ now w, (applyLevel clock u).run s =
        (.ok (s.1.applied u now).1, ((s.1.applied u now).2, w))) ∨
      ∃ e w, (applyLevel clock u).run s = (.error e, (s.1.resize u, w)) ∧ Raises clock e ∧
        negligible u.totalQty = false := by
  cases hn : negligible u.totalQty with
  | true => exact .inl ⟨u.price, s.2, applyLevel_of_negligible clock s hn u.price⟩
  | false =>
    have hb' : (s.1.resize u).busy = true := resize_busy.trans hb
    obtain ⟨r, w, hrun⟩ := hd.run (s := (s.1.resize u, s.2)) hb'
    rw [applyLevel_of_counts clock s hn, hrun]
    cases r with
    | error e => exact .inr ⟨e, w, rfl, ⟨_, hb', congrArg Prod.fst hrun⟩, rfl⟩
    | ok now =>
      refine .inl ⟨now, w, ?_⟩
      rw [applied_of_counts now hn]
      rfl

end Parts

theorem firstFault?_eq_none {us : List (LevelUpdate α)} (h : LevelUpdate.firstFault? us = none) :
    ∀ u ∈ us, u.fault? = none := by
  fun_induction LevelUpdate.firstFault? us with
  | case1 => simp
  | case2 => cases h
  | case3 u us hu ih => exact List.forall_mem_cons.mpr ⟨hu, ih h⟩

end Book

end LimitBook
