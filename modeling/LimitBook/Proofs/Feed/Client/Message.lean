import LimitBook.Feed.Client
import LimitBook.Proofs.Book.Call

namespace LimitBook.Feed

open Book BookM

namespace Output

def idle : Output → Bool
  | .note _ | .heard .. => true
  | .connect .. | .close _ | .send .. => false

def plain : Output → Bool
  | .send .. | .note _ | .heard .. => true
  | .connect .. | .close _ => false

def sent? : Output → Option (Socket × Text)
  | .send s text => some (s, text)
  | .connect .. | .close _ | .note _ | .heard .. => none

theorem plain_of_idle {o : Output} (h : o.idle = true) : o.plain = true := by
  cases o with
  | note | heard => rfl
  | connect | close | send => cases h

end Output

/-- The texts handed to sockets by some outputs, in order. -/
def said (outputs : List Output) : List (Socket × Text) := outputs.filterMap Output.sent?

theorem said_append (outputs more : List Output) :
    said (outputs ++ more) = said outputs ++ said more := List.filterMap_append

theorem said_of_idle {outputs : List Output} (h : ∀ o ∈ outputs, o.idle = true) :
    said outputs = [] := by
  apply List.filterMap_eq_nil_iff.mpr
  intro o ho
  have hidle := h o ho
  cases o with
  | note | heard => rfl
  | connect | close | send => cases hidle

def BookFrame.snapshot (frame : BookFrame) : Snapshot Float := ⟨frame.seqId, frame.updates⟩

def BookFrame.increment (frame : BookFrame) : Increment Float :=
  ⟨frame.seqId, frame.prevSeqId, frame.updates⟩

variable {ω : Type} {clock : FeedM Float ω Float}

def BookFrame.apply (clock : FeedM Float ω Float) (frame : BookFrame) :
    FeedM Float ω (ReconcileResult Float) :=
  match frame.action with
  | .snapshot => applySnapshot clock frame.snapshot
  | .update => applyIncrement clock frame.increment

def BookFrame.notes (frame : BookFrame) (r : ReconcileResult Float) (t : Tracker) : List Note :=
  match frame.action with
  | .snapshot => [Note.ofSnapshot frame.snapshot r]
  | .update => Note.ofIncrement frame.increment t.faults r

namespace Client

variable {c : Client} {frame : BookFrame} {s s' : Book Float × (Tracker × ω)}

theorem reconcile_eq : reconcile clock frame =
    (frame.apply clock >>= fun r => do return (r, frame.notes r (← tracker))) := by
  unfold reconcile BookFrame.apply BookFrame.notes
  cases frame.action <;> rfl

theorem reconcile_ok {r : ReconcileResult Float} (hrun : (frame.apply clock).run s = (.ok r, s')) :
    (reconcile clock frame).run s = (.ok (r, frame.notes r s'.2.1), s') := by
  rw [reconcile_eq, bind_run, hrun]
  rfl

theorem reconcile_error {e : Fault} (hrun : (frame.apply clock).run s = (.error e, s')) :
    (reconcile clock frame).run s = (.error e, s') := by
  rw [reconcile_eq, bind_run, hrun]

theorem send_plain (text : Text) : ∀ o ∈ c.send text, o.plain = true := by
  unfold send
  cases c.socket with
  | some s => exact List.forall_mem_singleton.mpr rfl
  | none => exact List.forall_mem_nil _

theorem said_send {socket : Socket} (hs : c.socket = some socket) (text : Text) :
    said (c.send text) = [(socket, text)] := by
  rw [send, hs]
  rfl

theorem notes_idle (notes : List Note) : ∀ o ∈ notes.map Output.note, o.idle = true := by
  intro o ho
  obtain ⟨n, -, rfl⟩ := List.mem_map.mp ho
  rfl

theorem tell_idle (result : ReconcileResult Float) : ∀ o ∈ c.tell frame result, o.idle = true := by
  intro o ho
  obtain ⟨l, -, ho⟩ := List.mem_flatMap.mp ho
  obtain rfl | ho := List.mem_cons.mp ho
  · rfl
  · cases hfault : l.fault with
    | none =>
      rw [hfault] at ho
      cases ho
    | some fault =>
      rw [hfault] at ho
      rw [List.mem_singleton.mp ho]
      rfl

theorem resync_run (s : Book Float × (Tracker × ω)) :
    (c.resync : FeedM Float ω (List Output)).run s =
      (.ok (.note (.tooManyFaults s.2.1.faults) ::
          (c.request .unsubscribe ++ c.request .subscribe)),
        (s.1, (s.2.1.markResyncing, s.2.2))) := rfl

/-- A frame of the client's own instrument that comes to its end. The client asks for a snapshot if
it is one fault too many, and says nothing otherwise. -/
theorem bookFrame_ok (hi : frame.instId = c.settings.instId) {r : ReconcileResult Float}
    (hrun : (frame.apply clock).run s = (.ok r, s')) :
    ∃ outputs s'', (c.bookFrame clock frame).run s = (.ok outputs, s'') ∧
      (∀ o ∈ outputs, o.plain = true) ∧
        if c.needsResync frame s'.2.1 then
          said outputs = said (c.request .unsubscribe) ++ said (c.request .subscribe) ∧
            s''.2.1 = s'.2.1.markResyncing
        else said outputs = [] ∧ s''.2.1 = s'.2.1 := by
  have htold : ∀ o ∈ (frame.notes r s'.2.1).map Output.note ++ c.tell frame r, o.idle = true :=
    List.forall_mem_append.mpr ⟨notes_idle _, tell_idle r⟩
  have hplain : ∀ o ∈ (frame.notes r s'.2.1).map Output.note ++ c.tell frame r,
      o.plain = true := fun o ho => Output.plain_of_idle (htold o ho)
  have htracker : (tracker : FeedM Float ω Tracker).run s' = (.ok s'.2.1, s') := rfl
  unfold bookFrame
  rw [if_pos hi]
  simp only [bind_run, reconcile_ok hrun, htracker]
  by_cases hneeds : c.needsResync frame s'.2.1 = true
  · simp only [hneeds, if_true, bind_run, resync_run]
    refine ⟨_, _, rfl, ?_, ?_, rfl⟩
    · refine List.forall_mem_append.mpr ⟨hplain, List.forall_mem_cons.mpr ⟨rfl, ?_⟩⟩
      exact List.forall_mem_append.mpr ⟨send_plain _, send_plain _⟩
    · rw [said_append, said_of_idle htold, List.nil_append]
      exact said_append _ _
  · simp only [hneeds]
    exact ⟨_, _, rfl, hplain, said_of_idle htold, rfl⟩

theorem bookFrame_error (hi : frame.instId = c.settings.instId) {e : Fault}
    (hrun : (frame.apply clock).run s = (.error e, s')) :
    (c.bookFrame clock frame).run s = (.error e, s') := by
  unfold bookFrame
  rw [if_pos hi, bind_run, reconcile_error hrun]

theorem message_frame (clock : FeedM Float ω Float) {socket : Socket} {text : Text}
    (hs : c.isCurrent socket = true) (hframe : Frame.ofText? text = some (.book frame)) :
    c.message clock socket text = c.bookFrame clock frame := by
  unfold message
  rw [if_pos hs, hframe]

theorem message_cases (c : Client) (clock : FeedM Float ω Float) (socket : Socket) (text : Text)
    (s : Book Float × (Tracker × ω)) :
    (∃ outputs, (c.message clock socket text).run s = (.ok outputs, s) ∧
        ∀ o ∈ outputs, o.idle = true) ∨
      ∃ frame, c.isCurrent socket = true ∧ Frame.ofText? text = some (.book frame) ∧
        frame.instId = c.settings.instId := by
  unfold message
  by_cases hs : c.isCurrent socket = true
  · rw [if_pos hs]
    have hnoted : ∀ n : Note, ∀ o ∈ [Output.note n], o.idle = true := fun n =>
      List.forall_mem_singleton.mpr rfl
    cases hframe : Frame.ofText? text with
    | none => exact .inl ⟨_, rfl, hnoted _⟩
    | some f =>
      cases f with
      | pong => exact .inl ⟨[], rfl, List.forall_mem_nil _⟩
      | event kind => cases kind <;> exact .inl ⟨_, rfl, hnoted _⟩
      | book frame =>
        by_cases hi : frame.instId = c.settings.instId
        · exact .inr ⟨frame, hs, rfl, hi⟩
        · refine .inl ⟨_, ?_, hnoted (.otherInstrument frame.instId)⟩
          simp only [bookFrame, if_neg hi]
          rfl
  · rw [if_neg hs]
    exact .inl ⟨[], rfl, List.forall_mem_nil _⟩

theorem message_plain {socket : Socket} {text : Text} {outputs : List Output}
    (hrun : (c.message clock socket text).run s = (.ok outputs, s')) :
    ∀ o ∈ outputs, o.plain = true := by
  obtain ⟨outputs', hrun', hidle⟩ | ⟨frame, hs, hframe, hi⟩ :=
    c.message_cases clock socket text s
  · cases hrun.symm.trans hrun'
    exact fun o ho => Output.plain_of_idle (hidle o ho)
  · rw [message_frame clock hs hframe] at hrun
    rcases happly : (frame.apply clock).run s with ⟨e | r, s''⟩
    · cases hrun.symm.trans (bookFrame_error hi happly)
    · obtain ⟨outputs', s''', hrun', hplain, -⟩ := bookFrame_ok hi happly
      cases hrun.symm.trans hrun'
      exact hplain

end Client

end LimitBook.Feed
