import LimitBook.Server.Response
import Mathlib.Data.List.Nodup

namespace LimitBook.Server

/-- What one socket got of what was sent. -/
def received (i : Nat) (sent : List (Nat × Text)) : List Text :=
  (sent.filter (·.1 = i)).map (·.2)

theorem received_append (i : Nat) (sent sent' : List (Nat × Text)) :
    received i (sent ++ sent') = received i sent ++ received i sent' := by
  rw [received, List.filter_append, List.map_append, received, received]

theorem received_to (i : Nat) {is : List Nat} (hn : is.Nodup) (hi : i ∈ is) (text : Text) :
    received i (is.map fun j => (j, text)) = [text] := by
  have hone : is.filter (fun j => decide (j = i)) = [i] := by
    rw [List.filter_eq, List.count_eq_one_of_mem hn hi]
    rfl
  rw [received, List.filter_map]
  simp only [Function.comp_def, hone, List.map_cons, List.map_nil]

namespace Hub

/-- No sending raises an error. -/
def Quiet (h : Hub) : Prop := ∀ s ∈ h.sockets, s.fault = none

/-- The socket is a client, and it is open. -/
def Follows (h : Hub) (i : Nat) : Prop := i ∈ h.clients ∧ h.isOpen i = true

instance (h : Hub) (i : Nat) : Decidable (h.Follows i) := inferInstanceAs (Decidable (_ ∧ _))

variable {h : Hub} {i : Nat}

theorem Quiet.sendTo (hq : h.Quiet) (ho : h.isOpen i = true) (text : Text) :
    h.sendTo i text = ⟨[(i, text)], none⟩ := by
  obtain ⟨s, hs, -⟩ := (Option.any_eq_true _ _).mp ho
  simp only [Hub.sendTo, hs, hq s (List.mem_of_getElem? hs)]

theorem Quiet.sendAll (hq : h.Quiet) {messages : List (Nat × Text)}
    (ho : ∀ m ∈ messages, h.isOpen m.1 = true) : h.sendAll messages = ⟨messages, none⟩ := by
  induction messages with
  | nil => rfl
  | cons m messages ih =>
    obtain ⟨hm, hms⟩ := List.forall_mem_cons.mp ho
    simp only [Hub.sendAll, hq.sendTo hm, ih hms, List.singleton_append]

theorem Quiet.broadcast (hq : h.Quiet) (messages : List Json) :
    h.broadcast messages =
      ⟨messages.flatMap fun m => (h.clients.filter h.isOpen).map fun i => (i, m.print), none⟩ := by
  refine hq.sendAll fun m hm => ?_
  obtain ⟨_, -, hm⟩ := List.mem_flatMap.mp hm
  obtain ⟨i, hi, rfl⟩ := List.mem_map.mp hm
  exact (List.mem_filter.mp hi).2

theorem Follows.received_broadcast (hf : h.Follows i) (hq : h.Quiet) (hn : h.clients.Nodup)
    (messages : List Json) :
    received i (h.broadcast messages).sent = messages.map Json.print := by
  rw [hq.broadcast]
  induction messages with
  | nil => rfl
  | cons m messages ih =>
    have hi : i ∈ h.clients.filter h.isOpen := List.mem_filter.mpr hf
    rw [List.flatMap_cons, received_append, ih, received_to i (hn.filter _) hi]
    rfl

/-- Each client is a socket, none is a client twice, and sending to them raises no error. -/
structure Orderly (h : Hub) : Prop where
  quiet : h.Quiet
  nodup : h.clients.Nodup
  known : ∀ i ∈ h.clients, i < h.sockets.length

theorem orderly_empty : Hub.empty.Orderly :=
  ⟨List.forall_mem_nil _, List.nodup_nil, List.forall_mem_nil _⟩

theorem sendTo_add (h : Hub) {s : Subscriber} (hs : s.fault = none) (text : Text) :
    (h.add s).2.sendTo (h.add s).1 text = ⟨[(h.sockets.length, text)], none⟩ := by
  simp [Hub.sendTo, Hub.add, hs]

theorem Orderly.add (ho : h.Orderly) {s : Subscriber} (hs : s.fault = none) :
    (h.add s).2.Orderly where
  quiet := List.forall_mem_append.mpr ⟨ho.quiet, List.forall_mem_singleton.mpr hs⟩
  nodup := by
    refine ho.nodup.append (List.nodup_singleton _) ?_
    exact List.disjoint_singleton.mpr fun hi => Nat.lt_irrefl _ (ho.known _ hi)
  known := by
    refine List.forall_mem_append.mpr ⟨fun i hi => ?_, List.forall_mem_singleton.mpr ?_⟩ <;>
      simp only [Hub.add, List.length_append, List.length_singleton]
    · exact Nat.lt_succ_of_lt (ho.known i hi)
    · exact Nat.lt_succ_self _

theorem Orderly.update (ho : h.Orderly) (i : Nat) {f : Subscriber → Subscriber}
    (hf : ∀ s, (f s).fault = s.fault) : (h.update i f).Orderly where
  quiet s hs := by
    obtain ⟨j, hj⟩ := List.getElem?_of_mem hs
    rw [Hub.update, List.getElem?_modify] at hj
    obtain ⟨t, ht, rfl⟩ := Option.map_eq_some_iff.mp hj
    have hquiet := ho.quiet t (List.mem_of_getElem? ht)
    split
    · rw [hf, hquiet]
    · exact hquiet
  nodup := ho.nodup
  known j hj := by
    rw [Hub.update, List.length_modify]
    exact ho.known j hj

theorem Orderly.remove (ho : h.Orderly) (i : Nat) : (h.remove i).Orderly where
  quiet := ho.quiet
  nodup := ho.nodup.filter _
  known j hj := ho.known j (List.mem_of_mem_filter hj)

theorem Orderly.closed (ho : h.Orderly) (i : Nat) : (h.closed i).1.Orderly := by
  unfold Hub.closed
  split
  · exact ho.remove i
  · exact ho

theorem Orderly.failed (ho : h.Orderly) (i : Nat) (fault : Fault) :
    (h.failed i fault).1.Orderly := by
  unfold Hub.failed
  split
  · exact ho.remove i
  · exact ho

theorem Orderly.answered (ho : h.Orderly) (a : Response) : (h.answered a).Orderly := by
  unfold Hub.answered
  split
  · exact ⟨ho.quiet, ho.nodup, ho.known⟩
  · exact ho

end Hub

end LimitBook.Server
