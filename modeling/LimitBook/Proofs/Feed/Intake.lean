import LimitBook.Proofs.Feed.Client.Message
import LimitBook.Proofs.Feed.Frame
import LimitBook.Proofs.Feed.Rejection

namespace LimitBook.Feed

open Book BookM Text

section Faults

variable {α : Type} [Scalar α] [Scalar.Lawful α]

theorem fault?_of_isNonneg {u : LevelUpdate α} (hp : Scalar.isNonneg u.price = true)
    (hq : Scalar.isNonneg u.totalQty = true) :
    u.fault? = if u.price == Scalar.zero then some .invalidPrice else none := by
  rw [Scalar.isNonneg, Bool.and_eq_true, decide_eq_true_iff] at hp
  have hpositive : Scalar.isPositive u.price = !(u.price == Scalar.zero) := by
    rw [Bool.eq_iff_iff, Scalar.isPositive, Bool.and_eq_true, decide_eq_true_iff, Bool.not_eq_true',
      ← Bool.not_eq_true, Scalar.Lawful.lt_iff, Scalar.Lawful.beq_iff]
    simp only [hp, true_and, and_true]
  rw [LevelUpdate.fault?, hpositive, hq, Bool.not_not]
  rfl

/-- Updates whose prices and sizes are finite and not below zero. -/
def Nonneg (us : List (LevelUpdate α)) : Prop :=
  ∀ u ∈ us, Scalar.isNonneg u.price = true ∧ Scalar.isNonneg u.totalQty = true

/-- The first of some updates whose price is zero is `u`. -/
def FirstUnpriced (us : List (LevelUpdate α)) (u : LevelUpdate α) : Prop :=
  ∃ front back, us = front ++ u :: back ∧ (∀ v ∈ front, (v.price == Scalar.zero) = false) ∧
    (u.price == Scalar.zero) = true

theorem isSome_fault?_iff {us : List (LevelUpdate α)} (hus : Nonneg us) {u : LevelUpdate α}
    (hu : u ∈ us) : u.fault?.isSome = true ↔ (u.price == Scalar.zero) = true := by
  rw [fault?_of_isNonneg (hus u hu).1 (hus u hu).2]
  cases u.price == Scalar.zero <;> simp

theorem FirstFault.unpriced {us : List (LevelUpdate α)} {reason : UpdateFault} {u : LevelUpdate α}
    (h : FirstFault us reason u) (hus : Nonneg us) :
    reason = .invalidPrice ∧ FirstUnpriced us u := by
  obtain ⟨front, back, rfl, hfront, hu⟩ := h
  have hmem : u ∈ front ++ u :: back := List.mem_append_right _ List.mem_cons_self
  have hprice := (isSome_fault?_iff hus hmem).mp (by rw [hu]; rfl)
  refine ⟨?_, front, back, rfl, fun v hv => ?_, hprice⟩
  · rw [fault?_of_isNonneg (hus u hmem).1 (hus u hmem).2, if_pos hprice] at hu
    exact (Option.some.inj hu).symm
  · rw [← Bool.not_eq_true, ← isSome_fault?_iff hus (List.mem_append_left _ hv), hfront v hv]
    exact Bool.false_ne_true

end Faults

variable {ω : Type} {clock : FeedM Float ω Float} {frame : BookFrame}
  {s : Book Float × (Tracker × ω)}

def BookFrame.base (frame : BookFrame) (b : Book Float) : Book Float :=
  match frame.action with
  | .snapshot => b.clear
  | .update => b

theorem atomic_apply (hd : Discreet clock) (hb : s.1.busy = false) :
    Atomic clock (frame.apply clock) s frame.updates := by
  unfold BookFrame.apply
  split
  · exact atomic_snapshot hd hb frame.snapshot
  · exact atomic_increment hd hb frame.increment

/-- A frame that is applied leaves the levels that its updates make of its base, and its number. -/
theorem apply_applied (hd : Discreet clock) (hb : s.1.busy = false) {fills : List (Fill Float)}
    {fault : Option (SequenceFault Float)} {residual : Bool} {s' : Book Float × (Tracker × ω)}
    (hrun : (frame.apply clock).run s = (.ok (.applied fills fault residual), s')) :
    ∃ b, Applies (frame.base s.1.shut) frame.updates fills b ∧
      s'.1 = { b with sequenceId := some frame.seqId }.reopened := by
  cases ha : frame.action with
  | snapshot =>
    rw [BookFrame.apply, ha] at hrun
    rw [BookFrame.base, ha]
    exact applySnapshot_applied hd hb hrun
  | update =>
    rw [BookFrame.apply, ha] at hrun
    rw [BookFrame.base, ha]
    obtain ⟨r, b', w, hrun', he⟩ | ⟨_, _, _, hrun', -⟩ := applyIncrement_ends hd hb frame.increment
    · rw [hrun] at hrun'
      cases hrun'
      cases he with
      | increment hu happlies => exact ⟨_, happlies, rfl⟩
    · rw [hrun] at hrun'
      cases hrun'

/-- What comes of a frame in a state: it is rejected if and only if a price in it is zero, for the
first such price, and then nothing has changed; else all its updates are applied, unless the clock
fails. -/
structure Taken (clock : FeedM Float ω Float) (frame : BookFrame) (s : Book Float × (Tracker × ω)) :
    Prop where
  rejected : (∃ reason u notes, ((Client.reconcile clock frame).run s).1 =
      .ok (.rejected reason u, notes)) ↔ ∃ u ∈ frame.updates, (u.price == 0) = true
  first : ∀ reason u notes, ((Client.reconcile clock frame).run s).1 =
      .ok (.rejected reason u, notes) →
    reason = .invalidPrice ∧ FirstUnpriced frame.updates u ∧
      ((Client.reconcile clock frame).run s).2 = s
  applied : (∀ u ∈ frame.updates, (u.price == 0) = false) →
    (∃ fills fault residual notes b, ((Client.reconcile clock frame).run s).1 =
        .ok (.applied fills fault residual, notes) ∧
      Applies (frame.base s.1.shut) frame.updates fills b ∧
        ((Client.reconcile clock frame).run s).2.1 =
          { b with sequenceId := some frame.seqId }.reopened) ∨
      ∃ e, ((Client.reconcile clock frame).run s).1 = .error e ∧ Raises clock e

theorem reconcile_cases (clock : FeedM Float ω Float) (frame : BookFrame)
    (s : Book Float × (Tracker × ω)) :
    (∃ r notes s', (frame.apply clock).run s = (.ok r, s') ∧
        (Client.reconcile clock frame).run s = (.ok (r, notes), s')) ∨
      ∃ e s', (frame.apply clock).run s = (.error e, s') ∧
        (Client.reconcile clock frame).run s = (.error e, s') := by
  rcases hrun : (frame.apply clock).run s with ⟨e | r, s'⟩
  · exact .inr ⟨e, s', rfl, Client.reconcile_error hrun⟩
  · exact .inl ⟨r, _, s', rfl, Client.reconcile_ok hrun⟩

theorem taken_of_nonneg (hd : Discreet clock) (hb : s.1.busy = false) (hus : Nonneg frame.updates) :
    Taken clock frame s := by
  have hatomic : Atomic clock (frame.apply clock) s frame.updates := atomic_apply hd hb
  have hzero : (∃ reason u, ((frame.apply clock).run s).1 = .ok (.rejected reason u)) ↔
      ∃ u ∈ frame.updates, (u.price == 0) = true :=
    hatomic.rejected.trans (exists_congr fun u => and_congr_right (isSome_fault?_iff hus))
  obtain ⟨r, notes, s', hrun, hreconcile⟩ | ⟨e, s', hrun, hreconcile⟩ :=
    reconcile_cases clock frame s
  · rw [hrun] at hzero
    cases r with
    | rejected reason u =>
      have hsome := hzero.mp ⟨reason, u, rfl⟩
      refine ⟨iff_of_true ⟨reason, u, notes, congrArg Prod.fst hreconcile⟩ hsome,
        fun reason' u' notes' hr => ?_, fun hnone => ?_⟩
      · rw [hreconcile] at hr ⊢
        cases hr
        have hfirst := hatomic.first reason u (congrArg Prod.fst hrun)
        have hsame := hatomic.unchanged reason u (congrArg Prod.fst hrun)
        rw [hrun] at hsame
        exact ⟨(hfirst.unpriced hus).1, (hfirst.unpriced hus).2, hsame⟩
      · obtain ⟨v, hv, hprice⟩ := hsome
        rw [hnone v hv] at hprice
        cases hprice
    | applied fills fault residual =>
      obtain ⟨b, happlies, hs'⟩ := apply_applied hd hb hrun
      refine ⟨iff_of_false ?_ fun hsome => ?_, fun reason' u' notes' hr => ?_, fun _ =>
        .inl ⟨fills, fault, residual, notes, b, congrArg Prod.fst hreconcile, happlies, ?_⟩⟩
      · rintro ⟨_, _, _, hr⟩
        rw [hreconcile] at hr
        cases hr
      · obtain ⟨_, _, hr⟩ := hzero.mpr hsome
        cases hr
      · rw [hreconcile] at hr
        cases hr
      · rw [hreconcile]
        exact hs'
  · rw [hrun] at hzero
    refine ⟨iff_of_false ?_ fun hsome => ?_, fun reason' u' notes' hr => ?_, fun _ =>
      .inr ⟨e, congrArg Prod.fst hreconcile, hatomic.raised e (congrArg Prod.fst hrun)⟩⟩
    · rintro ⟨_, _, _, hr⟩
      rw [hreconcile] at hr
      cases hr
    · obtain ⟨_, _, hr⟩ := hzero.mpr hsome
      cases hr
    · rw [hreconcile] at hr
      cases hr

/-- Every update of a frame that is read from a text has a price and a size that are finite and not
below zero. Whatever has happened to the book, the frame is rejected if and only if a price in it is
zero, always for the first such price, and applied in full otherwise. -/
theorem intake_after (hd : Discreet clock) (events : List (Event Float)) (symbol : Text)
    (w : Tracker × ω) {t : Text} (ht : Frame.ofText? t = some (.book frame)) :
    Nonneg frame.updates ∧ Taken clock frame (after clock events (Book.empty symbol, w)) :=
  ⟨isNonneg_of_ofText ht,
    taken_of_nonneg hd (free_after hd events symbol w) (isNonneg_of_ofText ht)⟩

def unpricedText : Text :=
  "\x7b\"arg\":\x7b\"channel\":\"books\",\"instId\":\"X\"\x7d,\"action\":\"update\",\"data\":[\x7b" ++
    ofString "\"asks\":[[\"101.5\",\"2\"],[\"0.00\",\"1\"]],\"bids\":[]," ++
    ofString "\"seqId\":8,\"prevSeqId\":7\x7d]\x7d"

/-- An update whose second level has zero for a price is rejected for that level, though the first
one could be applied. -/
theorem intake_after_unpricedText :
    let s := after (pure 0) gapEvents (Book.empty [], (Tracker.initial, ()))
    Discreet (pure 0 : FeedM Float Unit Float) ∧
      ∃ frame, Frame.ofText? unpricedText = some (.book frame) ∧ Nonneg frame.updates ∧
        ∃ u notes, (Client.reconcile (pure 0) frame).run s =
          (.ok (.rejected .invalidPrice u, notes), s) ∧ FirstUnpriced frame.updates u := by
  intro s
  have hread : readsBook (fun frame => frame.updates.any (·.price == 0)) unpricedText = true := by
    decide +kernel
  obtain ⟨frame, hframe, hsome⟩ := exists_of_readsBook hread
  obtain ⟨u, hu, hzero⟩ := List.any_eq_true.mp hsome
  obtain ⟨hus, htaken⟩ :=
    intake_after (discreet_pure 0) gapEvents [] (Tracker.initial, ()) hframe
  obtain ⟨reason, v, notes, hr⟩ := htaken.rejected.mpr ⟨u, hu, hzero⟩
  obtain ⟨rfl, hfirst, hs⟩ := htaken.first reason v notes hr
  exact ⟨discreet_pure 0, frame, hframe, hus, v, notes, Prod.ext hr hs, hfirst⟩

end LimitBook.Feed
