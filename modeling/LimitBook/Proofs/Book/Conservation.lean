import LimitBook.Proofs.Book.Batch
import LimitBook.Proofs.Book.Ledger

namespace LimitBook

variable {α ω : Type}

def LevelUpdate.account (u : LevelUpdate α) : Account α := .aggregate u.side u.price

def Entry.fill? : Entry α → Option (Fill α)
  | .traded _ f => some f
  | .opened .. | .closed _ | .cleared => none

theorem fills_of_traded (limit : α) (fs : List (Fill α)) :
    (fs.map (Entry.traded limit)).filterMap Entry.fill? = fs := by
  rw [List.filterMap_map]
  exact List.filterMap_some

theorem Entry.fills_of_arrival (x : Account α) (limit q : α) (fs : List (Fill α)) :
    (Entry.arrival x limit q fs).filterMap Entry.fill? = fs := fills_of_traded limit fs

def LevelUpdate.entries [Scalar α] (u : LevelUpdate α) (fs : List (Fill α)) : List (Entry α) :=
  if negligible u.totalQty then .closed u.account :: fs.map (.traded u.price)
  else Entry.arrival u.account u.price u.totalQty fs

theorem LevelUpdate.fills_of_entries [Scalar α] (u : LevelUpdate α) (fs : List (Fill α)) :
    (u.entries fs).filterMap Entry.fill? = fs := by
  unfold entries
  split <;> exact fills_of_traded u.price fs

namespace Book

open BookM

/-- What happens to accounts at once, and the book after it. -/
structure Step (α : Type) where
  entries : List (Entry α)
  book : Book α

def entriesOf (sts : List (Step α)) : List (Entry α) := sts.flatMap Step.entries

theorem entriesOf_append (sts sts' : List (Step α)) :
    entriesOf (sts ++ sts') = entriesOf sts ++ entriesOf sts' := List.flatMap_append

theorem entriesOf_singleton (st : Step α) : entriesOf [st] = st.entries := List.flatMap_singleton ..

section Steps

variable [Scalar α] (clock : BookM α ω α)

/-- The steps of updates that are applied one by one. An update that is broken off has given an
aggregate that stood its new size. -/
def updateSteps : List (LevelUpdate α) → Book α × ω → List (Step α)
  | [], _ => []
  | u :: us, s =>
    match (applyLevel clock u).run s with
    | (.ok r, t) => ⟨u.entries r.1, t.1⟩ :: updateSteps us t
    | (.error _, t) =>
      [⟨if (s.1.aggregateAt u.side u.price).isSome then u.entries [] else [], t.1⟩]

def callSteps (s : Book α × ω) : Call α → List (Step α)
  | .submit sub =>
    match (submit clock sub).run s with
    | (.ok (.accepted _ fills _ _), t) =>
      [⟨Entry.arrival (.order sub.id) sub.price sub.quantity fills, t.1⟩]
    | _ => []
  | .cancel id =>
    if s.1.hasOrder id then [⟨[.closed (.order id)], ((cancel id).run s).2.1⟩] else []
  | .reset => [⟨[.cleared], (reset.run s).2.1⟩]
  | .updateLevel u =>
    if (LevelUpdate.firstFault? [u]).isNone then updateSteps clock [u] (s.1.shut, s.2) else []
  | .updateLevels us =>
    if (LevelUpdate.firstFault? us).isNone then updateSteps clock us (s.1.shut, s.2) else []
  | .setSequenceId _ | .depth _ => []

def steps : List (Call α) → Book α × ω → List (Step α)
  | [], _ => []
  | c :: cs, s => callSteps clock s c ++ steps cs ((perform clock c).run s).2

end Steps

def Tallies (es : List (Entry ℚ)) : List (Step ℚ) → Prop
  | [] => True
  | st :: sts => Balanced (es ++ st.entries) st.book ∧ Tallies (es ++ st.entries) sts

section Tallies

variable {es : List (Entry ℚ)} {sts sts' : List (Step ℚ)}

theorem tallies_append :
    Tallies es (sts ++ sts') ↔ Tallies es sts ∧ Tallies (es ++ entriesOf sts) sts' := by
  induction sts generalizing es with
  | nil => simp [Tallies, entriesOf]
  | cons st sts ih =>
    have hentries : es ++ entriesOf (st :: sts) = es ++ st.entries ++ entriesOf sts :=
      (List.append_assoc ..).symm
    rw [List.cons_append, Tallies, Tallies, ih, and_assoc, hentries]

theorem Tallies.balanced (h : Tallies es sts) {done rest : List (Step ℚ)} {st : Step ℚ}
    (hs : sts = done ++ st :: rest) : Balanced (es ++ entriesOf (done ++ [st])) st.book := by
  rw [hs, tallies_append] at h
  rw [entriesOf_append, entriesOf_singleton, ← List.append_assoc]
  exact h.2.1

end Tallies

def Reconciled (es : List (Entry ℚ)) (b : Book ℚ) : Prop :=
  ∃ c, Trims b c ∧ c.Sound ∧ Balanced es c

namespace Reconciled

variable {es : List (Entry ℚ)} {b : Book ℚ} {u : LevelUpdate ℚ}

theorem balanced (h : Reconciled es b) : Balanced es b := by
  obtain ⟨c, ht, -, hb⟩ := h
  exact hb.congr fun side p => (ht.queueAt side p).symm

theorem beside (h : Reconciled es b) (seq : Option ℚ) (busy : Bool) :
    Reconciled es { b with sequenceId := seq, busy := busy } := by
  obtain ⟨c, ht, hs, hb⟩ := h
  exact ⟨c, ht.beside seq c.sequenceId busy c.busy, hs, hb⟩

theorem accept (h : Reconciled es b) {s : Submission ℚ} (hs : b.refusal? s = none) (now : ℚ) :
    Reconciled (es ++ Entry.arrival (.order s.id) s.price s.quantity
      (Answer.submitted (b.accept s now).1).fills) (b.accept s now).2 := by
  obtain ⟨c, ht, hc, hb⟩ := h
  have hs' := (ht.refusal s).trans hs
  obtain ⟨hsame, ht'⟩ := ht.accept hs now
  have hq : 0 ≤ s.quantity := (Scalar.isPositive_iff.mp (refusal?_eq_none hs).2.1).2.le
  refine ⟨_, ht', hc.accept now hs', ?_⟩
  rw [← hsame, accept_fills]
  exact hb.exchange hc (hc.accept_exchange now hs') hq

theorem remove (h : Reconciled es b) (id : OrderId) :
    Reconciled (es ++ [.closed (.order id)]) (b.remove id).2 := by
  obtain ⟨c, ht, hc, hb⟩ := h
  refine ⟨_, (ht.remove id).2, hc.remove id, hb.close fun side p r => ?_⟩
  rw [hc.toFiled.remove_queueAt, List.mem_filter, decide_eq_true_eq]
  exact and_congr_right fun _ => not_congr Party.account_order.symm

theorem clear (h : Reconciled es b) : Reconciled (es ++ [.cleared]) b.clear := by
  obtain ⟨c, ht, hc, hb⟩ := h
  refine ⟨_, ht.clear, hc.clear, Balanced.clear fun side p => ?_⟩
  refine hc.clear.toFiled.queueAt_nil fun k hk => ?_
  rw [hc.toFiled.clear_levels] at hk
  cases hk

theorem applied (h : Reconciled es b) (hu : u.fault? = none) (now : ℚ) :
    Reconciled (es ++ u.entries (b.applied u now).1.1) (b.applied u now).2 := by
  obtain ⟨c, ht, hc, hb⟩ := h
  obtain ⟨hsame, ht'⟩ := ht.applied hu hc now
  refine ⟨_, ht', hc.applied now hu, ?_⟩
  rw [← hsame, LevelUpdate.entries]
  cases hn : negligible u.totalQty with
  | true =>
    obtain ⟨hfills, hqueues⟩ := hc.applied_closes now hu hn
    rw [if_pos rfl, hfills]
    exact hb.close hqueues
  | false =>
    rw [if_neg Bool.false_ne_true]
    have hq : 0 ≤ u.totalQty := Counts.zero_lt ⟨(fault?_eq_none hu).2, hn⟩ |>.le
    exact hb.exchange hc (hc.applied_exchange now hu hn) hq

theorem resize (h : Reconciled es b) (hu : u.fault? = none)
    (hn : negligible u.totalQty = false) :
    Reconciled (es ++ if (b.aggregateAt u.side u.price).isSome then u.entries [] else [])
      (b.resize u) := by
  obtain ⟨c, ht, hc, hb⟩ := h
  have hstands : (b.aggregateAt u.side u.price).isSome = true ↔
      ∃ k ∈ b.levels u.side, k.price = u.price ∧ (aggregate? k).isSome = true := by
    rw [aggregateAt, Option.isSome_map]
    constructor
    · intro ha
      obtain ⟨r, hr⟩ := Option.isSome_iff_exists.mp ha
      obtain ⟨k, hk, ha⟩ := Option.bind_eq_some_iff.mp hr
      obtain ⟨hk, hkp⟩ := (ht.filed.ranks u.side).level?_eq_some.mp hk
      exact ⟨k, hk, hkp, Option.isSome_iff_exists.mpr ⟨r, ha⟩⟩
    · rintro ⟨k, hk, hkp, ha⟩
      rwa [(ht.filed.ranks u.side).level?_eq_some.mpr ⟨hk, hkp⟩]
  obtain ⟨k, hk, hkc, hkp, ha, ht'⟩ | ⟨hnone, ht'⟩ := ht.resize_cases (fault?_eq_none hu).1
  · refine ⟨_, ht', hc.resize hu hn hkc hkp ha, ?_⟩
    rw [if_pos (hstands.mpr ⟨k, hk, hkp, ha⟩), LevelUpdate.entries, hn, if_neg Bool.false_ne_true]
    have hq : 0 ≤ u.totalQty := Counts.zero_lt ⟨(fault?_eq_none hu).2, hn⟩ |>.le
    exact hb.exchange hc (hc.resize_exchange hu hn hkc hkp ha) hq
  · refine ⟨c, ht', hc, ?_⟩
    rw [if_neg fun ha => ?_, List.append_nil]
    · exact hb
    · obtain ⟨k, hk, hkp, ha⟩ := hstands.mp ha
      rw [hnone k hk hkp] at ha
      cases ha

end Reconciled

section Runs

variable {clock : BookM ℚ ω ℚ} {s : Book ℚ × ω} {es : List (Entry ℚ)}

/-- What it comes to when some steps are made: each is balanced, so is the book that they leave, and
the fills that are told of, if any are, are those of the steps. -/
structure Accounted (es : List (Entry ℚ)) (sts : List (Step ℚ)) (told : Except Fault (List (Fill ℚ)))
    (b : Book ℚ) : Prop where
  tallies : Tallies es sts
  reconciled : Reconciled (es ++ entriesOf sts) b
  fills : ∀ fs, told = .ok fs → fs = (entriesOf sts).filterMap Entry.fill?

theorem Reconciled.unmoved {b : Book ℚ} {told : Except Fault (List (Fill ℚ))}
    (h : Reconciled es b) (ht : ∀ fs, told = .ok fs → fs = []) : Accounted es [] told b :=
  ⟨trivial, (List.append_nil es).symm ▸ h, ht⟩

theorem Reconciled.step {entries : List (Entry ℚ)} {b b' : Book ℚ}
    {told : Except Fault (List (Fill ℚ))} (h : Reconciled (es ++ entries) b)
    (h' : Reconciled (es ++ entries) b')
    (ht : ∀ fs, told = .ok fs → fs = entries.filterMap Entry.fill?) :
    Accounted es [⟨entries, b⟩] told b' := by
  refine ⟨⟨h.balanced, trivial⟩, ?_, ?_⟩ <;> rwa [entriesOf_singleton]

theorem Reconciled.updates (hd : Discreet clock) {us : List (LevelUpdate ℚ)}
    (hu : ∀ u ∈ us, u.fault? = none) (hb : s.1.busy = true) (h : Reconciled es s.1)
    (fills : List (Fill ℚ)) (residual : Bool) :
    ∃ r t, (applyLevels clock us (fills, residual)).run s = (r, t) ∧
      Tallies es (updateSteps clock us s) ∧
        Reconciled (es ++ entriesOf (updateSteps clock us s)) t.1 ∧
          ∀ a, r = .ok a →
            a.1 = fills ++ (entriesOf (updateSteps clock us s)).filterMap Entry.fill? := by
  induction us generalizing s es fills residual with
  | nil =>
    refine ⟨_, s, rfl, trivial, ?_, fun a he => ?_⟩
    · rwa [updateSteps, entriesOf, List.flatMap_nil, List.append_nil]
    · cases he
      exact (List.append_nil fills).symm
  | cons u us ih =>
    obtain ⟨hu, hus⟩ := List.forall_mem_cons.mp hu
    simp only [applyLevels, bind_run, updateSteps]
    obtain ⟨now, w, hrun⟩ | ⟨e, w, hrun, -, hn⟩ := applyLevel_cases hd hb u
    · have hstep := h.applied hu now
      obtain ⟨r, t, hrest, htallies, hreconciled, hfills⟩ :=
        ih (s := ((s.1.applied u now).2, w)) hus ((applied_busy now).trans hb) hstep
          (fills ++ (s.1.applied u now).1.1) (s.1.applied u now).1.2
      rw [hrun]
      refine ⟨r, t, hrest, ⟨hstep.balanced, htallies⟩, ?_, fun a ha => ?_⟩
      · rwa [entriesOf, List.flatMap_cons, ← List.append_assoc]
      · rw [hfills a ha, entriesOf, entriesOf, List.flatMap_cons, List.filterMap_append,
          LevelUpdate.fills_of_entries, List.append_assoc]
    · have hstep := h.resize hu hn
      rw [hrun]
      refine ⟨_, _, rfl, ⟨hstep.balanced, trivial⟩, ?_, fun a ha => ?_⟩
      · rwa [entriesOf_singleton]
      · cases ha

theorem Reconciled.shut {b : Book ℚ} (h : Reconciled es b) : Reconciled es b.shut :=
  h.beside b.sequenceId true

theorem Reconciled.reopened {b : Book ℚ} (h : Reconciled es b) : Reconciled es b.reopened :=
  h.beside b.sequenceId false

theorem updateLevel_batch (hb : s.1.busy = false) (u : LevelUpdate ℚ) :
    (updateLevel clock u).run s = (updateLevels clock [u]).run s := by
  rw [updateLevel, updateLevels, exclusive_run .updateLevel _ hb, exclusive_run .updateLevels _ hb]
  cases hu : u.fault? with
  | some reason => simp only [LevelUpdate.firstFault?, hu]
  | none =>
    simp only [LevelUpdate.firstFault?, hu, applyLevels, bind_run]
    rcases (applyLevel clock u).run (s.1.shut, s.2) with ⟨_ | ⟨fills, residual⟩, t⟩ <;> rfl

theorem Reconciled.batch (hd : Discreet clock) (hb : s.1.busy = false) (h : Reconciled es s.1)
    (us : List (LevelUpdate ℚ)) : Accounted es (callSteps clock s (.updateLevels us))
      ((((updateLevels clock us).run s).1.map Answer.updated).map Answer.fills)
      ((updateLevels clock us).run s).2.1 := by
  rw [callSteps, updateLevels, exclusive_run .updateLevels _ hb]
  cases hu : LevelUpdate.firstFault? us with
  | some f => exact h.shut.reopened.unmoved fun fs he => (Except.ok.inj he).symm
  | none =>
    obtain ⟨r, t, hrun, htallies, hreconciled, hfills⟩ :=
      Reconciled.updates (s := (s.1.shut, s.2)) hd (firstFault?_eq_none hu) rfl h.shut [] false
    simp only [bind_run, hrun]
    cases r with
    | error e => exact ⟨htallies, hreconciled.reopened, fun fs he => by cases he⟩
    | ok a =>
      refine ⟨htallies, hreconciled.reopened, fun fs he => (Except.ok.inj he).symm.trans ?_⟩
      exact hfills a rfl

theorem Reconciled.call (hd : Discreet clock) (hb : s.1.busy = false) (h : Reconciled es s.1)
    (c : Call ℚ) : Accounted es (callSteps clock s c)
      (((perform clock c).run s).1.map Answer.fills) ((perform clock c).run s).2.1 := by
  cases c with
  | submit sub =>
    rw [perform, map_run, callSteps, submit_run clock hb]
    cases hs : s.1.refusal? sub with
    | some reason => exact h.unmoved fun fs he => (Except.ok.inj he).symm
    | none =>
      obtain ⟨e | now, w, hrun⟩ := hd.run (s := (s.1.shut, s.2)) rfl
      · simp only [hrun]
        refine h.shut.reopened.unmoved fun fs he => ?_
        cases he
      · obtain ⟨status, fills, rest, o, ha⟩ := accept_accepted s.1.shut sub now
        have hstep := (h.shut.accept hs now).reopened
        rw [ha] at hstep
        simp only [hrun, ha]
        refine hstep.step hstep fun fs he => (Except.ok.inj he).symm.trans ?_
        exact (Entry.fills_of_arrival _ _ _ fills).symm
  | cancel id =>
    rw [perform, map_run, callSteps, cancel_run hb id]
    by_cases hid : s.1.hasOrder id = true
    · rw [if_pos hid]
      have hstep := (h.shut.remove id).reopened
      exact hstep.step hstep fun fs he => (Except.ok.inj he).symm
    · have hnone : s.1.shut.place? id = none := Option.not_isSome_iff_eq_none.mp hid
      rw [if_neg hid, remove_none hnone]
      exact h.shut.reopened.unmoved fun fs he => (Except.ok.inj he).symm
  | reset =>
    rw [perform, map_run, callSteps, reset, exclusive_run .reset _ hb]
    exact h.shut.clear.reopened.step h.shut.clear.reopened fun fs he => (Except.ok.inj he).symm
  | updateLevel u =>
    have hcall := h.batch hd hb [u]
    rw [← updateLevel_batch hb] at hcall
    rwa [perform, map_run]
  | updateLevels us =>
    have hcall := h.batch hd hb us
    rwa [perform, map_run]
  | setSequenceId seq =>
    rw [perform, map_run, callSteps, setSequenceId, exclusive_run .setSequenceId _ hb]
    exact (h.beside seq false).unmoved fun fs he => (Except.ok.inj he).symm
  | depth levels =>
    rw [perform, map_run, callSteps, depth_run levels hb]
    exact h.unmoved fun fs he => (Except.ok.inj he).symm

theorem Reconciled.run (hd : Discreet clock) (calls : List (Call ℚ)) (hb : s.1.busy = false)
    (h : Reconciled es s.1) : Tallies es (steps clock calls s) ∧
      Reconciled (es ++ entriesOf (steps clock calls s)) (after clock calls s).1 ∧
        (after clock calls s).1.busy = false := by
  induction calls generalizing s es with
  | nil => exact ⟨trivial, (List.append_nil es).symm ▸ h, hb⟩
  | cons c calls ih =>
    obtain ⟨htallies, hreconciled, -⟩ := h.call hd hb c
    obtain ⟨htallies', hrest⟩ := ih (perform_busy c hb) hreconciled
    rw [steps, entriesOf_append, ← List.append_assoc]
    exact ⟨tallies_append.mpr ⟨htallies, htallies'⟩, hrest⟩

theorem Reconciled.accept_amounts {b : Book ℚ} (h : Reconciled es b) {sub : Submission ℚ} {now : ℚ}
    (hs : b.refusal? sub = none) {status : Status} {fills : List (Fill ℚ)} {rest : ℚ} {o : Order ℚ}
    (ha : (b.accept sub now).1 = .accepted status fills rest o) :
    o.original = sub.quantity ∧ o.filled = volume fills ∧ o.filled ≤ o.original ∧
      if status = .filled then o.original - o.filled < 1 / 10 ^ 10
      else o.filled + o.remaining = o.original := by
  obtain ⟨c, ht, hc, -⟩ := h
  have hs' := (ht.refusal sub).trans hs
  have hq : 0 ≤ sub.quantity := (Scalar.isPositive_iff.mp (refusal?_eq_none hs).2.1).2.le
  obtain ⟨hrest, hexact, hdust⟩ := Balanced.self (hc.accept_exchange now hs') hq
  have hsizes := Order.fills_sizes (c.arrive sub now) (c.traded (c.arrive sub now)).fills
  rw [← hc.toFiled.traded_taker] at hsizes
  have hremaining := congrArg (·.2.1) hsizes
  have hfilled := (congrArg (·.2.2.2) hsizes).trans ((foldl_quantity 0 _).trans (zero_add _))
  have horiginal : (c.traded (c.arrive sub now)).taker.original = sub.quantity :=
    congrArg (·.2.2.1) hsizes
  simp only [Order.sizes] at hremaining hfilled
  rw [← (ht.accept hs now).1, accept_eq] at ha
  simp only at ha
  by_cases hn : negligible (c.traded (c.arrive sub now)).taker.remaining = true
  · rw [if_pos hn] at ha
    obtain ⟨rfl, rfl, rfl, rfl⟩ := SubmitResult.accepted.inj ha
    rw [horiginal, hfilled, if_pos rfl]
    exact ⟨rfl, rfl, sub_nonneg.mp hrest, hdust (hremaining ▸ hn)⟩
  · rw [if_neg hn] at ha
    obtain ⟨rfl, rfl, rfl, rfl⟩ := SubmitResult.accepted.inj ha
    have hstatus : (if (c.traded (c.arrive sub now)).fills.isEmpty then Status.resting
        else .partly) ≠ .filled := by split <;> decide
    rw [horiginal, hfilled, if_neg hstatus, hremaining]
    refine ⟨rfl, rfl, sub_nonneg.mp hrest, ?_⟩
    have hleft := hexact (hremaining ▸ Bool.eq_false_iff.mpr hn)
    exact (congrArg (_ + ·) hleft).trans (add_sub_cancel _ _)

end Runs

section Rationals

variable {clock : BookM ℚ ω ℚ}

/-- After each step of some calls and after all of them, an order that rests, local or an aggregate,
has traded just what the fills since it came that name it come to, and what remains makes up the
rest of its quantity; and of one that has left fully traded less than dust is missing. These fills
are all those that calls answer with. An order that is accepted is returned with what its fills come
to, and that is all but dust if it is filled, and else just what does not remain. -/
theorem conserved_after (hd : Discreet clock) (calls : List (Call ℚ)) (symbol : Text) (w : ω) :
    let s := after clock calls (empty symbol, w)
    let sts := steps clock calls (empty symbol, w)
    (∀ done st rest, sts = done ++ st :: rest → Balanced (entriesOf (done ++ [st])) st.book) ∧
      Balanced (entriesOf sts) s.1 ∧
      (∀ c a s', (perform clock c).run s = (.ok a, s') →
        a.fills = (entriesOf (callSteps clock s c)).filterMap Entry.fill?) ∧
      ∀ sub status fills rest o s',
        (submit clock sub).run s = (.ok (.accepted status fills rest o), s') →
          o.original = sub.quantity ∧ o.filled = volume fills ∧ o.filled ≤ o.original ∧
            if status = .filled then o.original - o.filled < 1 / 10 ^ 10
            else o.filled + o.remaining = o.original := by
  intro s sts
  have hempty : Reconciled [] (empty symbol : Book ℚ) := by
    refine ⟨_, trims_empty symbol, sound_empty symbol, fun side p r hr => ?_, fun x q fs ht => ?_⟩
    · cases side <;> cases hr
    · cases ht
  obtain ⟨htallies, hreconciled, hb⟩ := hempty.run (s := (empty symbol, w)) hd calls rfl
  rw [List.nil_append] at hreconciled
  refine ⟨fun done st rest hs => ?_, hreconciled.balanced, fun c a s' hrun => ?_,
    fun sub status fills rest o s' hrun => ?_⟩
  · have hbalanced := htallies.balanced hs
    rwa [List.nil_append] at hbalanced
  · refine (hreconciled.call hd hb c).fills a.fills ?_
    rw [hrun]
    rfl
  · obtain ⟨now, hs, ha, -⟩ := submit_accepted hd hb hrun
    exact hreconciled.shut.accept_amounts hs ha

/-- An order of 1 that is sold by thirds, the second to the feed, and the last of them short of some
dust. -/
def thirds : List (Call ℚ) :=
  [.submit ⟨1, .sell, 10, 1, []⟩, .submit ⟨2, .buy, 10, 1 / 3, []⟩, .updateLevel ⟨.buy, 10, 1 / 3⟩,
    .submit ⟨3, .buy, 10, 1 / 3 - 1 / 10 ^ 11, []⟩]

/-- An order of 1 that is sold by thirds, the last of them short of some dust, has left, and its
account tells what it is short of. -/
theorem conserved_after_thirds :
    let s := after (pure 0) thirds (empty [], ())
    let es := entriesOf (steps (pure 0) thirds (empty [], ()))
    Discreet (pure 0 : BookM ℚ Unit ℚ) ∧ s.1.hasOrder 1 = false ∧
      ∃ fs, turnover es (.order 1) = some ⟨1, fs⟩ ∧
        fs.map (·.quantity) = [1 / 3, 1 / 3, 1 / 3 - 1 / 10 ^ 11] ∧
          0 ≤ 1 - volume fs ∧ 1 - volume fs < 1 / 10 ^ 10 := by
  intro s es
  have hgone : s.1.hasOrder 1 = false := by decide +kernel
  have htold : (turnover es (.order 1)).map (fun t => (t.quantity, t.fills.map (·.quantity))) =
      some (1, [1 / 3, 1 / 3, 1 / 3 - 1 / 10 ^ 11]) := by decide +kernel
  obtain ⟨⟨q, fs⟩, hfs, he⟩ := Option.map_eq_some_iff.mp htold
  obtain ⟨rfl, hquantities⟩ := Prod.mk.inj he
  obtain ⟨-, hbalanced, -⟩ := conserved_after (discreet_pure 0) thirds [] ()
  obtain ⟨hf, -⟩ : s.1.Filed ∧ _ := filed_after (discreet_pure 0) thirds [] ()
  refine ⟨discreet_pure 0, hgone, fs, hfs, hquantities, hbalanced.left _ _ fs hfs ?_⟩
  exact fun side p r hr he => hf.party_ne hgone r hr (Party.account_order.mp he)

end Rationals

end Book

end LimitBook
