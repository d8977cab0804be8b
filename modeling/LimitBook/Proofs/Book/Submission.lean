import LimitBook.Proofs.Book.Erasure

namespace LimitBook.Book

open BookM

section Accepted

variable {α : Type} [Scalar α] {b : Book α} {s : Submission α} {now : α}

theorem Filed.getOrder?_iff [Scalar.Lawful α] (h : b.Filed) {id : OrderId} {o : Order α} :
    b.getOrder? id = some o ↔ o ∈ b.resting ∧ o.party = .local id := by
  rw [h.getOrder?_eq_some, and_comm, resting, List.mem_flatMap]
  refine and_congr_left fun _ => ⟨?_, ?_⟩
  · rintro ⟨side, k, hk, r, hr, rfl⟩
    refine ⟨k, List.mem_append.mpr ?_, List.mem_map_of_mem hr⟩
    cases side with
    | buy => exact .inl (h.mem_levels.mpr hk)
    | sell => exact .inr (h.mem_levels.mpr hk)
  · rintro ⟨k, hk, ho⟩
    obtain ⟨r, hr, rfl⟩ := List.mem_map.mp ho
    obtain hk | hk := List.mem_append.mp hk
    · exact ⟨.buy, k, h.mem_levels.mp hk, r, hr, rfl⟩
    · exact ⟨.sell, k, h.mem_levels.mp hk, r, hr, rfl⟩

variable [Scalar.Lawful α]

/-- How an order comes out of matching: with nothing left, or with what counts; and as it came if it
has traded nothing. -/
theorem Filed.traded_spent (h : b.Filed) (hb : b.Counted) {o : Order α}
    (ho : Counts o.remaining) :
    ((b.traded o).taker.remaining = Scalar.zero ∨ Counts (b.traded o).taker.remaining) ∧
      ((b.traded o).fills = [] → (b.traded o).taker = o) := by
  rw [h.traded]
  exact ⟨Match.sift_spent ⟨o, [], []⟩ (.inr ho) (hb o.side.opposite),
    fun hnil => congrArg Match.Run.taker (Match.sift_untraded ⟨o, [], []⟩ hnil)⟩

theorem Filed.traded_dust (h : b.Filed) {o : Order α} (ho : negligible o.remaining = true) :
    b.traded o = ⟨o, [], []⟩ := by
  rw [h.traded, Match.sift_of_negligible ho]

/-- What is left of an order that was dust, or that is used up, does not count; the rest of any
other does. -/
theorem Filed.traded_counts (h : b.Filed) (hb : b.Counted) {o : Order α}
    (ho : Scalar.isFinite o.remaining = true)
    (hn : ¬negligible (b.traded o).taker.remaining = true) :
    Counts o.remaining ∧ Counts (b.traded o).taker.remaining := by
  have hcounts : Counts o.remaining := (Counts.of_finite ho).resolve_left fun hdust => by
    rw [h.traded_dust hdust] at hn
    exact hn hdust
  refine ⟨hcounts, (h.traded_spent hb hcounts).1.resolve_left fun hz => hn ?_⟩
  rw [hz]
  exact negligible_zero

theorem Filed.accept_rests (h : b.Filed) (hs : b.refusal? s = none) :
    (b.accept s now).2.getOrder? s.id =
      let t := (b.traded (b.arrive s now)).taker
      if negligible t.remaining then none else some t := by
  rw [accept_eq]
  simp only
  split
  · have hid : (b.matched (b.arrive s now)).hasOrder s.id = false :=
      matched_hasOrder (refusal?_eq_none hs).1
    rw [← (h.matched _).1.getOrder?_isSome, Option.isSome_eq_false_iff,
      Option.isNone_iff_eq_none] at hid
    exact hid
  · obtain ⟨hf, k, -, hc⟩ := h.rest_traded now hs
    have hparty : (b.traded (b.arrive s now)).taker.party = .local s.id :=
      congrArg Order.party (h.traded_terms (b.arrive s now))
    have hmem := k.mem_pushBack (b.traded (b.arrive s now)).taker
    have hlevel := Ladder.Swaps.mem_self hc.swaps (List.ne_nil_of_mem hmem)
    exact hf.getOrder?_eq_some.mpr ⟨hparty, s.side, _, hlevel, _, hmem, rfl⟩

theorem Filed.accept_party (h : b.Filed) {status : Status} {fills : List (Fill α)} {rest : α}
    {o : Order α} (ha : (b.accept s now).1 = .accepted status fills rest o) :
    o.party = .local s.id := by
  have hparty : (b.traded (b.arrive s now)).taker.party = .local s.id :=
    congrArg Order.party (h.traded_terms (b.arrive s now))
  rw [accept_eq] at ha
  simp only at ha
  split at ha <;>
  · obtain ⟨-, -, -, rfl⟩ := SubmitResult.accepted.inj ha
    exact hparty

theorem Filed.accept_answer (h : b.Filed) (hb : b.Counted) (hs : b.refusal? s = none)
    {status : Status} {fills : List (Fill α)} {rest : α} {o : Order α}
    (ha : (b.accept s now).1 = .accepted status fills rest o) :
    (rest = Scalar.zero ∧ status = .filled ∧ (b.accept s now).2.getOrder? s.id = none ∨
        Counts rest ∧ rest = o.remaining ∧ (b.accept s now).2.getOrder? s.id = some o ∧
          status = if fills.isEmpty then .resting else .partly) ∧
      if negligible s.quantity then rest = Scalar.zero ∧ fills = [] ∧ o.remaining = s.quantity
      else rest = o.remaining ∧ (status = .filled → fills ≠ []) := by
  have hfin : Scalar.isFinite (b.arrive s now).remaining = true :=
    Scalar.isPositive.finite (refusal?_eq_none hs).2.1
  rw [h.accept_rests hs]
  rw [accept_eq] at ha
  simp only at ha ⊢
  by_cases hn : negligible (b.traded (b.arrive s now)).taker.remaining = true
  · rw [if_pos hn] at ha ⊢
    obtain ⟨rfl, rfl, rfl, rfl⟩ := SubmitResult.accepted.inj ha
    refine ⟨.inl ⟨rfl, rfl, rfl⟩, ?_⟩
    obtain hdust | hcounts := Counts.of_finite hfin
    · have hquantity : negligible s.quantity = true := hdust
      rw [if_pos hquantity, h.traded_dust hdust]
      exact ⟨rfl, rfl, rfl⟩
    · have hquantity : ¬negligible s.quantity = true := Bool.eq_false_iff.mp hcounts.2
      obtain ⟨hspent, huntraded⟩ := h.traded_spent hb hcounts
      rw [if_neg hquantity]
      refine ⟨(hspent.resolve_right fun hc => Bool.false_ne_true (hc.2.symm.trans hn)).symm,
        fun _ hnil => ?_⟩
      rw [huntraded hnil] at hn
      exact hquantity hn
  · rw [if_neg hn] at ha ⊢
    obtain ⟨rfl, rfl, rfl, rfl⟩ := SubmitResult.accepted.inj ha
    obtain ⟨hcame, hcounts⟩ := h.traded_counts hb hfin hn
    have hquantity : ¬negligible s.quantity = true := Bool.eq_false_iff.mp hcame.2
    rw [if_neg hquantity]
    refine ⟨.inr ⟨hcounts, rfl, rfl, rfl⟩, rfl, fun hstatus => ?_⟩
    split at hstatus <;> cases hstatus

end Accepted

section Doubles

variable {ω : Type} {clock : BookM Float ω Float}

def waitingCalls : List (Call Float) := [.submit ⟨1, .sell, 10, 2, []⟩]

/-- What an answer to a submission says is what the book then holds. The order rests exactly when
the answer says that something of it does, and with just that; the status goes by that part and by
whether there are fills. It is also the remainder of the order that is returned, and an order that
is filled has traded, unless the order was dust from the start: that counts as used up, trades with
nothing, does not rest and is returned as it came. -/
theorem submitted_after (hd : Discreet clock) (calls : List (Call Float)) (symbol : Text) (w : ω)
    {sub : Submission Float} {status : Status} {fills : List (Fill Float)} {rest : Float}
    {o : Order Float} {s' : Book Float × ω}
    (hrun : (submit clock sub).run (after clock calls (empty symbol, w)) =
      (.ok (.accepted status fills rest o), s')) :
    (∀ o', o' ∈ s'.1.resting ∧ o'.party = .local sub.id ↔
        0 < rest ∧ o' = o ∧ o'.remaining = rest) ∧
      s'.1.getOrder? sub.id = (if 0 < rest then some o else none) ∧
      (status = .filled ↔ rest = 0) ∧ (status = .partly ↔ 0 < rest ∧ fills ≠ []) ∧
      (status = .resting ↔ 0 < rest ∧ fills = []) ∧
      if sub.quantity < 1e-10 then rest = 0 ∧ fills = [] ∧ o.remaining = sub.quantity
      else rest = o.remaining ∧ (status = .filled → fills ≠ []) := by
  obtain ⟨hf, hb⟩ := filed_after hd calls symbol w
  have hc := counted_after hd calls symbol w
  obtain ⟨now, hs, ha, hs'⟩ := submit_accepted hd hb hrun
  obtain ⟨hanswer, hquantity⟩ := hf.shut.accept_answer hc hs ha
  have hf' : s'.1.Filed := hs' ▸ (hf.shut.accept now hs).reopened
  have hdust : sub.quantity < 1e-10 ↔ negligible sub.quantity = true := negligible_iff.symm
  have hbook : s'.1.getOrder? sub.id = (_ : Book Float).getOrder? sub.id :=
    congrArg (Book.getOrder? · sub.id) hs'
  simp only [← hf'.getOrder?_iff, hdust]
  obtain ⟨rfl, rfl, hshown⟩ | ⟨hcounts, rfl, hshown, rfl⟩ := hanswer
  · have hzero : ¬(0 : Float) < Scalar.zero := Scalar.lt_irrefl _
    rw [hbook.trans hshown, if_neg hzero]
    exact ⟨by simp [hzero], rfl, iff_of_true rfl rfl, by simp [hzero], by simp [hzero], hquantity⟩
  · have hpos : (0 : Float) < o.remaining := hcounts.zero_lt
    have hne : o.remaining ≠ 0 := fun hz => Scalar.lt_irrefl _ (hz ▸ hpos)
    rw [hbook.trans hshown, if_pos hpos]
    refine ⟨fun o' => ?_, rfl, ?_, ?_, ?_, hquantity⟩
    · simp only [Option.some.injEq, hpos, true_and]
      exact ⟨fun h => ⟨h.symm, h ▸ rfl⟩, fun h => h.1.symm⟩
    · cases fills <;> simp [hne]
    · cases fills <;> simp [hpos]
    · cases fills <;> simp [hpos]

theorem submitted_after_waitingCalls :
    let s := after (pure 0) waitingCalls (empty [], ())
    let sub : Submission Float := ⟨2, .buy, 10, 5, []⟩
    Discreet (pure 0 : BookM Float Unit Float) ∧ ∃ status fills rest o s',
      (submit (pure 0) sub).run s = (.ok (.accepted status fills rest o), s') ∧
        status = .partly ∧ fills = [⟨.local 1, .local 2, 10, 2, .buy, false⟩] ∧ rest = 3 ∧
          o.remaining = 3 ∧ s'.1.getOrder? 2 = some o := by
  intro s sub
  have hs : s.1.refusal? sub = none := by decide +kernel
  obtain ⟨status, fills, rest, o, ha⟩ := accept_accepted s.1.shut sub 0
  have hrun : (submit (pure 0) sub).run s = (.ok (.accepted status fills rest o),
      ((s.1.shut.accept sub 0).2.reopened, s.2)) := by
    rw [submit_run (pure 0) (by decide +kernel), hs, ← ha]
    rfl
  obtain ⟨-, hshown, -, hstatus, -, hquantity⟩ :=
    submitted_after (discreet_pure 0) waitingCalls [] () hrun
  have hfills : (Answer.submitted (s.1.shut.accept sub 0).1).fills =
      [⟨.local 1, .local 2, 10, 2, .buy, false⟩] := by decide +kernel
  have hrest : (match (s.1.shut.accept sub 0).1 with
      | .accepted _ _ rest _ => rest | .rejected _ => 0) = (3 : Float) := by decide +kernel
  rw [ha] at hfills hrest
  obtain rfl : fills = _ := hfills
  obtain rfl : rest = 3 := hrest
  have hpos : (0 : Float) < 3 := by decide +kernel
  have hcounts : ¬sub.quantity < 1e-10 := by decide +kernel
  rw [if_pos hpos] at hshown
  rw [if_neg hcounts] at hquantity
  exact ⟨discreet_pure 0, status, _, 3, o, _, hrun, hstatus.mpr ⟨hpos, by simp⟩, rfl, rfl,
    hquantity.1.symm, hshown⟩

/-- Dust is said to be filled, though it has traded with nothing and is returned as it came. -/
theorem unmatched_of_dustSubmission :
    let sub : Submission Float := ⟨1, .buy, 10, 1e-11, []⟩
    ∃ rest o s', (submit (pure 0) sub).run ((empty [], ()) : Book Float × Unit) =
        (.ok (.accepted .filled [] rest o), s') ∧
      rest = 0 ∧ o.remaining = 1e-11 ∧ rest ≠ o.remaining := by
  intro sub
  have hs : (empty [] : Book Float).refusal? sub = none := by decide +kernel
  have hdust : negligible (1e-11 : Float) = true := by decide +kernel
  have ha : ((empty [] : Book Float).shut.accept sub 0).1 =
      .accepted .filled [] 0 ((empty [] : Book Float).shut.arrive sub 0) :=
    congrArg Prod.fst (if_pos hdust)
  refine ⟨0, (empty [] : Book Float).shut.arrive sub 0,
    (((empty [] : Book Float).shut.accept sub 0).2.reopened, ()), ?_, rfl, rfl, by decide +kernel⟩
  rw [submit_run (pure 0) rfl, hs, ← ha]
  rfl

end Doubles

end LimitBook.Book
