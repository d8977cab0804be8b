import LimitBook.Proofs.Book.Queue
import LimitBook.Proofs.Book.Reentry
import LimitBook.Proofs.Book.Submission
import LimitBook.Proofs.Match.Greedy

namespace LimitBook

def SubmitResult.status? {α : Type} : SubmitResult α → Option Status
  | accepted status .. => some status
  | rejected _ => none

namespace Book

open BookM

section Orders

variable {α : Type} [Scalar α] [Scalar.Lawful α] {b b' : Book α} {side : Side} {p : α}
  {id : OrderId} {s : Submission α} {now : α}

theorem Filed.party_ne (h : b.Filed) (hid : b.hasOrder id = false) :
    ∀ r ∈ b.queueAt side p, r.order.party ≠ .local id := fun r hr hp => by
  rw [hasOrder, h.place?_queueAt.mpr ⟨r, hr, rfl, hp⟩] at hid
  cases hid

theorem Filed.remove_splits (h : b.Filed) {pl : Place α} (hp : b.place? id = some pl) :
    ∃ front r back, r.order.party = .local id ∧ (b.remove id).1 = ⟨true, some r.order⟩ ∧
      b.queueAt pl.side pl.price = front ++ r :: back ∧
      (b.remove id).2.queueAt pl.side pl.price = front ++ back ∧
      (∀ side q, (side, q) ≠ (pl.side, pl.price) →
        (b.remove id).2.queueAt side q = b.queueAt side q) ∧
      ∀ side q, q ∈ ((b.remove id).2.ladder side).prices ↔ q ∈ (b.ladder side).prices ∧
        ((side, q) = (pl.side, pl.price) → front ++ back ≠ []) := by
  obtain ⟨k, front, back, r, hk, hq, hid, hb, hf, hc⟩ := h.remove hp
  have hr : r ∈ k.queue := by simp [hq]
  have hprice : pl.price = k.price :=
    congrArg Place.price (Option.some.inj (hp.symm.trans ((h.place?_iff hk hr).mpr hid)))
  rw [hprice]
  have hafter : (b.remove id).2.queueAt pl.side k.price = front ++ back :=
    hc.queueAt_new h hf (.inl hk)
  refine ⟨front, r, back, hid, hb, (h.queueAt_eq hk).trans hq, hafter, hc.queueAt_other h hf,
    fun side q => ?_⟩
  rw [hc.mem_prices h hf hk (List.ne_nil_of_mem hr)]
  refine and_congr_right fun _ => imp_congr_right fun he => ?_
  obtain ⟨rfl, rfl⟩ := Prod.mk.inj he
  rw [hafter]

theorem Filed.remove_queueAt (h : b.Filed) (id : OrderId) (side : Side) (p : α) :
    (b.remove id).2.queueAt side p =
      (b.queueAt side p).filter fun r => decide (r.order.party ≠ .local id) := by
  have hkeep : ∀ {rs : List (Resting α)}, (∀ r ∈ rs, r.order.party ≠ .local id) →
      rs.filter (fun r => decide (r.order.party ≠ .local id)) = rs := fun hrs =>
    List.filter_eq_self.mpr fun r hr => decide_eq_true (hrs r hr)
  -- No order of the id is left, so it makes no difference if the others are filtered once more.
  have hfree : ∀ r ∈ (b.remove id).2.queueAt side p, r.order.party ≠ .local id :=
    (h.removed id).party_ne (remove_hasOrder b id)
  cases hp : b.place? id with
  | none => rw [remove_none hp, hkeep (h.party_ne (by rw [hasOrder, hp]; rfl))]
  | some pl =>
    obtain ⟨front, r, back, hid, -, hbefore, hafter, hother, -⟩ := h.remove_splits hp
    rw [← hkeep hfree]
    by_cases he : (side, p) = (pl.side, pl.price)
    · obtain ⟨rfl, rfl⟩ := Prod.mk.inj he
      rw [hafter, hbefore, List.filter_append, List.filter_append,
        List.filter_cons_of_neg (by simp [hid])]
    · rw [hother side p he]

theorem Filed.place?_congr (h : b.Filed) (h' : b'.Filed)
    (hr : ∀ side p r, r.order.party = .local id →
      (r ∈ b'.queueAt side p ↔ r ∈ b.queueAt side p)) :
    b'.place? id = b.place? id ∧ b'.getOrder? id = b.getOrder? id := by
  constructor
  · refine Option.ext fun ⟨side, p, a⟩ => ?_
    rw [h.place?_queueAt, h'.place?_queueAt]
    exact exists_congr fun r => and_congr_left fun hid => hr side p r hid.2
  · refine Option.ext fun o => ?_
    rw [h.getOrder?_queueAt, h'.getOrder?_queueAt]
    refine and_congr_right fun hid => exists_congr fun side => exists_congr fun p =>
      exists_congr fun r => and_congr_left fun ho => hr side p r (ho ▸ hid)

theorem Filed.prices_of_full (h : b.Filed) (h' : b'.Filed)
    (hqueues : ∀ side p, b'.queueAt side p = b.queueAt side p)
    (hprices : ∀ side, ∀ p ∈ (b'.ladder side).prices, p ∈ (b.ladder side).prices)
    (hfull : ∀ side, ∀ k ∈ b.levels side, k.queue ≠ []) (side : Side) :
    (b'.ladder side).prices = (b.ladder side).prices := by
  refine h.prices_eq h' fun p => ⟨hprices side p, fun hp => ?_⟩
  obtain ⟨k, hk, rfl⟩ := h.mem_prices.mp hp
  refine h'.mem_prices_of_queueAt ?_
  rw [hqueues, h.queueAt_eq hk]
  exact hfull side k hk

theorem Filed.remove_place?_of_ne (h : b.Filed) {id' : OrderId} (hne : id' ≠ id) :
    (b.remove id).2.place? id' = b.place? id' ∧
      (b.remove id).2.getOrder? id' = b.getOrder? id' :=
  h.place?_congr (h.removed id) fun side p r hid => by
    rw [h.remove_queueAt, List.mem_filter, hid, and_iff_left]
    exact decide_eq_true fun he => hne (Party.local.inj he)

theorem Filed.matched_untraded (h : b.Filed) {o : Order α} (hnil : (b.traded o).fills = []) :
    ∀ side p, (b.matched o).queueAt side p = b.queueAt side p := by
  obtain ⟨hf, hown, hopp⟩ := h.matched o
  rw [h.traded] at hnil
  refine Side.forall_of o.side (fun p => ?_) fun p => ?_
  · exact h.queueAt_of_occupied hf (by rw [hown])
  · exact h.queueAt_of_occupied hf (by rw [hopp, Match.sift_untraded_occupied _ hnil])

theorem Filed.matched_prices (h : b.Filed) (o : Order α) :
    ∀ side p, p ∈ ((b.matched o).ladder side).prices → p ∈ (b.ladder side).prices := by
  obtain ⟨hf, hown, hopp⟩ := h.matched o
  refine Side.forall_of o.side (fun p hp => ?_) fun p hp => ?_
  · rwa [(hf.ranks _).prices, hown, ← (h.ranks _).prices] at hp
  · rw [(hf.ranks _).prices, hopp] at hp
    rw [(h.ranks _).prices]
    exact (Match.sift_prices _ _).subset hp

omit [Scalar.Lawful α] in
theorem accept_resting {fills : List (Fill α)} {rest : α} {o : Order α}
    (ha : (b.accept s now).1 = .accepted .resting fills rest o) :
    (b.traded (b.arrive s now)).fills = [] ∧ (b.traded (b.arrive s now)).taker = o ∧
      (b.accept s now).2 = (b.matched (b.arrive s now)).rest s.id o := by
  rw [accept_eq] at ha ⊢
  by_cases hn : negligible (b.traded (b.arrive s now)).taker.remaining = true
  · simp only [if_pos hn] at ha
    cases ha
  simp only [if_neg hn] at ha ⊢
  obtain ⟨hstatus, -, -, rfl⟩ := SubmitResult.accepted.inj ha
  refine ⟨?_, rfl, rfl⟩
  by_contra hne
  rw [if_neg (by simpa using hne)] at hstatus
  cases hstatus

/-- An order that is accepted and has traded nothing comes behind all others at its price, and that
is all. -/
theorem Filed.accept_queueAt (h : b.Filed) (hs : b.refusal? s = none) {fills : List (Fill α)}
    {rest : α} {o : Order α} (ha : (b.accept s now).1 = .accepted .resting fills rest o) :
    (∃ r, r.order = o ∧ o.party = .local s.id ∧
      (b.accept s now).2.queueAt s.side s.price = b.queueAt s.side s.price ++ [r]) ∧
      (∀ side p, (side, p) ≠ (s.side, s.price) →
        (b.accept s now).2.queueAt side p = b.queueAt side p) ∧
      ∀ side p, p ∈ ((b.accept s now).2.ladder side).prices →
        p ∈ (b.ladder side).prices ∨ (side, p) = (s.side, s.price) := by
  obtain ⟨hnil, rfl, hbook⟩ := accept_resting ha
  rw [hbook]
  obtain ⟨hm, -⟩ := h.matched (b.arrive s now)
  have hmatched := h.matched_untraded hnil
  obtain ⟨hf, k, hkp, hc⟩ := h.rest_traded now hs
  have hne := List.ne_nil_of_mem (k.mem_pushBack (b.traded (b.arrive s now)).taker)
  have hold := hc.queueAt_old hm hf (.inr hne)
  have hnew := hc.queueAt_new hm hf (.inr hne)
  rw [hkp] at hold hnew
  refine ⟨⟨⟨(k.pushBack (b.traded (b.arrive s now)).taker).1, _⟩, rfl,
    congrArg Order.party (h.traded_terms (b.arrive s now)), ?_⟩, fun side p hp => ?_, ?_⟩
  · rw [hnew, Level.pushBack_queue, ← hold, hmatched]
  · rw [hc.queueAt_other hm hf side p (by rwa [hkp]), hmatched]
  · refine Side.forall_of s.side (fun p hp => ?_) fun p hp => .inl ?_
    · obtain ⟨j, hj, rfl⟩ := hf.mem_prices.mp hp
      obtain hj | ⟨rfl, -⟩ := hc.stands j hj
      · exact .inl (h.matched_prices _ _ _ (hm.mem_prices.mpr ⟨j, hj, rfl⟩))
      · exact .inr (congrArg (s.side, ·) (hc.price.trans hkp))
    · obtain ⟨j, hj, rfl⟩ := hf.mem_prices.mp hp
      exact h.matched_prices _ _ _ (hm.mem_prices.mpr ⟨j, hc.opposite ▸ hj, rfl⟩)

theorem Filed.accept_remove (h : b.Filed) (hs : b.refusal? s = none) {fills : List (Fill α)}
    {rest : α} {o : Order α} (ha : (b.accept s now).1 = .accepted .resting fills rest o) :
    let b' := (b.accept s now).2.remove s.id
    b'.1 = ⟨true, some o⟩ ∧ (∀ side p, b'.2.queueAt side p = b.queueAt side p) ∧
      ∀ side p, p ∈ (b'.2.ladder side).prices → p ∈ (b.ladder side).prices := by
  intro b'
  have hf := h.accept now hs
  obtain ⟨⟨r, rfl, hid, hhere⟩, hother, hprices⟩ := h.accept_queueAt hs ha
  have hr : r ∈ (b.accept s now).2.queueAt s.side s.price := by rw [hhere]; simp
  have hplace := hf.place?_queueAt.mpr ⟨r, hr, rfl, hid⟩
  obtain ⟨front, x, back, hx, hfound, hbefore, hafter, -, hleft⟩ := hf.remove_splits hplace
  have hmem : x ∈ (b.accept s now).2.queueAt s.side s.price := by rw [hbefore]; simp
  obtain ⟨-, -, rfl⟩ := hf.eq_of_party hr hid hmem hx
  have hqueues : ∀ side p, b'.2.queueAt side p = b.queueAt side p := fun side p => by
    have hkeep : (b.queueAt side p).filter (fun r => decide (r.order.party ≠ .local s.id)) =
        b.queueAt side p :=
      List.filter_eq_self.mpr fun x hx => decide_eq_true (h.party_ne (refusal?_eq_none hs).1 x hx)
    rw [hf.remove_queueAt]
    by_cases he : (side, p) = (s.side, s.price)
    · obtain ⟨rfl, rfl⟩ := Prod.mk.inj he
      rw [hhere, List.filter_append, hkeep, List.filter_cons_of_neg (by simp [hid]),
        List.filter_nil, List.append_nil]
    · rw [hother side p he, hkeep]
  refine ⟨hfound, hqueues, fun side p hp => ?_⟩
  obtain ⟨hp, hstays⟩ := (hleft side p).mp hp
  obtain hp | he := hprices side p hp
  · exact hp
  · have hne := hstays he
    obtain ⟨rfl, rfl⟩ := Prod.mk.inj he
    rw [← hafter, hqueues] at hne
    exact h.mem_prices_of_queueAt hne

end Orders

section Doubles

variable {ω : Type} {clock : BookM Float ω Float}

/-- A cancellation of an order that rests answers with the order and takes it out of its queue. All
other orders stay as and where they are, the index names them as before, and a level goes exactly if
it is that of the order and there is no other on it. An order that has come to rest without a trade
leaves nothing behind when it is cancelled at once: at all prices rests what rested before, and the
index names it as before. The prices are those of before too, but that levels may have gone on which
there were no orders. -/
theorem cancelled_after (hd : Discreet clock) (calls : List (Call Float)) (symbol : Text) (w : ω) :
    let s := after clock calls (empty symbol, w)
    (∀ id, s.1.hasOrder id = true → ∃ p front r back s',
      s.1.place? id = some p ∧ s.1.getOrder? id = some r.order ∧
      s.1.queueAt p.side p.price = front ++ r :: back ∧
      (cancel id).run s = (.ok ⟨true, some r.order⟩, s') ∧
      s'.1.queueAt p.side p.price = front ++ back ∧
      (∀ side q, (side, q) ≠ (p.side, p.price) → s'.1.queueAt side q = s.1.queueAt side q) ∧
      s'.1.hasOrder id = false ∧
      (∀ id', id' ≠ id →
        s'.1.place? id' = s.1.place? id' ∧ s'.1.getOrder? id' = s.1.getOrder? id') ∧
      (∀ side q, q ∈ (s'.1.ladder side).prices ↔ q ∈ (s.1.ladder side).prices ∧
        ((side, q) = (p.side, p.price) → front ++ back ≠ [])) ∧
      s'.1.sequenceId = s.1.sequenceId) ∧
    ∀ sub fills rest o s₁, (submit clock sub).run s = (.ok (.accepted .resting fills rest o), s₁) →
      ∃ s₂, (cancel sub.id).run s₁ = (.ok ⟨true, some o⟩, s₂) ∧
        (∀ side q, s₂.1.queueAt side q = s.1.queueAt side q) ∧
        (∀ id, s₂.1.place? id = s.1.place? id ∧ s₂.1.getOrder? id = s.1.getOrder? id) ∧
        s₂.1.sequenceId = s.1.sequenceId ∧
        (∀ side q, q ∈ (s₂.1.ladder side).prices → q ∈ (s.1.ladder side).prices) ∧
        ((∀ side, ∀ k ∈ (s.1.ladder side).levels, k.isEmpty = false) →
          (∀ side, (s₂.1.ladder side).prices = (s.1.ladder side).prices) ∧
            s₂.1.bestBid = s.1.bestBid ∧ s₂.1.bestAsk = s.1.bestAsk) := by
  intro s
  obtain ⟨hf, hb⟩ : s.1.Filed ∧ s.1.busy = false := filed_after hd calls symbol w
  refine ⟨fun id hid => ?_, fun sub fills rest o s₁ hrun => ?_⟩
  · obtain ⟨p, hp⟩ := Option.isSome_iff_exists.mp hid
    obtain ⟨front, r, back, -, hfound, hbefore, hafter, hother, hprices⟩ :=
      hf.shut.remove_splits hp
    have hshown : s.1.getOrder? id = some r.order := by
      have h := (hf.shut.remove_found id).symm.trans hfound
      exact (CancelResult.mk.inj h).2
    exact ⟨p, front, r, back, _, hp, hshown, hbefore, hfound ▸ cancel_run hb id, hafter, hother,
      remove_hasOrder s.1.shut id, fun id' hne => hf.shut.remove_place?_of_ne hne, hprices,
      congrArg Prod.snd (remove_header (b := s.1.shut) id)⟩
  · obtain ⟨now, hs, ha, hs₁⟩ := submit_accepted hd hb hrun
    obtain ⟨hfound, hqueues, hprices⟩ := hf.shut.accept_remove hs ha
    have hshut : s₁.1.shut = (s.1.shut.accept sub now).2 := by
      rw [hs₁, shut_reopened (accept_busy sub now)]
    have hcancel : (cancel sub.id).run s₁ = _ := cancel_run (by rw [hs₁]; rfl) sub.id
    rw [hshut, hfound] at hcancel
    have hf₁ := hf.shut.accept now hs
    have hf₂ := (hf₁.removed sub.id).reopened
    refine ⟨_, hcancel, hqueues, fun id => ?_, ?_, hprices, fun hfull => ?_⟩
    · exact hf.place?_congr hf₂ fun side p r _ => Iff.of_eq (congrArg (r ∈ ·) (hqueues side p))
    · exact (congrArg Prod.snd (remove_header _)).trans (congrArg Prod.snd (accept_header sub now))
    · have hsame := hf.prices_of_full hf₂ hqueues hprices (hf.full hfull)
      exact ⟨hsame, congrArg List.head? (hsame .buy), congrArg List.head? (hsame .sell)⟩

def threeAsks : List (Call Float) :=
  [.submit ⟨1, .sell, 10, 2, []⟩, .submit ⟨2, .sell, 10, 3, []⟩, .updateLevel ⟨.sell, 10, 5⟩,
    .submit ⟨3, .sell, 10, 4, []⟩]

/-- Of three orders behind an aggregate the one in the middle goes, and the others close up. One
that comes at a better price and goes again makes no difference. -/
theorem cancelled_after_threeAsks :
    let s := after (pure 0) threeAsks (empty [], ())
    Discreet (pure 0 : BookM Float Unit Float) ∧
      (∃ o s', (cancel 2).run s = (.ok ⟨true, some o⟩, s') ∧ s.1.getOrder? 2 = some o ∧
        (s'.1.queueAt .sell 10).map (·.order.party) = [.external, .local 1, .local 3] ∧
          s'.1.getOrder? 3 = s.1.getOrder? 3) ∧
      ∃ fills rest o s₁ s₂, (submit (pure 0) ⟨4, .sell, 9, 1, []⟩).run s =
          (.ok (.accepted .resting fills rest o), s₁) ∧
        (cancel 4).run s₁ = (.ok ⟨true, some o⟩, s₂) ∧
          (∀ side q, s₂.1.queueAt side q = s.1.queueAt side q) ∧ s₂.1.bestAsk = some 10 := by
  intro s
  obtain ⟨hcancelled, hundone⟩ := cancelled_after (discreet_pure 0) threeAsks [] ()
  refine ⟨discreet_pure 0, ?_, ?_⟩
  · obtain ⟨p, front, r, back, s', -, hshown, -, hrun, -, -, -, hothers, -⟩ :=
      hcancelled 2 (by decide +kernel)
    have hqueue : (((cancel 2).run s).2.1.queueAt .sell 10).map (·.order.party) =
        [.external, .local 1, .local 3] := by decide +kernel
    rw [hrun] at hqueue
    exact ⟨r.order, s', hrun, hshown, hqueue, (hothers 3 (by decide)).2⟩
  · obtain ⟨status, fills, rest, o, ha⟩ := accept_accepted s.1.shut ⟨4, .sell, 9, 1, []⟩ 0
    have hstatus : (s.1.shut.accept ⟨4, .sell, 9, 1, []⟩ 0).1.status? = some .resting := by
      decide +kernel
    rw [ha] at hstatus
    obtain rfl : status = .resting := Option.some.inj hstatus
    have hrun : (submit (pure 0) ⟨4, .sell, 9, 1, []⟩).run s =
        (.ok (.accepted .resting fills rest o),
          ((s.1.shut.accept ⟨4, .sell, 9, 1, []⟩ 0).2.reopened, s.2)) := by
      rw [submit_run (pure 0) (by decide +kernel),
        show s.1.refusal? ⟨4, .sell, 9, 1, []⟩ = none by decide +kernel, ← ha]
      rfl
    obtain ⟨s₂, hcancel, hqueues, -, -, -, hprices⟩ := hundone _ _ _ _ _ hrun
    obtain ⟨-, -, hbest⟩ := hprices fun side => by cases side <;> decide +kernel
    exact ⟨fills, rest, o, _, s₂, hrun, hcancel, hqueues, hbest.trans (by decide +kernel)⟩

/-- A clock that looks at the book when it is first asked, without catching the error that this
raises during an operation, and tells the time from then on. -/
def startled : BookM Float Bool Float := do
  match ← outside with
  | true => return 0
  | false =>
    modifyOutside fun _ => true
    let _ ← perform (pure 0) (.depth 5)
    return 0

theorem discreet_startled : Discreet startled := by
  rintro ⟨b, told⟩ hb
  cases told with
  | true => rfl
  | false =>
    exact ((discreet_perform (pure 0) (.depth 5)).bind fun _ => discreet_pure 0) (b, true) hb

/-- Where an update that was broken off has left its level without orders, an order that comes to
rest on it and is cancelled at once takes the level with it, and the best bid. -/
theorem unrestored_of_startled :
    let s := after startled [.updateLevel ⟨.buy, 10, 1⟩] (empty [], false)
    let r := (submit startled ⟨1, .buy, 10, 1, []⟩).run s
    let r' := (cancel 1).run r.2
    Discreet startled ∧
      r.1.toOption.bind SubmitResult.status? = some .resting ∧
        r'.1.toOption.map CancelResult.found = some true ∧
          s.1.bestBid = some 10 ∧ r'.2.1.bestBid = none := by
  refine ⟨discreet_startled, ?_⟩
  decide +kernel

end Doubles

end Book

end LimitBook
