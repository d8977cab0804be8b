import LimitBook.Proofs.Book.Cancel
import LimitBook.Proofs.Book.Submission
import LimitBook.Proofs.Input.Id
import LimitBook.Proofs.Server.Reply

namespace LimitBook.Server

open Book BookM Input

variable {ω : Type} {c : Context} {clock : Feed.FeedM Float ω Float} {s : Store ω}

theorem withId_of_spells {t : Text} {n : OrderId} (h : Spells (.str t) n)
    (f : OrderId → Feed.FeedM Float ω Response) : Context.withId t f = f n := by
  have hid : orderPath (some (.obj [("id", .str t)])) = .ok n := by
    have hget : Json.get? "id" [("id", .str t)] = some (.str t) := by simp [Json.get?]
    simp only [orderPath, hget, orderId_eq_ok.mpr ⟨_, rfl, h⟩]
  rw [Context.withId, hid]

theorem newOrder_id {fs : Json.Fields} {v : Json} {n : OrderId} {o : NewOrder}
    (hget : Json.get? "id" fs = some v) (h : Spells v n)
    (ho : newOrder (some (.obj fs)) = .ok o) : o.id = n := by
  simp only [newOrder, hget, orderId_eq_ok.mpr ⟨v, rfl, h⟩] at ho
  split at ho
  · rename_i hid _ _ _
    cases hid
    cases ho
    rfl
  · cases ho

theorem submit_book (c : Context) (clock : Feed.FeedM Float ω Float) {body : Option Json}
    {o : NewOrder} (ho : newOrder body = .ok o) :
    ((c.submit clock body).run s).2 = ((submit clock (submission o s.1.symbol)).run s).2 := by
  rcases hrun : (submit clock (submission o s.1.symbol)).run s with ⟨e | reason | ⟨_, _, _, _⟩, s'⟩
  · simp only [Context.submit, ho, bind_run, book_run, hrun]
  · simp only [Context.submit, ho, bind_run, book_run, hrun, pure_run]
  · simp only [Context.submit, ho, bind_run, book_run, hrun, snapshot_run c (exclusive_ok hrun),
      pure_run]

theorem cancel_book (c : Context) (hb : s.1.busy = false) (id : OrderId) :
    ((c.cancel id : Feed.FeedM Float ω Response).run s).2 = ((cancel id).run s).2 := by
  obtain hrun | ⟨order, s', hrun, hb'⟩ := cancel_cases hb id
  · simp only [Context.cancel, bind_run, hrun]
    rfl
  · simp only [Context.cancel, bind_run, hrun, if_true, snapshot_run c hb', pure_run]

section Named

variable {m : OrderId} {o : Order Float}

theorem lookUp_shows (hf : s.1.Filed) (hm : s.1.getOrder? m = some o) (n : OrderId) :
    ((Context.lookUp n : Feed.FeedM Float ω Response).run s).1 = .ok (.plain 200 (Wire.order o)) ↔
      n = m := by
  simp only [Context.lookUp, bind_run, book_run]
  constructor
  · intro h
    cases hn : s.1.getOrder? n with
    | none =>
      rw [hn] at h
      have hstatus : 404 = 200 := congrArg Response.status (Except.ok.inj h)
      cases hstatus
    | some o' =>
      rw [hn] at h
      have hbody : Wire.order o' = Wire.order o :=
        Option.some.inj (congrArg Response.body (Except.ok.inj h))
      have hname : o'.party.name = o.party.name :=
        Json.str.inj (Option.some.inj (congrArg (Json.field? "id") hbody))
      have hparty := name_injective hname
      rw [(hf.getOrder?_eq_some.mp hn).1, (hf.getOrder?_eq_some.mp hm).1] at hparty
      exact Party.local.inj hparty
  · rintro rfl
    rw [hm]
    rfl

theorem cancel_takes (c : Context) (hf : s.1.Filed) (hb : s.1.busy = false)
    (hm : s.1.getOrder? m = some o) (n : OrderId) :
    ((c.cancel n : Feed.FeedM Float ω Response).run s).2.1.getOrder? m = none ↔ n = m := by
  have hbook : ((c.cancel n : Feed.FeedM Float ω Response).run s).2.1 =
      (s.1.shut.remove n).2.reopened := by rw [cancel_book c hb, cancel_run hb]
  rw [hbook]
  constructor
  · intro h
    by_contra hne
    obtain ⟨-, hsame⟩ := hf.shut.remove_place?_of_ne (Ne.symm hne)
    exact nomatch h.symm.trans (hsame.trans hm)
  · rintro rfl
    have hfree := (hf.shut.removed n).getOrder?_isSome n
    rw [remove_hasOrder] at hfree
    exact Option.isNone_iff_eq_none.mp (Option.isSome_eq_false_iff.mp hfree)

theorem submit_refuses (c : Context) (clock : Feed.FeedM Float ω Float) (hf : s.1.Filed)
    (hb : s.1.busy = false) (hm : s.1.getOrder? m = some o) {body : Option Json} {a : NewOrder}
    (ha : newOrder body = .ok a) :
    (c.submit clock body).run s = (.ok (.rejected m .duplicateId), s) ↔ a.id = m := by
  constructor
  · intro h
    rcases hrun : (submit clock (submission a s.1.symbol)).run s with
      ⟨e | reason | ⟨status, fills, rest, order⟩, s'⟩
    · simp only [Context.submit, ha, bind_run, book_run, hrun] at h
      cases h
    · simp only [Context.submit, ha, bind_run, book_run, hrun, pure_run] at h
      have hnotes := congrArg Response.notes (Except.ok.inj (Prod.mk.inj h).1)
      exact (Note.orderRejected.inj (List.singleton_inj.mp hnotes)).1
    · simp only [Context.submit, ha, bind_run, book_run, hrun,
        snapshot_run c (exclusive_ok hrun), pure_run] at h
      have hstatus := congrArg Response.status (Except.ok.inj (Prod.mk.inj h).1)
      unfold Response.announced at hstatus
      split at hstatus <;> exact absurd hstatus (by simp [Response.rejectStatus])
  · rintro rfl
    have hknown : s.1.hasOrder a.id = true := by rw [← hf.getOrder?_isSome, hm]; rfl
    have hrefusal : s.1.refusal? (submission a s.1.symbol) = some .duplicateId := if_pos hknown
    have hrun := submit_run clock hb (submission a s.1.symbol)
    rw [hrefusal] at hrun
    simp only [Context.submit, ha, bind_run, book_run, hrun]
    rfl

end Named

/-- Ids survive the way to a caller and back. What an order shows as its id is taken for that id, up
to 64 bits, and what is taken for an id is what spells one. On a server that has done anything,
while an order rests, a spelled id names it exactly if it spells its id: then it is shown,
cancelled, or stands in the way of a new order, and else it is not. A new order goes by the id that
its body spells, and nothing becomes known by another. Parties that go by the same text are the
same. -/
theorem named_after (hd : Discreet clock) (calls : List (Call Float)) (symbol : Text)
    (w : Feed.Tracker × ω) (c : Context) :
    let s := after clock calls (empty symbol, w)
    (∀ (o : Order Float) n, o.party = .local n → n ≤ 2 ^ 64 - 1 →
        orderId ((Wire.order o).field? "id") = .ok n) ∧
      (∀ j n, orderId j = .ok n ↔ ∃ v, j = some v ∧ Spells v n) ∧
      (∀ v n, Spells v n → ∀ m o, s.1.getOrder? m = some o →
        (∀ t, v = .str t →
          (((Context.withId t Context.lookUp).run s).1 = .ok (.plain 200 (Wire.order o)) ↔
              n = m) ∧
            (((Context.withId t c.cancel).run s).2.1.getOrder? m = none ↔ n = m)) ∧
          ∀ fs a, Json.get? "id" fs = some v → newOrder (some (.obj fs)) = .ok a →
            ((c.submit clock (some (.obj fs))).run s = (.ok (.rejected m .duplicateId), s) ↔
              n = m)) ∧
      (∀ v n, Spells v n → ∀ fs a, Json.get? "id" fs = some v →
        newOrder (some (.obj fs)) = .ok a →
          (∀ status fills rest o s', (submit clock (submission a s.1.symbol)).run s =
            (.ok (.accepted status fills rest o), s') → o.party = .local n) ∧
          ∀ m, s.1.hasOrder m = false →
            ((c.submit clock (some (.obj fs))).run s).2.1.hasOrder m = true → m = n) ∧
      (∀ f, (Wire.fill f).field? "passiveOrderId" = some (.str f.passive.name) ∧
        (Wire.fill f).field? "aggressiveOrderId" = some (.str f.aggressive.name)) ∧
      ∀ p q : Party, p.name = q.name ↔ p = q := by
  intro s
  obtain ⟨hf, hb⟩ : s.1.Filed ∧ s.1.busy = false := filed_after hd calls symbol w
  refine ⟨fun o n hparty hn => ?_, fun j n => orderId_eq_ok, fun v n hv m o hm => ⟨?_, ?_⟩,
    fun v n hv fs a hget ha => ⟨?_, ?_⟩, fun f => ⟨rfl, rfl⟩, fun p q => ⟨name_injective, ?_⟩⟩
  · have hid : (Wire.order o).field? "id" = some (.str (Text.ofNat n)) :=
      congrArg (fun p => some (Json.str (Party.name p))) hparty
    exact orderId_eq_ok.mpr ⟨_, hid, spells_ofNat hn⟩
  · rintro t rfl
    rw [withId_of_spells hv, withId_of_spells hv]
    exact ⟨lookUp_shows hf hm n, cancel_takes c hf hb hm n⟩
  · intro fs a hget ha
    rw [submit_refuses c clock hf hb hm ha, newOrder_id hget hv ha]
  · intro status fills rest o s' hrun
    obtain ⟨now, -, haccept, -⟩ := submit_accepted hd hb hrun
    rw [← newOrder_id hget hv ha]
    exact hf.shut.accept_party haccept
  · intro m hfree hknown
    rw [submit_book c clock ha] at hknown
    by_contra hne
    rw [← newOrder_id hget hv ha] at hne
    have hfree' := submit_hasOrder_of_ne hd hb (submission a s.1.symbol) hfree (Ne.symm hne)
    exact Bool.false_ne_true (hfree'.symm.trans hknown)
  · rintro rfl
    rfl

/-- Zeros in front or a plain number make no difference; another id does. -/
theorem named_after_waitingCalls :
    let s : Store Unit := after (pure 0) waitingCalls (empty [], (.initial, ()))
    let c : Context := ⟨5, .empty, true⟩
    let copy : Json.Fields :=
      [("id", .num 1), ("side", .str "BUY"), ("price", .num 9), ("quantity", .num 1)]
    Discreet (pure 0 : Feed.FeedM Float Unit Float) ∧
      (∃ o, s.1.getOrder? 1 = some o ∧ o.party = .local 1 ∧
        orderId ((Wire.order o).field? "id") = .ok 1) ∧
      ((Context.withId "01" c.cancel).run s).2.1.getOrder? 1 = none ∧
      ((Context.withId "2" c.cancel).run s).2.1.getOrder? 1 ≠ none ∧
      (c.submit (pure 0) (some (.obj copy))).run s = (.ok (.rejected 1 .duplicateId), s) := by
  intro s c copy
  obtain ⟨hshown, -, hnames, -⟩ :=
    named_after (discreet_pure 0) waitingCalls [] (.initial, ()) c
  have hone : Spells (.str "01") 1 :=
    have h := isIdText_iff.mp (by decide : isIdText "01" = true)
    .text h.1 h.2 (by decide) (by decide)
  have htwo : Spells (.str "2") 2 :=
    have h := isIdText_iff.mp (by decide : isIdText "2" = true)
    .text h.1 h.2 (by decide) (by decide)
  have hnumber : Spells (.num 1) 1 := .number (Number.value?_ofNat (by decide)) (by decide)
  obtain ⟨o, ho⟩ : ∃ o, s.1.getOrder? 1 = some o :=
    Option.isSome_iff_exists.mp (by decide +kernel)
  have hf : s.1.Filed :=
    (filed_after (discreet_pure 0) waitingCalls [] (Feed.Tracker.initial, ())).1
  have hparty : o.party = .local 1 := (hf.getOrder?_eq_some.mp ho).1
  refine ⟨discreet_pure 0, ⟨o, ho, hparty, hshown o 1 hparty (by decide)⟩, ?_, ?_, ?_⟩
  · exact ((hnames _ _ hone 1 o ho).1 _ rfl).2.mpr rfl
  · exact fun h => absurd (((hnames _ _ htwo 1 o ho).1 _ rfl).2.mp h) (by decide)
  · cases hcopy : newOrder (some (.obj copy)) with
    | error issues =>
      have hok : (newOrder (some (.obj copy))).isOk = true := by decide +kernel
      rw [hcopy] at hok
      cases hok
    | ok a => exact ((hnames _ _ hnumber 1 o ho).2 copy a (by simp [copy, Json.get?]) hcopy).mpr rfl

end LimitBook.Server
