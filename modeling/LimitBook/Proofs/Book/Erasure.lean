import LimitBook.Proofs.Book.Counted
import LimitBook.Proofs.Book.Reachable

namespace LimitBook.Book

open BookM

variable {α ω : Type} [Scalar α]

/-- The call has come to nothing, or was only there to look. -/
def Answer.idle : Answer α → Bool
  | .submitted (.rejected _) | .updated (.rejected ..) | .shown _ => true
  | .cancelled _ r => !r.found
  | .submitted (.accepted ..) | .updated (.applied ..) | .cleared | .numbered => false

def idle : Except Fault (Answer α) → Bool
  | .ok a => a.idle
  | .error _ => false

section Idles

variable {β γ : Type}

/-- Where the result is `quiet`, neither the book nor its surroundings change. -/
def Idles (quiet : β → Bool) (m : BookM α ω β) : Prop :=
  ∀ s a s', m.run s = (.ok a, s') → quiet a = true → s' = s

def Loud (quiet : β → Bool) (m : BookM α ω β) : Prop :=
  ∀ s a s', m.run s = (.ok a, s') → quiet a = false

variable {quiet : β → Bool} {quiet' : γ → Bool} {m : BookM α ω β} {f : β → BookM α ω γ}

omit [Scalar α]

theorem loud_pure {a : β} (ha : quiet a = false) : Loud quiet (pure a : BookM α ω β) := by
  rintro s _ s' hrun
  cases hrun
  exact ha

theorem loud_modifyGetBook {f : Book α → β × Book α} (hf : ∀ b, quiet (f b).1 = false) :
    Loud quiet (modifyGetBook f : BookM α ω β) := by
  rintro s _ s' hrun
  cases hrun
  exact hf s.1

theorem Loud.after (hf : ∀ a, Loud quiet' (f a)) : Loud quiet' (m >>= f) := by
  intro s a s' hrun
  rw [bind_run] at hrun
  rcases h : m.run s with ⟨_ | b, t⟩ <;> rw [h] at hrun
  · cases hrun
  · exact hf b t a s' hrun

theorem Loud.idles (h : Loud quiet m) : Idles quiet m := by
  intro s a s' hrun hq
  rw [h s a s' hrun] at hq
  cases hq

theorem idles_pure (a : β) : Idles quiet (pure a : BookM α ω β) := by
  rintro s _ s' hrun -
  exact (congrArg Prod.snd hrun).symm

theorem idles_book {f : Book α → BookM α ω β} (hf : ∀ b, Idles quiet (f b)) :
    Idles quiet (book >>= f) := by
  intro s a s' hrun hq
  rw [bind_run, book_run] at hrun
  exact hf s.1 s a s' hrun hq

theorem idles_modifyGetBook {f : Book α → β × Book α}
    (hf : ∀ b, quiet (f b).1 = true → (f b).2 = b) :
    Idles quiet (modifyGetBook f : BookM α ω β) := by
  rintro s _ s' hrun hq
  cases hrun
  exact congrArg (·, s.2) (hf s.1 hq)

theorem Idles.map (f : β → γ) (hm : Idles (quiet' ∘ f) m) : Idles quiet' (f <$> m) := by
  intro s a s' hrun hq
  rw [map_run] at hrun
  rcases h : m.run s with ⟨_ | b, t⟩ <;> rw [h] at hrun
  · cases hrun
  · cases hrun
    exact hm s b t h hq

theorem Idles.exclusive (operation : Operation) (hm : Idles quiet m) :
    Idles quiet (exclusive operation m) := by
  intro s a s' hrun hq
  cases hb : s.1.busy with
  | true =>
    rw [exclusive_refused operation m hb] at hrun
    cases hrun
  | false =>
    rw [exclusive_run operation m hb] at hrun
    rcases h : m.run (s.1.shut, s.2) with ⟨r, t⟩
    rw [h] at hrun
    obtain ⟨rfl, rfl⟩ := Prod.mk.inj hrun
    rw [hm _ _ t h hq, reopened_shut hb]

end Idles

theorem idles_perform (clock : BookM α ω α) (c : Call α) :
    Idles Answer.idle (perform clock c) := by
  have happlied : ∀ r : List (Fill α) × Bool, Loud (Answer.idle ∘ Answer.updated)
      (pure (.applied r.1 r.2) : BookM α ω (UpdateResult α)) := fun r => loud_pure rfl
  cases c with
  | submit s =>
    refine .map _ (.exclusive .submit (idles_book fun b => ?_))
    cases b.refusal? s with
    | some reason => exact idles_pure _
    | none =>
      refine (Loud.after fun now => loud_modifyGetBook fun b => ?_).idles
      obtain ⟨status, fills, resting, o, ha⟩ := accept_accepted b s now
      rw [ha]
      rfl
  | cancel id =>
    refine .map _ (.exclusive .cancel (idles_modifyGetBook fun b hq => ?_))
    cases hp : b.place? id with
    | none => rw [remove_none hp]
    | some p =>
      simp only [Book.remove, hp] at hq
      cases hq
  | reset => exact .map _ (.exclusive .reset (Loud.idles fun _ _ _ _ => rfl))
  | updateLevel u =>
    refine .map _ (.exclusive .updateLevel ?_)
    cases u.fault? with
    | some reason => exact idles_pure _
    | none => exact (Loud.after happlied).idles
  | updateLevels us =>
    refine .map _ (.exclusive .updateLevels ?_)
    cases LevelUpdate.firstFault? us with
    | some f => exact idles_pure _
    | none => exact (Loud.after happlied).idles
  | setSequenceId seq => exact .map _ (.exclusive .setSequenceId (Loud.idles fun _ _ _ _ => rfl))
  | depth levels => exact .map _ (.exclusive .depth (idles_book fun b => idles_pure _))

section Runs

def results (clock : BookM α ω α) : List (Call α) → Book α × ω → List (Except Fault (Answer α))
  | [], _ => []
  | c :: calls, s => ((perform clock c).run s).1 :: results clock calls ((perform clock c).run s).2

/-- The calls of a run without the idle ones. -/
def effective (clock : BookM α ω α) : List (Call α) → Book α × ω → List (Call α)
  | [], _ => []
  | c :: calls, s =>
    let (r, s') := (perform clock c).run s
    if idle r then effective clock calls s' else c :: effective clock calls s'

/-- Without its idle calls a run goes the same way: the other calls end as they did, and the book
and its surroundings are the same in the end. -/
theorem effective_results (clock : BookM α ω α) (calls : List (Call α)) (s : Book α × ω) :
    results clock (effective clock calls s) s = (results clock calls s).filter (!idle ·) ∧
      after clock (effective clock calls s) s = after clock calls s := by
  induction calls generalizing s with
  | nil => exact ⟨rfl, rfl⟩
  | cons c calls ih =>
    rcases hrun : (perform clock c).run s with ⟨r, s'⟩
    have hafter : ∀ calls, after clock (c :: calls) s = after clock calls s' := fun calls => by
      rw [after, List.foldl_cons, hrun]
      rfl
    obtain ⟨hresults, hend⟩ := ih s'
    cases hidle : idle r with
    | true =>
      obtain ⟨a, rfl⟩ : ∃ a, r = .ok a := by
        cases r with
        | error e => cases hidle
        | ok a => exact ⟨a, rfl⟩
      obtain rfl := idles_perform clock c s a s' hrun hidle
      simp only [effective, results, hrun, hidle, if_true, List.filter_cons, Bool.not_true,
        Bool.false_eq_true, if_false, hafter]
      exact ⟨hresults, hend⟩
    | false =>
      simp only [effective, results, hrun, hidle, List.filter_cons, Bool.not_false, if_true,
        Bool.false_eq_true, if_false, hafter]
      exact ⟨congrArg (r :: ·) hresults, hend⟩

end Runs

section Rejections

/-- Why a submission is rejected, by the orders that rest and what it says itself. -/
def verdict (b : Book α) (s : Submission α) : Option RejectReason :=
  if ∃ o ∈ b.resting, o.party = .local s.id then some .duplicateId
  else if Scalar.isFinite s.quantity = false ∨ s.quantity ≤ Scalar.zero then some .invalidQuantity
  else if Scalar.isFinite s.price = false ∨ s.price ≤ Scalar.zero then some .invalidPrice
  else if s.symbol ≠ b.symbol then some .symbolMismatch
  else none

theorem not_isPositive_iff [Scalar.Lawful α] {a : α} :
    (!Scalar.isPositive a) = true ↔ Scalar.isFinite a = false ∨ a ≤ Scalar.zero := by
  cases hf : Scalar.isFinite a with
  | false => simp [Scalar.isPositive, hf]
  | true =>
    simp [Scalar.isPositive, hf, Scalar.not_lt_iff Scalar.Lawful.finite_zero hf]

variable {b : Book α}

theorem Filed.hasOrder_iff (h : b.Filed) {id : OrderId} :
    b.hasOrder id = true ↔ ∃ o ∈ b.resting, o.party = .local id := by
  rw [← h.mem_ids, (h.index_ids.symm.trans h.index_resting).mem_iff, ids, List.mem_filterMap]
  refine exists_congr fun o => and_congr_right fun _ => ?_
  cases o.party <;> simp [Party.id?]

theorem Filed.refusal?_eq [Scalar.Lawful α] (h : b.Filed) (s : Submission α) :
    b.refusal? s = b.verdict s := by
  simp only [refusal?, verdict, h.hasOrder_iff, not_isPositive_iff]

theorem submit_rejected_iff [Scalar.Lawful α] {clock : BookM α ω α} {s : Book α × ω}
    (h : s.1.Filed) (hb : s.1.busy = false) (sub : Submission α) (reason : RejectReason)
    (s' : Book α × ω) :
    (submit clock sub).run s = (.ok (.rejected reason), s') ↔
      s.1.verdict sub = some reason ∧ s' = s := by
  constructor
  · intro hrun
    obtain ⟨hs, hsame⟩ := submit_rejected hb hrun
    exact ⟨(h.refusal?_eq sub).symm.trans hs, hsame⟩
  · rintro ⟨hs, rfl⟩
    rw [submit_run clock hb, h.refusal?_eq, hs]

end Rejections

section Free

variable {b : Book α} {id : OrderId}

theorem Filed.not_resting (h : b.Filed) (hid : b.hasOrder id = false) :
    ∀ o ∈ b.resting, o.party ≠ .local id := fun o ho hp =>
  Bool.false_ne_true (hid.symm.trans (h.hasOrder_iff.mpr ⟨o, ho, hp⟩))

theorem Filed.resting_counts (h : b.Filed) (hb : b.Counted) :
    ∀ o ∈ b.resting, Counts o.remaining := by
  intro o ho
  obtain ⟨k, hk, ho⟩ := List.mem_flatMap.mp ho
  obtain ⟨r, hr, rfl⟩ := List.mem_map.mp ho
  obtain hk | hk := List.mem_append.mp hk
  · exact hb .buy k (h.mem_levels.mp hk) r hr
  · exact hb .sell k (h.mem_levels.mp hk) r hr

theorem remove_hasOrder (b : Book α) (id : OrderId) : (b.remove id).2.hasOrder id = false := by
  cases hp : b.place? id with
  | none => rw [remove_none hp, hasOrder, hp, Option.isSome_none]
  | some p =>
    rw [hasOrder_eq_false_iff]
    simp only [Book.remove, hp, setLadder_index, forget]
    intro e he
    exact of_decide_eq_true (List.mem_filter.mp he).2

theorem rest_hasOrder {id' : OrderId} (o : Order α) (hid : b.hasOrder id = false)
    (hne : id' ≠ id) : (b.rest id' o).hasOrder id = false := by
  rw [hasOrder_eq_false_iff] at *
  intro e he
  obtain he | he := List.mem_append.mp he
  · have he := List.mem_of_mem_filter he
    rw [setLadder_index] at he
    exact hid e he
  · obtain rfl := List.mem_singleton.mp he
    exact hne

theorem accept_hasOrder_of_ne {s : Submission α} (now : α) (hid : b.hasOrder id = false)
    (hne : s.id ≠ id) : (b.accept s now).2.hasOrder id = false := by
  rw [accept_eq]
  simp only
  split
  · exact matched_hasOrder hid
  · exact rest_hasOrder _ (matched_hasOrder hid) hne

theorem accept_hasOrder [Scalar.Lawful α] {s : Submission α} {now : α} {fills : List (Fill α)}
    {resting : α} {o : Order α} (hs : b.refusal? s = none)
    (ha : (b.accept s now).1 = .accepted .filled fills resting o) :
    (b.accept s now).2.hasOrder s.id = false := by
  rw [accept_eq] at ha ⊢
  simp only at ha ⊢
  split at ha
  · rw [if_pos ‹_›]
    exact matched_hasOrder (refusal?_eq_none hs).1
  · cases hfills : (b.traded (b.arrive s now)).fills.isEmpty <;> rw [hfills] at ha <;> cases ha

variable {ω : Type} {clock : BookM α ω α} {s s' : Book α × ω}

theorem submit_hasOrder_of_ne (hd : Discreet clock) (hb : s.1.busy = false) (sub : Submission α)
    (hid : s.1.hasOrder id = false) (hne : sub.id ≠ id) :
    ((submit clock sub).run s).2.1.hasOrder id = false := by
  obtain ⟨r, b', w, hrun, he⟩ | ⟨e, b', w, hrun, -, rfl⟩ := submit_ends hd hb sub
  · rw [hrun]
    cases he with
    | refused h => exact hid
    | accepted now h => exact accept_hasOrder_of_ne (b := s.1.shut) now hid hne
  · rw [hrun]
    exact hid

theorem submit_filled [Scalar.Lawful α] (hd : Discreet clock) (hb : s.1.busy = false)
    {sub : Submission α} {fills : List (Fill α)} {resting : α} {o : Order α}
    (hrun : (submit clock sub).run s = (.ok (.accepted .filled fills resting o), s')) :
    s'.1.hasOrder sub.id = false := by
  obtain ⟨now, hs, ha, hs'⟩ := submit_accepted hd hb hrun
  rw [hs']
  exact accept_hasOrder (b := s.1.shut) hs ha

end Free

end LimitBook.Book

namespace LimitBook

def Journal.heard {α : Type} [Scalar α] (j : Journal α) : Except Fault (Book.Answer α) → Journal α
  | .ok a => j.told a
  | .error _ => j

namespace Book

open BookM

/-- A journal of a run that begins with an empty book. -/
def journal {α : Type} [Scalar α] (rs : List (Except Fault (Answer α))) : Journal α :=
  rs.foldl Journal.heard .empty

theorem heard_tells {α ω : Type} [Scalar α] [Scalar.Lawful α] {clock : BookM α ω α}
    (hd : Discreet clock) (hr : Reliable clock) (calls : List (Call α)) {s : Book α × ω}
    {j : Journal α} (h : s.1.Sound) (hb : s.1.busy = false) (hj : j.Tells s.1.locals) :
    ((results clock calls s).foldl Journal.heard j).Tells (after clock calls s).1.locals := by
  induction calls generalizing s j with
  | nil => exact hj
  | cons c calls ih =>
    obtain ⟨a, s', hrun, hb', hrec⟩ := h.perform hd hr hb c
    have hrest := ih hrec.sound hb' (hrec.tells j hj)
    simp only [results, after, List.foldl_cons, hrun]
    exact hrest

section Doubles

variable {ω : Type} {clock : BookM Float ω Float}

def idleCalls : List (Call Float) :=
  [.submit ⟨1, .sell, 10, 2, []⟩, .submit ⟨1, .buy, 9, 1, []⟩, .cancel 7, .depth 5,
    .updateLevel ⟨.buy, -1, 3⟩, .submit ⟨2, .buy, 10, 2, []⟩, .submit ⟨1, .buy, 9, 1, []⟩]

/-- Without its rejected submissions and updates, the cancellations that find nothing and the looks
at the depth, a run goes the same way. A submission is rejected for what can be read off, in this
order: an order rests under its id, its quantity or price is not finite or not above zero, or its
symbol is not the book's. An id is free when its order is cancelled or filled or the book is reset:
nothing that is used up rests, and as long as the clock does not fail, the ids that a journal of the
answers still holds are those under which an order rests. -/
theorem erasure_after (hd : Discreet clock) (calls : List (Call Float)) (symbol : Text) (w : ω) :
    let s₀ := (empty symbol, w)
    let s := after clock calls s₀
    (results clock (effective clock calls s₀) s₀ = (results clock calls s₀).filter (!idle ·) ∧
      after clock (effective clock calls s₀) s₀ = s) ∧
    (∀ sub reason s', (submit clock sub).run s = (.ok (.rejected reason), s') ↔
      s.1.verdict sub = some reason ∧ s' = s) ∧
    (∀ id r s', (cancel id).run s = (.ok r, s') → ∀ o ∈ s'.1.resting, o.party ≠ .local id) ∧
    (∀ s', reset.run s = (.ok (), s') → s'.1.resting = []) ∧
    (∀ sub fills rest o s', (submit clock sub).run s = (.ok (.accepted .filled fills rest o), s') →
      ∀ o ∈ s'.1.resting, o.party ≠ .local sub.id) ∧
    (∀ o ∈ s.1.resting, (1e-10 : Float) ≤ o.remaining) ∧
    (Reliable clock → ∀ id,
      (∃ o ∈ s.1.resting, o.party = .local id) ↔ (journal (results clock calls s₀) id).isSome) := by
  intro s₀ s
  obtain ⟨hf, hb⟩ : s.1.Filed ∧ s.1.busy = false := filed_after hd calls symbol w
  have hnext : ∀ c, ((perform clock c).run s).2.1.Filed := fun c => hf.perform hd c hb
  refine ⟨effective_results clock calls s₀, submit_rejected_iff hf hb, fun id r s' hrun => ?_,
    fun s' hrun => ?_, fun sub fills rest o s' hrun => ?_, fun o ho => ?_, fun hr id => ?_⟩
  · have hf' := hnext (.cancel id)
    rw [perform, map_run, hrun] at hf'
    refine hf'.not_resting ?_
    rw [cancel, exclusive_run .cancel _ hb] at hrun
    obtain ⟨-, rfl⟩ := Prod.mk.inj hrun
    exact remove_hasOrder s.1.shut id
  · rw [reset, exclusive_run .reset _ hb] at hrun
    obtain ⟨-, rfl⟩ := Prod.mk.inj hrun
    rfl
  · have hf' := hnext (.submit sub)
    rw [perform, map_run, hrun] at hf'
    exact hf'.not_resting (submit_filled hd hb hrun)
  · exact (hf.resting_counts (counted_after hd calls symbol w) o ho).dust_le
  · obtain ⟨hs, -⟩ := sound_after hd hr calls symbol w
    have hj := heard_tells hd hr calls (s := s₀) (sound_empty symbol) rfl Journal.tells_empty
    rw [← hf.hasOrder_iff, ← hf.getOrder?_isSome, journal, hf.tells_iff.mp hj id, Option.isSome_map]

theorem erasure_after_idleCalls :
    let s₀ : Book Float × Unit := (empty [], ())
    let s := after (pure 0) idleCalls s₀
    let sub : Submission Float := ⟨1, .sell, 12, 1, []⟩
    Discreet (pure 0 : BookM Float Unit Float) ∧ Reliable (pure 0 : BookM Float Unit Float) ∧
      (effective (pure 0) idleCalls s₀).length = 3 ∧
      after (pure 0) (effective (pure 0) idleCalls s₀) s₀ = s ∧
      (submit (pure 0) sub).run s = (.ok (.rejected .duplicateId), s) ∧
      ∃ o ∈ s.1.resting, o.party = .local 1 := by
  intro s₀ s sub
  obtain ⟨⟨-, hend⟩, hrejected, -, -, -, -, hjournal⟩ :=
    erasure_after (discreet_pure 0) idleCalls [] ()
  refine ⟨discreet_pure 0, reliable_pure 0, by decide +kernel, hend,
    (hrejected sub .duplicateId s).mpr ⟨by decide +kernel, rfl⟩,
    (hjournal (reliable_pure 0) 1).mpr (by decide +kernel)⟩

end Doubles

end Book

end LimitBook
