import LimitBook.Proofs.Book.Arrival
import LimitBook.Proofs.Book.Frame

namespace LimitBook

/-- Whose quantity it is: that of a local order, or that of the aggregate at a price. -/
inductive Account (α : Type) where
  | order (id : OrderId)
  | aggregate (side : Side) (price : α)
deriving DecidableEq

variable {α : Type}

def Party.account (side : Side) (price : α) : Party → Account α
  | .local id => .order id
  | .external => .aggregate side price

def Resting.account (side : Side) (price : α) (r : Resting α) : Account α :=
  r.order.party.account side price

def Fill.maker (f : Fill α) : Account α := f.passive.account f.aggressor.opposite f.price

/-- The account of the order that came with a limit and made the fill. -/
def Fill.taker (limit : α) (f : Fill α) : Account α := f.aggressive.account f.aggressor limit

theorem Party.account_order {side : Side} {price : α} {q : Party} {id : OrderId} :
    q.account side price = .order id ↔ q = .local id := by
  cases q <;> simp [Party.account]

theorem Party.account_aggregate {side side' : Side} {price price' : α} {q : Party} :
    q.account side price = .aggregate side' price' ↔
      q = .external ∧ side = side' ∧ price = price' := by
  cases q <;> simp [Party.account]

theorem Party.account_inj {side side' : Side} {price price' : α} {p q : Party}
    (h : p.account side price = q.account side' price') : p = q := by
  cases q with
  | «local» id => exact Party.account_order.mp h
  | external => exact (Party.account_aggregate.mp h).1

section Books

variable [Scalar α] [Scalar.Lawful α] {b b' : Book α} {side side' : Side} {p p' : α}
  {r r' : Resting α} {fs : List (Fill α)}

namespace Book

theorem Sound.account_inj (h : b.Sound) (hr : r ∈ b.queueAt side p) (hr' : r' ∈ b.queueAt side' p')
    (ha : r.account side p = r'.account side' p') : side = side' ∧ p = p' ∧ r = r' := by
  cases hp : r.order.party with
  | «local» id =>
    have hp' : r'.order.party = .local id :=
      Party.account_order.mp (ha.symm.trans (Party.account_order.mpr hp))
    exact h.toFiled.eq_of_party hr hp hr' hp'
  | external =>
    obtain ⟨hp', rfl, rfl⟩ := Party.account_aggregate.mp
      (ha.symm.trans (Party.account_aggregate.mpr ⟨hp, rfl, rfl⟩))
    refine ⟨rfl, rfl, ?_⟩
    have hseat : ∀ x ∈ b.queueAt side' p', (p', x) ∈ (b.levels side').flatMap Level.seats :=
      fun x hx => by
        obtain ⟨k, hk, hkp, hq⟩ := h.mem_queueAt.mp hx
        exact Ladder.mem_seats.mpr ⟨k, hk, x, hq, by rw [hkp]⟩
    have hkey : Match.key (p', r) = Match.key (p', r') := Prod.ext rfl (hp.trans hp'.symm)
    exact (Prod.mk.inj (List.inj_on_of_nodup_map (h.keys side') (hseat r hr) (hseat r' hr') hkey)).2

end Book

variable [DecidableEq α]

def fillsOf (fs : List (Fill α)) (x : Account α) : List (Fill α) := fs.filter fun f => f.maker = x

/-- `b'` is `b` after an order has come on the account `x` with a quantity and a limit and made some
fills. Each takes something that counts from an order that rests on another account, none twice, and
no more than is left of either. -/
structure Exchange (b b' : Book α) (x : Account α) (limit quantity : α) (fs : List (Fill α)) :
    Prop where
  made : ∀ before f rest, fs = before ++ f :: rest →
    f.taker limit = x ∧ f.maker ≠ x ∧ (∀ g ∈ before, g.maker ≠ f.maker) ∧
      ∃ side p, ∃ r ∈ b.queueAt side p, r.account side p = f.maker ∧
        Fair f.quantity (remainder quantity before) r.order.remaining
  waited : ∀ side p r', r'.account side p ≠ x → (r' ∈ b'.queueAt side p ↔
    ∃ r ∈ b.queueAt side p, r.filledBy? (fillsOf fs (r.account side p)) = some r')
  came : ∀ side p, ∀ r' ∈ b'.queueAt side p, r'.account side p = x →
    negligible (remainder quantity fs) = false ∧ r'.order.remaining = remainder quantity fs ∧
      r'.order.original = quantity ∧
        r'.order.filled = fs.foldl (fun q f => q + f.quantity) Scalar.zero
  stays : negligible (remainder quantity fs) = false →
    ∃ side p, ∃ r' ∈ b'.queueAt side p, r'.account side p = x

omit [Scalar.Lawful α] [DecidableEq α] in
theorem Resting.filledBy?_congr {P Q : Fill α → Bool}
    (h : ∀ f ∈ fs, f.passive = r.order.party → P f = Q f) :
    r.filledBy? (fs.filter P) = r.filledBy? (fs.filter Q) := by
  have hfills : (fs.filter P).filter (fun f => decide (f.passive = r.order.party)) =
      (fs.filter Q).filter (fun f => decide (f.passive = r.order.party)) := by
    rw [List.filter_filter, List.filter_filter]
    refine List.filter_congr fun f hf => ?_
    by_cases hp : f.passive = r.order.party
    · rw [h f hf hp]
    · rw [decide_eq_false hp, Bool.false_and, Bool.false_and]
  rw [filledBy?, filledBy?, filledBy, filledBy, hfills]

omit [DecidableEq α] in
theorem remainder_beq {q : α} (hq : Counts q) (fs : List (Fill α)) :
    (remainder q fs == Scalar.zero) = negligible (remainder q fs) := by
  obtain rfl | ⟨before, f, rfl⟩ := fs.eq_nil_or_concat
  · rw [remainder, List.foldl_nil, hq.beq_zero, hq.2]
  · rw [List.concat_eq_append, remainder, List.foldl_append]
    exact leftOver_beq _ _

omit [DecidableEq α] in
theorem LevelUpdate.shown_counts {u : LevelUpdate α} (hu : Counts u.totalQty) (fs : List (Fill α)) :
    u.shown fs = if negligible (remainder u.totalQty fs) = true then [] else
      [(.external, remainder u.totalQty fs, u.totalQty,
        fs.foldl (fun q f => q + f.quantity) Scalar.zero)] := by
  rw [LevelUpdate.shown, hu.2, Bool.false_or, remainder_beq hu]

section Left

variable {q : α} {party : Party} {rs : List (Resting α)}

omit [Scalar.Lawful α] [DecidableEq α] in
theorem left_of_sizes (h : rs.map (·.order.sizes) =
      if negligible (remainder q fs) = true then []
      else [(party, remainder q fs, q, fs.foldl (fun q f => q + f.quantity) Scalar.zero)])
    (hr : r ∈ rs) : r.order.party = party ∧ negligible (remainder q fs) = false ∧
      r.order.remaining = remainder q fs ∧ r.order.original = q ∧
        r.order.filled = fs.foldl (fun q f => q + f.quantity) Scalar.zero := by
  have hm : r.order.sizes ∈ rs.map (·.order.sizes) := List.mem_map_of_mem hr
  rw [h] at hm
  split at hm
  · cases hm
  · have hsizes := List.mem_singleton.mp hm
    exact ⟨congrArg Prod.fst hsizes, Bool.eq_false_iff.mpr ‹_›, congrArg (·.2.1) hsizes,
      congrArg (·.2.2.1) hsizes, congrArg (·.2.2.2) hsizes⟩

omit [Scalar.Lawful α] [DecidableEq α] in
theorem exists_of_sizes (h : rs.map (·.order.sizes) =
      if negligible (remainder q fs) = true then []
      else [(party, remainder q fs, q, fs.foldl (fun q f => q + f.quantity) Scalar.zero)])
    (hn : negligible (remainder q fs) = false) : ∃ r ∈ rs, r.order.party = party := by
  rw [hn, if_neg Bool.false_ne_true] at h
  obtain ⟨r, rest, rfl, hr, -⟩ := List.map_eq_cons_iff.mp h
  exact ⟨r, List.mem_cons_self, congrArg Prod.fst hr⟩

end Left

namespace Book

omit [DecidableEq α] in
theorem Sound.maker (h : b.Sound) {party : Party} {limit quantity : α} {before : List (Fill α)}
    {f : Fill α} (ht : Takes b party side limit quantity before f) :
    ∃ r ∈ b.queueAt side.opposite f.price, r.order.party = f.passive ∧
      r.account side.opposite f.price = f.maker ∧
        Fair f.quantity (remainder quantity before) r.order.remaining := by
  obtain ⟨k, hk, hkp, o, ho, hparty, hfair⟩ := ht.fair
  obtain ⟨r, hr, rfl⟩ := List.mem_map.mp ho
  refine ⟨r, h.mem_queueAt.mpr ⟨k, h.mem_levels.mp hk, hkp, hr⟩, hparty, ?_, hfair⟩
  rw [Resting.account, hparty, Fill.maker, ht.aggressor]

omit [Scalar.Lawful α] in
theorem waited_of_unnamed
    (h : ∀ r ∈ b.queueAt side p, r.filledBy? (fillsOf fs (r.account side p)) = some r) :
    r' ∈ b.queueAt side p ↔
      ∃ r ∈ b.queueAt side p, r.filledBy? (fillsOf fs (r.account side p)) = some r' := by
  constructor
  · exact fun hr => ⟨r', hr, h r' hr⟩
  · rintro ⟨r, hr, he⟩
    rw [h r hr] at he
    exact Option.some.inj he ▸ hr

theorem Sound.accept_exchange (h : b.Sound) {s : Submission α} (now : α)
    (hs : b.refusal? s = none) :
    Exchange b (b.accept s now).2 (.order s.id) s.price s.quantity
      (b.traded (b.arrive s now)).fills := by
  obtain ⟨hacross, hbeside, own, hbehind, hown⟩ := h.accept_joins now hs
  have hid := (refusal?_eq_none hs).1
  have hsides : s.side ≠ s.side.opposite := fun he => s.side.opposite_ne he.symm
  generalize hfs : (b.traded (b.arrive s now)).fills = fs at *
  have htakes : ∀ before f rest, fs = before ++ f :: rest →
      Takes b (.local s.id) s.side s.price s.quantity before f := fun before f rest hf => by
    have hfills : (Answer.submitted (b.accept s now).1).fills = before ++ f :: rest := by
      rw [accept_fills, hfs, hf]
    exact (h.accept_takes hs hfills).2
  have hmaker : ∀ f ∈ fs, ∃ r ∈ b.queueAt s.side.opposite f.price,
      r.order.party = f.passive ∧ r.account s.side.opposite f.price = f.maker := fun f hf => by
    obtain ⟨before, rest, hsplit⟩ := List.append_of_mem hf
    obtain ⟨r, hr, hparty, haccount, -⟩ := h.maker (htakes before f rest hsplit)
    exact ⟨r, hr, hparty, haccount⟩
  have hfresh : ∀ side p, ∀ r ∈ b.queueAt side p, r.account side p ≠ .order s.id :=
    fun side p r hr he => h.toFiled.party_ne hid r hr (Party.account_order.mp he)
  refine ⟨fun before f rest hf => ?_, ?_, fun side p r' hr' hx => ?_, fun hn => ?_⟩
  · have ht := htakes before f rest hf
    obtain ⟨r, hr, hparty, haccount, hfair⟩ := h.maker ht
    refine ⟨?_, haccount ▸ hfresh _ _ r hr, fun g hg he => ?_, _, _, r, hr, haccount, hfair⟩
    · rw [Fill.taker, ht.aggressive]
      rfl
    · obtain ⟨r', hr', hparty', haccount'⟩ := hmaker g (hf ▸ List.mem_append_left _ hg)
      obtain ⟨-, hprice, rfl⟩ := h.account_inj hr' hr (haccount'.trans (he.trans haccount.symm))
      exact ht.first g hg hprice (hparty'.symm.trans hparty)
  · refine Side.forall_of s.side (fun p r' hne => ?_) fun p r' hne => ?_
    · have hself : ∀ r ∈ b.queueAt s.side p,
          r.filledBy? (fillsOf fs (r.account s.side p)) = some r := fun r hr =>
        Resting.filledBy?_of_unnamed (h.counts_at hr) fun f hf _ => by
          obtain ⟨hf, he⟩ := List.mem_filter.mp hf
          obtain ⟨x, hx, -, haccount⟩ := hmaker f hf
          exact hsides (h.account_inj hr hx ((of_decide_eq_true he).symm.trans haccount.symm)).1
      have hstays : r' ∈ (b.accept s now).2.queueAt s.side p ↔ r' ∈ b.queueAt s.side p := by
        by_cases hp : p = s.price
        · subst hp
          rw [hbehind, List.mem_append, or_iff_left]
          exact fun hm => hne (Party.account_order.mpr (left_of_sizes hown hm).1)
        · rw [hbeside p hp]
      exact hstays.trans (waited_of_unnamed hself)
    · have hsame : ∀ r ∈ b.queueAt s.side.opposite p, r.filledBy? (fillsAt fs p) =
          r.filledBy? (fillsOf fs (r.account s.side.opposite p)) := fun r hr => by
        refine Resting.filledBy?_congr fun f hf hp => ?_
        obtain ⟨x, hx, -, haccount⟩ := hmaker f hf
        have hpositive : Scalar.isPositive f.price = true := by
          obtain ⟨k, hk, hkp, -⟩ := h.mem_queueAt.mp hx
          exact hkp ▸ (h.ranks _).positive k hk
        rw [Bool.eq_iff_iff, Scalar.same_iff hpositive, decide_eq_true_eq]
        constructor
        · rintro rfl
          obtain ⟨before, rest, hsplit⟩ := List.append_of_mem hf
          rw [Fill.maker, Resting.account, hp, (htakes before f rest hsplit).aggressor]
        · exact fun he => (h.account_inj hx hr (haccount.trans he)).2.1
      rw [hacross, List.mem_filterMap]
      refine exists_congr fun r => and_congr_right fun hr => ?_
      rw [hsame r hr]
  · have hparty : r'.order.party = .local s.id := Party.account_order.mp hx
    have hcomes : ∀ side p, r' ∈ (b.accept s now).2.queueAt side p → r' ∈ own := by
      refine Side.forall_of s.side (fun p hr => ?_) fun p hr => ?_
      · by_cases hp : p = s.price
        · rw [hp, hbehind] at hr
          exact (List.mem_append.mp hr).resolve_left fun hr => h.toFiled.party_ne hid r' hr hparty
        · rw [hbeside p hp] at hr
          exact absurd hparty (h.toFiled.party_ne hid r' hr)
      · rw [hacross, List.mem_filterMap] at hr
        obtain ⟨r, hr, he⟩ := hr
        exact absurd ((filledBy?_eq_some he).2.symm.trans hparty) (h.toFiled.party_ne hid r hr)
    exact (left_of_sizes hown (hcomes side p hr')).2
  · obtain ⟨r, hr, hparty⟩ := exists_of_sizes hown hn
    refine ⟨s.side, s.price, r, ?_, Party.account_order.mpr hparty⟩
    rw [hbehind]
    exact List.mem_append_right _ hr

theorem Sound.applied_exchange (h : b.Sound) {u : LevelUpdate α} (now : α) (hu : u.fault? = none)
    (hn : negligible u.totalQty = false) :
    Exchange b (b.applied u now).2 (.aggregate u.side u.price) u.price u.totalQty
      (b.applied u now).1.1 := by
  have hframes := h.applied_frames now hu
  have hcounts : Counts u.totalQty := ⟨(fault?_eq_none hu).2, hn⟩
  obtain ⟨aggregate, hshown, hhere⟩ := hframes.here
  rw [LevelUpdate.shown_counts hcounts] at hshown
  generalize hfs : (b.applied u now).1.1 = fs at *
  have hlocal : ∀ f ∈ fs, ∃ id, f.passive = .local id ∧ f.maker = .order id := fun f hf => by
    obtain ⟨before, rest, hsplit⟩ := List.append_of_mem hf
    obtain ⟨-, id, hid, -⟩ := h.applied_trades hu (hfs.trans hsplit)
    exact ⟨id, hid, Party.account_order.mpr hid⟩
  have hsame : ∀ side p (r : Resting α),
      r.filledBy? fs = r.filledBy? (fillsOf fs (r.account side p)) := fun side p r => by
    have hall : fs.filter (fun _ => true) = fs := List.filter_eq_self.mpr fun _ _ => rfl
    rw [← congrArg r.filledBy? hall]
    refine Resting.filledBy?_congr fun f hf hp => ?_
    obtain ⟨id, hid, hmaker⟩ := hlocal f hf
    exact (decide_eq_true (hmaker.trans (Party.account_order.mpr (hp.symm.trans hid)).symm)).symm
  refine ⟨fun before f rest hf => ?_, fun side p r' hne => ?_, fun side p r' hr' hx => ?_,
    fun hleft => ?_⟩
  · obtain ⟨-, -, ht⟩ := h.applied_takes hu (hfs.trans hf)
    obtain ⟨-, id, hid, -, -, -, -, hfirst⟩ := h.applied_trades hu (hfs.trans hf)
    have hmaker : f.maker = .order id := Party.account_order.mpr hid
    obtain ⟨r, hr, -, haccount, hfair⟩ := h.maker ht
    refine ⟨?_, fun he => ?_, fun g hg he => ?_, u.side.opposite, f.price, r, hr, haccount, hfair⟩
    · rw [Fill.taker, ht.aggressive, ht.aggressor]
      rfl
    · rw [hmaker] at he
      cases he
    · exact hfirst g hg ((Party.account_order.mp (he.trans hmaker)).trans hid.symm)
  · by_cases hp : (side, p) = (u.side, u.price)
    · obtain ⟨rfl, rfl⟩ := Prod.mk.inj hp
      have haggregate : r' ∉ aggregate := fun hm =>
        hne (Party.account_aggregate.mpr ⟨(left_of_sizes hshown hm).1, rfl, rfl⟩)
      rw [hhere, List.mem_append, or_iff_right haggregate, List.mem_filterMap]
      refine exists_congr fun r => ?_
      rw [hsame u.side u.price r, List.mem_filter]
      refine ⟨fun ⟨⟨hr, _⟩, he⟩ => ⟨hr, he⟩, fun ⟨hr, he⟩ => ⟨⟨hr, ?_⟩, he⟩⟩
      by_contra hl
      refine hne (Party.account_aggregate.mpr ⟨?_, rfl, rfl⟩)
      rw [(filledBy?_eq_some he).2]
      exact Order.isLocal_eq_false_iff.mp (Bool.eq_false_iff.mpr hl)
    · rw [hframes.elsewhere side p hp, List.mem_filterMap]
      exact exists_congr fun r => and_congr_right fun _ => by rw [hsame side p r]
  · obtain ⟨hparty, rfl, rfl⟩ := Party.account_aggregate.mp hx
    rw [hhere, List.mem_append] at hr'
    refine (left_of_sizes hshown (hr'.resolve_right fun hm => ?_)).2
    obtain ⟨r, hr, he⟩ := List.mem_filterMap.mp hm
    have hl := (List.mem_filter.mp hr).2
    rw [Order.isLocal_eq_false ((filledBy?_eq_some he).2.symm.trans hparty)] at hl
    cases hl
  · obtain ⟨r, hr, hparty⟩ := exists_of_sizes hshown hleft
    refine ⟨u.side, u.price, r, ?_, Party.account_aggregate.mpr ⟨hparty, rfl, rfl⟩⟩
    rw [hhere]
    exact List.mem_append_left _ hr

theorem Sound.resize_exchange (h : b.Sound) {u : LevelUpdate α} {k : Level α}
    (hu : u.fault? = none) (hn : negligible u.totalQty = false) (hk : k ∈ b.levels u.side)
    (hkp : k.price = u.price) (ha : (aggregate? k).isSome = true) :
    Exchange b (b.resize u) (.aggregate u.side u.price) u.price u.totalQty [] := by
  have hp := (fault?_eq_none hu).1
  have hf := h.toFiled.resize hp
  have hc := h.toFiled.resize_changes hp hk hkp ha
  obtain ⟨a, rs, hq, hparty, hresized⟩ := resized_queue u ha
  have hold := hc.queueAt_old h.toFiled hf (.inl hk)
  have hnew := hc.queueAt_new h.toFiled hf (.inl hk)
  have hother := hc.queueAt_other h.toFiled hf
  rw [hkp] at hold hnew hother
  rw [hq] at hold
  rw [hresized] at hnew
  have hlocal : ∀ r ∈ rs, r.order.party ≠ .external := fun r hr he => by
    have hbehind := (h.sound u.side k hk).orderly.behind
    rw [hq, List.map_cons, List.tail_cons] at hbehind
    have hl : r.order.isLocal = true := hbehind _ (List.mem_map_of_mem hr)
    rw [Order.isLocal_eq_false he] at hl
    cases hl
  have hself : ∀ side p, ∀ r ∈ b.queueAt side p,
      r.filledBy? (fillsOf [] (r.account side p)) = some r := fun side p r hr =>
    Resting.filledBy?_of_unnamed (h.counts_at hr) fun f hf => absurd hf List.not_mem_nil
  refine ⟨fun before f rest hf => ?_, fun side p r' hne => ?_, fun side p r' hr' hx => ?_,
    fun _ => ?_⟩
  · cases before <;> cases hf
  · have hstays : r' ∈ (b.resize u).queueAt side p ↔ r' ∈ b.queueAt side p := by
      by_cases hp : (side, p) = (u.side, u.price)
      · obtain ⟨rfl, rfl⟩ := Prod.mk.inj hp
        have hnone : ∀ {o : Resting α}, o.order.party = .external → r' ≠ o := fun ho he =>
          hne (Party.account_aggregate.mpr ⟨he ▸ ho, rfl, rfl⟩)
        rw [hold, hnew, List.mem_cons, List.mem_cons, or_iff_right (hnone hparty),
          or_iff_right (hnone (by exact hparty))]
      · rw [hother side p hp]
    exact hstays.trans (waited_of_unnamed (hself side p))
  · obtain ⟨hext, rfl, rfl⟩ := Party.account_aggregate.mp hx
    rw [hnew] at hr'
    obtain rfl | hr' := List.mem_cons.mp hr'
    · exact ⟨hn, rfl, rfl, rfl⟩
    · exact absurd hext (hlocal r' hr')
  · obtain ⟨r', hr', hext⟩ :
        ∃ r' ∈ (b.resize u).queueAt u.side u.price, r'.order.party = .external := by
      rw [hnew]
      exact ⟨_, List.mem_cons_self, hparty⟩
    exact ⟨u.side, u.price, r', hr', Party.account_aggregate.mpr ⟨hext, rfl, rfl⟩⟩

theorem Sound.applied_closes (h : b.Sound) {u : LevelUpdate α} (now : α) (hu : u.fault? = none)
    (hn : negligible u.totalQty = true) :
    (b.applied u now).1.1 = [] ∧ ∀ side p r, r ∈ (b.applied u now).2.queueAt side p ↔
      r ∈ b.queueAt side p ∧ r.account side p ≠ .aggregate u.side u.price := by
  have hfills : (b.applied u now).1.1 = [] := by
    rw [applied_of_negligible now hn]
    exact (h.dropAggregate u).uncross.2.2
  have hframes := h.applied_frames now hu
  rw [hfills] at hframes
  obtain ⟨aggregate, hshown, hhere⟩ := hframes.here
  have hnone : u.shown [] = [] := by rw [LevelUpdate.shown, hn, Bool.true_or, if_pos rfl]
  have hcounts : ∀ r ∈ (b.queueAt u.side u.price).filter (·.order.isLocal),
      Counts r.order.remaining := fun r hr => h.counts_at (List.mem_filter.mp hr).1
  rw [List.map_eq_nil_iff.mp (hshown.trans hnone), List.nil_append,
    Resting.filterMap_filledBy?_nil hcounts] at hhere
  refine ⟨hfills, fun side p r => ?_⟩
  by_cases hp : (side, p) = (u.side, u.price)
  · obtain ⟨rfl, rfl⟩ := Prod.mk.inj hp
    rw [hhere, List.mem_filter]
    refine and_congr_right fun _ => ?_
    rw [← not_iff_not, not_not, Bool.not_eq_true, Order.isLocal_eq_false_iff]
    exact ⟨fun he => Party.account_aggregate.mpr ⟨he, rfl, rfl⟩,
      fun he => (Party.account_aggregate.mp he).1⟩
  · rw [(hframes.untraded h.counts_at).1 side p hp, and_iff_left]
    intro he
    obtain ⟨-, rfl, rfl⟩ := Party.account_aggregate.mp he
    exact hp rfl

end Book

end Books

end LimitBook
