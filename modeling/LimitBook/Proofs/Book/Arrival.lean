import LimitBook.Proofs.Book.Cancel
import LimitBook.Proofs.Book.Fills
import LimitBook.Proofs.Book.Settlement

namespace LimitBook

variable {α : Type} [Scalar α]

/-- The fills at a price. -/
def fillsAt (fs : List (Fill α)) (p : α) : List (Fill α) := fs.filter fun f => Scalar.same f.price p

namespace Resting

theorem filledBy?_fillsAt_cons {f : Fill α} {fs : List (Fill α)} {p : α} {r : Resting α}
    (h : Scalar.same f.price p = true → f.passive ≠ r.order.party) :
    r.filledBy? (fillsAt (f :: fs) p) = r.filledBy? (fillsAt fs p) := by
  have hsame : r.filledBy (fillsAt (f :: fs) p) = r.filledBy (fillsAt fs p) := by
    unfold fillsAt
    rw [List.filter_cons]
    split
    · rw [filledBy, List.filter_cons_of_neg (by simpa using h ‹_›)]
      rfl
    · rfl
  rw [filledBy?, filledBy?, hsame]

end Resting

namespace Match

variable [Scalar.Lawful α]

omit [Scalar.Lawful α] in
theorem greedy_keys (taker : Order α) (ms : List (α × Resting α)) :
    (greedy taker ms).fills.map (fun f => (f.price, f.passive)) <+: ms.map key := by
  fun_induction greedy taker ms with
  | case1 => exact List.nil_prefix
  | case2 => exact List.nil_prefix
  | case3 taker m ms hn q ih => exact List.prefix_cons_inj _ |>.mpr ih

theorem greedy_left_eq (taker : Order α) (ms : List (α × Resting α)) (hn : (ms.map key).Nodup)
    (hp : ∀ m ∈ ms, Scalar.isPositive m.1 = true) (hc : ∀ m ∈ ms, Counts m.2.order.remaining) :
    (greedy taker ms).left = ms.filterMap fun m =>
      (m.2.filledBy? (fillsAt (greedy taker ms).fills m.1)).map (m.1, ·) := by
  fun_induction greedy taker ms with
  | case1 => rfl
  | case2 taker m ms hnone =>
    have hstays : ∀ x ∈ m :: ms, (x.2.filledBy? (fillsAt [] x.1)).map (x.1, ·) = some x :=
      fun x hx => by
        have hself : x.2.filledBy? (fillsAt [] x.1) = some x.2 :=
          Resting.filledBy?_of_unnamed (hc x hx) fun f hf => absurd hf List.not_mem_nil
        rw [hself, Option.map_some]
    rw [List.filterMap_congr hstays, List.filterMap_some]
    rfl
  | case3 taker m ms hcounts q ih =>
    rw [List.map_cons, List.nodup_cons] at hn
    obtain ⟨hpm, hpms⟩ := List.forall_mem_cons.mp hp
    obtain ⟨hcm, hcms⟩ := List.forall_mem_cons.mp hc
    have hother : ∀ x ∈ ms, (Scalar.same m.1 x.1 = true → m.2.order.party ≠ x.2.order.party) :=
      fun x hx hs he => hn.1 (List.mem_map.mpr ⟨x, hx,
        (Prod.ext ((Scalar.same_iff hpm).mp hs) he : key m = key x).symm⟩)
    have hnamed : ∀ f ∈ (greedy (taker.fill q) ms).fills, ∃ x ∈ ms, key x = (f.price, f.passive) :=
      fun f hf => List.mem_map.mp ((greedy_keys (taker.fill q) ms).subset (List.mem_map_of_mem hf))
    have hself : m.2.filledBy (fillsAt ((greedy (taker.fill q) ms).cons taker m q).fills m.1) =
        ⟨m.2.handle, m.2.order.fill q⟩ := by
      have hrest : (fillsAt (greedy (taker.fill q) ms).fills m.1).filter
          (fun f => decide (f.passive = m.2.order.party)) = [] := by
        refine List.filter_eq_nil_iff.mpr fun f hf he => ?_
        obtain ⟨hf, hs⟩ := List.mem_filter.mp hf
        obtain ⟨x, hx, hkey⟩ := hnamed f hf
        obtain ⟨hprice, hparty⟩ := Prod.mk.inj hkey
        have hsame : x.1 = m.1 := (Scalar.same_iff (hpms x hx)).mp (hprice ▸ hs)
        refine hn.1 (List.mem_map.mpr ⟨x, hx, Prod.ext hsame ?_⟩)
        exact hparty.trans (of_decide_eq_true he)
      have hhead : fillsAt ((greedy (taker.fill q) ms).cons taker m q).fills m.1 =
          trade taker m.1 m.2.order q :: fillsAt (greedy (taker.fill q) ms).fills m.1 :=
        List.filter_cons_of_pos (Scalar.same_self (Scalar.isPositive.finite hpm))
      have hmaker : decide ((trade taker m.1 m.2.order q).passive = m.2.order.party) = true :=
        decide_eq_true rfl
      rw [hhead, Resting.filledBy, List.filter_cons, if_pos hmaker, hrest]
      rfl
    have htail : ∀ x ∈ ms, x.2.filledBy? (fillsAt ((greedy (taker.fill q) ms).cons taker m q).fills
        x.1) = x.2.filledBy? (fillsAt (greedy (taker.fill q) ms).fills x.1) := fun x hx =>
      Resting.filledBy?_fillsAt_cons (hother x hx)
    rw [Greedy.cons_left, ih hn.2 hpms hcms, List.filterMap_cons, Resting.filledBy?, hself,
      Order.fill_remaining_beq, List.filterMap_congr fun x hx => congrArg _ (htail x hx)]
    cases negligible (m.2.order.fill q).remaining <;> rfl

omit [Scalar.Lawful α] in
theorem greedy_taker (taker : Order α) (ms : List (α × Resting α)) :
    (greedy taker ms).taker = taker.fills (greedy taker ms).fills := by
  fun_induction greedy taker ms with
  | case1 => rfl
  | case2 => rfl
  | case3 taker m ms hcounts q ih => exact ih

theorem sift_seats {taker : Order α} {ks : List (Level α)}
    (hs : ks.Pairwise fun a b => Ladder.better taker.side.opposite a.price b.price = true)
    (hp : ∀ k ∈ ks, Scalar.isPositive k.price = true) (hc : ∀ k ∈ ks, k.Counted)
    (hn : ((ks.flatMap Level.seats).map key).Nodup) :
    (Ladder.sift turn ks ⟨taker, [], []⟩).2.flatMap Level.seats =
      (ks.flatMap Level.seats).filterMap fun m => (m.2.filledBy?
        (fillsAt (Ladder.sift turn ks ⟨taker, [], []⟩).1.fills m.1)).map (m.1, ·) := by
  obtain ⟨hrun, hseats⟩ := sift_line ⟨taker, [], []⟩ hs
  have hall : (ks.filter fun k => crosses taker.side taker.price k.price) ++ _ = ks :=
    filter_crosses hs
  have hmem : ∀ m ∈ ks.flatMap Level.seats,
      Scalar.isPositive m.1 = true ∧ Counts m.2.order.remaining := fun m hm => by
    obtain ⟨k, hk, r, hr, rfl⟩ := Ladder.mem_seats.mp hm
    exact ⟨hp k hk, hc k hk r hr⟩
  have hfills := (congrArg Run.fills hrun).trans (List.nil_append _)
  rw [hfills, hseats]
  show (greedy taker _).left ++ _ = _
  generalize ks.filter (fun k => crosses taker.side taker.price k.price) = near at hall ⊢
  generalize ks.filter (fun k => !crosses taker.side taker.price k.price) = far at hall ⊢
  rw [← hall, List.flatMap_append] at hn hmem ⊢
  rw [List.map_append, List.nodup_append] at hn
  obtain ⟨hnnear, -, hapart⟩ := hn
  have hfars : ∀ m ∈ far.flatMap Level.seats, (m.2.filledBy?
      (fillsAt (greedy taker (near.flatMap Level.seats)).fills m.1)).map (m.1, ·) = some m := by
    intro m hm
    rw [Resting.filledBy?_of_unnamed (hmem m (List.mem_append_right _ hm)).2 fun f hf he => ?_]
    · rfl
    obtain ⟨hf, hsame⟩ := List.mem_filter.mp hf
    have hkey := (greedy_keys taker (near.flatMap Level.seats)).subset (List.mem_map_of_mem hf)
    obtain ⟨x, hx, hxf⟩ := List.mem_map.mp hkey
    obtain ⟨hprice, hparty⟩ := Prod.mk.inj hxf
    have hpx := (hmem x (List.mem_append_left _ hx)).1
    refine hapart (key x) (List.mem_map_of_mem hx) (key m) (List.mem_map_of_mem hm) ?_
    exact Prod.ext ((Scalar.same_iff hpx).mp (hprice ▸ hsame)) (hparty.trans he)
  rw [List.filterMap_append, List.filterMap_congr hfars, List.filterMap_some]
  congr 1
  exact greedy_left_eq taker _ hnnear (fun m hm => (hmem m (List.mem_append_left _ hm)).1)
    fun m hm => (hmem m (List.mem_append_left _ hm)).2

end Match

namespace Book

variable [Scalar.Lawful α] {b : Book α} {p : α}

/-- When an order has been matched, each queue of the other side is what the fills of its price
leave of it. -/
theorem Sound.matched_queueAt (h : b.Sound) (o : Order α) (p : α) :
    (b.matched o).queueAt o.side.opposite p = (b.queueAt o.side.opposite p).filterMap
      (Resting.filledBy? (fillsAt (b.traded o).fills p)) := by
  obtain ⟨hf, -, hopp⟩ := h.toFiled.matched o
  have hranks := h.ranks o.side.opposite
  have hseats := Match.sift_seats hranks.sorted hranks.positive
    (fun k hk => (h.sound _ k hk).counts) (h.keys _)
  rw [← hopp, ← h.toFiled.traded] at hseats
  have hqueue : ((b.matched o).queueAt o.side.opposite p).map (p, ·) =
      ((b.queueAt o.side.opposite p).filterMap
        (Resting.filledBy? (fillsAt (b.traded o).fills p))).map (p, ·) := by
    have hright : ((b.queueAt o.side.opposite p).filterMap
        (Resting.filledBy? (fillsAt (b.traded o).fills p))).map (p, ·) =
          ((b.queueAt o.side.opposite p).map (p, ·)).filterMap fun m =>
            (m.2.filledBy? (fillsAt (b.traded o).fills m.1)).map (m.1, ·) := by
      rw [List.map_filterMap, List.filterMap_map]
      rfl
    rw [hright, ← hf.seats_at, ← h.seats_at, hseats, List.filter_filterMap, List.filterMap_filter]
    refine List.filterMap_congr fun m _ => ?_
    cases m.2.filledBy? (fillsAt (b.traded o).fills m.1) with
    | none => simp
    | some r => simp [Option.filter]
  have horders := congrArg (List.map Prod.snd) hqueue
  simpa only [List.map_map, Function.comp_def, List.map_id'] using horders

theorem Filed.traded_taker (h : b.Filed) (o : Order α) :
    (b.traded o).taker = o.fills (b.traded o).fills := by
  obtain ⟨hrun, -⟩ := Match.sift_line ⟨o, [], []⟩ (h.ranks o.side.opposite).sorted
  rw [h.traded, hrun]
  exact Match.greedy_taker o _

/-- `b'` is `b` after an order has come with a submission and made some fills. On the other side the
fills have left what they leave; on its own it stands behind all others at its price, if something
is left of it. -/
structure Joins (b b' : Book α) (s : Submission α) (fs : List (Fill α)) : Prop where
  across : ∀ p, b'.queueAt s.side.opposite p =
    (b.queueAt s.side.opposite p).filterMap (Resting.filledBy? (fillsAt fs p))
  beside : ∀ p, p ≠ s.price → b'.queueAt s.side p = b.queueAt s.side p
  behind : ∃ own, b'.queueAt s.side s.price = b.queueAt s.side s.price ++ own ∧
    own.map (·.order.sizes) = if negligible (remainder s.quantity fs) then []
      else [(.local s.id, remainder s.quantity fs, s.quantity,
        fs.foldl (fun q f => q + f.quantity) Scalar.zero)]

theorem Sound.accept_joins (h : b.Sound) {s : Submission α} (now : α) (hs : b.refusal? s = none) :
    Joins b (b.accept s now).2 s (b.traded (b.arrive s now)).fills := by
  obtain ⟨hm, hown, -⟩ := h.toFiled.matched (b.arrive s now)
  have htaker := h.toFiled.traded_taker (b.arrive s now)
  have hsizes := Order.fills_sizes (b.arrive s now) (b.traded (b.arrive s now)).fills
  rw [← htaker] at hsizes
  have hremaining : (b.traded (b.arrive s now)).taker.remaining =
      remainder s.quantity (b.traded (b.arrive s now)).fills := congrArg (·.2.1) hsizes
  have hacross : ∀ p, (b.matched (b.arrive s now)).queueAt s.side.opposite p = _ :=
    h.matched_queueAt (b.arrive s now)
  have hbeside : ∀ p, (b.matched (b.arrive s now)).queueAt s.side p = b.queueAt s.side p :=
    fun p => h.toFiled.queueAt_of_occupied hm (congrArg Ladder.occupied hown)
  have hsame : s.side ≠ s.side.opposite := fun he => s.side.opposite_ne he.symm
  rw [accept_eq]
  simp only [hremaining]
  cases hn : negligible (remainder s.quantity (b.traded (b.arrive s now)).fills) with
  | true =>
    refine ⟨hacross, fun p _ => hbeside p, [], ?_, ?_⟩
    · rw [List.append_nil]
      exact hbeside s.price
    · rw [hn]
      rfl
  | false =>
    obtain ⟨hf, k, hkp, hc⟩ := h.toFiled.rest_traded now hs
    have hne := List.ne_nil_of_mem (k.mem_pushBack (b.traded (b.arrive s now)).taker)
    have hold := hc.queueAt_old hm hf (.inr hne)
    have hnew := hc.queueAt_new hm hf (.inr hne)
    have hother := hc.queueAt_other hm hf
    rw [hkp] at hold hnew hother
    refine ⟨fun p => ?_, fun p hp => ?_,
      [⟨(k.pushBack (b.traded (b.arrive s now)).taker).1,
        (b.traded (b.arrive s now)).taker⟩], ?_, ?_⟩
    · exact (hother _ _ fun he => hsame (Prod.mk.inj he).1.symm).trans (hacross p)
    · exact (hother _ _ fun he => hp (Prod.mk.inj he).2).trans (hbeside p)
    · rw [← hbeside, hold, ← Level.pushBack_queue]
      exact hnew
    · rw [hn]
      exact congrArg ([·]) hsizes

end Book

end LimitBook
