import LimitBook.Proofs.Book.Batch
import LimitBook.Proofs.Book.Settlement
import LimitBook.Proofs.Match.Greedy

namespace LimitBook

variable {α : Type} [Scalar α] [Scalar.Lawful α]

omit [Scalar α] [Scalar.Lawful α] in
theorem Ladder.near_copies (near : α → Bool) (ks : List (Level α)) :
    ((copies ks).filter fun k => near k.price).flatMap Level.seats =
      (ks.flatMap Level.seats).filter fun m => m.2.order.isLocal && near m.1 := by
  induction ks with
  | nil => rfl
  | cons k ks ih =>
    have hlocals : ((kept k.locals).filter fun k => near k.price).flatMap Level.seats =
        k.seats.filter fun m => m.2.order.isLocal && near m.1 := by
      cases hn : near k.price with
      | true =>
        have hall : (kept k.locals).filter (fun k => near k.price) = kept k.locals :=
          List.filter_eq_self.mpr fun j hj => by rw [(mem_kept.mp hj).1]; exact hn
        rw [hall, kept_seats, Level.seats, Level.seats, List.filter_map]
        simp only [Function.comp_def, hn, Bool.and_true]
        rfl
      | false =>
        have hnone : (kept k.locals).filter (fun k => near k.price) = [] :=
          List.filter_eq_nil_iff.mpr fun j hj => by
            rw [(mem_kept.mp hj).1]
            exact Bool.eq_false_iff.mp hn
        rw [hnone, Level.seats, List.filter_map]
        simp [Function.comp_def, hn]
    rw [copies, List.flatMap_cons, List.filter_append, List.flatMap_append, hlocals,
      List.flatMap_cons, List.filter_append, ← ih]
    rfl

/-- An order that is matched against the local orders of a side makes the same fills wherever these
stand in the same line. -/
theorem Match.sift_line_copies {t : Order α} {ks js : List (Level α)}
    (hk : ks.Pairwise fun a b => Ladder.better t.side.opposite a.price b.price = true)
    (hj : js.Pairwise fun a b => Ladder.better t.side.opposite a.price b.price = true)
    (h : ks.flatMap Level.seats = js.flatMap Level.seats) :
    (Ladder.sift turn (Ladder.copies ks) ⟨t, [], []⟩).1.fills =
      (Ladder.sift turn (Ladder.copies js) ⟨t, [], []⟩).1.fills := by
  obtain ⟨hks, -⟩ := sift_line ⟨t, [], []⟩ (Ladder.copies_sorted hk)
  obtain ⟨hjs, -⟩ := sift_line ⟨t, [], []⟩ (Ladder.copies_sorted hj)
  rw [hks, hjs, Ladder.near_copies, Ladder.near_copies, h]

namespace Book

open BookM Sweep

variable {b b' c : Book α} {u v : LevelUpdate α} {now : α}

theorem Sound.mem_prices_iff (h : b.Sound) {side : Side} {p : α} :
    p ∈ (b.ladder side).prices ↔ b.queueAt side p ≠ [] := by
  refine ⟨fun hp => ?_, h.mem_prices_of_queueAt⟩
  obtain ⟨k, hk, rfl⟩ := h.mem_prices.mp hp
  rw [h.queueAt_eq hk]
  exact (h.sound side k hk).nonempty

theorem Sound.prices_congr (h : b.Sound) (hc : c.Sound) {side : Side}
    (hq : ∀ p, b.queueAt side p = [] ↔ c.queueAt side p = []) :
    (b.ladder side).prices = (c.ladder side).prices := by
  refine hc.prices_eq h.toFiled fun p => ?_
  rw [h.mem_prices_iff, hc.mem_prices_iff, ne_eq, hq]

theorem Sound.seats_congr (h : b.Sound) (hc : c.Sound) {side : Side}
    (hq : ∀ p, b.queueAt side p = c.queueAt side p) :
    (b.levels side).flatMap Level.seats = (c.levels side).flatMap Level.seats := by
  have hseats : ∀ {d : Book α}, d.Sound → (d.levels side).flatMap Level.seats =
      (d.ladder side).prices.flatMap fun p => (d.queueAt side p).map (p, ·) := fun hd => by
    rw [(hd.ranks side).prices, List.flatMap_map]
    refine List.flatMap_congr fun k hk => ?_
    rw [hd.queueAt_eq hk]
    rfl
  rw [hseats h, hseats hc, h.prices_congr hc fun p => by rw [hq]]
  simp only [hq]

theorem Sound.applied_fills_eq (h : b.Sound) (hc : c.Sound) (hu : u.fault? = none) (now now' : α)
    (hs : (b.levels u.side.opposite).flatMap Level.seats =
      (c.levels u.side.opposite).flatMap Level.seats) :
    (b.applied u now).1.1 = (c.applied u now').1.1 := by
  cases hn : negligible u.totalQty with
  | true =>
    rw [applied_of_negligible now hn, applied_of_negligible now' hn,
      (h.dropAggregate u).uncross.2.2, (hc.dropAggregate u).uncross.2.2]
  | false =>
    obtain ⟨_, _, _, hp⟩ := h.posts now hu hn
    obtain ⟨_, _, _, hp'⟩ := hc.posts now' hu hn
    have hfin := (fault?_eq_none hu).2
    obtain ⟨-, hfills⟩ := h.update (t := b.newAggregate u now) hp rfl rfl rfl hn hfin
    obtain ⟨-, hfills'⟩ := hc.update (t := b.newAggregate u now) hp' rfl rfl rfl hn hfin
    have hsame := Match.sift_line_copies (t := b.newAggregate u now)
      (h.ranks u.side.opposite).sorted (hc.ranks u.side.opposite).sorted hs
    rw [applied_of_counts now hn, applied_of_counts now' hn, hfills, hfills']
    exact congrArg (List.map Fill.virtually) hsame

/-- The books show the same orders at each price, with the same quantities. -/
def Shows (b c : Book α) : Prop := ∀ side p,
  (b.queueAt side p).map (·.order.sizes) = (c.queueAt side p).map (·.order.sizes)

omit [Scalar.Lawful α] in
theorem Shows.nil_iff (h : Shows b c) (side : Side) (p : α) :
    b.queueAt side p = [] ↔ c.queueAt side p = [] := by
  rw [← List.map_eq_nil_iff (f := fun r : Resting α => r.order.sizes), h side p,
    List.map_eq_nil_iff]

/-- Sound books that show the same orders have the same prices, and both are crossed or neither. -/
theorem Shows.prices (h : Shows b c) (hb : b.Sound) (hc : c.Sound) :
    (∀ side, (b.ladder side).prices = (c.ladder side).prices) ∧ b.crossed = c.crossed := by
  have hprices : ∀ side, (b.ladder side).prices = (c.ladder side).prices := fun side =>
    hb.prices_congr hc (h.nil_iff side)
  have hbids : b.bids.bestPrice = c.bids.bestPrice := congrArg List.head? (hprices .buy)
  have hasks : b.asks.bestPrice = c.asks.bestPrice := congrArg List.head? (hprices .sell)
  exact ⟨hprices, by rw [crossed, isCrossed, hbids, hasks, crossed, isCrossed]⟩

omit [Scalar.Lawful α] in
theorem applied_crossed (b : Book α) (u : LevelUpdate α) (now : α) :
    (b.applied u now).1.2 = (b.applied u now).2.crossed := by
  rw [Book.applied, uncross_crossed]

/-- After an update that trades nothing, another one for its price does what it would have done
without it. -/
theorem Sound.applied_overwrite (h : b.Sound) (hu : u.fault? = none) (hv : v.fault? = none)
    (hside : v.side = u.side) (hprice : v.price = u.price) (hnone : (b.applied u now).1.1 = [])
    (later direct : α) :
    (((b.applied u now).2.applied v later).1 = (b.applied v direct).1) ∧
      Shows ((b.applied u now).2.applied v later).2 (b.applied v direct).2 := by
  have hs := h.applied now hu
  have hframes := h.applied_frames now hu
  rw [hnone] at hframes
  obtain ⟨helsewhere, hlocals⟩ := hframes.untraded fun hr => h.counts_at hr
  rw [← hside, ← hprice] at helsewhere hlocals
  have hopp : ∀ p, (b.applied u now).2.queueAt v.side.opposite p =
      b.queueAt v.side.opposite p := fun p =>
    helsewhere _ p fun he => v.side.opposite_ne (Prod.mk.inj he).1
  have hfills := hs.applied_fills_eq h hv later direct (hs.seats_congr h hopp)
  have hshows : Shows ((b.applied u now).2.applied v later).2 (b.applied v direct).2 := by
    obtain ⟨hlater, x, hx, hxhere⟩ := hs.applied_frames later hv
    obtain ⟨hdirect, y, hy, hyhere⟩ := h.applied_frames direct hv
    rw [hfills] at hlater hx hxhere
    intro side p
    by_cases hp : (side, p) = (v.side, v.price)
    · obtain ⟨rfl, rfl⟩ := Prod.mk.inj hp
      rw [hxhere, hyhere, hlocals, List.map_append, List.map_append, hx, hy]
    · rw [hlater side p hp, hdirect side p hp, helsewhere side p hp]
  refine ⟨Prod.ext hfills ?_, hshows⟩
  rw [applied_crossed, applied_crossed]
  exact (hshows.prices (hs.applied later hv) (h.applied direct hv)).2

section Doubles

variable {ω : Type} {clock : BookM Float ω Float}

/-- The last of two updates of one price wins. If the first of them trades nothing, the second
trades what it would have traded without it, and tells the same of the book; and afterwards the same
orders rest at each price as if the first had never come. The prices at which a level stands are
then the same as well, unless one stood without orders before both. Where both updates are of one
quantity, the second changes nothing that shows. -/
theorem overwritten_after (hd : Discreet clock) (calls : List (Call Float)) (symbol : Text)
    (w v : ω) {side : Side} {p q q' : Float} (hq : (LevelUpdate.mk side p q).fault? = none)
    (hq' : (LevelUpdate.mk side p q').fault? = none) :
    let s := after clock calls (empty symbol, w)
    ∀ residual s₁, (updateLevel clock ⟨side, p, q⟩).run s = (.ok (.applied [] residual), s₁) →
      (Reliable clock → ∃ fills last s₂,
        (updateLevel clock ⟨side, p, q'⟩).run s₁ = (.ok (.applied fills last), s₂)) ∧
      (Reliable clock → ∃ fills last t,
        (updateLevel clock ⟨side, p, q'⟩).run (s.1, v) = (.ok (.applied fills last), t)) ∧
      ∀ fills last s₂, (updateLevel clock ⟨side, p, q'⟩).run s₁ = (.ok (.applied fills last), s₂) →
        ∀ direct alone t,
          (updateLevel clock ⟨side, p, q'⟩).run (s.1, v) = (.ok (.applied direct alone), t) →
            fills = direct ∧ last = alone ∧ Shows s₂.1 t.1 ∧
              ((∀ side, ∀ k ∈ (s.1.ladder side).levels, k.isEmpty = false) →
                ∀ side, (s₂.1.ladder side).prices = (t.1.ladder side).prices) := by
  intro s residual s₁ hfirst
  obtain ⟨⟨c, htrims, hc⟩, hb⟩ := trims_after hd calls symbol w
  obtain ⟨now, hnone, htrims₁, -, hb₁⟩ := htrims.updated hc hd hb hq hfirst
  have hc₁ := hc.applied now hq
  refine ⟨fun hr => ?_, fun hr => ?_, fun fills last s₂ hlast direct alone t hdirect => ?_⟩
  · obtain ⟨_, _, hrun⟩ := updateLevel_applied hd hr hb₁ hq'
    exact ⟨_, _, _, hrun⟩
  · obtain ⟨_, _, hrun⟩ := updateLevel_applied (s := (s.1, v)) hd hr hb hq'
    exact ⟨_, _, _, hrun⟩
  obtain ⟨later, hfills, htrims₂, -⟩ := htrims₁.updated hc₁ hd hb₁ hq' hlast
  obtain ⟨instant, hfills', htrims', -⟩ := Trims.updated (s := (s.1, v)) htrims hc hd hb hq' hdirect
  obtain ⟨hsame, hshows⟩ :=
    hc.applied_overwrite hq hq' rfl rfl (congrArg Prod.fst hnone) later instant
  obtain ⟨rfl, rfl⟩ := Prod.mk.inj (hfills.symm.trans (hsame.trans hfills'))
  have hshown : Shows s₂.1 t.1 := fun side p => by
    rw [← htrims₂.queueAt, ← htrims'.queueAt]
    exact hshows side p
  refine ⟨rfl, rfl, hshown, fun hfull => ?_⟩
  have hs : s.1.Sound := htrims.sound_of_full hc (htrims.filed.full hfull)
  have hs₂ := sound_updated (sound_updated hs hd hb hq hfirst) hd hb₁ hq' hlast
  exact (hshown.prices hs₂ (sound_updated (s := (s.1, v)) hs hd hb hq' hdirect)).1

def waitingBids : List (Call Float) :=
  [.submit ⟨1, .buy, 9, 3, []⟩, .updateLevel ⟨.buy, 10, 5⟩, .submit ⟨2, .buy, 10, 2, []⟩]

/-- Whether the aggregate ahead of an order is overwritten first or not, it is gone in the end, and
the order stays. -/
theorem overwritten_after_waitingBids :
    let s := after (pure 0) waitingBids (empty [], ())
    let u : LevelUpdate Float := ⟨.buy, 10, 4⟩
    let v : LevelUpdate Float := ⟨.buy, 10, 0⟩
    Discreet (pure 0 : BookM Float Unit Float) ∧ u.fault? = none ∧ v.fault? = none ∧
      ∃ residual s₁, (updateLevel (pure 0) u).run s = (.ok (.applied [] residual), s₁) ∧
        ∃ fills last s₂ t, (updateLevel (pure 0) v).run s₁ = (.ok (.applied fills last), s₂) ∧
          (updateLevel (pure 0) v).run s = (.ok (.applied fills last), t) ∧ Shows s₂.1 t.1 ∧
            (t.1.queueAt .buy 10).map (·.order.sizes) = [(.local 2, 2, 2, 0)] := by
  intro s u v
  have hu : u.fault? = none := by decide +kernel
  have hv : v.fault? = none := by decide +kernel
  have hb : s.1.busy = false := (filed_after (discreet_pure 0) waitingBids [] ()).2
  obtain ⟨now, w, hfirst⟩ := updateLevel_applied (discreet_pure 0) (reliable_pure 0) hb hu
  have hnone : (s.1.shut.applied u now).1.1 = [] := by
    have htold : ((updateLevel (pure 0) u).run s).1.toOption.map UpdateResult.fills =
        some [] := by decide +kernel
    rw [hfirst] at htold
    exact Option.some.inj htold
  rw [hnone] at hfirst
  obtain ⟨hlast, hdirect, hsame⟩ :=
    overwritten_after (discreet_pure 0) waitingBids [] () () hu hv _ _ hfirst
  obtain ⟨fills, last, s₂, hlast⟩ := hlast (reliable_pure 0)
  obtain ⟨direct, alone, t, hdirect⟩ := hdirect (reliable_pure 0)
  obtain ⟨rfl, rfl, hshows, -⟩ := hsame fills last s₂ hlast direct alone t hdirect
  have hqueue : (((updateLevel (pure 0) v).run s).2.1.queueAt .buy 10).map (·.order.sizes) =
      [(.local 2, 2, 2, 0)] := by decide +kernel
  rw [show s = (s.1, ()) from rfl, hdirect] at hqueue
  exact ⟨discreet_pure 0, hu, hv, _, _, hfirst, fills, last, s₂, t, hlast, hdirect, hshows, hqueue⟩

end Doubles

end Book

end LimitBook
