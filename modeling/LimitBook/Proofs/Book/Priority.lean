import LimitBook.Proofs.Book.Effect
import LimitBook.Proofs.Match.Priority

namespace LimitBook

section Ahead

variable {α : Type} [Scalar α]

/-- `c` has priority over `d`: its price is better, or the same and it is there before. -/
def Ahead (side : Side) (c d : α × Handle × Order α) : Prop :=
  Ladder.better side c.1 d.1 = true ∨
    c.1 = d.1 ∧ d.2.2.isLocal = true ∧ (c.2.2.isLocal = true → c.2.2.arrival < d.2.2.arrival)

omit [Scalar α] in
theorem Level.Orderly.pairwise {n : Nat} {ts : List (Handle × Order α)} (h : Level.Orderly n ts) :
    ts.Pairwise fun s t =>
      t.2.isLocal = true ∧ (s.2.isLocal = true → s.2.arrival < t.2.arrival) := by
  cases ts with
  | nil => exact .nil
  | cons s ts =>
    have hbehind := h.behind
    have hsorted := h.sorted
    rw [List.tail_cons] at hbehind
    have hts : ts.filter (·.2.isLocal) = ts := List.filter_eq_self.mpr hbehind
    rw [List.filter_cons, hts] at hsorted
    refine List.pairwise_cons.mpr ⟨fun t ht => ⟨hbehind t ht, fun hs => ?_⟩, ?_⟩
    · rw [if_pos hs] at hsorted
      exact (List.pairwise_cons.mp hsorted).1 t ht
    · have htail : ts.Pairwise fun s t => s.2.arrival < t.2.arrival := by
        split at hsorted
        · exact (List.pairwise_cons.mp hsorted).2
        · exact hsorted
      exact htail.imp_of_mem fun _ ht hlt => ⟨hbehind _ ht, fun _ => hlt⟩

end Ahead

theorem Served.filter {α : Type} {id : OrderId} {q q' : List (α × Handle × Order α)}
    (h : Served (.local id) q q') :
    Served (.local id) (q.filter (·.2.2.isLocal)) (q'.filter (·.2.2.isLocal)) := by
  obtain ⟨front, c, back, hq, hp, hq'⟩ := h
  have hc : c.2.2.isLocal = true := by
    rw [Order.isLocal, hp]
    rfl
  have hcons : (c :: back).filter (·.2.2.isLocal) = c :: back.filter (·.2.2.isLocal) :=
    List.filter_cons_of_pos hc
  have hs := hq.filter (·.2.2.isLocal)
  have hs' := hq'.filter (·.2.2.isLocal)
  rw [List.filter_append, hcons] at hs
  rw [hcons] at hs'
  exact ⟨_, c, _, hs, hp, hs'⟩

/-- What is left of a line when an order has been served stood behind it, or is the order itself. -/
theorem Served.ahead {α : Type} [Scalar α] {p : Party} {side : Side}
    {q q' : List (α × Handle × Order α)} (h : Served p q q') (hq : q.Pairwise (Ahead side)) :
    ∃ c ∈ q, c.2.2.party = p ∧ ∀ d ∈ q', d ∈ q ∧ (d = c ∨ Ahead side c d) := by
  obtain ⟨front, c, back, hs, hp, hs'⟩ := h
  have hback := (List.pairwise_append.mp (hq.sublist hs)).2.1
  refine ⟨c, hs.subset (by simp), hp, fun d hd => ?_⟩
  have hd := hs'.subset hd
  exact ⟨hs.subset (List.mem_append_right _ hd),
    (List.mem_cons.mp hd).imp_right ((List.pairwise_cons.mp hback).1 d)⟩

namespace Book

variable {α : Type} [Scalar α] {b b' : Book α} {side : Side}

/-- The orders of a side in the order of their priority. -/
def queue (b : Book α) (side : Side) : List (α × Handle × Order α) :=
  (b.levels side).flatMap Level.census

def line (b : Book α) (side : Side) : List (α × Handle × Order α) :=
  (b.queue side).filter (·.2.2.isLocal)

theorem locals_census (k : Level α) :
    k.locals.census = k.census.filter (·.2.2.isLocal) := by
  rw [Level.census, Level.census, List.filter_map]
  rfl

theorem line_eq (b : Book α) (side : Side) :
    b.line side = (b.levels side).flatMap fun k => k.locals.census := by
  rw [line, queue, List.filter_flatMap]
  exact List.flatMap_congr fun k _ => (locals_census k).symm

theorem line_copies (b : Book α) (side : Side) :
    b.line side = (Ladder.copies (b.levels side)).flatMap Level.census := by
  rw [line_eq, Ladder.copies, List.flatMap_assoc]
  exact List.flatMap_congr fun k _ => (Ladder.kept_census _).symm

theorem Sound.queue_sorted (h : b.Sound) (side : Side) : (b.queue side).Pairwise (Ahead side) := by
  refine List.pairwise_flatMap.mpr ⟨fun k hk => ?_, ?_⟩
  · have hp := (h.sound side k hk).orderly.pairwise
    rw [List.pairwise_map] at hp
    exact List.pairwise_map.mpr (hp.imp fun hst => .inr ⟨rfl, hst⟩)
  · refine (h.ranks side).sorted.imp fun hp c hc d hd => ?_
    obtain ⟨r, -, rfl⟩ := List.mem_map.mp hc
    obtain ⟨s, -, rfl⟩ := List.mem_map.mp hd
    exact .inl hp

theorem mem_queue {c : α × Handle × Order α} :
    c ∈ b.queue side ↔ ∃ k ∈ b.levels side, ∃ r ∈ k.queue, (k.price, r.terms) = c := by
  simp only [queue, Level.census, List.mem_flatMap, List.mem_map]

theorem Sound.served_ahead [Scalar.Lawful α] (h : b.Sound) {q q' : List (α × Handle × Order α)}
    (hq : q.Sublist (b.queue side)) {id : OrderId} (hs : Served (.local id) q q') :
    ∃ o a, b.getOrder? id = some o ∧ o.side = side ∧ (o.price, a, o.terms) ∈ q ∧
      ∀ d ∈ q', d ∈ q ∧ (d = (o.price, a, o.terms) ∨ Ahead side (o.price, a, o.terms) d) := by
  obtain ⟨c, hc, hp, hahead⟩ := hs.ahead ((h.queue_sorted side).sublist hq)
  obtain ⟨k, hk, r, hr, rfl⟩ := mem_queue.mp (hq.subset hc)
  obtain ⟨hside, hprice⟩ := (h.kept side k hk).terms r hr
  have ho : b.getOrder? id = some r.order :=
    h.toFiled.getOrder?_eq_some.mpr ⟨hp, side, k, hk, r, hr, rfl⟩
  refine ⟨r.order, r.handle, ho, hside, ?_⟩
  rw [hprice]
  exact ⟨hc, hahead⟩

variable [Scalar.Lawful α]

omit [Scalar.Lawful α] in
theorem census_of_empty (k : Level α) (hq : k.queue = []) : k.census = [] := by
  rw [Level.census, hq, List.map_nil]

omit [Scalar α] [Scalar.Lawful α] in
theorem flatMap_swaps {β : Type} {f : Level α → List β} {k k' : Level α} {ks ks' : List (Level α)}
    (h : Ladder.Swaps k k' ks ks') (hf : ∀ k, k.queue = [] → f k = []) :
    ∃ front back, ks.flatMap f = front ++ (f k ++ back) ∧
      ks'.flatMap f = front ++ (f k' ++ back) := by
  obtain ⟨front, old, new, back, rfl, rfl, hold, hnew⟩ := h
  have hshows : ∀ {j : Level α} {ls : List (Level α)}, Ladder.Shows j ls → ls.flatMap f = f j := by
    rintro j ls (rfl | ⟨rfl, hq⟩)
    · exact List.flatMap_singleton ..
    · rw [hf j hq, List.flatMap_nil]
  refine ⟨front.flatMap f, back.flatMap f, ?_, ?_⟩ <;>
    simp only [List.flatMap_append, hshows hold, hshows hnew, List.append_assoc]

omit [Scalar.Lawful α] in
theorem queue_lose {k : Level α} {front back : List (Resting α)} {r : Resting α}
    (hq : k.queue = front ++ r :: back) (hc : Changes b b' side k (k.lose r (front ++ back))) :
    ∀ s, (b'.queue s).Sublist (b.queue s) := by
  refine Side.forall_of side ?_ ?_
  · obtain ⟨before, after, hold, hnew⟩ := flatMap_swaps hc.swaps census_of_empty
    rw [queue, queue, hold, hnew]
    have hlose : (k.lose r (front ++ back)).census.Sublist k.census := by
      have hs := (lose_thins hq).queue.map fun t => (k.price, t)
      rw [List.map_map, List.map_map] at hs
      exact hs
    exact (hlose.append (.refl _)).append_left _
  · rw [queue, queue, hc.opposite]

theorem Filed.remove_queue (h : b.Filed) (id : OrderId) :
    ∀ s, ((b.remove id).2.queue s).Sublist (b.queue s) := by
  cases hp : b.place? id with
  | none => exact fun s => by rw [remove_none hp]
  | some p =>
    obtain ⟨k, front, back, r, -, hq, -, -, -, hc⟩ := h.remove hp
    exact queue_lose hq hc

theorem Filed.dropAggregate_queue (h : b.Filed) (u : LevelUpdate α) :
    ∀ s, ((b.dropAggregate u).queue s).Sublist (b.queue s) := by
  obtain ⟨-, ⟨hb, -⟩ | ⟨k, r, rs, -, -, hq, -, -, hc⟩⟩ := h.dropAggregate u
  · exact fun s => by rw [hb]
  · have hq' : k.queue = [] ++ r :: rs := hq
    exact queue_lose hq' hc

omit [Scalar.Lawful α] in
theorem clear_queue (b : Book α) (side : Side) : b.clear.queue side = [] := by
  cases side <;> rfl

/-- Trading that takes `b` to `b'` with some fills: each line loses orders, and a local order that
trades has had its turn. -/
structure Serves (b b' : Book α) (fills : List (Fill α)) : Prop where
  lines : ∀ side, (b'.line side).Sublist (b.line side)
  served : ∀ f ∈ fills, ∀ id, f.passive = .local id →
    ∃ side, Served (.local id) (b.line side) (b'.line side)

omit [Scalar.Lawful α] in
theorem serves_refl (b : Book α) : Serves b b [] := ⟨fun _ => .refl _, by simp⟩

omit [Scalar.Lawful α] in
theorem Serves.trans {b'' : Book α} {fills fills' : List (Fill α)} (h : Serves b b' fills)
    (h' : Serves b' b'' fills') : Serves b b'' (fills ++ fills') where
  lines side := (h'.lines side).trans (h.lines side)
  served f hf id hid := by
    obtain hf | hf := List.mem_append.mp hf
    · obtain ⟨side, hs⟩ := h.served f hf id hid
      exact ⟨side, hs.mono (.refl _) (h'.lines side)⟩
    · obtain ⟨side, hs⟩ := h'.served f hf id hid
      exact ⟨side, hs.mono (h.lines side) (.refl _)⟩

omit [Scalar.Lawful α] in
theorem line_swaps {k k' : Level α} (h : Ladder.Swaps k k' (b.levels side) (b'.levels side))
    (hp : k'.price = k.price)
    (hq : k'.queue.filter (·.order.isLocal) = k.queue.filter (·.order.isLocal)) :
    b'.line side = b.line side := by
  have hempty : ∀ k : Level α, k.queue = [] → k.locals.census = [] := fun k hk =>
    census_of_empty _ (by rw [Level.locals, hk, List.filter_nil])
  obtain ⟨front, back, hold, hnew⟩ := flatMap_swaps h hempty
  have hcensus : k'.locals.census = k.locals.census := by
    rw [Level.census, Level.census, Level.locals, Level.locals, hq, hp]
  rw [line_eq, line_eq, hold, hnew, hcensus]

omit [Scalar.Lawful α] in
theorem line_opposite (h : b'.levels side = b.levels side) : b'.line side = b.line side := by
  rw [line, line, queue, queue, h]

omit [Scalar.Lawful α] in
theorem Posts.locals {u : LevelUpdate α} {k own : Level α} {o : Order α}
    (hp : Posts b b' u k own o) :
    own.queue.filter (·.order.isLocal) = k.queue.filter (·.order.isLocal) := by
  obtain ⟨a, hqueue⟩ := hp.queue
  simp [hqueue, Order.isLocal_eq_false hp.party]

omit [Scalar.Lawful α] in
theorem Settles.line_own {b'' : Book α} {u : LevelUpdate α} {k own : Level α} {o : Order α}
    {m : Match.Run α × List (Level α)} (hs : Settles b' b'' u k own m)
    (hp : Posts b b' u k own o) : b''.line u.side = b.line u.side := by
  obtain ⟨front, back, own', hold, hnew, hprice, hlocals, -⟩ := hs.own
  have hsettled : b''.line u.side = b'.line u.side := by
    refine line_swaps ⟨front, [own], Ladder.kept own', back, ?_, hnew, .inl rfl,
      Ladder.shows_kept own'⟩ (hprice.trans hp.price.symm) (hlocals.trans hp.locals.symm)
    rw [hold, List.append_assoc, List.singleton_append]
  exact hsettled.trans (line_swaps hp.changes.swaps hp.changes.price hp.locals)

omit [Scalar.Lawful α] in
theorem Sound.copies (h : b.Sound) (side : Side) :
    ∀ j ∈ Ladder.copies (b.levels side), j.Sound b.arrivals := by
  intro j hj
  obtain ⟨i, hi, rfl, hne⟩ := Ladder.mem_copies.mp hj
  exact (h.sound side i hi).locals hne

theorem Sound.applied_serves (h : b.Sound) {u : LevelUpdate α} (now : α) (hu : u.fault? = none) :
    Serves b (b.applied u now).2 (b.applied u now).1.1 := by
  cases hn : negligible u.totalQty with
  | true =>
    obtain ⟨-, hlevels, hfills⟩ := (h.dropAggregate u).uncross
    rw [applied_of_negligible now hn, hfills]
    refine ⟨fun side => ?_, by simp⟩
    rw [line_opposite (hlevels side)]
    exact (h.toFiled.dropAggregate_queue u side).filter _
  | false =>
    have hfin := (fault?_eq_none hu).2
    obtain ⟨k, own, o, hp⟩ := h.posts now hu hn
    obtain ⟨hs, hfills⟩ := h.update (t := b.newAggregate u now) hp rfl rfl rfl hn hfin
    rw [applied_of_counts now hn, hfills]
    refine ⟨Side.forall_of u.side ?_ ?_, fun f hf id hid => ⟨u.side.opposite, ?_⟩⟩
    · rw [hs.line_own hp]
    · rw [line_copies, line_copies, hs.opposing]
      exact Match.sift_census _ _
    · obtain ⟨f', hf', rfl⟩ := List.mem_map.mp hf
      have hpassive : f'.passive = .local id := hid
      have hserved := Match.sift_served ⟨b.newAggregate u now, [], []⟩ hfin
        (h.copies u.side.opposite) f' hf'
      rw [hpassive] at hserved
      rw [line_copies, line_copies, hs.opposing]
      exact hserved.resolve_left List.not_mem_nil

theorem Applies.serves {us : List (LevelUpdate α)} {fills : List (Fill α)}
    (ha : Applies b us fills b') (h : b.Sound) (hu : ∀ u ∈ us, u.fault? = none) :
    Serves b b' fills := by
  induction ha with
  | nil => exact serves_refl _
  | cons u now _ ih =>
    obtain ⟨hu, hus⟩ := List.forall_mem_cons.mp hu
    exact (h.applied_serves now hu).trans (ih (h.applied now hu) hus)

theorem Filed.matched_queue (h : b.Filed) (o : Order α) :
    ∀ side, ((b.matched o).queue side).Sublist (b.queue side) := by
  obtain ⟨-, hown, hopp⟩ := h.matched o
  refine Side.forall_of o.side ?_ ?_
  · rw [queue, queue, hown]
  · rw [queue, queue, hopp]
    exact Match.sift_census _ _

/-- The orders that a submission trades with have had their turn, the aggregates among them too. -/
theorem Sound.accept_served (h : b.Sound) {s : Submission α} (now : α)
    (hs : b.refusal? s = none) {f : Fill α} (hf : f ∈ (b.traded (b.arrive s now)).fills) :
    Served f.passive (b.queue s.side.opposite) ((b.accept s now).2.queue s.side.opposite) := by
  obtain ⟨-, -, hopp⟩ := h.toFiled.matched (b.arrive s now)
  have hlevels : (b.accept s now).2.levels s.side.opposite =
      (Ladder.sift Match.turn (b.levels s.side.opposite) ⟨b.arrive s now, [], []⟩).2 := by
    rw [accept_eq]
    simp only
    split
    · exact hopp
    · obtain ⟨-, k, -, hc⟩ := h.toFiled.rest_traded now hs
      exact hc.opposite.trans hopp
  have hfin : Scalar.isFinite (b.arrive s now).remaining = true :=
    Scalar.isPositive.finite (refusal?_eq_none hs).2.1
  rw [h.toFiled.traded] at hf
  rw [queue, queue, hlevels]
  have hserved := Match.sift_served ⟨b.arrive s now, [], []⟩ hfin (h.sound s.side.opposite) f hf
  exact hserved.resolve_left List.not_mem_nil

theorem Sound.accept_queue (h : b.Sound) {s : Submission α} (now : α) (hs : b.refusal? s = none) :
    ∀ side, ∀ c ∈ (b.accept s now).2.queue side,
      c ∈ b.queue side ∨ c.2.2 = (b.arrive s now).terms := by
  have hmatched := h.toFiled.matched_queue (b.arrive s now)
  rw [accept_eq]
  simp only
  split
  · exact fun side c hc => .inl ((hmatched side).subset hc)
  · obtain ⟨-, k, -, hchanges⟩ := h.toFiled.rest_traded now hs
    refine Side.forall_of s.side (fun c hc => ?_) fun c hc => ?_
    · obtain ⟨j, hj, r, hr, rfl⟩ := mem_queue.mp hc
      obtain hj | ⟨rfl, -⟩ := hchanges.stands j hj
      · exact .inl ((hmatched _).subset (mem_queue.mpr ⟨j, hj, r, hr, rfl⟩))
      · rw [Level.pushBack_queue, List.mem_append, List.mem_singleton] at hr
        obtain hr | rfl := hr
        · obtain hk | hk := hchanges.found
          · exact .inl ((hmatched _).subset (mem_queue.mpr ⟨k, hk, r, hr, by simp⟩))
          · rw [hk] at hr
            cases hr
        · exact .inr (h.toFiled.traded_terms (b.arrive s now))
    · rw [queue, hchanges.opposite] at hc
      exact .inl ((hmatched _).subset hc)

def Answer.accepted? : Answer α → Option (Order α)
  | .submitted (.accepted _ _ _ o) => some o
  | .submitted (.rejected _) | .updated _ | .cancelled .. | .cleared | .numbered | .shown _ => none

/-- A local order that has traded in a call has had its turn among the local orders; in a
submission, among all orders. -/
theorem Effect.served {c : Call α} {a : Answer α} (he : Effect b c a b') (h : b.Sound)
    {f : Fill α} (hf : f ∈ a.fills) {id : OrderId} (hid : f.passive = .local id) :
    ∃ side, Served (.local id) (b.line side) (b'.line side) ∧
      ∀ s, c = .submit s → Served (.local id) (b.queue side) (b'.queue side) := by
  cases he with
  | refused | cancelled | cleared | faulty | faultyBatch | numbered | shown => cases hf
  | accepted now hs =>
    rename_i s
    rw [accept_fills] at hf
    have hserved := h.accept_served now hs hf
    rw [hid] at hserved
    exact ⟨s.side.opposite, hserved.filter, fun _ _ => hserved⟩
  | updated hu ha =>
    obtain ⟨side, hserved⟩ := (ha.serves h (List.forall_mem_singleton.mpr hu)).served f hf id hid
    exact ⟨side, hserved, fun _ he => by cases he⟩
  | batch hu ha =>
    obtain ⟨side, hserved⟩ := (ha.serves h (firstFault?_eq_none hu)).served f hf id hid
    exact ⟨side, hserved, fun _ he => by cases he⟩

/-- Among orders accepted one after another, does the last one of `p` come before the last one
of `q`? -/
def Earlier (log : List (Order α)) (p q : Party) : Prop :=
  ∃ front o back, log = front ++ o :: back ∧ o.party = q ∧ (∀ x ∈ back, x.party ≠ q) ∧
    (∃ x ∈ front, x.party = p) ∧ ∀ x ∈ o :: back, x.party ≠ p

/-- `x` has no priority over `o`: its price is no better, and where it is the same, `x` is a local
order and was not accepted earlier. -/
def Behind (log : List (Order α)) (x o : Order α) : Prop :=
  ¬Ladder.better o.side x.price o.price = true ∧
    (x.price = o.price → x.isLocal = true ∧ ¬Earlier log x.party o.party)

theorem behind_of_better {log : List (Order α)} {x o : Order α}
    (h : Ladder.better o.side o.price x.price = true) : Behind log x o :=
  ⟨Ladder.better_asymm h, fun hp => absurd hp.symm (Ladder.better_ne h)⟩

/-- The orders of `log` stand by arrival, and each local order that rests is the last of its party
among them. -/
structure Logged (b : Book α) (log : List (Order α)) : Prop where
  sorted : log.Pairwise fun o o' => o.arrival < o'.arrival
  arrived : ∀ o ∈ log, o.arrival ≤ b.arrivals
  last : ∀ side, ∀ d ∈ b.line side, ∃ front o back, log = front ++ o :: back ∧
    o.party = d.2.2.party ∧ o.arrival = d.2.2.arrival ∧ ∀ x ∈ back, x.party ≠ d.2.2.party

section Logged

variable {log : List (Order α)}

omit [Scalar.Lawful α] in
theorem Logged.not_earlier (h : b.Logged log) {side' : Side} {c d : α × Handle × Order α}
    (hc : c ∈ b.line side) (hd : d ∈ b.line side') (hle : c.2.2.arrival ≤ d.2.2.arrival) :
    ¬Earlier log d.2.2.party c.2.2.party := by
  rintro ⟨front, o, back, hlog, ho, -, -, hnone⟩
  obtain ⟨cfront, x, cback, hxlog, -, hx, hxlast⟩ := h.last side c hc
  obtain ⟨dfront, y, dback, hylog, hyparty, hy, -⟩ := h.last side' d hd
  have hyo : y.arrival < o.arrival := by
    have hmem : y ∈ front ++ o :: back := hlog ▸ hylog ▸ by simp
    have hfront : y ∈ front := (List.mem_append.mp hmem).resolve_right fun hm => hnone y hm hyparty
    have hsorted := h.sorted
    rw [hlog, List.pairwise_append] at hsorted
    exact hsorted.2.2 y hfront o List.mem_cons_self
  have hox : o.arrival ≤ x.arrival := by
    have hmem : o ∈ cfront ++ x :: cback := hxlog ▸ hlog ▸ by simp
    have hsorted := h.sorted
    rw [hxlog, List.pairwise_append] at hsorted
    obtain hm | hm := List.mem_append.mp hmem
    · exact Nat.le_of_lt (hsorted.2.2 o hm x List.mem_cons_self)
    · obtain rfl | hm := List.mem_cons.mp hm
      · exact Nat.le_refl _
      · exact absurd ho (hxlast o hm)
  omega

theorem Logged.behind (h : b.Logged log) {o x : Order α} {i j : Handle} (ho : o.isLocal = true)
    (hc : (o.price, i, o.terms) ∈ b.line o.side) (hd : (x.price, j, x.terms) ∈ b.line o.side)
    (hx : (x.price, j, x.terms) = (o.price, i, o.terms) ∨
      Ahead o.side (o.price, i, o.terms) (x.price, j, x.terms)) : Behind log x o := by
  have hsame : x.price = o.price → o.arrival ≤ x.arrival → Behind log x o := fun hp hle =>
    ⟨fun hb => Ladder.better_ne hb hp, fun _ =>
      ⟨(List.mem_filter.mp hd).2, h.not_earlier hc hd hle⟩⟩
  obtain heq | hbetter | ⟨hp, -, hlater⟩ := hx
  · have harrival : x.arrival = o.arrival := congrArg (·.2.2.arrival) heq
    exact hsame (congrArg (·.1) heq) (Nat.le_of_eq harrival.symm)
  · exact behind_of_better hbetter
  · exact hsame hp.symm (Nat.le_of_lt (hlater ho))

omit [Scalar.Lawful α] in
theorem Logged.mono (h : b.Logged log) (hl : ∀ side, ∀ d ∈ b'.line side, d ∈ b.line side)
    (ha : b.arrivals ≤ b'.arrivals) : b'.Logged log where
  sorted := h.sorted
  arrived o ho := Nat.le_trans (h.arrived o ho) ha
  last side d hd := h.last side d (hl side d hd)

omit [Scalar.Lawful α] in
theorem Logged.beside (h : b.Logged log) (seq : Option α) (busy : Bool) :
    { b with sequenceId := seq, busy := busy }.Logged log :=
  h.mono (fun _ _ hd => hd) (Nat.le_refl _)

omit [Scalar.Lawful α] in
theorem Filed.line_party (h : b.Filed) {id : OrderId} (hid : b.hasOrder id = false)
    {d : α × Handle × Order α} (hd : d ∈ b.line side) : d.2.2.party ≠ .local id := by
  intro hp
  obtain ⟨k, hk, r, hr, rfl⟩ := mem_queue.mp (List.mem_filter.mp hd).1
  have hplace : b.place? id = some ⟨side, k.price, r.handle⟩ :=
    h.place?_eq_some.mpr ⟨k, hk, rfl, r.order, hr, hp⟩
  rw [hasOrder, hplace] at hid
  cases hid

omit [Scalar.Lawful α] in
theorem accept_arrivals (s : Submission α) (now : α) :
    (b.accept s now).2.arrivals = b.arrivals + 1 := by
  rw [accept_eq]
  simp only
  split
  · exact matched_arrivals _
  · exact (rest_arrivals _ _).trans (matched_arrivals _)

omit [Scalar.Lawful α] in
theorem accepted?_accept (s : Submission α) (now : α) :
    (Answer.submitted (b.accept s now).1).accepted? = some (b.traded (b.arrive s now)).taker := by
  rw [accept_eq]
  simp only
  split <;> rfl

theorem Logged.accept (h : b.Logged log) (hb : b.Sound) {s : Submission α} (now : α)
    (hs : b.refusal? s = none) :
    (b.accept s now).2.Logged (log ++ [(b.traded (b.arrive s now)).taker]) := by
  have hterms := hb.toFiled.traded_terms (b.arrive s now)
  have hparty : (b.traded (b.arrive s now)).taker.party = .local s.id := congrArg Order.party hterms
  have harrival : (b.traded (b.arrive s now)).taker.arrival = b.arrivals + 1 :=
    congrArg Order.arrival hterms
  refine ⟨?_, fun o ho => ?_, fun side d hd => ?_⟩
  · refine List.pairwise_append.mpr ⟨h.sorted, List.pairwise_singleton _ _, fun o ho o' ho' => ?_⟩
    rw [List.mem_singleton.mp ho', harrival]
    exact Nat.lt_succ_of_le (h.arrived o ho)
  · rw [accept_arrivals]
    obtain ho | ho := List.mem_append.mp ho
    · exact Nat.le_succ_of_le (h.arrived o ho)
    · exact Nat.le_of_eq (by rw [List.mem_singleton.mp ho, harrival])
  · obtain ⟨hqueue, hlocal⟩ := List.mem_filter.mp hd
    obtain hold | hnew := hb.accept_queue now hs side d hqueue
    · have hline : d ∈ b.line side := List.mem_filter.mpr ⟨hold, hlocal⟩
      have hne := hb.toFiled.line_party (refusal?_eq_none hs).1 hline
      obtain ⟨front, o, back, hlog, ho, ha, hback⟩ := h.last side d hline
      refine ⟨front, o, back ++ [(b.traded (b.arrive s now)).taker], by simp [hlog], ho, ha,
        fun x hx => ?_⟩
      obtain hx | hx := List.mem_append.mp hx
      · exact hback x hx
      · rw [List.mem_singleton.mp hx, hparty]
        exact hne.symm
    · refine ⟨log, _, [], rfl, ?_, ?_, by simp⟩
      · rw [hnew, hparty]
        rfl
      · rw [hnew, harrival]
        rfl

theorem Sound.applied_arrivals (h : b.Sound) {u : LevelUpdate α} (now : α) (hu : u.fault? = none) :
    b.arrivals ≤ (b.applied u now).2.arrivals := by
  cases hn : negligible u.totalQty with
  | true =>
    rw [applied_of_negligible now hn, uncross_arrivals]
    obtain ⟨-, ⟨hb, -⟩ | ⟨_, _, _, -, -, -, -, ha, -⟩⟩ := h.toFiled.dropAggregate u
    · exact Nat.le_of_eq (by rw [hb])
    · exact Nat.le_of_eq ha.symm
  | false =>
    obtain ⟨k, own, o, hp⟩ := h.posts now hu hn
    rw [applied_of_counts now hn, uncross_arrivals]
    exact hp.arrivals

theorem Applies.arrivals {us : List (LevelUpdate α)} {fills : List (Fill α)}
    (ha : Applies b us fills b') (h : b.Sound) (hu : ∀ u ∈ us, u.fault? = none) :
    b.arrivals ≤ b'.arrivals := by
  induction ha with
  | nil => exact Nat.le_refl _
  | cons u now _ ih =>
    obtain ⟨hu, hus⟩ := List.forall_mem_cons.mp hu
    exact Nat.le_trans (h.applied_arrivals now hu) (ih (h.applied now hu) hus)

theorem Logged.applies (h : b.Logged log) (hb : b.Sound) {us : List (LevelUpdate α)}
    {fills : List (Fill α)} (ha : Applies b us fills b') (hu : ∀ u ∈ us, u.fault? = none) :
    b'.Logged log :=
  h.mono (fun side _ hd => ((ha.serves hb hu).lines side).subset hd) (ha.arrivals hb hu)

omit [Scalar.Lawful α] in
theorem Logged.clear (h : b.Logged log) : b.clear.Logged log :=
  h.mono (fun side d hd => by rw [line, clear_queue] at hd; cases hd) (Nat.le_refl _)

omit [Scalar.Lawful α] in
theorem Logged.append_none (h : b.Logged log) :
    b.Logged (log ++ (none : Option (Order α)).toList) := by
  rwa [Option.toList_none, List.append_nil]

theorem Effect.logged {c : Call α} {a : Answer α} (he : Effect b c a b') (hb : b.Sound)
    (h : b.Logged log) : b'.Logged (log ++ a.accepted?.toList) := by
  cases he with
  | accepted now hs =>
    rw [accepted?_accept, Option.toList_some]
    exact h.accept hb now hs
  | refused | faulty | faultyBatch | shown => exact h.append_none
  | cancelled id =>
    refine (h.mono (fun side d hd => ?_) ?_).append_none
    · exact ((hb.toFiled.remove_queue id side).filter _).subset hd
    · exact Nat.le_of_eq (remove_arrivals id).symm
  | cleared => exact h.clear.append_none
  | updated hu ha => exact (h.applies hb ha (List.forall_mem_singleton.mpr hu)).append_none
  | batch hu ha => exact (h.applies hb ha (firstFault?_eq_none hu)).append_none
  | numbered seq => exact (h.beside seq b.busy).append_none

end Logged

end Book

end LimitBook
