import LimitBook.Level
import LimitBook.Proofs.Scalar

namespace LimitBook

section Terms

variable {α : Type} [Scalar α]

/-- What trading leaves alone in an order. -/
def Order.terms (o : Order α) : Order α :=
  { o with remaining := Scalar.zero, filled := Scalar.zero }

@[simp]
theorem Order.fill_terms (o : Order α) (q : α) : (o.fill q).terms = o.terms := rfl

omit [Scalar α] in
theorem Order.isLocal_eq_false_iff {o : Order α} : o.isLocal = false ↔ o.party = .external := by
  unfold Order.isLocal
  cases o.party <;> simp [Party.isLocal]

omit [Scalar α] in
theorem Order.isLocal_eq_false {o : Order α} (h : o.party = .external) : o.isLocal = false :=
  Order.isLocal_eq_false_iff.mpr h

def Resting.terms (r : Resting α) : Handle × Order α := (r.handle, r.order.terms)

end Terms

namespace Level

variable {α : Type}

def handles (rs : List (Resting α)) : List Handle := rs.map (·.handle)

def Tracked (l : Level α) : Prop := (handles l.queue ++ l.free).Perm (List.range l.allocated)

theorem tracked_empty (price : α) : (Level.empty price).Tracked := by simp [Tracked, empty, handles]

@[simp]
theorem allocate_queue (l : Level α) : l.allocate.2.queue = l.queue := by
  unfold allocate
  split <;> rfl

@[simp]
theorem allocate_price (l : Level α) : l.allocate.2.price = l.price := by
  unfold allocate
  split <;> rfl

theorem pushBack_queue (l : Level α) (o : Order α) :
    (l.pushBack o).2.queue = l.queue ++ [⟨(l.pushBack o).1, o⟩] := by
  simp [pushBack]

theorem mem_pushBack (l : Level α) (o : Order α) :
    ⟨(l.pushBack o).1, o⟩ ∈ (l.pushBack o).2.queue := by
  rw [pushBack_queue]
  exact List.mem_append_right _ List.mem_cons_self

theorem pushFront_queue (l : Level α) (o : Order α) :
    (l.pushFront o).2.queue = ⟨(l.pushFront o).1, o⟩ :: l.queue := by
  simp [pushFront]

@[simp]
theorem pushBack_price (l : Level α) (o : Order α) : (l.pushBack o).2.price = l.price :=
  l.allocate_price

@[simp]
theorem pushFront_price (l : Level α) (o : Order α) : (l.pushFront o).2.price = l.price :=
  l.allocate_price

@[simp]
theorem updateFront_price (l : Level α) (f : Order α → Order α) :
    (l.updateFront f).price = l.price := by
  unfold updateFront
  split <;> rfl

theorem isEmpty_iff (l : Level α) : l.isEmpty = true ↔ l.queue = [] := List.isEmpty_iff

namespace Tracked

variable {l : Level α}

theorem nodup (h : l.Tracked) : (handles l.queue).Nodup :=
  (List.nodup_append.mp (h.nodup_iff.mpr List.nodup_range)).1

theorem allocate (h : l.Tracked) :
    (l.allocate.1 :: (handles l.queue ++ l.allocate.2.free)).Perm
      (List.range l.allocate.2.allocated) := by
  unfold Level.allocate Tracked at *
  cases hf : l.free with
  | nil =>
    rw [hf, List.append_nil] at h
    simp only [List.append_nil, List.range_succ]
    exact (List.perm_append_singleton _ _).symm.trans (h.append_right _)
  | cons a free =>
    rw [hf] at h
    exact List.perm_middle.symm.trans h

theorem pushBack (h : l.Tracked) (o : Order α) : (l.pushBack o).2.Tracked := by
  rw [Tracked, pushBack_queue]
  simp only [handles, List.map_append, List.map_cons, List.map_nil, List.append_assoc,
    List.singleton_append]
  exact List.perm_middle.trans h.allocate

theorem pushFront (h : l.Tracked) (o : Order α) : (l.pushFront o).2.Tracked := by
  rw [Tracked, pushFront_queue]
  exact h.allocate

theorem updateFront (h : l.Tracked) (f : Order α → Order α) : (l.updateFront f).Tracked := by
  unfold Level.updateFront
  cases hq : l.queue with
  | nil => exact h
  | cons r rs =>
    unfold Tracked at *
    rw [hq] at h
    exact h

theorem settle [Scalar α] (h : l.Tracked) {left gone : List (Resting α)}
    (hp : ((left ++ gone).map Resting.terms).Perm (l.queue.map Resting.terms)) :
    (l.settle left gone).Tracked := by
  have hh : (handles (left ++ gone)).Perm (handles l.queue) := by
    have hm := hp.map Prod.fst
    rw [List.map_map, List.map_map] at hm
    exact hm
  unfold Tracked at *
  refine List.Perm.trans ?_ h
  simp only [Level.settle, handles, List.map_append, ← List.append_assoc] at *
  exact ((List.reverse_perm _).append_left _).append_right _ |>.trans (hh.append_right _)

theorem update_eq (h : l.Tracked) {done rest : List (Resting α)} {r : Resting α}
    (hq : l.queue = done ++ r :: rest) (f : Order α → Order α) :
    l.update r.handle f = { l with queue := done ++ ⟨r.handle, f r.order⟩ :: rest } := by
  have hn := h.nodup
  rw [hq, handles, List.map_append, List.map_cons] at hn
  obtain ⟨-, hback, hapart⟩ := List.nodup_append.mp hn
  have hsame {rs : List (Resting α)} (hrs : r.handle ∉ handles rs) :
      rs.map (fun x => if x.handle = r.handle then { x with order := f x.order } else x) = rs := by
    refine (List.map_congr_left fun x hx => if_neg fun he => hrs ?_).trans (List.map_id' rs)
    exact he ▸ List.mem_map_of_mem hx
  rw [Level.update, hq, List.map_append, List.map_cons, if_pos rfl,
    hsame fun hd => hapart _ hd _ List.mem_cons_self rfl, hsame (List.nodup_cons.mp hback).1]

end Tracked

theorem find?_eq_some {rs : List (Resting α)} (h : (handles rs).Nodup) {a : Handle} {o : Order α} :
    find? a rs = some o ↔ ⟨a, o⟩ ∈ rs := by
  induction rs with
  | nil => simp [find?]
  | cons r rs ih =>
    obtain ⟨b, o'⟩ := r
    obtain ⟨hr, hrs⟩ := List.nodup_cons.mp h
    unfold find?
    by_cases ha : b = a
    · subst ha
      have hn : ⟨b, o⟩ ∉ rs := fun ho => hr (List.mem_map.mpr ⟨_, ho, rfl⟩)
      simp [hn, eq_comm]
    · have hne : (⟨a, o⟩ : Resting α) ≠ ⟨b, o'⟩ := fun he => ha (Resting.mk.inj he).1.symm
      rw [if_neg ha, ih hrs, List.mem_cons]
      exact ⟨.inr, fun hm => hm.resolve_left hne⟩

theorem get?_eq_some {l : Level α} (h : l.Tracked) {a : Handle} {o : Order α} :
    l.get? a = some o ↔ ⟨a, o⟩ ∈ l.queue := find?_eq_some h.nodup

theorem filter_handle {front back : List (Resting α)} {r : Resting α}
    (h : (handles (front ++ r :: back)).Nodup) :
    (front ++ r :: back).filter (fun x => decide (x.handle ≠ r.handle)) = front ++ back := by
  simp only [handles, List.map_append, List.map_cons, List.nodup_append, List.nodup_cons,
    List.mem_map, List.mem_cons] at h
  obtain ⟨-, ⟨hb, -⟩, hf⟩ := h
  rw [List.filter_append, List.filter_cons_of_neg (by simp)]
  congr 1 <;> refine List.filter_eq_self.mpr fun x hx => decide_eq_true ?_
  · exact hf _ ⟨x, hx, rfl⟩ _ (.inl rfl)
  · exact fun he => hb ⟨x, hx, he⟩

def lose (l : Level α) (r : Resting α) (rs : List (Resting α)) : Level α :=
  { l with queue := rs, free := r.handle :: l.free }

theorem remove?_eq {l : Level α} (h : l.Tracked) {front back : List (Resting α)} {r : Resting α}
    (hq : l.queue = front ++ r :: back) :
    l.remove? r.handle = some (r.order, l.lose r (front ++ back)) := by
  have hg : l.get? r.handle = some r.order := (get?_eq_some h).mpr (by simp [hq])
  have hn := h.nodup
  rw [hq] at hn
  rw [remove?, hg, Option.map_some, hq, filter_handle hn, lose]

theorem Tracked.lose {l : Level α} (h : l.Tracked) {front back : List (Resting α)} {r : Resting α}
    (hq : l.queue = front ++ r :: back) : (l.lose r (front ++ back)).Tracked := by
  unfold Tracked at *
  rw [hq] at h
  refine List.Perm.trans ?_ h
  simp only [Level.lose, handles, List.map_append, List.map_cons]
  exact List.perm_middle.trans (List.perm_middle.append_right l.free).symm

section Standing

variable {k : Level α} {side : Side} {m n : Nat} {ts us : List (Handle × Order α)}

/-- Every order of a level is on its side and at its price, and no two share a handle. -/
structure Kept (side : Side) (k : Level α) : Prop where
  tracked : k.Tracked
  terms : ∀ r ∈ k.queue, r.order.side = side ∧ r.order.price = k.price

theorem kept_empty (side : Side) (price : α) : (Level.empty price).Kept side :=
  ⟨tracked_empty price, by simp [empty]⟩

theorem Kept.pushBack (h : k.Kept side) {o : Order α} (hs : o.side = side)
    (hp : o.price = k.price) : (k.pushBack o).2.Kept side := by
  refine ⟨h.tracked.pushBack o, ?_⟩
  rw [pushBack_queue, pushBack_price]
  intro r hr
  obtain hr | hr := List.mem_append.mp hr
  · exact h.terms r hr
  · rw [List.mem_singleton.mp hr]
    exact ⟨hs, hp⟩

theorem Kept.pushFront (h : k.Kept side) {o : Order α} (hs : o.side = side)
    (hp : o.price = k.price) : (k.pushFront o).2.Kept side := by
  refine ⟨h.tracked.pushFront o, ?_⟩
  rw [pushFront_queue, pushFront_price]
  intro r hr
  obtain rfl | hr := List.mem_cons.mp hr
  · exact ⟨hs, hp⟩
  · exact h.terms r hr

theorem Kept.updateFront (h : k.Kept side) {f : Order α → Order α}
    (hf : ∀ o, (f o).side = o.side ∧ (f o).price = o.price) : (k.updateFront f).Kept side := by
  refine ⟨h.tracked.updateFront f, ?_⟩
  rw [updateFront_price]
  unfold Level.updateFront
  have ht := h.terms
  cases hq : k.queue with
  | nil => simp [hq]
  | cons r rs =>
    rw [hq, List.forall_mem_cons] at ht
    refine List.forall_mem_cons.mpr ⟨?_, ht.2⟩
    rw [(hf _).1, (hf _).2]
    exact ht.1

theorem Kept.lose (h : k.Kept side) {front back : List (Resting α)} {r : Resting α}
    (hq : k.queue = front ++ r :: back) : (k.lose r (front ++ back)).Kept side := by
  refine ⟨h.tracked.lose hq, fun x hx => h.terms x ?_⟩
  rw [hq]
  exact (List.Sublist.append_left (List.sublist_cons_self r back) front).subset hx

/-- Only the first order may be an aggregate, local orders stand by arrival, and none arrived after
the `n`th. -/
structure Orderly (n : Nat) (ts : List (Handle × Order α)) : Prop where
  behind : ∀ t ∈ ts.tail, t.2.isLocal = true
  sorted : (ts.filter (·.2.isLocal)).Pairwise fun s t => s.2.arrival < t.2.arrival
  arrived : ∀ t ∈ ts, t.2.arrival ≤ n

theorem Orderly.sublist (h : Orderly n ts) (hs : us.Sublist ts) : Orderly n us where
  behind t ht := h.behind t (hs.tail.subset ht)
  sorted := h.sorted.sublist (hs.filter _)
  arrived t ht := h.arrived t (hs.subset ht)

theorem Orderly.mono (h : Orderly m ts) (hm : m ≤ n) : Orderly n ts :=
  ⟨h.behind, h.sorted, fun t ht => Nat.le_trans (h.arrived t ht) hm⟩

theorem orderly_nil (n : Nat) : Orderly n ([] : List (Handle × Order α)) :=
  ⟨by simp, by simp, by simp⟩

theorem Orderly.append {t : Handle × Order α} (h : Orderly m ts) (hlocal : t.2.isLocal = true)
    (hm : m < t.2.arrival) (hn : t.2.arrival ≤ n) : Orderly n (ts ++ [t]) where
  behind s hs := by
    cases ts with
    | nil => cases hs
    | cons r ts =>
      obtain hs | hs := List.mem_append.mp hs
      · exact h.behind s hs
      · rwa [List.mem_singleton.mp hs]
  sorted := by
    rw [List.filter_append, List.pairwise_append]
    refine ⟨h.sorted, List.Pairwise.filter _ (List.pairwise_singleton _ _), fun r hr s hs => ?_⟩
    have hr' := h.arrived r (List.mem_filter.mp hr).1
    rw [List.mem_singleton.mp (List.mem_filter.mp hs).1]
    exact Nat.lt_of_le_of_lt hr' hm
  arrived s hs := by
    obtain hs | hs := List.mem_append.mp hs
    · exact Nat.le_trans (h.arrived s hs) (Nat.le_of_lt (Nat.lt_of_lt_of_le hm hn))
    · rwa [List.mem_singleton.mp hs]

theorem Orderly.aggregate {t : Handle × Order α} (h : Orderly m ts) (hlocal : t.2.isLocal = false)
    (hm : m ≤ n) (hn : t.2.arrival ≤ n) : Orderly n (t :: ts.filter (·.2.isLocal)) where
  behind s hs := (List.mem_filter.mp hs).2
  sorted := by
    rw [List.filter_cons_of_neg (by simp [hlocal])]
    exact h.sorted.filter _
  arrived s hs := by
    obtain rfl | hs := List.mem_cons.mp hs
    · exact hn
    · exact Nat.le_trans (h.arrived s (List.mem_filter.mp hs).1) hm

/-- Each order of the level has something left. -/
def Counted [Scalar α] (k : Level α) : Prop := ∀ r ∈ k.queue, Counts r.order.remaining

theorem counted_empty [Scalar α] (price : α) : (empty price).Counted := by simp [Counted, empty]

theorem Counted.pushBack [Scalar α] (h : k.Counted) {o : Order α} (ho : Counts o.remaining) :
    (k.pushBack o).2.Counted := by
  intro r hr
  rw [pushBack_queue] at hr
  obtain hr | hr := List.mem_append.mp hr
  · exact h r hr
  · rw [List.mem_singleton.mp hr]
    exact ho

theorem Counted.pushFront [Scalar α] (h : k.Counted) {o : Order α} (ho : Counts o.remaining) :
    (k.pushFront o).2.Counted := by
  intro r hr
  rw [pushFront_queue] at hr
  obtain rfl | hr := List.mem_cons.mp hr
  · exact ho
  · exact h r hr

theorem Counted.updateFront [Scalar α] (h : k.Counted) {f : Order α → Order α}
    (hf : ∀ o, Counts o.remaining → Counts (f o).remaining) : (k.updateFront f).Counted := by
  unfold Level.updateFront
  cases hq : k.queue with
  | nil => exact h
  | cons r rs =>
    rw [Counted, hq] at h
    intro x hx
    obtain rfl | hx := List.mem_cons.mp hx
    · exact hf _ (h r List.mem_cons_self)
    · exact h x (List.mem_cons_of_mem _ hx)

theorem Counted.lose [Scalar α] (h : k.Counted) {front back : List (Resting α)} {r : Resting α}
    (hq : k.queue = front ++ r :: back) : (k.lose r (front ++ back)).Counted := by
  intro x hx
  refine h x ?_
  rw [hq]
  exact (List.Sublist.append_left (List.sublist_cons_self r back) front).subset hx

/-- A level that holds orders, each with something left. -/
structure Stocked [Scalar α] (k : Level α) : Prop where
  nonempty : k.queue ≠ []
  counts : k.Counted

/-- A level between operations, when `n` orders have arrived at the book. -/
structure Sound [Scalar α] (n : Nat) (k : Level α) : Prop extends k.Stocked where
  orderly : Orderly n (k.queue.map Resting.terms)

theorem Sound.mono [Scalar α] (h : k.Sound m) (hm : m ≤ n) : k.Sound n :=
  ⟨h.toStocked, h.orderly.mono hm⟩

theorem Sound.behind [Scalar α] (h : k.Sound n) : ∀ o ∈ k.orders.tail, o.isLocal = true := by
  intro o ho
  rw [orders, ← List.map_tail] at ho
  obtain ⟨r, hr, rfl⟩ := List.mem_map.mp ho
  apply h.orderly.behind r.terms
  rw [← List.map_tail]
  exact List.mem_map_of_mem hr

theorem Sound.sorted [Scalar α] (h : k.Sound n) :
    (k.orders.filter (·.isLocal)).Pairwise fun o o' => o.arrival < o'.arrival := by
  have hs := h.orderly.sorted
  rw [List.filter_map, List.pairwise_map] at hs
  rw [orders, List.filter_map, List.pairwise_map]
  exact hs

theorem Sound.arrived [Scalar α] (h : k.Sound n) : ∀ o ∈ k.orders, o.arrival ≤ n := by
  intro o ho
  obtain ⟨r, hr, rfl⟩ := List.mem_map.mp ho
  exact h.orderly.arrived r.terms (List.mem_map_of_mem hr)

end Standing

/-- The level with its local orders alone. -/
def locals (k : Level α) : Level α := { k with queue := k.queue.filter (·.order.isLocal) }

def Bare (k : Level α) : Prop := ∀ r ∈ k.queue, r.order.isLocal = false

theorem bare_iff {k : Level α} : k.Bare ↔ k.locals.queue = [] := by
  simp [Bare, locals, List.filter_eq_nil_iff]

theorem Sound.bare [Scalar α] {k : Level α} {n : Nat} (h : k.Sound n) (hb : k.Bare) :
    ∃ o, k.orders = [o] ∧ o.party = .external := by
  have hbehind := h.orderly.behind
  cases hq : k.queue with
  | nil => exact absurd hq h.nonempty
  | cons r rs =>
    rw [Bare, hq, List.forall_mem_cons] at hb
    rw [hq, List.map_cons, List.tail_cons] at hbehind
    have hrs : rs = [] := List.eq_nil_iff_forall_not_mem.mpr fun x hx => by
      have hx' : x.order.isLocal = true := hbehind _ (List.mem_map_of_mem hx)
      rw [hb.2 x hx] at hx'
      cases hx'
    exact ⟨r.order, by rw [orders, hq, hrs]; rfl, Order.isLocal_eq_false_iff.mp hb.1⟩

section Trading

variable [Scalar α] {k k' : Level α} {side : Side} {n : Nat} {left gone : List (Resting α)}

/-- The orders of a level by their price, their handles and their terms. -/
def census (k : Level α) : List (α × Handle × Order α) := k.queue.map fun r => (k.price, r.terms)

/-- The orders of a level, each with its price. -/
def seats (k : Level α) : List (α × Resting α) := k.queue.map (k.price, ·)

/-- `k'` is `k` after trading: some orders are gone, and the others stand as they stood. -/
structure Thins (k' k : Level α) : Prop where
  price : k'.price = k.price
  queue : (k'.queue.map Resting.terms).Sublist (k.queue.map Resting.terms)

theorem Thins.refl (k : Level α) : k.Thins k := ⟨rfl, List.Sublist.refl _⟩

theorem Thins.trans {k'' : Level α} (h : k''.Thins k') (h' : k'.Thins k) : k''.Thins k :=
  ⟨h.price.trans h'.price, h.queue.trans h'.queue⟩

theorem Thins.mem (h : k'.Thins k) {r : Resting α} (hr : r ∈ k'.queue) :
    ∃ r' ∈ k.queue, r'.terms = r.terms :=
  List.mem_map.mp (h.queue.subset (List.mem_map_of_mem hr))

theorem Sound.thins (h : k.Sound n) (ht : k'.Thins k) (hs : k'.Stocked) : k'.Sound n :=
  ⟨hs, h.orderly.sublist ht.queue⟩

theorem Sound.locals (h : k.Sound n) (hne : k.locals.queue ≠ []) : k.locals.Sound n :=
  h.thins ⟨rfl, List.filter_sublist.map _⟩ ⟨hne, fun r hr => h.counts r (List.mem_filter.mp hr).1⟩

theorem Thins.bare (h : k'.Thins k) (hk : k.Bare) : k'.Bare := by
  intro r hr
  obtain ⟨r', hr', ht⟩ := h.mem hr
  have hl : r'.order.isLocal = r.order.isLocal := congrArg (fun t => t.2.isLocal) ht
  rw [← hl, hk r' hr']

theorem Thins.terms_eq (h : k'.Thins k) (hk : k.Kept side) :
    ∀ r ∈ k'.queue, r.order.side = side ∧ r.order.price = k'.price := by
  intro r hr
  obtain ⟨r', hr', ht⟩ := h.mem hr
  have hs : r'.order.side = r.order.side := congrArg (fun t => t.2.side) ht
  have hp : r'.order.price = r.order.price := congrArg (fun t => t.2.price) ht
  rw [← hs, ← hp, h.price]
  exact hk.terms r' hr'

/-- Trading leaves `k'` of `k`, and the orders of `gone` are those that left. -/
structure Leaves (side : Side) (k k' : Level α) (gone : List (α × Handle × Order α)) : Prop where
  kept : k'.Kept side
  thins : k'.Thins k
  census : (k'.census ++ gone).Perm k.census

theorem Leaves.refl (h : k.Kept side) : Leaves side k k [] := ⟨h, .refl k, by simp⟩

omit [Scalar α] in
theorem perm_gone {β : Type} {a b c g g' : List β} (h : (b ++ g).Perm a) (h' : (c ++ g').Perm b) :
    (c ++ (g ++ g')).Perm a := by
  refine List.Perm.trans ?_ ((h'.append_right g).trans h)
  rw [List.append_assoc]
  exact List.perm_append_comm.append_left c

theorem Leaves.trans {k'' : Level α} {gone gone' : List (α × Handle × Order α)}
    (h : Leaves side k k' gone) (h' : Leaves side k' k'' gone') :
    Leaves side k k'' (gone ++ gone') :=
  ⟨h'.kept, h'.thins.trans h.thins, perm_gone h.census h'.census⟩

theorem settle_leaves (h : k.Kept side)
    (hs : (left.map Resting.terms).Sublist (k.queue.map Resting.terms))
    (hp : ((left ++ gone).map Resting.terms).Perm (k.queue.map Resting.terms)) :
    Leaves side k (k.settle left gone) (gone.map fun r => (k.price, r.terms)) := by
  have ht : (k.settle left gone).Thins k := ⟨rfl, hs⟩
  have hc := hp.map fun t => (k.price, t)
  rw [List.map_append, List.map_append, List.map_map, List.map_map, List.map_map] at hc
  exact ⟨⟨h.tracked.settle hp, ht.terms_eq h⟩, ht, hc⟩

end Trading

end Level

end LimitBook
