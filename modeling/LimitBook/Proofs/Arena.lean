import LimitBook.Proofs.Arena.Links
import LimitBook.Proofs.Level

namespace LimitBook.Arena

section Holds

open Level (handles)

variable {α : Type} {a a' : Arena α} {l : Level α} {o : Order α} {h : Handle}

/-- The arena keeps the orders of a level: each in the slot of its handle, all of them linked from
head to tail and back, and the slots of the free handles empty. What is done to the arena is then
what the level does to its queue, answer for answer, and ends in no error. -/
structure Holds (a : Arena α) (l : Level α) : Prop where
  price : a.price = l.price
  free : a.free = l.free
  size : a.slots.size = l.allocated
  count : a.count = l.queue.length
  tracked : l.Tracked
  order : ∀ r ∈ l.queue, a.get? r.handle = some r.order
  vacant : ∀ h ∈ l.free, a.get? h = none
  forth : Runs a.after (handles l.queue)
  back : Runs a.before (handles l.queue).reverse

theorem holds_empty (price : α) : (empty price).Holds (Level.empty price) where
  price := rfl
  free := rfl
  size := rfl
  count := rfl
  tracked := Level.tracked_empty price
  order := by simp [Level.empty]
  vacant := by simp [Level.empty]
  forth := runs_nil fun x => by cases x <;> rfl
  back := runs_nil fun x => by cases x <;> rfl

theorem Holds.lt_size (hl : a.Holds l) : h < a.slots.size ↔ h ∈ handles l.queue ∨ h ∈ l.free := by
  rw [hl.size, ← List.mem_range, ← hl.tracked.mem_iff, List.mem_append]

theorem get?_eq_none_of_size (hh : a.slots.size ≤ h) : a.get? h = none := by
  rw [get?, slot?_natCast, Array.getElem?_eq_none hh, Option.bind_none]

theorem Holds.get?_eq_none (hl : a.Holds l) (hh : h ∉ handles l.queue) : a.get? h = none := by
  by_cases hs : h < a.slots.size
  · exact hl.vacant h ((hl.lt_size.mp hs).resolve_left hh)
  · exact get?_eq_none_of_size (Nat.le_of_not_lt hs)

theorem Holds.get?_eq_some (hl : a.Holds l) :
    a.get? h = some o ↔ ∃ r ∈ l.queue, r.handle = h ∧ r.order = o := by
  constructor
  · intro hget
    by_cases hh : h ∈ handles l.queue
    · obtain ⟨r, hr, rfl⟩ := List.mem_map.mp hh
      exact ⟨r, hr, rfl, Option.some.inj ((hl.order r hr).symm.trans hget)⟩
    · rw [hl.get?_eq_none hh] at hget
      cases hget
  · rintro ⟨r, hr, rfl, rfl⟩
    exact hl.order r hr

theorem Holds.fresh (hl : a.Holds l) : l.allocate.1 ∉ handles l.queue := fun hh =>
  (List.nodup_cons.mp (hl.tracked.allocate.nodup_iff.mpr List.nodup_range)).1
    (List.mem_append_left _ hh)

/-- `a'` is `a` with an order in the slot of the handle that the level gives out next. -/
structure Takes (a : Arena α) (l : Level α) (o : Order α) (a' : Arena α) : Prop where
  slots : ∀ h : Handle,
    a'.slots[h]? = if h = l.allocate.1 then some ⟨some o, none, none⟩ else a.slots[h]?
  head : a'.head = a.head
  tail : a'.tail = a.tail
  price : a'.price = a.price
  free : a'.free = l.allocate.2.free
  size : a'.slots.size = l.allocate.2.allocated
  count : a'.count = a.count + 1

theorem allocate_reuse {free : List Handle} {s : Slot α} (hf : a.free = h :: free)
    (hs : a.slots[h]? = some s) :
    a.allocate o =
      .ok (h, { a with free, count := a.count + 1 }.set h { s with order := some o }) := by
  have hc := change_eq (a := { a with free, count := a.count + 1 }) hs
    fun s => { s with order := some o }
  rw [allocate, hf]
  simp only
  rw [hc]
  rfl

theorem allocate_new (hf : a.free = []) : a.allocate o = .ok (a.slots.size,
    { a with slots := a.slots.push ⟨some o, none, none⟩, count := a.count + 1 }) := by
  rw [allocate, hf]

theorem Holds.unlinked (hl : a.Holds l) (hh : h ∉ handles l.queue) :
    a.next? h = none ∧ a.prev? h = none :=
  ⟨hl.forth.rest h hh, hl.back.rest h (by simpa using hh)⟩

theorem Holds.not_mem_free (hl : a.Holds l) (hh : h ∈ l.free) : h ∉ handles l.queue := fun hq =>
  (List.nodup_append.mp (hl.tracked.nodup_iff.mpr List.nodup_range)).2.2 h hq h hh rfl

theorem Holds.slot_free (hl : a.Holds l) (hh : h ∈ l.free) :
    a.slots[h]? = some ⟨none, none, none⟩ := by
  obtain ⟨⟨order, prev, next⟩, hs⟩ : ∃ s, a.slots[h]? = some s :=
    ⟨_, Array.getElem?_eq_getElem (hl.lt_size.mpr (.inr hh))⟩
  have hget := hl.vacant h hh
  have hlinks := hl.unlinked (hl.not_mem_free hh)
  simp only [get?, next?, prev?, slot?_natCast, hs, Option.bind_some] at hget hlinks
  rw [hs, hget, hlinks.1, hlinks.2]

theorem Holds.allocate (hl : a.Holds l) (o : Order α) :
    ∃ a', a.allocate o = .ok (l.allocate.1, a') ∧ Takes a l o a' := by
  cases hf : l.free with
  | cons h free =>
    have ha : l.allocate = (h, { l with free }) := by rw [Level.allocate, hf]
    have hs := hl.slot_free (h := h) (by simp [hf])
    have hh := (Array.getElem?_eq_some_iff.mp hs).1
    rw [ha]
    refine ⟨_, allocate_reuse (hl.free.trans hf) hs, ⟨fun x => ?_, rfl, rfl, rfl, ?_, ?_, rfl⟩⟩
    · rw [ha]
      exact slot?_set hh _ x
    · rw [ha]
      rfl
    · rw [ha]
      simp [set, hl.size]
  | nil =>
    have ha : l.allocate = (a.slots.size, { l with allocated := l.allocated + 1 }) := by
      rw [Level.allocate, hf, hl.size]
    rw [ha]
    refine ⟨_, allocate_new (hl.free.trans hf), ⟨fun x => ?_, rfl, rfl, rfl, ?_, ?_, rfl⟩⟩
    · rw [ha, Array.getElem?_push]
    · rw [ha]
      exact hl.free
    · rw [ha]
      simp [hl.size]

theorem Takes.after (ht : Takes a l o a') (hl : a.Holds l) : a'.after = a.after := by
  refine after_congr ht.head fun h => ?_
  rw [next?, slot?_natCast, ht.slots]
  split
  · next hh => exact hh ▸ (hl.unlinked hl.fresh).1.symm
  · rfl

theorem Takes.before (ht : Takes a l o a') (hl : a.Holds l) : a'.before = a.before := by
  refine before_congr ht.tail fun h => ?_
  rw [prev?, slot?_natCast, ht.slots]
  split
  · next hh => exact hh ▸ (hl.unlinked hl.fresh).2.symm
  · rfl

theorem Takes.get (ht : Takes a l o a') (h : Handle) :
    a'.get? h = if h = l.allocate.1 then some o else a.get? h := by
  rw [get?, slot?_natCast, ht.slots]
  split <;> rfl

theorem Takes.lt_size (ht : Takes a l o a') (hl : a.Holds l)
    (hh : h = l.allocate.1 ∨ h ∈ handles l.queue) : h < a'.slots.size := by
  rw [ht.size]
  refine List.mem_range.mp (hl.tracked.allocate.mem_iff.mp ?_)
  exact List.mem_cons.mpr (hh.imp_right (List.mem_append_left _))

theorem Takes.holds {a₁ : Arena α} {f g : Option Handle → Option Handle} {queue : List (Resting α)}
    (ht : Takes a l o a₁) (hl : a.Holds l) (hr : Relinks a₁ a' f g)
    (hq : queue.Perm (⟨l.allocate.1, o⟩ :: l.queue)) (hf : Runs f (handles queue))
    (hg : Runs g (handles queue).reverse) : a'.Holds { l.allocate.2 with queue } where
  price := by rw [hr.price, ht.price, hl.price, Level.allocate_price]
  free := hr.free.trans ht.free
  size := hr.size.trans ht.size
  count := by
    rw [hr.count, ht.count, hl.count, hq.length_eq, List.length_cons]
    rfl
  tracked := by
    have hp : (handles queue).Perm (l.allocate.1 :: handles l.queue) := hq.map Resting.handle
    exact (hp.append_right l.allocate.2.free).trans hl.tracked.allocate
  order r hmem := by
    rw [hr.get, ht.get]
    obtain rfl | hmem := List.mem_cons.mp (hq.mem_iff.mp hmem)
    · rw [if_pos rfl]
    · have hne : r.handle ≠ l.allocate.1 := fun he =>
        hl.fresh (he ▸ List.mem_map_of_mem hmem)
      rw [if_neg hne, hl.order r hmem]
  vacant h hh := by
    obtain ⟨hnew, hold⟩ :=
      List.nodup_cons.mp (hl.tracked.allocate.nodup_iff.mpr List.nodup_range)
    have hne : h ≠ l.allocate.1 := fun he => hnew (he ▸ List.mem_append_right _ hh)
    have hq : h ∉ handles l.queue := fun hq => (List.nodup_append.mp hold).2.2 h hq h hh rfl
    rw [hr.get, ht.get, if_neg hne, hl.get?_eq_none hq]
  forth := hr.after ▸ hf
  back := hr.before ▸ hg

theorem pushBack_eq (l : Level α) (o : Order α) : l.pushBack o =
    (l.allocate.1, { l.allocate.2 with queue := l.queue ++ [⟨l.allocate.1, o⟩] }) := by
  simp [Level.pushBack]

theorem pushFront_eq (l : Level α) (o : Order α) : l.pushFront o =
    (l.allocate.1, { l.allocate.2 with queue := ⟨l.allocate.1, o⟩ :: l.queue }) := by
  simp [Level.pushFront]

theorem Holds.pushBack (hl : a.Holds l) (o : Order α) :
    ∃ a', a.pushBack o = .ok ((l.pushBack o).1, a') ∧ a'.Holds (l.pushBack o).2 := by
  obtain ⟨a₁, h₁, ht⟩ := hl.allocate o
  have hlast : a₁.tail = (handles l.queue).getLast? := by
    rw [ht.tail, ← List.head?_reverse]
    exact hl.back.cut [] _ rfl
  obtain ⟨a₂, h₂, hr₂⟩ := linkPrev_ok (a := a₁) (n := some l.allocate.1) a₁.tail fun h hh =>
    ht.lt_size hl (.inl (Option.some.inj hh).symm)
  obtain ⟨a₃, h₃, hr₃⟩ := linkNext_ok (a := a₂) (p := a₁.tail) (some l.allocate.1) fun h hh =>
    hr₂.size ▸ ht.lt_size hl (.inr (List.mem_of_getLast? (hlast ▸ hh)))
  obtain ⟨a₄, h₄, hr₄⟩ := linkPrev_ok (a := a₃) (n := none) (some l.allocate.1) fun h hh =>
    nomatch hh
  have hr := (hr₂.trans hr₃).trans hr₄
  rw [hr₃.after, hr₃.before, hr₂.after, hr₂.before, ht.after hl, ht.before hl, hlast] at hr
  have hn : (l.allocate.1 :: handles l.queue).Nodup :=
    List.nodup_cons.mpr ⟨hl.fresh, hl.tracked.nodup⟩
  rw [pushBack_eq]
  refine ⟨a₄, ?_, ht.holds hl hr (List.perm_append_singleton _ _) ?_ ?_⟩
  · simp only [Arena.pushBack, h₁, bind, Except.bind, h₂, h₃, h₄, pure, Except.pure]
  · have hf := hl.forth.append hl.fresh ((List.perm_append_singleton _ _).nodup_iff.mpr hn)
    simpa [handles] using hf
  · have hb := hl.back.cons (h := l.allocate.1) (by simpa using hn)
    simpa [handles] using hb

theorem Holds.pushFront (hl : a.Holds l) (o : Order α) :
    ∃ a', a.pushFront o = .ok ((l.pushFront o).1, a') ∧ a'.Holds (l.pushFront o).2 := by
  obtain ⟨a₁, h₁, ht⟩ := hl.allocate o
  have hfirst : a₁.head = (handles l.queue).head? := by
    rw [ht.head]
    exact hl.forth.cut [] _ rfl
  obtain ⟨a₂, h₂, hr₂⟩ := linkNext_ok (a := a₁) (p := some l.allocate.1) a₁.head fun h hh =>
    ht.lt_size hl (.inl (Option.some.inj hh).symm)
  obtain ⟨a₃, h₃, hr₃⟩ := linkPrev_ok (a := a₂) (n := a₁.head) (some l.allocate.1) fun h hh =>
    hr₂.size ▸ ht.lt_size hl (.inr (List.mem_of_head? (hfirst ▸ hh)))
  obtain ⟨a₄, h₄, hr₄⟩ := linkNext_ok (a := a₃) (p := none) (some l.allocate.1) fun h hh =>
    nomatch hh
  have hr := (hr₂.trans hr₃).trans hr₄
  rw [hr₃.after, hr₃.before, hr₂.after, hr₂.before, ht.after hl, ht.before hl, hfirst] at hr
  have hn : (l.allocate.1 :: handles l.queue).Nodup :=
    List.nodup_cons.mpr ⟨hl.fresh, hl.tracked.nodup⟩
  rw [pushFront_eq]
  refine ⟨a₄, ?_, ht.holds hl hr (.refl _) ?_ ?_⟩
  · simp only [Arena.pushFront, h₁, bind, Except.bind, h₂, h₃, h₄, pure, Except.pure]
  · exact hl.forth.cons hn
  · have hb := hl.back.append (h := l.allocate.1) (by simpa using hl.fresh)
      ((List.perm_append_singleton _ _).nodup_iff.mpr (by simpa using hn))
    simpa [handles] using hb

theorem remove_none {h : Int} (hg : a.get? h = none) : a.remove h = .ok (none, a) := by
  cases h with
  | negSucc h => rfl
  | ofNat h =>
    have hs : (a.slots[h]?).bind (·.order) = none := hg
    simp only [Arena.remove]
    split
    · rfl
    · rfl
    · next o p n ho => simp [ho] at hs

theorem remove_some {a₁ a₂ : Arena α} {p n : Option Handle} {s : Slot α}
    (hs : a.slots[h]? = some ⟨some o, p, n⟩) (h₁ : a.linkNext p n = .ok a₁)
    (h₂ : a₁.linkPrev n p = .ok a₂) (hs₂ : a₂.slots[h]? = some s) :
    a.remove h = .ok (some o, { a₂.set h ⟨none, none, none⟩ with
      free := h :: a₂.free, count := a₂.count - 1 }) := by
  change a.remove (.ofNat h) = _
  simp only [Arena.remove, hs, h₁, h₂, bind, Except.bind, change_eq hs₂, pure, Except.pure]
  rfl

theorem Relinks.loses {a₂ : Arena α} {front back : List (Resting α)} {r : Resting α}
    (hl : a.Holds l) (hq : l.queue = front ++ r :: back)
    (hr : Relinks a a₂ (Function.update a.after (handles front).getLast? (handles back).head?)
      (Function.update a.before (handles back).head? (handles front).getLast?)) :
    Holds { a₂.set r.handle ⟨none, none, none⟩ with
      free := r.handle :: a₂.free, count := a₂.count - 1 } (l.lose r (front ++ back)) := by
  have hh : handles l.queue = handles front ++ r.handle :: handles back := by simp [hq, handles]
  have hn : (handles front ++ r.handle :: handles back).Nodup := hh ▸ hl.tracked.nodup
  have hkept : handles (front ++ back) = handles front ++ handles back := List.map_append
  have hout : r.handle ∉ handles (front ++ back) :=
    hkept ▸ (List.nodup_cons.mp (List.nodup_middle.mp hn)).1
  have hsize : r.handle < a₂.slots.size := by
    rw [hr.size]
    exact hl.lt_size.mpr (.inl (by simp [hh]))
  have hget (x : Handle) (hx : x ≠ r.handle) :
      (a₂.set r.handle ⟨none, none, none⟩).get? x = a.get? x := by
    rw [get?_set hsize, if_neg hx, hr.get]
  refine ⟨hr.price.trans hl.price, ?_, ?_, ?_, hl.tracked.lose hq, fun x hx => ?_, fun x hx => ?_,
    ?_, ?_⟩
  · exact congrArg (r.handle :: ·) (hr.free.trans hl.free)
  · exact (by simp [set] : _ = a₂.slots.size).trans (hr.size.trans hl.size)
  · change a₂.count - 1 = _
    rw [hr.count, hl.count, hq]
    simp [Level.lose]
    omega
  · have hne : x.handle ≠ r.handle := fun he => hout (he ▸ List.mem_map_of_mem hx)
    refine (hget _ hne).trans (hl.order x ?_)
    rw [hq]
    simpa [or_left_comm] using .inr (List.mem_append.mp hx)
  · by_cases he : x = r.handle
    · subst he
      exact (get?_set hsize _ _).trans (if_pos rfl)
    · exact (hget x he).trans (hl.vacant x ((List.mem_cons.mp hx).resolve_left he))
  · have hf := Runs.erase (hh ▸ hl.forth) hn
    rw [← hr.after, ← after_set hsize ⟨none, none, none⟩] at hf
    exact hkept ▸ hf
  · have hb := hl.back
    rw [hh, List.reverse_append, List.reverse_cons, List.append_assoc, List.singleton_append] at hb
    have hf := hb.erase (by simpa using List.nodup_reverse.mpr hn)
    rw [List.getLast?_reverse, List.head?_reverse, ← hr.before,
      ← before_set hsize ⟨none, none, none⟩, ← List.reverse_append] at hf
    exact hkept ▸ hf

theorem Holds.remove (hl : a.Holds l) {front back : List (Resting α)} {r : Resting α}
    (hq : l.queue = front ++ r :: back) :
    ∃ a', a.remove r.handle = .ok (some r.order, a') ∧ a'.Holds (l.lose r (front ++ back)) := by
  have hh : handles l.queue = handles front ++ r.handle :: handles back := by simp [hq, handles]
  have hr : r.handle ∈ handles l.queue := by simp [hh]
  obtain ⟨⟨order, p, n⟩, hs⟩ : ∃ s, a.slots[r.handle]? = some s :=
    ⟨_, Array.getElem?_eq_getElem (hl.lt_size.mpr (.inl hr))⟩
  have hget := hl.order r (by simp [hq])
  have hn := hl.forth.cut (handles front ++ [r.handle]) (handles back) (by simp [hh])
  have hp := hl.back.cut ((handles back).reverse ++ [r.handle]) (handles front).reverse
    (by simp [hh])
  rw [List.getLast?_concat] at hn hp
  simp only [get?, after, before, next?, prev?, slot?_natCast, hs, Option.bind_some] at hget hn hp
  subst hget
  rw [List.head?_reverse] at hp
  obtain ⟨a₁, h₁, hr₁⟩ := linkNext_ok (a := a) (p := p) n fun h hm =>
    hl.lt_size.mpr (.inl (by simp [hh, List.mem_of_getLast? (hp ▸ hm)]))
  obtain ⟨a₂, h₂, hr₂⟩ := linkPrev_ok (a := a₁) (n := n) p fun h hm =>
    hr₁.size ▸ hl.lt_size.mpr (.inl (by simp [hh, List.mem_of_head? (hn ▸ hm)]))
  have hsize : r.handle < a₂.slots.size := by
    rw [hr₂.size, hr₁.size]
    exact hl.lt_size.mpr (.inl hr)
  have hlinks := hr₁.trans hr₂
  rw [hr₁.after, hr₁.before, hn, hp] at hlinks
  exact ⟨_, remove_some hs h₁ h₂ (Array.getElem?_eq_getElem hsize), hlinks.loses hl hq⟩

theorem slot?_update (a : Arena α) (f : Order α → Order α) (h x : Handle) :
    (a.update f h).slot? x =
      if x = h then (a.slot? x).map fun s => { s with order := s.order.map f } else a.slot? x := by
  have hu : a.update f h = { a with
      slots := a.slots.modify h fun s => { s with order := s.order.map f } } := rfl
  rw [slot?_natCast, slot?_natCast, hu, Array.getElem?_modify]
  exact if_congr eq_comm rfl rfl

theorem get?_update (a : Arena α) (f : Order α → Order α) (h x : Handle) :
    (a.update f h).get? x = if x = h then (a.get? x).map f else a.get? x := by
  rw [get?, get?, slot?_update]
  split
  · cases a.slot? x <;> rfl
  · rfl

theorem after_update (a : Arena α) (f : Order α → Order α) (h : Handle) :
    (a.update f h).after = a.after := by
  refine after_congr rfl fun x => ?_
  rw [next?, next?, slot?_update]
  split
  · cases a.slot? x <;> rfl
  · rfl

theorem before_update (a : Arena α) (f : Order α → Order α) (h : Handle) :
    (a.update f h).before = a.before := by
  refine before_congr rfl fun x => ?_
  rw [prev?, prev?, slot?_update]
  split
  · cases a.slot? x <;> rfl
  · rfl

theorem handles_update (l : Level α) (h : Handle) (f : Order α → Order α) :
    handles (l.update h f).queue = handles l.queue := by
  rw [Level.update, handles, List.map_map]
  refine List.map_congr_left fun r _ => ?_
  rw [Function.comp_apply]
  split <;> rfl

theorem Holds.update (hl : a.Holds l) (f : Order α → Order α) (h : Handle) :
    (a.update f h).Holds (l.update h f) := by
  have hh := handles_update l h f
  refine ⟨hl.price, hl.free, ?_, ?_, ?_, fun r hr => ?_, fun x hx => ?_, ?_, ?_⟩
  · exact Array.size_modify.trans hl.size
  · exact hl.count.trans (by rw [Level.update, List.length_map])
  · rw [Level.Tracked, hh]
    exact hl.tracked
  · obtain ⟨r, hmem, rfl⟩ := List.mem_map.mp hr
    by_cases hrh : r.handle = h
    · rw [if_pos hrh, get?_update, if_pos hrh, hl.order r hmem, Option.map_some]
    · rw [if_neg hrh, get?_update, if_neg hrh, hl.order r hmem]
  · rw [get?_update, hl.vacant x hx]
    split <;> rfl
  · rw [after_update, hh]
    exact hl.forth
  · rw [before_update, hh]
    exact hl.back

end Holds

section Queries

open Level (handles)

variable {α : Type} {a : Arena α} {l : Level α}

theorem Holds.walk (hl : a.Holds l) : a.walk = some (handles l.queue) :=
  walk_eq_some.mpr hl.forth.path

theorem Holds.orders (hl : a.Holds l) : a.orders = some l.orders := by
  have hget : ∀ r ∈ l.queue, a.get? r.handle = some r.order := hl.order
  rw [Arena.orders, hl.walk, Option.map_some, handles, List.filterMap_map]
  refine congrArg some ((List.filterMap_congr hget).trans ?_)
  exact congrFun (List.filterMap_eq_map (f := Resting.order)) l.queue

theorem Holds.totalQty [Scalar α] (hl : a.Holds l) : a.totalQty = some l.totalQty := by
  rw [Arena.totalQty, hl.walk, Option.map_some, handles, List.foldl_map, Level.totalQty]
  refine congrArg some (List.foldl_ext _ _ _ fun sum r hr => ?_)
  rw [hl.order r hr, Option.map_some, Option.getD_some]

theorem Holds.get? (hl : a.Holds l) (h : Handle) : a.get? h = l.get? h :=
  Option.ext fun o => by
    rw [hl.get?_eq_some, Level.get?_eq_some hl.tracked]
    constructor
    · rintro ⟨r, hr, rfl, rfl⟩
      exact hr
    · exact fun hr => ⟨_, hr, rfl, rfl⟩

theorem Holds.head (hl : a.Holds l) : a.head = l.queue.head?.map (·.handle) := by
  rw [← List.head?_map]
  exact hl.forth.cut [] _ rfl

theorem Holds.peekFront? (hl : a.Holds l) : a.peekFront? = l.peekFront? := by
  rw [Arena.peekFront?, hl.head, Level.peekFront?]
  cases hq : l.queue with
  | nil => rfl
  | cons r rs => exact hl.order r (by simp [hq])

theorem Holds.isEmpty (hl : a.Holds l) : a.isEmpty = l.isEmpty := by
  rw [Arena.isEmpty, hl.count, Level.isEmpty]
  cases l.queue <;> simp
  omega

end Queries

end LimitBook.Arena
