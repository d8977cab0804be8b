import LimitBook.Proofs.Arena.Walk

namespace LimitBook.Arena

section Runs

open Level (handles)

variable {α : Type}

/-- What is asked of the orders at one price. -/
inductive Call (α : Type) where
  | pushBack (order : Order α)
  | pushFront (order : Order α)
  | remove (handle : Int)

inductive Answer (α : Type) where
  | placed (handle : Handle)
  | removed (order : Option (Order α))

def perform (a : Arena α) : Call α → Except (Missing α) (Answer α × Arena α)
  | .pushBack o => do
    let (h, a) ← a.pushBack o
    return (.placed h, a)
  | .pushFront o => do
    let (h, a) ← a.pushFront o
    return (.placed h, a)
  | .remove h => do
    let (o, a) ← a.remove h
    return (.removed o, a)

/-- The answers to calls one after the other, and the arena after them. -/
def performAll : Arena α → List (Call α) → Except (Missing α) (List (Answer α) × Arena α)
  | a, [] => .ok ([], a)
  | a, c :: cs => do
    let (x, a) ← a.perform c
    let (xs, a) ← a.performAll cs
    return (x :: xs, a)

/-- What a call does to a plain list of orders, each with the handle that its push answered. -/
def Call.onList (rs : List (Resting α)) : Call α × Answer α → List (Resting α)
  | (.pushBack o, .placed h) => rs ++ [⟨h, o⟩]
  | (.pushFront o, .placed h) => ⟨h, o⟩ :: rs
  | (.remove h, _) => rs.filter fun r => (r.handle : Int) ≠ h
  | _ => rs

/-- The plain list after calls and their answers. -/
def plain (calls : List (Call α)) (answers : List (Answer α)) : List (Resting α) :=
  (calls.zip answers).foldl Call.onList []

/-- The arena is a list of orders with handles: it is `rs` by its orders, by its links forth and
back, by its size and by what its handles lead to, and its free list has each unused slot once. -/
structure Lists (a : Arena α) (rs : List (Resting α)) : Prop where
  orders : a.orders = some (rs.map (·.order))
  forth : Path (fun h => a.next? h) a.head (handles rs)
  back : Path (fun h => a.prev? h) a.tail (handles rs).reverse
  size : a.size = rs.length
  isEmpty : a.isEmpty = true ↔ rs = []
  resolves : ∀ (h : Int) (o : Order α), a.get? h = some o ↔ ∃ r ∈ rs, r.handle = h ∧ r.order = o
  apart : (handles rs).Nodup
  unused : ∀ h, h ∈ a.free ↔ ∃ s, a.slots[h]? = some s ∧ s.order = none
  once : a.free.Nodup

/-- Pushes are answered with handles, and removals with orders or nothing. -/
def Call.Fits : Call α → Answer α → Prop
  | .remove _, .removed _ => True
  | .remove _, .placed _ => False
  | _, .placed _ => True
  | _, .removed _ => False

def Call.Pushes (c : Call α) (o : Order α) : Prop := c = .pushBack o ∨ c = .pushFront o

variable {a : Arena α} {l : Level α} {o : Order α} {rs : List (Resting α)}

theorem Holds.lists (hl : a.Holds l) : a.Lists l.queue where
  orders := hl.orders
  forth := hl.forth.path
  back := hl.back.path
  size := hl.count
  isEmpty := by rw [hl.isEmpty, Level.isEmpty_iff]
  resolves h o := by
    cases h with
    | ofNat h => simpa [Int.natCast_inj] using hl.get?_eq_some (h := h) (o := o)
    | negSucc h => simp [Arena.get?, slot?]
  apart := hl.tracked.nodup
  unused h := by
    rw [hl.free]
    constructor
    · exact fun hh => ⟨_, hl.slot_free hh, rfl⟩
    · rintro ⟨s, hs, ho⟩
      refine (hl.lt_size.mp (Array.getElem?_eq_some_iff.mp hs).1).resolve_left fun hh => ?_
      obtain ⟨r, hr, rfl⟩ := List.mem_map.mp hh
      have hget := hl.order r hr
      rw [Arena.get?, slot?_natCast, hs, Option.bind_some, ho] at hget
      cases hget
  once := hl.free ▸ (List.nodup_append.mp (hl.tracked.nodup_iff.mpr List.nodup_range)).2.1

theorem Holds.remove_stale (hl : a.Holds l) {h : Int} (hh : ∀ r ∈ l.queue, (r.handle : Int) ≠ h) :
    a.remove h = .ok (none, a) := by
  refine remove_none (Option.eq_none_iff_forall_ne_some.mpr fun o ho => ?_)
  obtain ⟨r, hr, he, -⟩ := (hl.lists.resolves h o).mp ho
  exact hh r hr he

theorem Holds.perform (hl : a.Holds l) (c : Call α) :
    ∃ x a' l', a.perform c = .ok (x, a') ∧ c.Fits x ∧ a'.Holds l' ∧
      l'.queue = Call.onList l.queue (c, x) := by
  cases c with
  | pushBack o =>
    obtain ⟨a', ha', hl'⟩ := hl.pushBack o
    refine ⟨.placed (l.pushBack o).1, a', _, ?_, trivial, hl', l.pushBack_queue o⟩
    rw [Arena.perform, ha']
    rfl
  | pushFront o =>
    obtain ⟨a', ha', hl'⟩ := hl.pushFront o
    refine ⟨.placed (l.pushFront o).1, a', _, ?_, trivial, hl', l.pushFront_queue o⟩
    rw [Arena.perform, ha']
    rfl
  | remove h =>
    by_cases hh : ∀ r ∈ l.queue, (r.handle : Int) ≠ h
    · refine ⟨.removed none, a, l, ?_, trivial, hl, ?_⟩
      · rw [Arena.perform, hl.remove_stale hh]
        rfl
      · exact (List.filter_eq_self.mpr fun r hr => decide_eq_true (hh r hr)).symm
    · simp only [not_forall, not_not] at hh
      obtain ⟨r, hr, rfl⟩ := hh
      obtain ⟨front, back, hq⟩ := List.append_of_mem hr
      obtain ⟨a', ha', hl'⟩ := hl.remove hq
      refine ⟨.removed (some r.order), a', _, ?_, trivial, hl', ?_⟩
      · rw [Arena.perform, ha']
        rfl
      · have hn := hl.tracked.nodup
        rw [hq] at hn
        simpa [Call.onList, hq, Level.lose, Int.natCast_inj] using (Level.filter_handle hn).symm

theorem Holds.performAll (hl : a.Holds l) (cs : List (Call α)) :
    ∃ xs a' l', a.performAll cs = .ok (xs, a') ∧ List.Forall₂ Call.Fits cs xs ∧ a'.Holds l' ∧
      l'.queue = (cs.zip xs).foldl Call.onList l.queue := by
  induction cs generalizing a l with
  | nil => exact ⟨[], a, l, rfl, .nil, hl, rfl⟩
  | cons c cs ih =>
    obtain ⟨x, a', l', ha', hx, hl', hq'⟩ := hl.perform c
    obtain ⟨xs, a'', l'', ha'', hxs, hl'', hq''⟩ := ih hl'
    refine ⟨x :: xs, a'', l'', ?_, .cons hx hxs, hl'', ?_⟩
    · simp only [Arena.performAll, ha', bind, Except.bind, ha'', pure, Except.pure]
    · rw [hq'', hq', List.zip_cons_cons, List.foldl_cons]

theorem mem_onList {r : Resting α} (hr : r ∈ rs) {c : Call α} (hc : c ≠ .remove r.handle)
    (x : Answer α) : r ∈ Call.onList rs (c, x) := by
  unfold Call.onList
  split
  · exact List.mem_append_left _ hr
  · exact List.mem_cons_of_mem _ hr
  · next h x he =>
    cases he
    exact List.mem_filter.mpr ⟨hr, decide_eq_true fun he => hc (he ▸ rfl)⟩
  · exact hr

theorem mem_foldl_onList {r : Resting α} (hr : r ∈ rs) {cs : List (Call α)}
    (hc : .remove r.handle ∉ cs) (xs : List (Answer α)) :
    r ∈ (cs.zip xs).foldl Call.onList rs := by
  induction cs generalizing rs xs with
  | nil => exact hr
  | cons c cs ih =>
    cases xs with
    | nil => exact hr
    | cons x xs =>
      obtain ⟨hne, hcs⟩ := not_or.mp (mt List.mem_cons.mpr hc)
      exact ih (mem_onList hr (Ne.symm hne) x) hcs xs

theorem Call.Pushes.placed {c : Call α} {x : Answer α} (hc : c.Pushes o) (hx : c.Fits x) :
    ∃ h, x = .placed h ∧ ⟨h, o⟩ ∈ Call.onList rs (c, x) := by
  obtain rfl | rfl := hc <;> cases x with
  | placed h => exact ⟨h, rfl, by simp [Call.onList]⟩
  | removed o => exact hx.elim

theorem placed_stays {before later : List (Call α)} {c : Call α} {xs : List (Answer α)}
    (hx : List.Forall₂ Call.Fits (before ++ c :: later) xs) (hc : c.Pushes o) :
    ∃ h, xs[before.length]? = some (.placed h) ∧ (.remove h ∉ later →
      ⟨h, o⟩ ∈ ((before ++ c :: later).zip xs).foldl Call.onList rs) := by
  induction before generalizing rs xs with
  | nil =>
    obtain ⟨x, ys, hfits, -, rfl⟩ := List.forall₂_cons_left_iff.mp hx
    obtain ⟨h, rfl, hmem⟩ := hc.placed hfits
    exact ⟨h, rfl, fun hlater => mem_foldl_onList hmem hlater ys⟩
  | cons c' before ih =>
    obtain ⟨x, ys, -, hys, rfl⟩ := List.forall₂_cons_left_iff.mp hx
    exact ih hys

/-- Whatever is pushed and removed, the arena is a plain list of orders with handles, a handle is
an order's own until the order is removed, and no call ends in an error. A removal takes out the
one order that it names, or it changes nothing; and a walk that reads on before it takes orders out
goes through the whole list. -/
theorem lists_after (price : α) (calls : List (Call α)) :
    ∃ answers a, (empty price).performAll calls = .ok (answers, a) ∧
      let rs := plain calls answers
      a.Lists rs ∧
      (∀ before c later o, calls = before ++ c :: later → c.Pushes o →
        ∃ h : Handle, answers[before.length]? = some (.placed h) ∧
          (.remove h ∉ later → a.get? h = some o)) ∧
      (∀ front r back, rs = front ++ r :: back →
        ∃ a', a.remove r.handle = .ok (some r.order, a') ∧ a'.Lists (front ++ back)) ∧
      (∀ h, (∀ r ∈ rs, (r.handle : Int) ≠ h) → a.remove h = .ok (none, a)) ∧
      ∀ (σ : Type) (turn : σ → Order α → σ × Bool) (s : σ), ∃ a',
        visit turn rs.length a.head s a =
          some (.ok (rs.foldl (fun s r => (turn s r.order).1) s, a')) ∧
        a'.Lists (parted turn s rs).1 := by
  obtain ⟨answers, a, l, ha, hx, hl, hq⟩ := (holds_empty price).performAll calls
  refine ⟨answers, a, ha, ?_⟩
  intro rs
  have hrs : l.queue = rs := hq
  clear_value rs
  subst hrs
  refine ⟨hl.lists, ?_, ?_, fun h hh => hl.remove_stale hh, ?_⟩
  · rintro before c later o rfl hc
    obtain ⟨h, hh, hstays⟩ := placed_stays hx hc
    exact ⟨h, hh, fun hlater => hl.order _ (hq ▸ hstays hlater)⟩
  · intro front r back hrs
    obtain ⟨a', ha', hl'⟩ := hl.remove hrs
    exact ⟨a', ha', hl'.lists⟩
  · intro σ turn s
    obtain ⟨a', ha', hl'⟩ := hl.visit turn s
    exact ⟨a', ha', hl'.lists⟩

end Runs

end LimitBook.Arena
