import Mathlib.Data.List.Nodup
import Mathlib.Data.List.Perm.Subperm
import Mathlib.Logic.Function.Basic
import LimitBook.Arena

namespace LimitBook.Arena

/-- Steps from one handle to the next go through the list, and end. -/
inductive Path (step : Handle → Option Handle) : Option Handle → List Handle → Prop
  | done : Path step none []
  | step {h : Handle} {hs : List Handle} : Path step (step h) hs → Path step (some h) (h :: hs)

section Path

variable {step : Handle → Option Handle} {x : Option Handle} {h : Handle} {hs hs' as : List Handle}

theorem Path.unique (hp : Path step x hs) (hp' : Path step x hs') : hs = hs' := by
  induction hp generalizing hs' with
  | done => cases hp'; rfl
  | step hp ih =>
    cases hp' with
    | step hp' => rw [ih hp']

theorem Path.suffix (hp : Path step x (as ++ h :: hs)) : Path step (some h) (h :: hs) := by
  induction as generalizing x with
  | nil =>
    cases hp with
    | step hp => exact .step hp
  | cons a as ih =>
    cases hp with
    | step hp => exact ih hp

theorem Path.nodup (hp : Path step x hs) : hs.Nodup := by
  induction hp with
  | done => exact .nil
  | @step h hs hp ih =>
    refine List.nodup_cons.mpr ⟨fun hm => ?_, ih⟩
    obtain ⟨as, bs, rfl⟩ := List.append_of_mem hm
    have hlength := congrArg List.length ((Path.step hp).unique hp.suffix)
    simp only [List.length_cons, List.length_append] at hlength
    omega

theorem Path.head? (hp : Path step x hs) : x = hs.head? := by
  cases hp <;> rfl

theorem Path.dropLast (hp : Path step x hs) : ∀ h ∈ hs.dropLast, (step h).isSome = true := by
  induction hp with
  | done => simp
  | @step h hs hp ih =>
    cases hs with
    | nil => simp
    | cons h' hs =>
      rw [List.dropLast_cons_cons]
      exact List.forall_mem_cons.mpr ⟨hp.head? ▸ rfl, ih⟩

theorem Path.length_le {n : Nat} (hp : Path step x hs)
    (hn : ∀ h, (step h).isSome = true → h < n) : hs.length ≤ n + 1 := by
  have hsub : hs.dropLast ⊆ List.range n := fun h hh =>
    List.mem_range.mpr (hn h (hp.dropLast h hh))
  have hlength := ((hp.nodup.sublist (List.dropLast_sublist hs)).subperm hsub).length_le
  rw [List.length_dropLast, List.length_range] at hlength
  omega

theorem trail_eq_some {n : Nat} : trail step n x = some hs ↔ Path step x hs ∧ hs.length ≤ n := by
  fun_induction trail step n x generalizing hs with
  | case1 n =>
    constructor
    · intro h
      cases h
      exact ⟨.done, Nat.zero_le n⟩
    · rintro ⟨hp, -⟩
      cases hp
      rfl
  | case2 h =>
    constructor
    · intro h
      cases h
    · rintro ⟨hp, hl⟩
      cases hp
      cases hl
  | case3 n h ih =>
    simp only [bind, Option.bind_eq_some_iff, pure, Option.some_inj, ih]
    constructor
    · rintro ⟨hs, ⟨hp, hl⟩, rfl⟩
      exact ⟨.step hp, Nat.succ_le_succ hl⟩
    · rintro ⟨hp, hl⟩
      cases hp with
      | step hp => exact ⟨_, ⟨hp, Nat.le_of_succ_le_succ hl⟩, rfl⟩

end Path

/-- From none on, `next` goes through `hs` and back to none, and it goes nowhere else. -/
structure Runs (next : Option Handle → Option Handle) (hs : List Handle) : Prop where
  cut : ∀ front back, hs = front ++ back → next front.getLast? = back.head?
  rest : ∀ h, h ∉ hs → next (some h) = none

section Runs

variable {next : Option Handle → Option Handle} {hs front back mid : List Handle} {h : Handle}

theorem update_same {x y : Option Handle} (hx : next x = y) : Function.update next x y = next := by
  rw [← hx, Function.update_eq_self]

theorem runs_nil (hn : ∀ x, next x = none) : Runs next [] where
  cut front back hc := by
    obtain ⟨rfl, rfl⟩ := List.append_eq_nil_iff.mp hc.symm
    exact hn none
  rest h _ := hn (some h)

theorem getLast?_ne (hh : h ∉ hs) : hs.getLast? ≠ some h :=
  fun he => hh (List.mem_of_getLast? he)

theorem getLast?_append_ne (hn : (front ++ mid).Nodup) (hm : mid ≠ []) :
    (front ++ mid).getLast? ≠ front.getLast? := by
  obtain ⟨z, hz⟩ := Option.isSome_iff_exists.mp (List.getLast?_isSome.mpr hm)
  rw [List.getLast?_append, hz, Option.some_or]
  intro he
  have hfront := List.mem_of_getLast? he.symm
  exact (List.nodup_append.mp hn).2.2 z hfront z (List.mem_of_getLast? hz) rfl

theorem Runs.path (hr : Runs next hs) : Path (fun h => next (some h)) (next none) hs := by
  suffices h : ∀ back front, hs = front ++ back →
      Path (fun h => next (some h)) (next front.getLast?) back from h hs [] rfl
  intro back
  induction back with
  | nil =>
    intro front hfront
    rw [hr.cut front [] hfront]
    exact .done
  | cons h back ih =>
    intro front hfront
    have hnext := ih (front ++ [h]) (by simp [hfront])
    rw [List.getLast?_concat] at hnext
    rw [hr.cut front _ hfront]
    exact .step hnext

theorem cut_cases {as bs : List Handle} (hc : front ++ h :: back = as ++ bs) :
    (∃ mid, front = as ++ mid ∧ bs = mid ++ h :: back) ∨
      ∃ mid, as = front ++ h :: mid ∧ back = mid ++ bs := by
  obtain ⟨mid, has, hbs⟩ | ⟨mid, hfront, hbs⟩ := List.append_eq_append_iff.mp hc
  · cases mid with
    | nil => exact .inl ⟨[], by simp [has], by simpa using hbs.symm⟩
    | cons x mid =>
      obtain ⟨rfl, hback⟩ := List.cons.inj hbs
      exact .inr ⟨mid, has, hback⟩
  · exact .inl ⟨mid, hfront, hbs⟩

theorem getLast?_middle (h m : Handle) :
    (front ++ h :: m :: mid).getLast? = (front ++ m :: mid).getLast? := by
  simp [List.getLast?_append, List.getLast?_cons_cons]

theorem Runs.insert (hr : Runs next (front ++ back)) (hn : (front ++ h :: back).Nodup) :
    Runs (Function.update (Function.update next front.getLast? (some h)) (some h) back.head?)
      (front ++ h :: back) := by
  obtain ⟨hh, hn⟩ := List.nodup_cons.mp (List.nodup_middle.mp hn)
  refine ⟨fun as bs hc => ?_, fun x hx => ?_⟩
  · obtain ⟨mid, rfl, rfl⟩ | ⟨mid, rfl, rfl⟩ := cut_cases hc
    · rw [Function.update_of_ne (getLast?_ne fun hm => hh (by simp [hm]))]
      cases mid with
      | nil => rw [List.append_nil, Function.update_self, List.nil_append, List.head?_cons]
      | cons m mid =>
        have hlast := getLast?_append_ne (hn.sublist (List.sublist_append_left _ _))
          (List.cons_ne_nil m mid)
        rw [Function.update_of_ne hlast.symm, hr.cut as (m :: mid ++ back) (by simp)]
        rfl
    · cases mid with
      | nil => rw [List.getLast?_concat, Function.update_self, List.nil_append]
      | cons m mid =>
        rw [← List.append_assoc] at hr hn hh
        have hlast := getLast?_append_ne (hn.sublist (List.sublist_append_left _ _))
          (List.cons_ne_nil m mid)
        have hnew := getLast?_ne fun hm => hh (List.mem_append_left _ hm)
        rw [getLast?_middle, Function.update_of_ne hnew, Function.update_of_ne hlast]
        exact hr.cut _ _ rfl
  · simp only [List.mem_append, List.mem_cons, not_or] at hx
    rw [Function.update_of_ne (Option.some_inj.not.mpr hx.2.1),
      Function.update_of_ne (getLast?_ne hx.1).symm]
    exact hr.rest x (by simp [hx])

theorem Runs.erase (hr : Runs next (front ++ h :: back)) (hn : (front ++ h :: back).Nodup) :
    Runs (Function.update (Function.update next front.getLast? back.head?) (some h) none)
      (front ++ back) := by
  obtain ⟨hh, hn'⟩ := List.nodup_cons.mp (List.nodup_middle.mp hn)
  refine ⟨fun as bs hc => ?_, fun x hx => ?_⟩
  · have has : h ∉ as := fun hm => hh (by simp [hc, hm])
    rw [Function.update_of_ne (getLast?_ne has)]
    obtain ⟨mid, rfl, rfl⟩ | ⟨mid, rfl, rfl⟩ := List.append_eq_append_iff.mp hc
    · cases mid with
      | nil => rw [List.append_nil, Function.update_self, List.nil_append]
      | cons m mid =>
        have hlast : (front ++ m :: mid).getLast? ≠ front.getLast? :=
          getLast?_append_ne (hn'.sublist (by simp)) (List.cons_ne_nil m mid)
        rw [Function.update_of_ne hlast, ← getLast?_middle h m]
        exact hr.cut _ _ (by simp)
    · cases mid with
      | nil => rw [List.append_nil, Function.update_self, List.nil_append]
      | cons m mid =>
        have hlast := getLast?_append_ne (List.nodup_append.mp hn).1 (List.cons_ne_nil m mid)
        rw [Function.update_of_ne hlast.symm, hr.cut as (m :: mid ++ h :: back) (by simp)]
        rfl
  · by_cases hxh : x = h
    · rw [hxh, Function.update_self]
    · simp only [List.mem_append, not_or] at hx
      rw [Function.update_of_ne (Option.some_inj.not.mpr hxh),
        Function.update_of_ne (getLast?_ne hx.1).symm]
      exact hr.rest x (by simp [hx, hxh])

theorem Runs.append (hr : Runs next hs) (hh : h ∉ hs) (hn : (hs ++ [h]).Nodup) :
    Runs (Function.update next hs.getLast? (some h)) (hs ++ [h]) := by
  have hi := Runs.insert (show Runs next (hs ++ []) by rwa [List.append_nil]) hn
  rwa [List.head?_nil,
    update_same (by rw [Function.update_of_ne (getLast?_ne hh).symm, hr.rest h hh])] at hi

theorem Runs.cons (hr : Runs next hs) (hn : (h :: hs).Nodup) :
    Runs (Function.update (Function.update next (some h) hs.head?) none (some h)) (h :: hs) := by
  rw [Function.update_comm (Option.some_ne_none h)]
  exact Runs.insert (show Runs next ([] ++ hs) from hr) hn

end Runs

section Effects

variable {α : Type} {a a' : Arena α} {h : Handle} {s : Slot α}

def after (a : Arena α) : Option Handle → Option Handle
  | none => a.head
  | some h => a.next? h

def before (a : Arena α) : Option Handle → Option Handle
  | none => a.tail
  | some h => a.prev? h

theorem after_congr (hhead : a'.head = a.head) (hnext : ∀ h : Handle, a'.next? h = a.next? h) :
    a'.after = a.after := by
  funext x
  cases x with
  | none => exact hhead
  | some h => exact hnext h

theorem before_congr (htail : a'.tail = a.tail) (hprev : ∀ h : Handle, a'.prev? h = a.prev? h) :
    a'.before = a.before := by
  funext x
  cases x with
  | none => exact htail
  | some h => exact hprev h

def set (a : Arena α) (h : Handle) (s : Slot α) : Arena α :=
  { a with slots := a.slots.setIfInBounds h s }

theorem change_eq (hs : a.slots[h]? = some s) (f : Slot α → Slot α) :
    a.change h f = .ok (a.set h (f s)) := by
  rw [change, hs, set]

theorem slot?_natCast (a : Arena α) (h : Handle) : a.slot? h = a.slots[h]? := rfl

theorem walk_eq_some {hs : List Handle} :
    a.walk = some hs ↔ Path (fun h => a.next? h) a.head hs := by
  rw [walk, trail_eq_some]
  refine and_iff_left_of_imp fun hp => hp.length_le fun h hh => ?_
  by_contra hsize
  rw [next?, slot?_natCast, Array.getElem?_eq_none (Nat.le_of_not_lt hsize)] at hh
  cases hh

theorem slot?_set (hh : h < a.slots.size) (s : Slot α) (x : Handle) :
    (a.set h s).slot? x = if x = h then some s else a.slot? x := by
  rw [slot?_natCast, slot?_natCast, set, Array.getElem?_setIfInBounds, if_pos hh]
  exact if_congr eq_comm rfl rfl

theorem after_set (hh : h < a.slots.size) (s : Slot α) :
    (a.set h s).after = Function.update a.after (some h) s.next := by
  funext x
  cases x with
  | none => rfl
  | some x =>
    rw [Function.update_apply, after, next?, slot?_set hh]
    by_cases hx : x = h <;> simp [hx, after, next?]

theorem before_set (hh : h < a.slots.size) (s : Slot α) :
    (a.set h s).before = Function.update a.before (some h) s.prev := by
  funext x
  cases x with
  | none => rfl
  | some x =>
    rw [Function.update_apply, before, prev?, slot?_set hh]
    by_cases hx : x = h <;> simp [hx, before, prev?]

theorem get?_set (hh : h < a.slots.size) (s : Slot α) (x : Handle) :
    (a.set h s).get? x = if x = h then s.order else a.get? x := by
  rw [get?, slot?_set hh]
  by_cases hx : x = h <;> simp [hx, get?]

/-- `a'` is `a` with other links: two functions on handles, of which the one is the head at none and
the other the tail. -/
structure Relinks (a a' : Arena α) (after before : Option Handle → Option Handle) : Prop where
  after : a'.after = after
  before : a'.before = before
  get : ∀ h : Handle, a'.get? h = a.get? h
  price : a'.price = a.price
  free : a'.free = a.free
  size : a'.slots.size = a.slots.size
  count : a'.count = a.count

theorem relinks_set (hs : a.slots[h]? = some s) (s' : Slot α) (he : s'.order = s.order) :
    Relinks a (a.set h s') (Function.update a.after (some h) s'.next)
      (Function.update a.before (some h) s'.prev) := by
  have hh := (Array.getElem?_eq_some_iff.mp hs).1
  refine ⟨after_set hh s', before_set hh s', fun x => ?_, rfl, rfl, by simp [set], rfl⟩
  rw [get?_set hh]
  split
  · next hx => rw [hx, get?, slot?_natCast, hs, he]; rfl
  · rfl

theorem linkNext_ok {p : Option Handle} (n : Option Handle)
    (hp : ∀ h, p = some h → h < a.slots.size) :
    ∃ a', a.linkNext p n = .ok a' ∧ Relinks a a' (Function.update a.after p n) a.before := by
  cases p with
  | none =>
    refine ⟨_, rfl, ⟨?_, ?_, fun _ => rfl, rfl, rfl, rfl, rfl⟩⟩ <;> funext x <;> cases x <;> rfl
  | some h =>
    obtain ⟨s, hs⟩ : ∃ s, a.slots[h]? = some s := ⟨_, Array.getElem?_eq_getElem (hp h rfl)⟩
    have hbefore : a.before (some h) = s.prev := by
      rw [before, prev?, slot?_natCast, hs, Option.bind_some]
    have hr := relinks_set hs { s with next := n } rfl
    rw [update_same hbefore] at hr
    exact ⟨_, change_eq hs _, hr⟩

theorem linkPrev_ok {n : Option Handle} (p : Option Handle)
    (hn : ∀ h, n = some h → h < a.slots.size) :
    ∃ a', a.linkPrev n p = .ok a' ∧ Relinks a a' a.after (Function.update a.before n p) := by
  cases n with
  | none =>
    refine ⟨_, rfl, ⟨?_, ?_, fun _ => rfl, rfl, rfl, rfl, rfl⟩⟩ <;> funext x <;> cases x <;> rfl
  | some h =>
    obtain ⟨s, hs⟩ : ∃ s, a.slots[h]? = some s := ⟨_, Array.getElem?_eq_getElem (hn h rfl)⟩
    have hafter : a.after (some h) = s.next := by
      rw [after, next?, slot?_natCast, hs, Option.bind_some]
    have hr := relinks_set hs { s with prev := p } rfl
    rw [update_same hafter] at hr
    exact ⟨_, change_eq hs _, hr⟩

theorem Relinks.trans {a'' : Arena α} {f f' g g' : Option Handle → Option Handle}
    (h : Relinks a a' f g) (h' : Relinks a' a'' f' g') : Relinks a a'' f' g' :=
  ⟨h'.after, h'.before, fun x => (h'.get x).trans (h.get x), h'.price.trans h.price,
    h'.free.trans h.free, h'.size.trans h.size, h'.count.trans h.count⟩

end Effects

end LimitBook.Arena
