import Mathlib.Data.List.Nodup
import LimitBook.Proofs.Ladder.Run

namespace LimitBook.Ladder

variable {α : Type} [Scalar α]

/-- A level that a walk yields, and the ladder at that moment. -/
structure Yield (α : Type) where
  level : Level α
  ladder : Ladder α

/-- Takes note of what is yielded, and then makes the calls that the schedule has next. -/
def follow (s : List (List (Call α)) × List (Yield α)) (k : Level α) (l : Ladder α) :
    (List (List (Call α)) × List (Yield α)) × Ladder α × Bool :=
  ((s.1.tail, s.2 ++ [⟨k, l⟩]), l.after (s.1.headD []), true)

/-- What a walk yields when the calls of a schedule run between its steps. -/
def yields (l : Ladder α) (schedule : List (List (Call α))) : List (Yield α) :=
  (walk follow l.prices (schedule, []) l).1.2

/-- Looking up the prices `ps` one by one yields `ys`; after each the next calls of the schedule
run. -/
inductive Told : Ladder α → List (List (Call α)) → List α → List (Yield α) → Prop
  | done {l : Ladder α} {s : List (List (Call α))} : Told l s [] []
  | skipped {l : Ladder α} {s : List (List (Call α))} {p : α} {ps : List α} {ys : List (Yield α)} :
      l.level? p = none → Told l s ps ys → Told l s (p :: ps) ys
  | yielded {l : Ladder α} {s : List (List (Call α))} {p : α} {ps : List α} {ys : List (Yield α)}
      {k : Level α} : l.level? p = some k → Told (l.after (s.headD [])) s.tail ps ys →
        Told l s (p :: ps) (⟨k, l⟩ :: ys)

theorem walk_told (ps : List α) (schedule : List (List (Call α))) (before : List (Yield α))
    (l : Ladder α) :
    ∃ ys, (walk follow ps (schedule, before) l).1.2 = before ++ ys ∧ Told l schedule ps ys := by
  induction ps generalizing schedule before l with
  | nil => exact ⟨[], (List.append_nil _).symm, .done⟩
  | cons p ps ih =>
    cases hl : l.level? p with
    | none =>
      obtain ⟨ys, hys, ht⟩ := ih schedule before l
      exact ⟨ys, by simp only [walk, hl, hys], .skipped hl ht⟩
    | some k =>
      obtain ⟨ys, hys, ht⟩ := ih schedule.tail (before ++ [⟨k, l⟩]) (l.after (schedule.headD []))
      refine ⟨⟨k, l⟩ :: ys, ?_, .yielded hl ht⟩
      simp only [walk, hl, follow, hys, List.append_assoc, List.singleton_append]

theorem yields_told (l : Ladder α) (schedule : List (List (Call α))) :
    Told l schedule l.prices (l.yields schedule) := by
  obtain ⟨ys, hys, ht⟩ := walk_told l.prices schedule [] l
  rw [yields, hys]
  exact ht

theorem after_append (l : Ladder α) (cs ds : List (Call α)) :
    l.after (cs ++ ds) = (l.after cs).after ds := List.foldl_append

variable {l : Ladder α} {side : Side} {ks : List (Level α)} {schedule : List (List (Call α))}
  {ps : List α} {ys : List (Yield α)}

omit [Scalar α] in
theorem flatten_take_succ (n : Nat) (s : List (List (Call α))) :
    (s.take (n + 1)).flatten = s.headD [] ++ (s.tail.take n).flatten := by
  cases s <;> simp

/-- Every call of a schedule gives levels to finite prices above zero alone. -/
def Priced (schedule : List (List (Call α))) : Prop := ∀ cs ∈ schedule, ∀ c ∈ cs, c.Priced

theorem Priced.headD (hs : Priced schedule) : ∀ c ∈ schedule.headD [], c.Priced := by
  cases schedule with
  | nil => simp
  | cons cs schedule => exact hs cs List.mem_cons_self

theorem Priced.tail (hs : Priced schedule) : Priced schedule.tail :=
  fun cs hcs => hs cs (List.mem_of_mem_tail hcs)

variable [Scalar.Lawful α]

theorem Told.sublist (ht : Told l schedule ps ys) (h : l.Ranks side ks) (hs : Priced schedule) :
    (ys.map (·.level.price)).Sublist ps ∧
      ∀ y ∈ ys, y.ladder.level? y.level.price = some y.level := by
  induction ht generalizing ks with
  | done => exact ⟨.slnil, by simp⟩
  | skipped hp ht ih =>
    obtain ⟨hsub, hat⟩ := ih h hs
    exact ⟨hsub.cons _, hat⟩
  | yielded hp ht ih =>
    obtain ⟨ks', h'⟩ := h.after hs.headD
    obtain ⟨hsub, hat⟩ := ih h' hs.tail
    obtain ⟨-, rfl⟩ := h.level?_eq_some.mp hp
    exact ⟨hsub.cons_cons _, List.forall_mem_cons.mpr ⟨hp, hat⟩⟩

theorem Told.mem (ht : Told l schedule ps ys) (h : l.Ranks side ks) (hs : Priced schedule) :
    ∀ y ∈ ys, y.level.price ∈ ps :=
  fun _ hy => (ht.sublist h hs).1.subset (List.mem_map_of_mem hy)

/-- At the turn of a price, levels at prices before it have been yielded, and the calls behind
these have run: with them the level is there and is yielded, or it is not there and is skipped. -/
theorem Told.turn {front back : List α} {p : α} (ht : Told l schedule (front ++ p :: back) ys)
    (h : l.Ranks side ks) (hs : Priced schedule) :
    ∃ earlier later, ys = earlier ++ later ∧ (∀ y ∈ earlier, y.level.price ∈ front) ∧
      (∀ y ∈ later, y.level.price ∈ p :: back) ∧
      let m := l.after (schedule.take earlier.length).flatten
      (∃ k rest, m.level? p = some k ∧ later = ⟨k, m⟩ :: rest) ∨
        m.level? p = none ∧ ∀ y ∈ later, y.level.price ∈ back := by
  induction front generalizing l ks schedule ys with
  | nil =>
    refine ⟨[], ys, rfl, by simp, ht.mem h hs, ?_⟩
    cases ht with
    | skipped hp ht => exact .inr ⟨hp, ht.mem h hs⟩
    | yielded hp ht => exact .inl ⟨_, _, hp, rfl⟩
  | cons q front ih =>
    cases ht with
    | skipped hq ht =>
      obtain ⟨earlier, later, hys, hfront, hturn⟩ := ih ht h hs
      exact ⟨earlier, later, hys, fun y hy => List.mem_cons_of_mem q (hfront y hy), hturn⟩
    | yielded hq ht =>
      obtain ⟨ks', h'⟩ := h.after hs.headD
      obtain ⟨earlier, later, rfl, hfront, hback, hturn⟩ := ih ht h' hs.tail
      obtain ⟨-, rfl⟩ := h.level?_eq_some.mp hq
      refine ⟨_ :: earlier, later, rfl, List.forall_mem_cons.mpr ⟨List.mem_cons_self, ?_⟩,
        hback, ?_⟩
      · exact fun y hy => List.mem_cons_of_mem _ (hfront y hy)
      · rw [List.length_cons, flatten_take_succ, after_append]
        exact hturn

/-- A walk ends, with at most one yield for each price that the ladder had when it began. What is
yielded is in the order of these prices and is the level of its price at that moment. At the turn of
a price, when what was yielded before it has been followed by its calls, the price is skipped
exactly if it has no level; and no other price is yielded. -/
theorem walk_yields (side : Side) {calls : List (Call α)} (hc : ∀ c ∈ calls, c.Priced)
    (hs : Priced schedule) :
    let l := (empty side).after calls
    let ys := l.yields schedule
    ys.length ≤ l.prices.length ∧ (ys.map (·.level.price)).Sublist l.prices ∧
      (ys.map (·.level.price)).Pairwise (fun p q => better side p q = true) ∧
      (ys.map (·.level.price)).Nodup ∧
      (∀ y ∈ ys, y.ladder.level? y.level.price = some y.level) ∧
      (∀ front p back, l.prices = front ++ p :: back →
        ∃ earlier later, ys = earlier ++ later ∧ (∀ y ∈ earlier, y.level.price ∈ front) ∧
          (∀ y ∈ later, y.level.price ∈ p :: back) ∧
          let m := l.after (schedule.take earlier.length).flatten
          (∃ k rest, m.level? p = some k ∧ later = ⟨k, m⟩ :: rest) ∨
            m.level? p = none ∧ ∀ y ∈ ys, y.level.price ≠ p) ∧
      ∀ p, p ∉ l.prices → ∀ y ∈ ys, y.level.price ≠ p := by
  intro l ys
  obtain ⟨ks, h⟩ : ∃ ks, l.Ranks side ks := (ranks_empty side).after hc
  have ht : Told l schedule l.prices ys := yields_told l schedule
  obtain ⟨hsub, hat⟩ := ht.sublist h hs
  have hsort := h.prices_sorted
  have hnodup : l.prices.Nodup := hsort.imp better_ne
  refine ⟨by simpa using hsub.length_le, hsub, hsort.sublist hsub, hnodup.sublist hsub, hat,
    fun front p back hps => ?_, fun p hp y hy he => hp (he ▸ ht.mem h hs y hy)⟩
  rw [hps] at ht hnodup
  obtain ⟨earlier, later, hys, hfront, hback, hturn⟩ := ht.turn h hs
  refine ⟨earlier, later, hys, hfront, hback, hturn.imp_right fun ⟨hnone, hlater⟩ => ⟨hnone, ?_⟩⟩
  have hp : p ∉ front ++ back := (List.nodup_cons.mp (List.nodup_middle.mp hnodup)).1
  rw [hys]
  rintro y hy rfl
  exact hp (List.mem_append.mpr ((List.mem_append.mp hy).imp (hfront y) (hlater y)))

section Doubles

/-- Changes under a walk. A level ahead goes, a better price comes and the level at hand goes; then
the level ahead comes back, the last one goes, and a price comes between two others. -/
def askSchedule : List (List (Call Float)) :=
  [[.removeIfEmpty 3, .upsert 0.5, .removeIfEmpty 1], [.upsert 3, .removeIfEmpty 4, .upsert 2.5]]

theorem walk_yields_askSchedule :
    let calls : List (Call Float) := [.upsert 3, .upsert 1, .upsert 4, .upsert 2]
    let l := (empty .sell).after calls
    let ys := l.yields askSchedule
    (∀ c ∈ calls, c.Priced) ∧ Priced askSchedule ∧ l.prices = [1, 2, 3, 4] ∧
      ys.map (·.level.price) = [1, 2, 3] ∧ (ys.map (·.level.price)).Nodup ∧
      (∀ y ∈ ys, y.ladder.level? y.level.price = some y.level) ∧
      (∀ y ∈ ys, y.level.price ≠ 0.5) ∧ ∀ y ∈ ys, y.level.price ≠ 2.5 := by
  intro calls l ys
  have hc : ∀ c ∈ calls, c.Priced := by decide +kernel
  have hs : Priced askSchedule := by
    unfold Priced
    decide +kernel
  have hprices : l.prices = [1, 2, 3, 4] := by decide +kernel
  obtain ⟨-, -, -, hnodup, hat, -, hnew⟩ := walk_yields .sell hc hs
  have hlow : ∀ p ∈ l.prices, p ≠ 0.5 := by decide +kernel
  have hbetween : ∀ p ∈ l.prices, p ≠ 2.5 := by decide +kernel
  exact ⟨hc, hs, hprices, by decide +kernel, hnodup, hat,
    hnew 0.5 fun h => hlow 0.5 h rfl, hnew 2.5 fun h => hbetween 2.5 h rfl⟩

end Doubles

end LimitBook.Ladder
