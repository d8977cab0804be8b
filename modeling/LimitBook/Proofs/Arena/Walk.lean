import LimitBook.Proofs.Arena

namespace LimitBook.Arena

open Level (handles)

variable {α σ τ : Type}

/-- What a walk through a queue leaves of it. -/
structure Passage (τ α : Type) where
  state : τ
  left : List (Resting α)
  gone : List (Resting α)

/-- Each order of a queue has its turn, from the head on, until a turn ends the walk. -/
def passed (turn : τ → Order α → Option (Turn τ α)) : τ → List (Resting α) → Passage τ α
  | s, [] => ⟨s, [], []⟩
  | s, r :: rs =>
    match turn s r.order with
    | none => ⟨s, r :: rs, []⟩
    | some t =>
      let rest := passed turn t.state rs
      if t.leaves then { rest with gone := ⟨r.handle, t.order⟩ :: rest.gone }
      else { rest with left := ⟨r.handle, t.order⟩ :: rest.left }

/-- Each turn of the one kind ends as the turn of the other kind does. -/
def Follows (R : σ → τ → Prop) (turn : σ → Order α → Trip α (Option (Turn σ α)))
    (turn' : τ → Order α → Option (Turn τ α)) : Prop :=
  ∀ s s' o, R s s' → match turn' s' o with
    | none => turn s o = pure none
    | some t => ∃ s₁, turn s o = pure (some ⟨s₁, t.order, t.leaves⟩) ∧ R s₁ t.state

section Pass

variable {a : Arena α} {l : Level α} {R : σ → τ → Prop}
  {turn : σ → Order α → Trip α (Option (Turn σ α))} {turn' : τ → Order α → Option (Turn τ α)}

theorem Holds.next? (hl : a.Holds l) {front back : List (Resting α)} {r : Resting α}
    (hq : l.queue = front ++ r :: back) : a.next? r.handle = back.head?.map (·.handle) := by
  have hcut := hl.forth.cut (handles front ++ [r.handle]) (handles back) (by simp [hq, handles])
  rw [List.getLast?_concat, handles, List.head?_map] at hcut
  exact hcut

theorem Holds.pass_append (hl : a.Holds l) (hturn : Follows R turn turn')
    (done rest : List (Resting α)) (hq : l.queue = done ++ rest) {n : Nat} (hn : rest.length ≤ n)
    {s : σ} {s' : τ} (hs : R s s') :
    ∃ s₁ a₁, pass turn n (rest.head?.map (·.handle)) s a = pure (s₁, a₁) ∧
      R s₁ (passed turn' s' rest).state ∧
      a₁.Holds (l.settle (done ++ (passed turn' s' rest).left) (passed turn' s' rest).gone) := by
  induction rest generalizing a l done n s s' with
  | nil =>
    rw [passed, ← hq]
    exact ⟨s, a, by cases n <;> rfl, hs, hl⟩
  | cons r rest ih =>
    obtain ⟨n, rfl⟩ : ∃ m, n = m + 1 := ⟨n - 1, by simp at hn; omega⟩
    have hn : rest.length ≤ n := by simpa using hn
    have hr := hturn s s' r.order hs
    simp only [List.head?_cons, Option.map_some, pass, hl.next? hq, hl.order r (by simp [hq]),
      passed]
    cases ht : turn' s' r.order with
    | none =>
      simp only [ht] at hr
      rw [← hq]
      exact ⟨s, a, by rw [hr, pure_bind], hs, hl⟩
    | some t =>
      simp only [ht] at hr
      obtain ⟨s₁, hrun, hs₁⟩ := hr
      have hl₁ := hl.update (fun _ => t.order) r.handle
      rw [hl.tracked.update_eq hq] at hl₁
      rw [hrun]
      simp only [pure_bind]
      cases t.leaves with
      | false =>
        obtain ⟨s₂, a₂, ha₂, hs₂, hl₂⟩ :=
          ih hl₁ (done ++ [⟨r.handle, t.order⟩]) (by simp) hn hs₁
        exact ⟨s₂, a₂, ha₂, hs₂, by simpa [Level.settle] using hl₂⟩
      | true =>
        obtain ⟨a₂, ha₂, hl₂⟩ := hl₁.remove rfl
        obtain ⟨s₃, a₃, ha₃, hs₃, hl₃⟩ := ih hl₂ done rfl hn hs₁
        refine ⟨s₃, a₃, ?_, hs₃, by simpa [Level.lose, Level.settle] using hl₃⟩
        rw [if_pos rfl, ha₂]
        exact ha₃

/-- A walk that changes orders in their places and takes some out is the same walk through the
queue of the level that the arena keeps, and leaves what that leaves. -/
theorem Holds.passAll (hl : a.Holds l) (hturn : Follows R turn turn') {s : σ} {s' : τ}
    (hs : R s s') : ∃ s₁ a₁, passAll turn s a = pure (s₁, a₁) ∧
      R s₁ (passed turn' s' l.queue).state ∧
      a₁.Holds (l.settle (passed turn' s' l.queue).left (passed turn' s' l.queue).gone) := by
  have hn : l.queue.length ≤ a.slots.size := by
    have hlength := hl.tracked.length_eq
    rw [List.length_append, handles, List.length_map, List.length_range, ← hl.size] at hlength
    omega
  rw [Arena.passAll, hl.head]
  exact hl.pass_append hturn [] l.queue rfl hn hs

def alone (turn : σ → Order α → Option (Turn σ α)) (s : σ) (o : Order α) :
    Trip α (Option (Turn σ α)) :=
  pure (turn s o)

theorem follows_alone (turn : σ → Order α → Option (Turn σ α)) : Follows Eq (alone turn) turn := by
  rintro s _ o rfl
  unfold alone
  cases turn s o with
  | none => rfl
  | some t => exact ⟨t.state, rfl, rfl⟩

theorem Holds.passAll_alone (hl : a.Holds l) (turn : σ → Order α → Option (Turn σ α)) (s : σ) :
    ∃ a', Arena.passAll (alone turn) s a = pure ((passed turn s l.queue).state, a') ∧
      a'.Holds (l.settle (passed turn s l.queue).left (passed turn s l.queue).gone) := by
  obtain ⟨s', a', ha', rfl, hl'⟩ := hl.passAll (follows_alone turn) (Eq.refl s)
  exact ⟨a', ha', hl'⟩

end Pass

section Visit

variable {a : Arena α} {l : Level α}

/-- Those that stay and those that leave when each order has its turn, from the head on. -/
def parted (turn : σ → Order α → σ × Bool) :
    σ → List (Resting α) → List (Resting α) × List (Resting α)
  | _, [] => ([], [])
  | s, r :: rs =>
    let (stay, gone) := parted turn (turn s r.order).1 rs
    if (turn s r.order).2 then (stay, r :: gone) else (r :: stay, gone)

def look (turn : σ → Order α → σ × Bool) (s : σ) (o : Order α) : Option (Turn σ α) :=
  some ⟨(turn s o).1, o, (turn s o).2⟩

theorem update_get {h : Handle} {o : Order α} (hg : a.get? h = some o) :
    a.update (fun _ => o) h = a := by
  obtain ⟨s, hs, ho⟩ := Option.bind_eq_some_iff.mp hg
  have hslots : a.slots.modify h (fun s => { s with order := s.order.map fun _ => o }) =
      a.slots := by
    refine Array.ext_getElem? fun i => ?_
    rw [Array.getElem?_modify]
    split
    · next hi =>
      subst hi
      have hs : a.slots[h]? = some s := hs
      rw [hs, Option.map_some, ho, Option.map_some, ← ho]
    · rfl
  change { a with slots := _ } = a
  rw [hslots]

theorem visit_eq (turn : σ → Order α → σ × Bool) (n : Nat) (h : Option Handle) (s : σ)
    (a : Arena α) : visit turn n h s a = pass (alone (look turn)) n h s a := by
  induction n generalizing h s a with
  | zero => cases h <;> rfl
  | succ n ih =>
    cases h with
    | none => rfl
    | some h =>
      cases hg : a.get? h with
      | none =>
        simp only [visit, pass, hg]
        exact ih ..
      | some o =>
        simp only [visit, pass, hg, alone, look, pure_bind, update_get hg]
        obtain ⟨s, leaves⟩ := turn s o
        cases leaves with
        | false => exact ih ..
        | true =>
          cases a.remove h with
          | error e => rfl
          | ok x => exact ih ..

theorem passed_look (turn : σ → Order α → σ × Bool) (s : σ) (rs : List (Resting α)) :
    passed (look turn) s rs = ⟨rs.foldl (fun s r => (turn s r.order).1) s,
      (parted turn s rs).1, (parted turn s rs).2⟩ := by
  induction rs generalizing s with
  | nil => rfl
  | cons r rs ih =>
    simp only [passed, look, ih, parted, List.foldl_cons]
    split <;> rfl

/-- A walk that reads on before it takes orders out goes through the whole queue, in as many turns
as there are orders. -/
theorem Holds.visit (hl : a.Holds l) (turn : σ → Order α → σ × Bool) (s : σ) :
    ∃ a', Arena.visit turn l.queue.length a.head s a =
        some (.ok (l.queue.foldl (fun s r => (turn s r.order).1) s, a')) ∧
      a'.Holds (l.settle (parted turn s l.queue).1 (parted turn s l.queue).2) := by
  obtain ⟨s', a', ha', rfl, hl'⟩ :=
    hl.pass_append (follows_alone (look turn)) [] l.queue rfl (Nat.le_refl _) (Eq.refl s)
  rw [passed_look] at ha' hl'
  rw [visit_eq, hl.head]
  exact ⟨a', ha', hl'⟩

end Visit

end LimitBook.Arena
