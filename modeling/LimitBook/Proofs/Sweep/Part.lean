import LimitBook.Proofs.Ladder

namespace LimitBook.Sweep

variable {α : Type} [Scalar α]

def samePlace (m n : α × Resting α) : Bool := Scalar.same m.1 n.1 && m.2.handle == n.2.handle

/-- No two orders of a line have one place. -/
structure Seated (l : List (α × Resting α)) : Prop where
  self : ∀ m ∈ l, samePlace m m = true
  apart : l.Pairwise fun m n => samePlace m n = false ∧ samePlace n m = false

theorem seated_of_lists [Scalar.Lawful α] {l : Ladder α} {side : Side} {ks : List (Level α)}
    (h : l.Lists side ks) (hk : ∀ k ∈ ks, (Level.handles k.queue).Nodup) :
    Seated (ks.flatMap Level.seats) where
  self m hm := by
    obtain ⟨k, hk', r, -, rfl⟩ := Ladder.mem_seats.mp hm
    simp [samePlace, Scalar.same_self (h.finite k hk')]
  apart := by
    refine List.pairwise_flatMap.mpr ⟨fun k hk' => ?_, ?_⟩
    · refine List.pairwise_map.mpr ((List.pairwise_map.mp (hk k hk')).imp fun hne => ?_)
      simp [samePlace, hne, hne.symm]
    · refine h.sorted.imp_of_mem fun hi hj hb m hm n hn => ?_
      obtain ⟨r, -, rfl⟩ := List.mem_map.mp hm
      obtain ⟨s, -, rfl⟩ := List.mem_map.mp hn
      obtain ⟨hij, hji⟩ := Ladder.same_of_better (h.finite _ hi) (h.finite _ hj) hb
      simp [samePlace, hij, hji]

/-- The part of an order in a trade: the order in its place, as it is just before, and how much of
it is traded. -/
structure Part (α : Type) where
  seat : α × Resting α
  quantity : α

namespace Part

def done (p : Part α) : α × Resting α :=
  (p.seat.1, ⟨p.seat.2.handle, p.seat.2.order.fill p.quantity⟩)

def left (p : Part α) : List (α × Resting α) :=
  if negligible p.done.2.order.remaining then [] else [p.done]

def gone (p : Part α) : List (α × Resting α) :=
  if negligible p.done.2.order.remaining then [p.done] else []

def take (p : Part α) (m : α × Resting α) : α × Resting α :=
  if samePlace p.seat m then (m.1, ⟨m.2.handle, m.2.order.fill p.quantity⟩) else m

end Part

def takes (ps : List (Part α)) (m : α × Resting α) : α × Resting α :=
  ps.foldl (fun m p => p.take m) m

def spent (m : α × Resting α) : Bool := m.2.order.remaining == Scalar.zero

section Takes

variable {front back : List (α × Resting α)} {p : Part α} {ps : List (Part α)}

theorem spent_done [Scalar.Lawful α] (p : Part α) :
    spent p.done = negligible p.done.2.order.remaining := Order.fill_remaining_beq ..

theorem Part.left_or_gone [Scalar.Lawful α] (p : Part α) :
    p.left = [p.done] ∧ p.gone = [] ∧ spent p.done = false ∨
      p.left = [] ∧ p.gone = [p.done] ∧ spent p.done = true := by
  rw [spent_done]
  unfold Part.left Part.gone
  cases negligible p.done.2.order.remaining
  · exact .inl ⟨rfl, rfl, rfl⟩
  · exact .inr ⟨rfl, rfl, rfl⟩

theorem takes_of_others {m : α × Resting α} (h : ∀ p ∈ ps, samePlace p.seat m = false) :
    takes ps m = m := by
  induction ps with
  | nil => rfl
  | cons p ps ih =>
    obtain ⟨hp, hps⟩ := List.forall_mem_cons.mp h
    have hm : p.take m = m := if_neg (by simp [hp])
    rw [takes, List.foldl_cons, hm]
    exact ih hps

theorem map_take (h : Seated (front ++ p.seat :: back)) :
    (front ++ p.seat :: back).map p.take = front ++ p.done :: back := by
  have hs := h.apart
  rw [List.pairwise_append, List.pairwise_cons] at hs
  have hstay : ∀ ms : List (α × Resting α), (∀ m ∈ ms, samePlace p.seat m = false) →
      ms.map p.take = ms := fun ms hms =>
    (List.map_congr_left fun m hm => if_neg (by simp [hms m hm])).trans (List.map_id' ms)
  have hp : p.take p.seat = p.done := if_pos (h.self _ (by simp))
  rw [List.map_append, List.map_cons, hp,
    hstay front fun m hm => (hs.2.2 m hm _ List.mem_cons_self).2,
    hstay back fun m hm => (hs.2.1.1 m hm).1]

theorem Seated.done (h : Seated (front ++ p.seat :: back)) :
    Seated (front ++ p.done :: back) where
  self m hm := by
    have hself := h.self
    simp only [List.mem_append, List.mem_cons] at hself hm
    obtain hm | rfl | hm := hm
    · exact hself m (.inl hm)
    · exact hself p.seat (.inr (.inl rfl))
    · exact hself m (.inr (.inr hm))
  apart := by
    have hs := h.apart
    simp only [List.pairwise_append, List.pairwise_cons, List.mem_cons, forall_eq_or_imp] at hs ⊢
    exact hs

theorem Part.left_sublist (p : Part α) :
    (front ++ p.left ++ back).Sublist (front ++ p.done :: back) := by
  rw [List.append_assoc]
  refine List.Sublist.append_left ?_ front
  unfold Part.left
  split
  · exact List.sublist_cons_self _ _
  · exact .refl _

theorem Seated.sublist {l l' : List (α × Resting α)} (h : Seated l) (hl : l'.Sublist l) :
    Seated l' :=
  ⟨fun m hm => h.self m (hl.subset hm), h.apart.sublist hl⟩

end Takes

/-- Orders of a line have parts in trades, one after another, and those used up leave. -/
inductive Trades :
    List (α × Resting α) → List (Part α) → List (α × Resting α) → Prop where
  | nil (l : List (α × Resting α)) : Trades l [] l
  | cons {ps : List (Part α)} {l : List (α × Resting α)} (front back : List (α × Resting α))
      (p : Part α) (h : Trades (front ++ p.left ++ back) ps l) :
      Trades (front ++ p.seat :: back) (p :: ps) l

section Trades

variable {l l' l'' : List (α × Resting α)} {ps qs : List (Part α)}

theorem Trades.trans (h : Trades l ps l') (h' : Trades l' qs l'') : Trades l (ps ++ qs) l'' := by
  induction h with
  | nil => exact h'
  | cons front back p _ ih => exact .cons front back p (ih h')

theorem Trades.ahead (h : Trades l ps l') (front : List (α × Resting α)) :
    Trades (front ++ l) ps (front ++ l') := by
  induction h with
  | nil => exact .nil _
  | cons before behind p _ ih =>
    rw [List.append_assoc, ← List.append_assoc front] at ih
    rw [← List.append_assoc]
    exact .cons _ _ p (by rwa [List.append_assoc (front ++ before)])

theorem Trades.behind (h : Trades l ps l') (back : List (α × Resting α)) :
    Trades (l ++ back) ps (l' ++ back) := by
  induction h with
  | nil => exact .nil _
  | cons before behind p _ ih =>
    rw [List.append_assoc (before ++ p.left)] at ih
    rw [List.append_assoc, List.cons_append]
    exact .cons _ _ p ih

theorem trades_singleton (p : Part α) : Trades [p.seat] [p] p.left := by
  have h := Trades.cons [] [] p (.nil _)
  simpa using h

theorem Trades.place (h : Trades l ps l') :
    ∀ p ∈ ps, ∃ m ∈ l, m.1 = p.seat.1 ∧ m.2.handle = p.seat.2.handle := by
  induction h with
  | nil => simp
  | cons front back p _ ih =>
    refine List.forall_mem_cons.mpr ⟨⟨p.seat, by simp, rfl, rfl⟩, fun q hq => ?_⟩
    obtain ⟨m, hm, hp, hh⟩ := ih q hq
    have hm := p.left_sublist.subset hm
    simp only [List.mem_append, List.mem_cons] at hm ⊢
    obtain hm | rfl | hm := hm
    · exact ⟨m, .inl hm, hp, hh⟩
    · exact ⟨p.seat, .inr (.inl rfl), hp, hh⟩
    · exact ⟨m, .inr (.inr hm), hp, hh⟩

theorem Trades.others {front back : List (α × Resting α)} {p : Part α}
    (h : Trades (front ++ p.left ++ back) ps l) (hl : Seated (front ++ p.seat :: back))
    (hp : p.left = []) : ∀ q ∈ ps, samePlace q.seat p.done = false := by
  intro q hq
  rw [hp, List.append_nil] at h
  obtain ⟨m, hm, hprice, hhandle⟩ := h.place q hq
  have hs := hl.apart
  rw [List.pairwise_append, List.pairwise_cons] at hs
  have hmp : samePlace m p.seat = false := by
    obtain hm | hm := List.mem_append.mp hm
    · exact (hs.2.2 m hm _ List.mem_cons_self).1
    · exact (hs.2.1.1 m hm).2
  unfold samePlace at hmp
  rwa [hprice, hhandle] at hmp

/-- The parts of the orders of `l` account for what becomes of them. Each is a part of an order as
the parts before have left it; of the orders as they are after all of them, those with something
left are in `left`, in their places, and the others in `gone`. -/
structure Accounts (l : List (α × Resting α)) (ps : List (Part α))
    (left gone : List (α × Resting α)) : Prop where
  part : ∀ before p rest, ps = before ++ p :: rest → p.seat ∈ l.map (takes before)
  left : left = (l.map (takes ps)).filter fun m => !spent m
  gone : gone.Perm ((l.map (takes ps)).filter spent)

theorem takes_terms (ps : List (Part α)) (m : α × Resting α) :
    (takes ps m).2.terms = m.2.terms := by
  induction ps generalizing m with
  | nil => rfl
  | cons p ps ih =>
    have htake : (p.take m).2.terms = m.2.terms := by
      unfold Part.take
      split <;> rfl
    exact (ih (p.take m)).trans htake

theorem Accounts.terms {gone : List (α × Resting α)} (h : Accounts l ps l' gone) :
    ∀ p ∈ ps, ∃ m ∈ l, m.2.terms = p.seat.2.terms := by
  intro p hp
  obtain ⟨before, rest, rfl⟩ := List.append_of_mem hp
  obtain ⟨m, hm, hseat⟩ := List.mem_map.mp (h.part before p rest rfl)
  exact ⟨m, hm, by rw [← hseat, takes_terms]⟩

theorem accounts_nil (hs : ∀ m ∈ l, spent m = false) : Accounts l [] l [] := by
  have hmap : l.map (takes []) = l := List.map_id' l
  refine ⟨fun before p rest hps => ?_, ?_, ?_⟩
  · cases before <;> cases hps
  · rw [hmap, List.filter_eq_self.mpr fun m hm => by simp [hs m hm]]
  · rw [hmap, List.filter_eq_nil_iff.mpr fun m hm => by simp [hs m hm]]

variable [Scalar.Lawful α] {front back gone : List (α × Resting α)} {p : Part α}

theorem Accounts.cons (h : Accounts (front ++ p.left ++ back) ps l gone)
    (hl : Seated (front ++ p.seat :: back))
    (hp : p.left = [] → ∀ q ∈ ps, samePlace q.seat p.done = false) :
    Accounts (front ++ p.seat :: back) (p :: ps) l (p.gone ++ gone) := by
  have hmap : ∀ qs, (front ++ p.seat :: back).map (takes (p :: qs)) =
      (front ++ p.done :: back).map (takes qs) := fun qs => by
    rw [← map_take hl, List.map_map]
    rfl
  refine ⟨fun before q rest hps => ?_, ?_, ?_⟩
  · cases before with
    | nil =>
      obtain ⟨rfl, -⟩ := List.cons.inj hps
      exact List.mem_map.mpr ⟨p.seat, by simp, rfl⟩
    | cons p' before =>
      obtain ⟨rfl, hrest⟩ := List.cons.inj hps
      rw [hmap]
      exact (p.left_sublist.map _).subset (h.part before q rest hrest)
  all_goals
    obtain ⟨hleft, hgone, hspent⟩ | ⟨hleft, hgone, hspent⟩ := p.left_or_gone
  · rw [hmap, h.left, hleft, List.append_assoc, List.singleton_append]
  · rw [hmap, h.left, hleft, List.append_nil]
    simp [takes_of_others (hp hleft), hspent]
  · have hrest := h.gone
    rw [hleft, List.append_assoc, List.singleton_append] at hrest
    rwa [hmap, hgone, List.nil_append]
  · have hrest := h.gone
    rw [hleft, List.append_nil] at hrest
    rw [hmap, hgone]
    simp only [List.map_append, List.map_cons, List.filter_append, takes_of_others (hp hleft),
      List.filter_cons, hspent, if_true] at hrest ⊢
    exact (hrest.cons _).trans List.perm_middle.symm

theorem Trades.accounts (h : Trades l ps l') (hl : Seated l) (hs : ∀ m ∈ l, spent m = false) :
    Accounts l ps l' (ps.flatMap Part.gone) := by
  induction h with
  | nil => exact accounts_nil hs
  | cons front back p h ih =>
    have hleft : ∀ m ∈ p.left, spent m = false := fun m hm => by
      obtain ⟨hl, -, hp⟩ | ⟨hl, -⟩ := p.left_or_gone
      · rw [hl, List.mem_singleton] at hm
        rw [hm, hp]
      · rw [hl] at hm
        cases hm
    simp only [List.forall_mem_append, List.forall_mem_cons] at hs
    refine (ih (hl.done.sublist p.left_sublist) ?_).cons hl (h.others hl)
    simp only [List.forall_mem_append]
    exact ⟨⟨hs.1, hleft⟩, hs.2.2⟩

end Trades

end LimitBook.Sweep
