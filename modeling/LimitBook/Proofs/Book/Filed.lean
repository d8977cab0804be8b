import LimitBook.Book
import LimitBook.Proofs.Ladder

namespace LimitBook

@[simp]
theorem Side.opposite_opposite (side : Side) : side.opposite.opposite = side := by
  cases side <;> rfl

theorem Side.opposite_ne (side : Side) : side.opposite ≠ side := by cases side <;> decide

theorem Side.forall_of {P : Side → Prop} (side : Side) (h : P side) (h' : P side.opposite) :
    ∀ s, P s := by
  intro s
  cases side <;> cases s
  exacts [h, h', h', h]

section Entries

variable {α : Type} [Scalar α]

def filedAs? (c : α × Handle × Order α) : Option (OrderId × Place α) :=
  c.2.2.party.id?.map fun id => (id, ⟨c.2.2.side, c.1, c.2.1⟩)

def Level.entries (k : Level α) : List (OrderId × Place α) := k.census.filterMap filedAs?

def Ladder.entries (ks : List (Level α)) : List (OrderId × Place α) := ks.flatMap Level.entries

theorem Ladder.entries_eq (ks : List (Level α)) :
    Ladder.entries ks = (ks.flatMap Level.census).filterMap filedAs? :=
  (List.filterMap_flatMap ..).symm

def ids (os : List (Order α)) : List OrderId := os.filterMap (·.party.id?)

theorem ids_terms (os : List (Order α)) : ids (os.map Order.terms) = ids os := by
  rw [ids, List.filterMap_map]
  rfl

omit [Scalar α] in
theorem entries_ids (cs : List (α × Handle × Order α)) :
    (cs.filterMap filedAs?).map Prod.fst = ids (cs.map (·.2.2)) := by
  rw [List.map_filterMap, ids, List.filterMap_map]
  refine List.filterMap_congr fun c _ => ?_
  simp [filedAs?, Option.map_map, Function.comp_def]

omit [Scalar α] in
theorem filter_gone {index left gone : List (OrderId × Place α)} {is : List OrderId}
    (h : index.Perm (left ++ gone)) (hn : (index.map Prod.fst).Nodup)
    (hi : is.Perm (gone.map Prod.fst)) :
    (index.filter fun e => decide (e.1 ∉ is)).Perm left := by
  have hn' := (h.map Prod.fst).nodup_iff.mp hn
  rw [List.map_append, List.nodup_append] at hn'
  refine (h.filter _).trans (List.Perm.of_eq ?_)
  rw [List.filter_append, List.filter_eq_self.mpr, List.filter_eq_nil_iff.mpr, List.append_nil]
  · intro e he
    simpa using hi.mem_iff.mpr (List.mem_map_of_mem he)
  · intro e he
    refine decide_eq_true fun hm => ?_
    exact hn'.2.2 _ (List.mem_map_of_mem he) _ (hi.mem_iff.mp hm) rfl

theorem mem_entries {k : Level α} {id : OrderId} {p : Place α} :
    (id, p) ∈ k.entries ↔
      ∃ r ∈ k.queue, r.order.party = .local id ∧ p = ⟨r.order.side, k.price, r.handle⟩ := by
  simp only [Level.entries, Level.census, List.mem_filterMap, List.mem_map]
  constructor
  · rintro ⟨_, ⟨r, hr, rfl⟩, he⟩
    refine ⟨r, hr, ?_⟩
    cases hp : r.order.party with
    | external => simp [filedAs?, Resting.terms, Order.terms, hp, Party.id?] at he
    | «local» id' =>
      simp only [filedAs?, Resting.terms, Order.terms, hp, Party.id?, Option.map_some,
        Option.some.injEq, Prod.mk.injEq] at he
      exact ⟨by rw [he.1], he.2.symm⟩
  · rintro ⟨r, hr, hp, rfl⟩
    refine ⟨_, ⟨r, hr, rfl⟩, ?_⟩
    simp [filedAs?, Resting.terms, Order.terms, hp, Party.id?]

end Entries

namespace Book

variable {α : Type}

section Parts

variable (b : Book α) (side : Side) (l : Ladder α) (id : OrderId) (p : Place α)

@[simp]
theorem setLadder_self : (b.setLadder side l).ladder side = l := by cases side <;> rfl

@[simp]
theorem setLadder_opposite :
    (b.setLadder side l).ladder side.opposite = b.ladder side.opposite := by cases side <;> rfl

@[simp]
theorem setLadder_index : (b.setLadder side l).index = b.index := by cases side <;> rfl

@[simp]
theorem setLadder_arrivals : (b.setLadder side l).arrivals = b.arrivals := by cases side <;> rfl

@[simp]
theorem arrivals_ladder (n : Nat) : { b with arrivals := n }.ladder side = b.ladder side := by
  cases side <;> rfl

@[simp]
theorem forget_ladder : (b.forget id).ladder side = b.ladder side := by cases side <;> rfl

@[simp]
theorem enter_ladder : (b.enter id p).ladder side = b.ladder side := by cases side <;> rfl

theorem release_eq (os : List (Order α)) :
    b.release os = { b with index := b.index.filter fun e => decide (e.1 ∉ ids os) } := by
  unfold release
  induction os generalizing b with
  | nil => simp [ids]
  | cons o os ih =>
    rw [List.foldl_cons, ih]
    cases ho : o.party with
    | external => simp [ids, ho, Party.id?]
    | «local» id =>
      have hids : ids (o :: os) = id :: ids os := by simp [ids, ho, Party.id?]
      simp only [hids, forget, List.filter_filter, List.mem_cons, not_or, Bool.decide_and,
        Bool.and_comm]

@[simp]
theorem release_ladder (os : List (Order α)) : (b.release os).ladder side = b.ladder side := by
  rw [release_eq]
  cases side <;> rfl

@[simp]
theorem release_arrivals (os : List (Order α)) : (b.release os).arrivals = b.arrivals := by
  rw [release_eq]

end Parts

section Levels

variable [Scalar α] {k : Level α}

theorem entries_eq (k : Level α) :
    k.entries = k.queue.filterMap fun r => filedAs? (k.price, r.terms) := by
  rw [Level.entries, Level.census, List.filterMap_map]
  rfl

theorem filedAs?_local {o : Order α} {id : OrderId} (ho : o.party = .local id) (p : α)
    (a : Handle) :
    filedAs? (p, (⟨a, o⟩ : Resting α).terms) = some (id, ⟨o.side, p, a⟩) := by
  simp [filedAs?, Resting.terms, Order.terms, ho, Party.id?]

theorem filedAs?_external {o : Order α} (ho : o.party = .external) (p : α) (a : Handle) :
    filedAs? (p, (⟨a, o⟩ : Resting α).terms) = none := by
  simp [filedAs?, Resting.terms, Order.terms, ho, Party.id?]

theorem lose_entries {k : Level α} {front back : List (Resting α)} {r : Resting α}
    (hq : k.queue = front ++ r :: back) :
    k.entries.Perm
      ((filedAs? (k.price, r.terms)).toList ++ (k.lose r (front ++ back)).entries) := by
  rw [entries_eq, entries_eq, hq]
  simp only [Level.lose, List.filterMap_append, List.filterMap_cons]
  cases filedAs? (k.price, r.terms) with
  | none => exact .refl _
  | some e => exact List.perm_middle

omit [Scalar α] in
theorem aggregate?_eq_some {r : Resting α} :
    aggregate? k = some r ↔ ∃ rs, k.queue = r :: rs ∧ r.order.party = .external := by
  unfold aggregate?
  cases hq : k.queue with
  | nil => simp
  | cons r' rs =>
    simp only [List.head?_cons, Option.filter_eq_some_iff, Option.some.injEq, Bool.not_eq_true',
      Order.isLocal_eq_false_iff]
    constructor
    · rintro ⟨rfl, hp⟩
      exact ⟨rs, rfl, hp⟩
    · rintro ⟨_, he, hp⟩
      cases he
      exact ⟨rfl, hp⟩

theorem updateFront_entries {f : Order α → Order α} (hf : ∀ o, (f o).party = o.party)
    (ha : (aggregate? k).isSome = true) : (k.updateFront f).entries = k.entries := by
  obtain ⟨r, hr⟩ := Option.isSome_iff_exists.mp ha
  obtain ⟨rs, hq, hp⟩ := aggregate?_eq_some.mp hr
  have hq' : (k.updateFront f).queue = ⟨r.handle, f r.order⟩ :: rs := by
    simp [Level.updateFront, hq]
  rw [entries_eq, entries_eq, hq, hq', Level.updateFront_price]
  simp only [List.filterMap_cons]
  rw [filedAs?_external hp, filedAs?_external ((hf _).trans hp)]

theorem pushFront_entries {o : Order α} (ho : o.party = .external) :
    (k.pushFront o).2.entries = k.entries := by
  rw [entries_eq, entries_eq, Level.pushFront_queue, Level.pushFront_price]
  simp only [List.filterMap_cons]
  rw [filedAs?_external ho]

end Levels

variable [Scalar α]

/-- The levels of a side from best to worst. -/
def levels (b : Book α) (side : Side) : List (Level α) := (b.ladder side).ranked

/-- The levels stand in order, and the index holds their local orders, each id once. -/
structure Filed (b : Book α) : Prop where
  ranks : ∀ side, (b.ladder side).Ranks side (b.levels side)
  kept : ∀ side, ∀ k ∈ b.levels side, k.Kept side
  index : b.index.Perm (Ladder.entries (b.levels .buy) ++ Ladder.entries (b.levels .sell))
  nodup : (b.index.map Prod.fst).Nodup

variable [Scalar.Lawful α] {b b' : Book α} {side : Side} {ks js : List (Level α)}

theorem levels_eq (h : (b.ladder side).Ranks side ks) : b.levels side = ks := h.ranked

theorem filed_of_ranks (hk : (b.ladder side).Ranks side ks)
    (hj : (b.ladder side.opposite).Ranks side.opposite js) (hks : ∀ k ∈ ks, k.Kept side)
    (hjs : ∀ k ∈ js, k.Kept side.opposite)
    (hi : b.index.Perm (Ladder.entries ks ++ Ladder.entries js))
    (hn : (b.index.map Prod.fst).Nodup) : b.Filed := by
  obtain rfl := levels_eq hk
  obtain rfl := levels_eq hj
  cases side with
  | buy =>
    exact ⟨fun s => by cases s; exacts [hk, hj], fun s => by cases s; exacts [hks, hjs], hi, hn⟩
  | sell =>
    exact ⟨fun s => by cases s; exacts [hj, hk], fun s => by cases s; exacts [hjs, hks],
      hi.trans List.perm_append_comm, hn⟩

omit [Scalar.Lawful α] in
theorem Filed.entries (h : b.Filed) (side : Side) :
    b.index.Perm
      (Ladder.entries (b.levels side) ++ Ladder.entries (b.levels side.opposite)) := by
  cases side with
  | buy => exact h.index
  | sell => exact h.index.trans List.perm_append_comm

theorem filed_empty (symbol : Text) : (empty symbol : Book α).Filed := by
  have hr : ∀ side, ((empty symbol : Book α).ladder side).Ranks side [] := fun side => by
    cases side <;> exact Ladder.ranks_empty _
  exact filed_of_ranks (hr .buy) (hr .sell) (by simp) (by simp) .nil .nil

theorem Filed.clear (h : b.Filed) : b.clear.Filed := by
  have hr : ∀ side, (b.clear.ladder side).Ranks side [] := fun side => by
    cases side
    · exact (h.ranks .buy).clear
    · exact (h.ranks .sell).clear
  exact filed_of_ranks (hr .buy) (hr .sell) (by simp) (by simp) .nil .nil

omit [Scalar.Lawful α] in
theorem leaves_entries {gone : List (α × Handle × Order α)} (h : Ladder.Leaves side ks js gone) :
    (Ladder.entries js ++ gone.filterMap filedAs?).Perm (Ladder.entries ks) := by
  have hp := h.census.filterMap filedAs?
  rwa [List.filterMap_append, ← Ladder.entries_eq, ← Ladder.entries_eq] at hp

/-- When trading leaves the levels `ks` and `js` of the two sides, the orders used up are released
from the index. -/
theorem Filed.release (h : b.Filed) (b' : Book α) (hi : b'.index = b.index)
    (hk : (b'.ladder side).Ranks side ks)
    (hj : (b'.ladder side.opposite).Ranks side.opposite js)
    {gone gone' : List (α × Handle × Order α)} (hks : Ladder.Leaves side (b.levels side) ks gone)
    (hjs : Ladder.Leaves side.opposite (b.levels side.opposite) js gone')
    {exhausted : List (Order α)}
    (he : (exhausted.map Order.terms).Perm ((gone ++ gone').map (·.2.2))) :
    (b'.release exhausted).Filed := by
  have hleft : b.index.Perm ((Ladder.entries ks ++ Ladder.entries js) ++
      (gone.filterMap filedAs? ++ gone'.filterMap filedAs?)) :=
    ((h.entries side).trans ((leaves_entries hks).symm.append (leaves_entries hjs).symm)).trans
      (Ladder.perm_exchange _ _ _ _)
  have hids : (ids exhausted).Perm
      ((gone.filterMap filedAs? ++ gone'.filterMap filedAs?).map Prod.fst) := by
    rw [← List.filterMap_append, entries_ids, ← ids_terms]
    exact he.filterMap _
  refine filed_of_ranks (by rwa [release_ladder]) (by rwa [release_ladder]) hks.kept hjs.kept ?_ ?_
  · rw [release_eq, hi]
    exact filter_gone hleft h.nodup hids
  · rw [release_eq, hi]
    exact h.nodup.sublist (List.filter_sublist.map _)

/-- `k'` comes where `k` stood, or where there was no level; without orders it does not stand.
Nothing else changes in the ladders. -/
structure Changes (b b' : Book α) (side : Side) (k k' : Level α) : Prop where
  swaps : Ladder.Swaps k k' (b.levels side) (b'.levels side)
  found : k ∈ b.levels side ∨ k = Level.empty k.price
  price : k'.price = k.price
  stands : ∀ j ∈ b'.levels side, j ∈ b.levels side ∨ j = k' ∧ k'.queue ≠ []
  opposite : b'.levels side.opposite = b.levels side.opposite

theorem changes_of_ranks {front old back : List (Level α)} {k k' : Level α}
    (hlevels : b.levels side = front ++ old ++ back) (hold : Ladder.Shows k old)
    (hempty : old = [] → k = Level.empty k.price) (hprice : k'.price = k.price)
    (hk : (b'.ladder side).Ranks side (front ++ Ladder.kept k' ++ back))
    (hj : b'.ladder side.opposite = b.ladder side.opposite) : Changes b b' side k k' where
  swaps := ⟨front, old, Ladder.kept k', back, hlevels, levels_eq hk, hold, Ladder.shows_kept k'⟩
  found := by
    obtain rfl | ⟨rfl, -⟩ := hold
    · exact .inl (by simp [hlevels])
    · exact .inr (hempty rfl)
  price := hprice
  stands j hj := by
    rw [levels_eq hk] at hj
    rw [hlevels]
    simp only [List.append_assoc, List.mem_append, Ladder.mem_kept] at hj ⊢
    obtain hj | hj | hj := hj
    · exact .inl (.inl hj)
    · exact .inr ⟨hj.1, hj.1 ▸ hj.2⟩
    · exact .inl (.inr (.inr hj))
  opposite := by rw [levels, hj, levels]

theorem Filed.change (h : b.Filed) {k k' : Level α} (hs : Ladder.Swaps k k' (b.levels side) ks)
    (hk : (b'.ladder side).Ranks side ks)
    (hj : b'.ladder side.opposite = b.ladder side.opposite) (hkept : k'.Kept side)
    (hi : ∀ rest, b.index.Perm (k.entries ++ rest) → b'.index.Perm (k'.entries ++ rest))
    (hn : (b'.index.map Prod.fst).Nodup) : b'.Filed := by
  have hjr : (b'.ladder side.opposite).Ranks side.opposite (b.levels side.opposite) :=
    hj ▸ h.ranks side.opposite
  have hks : ∀ j ∈ ks, j.Kept side := fun j hj =>
    (hs.mem hj).elim (fun he => he ▸ hkept) (h.kept side j)
  have hnil : ∀ j : Level α, j.queue = [] → j.entries = [] := fun j hq => by
    simp [Level.entries, Level.census, hq]
  refine filed_of_ranks hk hjr hks (h.kept side.opposite) ?_ hn
  obtain ⟨rest, hr, hr'⟩ := hs.flatMap hnil
  have hi' := hi (rest ++ Ladder.entries (b.levels side.opposite))
    (((h.entries side).trans (hr.append_right _)).trans (by rw [List.append_assoc]))
  rw [← List.append_assoc] at hi'
  exact hi'.trans (hr'.symm.append_right _)

omit [Scalar α] [Scalar.Lawful α] in
theorem lookup_eq_some {index : List (OrderId × Place α)} (hn : (index.map Prod.fst).Nodup)
    {id : OrderId} {p : Place α} : index.lookup id = some p ↔ (id, p) ∈ index := by
  rw [List.lookup_eq_some_iff]
  constructor
  · rintro ⟨before, after, rfl, -⟩
    simp
  · intro hm
    obtain ⟨before, after, rfl⟩ := List.append_of_mem hm
    refine ⟨before, after, rfl, fun e he => ?_⟩
    rw [List.map_append, List.nodup_append] at hn
    exact bne_iff_ne.mpr fun hid => hn.2.2 e.1 (List.mem_map_of_mem he) id (by simp) hid.symm

omit [Scalar.Lawful α] in
theorem Filed.place?_eq_some (h : b.Filed) {id : OrderId} {p : Place α} :
    b.place? id = some p ↔ ∃ k ∈ b.levels p.side, k.price = p.price ∧
      ∃ o, ⟨p.handle, o⟩ ∈ k.queue ∧ o.party = .local id := by
  rw [place?, lookup_eq_some h.nodup, (h.entries p.side).mem_iff, List.mem_append]
  constructor
  · rintro hm
    obtain ⟨side, hm⟩ : ∃ side, (id, p) ∈ Ladder.entries (b.levels side) := hm.elim
      (fun hm => ⟨_, hm⟩) fun hm => ⟨_, hm⟩
    obtain ⟨k, hk, he⟩ := List.mem_flatMap.mp hm
    obtain ⟨r, hr, hid, rfl⟩ := mem_entries.mp he
    obtain ⟨hside, -⟩ := (h.kept side k hk).terms r hr
    exact ⟨k, hside ▸ hk, rfl, r.order, hr, hid⟩
  · rintro ⟨k, hk, hp, o, ho, hid⟩
    obtain ⟨hside, -⟩ := (h.kept p.side k hk).terms _ ho
    exact .inl (List.mem_flatMap.mpr ⟨k, hk, mem_entries.mpr ⟨_, ho, hid, by rw [hside, hp]⟩⟩)

theorem Filed.orderAt?_eq_some (h : b.Filed) {p : Place α} {o : Order α} :
    b.orderAt? p = some o ↔ ∃ k ∈ b.levels p.side, k.price = p.price ∧ ⟨p.handle, o⟩ ∈ k.queue := by
  simp only [orderAt?, Option.bind_eq_some_iff, (h.ranks p.side).level?_eq_some]
  constructor
  · rintro ⟨k, ⟨hk, hp⟩, ho⟩
    exact ⟨k, hk, hp, (Level.get?_eq_some (h.kept p.side k hk).tracked).mp ho⟩
  · rintro ⟨k, hk, hp, ho⟩
    exact ⟨k, ⟨hk, hp⟩, (Level.get?_eq_some (h.kept p.side k hk).tracked).mpr ho⟩

theorem Filed.unique (h : b.Filed) {k j : Level α} {a : Handle} {o o' : Order α}
    (hk : k ∈ b.levels side) (hj : j ∈ b.levels side) (hp : k.price = j.price)
    (ho : ⟨a, o⟩ ∈ k.queue) (ho' : ⟨a, o'⟩ ∈ j.queue) : k = j ∧ o = o' := by
  obtain rfl := (h.ranks side).eq_of_price hk hj hp
  have hfind : ∀ o, k.get? a = some o ↔ ⟨a, o⟩ ∈ k.queue := fun o =>
    Level.get?_eq_some (h.kept side k hk).tracked
  exact ⟨rfl, Option.some.inj (((hfind o).mpr ho).symm.trans ((hfind o').mpr ho'))⟩

theorem Filed.getOrder?_eq_some (h : b.Filed) {id : OrderId} {o : Order α} :
    b.getOrder? id = some o ↔
      o.party = .local id ∧ ∃ side, ∃ k ∈ b.levels side, ∃ r ∈ k.queue, r.order = o := by
  simp only [getOrder?, Option.filter_eq_some_iff, Option.bind_eq_some_iff, h.place?_eq_some,
    h.orderAt?_eq_some]
  constructor
  · rintro ⟨⟨p, ⟨k, hk, hp, o', ho', hid⟩, j, hj, hp', ho⟩, -⟩
    obtain ⟨rfl, rfl⟩ := h.unique hk hj (hp.trans hp'.symm) ho' ho
    exact ⟨hid, p.side, k, hk, _, ho, rfl⟩
  · rintro ⟨hid, side, k, hk, r, hr, rfl⟩
    exact ⟨⟨⟨side, k.price, r.handle⟩, ⟨k, hk, rfl, r.order, hr, hid⟩, k, hk, rfl, hr⟩,
      by rw [Order.isLocal, hid]; rfl⟩

end Book

end LimitBook
