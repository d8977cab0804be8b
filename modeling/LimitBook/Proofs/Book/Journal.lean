import LimitBook.Proofs.Book.Update

namespace LimitBook

def Order.tally {α : Type} (o : Order α) : α × α := (o.remaining, o.filled)

abbrev Journal (α : Type) := OrderId → Option (α × α)

namespace Journal

variable {α : Type}

def empty : Journal α := fun _ => none

def set (j : Journal α) (id : OrderId) (tally : Option (α × α)) : Journal α :=
  fun i => if i = id then tally else j i

/-- A fill takes its quantity off the passive party, which is struck out when nothing remains. -/
def fill [Scalar α] (j : Journal α) (f : Fill α) : Journal α :=
  match f.passive with
  | .external => j
  | .local id => j.set id <| (j id).bind fun tally =>
      let remaining := leftOver tally.1 f.quantity
      if remaining == Scalar.zero then none else some (remaining, tally.2 + f.quantity)

def fills [Scalar α] (j : Journal α) (fs : List (Fill α)) : Journal α := fs.foldl fill j

def Tells (j : Journal α) (os : List (Order α)) : Prop :=
  ∀ id tally, j id = some tally ↔ ∃ o ∈ os, o.party = .local id ∧ o.tally = tally

section Tells

variable {j : Journal α} {o : Order α} {os os' : List (Order α)} {id : OrderId}

theorem tells_empty : (empty : Journal α).Tells [] := by
  intro id tally
  simp [empty]

theorem Tells.perm (h : j.Tells os) (hp : os.Perm os') : j.Tells os' := by
  intro id tally
  simp only [h id tally, hp.mem_iff]

theorem not_mem_ids (h : id ∉ ids os) : ∀ o ∈ os, o.party ≠ .local id := by
  intro o ho hid
  exact h (List.mem_filterMap.mpr ⟨o, ho, by rw [hid]; rfl⟩)

theorem Tells.erase (h : j.Tells (o :: os)) (ho : o.party = .local id) (hid : id ∉ ids os) :
    (j.set id none).Tells os := by
  intro i tally
  by_cases hi : i = id
  · subst hi
    simp only [set, if_true, reduceCtorEq, false_iff]
    rintro ⟨o', ho', hi, -⟩
    exact not_mem_ids hid o' ho' hi
  · have hne : o.party ≠ .local i := fun he => hi (Party.local.inj (he.symm.trans ho))
    simp only [set, hi, if_false, h i tally, List.mem_cons, exists_eq_or_imp, hne, false_and,
      false_or]

theorem Tells.insert (h : j.Tells os) (ho : o.party = .local id) (hid : id ∉ ids os) :
    (j.set id (some o.tally)).Tells (o :: os) := by
  intro i tally
  by_cases hi : i = id
  · subst hi
    simp only [set, if_true, Option.some.injEq, List.mem_cons, exists_eq_or_imp, ho, true_and]
    refine ⟨.inl, fun h => h.resolve_right ?_⟩
    rintro ⟨o', ho', hi, -⟩
    exact not_mem_ids hid o' ho' hi
  · have hne : o.party ≠ .local i := fun he => hi (Party.local.inj (he.symm.trans ho))
    simp only [set, hi, if_false, h i tally, List.mem_cons, exists_eq_or_imp, hne, false_and,
      false_or]

theorem set_set (j : Journal α) (id : OrderId) (s t : Option (α × α)) :
    (j.set id s).set id t = j.set id t := by
  funext i
  by_cases hi : i = id <;> simp [set, hi]

end Tells

section Matching

variable [Scalar α] {j : Journal α} {o taker : Order α} {os : List (Order α)} {id : OrderId} {q : α}

theorem fill_external {f : Fill α} (hf : f.passive = .external) : j.fill f = j := by
  simp [fill, hf]

theorem fills_append (j : Journal α) (fs gs : List (Fill α)) :
    j.fills (fs ++ gs) = (j.fills fs).fills gs := List.foldl_append

variable [Scalar.Lawful α]

theorem Tells.fill (h : j.Tells (o :: os)) (ho : o.party = .local id) (hid : id ∉ ids os)
    {f : Fill α} (hf : f.passive = .local id) :
    (j.fill f).Tells (if negligible (o.fill f.quantity).remaining then os
      else o.fill f.quantity :: os) := by
  have hj : j id = some o.tally := (h id o.tally).mpr ⟨o, List.mem_cons_self, ho, rfl⟩
  have hbeq := o.fill_remaining_beq f.quantity
  have hfill : j.fill f = j.set id (if negligible (o.fill f.quantity).remaining then none
      else some (o.fill f.quantity).tally) := by
    simp only [Journal.fill, hf, hj, Option.bind_some]
    rw [← hbeq]
    rfl
  rw [hfill]
  split
  · exact h.erase ho hid
  · have hinsert := (h.erase ho hid).insert (o := o.fill f.quantity) ho hid
    rwa [set_set] at hinsert

def localOrders (rs : List (Resting α)) : List (Order α) :=
  (rs.filter (·.order.isLocal)).map (·.order)

omit [Scalar α] [Scalar.Lawful α] in
theorem localOrders_external {r : Resting α} (hr : r.order.party = .external)
    (rs : List (Resting α)) : localOrders (r :: rs) = localOrders rs := by
  simp [localOrders, Order.isLocal_eq_false hr]

omit [Scalar α] [Scalar.Lawful α] in
theorem localOrders_local {r : Resting α} (hr : r.order.party = .local id)
    (rs : List (Resting α)) : localOrders (r :: rs) = r.order :: localOrders rs := by
  simp [localOrders, Order.isLocal, hr, Party.isLocal]

omit [Scalar α] [Scalar.Lawful α] in
theorem localOrders_cons (r : Resting α) (rs : List (Resting α)) :
    localOrders (r :: rs) = localOrders [r] ++ localOrders rs := by
  rw [localOrders, localOrders, localOrders, ← List.map_append, ← List.filter_append]
  rfl

omit [Scalar α] [Scalar.Lawful α] in
theorem ids_cons (ho : o.party = .local id) (os : List (Order α)) :
    ids (o :: os) = id :: ids os := by
  simp [ids, ho, Party.id?]

omit [Scalar α] [Scalar.Lawful α] in
theorem nodup_ids {os os' : List (Order α)} (h : os.Perm os') :
    (ids os).Nodup ↔ (ids os').Nodup := (h.filterMap _).nodup_iff

omit [Scalar.Lawful α] in
theorem ids_localOrders (rs : List (Resting α)) :
    ids (localOrders rs) = (rs.map Resting.terms).filterMap (·.2.party.id?) := by
  induction rs with
  | nil => rfl
  | cons r rs ih =>
    rw [List.map_cons]
    cases hp : r.order.party with
    | external =>
      rw [localOrders_external hp, ih, List.filterMap_cons_none]
      exact congrArg Party.id? hp
    | «local» id =>
      rw [localOrders_local hp, ids_cons hp, ih, List.filterMap_cons_some]
      exact congrArg Party.id? hp

omit [Scalar.Lawful α] in
theorem ids_fill (r : Resting α) (q : α) (rs : List (Resting α)) :
    ids (localOrders (⟨r.handle, r.order.fill q⟩ :: rs)) = ids (localOrders (r :: rs)) := by
  rw [ids_localOrders, ids_localOrders]
  rfl

theorem trade_tells (taker : Order α) (price q : α) {r : Resting α} {rs : List (Resting α)}
    (hn : (ids (localOrders (r :: rs) ++ os)).Nodup) (h : j.Tells (localOrders (r :: rs) ++ os)) :
    (j.fill (Match.trade taker price r.order q)).Tells
      (if negligible (r.order.fill q).remaining then localOrders rs ++ os
        else localOrders (⟨r.handle, r.order.fill q⟩ :: rs) ++ os) := by
  cases hp : r.order.party with
  | external =>
    have hp' : (⟨r.handle, r.order.fill q⟩ : Resting α).order.party = .external := hp
    have hfill : j.fill (Match.trade taker price r.order q) = j := fill_external hp
    rw [localOrders_external hp] at h
    rw [localOrders_external hp', ite_self, hfill]
    exact h
  | «local» id =>
    have hp' : (⟨r.handle, r.order.fill q⟩ : Resting α).order.party = .local id := hp
    rw [localOrders_local hp, List.cons_append] at hn h
    rw [ids_cons hp, List.nodup_cons] at hn
    rw [localOrders_local hp', List.cons_append]
    exact h.fill hp hn.1 hp

theorem draw_tells (taker : Order α) (price : α) (rs : List (Resting α))
    (hn : (ids (localOrders rs ++ os)).Nodup) (h : j.Tells (localOrders rs ++ os)) :
    (j.fills (Match.draw taker price rs).fills).Tells
      (localOrders (Match.draw taker price rs).left ++ os) := by
  fun_induction Match.draw taker price rs generalizing j os with
  | case1 => exact h
  | case2 => exact h
  | case3 taker r rs _ q maker rest fs =>
    rename_i hm ih
    have hfill := trade_tells taker price q hn h
    rw [if_pos hm] at hfill
    have hsub : (localOrders rs).Sublist (localOrders (r :: rs)) :=
      ((List.sublist_cons_self r rs).filter _).map _
    exact ih (hn.sublist ((hsub.append_right os).filterMap _)) hfill
  | case4 taker r rs _ q maker rest fs =>
    rename_i hm ih
    have hfill := trade_tells taker price q hn h
    rw [if_neg hm] at hfill
    have hperm : ∀ rs : List (Resting α), (localOrders (⟨r.handle, maker⟩ :: rs) ++ os).Perm
        (localOrders rs ++ (localOrders [⟨r.handle, maker⟩] ++ os)) := fun rs => by
      rw [localOrders_cons, List.append_assoc]
      exact List.perm_append_comm_assoc _ _ _
    rw [ids, List.filterMap_append, ← ids, ← ids_fill r q, ids, ← List.filterMap_append] at hn
    have hrest := ih ((nodup_ids (hperm rs)).mp hn) (hfill.perm (hperm rs))
    exact hrest.perm (hperm _).symm

def ladderOrders (ks : List (Level α)) : List (Order α) := ks.flatMap fun k => localOrders k.queue

omit [Scalar α] [Scalar.Lawful α] in
theorem ladderOrders_kept (k : Level α) (ks : List (Level α)) :
    ladderOrders (Ladder.kept k ++ ks) = localOrders k.queue ++ ladderOrders ks := by
  rw [ladderOrders, List.flatMap_append,
    Ladder.kept_flatMap (f := fun k => localOrders k.queue) fun hq => by rw [hq]; rfl]
  rfl

theorem sift_tells (run : Match.Run α) (ks : List (Level α))
    (hn : (ids (ladderOrders ks ++ os)).Nodup)
    (h : (j.fills run.fills).Tells (ladderOrders ks ++ os)) :
    (j.fills (Ladder.sift Match.turn ks run).1.fills).Tells
      (ladderOrders (Ladder.sift Match.turn ks run).2 ++ os) := by
  induction ks generalizing run os with
  | nil => exact h
  | cons k ks ih =>
    unfold Ladder.sift
    cases hturn : Match.turn run k with
    | none => exact h
    | some t =>
      obtain ⟨run', k', more⟩ := t
      obtain ⟨-, rfl, rfl, rfl⟩ := Match.turn_eq_some hturn
      have hcons : ladderOrders (k :: ks) = localOrders k.queue ++ ladderOrders ks := rfl
      rw [hcons, List.append_assoc] at hn h
      have hdraw := draw_tells run.taker k.price k.queue hn h
      rw [← fills_append] at hdraw
      have hsub : (ids (localOrders (run.leave k).queue ++ (ladderOrders ks ++ os))).Nodup := by
        have hs := (Match.draw_left run.taker k.price k.queue).filterMap (·.2.party.id?)
        rw [← ids_localOrders, ← ids_localOrders] at hs
        rw [ids, List.filterMap_append] at hn ⊢
        exact hn.sublist (hs.append_right _)
      have hperm :=
        List.perm_append_comm_assoc (localOrders (run.leave k).queue) (ladderOrders ks) os
      have hrest := ih (run.through k) ((nodup_ids hperm).mp hsub) (hdraw.perm hperm)
      simp only [ladderOrders_kept, List.append_assoc]
      exact hrest.perm (List.perm_append_comm_assoc _ _ _)

end Matching

end Journal

namespace Book

open Journal

variable {α : Type} [Scalar α] {b b' : Book α} {side : Side} {j : Journal α}

/-- The local orders that rest. -/
def locals (b : Book α) : List (Order α) :=
  ladderOrders (b.levels .buy) ++ ladderOrders (b.levels .sell)

theorem locals_side (b : Book α) (side : Side) :
    b.locals.Perm (ladderOrders (b.levels side) ++ ladderOrders (b.levels side.opposite)) := by
  cases side with
  | buy => exact .refl _
  | sell => exact List.perm_append_comm

omit [Scalar α] in
theorem mem_ladderOrders {ks : List (Level α)} {o : Order α} :
    o ∈ ladderOrders ks ↔ o.isLocal = true ∧ ∃ k ∈ ks, ∃ r ∈ k.queue, r.order = o := by
  simp only [ladderOrders, localOrders, List.mem_flatMap, List.mem_map, List.mem_filter]
  constructor
  · rintro ⟨k, hk, r, ⟨hr, hl⟩, rfl⟩
    exact ⟨hl, k, hk, r, hr, rfl⟩
  · rintro ⟨hl, k, hk, r, hr, rfl⟩
    exact ⟨k, hk, r, ⟨hr, hl⟩, rfl⟩

theorem entries_fst (ks : List (Level α)) :
    (Ladder.entries ks).map Prod.fst = ids (ladderOrders ks) := by
  rw [Ladder.entries_eq, entries_ids, List.map_flatMap, ids, ids, List.filterMap_flatMap,
    ladderOrders, List.filterMap_flatMap]
  refine List.flatMap_congr fun k _ => ?_
  have hl := ids_localOrders k.queue
  rw [ids] at hl
  rw [hl, Level.census, List.map_map, List.filterMap_map, List.filterMap_map]
  rfl

theorem Filed.index_ids (h : b.Filed) : (b.index.map Prod.fst).Perm (ids b.locals) := by
  have hp := h.index.map Prod.fst
  rwa [List.map_append, entries_fst, entries_fst, ids, ids, ← List.filterMap_append] at hp

theorem Filed.nodup_locals (h : b.Filed) : (ids b.locals).Nodup :=
  h.index_ids.nodup_iff.mp h.nodup

theorem Filed.mem_ids (h : b.Filed) {id : OrderId} : id ∈ ids b.locals ↔ b.hasOrder id = true := by
  rw [← h.index_ids.mem_iff, hasOrder, place?, List.lookup_isSome_iff, List.mem_map]
  refine exists_congr fun e => and_congr_right fun _ => ?_
  rw [beq_iff_eq, eq_comm]

variable [Scalar.Lawful α]

theorem Filed.getOrder?_locals (h : b.Filed) {id : OrderId} {o : Order α} :
    b.getOrder? id = some o ↔ o ∈ b.locals ∧ o.party = .local id := by
  rw [h.getOrder?_eq_some, locals, List.mem_append, mem_ladderOrders, mem_ladderOrders]
  constructor
  · rintro ⟨hid, side, hs⟩
    have hl : o.isLocal = true := by rw [Order.isLocal, hid]; rfl
    cases side with
    | buy => exact ⟨.inl ⟨hl, hs⟩, hid⟩
    | sell => exact ⟨.inr ⟨hl, hs⟩, hid⟩
  · rintro ⟨⟨-, hs⟩ | ⟨-, hs⟩, hid⟩
    · exact ⟨hid, .buy, hs⟩
    · exact ⟨hid, .sell, hs⟩

/-- A journal tells of the orders that rest when it agrees with what the book shows of every id. -/
theorem Filed.tells_iff (h : b.Filed) :
    j.Tells b.locals ↔ ∀ id, j id = (b.getOrder? id).map Order.tally := by
  constructor
  · intro hj id
    refine Option.ext fun tally => ?_
    simp only [hj id tally, Option.map_eq_some_iff, h.getOrder?_locals, and_assoc]
  · intro hj id tally
    simp only [hj id, Option.map_eq_some_iff, h.getOrder?_locals, and_assoc]

end Book

namespace Journal

variable {α : Type} [Scalar α]

def enter (j : Journal α) (o : Order α) : Journal α :=
  match o.party with
  | .external => j
  | .local id => j.set id (some o.tally)

def submitted (j : Journal α) : SubmitResult α → Journal α
  | .rejected _ => j
  | .accepted .filled fills _ _ => j.fills fills
  | .accepted _ fills _ o => (j.fills fills).enter o

def cancelled (j : Journal α) (id : OrderId) (r : CancelResult α) : Journal α :=
  if r.found then j.set id none else j

def updated (j : Journal α) : UpdateResult α → Journal α
  | .rejected .. => j
  | .applied fills _ => j.fills fills

end Journal

namespace Book

open Journal

variable {α : Type} [Scalar α] [Scalar.Lawful α] {b b' b'' : Book α} {side : Side} {j : Journal α}
  {k k' own : Level α} {u : LevelUpdate α}

omit [Scalar.Lawful α] in
theorem Changes.locals (h : Changes b b' side k k') :
    ∃ rest, b.locals.Perm (localOrders k.queue ++ rest) ∧
      b'.locals.Perm (localOrders k'.queue ++ rest) := by
  obtain ⟨rest, hr, hr'⟩ := h.swaps.flatMap (f := fun k => localOrders k.queue)
    fun k hk => by simp [localOrders, hk]
  refine ⟨rest ++ ladderOrders (b.levels side.opposite), ?_, ?_⟩
  · rw [← List.append_assoc]
    exact (b.locals_side side).trans (hr.append_right _)
  · rw [← List.append_assoc, ← h.opposite]
    exact (b'.locals_side side).trans (hr'.append_right _)

theorem Filed.matched_tells (h : b.Filed) (o : Order α) (hj : j.Tells b.locals) :
    (j.fills (b.traded o).fills).Tells (b.matched o).locals := by
  obtain ⟨-, hown, hopp⟩ := h.matched o
  have hside := b.locals_side o.side.opposite
  have hside' := (b.matched o).locals_side o.side.opposite
  rw [Side.opposite_opposite] at hside hside'
  have ht := sift_tells (j := j) ⟨o, [], []⟩ (b.levels o.side.opposite)
    ((nodup_ids hside).mp h.nodup_locals) (hj.perm hside)
  rw [← hopp, ← h.traded, ← hown] at ht
  exact ht.perm hside'.symm

theorem Filed.accept_tells (h : b.Filed) {s : Submission α} (now : α) (hs : b.refusal? s = none)
    (hj : j.Tells b.locals) : (j.submitted (b.accept s now).1).Tells (b.accept s now).2.locals := by
  have hm := h.matched_tells (b.arrive s now) hj
  rw [accept_eq]
  simp only
  split
  · exact hm
  · obtain ⟨-, k, -, hc⟩ := h.rest_traded now hs
    have hparty : (b.traded (b.arrive s now)).taker.party = .local s.id :=
      congrArg Order.party (h.traded_terms (b.arrive s now))
    obtain ⟨rest, hr, hr'⟩ := hc.locals
    have hpush : localOrders (k.pushBack (b.traded (b.arrive s now)).taker).2.queue =
        localOrders k.queue ++ [(b.traded (b.arrive s now)).taker] := by
      simp [localOrders, Level.pushBack_queue, Order.isLocal, hparty, Party.isLocal]
    rw [hpush, List.append_assoc] at hr'
    have hid : s.id ∉ ids (b.matched (b.arrive s now)).locals := fun hid => by
      rw [(h.matched _).1.mem_ids, matched_hasOrder (refusal?_eq_none hs).1] at hid
      cases hid
    have hperm := (hr'.trans List.perm_middle).trans (hr.symm.cons _)
    have hinsert := (hm.insert hparty hid).perm hperm.symm
    have henter : (j.fills (b.traded (b.arrive s now)).fills).enter
        (b.traded (b.arrive s now)).taker = (j.fills (b.traded (b.arrive s now)).fills).set s.id
          (some (b.traded (b.arrive s now)).taker.tally) := by
      simp only [Journal.enter, hparty]
    rw [← henter] at hinsert
    cases (b.traded (b.arrive s now)).fills.isEmpty <;> exact hinsert

theorem Filed.remove_tells (h : b.Filed) (id : OrderId) (hj : j.Tells b.locals) :
    (j.cancelled id (b.remove id).1).Tells (b.remove id).2.locals := by
  cases hp : b.place? id with
  | none => rwa [remove_none hp]
  | some p =>
    obtain ⟨k, front, back, r, -, hq, hid, hb, -, hc⟩ := h.remove hp
    obtain ⟨rest, hr, hr'⟩ := hc.locals
    have hloses : (localOrders k.queue).Perm (r.order :: localOrders (front ++ back)) := by
      rw [hq]
      simp only [localOrders, List.filter_append, List.map_append, List.filter_cons, Order.isLocal,
        hid, Party.isLocal, if_true, List.map_cons]
      exact List.perm_middle
    have hperm : b.locals.Perm (r.order :: (b.remove id).2.locals) :=
      (hr.trans (hloses.append_right rest)).trans (hr'.symm.cons _)
    have hnodup := (nodup_ids hperm).mp h.nodup_locals
    rw [ids_cons hid, List.nodup_cons] at hnodup
    rw [hb]
    exact (hj.perm hperm).erase hid hnodup.1

theorem Filed.dropAggregate_locals (h : b.Filed) (u : LevelUpdate α) :
    (b.dropAggregate u).locals.Perm b.locals := by
  obtain ⟨-, ⟨hb, -⟩ | ⟨k, r, rs, -, -, hq, hp, -, hc⟩⟩ := h.dropAggregate u
  · rw [hb]
  · obtain ⟨rest, hr, hr'⟩ := hc.locals
    rw [hq, localOrders_external hp] at hr
    exact hr'.trans hr.symm

omit [Scalar α] [Scalar.Lawful α] in
theorem ladderOrders_copies (ks : List (Level α)) :
    ladderOrders (Ladder.copies ks) = ladderOrders ks := by
  induction ks with
  | nil => rfl
  | cons k ks ih =>
    have hcons : Ladder.copies (k :: ks) = Ladder.kept k.locals ++ Ladder.copies ks := rfl
    rw [hcons, ladderOrders_kept, ih]
    simp [ladderOrders, localOrders, Level.locals]

omit [Scalar.Lawful α] in
theorem fills_virtually (j : Journal α) (fs : List (Fill α)) :
    j.fills (fs.map Fill.virtually) = j.fills fs := List.foldl_map

omit [Scalar.Lawful α] in
/-- An update leaves the local orders of its own side, and of the other side those that matching
leaves. -/
theorem Settles.locals {o : Order α} {m : Match.Run α × List (Level α)} (hp : Posts b b' u k own o)
    (h : Settles b' b'' u k own m) :
    b''.locals.Perm (ladderOrders m.2 ++ ladderOrders (b.levels u.side)) := by
  obtain ⟨front, back, own', hold, hnew, -, hq, -⟩ := h.own
  obtain ⟨a, hqueue⟩ := hp.queue
  have hown : localOrders own.queue = localOrders k.queue := by
    rw [hqueue, localOrders_external hp.party, localOrders, localOrders, List.filter_filter]
    simp only [Bool.and_self]
  have hown' : localOrders own'.queue = localOrders own.queue := by
    rw [hown, localOrders, localOrders, hq]
  have hsame : ladderOrders (b''.levels u.side) = ladderOrders (b'.levels u.side) := by
    rw [hnew, hold, List.append_assoc]
    have hsplit := ladderOrders_kept own' back
    simp only [ladderOrders, List.flatMap_append, List.flatMap_cons] at hsplit ⊢
    rw [hsplit, hown']
  have hperm : (ladderOrders (b'.levels u.side)).Perm (ladderOrders (b.levels u.side)) := by
    obtain ⟨rest, hr, hr'⟩ := hp.changes.swaps.flatMap (f := fun k => localOrders k.queue)
      fun k hk => by simp [localOrders, hk]
    rw [hown] at hr'
    exact hr'.trans hr.symm
  have hopp : ladderOrders (b''.levels u.side.opposite) = ladderOrders m.2 := by
    rw [← ladderOrders_copies, h.opposing]
  have hside := b''.locals_side u.side
  rw [hsame, hopp] at hside
  exact (hside.trans List.perm_append_comm).trans (hperm.append_left _)

theorem Sound.applied_tells (h : b.Sound) (now : α) (hu : u.fault? = none) (hj : j.Tells b.locals) :
    (j.fills (b.applied u now).1.1).Tells (b.applied u now).2.locals := by
  cases hn : negligible u.totalQty with
  | true =>
    obtain ⟨-, hlevels, hfills⟩ := (h.dropAggregate u).uncross
    rw [applied_of_negligible now hn, hfills, Book.locals, hlevels, hlevels]
    exact hj.perm (h.toFiled.dropAggregate_locals u).symm
  | false =>
    obtain ⟨k, own, o, hp⟩ := h.posts now hu hn
    obtain ⟨hs, hfills⟩ :=
      h.update (t := b.newAggregate u now) hp rfl rfl rfl hn (fault?_eq_none hu).2
    have hside := b.locals_side u.side.opposite
    rw [Side.opposite_opposite] at hside
    have hcopies := hside
    rw [← ladderOrders_copies] at hcopies
    have ht := sift_tells (j := j) ⟨b.newAggregate u now, [], []⟩
      (Ladder.copies (b.levels u.side.opposite))
      ((nodup_ids hcopies).mp h.nodup_locals) (hj.perm hcopies)
    rw [applied_of_counts now hn, hfills, fills_virtually]
    exact ht.perm (hs.locals hp).symm

end Book

end LimitBook
