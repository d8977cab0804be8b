import LimitBook.Proofs.Book.Filed
import LimitBook.Proofs.Match
import LimitBook.Proofs.Sweep

namespace LimitBook.Book

variable {α : Type} [Scalar α]

section Levels

variable {k : Level α} {side : Side} {b : Book α} {u : LevelUpdate α}

/-- The level with its aggregate, if it has one, at the size of an update. -/
def resized (u : LevelUpdate α) (k : Level α) : Level α :=
  if (aggregate? k).isSome then
    k.updateFront fun o =>
      { o with remaining := u.totalQty, original := u.totalQty, filled := Scalar.zero }
  else k

theorem resized_price (u : LevelUpdate α) (k : Level α) : (resized u k).price = k.price := by
  unfold resized
  split <;> simp

theorem resized_kept (h : k.Kept side) : (resized u k).Kept side := by
  unfold resized
  split
  · exact h.updateFront fun o => ⟨rfl, rfl⟩
  · exact h

theorem resized_entries : (resized u k).entries = k.entries := by
  unfold resized
  split
  · rename_i ha
    exact updateFront_entries (fun o => rfl) ha
  · rfl

def newAggregate (b : Book α) (u : LevelUpdate α) (now : α) : Order α :=
  { party := .external, side := u.side, price := u.price, remaining := u.totalQty,
    original := u.totalQty, filled := Scalar.zero, symbol := b.symbol, timestamp := now,
    arrival := b.arrivals + 1 }

/-- The level with its aggregate dated, or with a new one at its head. -/
def stamped (b : Book α) (u : LevelUpdate α) (now : α) (k : Level α) : Level α :=
  if (aggregate? k).isSome then k.updateFront fun o => { o with timestamp := now }
  else (k.pushFront (newAggregate b u now)).2

theorem stamped_price (b : Book α) (u : LevelUpdate α) (now : α) (k : Level α) :
    (stamped b u now k).price = k.price := by
  unfold stamped
  split <;> simp

theorem stamped_kept {now : α} (h : k.Kept u.side) (hp : k.price = u.price) :
    (stamped b u now k).Kept u.side := by
  unfold stamped
  split
  · exact h.updateFront fun o => ⟨rfl, rfl⟩
  · exact h.pushFront rfl hp.symm

theorem stamped_entries {now : α} : (stamped b u now k).entries = k.entries := by
  unfold stamped
  split
  · rename_i ha
    exact updateFront_entries (fun o => rfl) ha
  · exact pushFront_entries rfl

theorem resized_counted (h : k.Counted) (hu : Counts u.totalQty) : (resized u k).Counted := by
  unfold resized
  split
  · exact h.updateFront fun _ _ => hu
  · exact h

theorem stamped_counted {now : α} (h : k.Counted) (hu : Counts u.totalQty) :
    (stamped b u now k).Counted := by
  unfold stamped
  split
  · exact h.updateFront fun _ ho => ho
  · exact h.pushFront hu

theorem stamped_nonempty (now : α) (k : Level α) : (stamped b u now k).queue ≠ [] := by
  unfold stamped
  split
  · rename_i ha
    obtain ⟨r, hr⟩ := Option.isSome_iff_exists.mp ha
    obtain ⟨rs, hq, -⟩ := aggregate?_eq_some.mp hr
    simp [Level.updateFront, hq]
  · simp [Level.pushFront_queue]

end Levels

variable [Scalar.Lawful α] {b b' : Book α} {side : Side}

omit [Scalar α] [Scalar.Lawful α] in
theorem hasOrder_eq_false_iff {id : OrderId} :
    b.hasOrder id = false ↔ ∀ e ∈ b.index, e.1 ≠ id := by
  rw [hasOrder, place?, Option.isSome_eq_false_iff, Option.isNone_iff_eq_none,
    List.lookup_eq_none_iff]
  simp only [bne_iff_ne, ne_comm]

omit [Scalar.Lawful α] in
theorem rest_arrivals (id : OrderId) (o : Order α) : (b.rest id o).arrivals = b.arrivals :=
  setLadder_arrivals ..

theorem Filed.rest (h : b.Filed) {id : OrderId} {o : Order α} (ho : o.party = .local id)
    (hid : b.hasOrder id = false) (hp : Scalar.isPositive o.price = true) :
    (b.rest id o).Filed ∧
      ∃ k, k.price = o.price ∧ Changes b (b.rest id o) o.side k (k.pushBack o).2 := by
  obtain ⟨front, old, back, hlevels, hold, hr, hkp, hkept, hempty⟩ :=
    (h.ranks o.side).upsert (h.kept o.side) hp
  generalize hk : ((b.ladder o.side).upsert o.price).1 = k at *
  have hrest : b.rest id o = (b.setLadder o.side
      (((b.ladder o.side).upsert o.price).2.put (k.pushBack o).2)).enter id
        ⟨o.side, o.price, (k.pushBack o).1⟩ := by rw [← hk]; rfl
  have hforget : b.index.filter (fun e => decide (e.1 ≠ id)) = b.index :=
    List.filter_eq_self.mpr fun e he => decide_eq_true (hasOrder_eq_false_iff.mp hid e he)
  have hindex : (b.rest id o).index = b.index ++ [(id, ⟨o.side, o.price, (k.pushBack o).1⟩)] := by
    rw [hrest, enter, forget, setLadder_index, hforget]
  have hentries : (k.pushBack o).2.entries =
      k.entries ++ [(id, ⟨o.side, o.price, (k.pushBack o).1⟩)] := by
    simp only [entries_eq, Level.pushBack_queue, Level.pushBack_price, List.filterMap_append,
      List.filterMap_cons, List.filterMap_nil, filedAs?_local ho, hkp]
  have hput : ((b.rest id o).ladder o.side).Ranks o.side (front ++ [(k.pushBack o).2] ++ back) := by
    rw [hrest, enter_ladder, setLadder_self]
    simpa using hr.put (k.pushBack_price o)
  have hopp : (b.rest id o).ladder o.side.opposite = b.ladder o.side.opposite := by
    rw [hrest, enter_ladder, setLadder_opposite]
  have hkeep : Ladder.kept (k.pushBack o).2 = [(k.pushBack o).2] := by
    simp [Ladder.kept, Level.isEmpty, Level.pushBack_queue]
  refine ⟨h.change ⟨front, old, _, back, hlevels, rfl, hold, .inl rfl⟩ hput hopp
    (hkept.pushBack rfl hkp.symm) (fun rest hp' => ?_) ?_, k, hkp,
    changes_of_ranks hlevels hold (fun he => hkp ▸ hempty he) (k.pushBack_price o)
      (hkeep ▸ hput) hopp⟩
  · rw [hindex, hentries, List.append_assoc]
    refine (hp'.append_right _).trans ?_
    rw [List.append_assoc]
    exact List.perm_append_comm.append_left _
  · rw [hindex, List.map_append, List.nodup_append]
    refine ⟨h.nodup, by simp, ?_⟩
    rintro _ hm _ hm' rfl
    obtain ⟨e, he, heq⟩ := List.mem_map.mp hm
    exact hasOrder_eq_false_iff.mp hid e he (heq.trans (List.mem_singleton.mp hm'))

theorem Filed.take (h : b.Filed) (b' : Book α) {k : Level α} {front back : List (Resting α)}
    {r : Resting α} (hk : k ∈ b.levels side) (hq : k.queue = front ++ r :: back)
    (hb : b'.ladder side =
      (((b.ladder side).put (k.lose r (front ++ back))).removeIfEmpty k.price).2)
    (hj : b'.ladder side.opposite = b.ladder side.opposite)
    (hi : ∀ rest, b.index.Perm (k.entries ++ rest) →
      b'.index.Perm ((k.lose r (front ++ back)).entries ++ rest))
    (hn : (b'.index.map Prod.fst).Nodup) :
    b'.Filed ∧ Changes b b' side k (k.lose r (front ++ back)) := by
  obtain ⟨before, after, hlevels⟩ := List.append_of_mem hk
  have hr : (b.ladder side).Ranks side (before ++ k :: after) := hlevels ▸ h.ranks side
  have hrestore : (b'.ladder side).Ranks side
      (before ++ Ladder.kept (k.lose r (front ++ back)) ++ after) := by
    rw [hb]
    exact hr.restore rfl
  have hlevels' : b.levels side = before ++ [k] ++ after := by simpa using hlevels
  exact ⟨h.change ⟨before, [k], _, after, hlevels', rfl, .inl rfl, Ladder.shows_kept _⟩ hrestore hj
    ((h.kept side k hk).lose hq) hi hn,
    changes_of_ranks hlevels' (.inl rfl) (by simp) rfl hrestore hj⟩

theorem Filed.remove (h : b.Filed) {id : OrderId} {p : Place α} (hp : b.place? id = some p) :
    ∃ k front back r, k ∈ b.levels p.side ∧ k.queue = front ++ r :: back ∧
      r.order.party = .local id ∧ (b.remove id).1 = ⟨true, some r.order⟩ ∧
        (b.remove id).2.Filed ∧
          Changes b (b.remove id).2 p.side k (k.lose r (front ++ back)) := by
  obtain ⟨k, hk, hkp, o, ho, hid⟩ := h.place?_eq_some.mp hp
  obtain ⟨front, back, hq⟩ := List.append_of_mem ho
  have hkept := h.kept p.side k hk
  have hlevel : (b.ladder p.side).level? p.price = some k :=
    (h.ranks p.side).level?_eq_some.mpr ⟨hk, hkp⟩
  have hremove : k.remove? p.handle = some (o, k.lose ⟨p.handle, o⟩ (front ++ back)) :=
    Level.remove?_eq hkept.tracked hq
  have hlocal : o.isLocal = true := by rw [Order.isLocal, hid]; rfl
  have hb : b.remove id = (⟨true, some o⟩, (b.forget id).setLadder p.side
      (((b.ladder p.side).put (k.lose ⟨p.handle, o⟩ (front ++ back))).removeIfEmpty
        k.price).2) := by
    simp only [Book.remove, hp, hlevel, hremove, Option.bind_some, Option.map_some, hkp,
      Option.filter_some, hlocal, if_true]
  have hentry : filedAs? (k.price, (⟨p.handle, o⟩ : Resting α).terms) = some (id, p) := by
    rw [filedAs?_local hid, (hkept.terms _ ho).1, hkp]
  refine ⟨k, front, back, ⟨p.handle, o⟩, hk, hq, hid, by rw [hb], ?_⟩
  rw [hb]
  refine h.take _ hk hq (by simp) (by simp) (fun rest hr => ?_) ?_
  · have hr' : b.index.Perm
        (((k.lose ⟨p.handle, o⟩ (front ++ back)).entries ++ rest) ++ [(id, p)]) := by
      refine (hr.trans ((lose_entries hq).append_right rest)).trans ?_
      rw [hentry, Option.toList_some, List.append_assoc]
      exact List.perm_append_comm
    have hf := filter_gone hr' h.nodup (.refl [id])
    simpa [forget] using hf
  · rw [setLadder_index]
    exact h.nodup.sublist (List.filter_sublist.map _)

omit [Scalar.Lawful α] in
theorem remove_none {id : OrderId} (hp : b.place? id = none) :
    b.remove id = (⟨false, none⟩, b) := by
  simp only [Book.remove, hp]

theorem Filed.removed (h : b.Filed) (id : OrderId) : (b.remove id).2.Filed := by
  cases hp : b.place? id with
  | none => rwa [remove_none hp]
  | some p =>
    obtain ⟨_, _, _, _, -, -, -, -, hf, -⟩ := h.remove hp
    exact hf

omit [Scalar.Lawful α] in
theorem remove_arrivals (id : OrderId) : (b.remove id).2.arrivals = b.arrivals := by
  unfold Book.remove
  split
  · rfl
  · rw [setLadder_arrivals]
    rfl

section Aggregate

variable {u : LevelUpdate α}

theorem Filed.resize_ranks (h : b.Filed) (hp : Scalar.isPositive u.price = true) :
    ∃ front old back k, b.levels u.side = front ++ old ++ back ∧ Ladder.Shows k old ∧
      (old = [] → k = Level.empty k.price) ∧ k.price = u.price ∧ k.Kept u.side ∧
        ((b.resize u).ladder u.side).Ranks u.side (front ++ resized u k :: back) ∧
          (b.resize u).ladder u.side.opposite = b.ladder u.side.opposite ∧
            (b.resize u).index = b.index ∧ (b.resize u).arrivals = b.arrivals := by
  obtain ⟨front, old, back, hlevels, hold, hr, hkp, hkept, hempty⟩ :=
    (h.ranks u.side).upsert (h.kept u.side) hp
  rcases hu : (b.ladder u.side).upsert u.price with ⟨k, l⟩
  simp only [hu] at hold hr hkp hkept hempty
  refine ⟨front, old, back, k, hlevels, hold, fun he => hkp ▸ hempty he, hkp, hkept, ?_⟩
  by_cases ha : (aggregate? k).isSome = true
  · have hb : b.resize u = b.setLadder u.side (l.put (resized u k)) := by
      simp only [Book.resize, hu, resized, ha, if_true]
    simp only [hb, setLadder_self, setLadder_opposite, setLadder_index, setLadder_arrivals,
      and_true]
    exact hr.put (resized_price u k)
  · have hb : b.resize u = b.setLadder u.side l := by
      simp only [Book.resize, hu, ha]
      rfl
    simp only [hb, setLadder_self, setLadder_opposite, setLadder_index, setLadder_arrivals,
      and_true]
    rwa [resized, if_neg ha]

theorem Filed.resize_swaps (h : b.Filed) (hp : Scalar.isPositive u.price = true) :
    ∃ k, k.price = u.price ∧ (k ∈ b.levels u.side ∨ k = Level.empty k.price) ∧
      Ladder.Swaps k (resized u k) (b.levels u.side) ((b.resize u).levels u.side) ∧
        (b.resize u).levels u.side.opposite = b.levels u.side.opposite := by
  obtain ⟨front, old, back, k, hlevels, hold, hempty, hkp, -, hr, hj, -, -⟩ := h.resize_ranks hp
  refine ⟨k, hkp, ?_, ⟨front, old, [resized u k], back, hlevels, by simp [levels_eq hr], hold,
    .inl rfl⟩, by rw [levels, hj, levels]⟩
  obtain rfl | ⟨rfl, -⟩ := hold
  · exact .inl (by simp [hlevels])
  · exact .inr (hempty rfl)

theorem Filed.resize (h : b.Filed) (hp : Scalar.isPositive u.price = true) :
    (b.resize u).Filed := by
  obtain ⟨front, old, back, k, hlevels, hold, -, -, hkept, hr, hj, hi, -⟩ := h.resize_ranks hp
  refine h.change ⟨front, old, [resized u k], back, hlevels, by simp, hold, .inl rfl⟩ hr hj
    (resized_kept hkept) (fun rest hp => ?_) (hi ▸ h.nodup)
  rwa [hi, resized_entries]

theorem stamp_ranks {front back : List (Level α)} {k : Level α} (now : α)
    (hr : (b.ladder u.side).Ranks u.side (front ++ k :: back)) (hp : k.price = u.price) :
    ((b.stamp u now).ladder u.side).Ranks u.side (front ++ stamped b u now k :: back) ∧
      (b.stamp u now).ladder u.side.opposite = b.ladder u.side.opposite ∧
        (b.stamp u now).index = b.index ∧
          (b.stamp u now).arrivals =
            if (aggregate? k).isSome then b.arrivals else b.arrivals + 1 := by
  have hl : (b.ladder u.side).level? u.price = some k := hr.level?_eq_some.mpr ⟨by simp, hp⟩
  have hput := hr.put (stamped_price b u now k)
  by_cases ha : (aggregate? k).isSome = true
  · have hb : b.stamp u now = b.setLadder u.side ((b.ladder u.side).put (stamped b u now k)) := by
      simp only [stamp, hl, stamped, ha, if_true]
    simpa [hb, ha] using hput
  · have hb : b.stamp u now = { b with arrivals := b.arrivals + 1 }.setLadder u.side
        ((b.ladder u.side).put (stamped b u now k)) := by
      simp only [stamp, hl, stamped, ha]
      rfl
    simpa [hb, ha] using hput

omit [Scalar.Lawful α] in
theorem stamp_none (now : α) (hl : (b.ladder u.side).level? u.price = none) :
    b.stamp u now = b := by
  simp only [stamp, hl]

theorem Filed.stamp (h : b.Filed) (now : α) : (b.stamp u now).Filed := by
  cases hl : (b.ladder u.side).level? u.price with
  | none => rwa [stamp_none now hl]
  | some k =>
    obtain ⟨front, back, hlevels, hp⟩ := (h.ranks u.side).split hl
    have hk : k ∈ b.levels u.side := hlevels ▸ by simp
    obtain ⟨hr, hj, hi, -⟩ := stamp_ranks now (hlevels ▸ h.ranks u.side) hp
    have hs : Ladder.Swaps k (stamped b u now k) (b.levels u.side)
        (front ++ stamped b u now k :: back) :=
      ⟨front, [k], [stamped b u now k], back, by simpa using hlevels, by simp, .inl rfl, .inl rfl⟩
    refine h.change hs hr hj (stamped_kept (h.kept u.side k hk) hp) (fun rest hp => ?_)
      (hi ▸ h.nodup)
    rwa [hi, stamped_entries]

theorem Filed.dropAggregate (h : b.Filed) (u : LevelUpdate α) :
    (b.dropAggregate u).Filed ∧
      ((b.dropAggregate u = b ∧
          ∀ k ∈ b.levels u.side, k.price = u.price → aggregate? k = none) ∨
        ∃ k r rs, k ∈ b.levels u.side ∧ k.price = u.price ∧ k.queue = r :: rs ∧
          r.order.party = .external ∧ (b.dropAggregate u).arrivals = b.arrivals ∧
            Changes b (b.dropAggregate u) u.side k (k.lose r rs)) := by
  have hranks := h.ranks u.side
  cases hl : (b.ladder u.side).level? u.price with
  | none =>
    have hb : b.dropAggregate u = b := by simp only [Book.dropAggregate, hl, Option.bind_none]
    rw [hb]
    exact ⟨h, .inl ⟨rfl, fun k hk hp => absurd hp (hranks.level?_eq_none.mp hl k hk)⟩⟩
  | some k =>
    obtain ⟨hk, hkp⟩ := hranks.level?_eq_some.mp hl
    cases ha : aggregate? k with
    | none =>
      have hb : b.dropAggregate u = b := by
        simp only [Book.dropAggregate, hl, Option.bind_some, ha, Option.bind_none]
      rw [hb]
      refine ⟨h, .inl ⟨rfl, fun j hj hp => ?_⟩⟩
      rwa [hranks.eq_of_price hj hk (hp.trans hkp.symm)]
    | some r =>
      obtain ⟨rs, hq, hp⟩ := aggregate?_eq_some.mp ha
      have hq' : k.queue = [] ++ r :: rs := hq
      have hremove := Level.remove?_eq (h.kept u.side k hk).tracked hq'
      have hb : b.dropAggregate u = b.setLadder u.side
          (((b.ladder u.side).put (k.lose r rs)).removeIfEmpty k.price).2 := by
        simp only [Book.dropAggregate, hl, Option.bind_some, ha, hremove, hkp, List.nil_append]
      have hentries : k.entries.Perm (k.lose r rs).entries := by
        have he := lose_entries hq'
        rwa [filedAs?_external hp] at he
      obtain ⟨hfiled, hchanges⟩ := h.take (b.dropAggregate u) hk hq'
        (by rw [hb, setLadder_self]; rfl) (by rw [hb, setLadder_opposite])
        (fun rest hr => by rw [hb, setLadder_index]; exact hr.trans (hentries.append_right rest))
        (by rw [hb, setLadder_index]; exact h.nodup)
      exact ⟨hfiled, .inr ⟨k, r, rs, hk, hkp, hq, hp, by rw [hb, setLadder_arrivals], hchanges⟩⟩

end Aggregate

def swept (b : Book α) : Book α :=
  { b with bids := (Sweep.sweep b.bids b.asks).bids, asks := (Sweep.sweep b.bids b.asks).asks }

theorem Filed.uncross (h : b.Filed) : b.uncross.2.Filed := by
  obtain ⟨bs, as, bidsGone, asksGone, hb, ha, hlb, hla, he⟩ :=
    Sweep.sweep_leaves (h.ranks .buy) (h.ranks .sell) (h.kept .buy) (h.kept .sell)
  have hb' : (b.swept.ladder .buy).Ranks .buy bs := hb
  exact h.release b.swept rfl hb' ha hlb hla he

/-- The book once a new order has been matched, before what is left of it rests. -/
def matched (b : Book α) (o : Order α) : Book α :=
  ({ b with arrivals := b.arrivals + 1 }.setLadder o.side.opposite
    (Match.incoming o (b.ladder o.side.opposite)).2).release
      (Match.incoming o (b.ladder o.side.opposite)).1.exhausted

omit [Scalar.Lawful α] in
theorem matched_arrivals (o : Order α) : (b.matched o).arrivals = b.arrivals + 1 := by
  rw [matched, release_arrivals, setLadder_arrivals]

theorem Filed.matched (h : b.Filed) (o : Order α) :
    (b.matched o).Filed ∧ (b.matched o).levels o.side = b.levels o.side ∧
      (b.matched o).levels o.side.opposite =
        (Ladder.sift Match.turn (b.levels o.side.opposite) ⟨o, [], []⟩).2 := by
  obtain ⟨hw, hr⟩ := (h.ranks o.side.opposite).walk Match.visits ⟨o, [], []⟩
  obtain ⟨gone, hl, he⟩ := Match.sift_leaves ⟨o, [], []⟩ (h.kept o.side.opposite)
  have hown : ∀ l : Ladder α,
      ({ b with arrivals := b.arrivals + 1 }.setLadder o.side.opposite l).ladder o.side =
        b.ladder o.side := fun l => by
    have hs := setLadder_opposite { b with arrivals := b.arrivals + 1 } o.side.opposite l
    rwa [Side.opposite_opposite, arrivals_ladder] at hs
  have hown' : ((b.matched o).ladder o.side).Ranks o.side (b.levels o.side) := by
    rw [Book.matched, release_ladder, hown]
    exact h.ranks o.side
  have hopp : ((b.matched o).ladder o.side.opposite).Ranks o.side.opposite
      (Ladder.sift Match.turn (b.levels o.side.opposite) ⟨o, [], []⟩).2 := by
    rw [Book.matched, release_ladder, setLadder_self]
    exact hr
  refine ⟨?_, levels_eq hown', levels_eq hopp⟩
  rw [Book.matched, release_ladder] at hown' hopp
  refine h.release _ (by rw [setLadder_index]) hown' hopp (.refl (h.kept o.side)) hl ?_
  have hexhausted : (Match.incoming o (b.ladder o.side.opposite)).1.exhausted =
      (Ladder.sift Match.turn (b.levels o.side.opposite) ⟨o, [], []⟩).1.exhausted :=
    congrArg Match.Run.exhausted hw
  rw [hexhausted, he]
  simp

omit [Scalar.Lawful α] in
theorem refusal?_eq_none {s : Submission α} (h : b.refusal? s = none) :
    b.hasOrder s.id = false ∧ Scalar.isPositive s.quantity = true ∧
      Scalar.isPositive s.price = true := by
  unfold refusal? at h
  split at h
  · cases h
  · split at h
    · cases h
    · split at h
      · cases h
      · simp_all

def traded (b : Book α) (o : Order α) : Match.Run α :=
  (Match.incoming o (b.ladder o.side.opposite)).1

omit [Scalar.Lawful α] in
theorem accept_eq (s : Submission α) (now : α) :
    b.accept s now =
      (let t := b.traded (b.arrive s now)
       if negligible t.taker.remaining then
        (.accepted .filled t.fills Scalar.zero t.taker, b.matched (b.arrive s now))
       else
        (.accepted (if t.fills.isEmpty then .resting else .partly) t.fills t.taker.remaining
          t.taker,
          (b.matched (b.arrive s now)).rest s.id t.taker)) := rfl

theorem Filed.traded (h : b.Filed) (o : Order α) :
    b.traded o = (Ladder.sift Match.turn (b.levels o.side.opposite) ⟨o, [], []⟩).1 :=
  ((h.ranks o.side.opposite).walk Match.visits ⟨o, [], []⟩).1

theorem Filed.traded_terms (h : b.Filed) (o : Order α) :
    (b.traded o).taker.terms = o.terms := by
  rw [h.traded]
  exact Match.sift_taker_terms _ _

omit [Scalar.Lawful α] in
theorem matched_hasOrder {o : Order α} {id : OrderId} (h : b.hasOrder id = false) :
    (b.matched o).hasOrder id = false := by
  rw [hasOrder_eq_false_iff] at *
  intro e he
  rw [matched, release_eq, setLadder_index] at he
  exact h e (List.mem_of_mem_filter he)

theorem Filed.rest_traded (h : b.Filed) {s : Submission α} (now : α) (hs : b.refusal? s = none) :
    let o := b.arrive s now
    ((b.matched o).rest s.id (b.traded o).taker).Filed ∧
      ∃ k, k.price = s.price ∧
        Changes (b.matched o) ((b.matched o).rest s.id (b.traded o).taker) s.side k
          (k.pushBack (b.traded o).taker).2 := by
  obtain ⟨hid, -, hp⟩ := refusal?_eq_none hs
  have ht := h.traded_terms (b.arrive s now)
  have hparty : (b.traded (b.arrive s now)).taker.party = .local s.id := congrArg Order.party ht
  have hside : (b.traded (b.arrive s now)).taker.side = s.side := congrArg Order.side ht
  have hprice : (b.traded (b.arrive s now)).taker.price = s.price := congrArg Order.price ht
  have hrest := (h.matched (b.arrive s now)).1.rest hparty (matched_hasOrder hid) (hprice ▸ hp)
  rwa [hside, hprice] at hrest

theorem Filed.accept (h : b.Filed) {s : Submission α} (now : α) (hs : b.refusal? s = none) :
    (b.accept s now).2.Filed := by
  rw [accept_eq]
  simp only
  split
  · exact (h.matched _).1
  · exact (h.rest_traded now hs).1

end LimitBook.Book
