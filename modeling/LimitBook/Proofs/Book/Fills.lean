import Mathlib.Data.List.Flatten
import LimitBook.Proofs.Book.Priority
import LimitBook.Proofs.Book.Reachable
import LimitBook.Proofs.Match.Greedy

namespace LimitBook

variable {α : Type} [Scalar α]

/-- A trade of `q` between two parties, of which one has `r` left and the other `p`. -/
structure Fair (q r p : α) : Prop where
  smaller : q = Scalar.smaller r p
  finite : Scalar.isFinite q = true
  counts : Scalar.dust ≤ q
  spent : leftOver r q = Scalar.zero ∨ leftOver p q = Scalar.zero
  nonneg : Scalar.zero ≤ leftOver r q ∧ Scalar.zero ≤ leftOver p q

section Fair

variable [Scalar.Lawful α] {q r p : α}

theorem zero_le_of_zero_or (h : q = Scalar.zero ∨ Counts q) : Scalar.zero ≤ q := by
  obtain rfl | h := h
  · exact Scalar.le_refl Scalar.Lawful.finite_zero
  · exact Scalar.le_of_lt h.zero_lt

theorem fair_of_counts (hr : Counts r) (hp : Counts p) : Fair (Scalar.smaller r p) r p := by
  obtain ⟨hc, hleft⟩ := trade_cases hr hp
  refine ⟨rfl, hc.1, hc.dust_le, hleft.imp And.left And.right, ?_⟩
  obtain ⟨hz, hp'⟩ | ⟨hc', hz⟩ := hleft
  · exact ⟨zero_le_of_zero_or (.inl hz), zero_le_of_zero_or hp'⟩
  · exact ⟨zero_le_of_zero_or (.inr hc'), zero_le_of_zero_or (.inl hz)⟩

end Fair

/-- A fill of an order of `party` that comes in with a limit and a quantity, when it has made the
fills of `before`: it trades with an order that rests on the other side of `b`, at a price that the
limit crosses, and has not traded with that before. -/
structure Takes (b : Book α) (party : Party) (side : Side) (limit quantity : α)
    (before : List (Fill α)) (f : Fill α) : Prop where
  aggressive : f.aggressive = party
  parties : f.passive ≠ f.aggressive
  aggressor : f.aggressor = side
  crosses : crosses side limit f.price = true
  fair : ∃ k ∈ (b.ladder side.opposite).levels, k.price = f.price ∧
    ∃ o ∈ k.orders, o.party = f.passive ∧
      Fair f.quantity (remainder quantity before) o.remaining
  first : ∀ g ∈ before, g.price = f.price → g.passive ≠ f.passive

theorem Party.isLocal_of_ne {p : Party} (h : p ≠ .external) : p.isLocal = true := by
  cases p with
  | external => exact absurd rfl h
  | «local» => rfl

theorem remainder_virtually (q : α) (fs : List (Fill α)) :
    remainder q (fs.map Fill.virtually) = remainder q fs := List.foldl_map

theorem Takes.virtually {b : Book α} {party : Party} {side : Side} {limit quantity : α}
    {before : List (Fill α)} {f : Fill α} (h : Takes b party side limit quantity before f)
    (hf : f.passive ≠ .external) :
    Takes b .external side limit quantity (before.map Fill.virtually) f.virtually where
  aggressive := rfl
  parties := hf
  aggressor := h.aggressor
  crosses := h.crosses
  fair := by
    rw [remainder_virtually]
    exact h.fair
  first := List.forall_mem_map.mpr h.first

namespace Match

/-- What sets the orders of one side apart: no two have both the price and the party. -/
def key (m : α × Resting α) : α × Party := (m.1, m.2.order.party)

variable [Scalar.Lawful α] {taker : Order α} {ks : List (Level α)}

/-- A fill of an incoming order is with an order that its limit crosses and that it has not met
before. -/
theorem sift_fill (ht : Scalar.isFinite taker.remaining = true) (hk : ∀ k ∈ ks, k.Counted)
    (hs : ks.Pairwise fun a b => Ladder.better taker.side.opposite a.price b.price = true)
    (hn : ((ks.flatMap Level.seats).map key).Nodup) {before rest : List (Fill α)} {f : Fill α}
    (hf : (Ladder.sift turn ks ⟨taker, [], []⟩).1.fills = before ++ f :: rest) :
    ∃ k ∈ ks, ∃ r ∈ k.queue, crosses taker.side taker.price k.price = true ∧
      Counts (remainder taker.remaining before) ∧
      (∀ g ∈ before, g.price = k.price → g.passive ≠ r.order.party) ∧
      f = ⟨r.order.party, taker.party, k.price,
        Scalar.smaller (remainder taker.remaining before) r.order.remaining, taker.side,
        false⟩ := by
  obtain ⟨hrun, -⟩ := sift_line ⟨taker, [], []⟩ hs
  rw [hrun] at hf
  have hseats : ((ks.filter fun k => crosses taker.side taker.price k.price).flatMap
      Level.seats).Sublist (ks.flatMap Level.seats) := List.filter_sublist.flatMap _
  obtain ⟨passed, m, behind, hsplit, hkeys, hr, rfl⟩ := greedy_fill ht (fun m hm => by
    obtain ⟨k, hk', r, hr, rfl⟩ := Ladder.mem_seats.mp (hseats.subset hm)
    exact hk k hk' r hr) hf
  rw [hsplit] at hseats
  have hm : m ∈ (ks.filter fun k => crosses taker.side taker.price k.price).flatMap
      Level.seats := hsplit ▸ by simp
  obtain ⟨k, hk', r, hr', rfl⟩ := Ladder.mem_seats.mp hm
  obtain ⟨hmem, hc⟩ := List.mem_filter.mp hk'
  refine ⟨k, hmem, r, hr', hc, hr, fun g hg hp hparty => ?_, rfl⟩
  -- The fills before name the orders passed, and none of these has the price and the party.
  have hg' : (k.price, r.order.party) ∈ passed.map key := by
    rw [show passed.map key = _ from hkeys.symm, ← hp, ← hparty]
    exact List.mem_map_of_mem hg
  have hn' := hn.sublist (hseats.map key)
  rw [List.map_append, List.nodup_append] at hn'
  exact hn'.2.2 _ hg' (k.price, r.order.party) List.mem_cons_self rfl

end Match

omit [Scalar α] in
theorem Ladder.copies_seats (ks : List (Level α)) :
    ((Ladder.copies ks).flatMap Level.seats).Sublist (ks.flatMap Level.seats) := by
  rw [Ladder.copies, List.flatMap_assoc]
  refine List.Sublist.flatMap_right _ fun k _ => ?_
  rw [Ladder.kept_seats]
  exact List.filter_sublist.map _

namespace Book

open BookM

variable [Scalar.Lawful α] {b b' : Book α} {side : Side} {before rest : List (Fill α)} {f : Fill α}

theorem Sound.keys (h : b.Sound) (side : Side) :
    (((b.levels side).flatMap Level.seats).map Match.key).Nodup := by
  have hids : b.resting.Pairwise fun o o' => ∀ id, o.party.id? = some id →
      ∀ id', o'.party.id? = some id' → id ≠ id' :=
    List.pairwise_filterMap.mp (h.index_resting.nodup_iff.mp h.nodup)
  obtain ⟨hids, -⟩ := List.pairwise_flatMap.mp hids
  refine List.pairwise_map.mpr (List.pairwise_flatMap.mpr ⟨fun k hk => ?_, ?_⟩)
  · have hmem : k ∈ b.bids.levels ++ b.asks.levels := List.mem_append.mpr <| by
      have hk := h.mem_levels.mpr hk
      cases side
      exacts [.inl hk, .inr hk]
    have hk' := (h.sound side k hk).orderly.pairwise
    have hids := List.pairwise_map.mp (hids k hmem)
    refine List.pairwise_map.mpr ((List.pairwise_map.mp hk').imp₂ (fun r s hs hne he => ?_) hids)
    obtain ⟨-, hparty⟩ := Prod.mk.inj he
    cases hp : s.order.party with
    | external =>
      have hlocal := hs.1
      rw [Order.isLocal_eq_false (o := s.terms.2) hp] at hlocal
      cases hlocal
    | «local» id => exact hne id (by rw [hparty, hp]; rfl) id (by rw [hp]; rfl) rfl
  · refine (h.ranks side).sorted.imp fun hp m hm m' hm' he => ?_
    obtain ⟨r, -, rfl⟩ := List.mem_map.mp hm
    obtain ⟨s, -, rfl⟩ := List.mem_map.mp hm'
    exact Ladder.better_ne hp (Prod.mk.inj he).1

/-- An incoming order that is matched against orders of a book, none of them its own, makes fills
that are fair. -/
theorem Filed.takes (h : b.Filed) {t : Order α} {ks : List (Level α)}
    (ht : Scalar.isFinite t.remaining = true) (hk : ∀ k ∈ ks, k.Counted)
    (hs : ks.Pairwise fun a b => Ladder.better t.side.opposite a.price b.price = true)
    (hn : ((ks.flatMap Level.seats).map Match.key).Nodup)
    (hmem : ∀ k ∈ ks, ∃ j ∈ b.levels t.side.opposite, j.price = k.price ∧
      ∀ r ∈ k.queue, r ∈ j.queue ∧ r.order.party ≠ t.party)
    (hf : (Ladder.sift Match.turn ks ⟨t, [], []⟩).1.fills = before ++ f :: rest) :
    f.virtual = false ∧ Takes b t.party t.side t.price t.remaining before f := by
  obtain ⟨k, hks, r, hr, hc, hcounts, hfirst, rfl⟩ := Match.sift_fill ht hk hs hn hf
  obtain ⟨j, hj, hp, hqueue⟩ := hmem k hks
  obtain ⟨hrj, hne⟩ := hqueue r hr
  exact ⟨rfl, rfl, hne, rfl, hc, ⟨j, h.mem_levels.mpr hj, hp, r.order, List.mem_map_of_mem hrj, rfl,
    fair_of_counts hcounts (hk k hks r hr)⟩, hfirst⟩

theorem Sound.accept_takes (h : b.Sound) {s : Submission α} {now : α} (hs : b.refusal? s = none)
    (hf : (Answer.submitted (b.accept s now).1).fills = before ++ f :: rest) :
    f.virtual = false ∧ Takes b (.local s.id) s.side s.price s.quantity before f := by
  obtain ⟨hid, hq, -⟩ := refusal?_eq_none hs
  rw [accept_fills, h.toFiled.traded] at hf
  refine h.toFiled.takes (t := b.arrive s now) (Scalar.isPositive.finite hq)
    (fun k hk => (h.sound _ k hk).counts) (h.ranks _).sorted (h.keys _) (fun k hk => ?_) hf
  refine ⟨k, hk, rfl, fun r hr => ⟨hr, fun hp => ?_⟩⟩
  have hplace := (h.toFiled.place?_iff hk hr).mpr hp
  rw [hasOrder, hplace] at hid
  cases hid

theorem Sound.applied_takes (h : b.Sound) {u : LevelUpdate α} {now : α} (hu : u.fault? = none)
    (hf : (b.applied u now).1.1 = before ++ f :: rest) :
    f.virtual = true ∧ f.passive.isLocal = true ∧
      Takes b .external u.side u.price u.totalQty before f := by
  cases hn : negligible u.totalQty with
  | true =>
    rw [applied_of_negligible now hn, (h.dropAggregate u).uncross.2.2] at hf
    cases before <;> cases hf
  | false =>
    have hfin := (fault?_eq_none hu).2
    obtain ⟨k, own, o, hp⟩ := h.posts now hu hn
    obtain ⟨-, hfills⟩ := h.update (t := b.newAggregate u now) hp rfl rfl rfl hn hfin
    rw [applied_of_counts now hn, hfills] at hf
    obtain ⟨before', after, hm, rfl, hafter⟩ := List.map_eq_append_iff.mp hf
    obtain ⟨f', rest', rfl, rfl, rfl⟩ := List.map_eq_cons_iff.mp hafter
    have hlocal : ∀ k ∈ Ladder.copies (b.levels u.side.opposite),
        ∃ j ∈ b.levels u.side.opposite, j.price = k.price ∧
          ∀ r ∈ k.queue, r ∈ j.queue ∧ r.order.party ≠ .external := fun k hk => by
      obtain ⟨j, hj, rfl, -⟩ := Ladder.mem_copies.mp hk
      refine ⟨j, hj, rfl, fun r hr => ?_⟩
      obtain ⟨hr, hl⟩ := List.mem_filter.mp hr
      exact ⟨hr, fun he => Bool.false_ne_true ((Order.isLocal_eq_false he).symm.trans hl)⟩
    obtain ⟨-, htakes⟩ := h.toFiled.takes (t := b.newAggregate u now) hfin
      (fun k hk => (h.copies _ k hk).counts) (Ladder.copies_sorted (h.ranks _).sorted)
      ((h.keys _).sublist ((Ladder.copies_seats _).map _)) hlocal hm
    have hpassive : f'.passive ≠ .external := fun he =>
      htakes.parties (he.trans htakes.aggressive.symm)
    exact ⟨rfl, Party.isLocal_of_ne hpassive, htakes.virtually hpassive⟩

/-- Each fill of some updates is one of an update among them, when those before it have been
applied. -/
theorem Applies.takes {us : List (LevelUpdate α)} {fills : List (Fill α)}
    (ha : Applies b us fills b') (h : b.Sound) (hu : ∀ u ∈ us, u.fault? = none)
    (hf : fills = before ++ f :: rest) :
    ∃ earlier u later past mid recent, us = earlier ++ u :: later ∧ Applies b earlier past mid ∧
      before = past ++ recent ∧ f.virtual = true ∧ f.passive.isLocal = true ∧
        Takes mid .external u.side u.price u.totalQty recent f := by
  induction ha generalizing before with
  | nil => cases before <;> cases hf
  | cons u now ha ih =>
    rename_i b b'' us more
    obtain ⟨hu, hus⟩ := List.forall_mem_cons.mp hu
    have hlater : ∀ recent, more = recent ++ f :: rest →
        before = (b.applied u now).1.1 ++ recent →
        ∃ earlier v later past mid recent, u :: us = earlier ++ v :: later ∧
          Applies b earlier past mid ∧ before = past ++ recent ∧ f.virtual = true ∧
            f.passive.isLocal = true ∧
              Takes mid .external v.side v.price v.totalQty recent f := by
      intro recent hmore hbefore
      obtain ⟨earlier, v, later, past, mid, recent', rfl, ha', rfl, htakes⟩ :=
        ih (h.applied now hu) hus hmore
      exact ⟨u :: earlier, v, later, _, mid, recent', rfl, .cons u now ha',
        by rw [hbefore, List.append_assoc], htakes⟩
    obtain ⟨recent, hbefore, hmore⟩ | ⟨front, hfills, hrest⟩ := List.append_eq_append_iff.mp hf
    · exact hlater recent hmore hbefore
    · cases front with
      | nil => exact hlater [] hrest.symm (by simpa using hfills.symm)
      | cons g front =>
        obtain ⟨rfl, rfl⟩ := List.cons.inj hrest
        exact ⟨[], u, us, [], b, before, rfl, .nil b, rfl, h.applied_takes hu hfills⟩

/-- How a call of `b` comes to a fill when it has made the fills of `before`. A submission trades as
the order that it brings; an update of the feed, on the book that the updates before it have left,
as its aggregate. -/
inductive Made (b : Book α) : Call α → List (Fill α) → Fill α → Prop where
  | matched {s : Submission α} {before : List (Fill α)} {f : Fill α} (hv : f.virtual = false)
      (h : Takes b (.local s.id) s.side s.price s.quantity before f) :
      Made b (.submit s) before f
  | swept {c : Call α} {earlier later : List (LevelUpdate α)} {u : LevelUpdate α} {mid : Book α}
      {past recent : List (Fill α)} {f : Fill α} (hu : c.updates = earlier ++ u :: later)
      (ha : Applies b earlier past mid) (hv : f.virtual = true) (hp : f.passive.isLocal = true)
      (h : Takes mid .external u.side u.price u.totalQty recent f) :
      Made b c (past ++ recent) f

theorem Effect.made {c : Call α} {a : Answer α} (he : Effect b c a b') (h : b.Sound)
    (hf : a.fills = before ++ f :: rest) : Made b c before f := by
  cases he with
  | refused | cancelled | cleared | faulty | faultyBatch | numbered | shown =>
    cases before <;> cases hf
  | accepted now hs =>
    obtain ⟨hv, htakes⟩ := h.accept_takes hs hf
    exact .matched hv htakes
  | updated hu ha =>
    obtain ⟨earlier, u, later, past, mid, recent, hus, ha', rfl, hv, hp, htakes⟩ :=
      ha.takes h (List.forall_mem_singleton.mpr hu) hf
    exact .swept hus ha' hv hp htakes
  | batch hu ha =>
    obtain ⟨earlier, u, later, past, mid, recent, hus, ha', rfl, hv, hp, htakes⟩ :=
      ha.takes h (firstFault?_eq_none hu) hf
    exact .swept hus ha' hv hp htakes

section Doubles

variable {ω : Type} {clock : BookM Float ω Float}

/-- Every fill of a call is made as calls make them, one after the other. It is of the smaller of
what the two parties have left by then, which is finite and no less than counts; one of them has
nothing left after it, and none less than nothing. No party trades with itself. A fill that is not
virtual names the order submitted as its aggressor, on its side, at a price that it crosses; a
virtual one trades a local order with the feed, on the side of the update. -/
theorem fills_after (hd : Discreet clock) (hr : Reliable clock) (calls : List (Call Float))
    (symbol : Text) (w : ω) (c : Call Float) :
    let s := after clock calls (empty symbol, w)
    ∃ a s', (perform clock c).run s = (.ok a, s') ∧
      ∀ before f rest, a.fills = before ++ f :: rest → Made s.1.shut c before f := by
  intro s
  obtain ⟨hs, hb⟩ : s.1.Sound ∧ s.1.busy = false := sound_after hd hr calls symbol w
  obtain ⟨a, b', v, hrun, he⟩ := (perform_ends hd hb c).yields hr
  exact ⟨a, _, hrun, fun before f rest hf => he.made hs.shut hf⟩

theorem fills_after_sharedCalls :
    let s := after (pure 0) sharedCalls (empty [], ())
    let c : Call Float := .updateLevels [⟨.buy, 10, 1.5⟩, ⟨.buy, 10, 3⟩]
    let f : Fill Float := ⟨.local 1, .external, 10, 1.5, .buy, true⟩
    let f' : Fill Float := ⟨.local 1, .external, 10, 0.5, .buy, true⟩
    Discreet (pure 0 : BookM Float Unit Float) ∧ Reliable (pure 0 : BookM Float Unit Float) ∧
      ∃ a s', (perform (pure 0) c).run s = (.ok a, s') ∧ a.fills = [f, f'] ∧
        Made s.1.shut c [] f ∧ Made s.1.shut c [f] f' := by
  intro s c f f'
  obtain ⟨a, s', hrun, hmade⟩ :=
    fills_after (discreet_pure 0) (reliable_pure 0) sharedCalls [] () c
  have hfills : a.fills = [f, f'] := by
    have hf : ((perform (pure 0) c).run s).1.toOption.map Answer.fills = some [f, f'] := by
      decide +kernel
    rw [hrun] at hf
    exact Option.some.inj hf
  exact ⟨discreet_pure 0, reliable_pure 0, a, s', hrun, hfills, hmade [] f _ hfills,
    hmade [f] f' _ hfills⟩

end Doubles

end Book

end LimitBook
