import LimitBook.Proofs.Feed.Amount
import LimitBook.Proofs.Number.Value

namespace LimitBook.Feed

open Text Double Float.Model.UnpackedFloat

/-- A level as a feed writes it, a price, a size and whatever other texts, and the update it is. -/
inductive Level (side : Side) : Json → LevelUpdate Float → Prop where
  | mk {price qty : Text} {more : List Text} {x y : Float} (hprice : Worth price x)
      (hqty : Worth qty y) :
      Level side (.arr (.str price :: .str qty :: more.map .str)) ⟨side, x, y⟩

/-- The levels of one side. -/
inductive Levels (side : Side) : Json → List (LevelUpdate Float) → Prop where
  | mk {items : List Json} {us : List (LevelUpdate Float)} (h : List.Forall₂ (Level side) items us) :
      Levels side (.arr items) us

def Integral (x : Float) : Prop := ∃ n : Int, Number.value? x = some (n : ℚ)

/-- The parts of a book frame. -/
structure Parts where
  action : Action
  channel : Text
  instId : Text
  seqId : Float
  prevSeqId : Float
  ts : Option Text
  bids : List (LevelUpdate Float)
  asks : List (LevelUpdate Float)

def Parts.frame (p : Parts) : BookFrame :=
  { action := p.action, channel := p.channel, instId := p.instId, seqId := p.seqId,
    prevSeqId := p.prevSeqId, ts := p.ts.map Number.ofText, updates := p.bids ++ p.asks }

/-- The one object in a frame's data. -/
structure Payload (j : Json) (p : Parts) : Prop where
  seqId : j.field? "seqId" = some (.num p.seqId) ∧ Integral p.seqId
  prevSeqId : j.field? "prevSeqId" = some (.num p.prevSeqId) ∧ Integral p.prevSeqId
  ts : j.field? "ts" = p.ts.map .str
  checksum : ∀ v, j.field? "checksum" = some v → ∃ x, v = .num x ∧ Integral x
  bids : ∃ v, j.field? "bids" = some v ∧ Levels .buy v p.bids
  asks : ∃ v, j.field? "asks" = some v ∧ Levels .sell v p.asks

/-- A value is a book frame with these parts. -/
structure Carries (j : Json) (p : Parts) : Prop where
  arg : ∃ v, j.field? "arg" = some v ∧ v.field? "channel" = some (.str p.channel) ∧
    v.field? "instId" = some (.str p.instId)
  action : j.field? "action" = some (.str p.action.name)
  data : ∃ v, j.field? "data" = some (.arr [v]) ∧ Payload v p

theorem text?_eq_some {j : Json} {t : Text} : Frame.text? j = some t ↔ j = .str t := by
  cases j <;> simp [Frame.text?]

theorem integer?_eq_some {j : Json} {x : Float} :
    Frame.integer? j = some x ↔ j = .num x ∧ Integral x := by
  cases j with
  | num y =>
    rw [Frame.integer?, Option.ite_none_right_eq_some, Number.isInteger_iff, Option.some_inj,
      Json.num.injEq, and_comm]
    exact and_congr_right fun h => h ▸ Iff.rfl
  | null | bool | str | arr | obj => simp [Frame.integer?]

theorem action?_eq_some {j : Json} {a : Action} : Frame.action? j = some a ↔ j = .str a.name := by
  have hne : ofString "update" ≠ ofString "snapshot" := by decide
  cases j with
  | str t =>
    rw [Frame.action?, Json.str.injEq]
    split_ifs with hs hu
    · subst hs
      cases a <;> simp [Action.name, hne.symm]
    · subst hu
      cases a <;> simp [Action.name, hne]
    · cases a <;> simp [Action.name, hs, hu]
  | null | bool | num | arr | obj => simp [Frame.action?]

theorem all_text_iff {items : List Json} :
    (items.all fun j => (Frame.text? j).isSome) = true ↔ ∃ ts : List Text, items = ts.map .str := by
  induction items with
  | nil => exact iff_of_true rfl ⟨[], rfl⟩
  | cons j items ih =>
    rw [List.all_cons, Bool.and_eq_true, ih, Option.isSome_iff_exists]
    simp only [text?_eq_some]
    constructor
    · rintro ⟨⟨t, rfl⟩, ts, rfl⟩
      exact ⟨t :: ts, rfl⟩
    · rintro ⟨_ | ⟨t, ts⟩, hts⟩
      · cases hts
      · obtain ⟨rfl, rfl⟩ := List.cons.inj hts
        exact ⟨⟨t, rfl⟩, ts, rfl⟩

theorem level?_eq_some {side : Side} {j : Json} {u : LevelUpdate Float} :
    Frame.level? side j = some u ↔ Level side j u := by
  constructor
  · intro h
    unfold Frame.level? at h
    split at h
    · rename_i price qty more
      simp only [Option.bind_eq_bind, Option.bind_eq_some_iff, amount?_eq_some,
        Option.ite_none_right_eq_some, all_text_iff] at h
      obtain ⟨x, ⟨t, rfl, hx⟩, y, ⟨t', rfl, hy⟩, ⟨ts, rfl⟩, hu⟩ := h
      cases hu
      exact .mk hx hy
    · cases h
  · rintro ⟨hx, hy⟩
    rename_i price qty more x y
    have hall := all_text_iff.mpr ⟨more, rfl⟩
    simp only [Frame.level?, amount?_eq_some.mpr ⟨price, rfl, hx⟩, amount?_eq_some.mpr ⟨qty, rfl, hy⟩,
      hall]
    rfl

theorem mapM_eq_some {α β : Type} {f : α → Option β} {xs : List α} {ys : List β} :
    xs.mapM f = some ys ↔ List.Forall₂ (fun x y => f x = some y) xs ys := by
  induction xs generalizing ys with
  | nil => simp [eq_comm]
  | cons x xs ih =>
    rw [List.mapM_cons]
    simp only [Option.bind_eq_bind, Option.bind_eq_some_iff, Option.pure_def, Option.some_inj, ih]
    constructor
    · rintro ⟨y, hy, ys, hys, rfl⟩
      exact .cons hy hys
    · rintro (_ | ⟨hy, hys⟩)
      exact ⟨_, hy, _, hys, rfl⟩

theorem levels?_eq_some {side : Side} {j : Json} {us : List (LevelUpdate Float)} :
    Frame.levels? side j = some us ↔ Levels side j us := by
  constructor
  · intro h
    cases j with
    | arr items =>
      rw [Frame.levels?, mapM_eq_some] at h
      exact .mk (h.imp fun _ _ => level?_eq_some.mp)
    | null | bool | num | str | obj => cases h
  · rintro ⟨h⟩
    rw [Frame.levels?, mapM_eq_some]
    exact h.imp fun _ _ => level?_eq_some.mpr

theorem arg?_eq_some {j : Json} {channel instId : Text} :
    Frame.arg? j = some (channel, instId) ↔
      j.field? "channel" = some (.str channel) ∧ j.field? "instId" = some (.str instId) := by
  simp only [Frame.arg?, Option.bind_eq_bind, Option.bind_eq_some_iff, text?_eq_some,
    Option.pure_def, Option.some_inj, Prod.mk.injEq]
  constructor
  · rintro ⟨c, ⟨_, hc, rfl⟩, i, ⟨_, hi, rfl⟩, rfl, rfl⟩
    exact ⟨hc, hi⟩
  · rintro ⟨hc, hi⟩
    exact ⟨_, ⟨_, hc, rfl⟩, _, ⟨_, hi, rfl⟩, rfl, rfl⟩

theorem payload?_eq_some {j v : Json} : Frame.payload? j = some v ↔ j = .arr [v] := by
  unfold Frame.payload?
  split
  · simp
  · rename_i hne
    exact iff_of_false (fun h => by cases h) fun h => hne v h

theorem optionalText_eq_some {j : Option Json} {t : Option Text} :
    Frame.optional? Frame.text? j = some t ↔ j = t.map .str := by
  cases j with
  | none => cases t <;> simp [Frame.optional?]
  | some j => cases t <;> simp [Frame.optional?, text?_eq_some]

theorem optionalInteger_isSome {j : Option Json} :
    (∃ x, Frame.optional? Frame.integer? j = some x) ↔
      ∀ v, j = some v → ∃ x, v = .num x ∧ Integral x := by
  cases j with
  | none => exact iff_of_true ⟨none, rfl⟩ fun _ h => by cases h
  | some j =>
    simp only [Frame.optional?, Option.map_eq_some_iff, integer?_eq_some, Option.some_inj,
      forall_eq']
    exact ⟨fun ⟨_, x, hx, _⟩ => ⟨x, hx⟩, fun ⟨x, hx⟩ => ⟨some x, x, hx, rfl⟩⟩

theorem book?_eq_some {j : Json} {f : BookFrame} :
    Frame.book? j = some f ↔ ∃ p : Parts, Carries j p ∧ p.frame = f := by
  simp only [Frame.book?, Option.bind_eq_bind, Option.bind_eq_some_iff, Option.pure_def,
    Option.some_inj, Prod.exists, arg?_eq_some, action?_eq_some, payload?_eq_some, levels?_eq_some,
    integer?_eq_some, optionalText_eq_some]
  constructor
  · rintro ⟨channel, instId, ⟨arg, harg, hids⟩, action, ⟨_, haction, rfl⟩, data, ⟨_, hdata, rfl⟩, asks,
      hasks, bids, hbids, ts, hts, checksum, hchecksum, prevSeqId, ⟨_, hprev, rfl, hprevInt⟩, seqId,
      ⟨_, hseq, rfl, hseqInt⟩, rfl⟩
    exact ⟨⟨action, channel, instId, seqId, prevSeqId, ts, bids, asks⟩,
      ⟨⟨arg, harg, hids⟩, haction, data, hdata, ⟨hseq, hseqInt⟩, ⟨hprev, hprevInt⟩, hts,
        optionalInteger_isSome.mp ⟨checksum, hchecksum⟩, hbids, hasks⟩, rfl⟩
  · rintro ⟨p, ⟨⟨arg, harg, hids⟩, haction, data, hdata, hp⟩, rfl⟩
    obtain ⟨checksum, hchecksum⟩ := optionalInteger_isSome.mpr hp.checksum
    exact ⟨p.channel, p.instId, ⟨arg, harg, hids⟩, p.action, ⟨_, haction, rfl⟩, data,
      ⟨_, hdata, rfl⟩, p.asks, hp.asks, p.bids, hp.bids, p.ts, hp.ts, checksum, hchecksum,
      p.prevSeqId, ⟨_, hp.prevSeqId.1, rfl, hp.prevSeqId.2⟩, p.seqId, ⟨_, hp.seqId.1, rfl, hp.seqId.2⟩,
      rfl⟩

theorem ofJson?_eq_book {j : Json} {f : BookFrame} :
    Frame.ofJson? j = some (.book f) ↔ ∃ p : Parts, Carries j p ∧ p.frame = f := by
  rw [← book?_eq_some, Frame.ofJson?]
  cases Frame.book? j with
  | some g => simp
  | none =>
    have hevent : Frame.event? j ≠ some (.book f) := by
      simp [Frame.event?, Option.bind_eq_some_iff]
    simpa using hevent

theorem ofText?_eq_book {t : Text} {f : BookFrame} :
    Frame.ofText? t = some (.book f) ↔
      ∃ j, Json.read? t = some j ∧ ∃ p : Parts, Carries j p ∧ p.frame = f := by
  simp only [← ofJson?_eq_book, Frame.ofText?]
  split
  · rename_i hpong
    have hread : Json.read? (ofString "pong") = none := by decide
    simp [hpong, hread]
  · exact Option.bind_eq_some_iff

def readsBook (check : BookFrame → Bool) (t : Text) : Bool :=
  match Frame.ofText? t with
  | some (.book f) => check f
  | _ => false

theorem exists_of_readsBook {check : BookFrame → Bool} {t : Text} (h : readsBook check t = true) :
    ∃ f, Frame.ofText? t = some (.book f) ∧ check f = true := by
  unfold readsBook at h
  split at h
  · exact ⟨_, ‹_›, h⟩
  · cases h

theorem Levels.isNonneg {side : Side} {j : Json} {us : List (LevelUpdate Float)}
    (h : Levels side j us) :
    ∀ u ∈ us, Scalar.isNonneg u.price = true ∧ Scalar.isNonneg u.totalQty = true := by
  obtain ⟨h⟩ := h
  induction h with
  | nil => exact List.forall_mem_nil _
  | cons hlevel _ ih =>
    obtain ⟨hprice, hqty⟩ := hlevel
    exact List.forall_mem_cons.mpr ⟨⟨hprice.isNonneg, hqty.isNonneg⟩, ih⟩

theorem isNonneg_of_ofText {t : Text} {f : BookFrame} (h : Frame.ofText? t = some (.book f)) :
    ∀ u ∈ f.updates, Scalar.isNonneg u.price = true ∧ Scalar.isNonneg u.totalQty = true := by
  obtain ⟨_, -, p, ⟨-, -, _, -, hp⟩, rfl⟩ := ofText?_eq_book.mp h
  obtain ⟨_, -, hbids⟩ := hp.bids
  obtain ⟨_, -, hasks⟩ := hp.asks
  intro u hu
  exact (List.mem_append.mp hu).elim (hbids.isNonneg u) (hasks.isNonneg u)

end LimitBook.Feed
