import LimitBook.Proofs.Feed.Frame
import LimitBook.Proofs.Json.Printer

namespace LimitBook.Feed

open Text Json Json.Grammar

def sideName : Side → Text
  | .buy => "bids"
  | .sell => "asks"

/-- What keeps the one object in a frame's data from being right. -/
inductive WrongPayload (d : Json) : Prop where
  | id (key : Text) (hkey : key = "seqId" ∨ key = "prevSeqId")
      (h : ∀ x, d.field? key = some (.num x) → ¬Integral x)
  | ts {v : Json} (hv : d.field? "ts" = some v) (h : ∀ t, v ≠ .str t)
  | checksum {v : Json} (hv : d.field? "checksum" = some v) (h : ∀ x, v = .num x → ¬Integral x)
  | side (side : Side) (h : ∀ items, d.field? (sideName side) ≠ some (.arr items))
  | level (side : Side) {items : List Json} {v : Json}
      (hitems : d.field? (sideName side) = some (.arr items)) (hv : v ∈ items)
      (h : ∀ u, ¬Level side v u)

/-- What keeps a value from being a book frame: a field that has to be there and is missing, or
anything that is not as it has to be. -/
inductive Wrong (j : Json) : Prop where
  | name (key : Text) (hkey : key = "channel" ∨ key = "instId")
      (h : ∀ v t, j.field? "arg" = some v → v.field? key ≠ some (.str t))
  | action (h : ∀ a : Action, j.field? "action" ≠ some (.str a.name))
  | data (h : ∀ d, j.field? "data" ≠ some (.arr [d]))
  | payload {d : Json} (hd : j.field? "data" = some (.arr [d])) (h : WrongPayload d)

variable {j d : Json} {p : Parts} {side : Side} {us : List (LevelUpdate Float)}

theorem exists_levels_iff {items : List Json} :
    (∃ us, List.Forall₂ (Level side) items us) ↔ ∀ v ∈ items, ∃ u, Level side v u := by
  induction items with
  | nil => exact iff_of_true ⟨[], .nil⟩ (List.forall_mem_nil _)
  | cons v items ih =>
    rw [List.forall_mem_cons, ← ih]
    constructor
    · rintro ⟨_, hu | ⟨hu, hus⟩⟩
      exact ⟨⟨_, hu⟩, _, hus⟩
    · rintro ⟨⟨u, hu⟩, us, hus⟩
      exact ⟨u :: us, .cons hu hus⟩

theorem Payload.levels (h : Payload d p) (side : Side) :
    ∃ us v, d.field? (sideName side) = some v ∧ Levels side v us := by
  cases side with
  | buy => exact ⟨_, h.bids⟩
  | sell => exact ⟨_, h.asks⟩

theorem Payload.not_wrong (h : Payload d p) : ¬WrongPayload d := by
  rintro (⟨_, rfl | rfl, hwrong⟩ | ⟨hv, hwrong⟩ | ⟨hv, hwrong⟩ | ⟨side, hwrong⟩ |
    ⟨side, hitems, hv, hwrong⟩)
  · exact hwrong _ h.seqId.1 h.seqId.2
  · exact hwrong _ h.prevSeqId.1 h.prevSeqId.2
  · obtain ⟨t, -, ht⟩ := Option.map_eq_some_iff.mp (h.ts.symm.trans hv)
    exact hwrong t ht.symm
  · obtain ⟨x, hx, hint⟩ := h.checksum _ hv
    exact hwrong x hx hint
  · obtain ⟨us, _, hfield, ⟨-⟩⟩ := h.levels side
    exact hwrong _ hfield
  · obtain ⟨us, _, hfield, ⟨hlevels⟩⟩ := h.levels side
    cases hitems.symm.trans hfield
    obtain ⟨u, hu⟩ := exists_levels_iff.mp ⟨us, hlevels⟩ _ hv
    exact hwrong u hu

theorem Carries.not_wrong (h : Carries j p) : ¬Wrong j := by
  obtain ⟨_, hd, hpayload⟩ := h.data
  obtain ⟨_, harg, hchannel, hinstId⟩ := h.arg
  rintro (⟨_, rfl | rfl, hwrong⟩ | hwrong | hwrong | ⟨hd', hwrong⟩)
  · exact hwrong _ _ harg hchannel
  · exact hwrong _ _ harg hinstId
  · exact hwrong _ h.action
  · exact hwrong _ hd
  · cases hd.symm.trans hd'
    exact hpayload.not_wrong hwrong

theorem levels_of_not_wrong (h : ¬WrongPayload d) (side : Side) :
    ∃ us v, d.field? (sideName side) = some v ∧ Levels side v us := by
  obtain ⟨items, hitems⟩ : ∃ items, d.field? (sideName side) = some (.arr items) := by
    by_contra hne
    exact h (.side side fun items hitems => hne ⟨items, hitems⟩)
  obtain ⟨us, hus⟩ : ∃ us, List.Forall₂ (Level side) items us := by
    refine exists_levels_iff.mpr fun v hv => ?_
    by_contra hne
    exact h (.level side hitems hv fun u hu => hne ⟨u, hu⟩)
  exact ⟨us, _, hitems, .mk hus⟩

theorem id_of_not_wrong (h : ¬WrongPayload d) {key : Text} (hkey : key = "seqId" ∨ key = "prevSeqId") :
    ∃ x, d.field? key = some (.num x) ∧ Integral x := by
  by_contra hne
  exact h (.id key hkey fun x hx hint => hne ⟨x, hx, hint⟩)

theorem ts_of_not_wrong (h : ¬WrongPayload d) : ∃ ts : Option Text, d.field? "ts" = ts.map .str := by
  cases hv : d.field? "ts" with
  | none => exact ⟨none, rfl⟩
  | some v =>
    by_contra hne
    exact h (.ts hv fun t ht => hne ⟨some t, by rw [ht, Option.map_some]⟩)

theorem name_of_not_wrong (h : ¬Wrong j) {key : Text} (hkey : key = "channel" ∨ key = "instId") :
    ∃ v t, j.field? "arg" = some v ∧ v.field? key = some (.str t) := by
  by_contra hne
  exact h (.name key hkey fun v t hv ht => hne ⟨v, t, hv, ht⟩)

theorem exists_carries_iff : (∃ p, Carries j p) ↔ ¬Wrong j := by
  refine ⟨fun ⟨p, hp⟩ => hp.not_wrong, fun h => ?_⟩
  obtain ⟨arg, channel, harg, hchannel⟩ := name_of_not_wrong h (.inl rfl)
  obtain ⟨_, instId, harg', hinstId⟩ := name_of_not_wrong h (.inr rfl)
  cases harg.symm.trans harg'
  obtain ⟨action, haction⟩ : ∃ a : Action, j.field? "action" = some (.str a.name) := by
    by_contra hne
    exact h (.action fun a ha => hne ⟨a, ha⟩)
  obtain ⟨d, hd⟩ : ∃ d, j.field? "data" = some (.arr [d]) := by
    by_contra hne
    exact h (.data fun d hd => hne ⟨d, hd⟩)
  have hpayload : ¬WrongPayload d := fun hwrong => h (.payload hd hwrong)
  obtain ⟨seqId, hseqId⟩ := id_of_not_wrong hpayload (.inl rfl)
  obtain ⟨prevSeqId, hprevSeqId⟩ := id_of_not_wrong hpayload (.inr rfl)
  obtain ⟨ts, hts⟩ := ts_of_not_wrong hpayload
  obtain ⟨bids, hbids⟩ := levels_of_not_wrong hpayload .buy
  obtain ⟨asks, hasks⟩ := levels_of_not_wrong hpayload .sell
  refine ⟨⟨action, channel, instId, seqId, prevSeqId, ts, bids, asks⟩,
    ⟨arg, harg, hchannel, hinstId⟩, haction, d, hd, hseqId, hprevSeqId, hts, fun v hv => ?_, hbids,
    hasks⟩
  by_contra hne
  exact hpayload (.checksum hv fun x hx hint => hne ⟨x, hx, hint⟩)

/-- The parts with no sign for an id that is zero. -/
def Parts.unsigned (p : Parts) : Parts :=
  { p with seqId := unsignZero p.seqId, prevSeqId := unsignZero p.prevSeqId }

theorem Integral.unsigned {x : Float} (h : Integral x) : Integral (unsignZero x) := by
  unfold unsignZero
  split_ifs
  · exact (Number.isInteger_iff 0).mp (by decide +kernel)
  · exact h

theorem Integral.written {x : Float} (h : Integral x) :
    written (.num x) = .num (unsignZero x) := by
  have hx : x.isFinite = true := by
    obtain ⟨n, hn⟩ := h
    rw [← Number.value?_isSome, hn]
    rfl
  rw [Grammar.written, if_pos hx]

theorem Level.written {v : Json} {u : LevelUpdate Float} (h : Level side v u) : written v = v := by
  obtain ⟨-, -⟩ := h
  simp [Grammar.written, writtenItems, writtenItems_eq, Function.comp_def]

theorem Levels.written {v : Json} (h : Levels side v us) : written v = v := by
  obtain ⟨h⟩ := h
  rw [Grammar.written, writtenItems_eq, Json.arr.injEq]
  refine (List.map_congr_left fun v hv => ?_).trans (List.map_id _)
  obtain ⟨u, hu⟩ := exists_levels_iff.mp ⟨us, h⟩ v hv
  exact hu.written

theorem Payload.written (h : Payload d p) : Payload (written d) p.unsigned where
  seqId := by
    rw [field?_written, h.seqId.1, Option.map_some, h.seqId.2.written]
    exact ⟨rfl, h.seqId.2.unsigned⟩
  prevSeqId := by
    rw [field?_written, h.prevSeqId.1, Option.map_some, h.prevSeqId.2.written]
    exact ⟨rfl, h.prevSeqId.2.unsigned⟩
  ts := by
    rw [field?_written, h.ts, Option.map_map]
    rfl
  checksum v hv := by
    rw [field?_written, Option.map_eq_some_iff] at hv
    obtain ⟨w, hw, rfl⟩ := hv
    obtain ⟨x, rfl, hx⟩ := h.checksum w hw
    exact ⟨_, hx.written, hx.unsigned⟩
  bids := by
    obtain ⟨v, hv, hlevels⟩ := h.bids
    refine ⟨v, ?_, hlevels⟩
    rw [field?_written, hv, Option.map_some, hlevels.written]
  asks := by
    obtain ⟨v, hv, hlevels⟩ := h.asks
    refine ⟨v, ?_, hlevels⟩
    rw [field?_written, hv, Option.map_some, hlevels.written]

theorem Carries.written (h : Carries j p) : Carries (written j) p.unsigned where
  arg := by
    obtain ⟨v, hv, hchannel, hinstId⟩ := h.arg
    refine ⟨Grammar.written v, ?_, ?_, ?_⟩
    · rw [field?_written, hv, Option.map_some]
    · rw [field?_written, hchannel]
      rfl
    · rw [field?_written, hinstId]
      rfl
  action := by
    rw [field?_written, h.action]
    rfl
  data := by
    obtain ⟨d, hd, hpayload⟩ := h.data
    refine ⟨Grammar.written d, ?_, hpayload.written⟩
    rw [field?_written, hd]
    rfl

theorem ofText?_of_derives {t : Text} (h : Derives (.element j) t) {f : BookFrame} :
    Frame.ofText? t = some (.book f) ↔ ∃ p, Carries j p ∧ p.frame = f := by
  rw [ofText?_eq_book]
  simp [read?_eq_some.mpr h]

/-- A text is read as a book frame if and only if it is JSON for a value that is one, and the frame
has the parts of the value, its levels with their prices and sizes, the bids before the asks. If
anything is wrong with the value, one level of many, nothing of it is read, and there is no other
reason for that. What is written of a book frame is read as that frame, but for the sign of an id
that is zero. -/
theorem read_whole :
    (∀ t f, Frame.ofText? t = some (.book f) ↔
        ∃ j p, Derives (.element j) t ∧ Carries j p ∧ p.frame = f) ∧
      (∀ t j, Derives (.element j) t →
        ((∀ f, Frame.ofText? t ≠ some (.book f)) ↔ Wrong j)) ∧
      ∀ j p, Distinct j → Carries j p → Frame.ofText? j.print = some (.book p.unsigned.frame) := by
  refine ⟨fun t f => ?_, fun t j ht => ?_, fun j p hj hp => ?_⟩
  · rw [ofText?_eq_book]
    simp only [read?_eq_some, exists_and_left]
  · rw [← not_iff_not, ← exists_carries_iff, not_forall]
    simp only [not_not, ofText?_of_derives ht]
    exact ⟨fun ⟨_, p, hp, _⟩ => ⟨p, hp⟩, fun ⟨p, hp⟩ => ⟨_, p, hp, rfl⟩⟩
  · exact (ofText?_of_derives (derives_print hj).bare).mpr ⟨_, hp.written, rfl⟩

def layeredText : Text :=
  "\x7b\"data\":[\x7b\"seqId\":8e0,\"bids\":[[\"99.50\",\"2\"],[\"99\",\"0.25\"]]," ++
    ofString "\"ts\":\"17\",\"asks\":[[\"101\",\"1\",\"0\",\"4\"]],\"prevSeqId\":-1\x7d]," ++
    ofString "\"action\":\"snapshot\", \"arg\":\x7b\"instId\":\"X\",\"channel\":\"books\"\x7d\x7d"

/-- A snapshot with two bids and an ask is read with its three levels, and read again as it is
written. -/
theorem read_whole_layeredText : ∃ j p, Derives (.element j) layeredText ∧ Carries j p ∧
    p.frame.updates.length = 3 ∧ Frame.ofText? layeredText = some (.book p.frame) ∧
      Frame.ofText? j.print = some (.book p.unsigned.frame) := by
  have hthree : readsBook (fun f => f.updates.length == 3) layeredText = true := by decide +kernel
  obtain ⟨f, hf, hlevels⟩ := exists_of_readsBook hthree
  obtain ⟨hread, -, hprint⟩ := read_whole
  obtain ⟨j, p, hj, hp, rfl⟩ := (hread _ _).mp hf
  exact ⟨j, p, hj, hp, eq_of_beq hlevels, hf, hprint j p hj.distinct hp⟩

end LimitBook.Feed
