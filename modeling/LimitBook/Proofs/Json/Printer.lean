import LimitBook.Json.Printer
import LimitBook.Proofs.Json.Number
import LimitBook.Proofs.Json.Reader

namespace LimitBook.Json.Grammar

open Text

theorem Characters.append {s t s' t' : Text} (h : Characters s t) (h' : Characters s' t') :
    Characters (s ++ s') (t ++ t') := by
  induction h' with
  | nil => rwa [List.append_nil, List.append_nil]
  | snoc _ hc ih =>
    rw [← List.append_assoc, ← List.append_assoc]
    exact ih.snoc hc

theorem Character.characters {s : Text} {u : UInt16} (h : Character s u) : Characters s [u] :=
  Characters.nil.snoc h

theorem digit?_hexDigit : ∀ d : Fin 16, digit? (hexDigit d) = some d.val := by decide

theorem character_escapeUnit (u : UInt16) : Character (escapeUnit u) u := by
  have hu : u.toNat < 65536 := u.toNat_lt
  have hdigit : ∀ d, d < 16 → digit? (hexDigit d) = some d := fun d hd => digit?_hexDigit ⟨d, hd⟩
  have hhex := (((Hex.nil.snoc (hdigit (u.toNat / 4096) (by omega))).snoc
    (hdigit (u.toNat / 256 % 16) (by omega))).snoc (hdigit (u.toNat / 16 % 16) (by omega))).snoc
      (hdigit (u.toNat % 16) (by omega))
  have hvalue : 16 * (16 * (16 * (16 * 0 + u.toNat / 4096) + u.toNat / 256 % 16) +
      u.toNat / 16 % 16) + u.toNat % 16 = u.toNat := by omega
  rw [hvalue] at hhex
  have hcode := Character.code hhex rfl
  rwa [show u.toNat.toUInt16 = u from UInt16.ofNat_toNat] at hcode

theorem character_escape (u : UInt16) : Character (escape u) u := by
  unfold escape
  split_ifs with hquote hslash hb hf hn hr ht hcontrol
  · exact .letter (by rw [hquote]; decide)
  · exact .letter (by rw [hslash]; decide)
  · exact .letter (by rw [hb]; decide)
  · exact .letter (by rw [hf]; decide)
  · exact .letter (by rw [hn]; decide)
  · exact .letter (by rw [hr]; decide)
  · exact .letter (by rw [ht]; decide)
  · exact character_escapeUnit u
  · exact .plain hquote hslash hcontrol

theorem character_surrogate {u : UInt16} (h : 0xD800 ≤ u) : Character [u] u := by
  have hne : ∀ v : UInt16, v < 0xD800 → u ≠ v := fun v hv hu =>
    absurd (UInt16.le_trans h (UInt16.le_of_eq hu)) (UInt16.not_le.mpr hv)
  exact .plain (hne _ (by decide)) (hne _ (by decide)) (UInt16.not_lt.mpr (UInt16.le_trans (by decide) h))

theorem characters_escapeAll (t : Text) : Characters (escapeAll t) t := by
  fun_induction escapeAll t with
  | case1 => exact .nil
  | case2 u h => exact (character_escapeUnit u).characters
  | case3 u h => exact (character_escape u).characters
  | case4 u v t hu hv ih =>
    simp only [isHighSurrogate, isLowSurrogate, Bool.and_eq_true, decide_eq_true_eq] at hu hv
    have hlow : 0xD800 ≤ v := UInt16.le_trans (by decide) hv.1
    exact (character_surrogate hu.1).characters.append
      ((character_surrogate hlow).characters.append ih)
  | case5 u v t hu hv ih => exact (character_escapeUnit u).characters.append ih
  | case6 u v t hu hv ih => exact (character_escapeUnit u).characters.append ih
  | case7 u v t hu hv ih => exact (character_escape u).characters.append ih

theorem quoted_quote (t : Text) : Quoted (quote t) t := .mk (characters_escapeAll t)

/-- In no object two fields have one name. -/
inductive Distinct : Json → Prop where
  | null : Distinct .null
  | bool (b : Bool) : Distinct (.bool b)
  | num (x : Float) : Distinct (.num x)
  | str (t : Text) : Distinct (.str t)
  | arr {items : List Json} (h : ∀ v ∈ items, Distinct v) : Distinct (.arr items)
  | obj {fields : Fields} (hnames : (fields.map Prod.fst).Nodup)
      (h : ∀ f ∈ fields, Distinct f.2) : Distinct (.obj fields)

mutual

/-- What a value is once it is written: what is not finite is null, and zero has no sign. -/
def written : Json → Json
  | .null => .null
  | .bool b => .bool b
  | .num x => if x.isFinite then .num (unsignZero x) else .null
  | .str t => .str t
  | .arr items => .arr (writtenItems items)
  | .obj fields => .obj (writtenFields fields)
termination_by structural j => j

def writtenItems : List Json → List Json
  | [] => []
  | v :: vs => written v :: writtenItems vs
termination_by structural vs => vs

def writtenFields : List (Text × Json) → List (Text × Json)
  | [] => []
  | f :: fs => writtenField f :: writtenFields fs
termination_by structural fs => fs

def writtenField : Text × Json → Text × Json
  | (key, v) => (key, written v)
termination_by structural f => f

end

theorem writtenItems_eq (vs : List Json) : writtenItems vs = vs.map written := by
  induction vs with
  | nil => rfl
  | cons v vs ih => rw [writtenItems, ih, List.map_cons]

theorem get?_writtenFields (key : Text) (fs : Fields) :
    get? key (writtenFields fs) = (get? key fs).map written := by
  induction fs with
  | nil => rfl
  | cons f fs ih =>
    rw [writtenFields, writtenField, get?, get?, ih]
    split_ifs <;> rfl

theorem field?_written (key : Text) (j : Json) :
    (written j).field? key = (j.field? key).map written := by
  cases j with
  | obj fields => exact get?_writtenFields key fields
  | num x =>
    rw [written]
    split_ifs <;> rfl
  | null | bool | str | arr => rfl

theorem put_append {key : Text} {v : Json} {fs : Fields} (h : key ∉ fs.map Prod.fst) :
    put key v fs = fs ++ [(key, v)] := by
  induction fs with
  | nil => rfl
  | cons f fs ih =>
    rw [List.map_cons, List.mem_cons, not_or] at h
    rw [put, if_neg (Ne.symm h.1), ih h.2, List.cons_append]

theorem Derives.bare {t : Text} {v : Json} (h : Derives (.value v) t) : Derives (.element v) t := by
  have helement := Derives.element .nil h .nil
  rwa [List.append_nil] at helement

theorem name_quote (key : Text) : Name (quote key) key := by
  have hname := Name.mk .nil (quoted_quote key) .nil
  rwa [List.append_nil] at hname

theorem derives_printMoreItems {vs : List Json} (h : ∀ v ∈ vs, Derives (.value (written v)) (print v))
    {us : List Json} {s : Text} (hs : Derives (.items us) s) :
    ∃ t, s ++ printMoreItems vs = t ++ [unit ']'] ∧ Derives (.items (us ++ writtenItems vs)) t := by
  induction vs generalizing us s with
  | nil =>
    rw [writtenItems, List.append_nil]
    exact ⟨s, rfl, hs⟩
  | cons v vs ih =>
    rw [List.forall_mem_cons] at h
    obtain ⟨t, ht, hderives⟩ := ih h.2 (hs.items h.1.bare)
    refine ⟨t, ?_, ?_⟩
    · rw [← ht, printMoreItems]
      simp
    · rw [writtenItems]
      simpa using hderives

theorem derives_printMoreFields {fs : Fields}
    (h : ∀ f ∈ fs, Derives (.value (written f.2)) (print f.2)) (gs : Fields)
    (hnames : (gs.map Prod.fst ++ fs.map Prod.fst).Nodup) {s : Text} (hs : Derives (.members gs) s) :
    ∃ t, s ++ printMoreFields fs = t ++ [unit '}'] ∧
      Derives (.members (gs ++ writtenFields fs)) t := by
  induction fs generalizing gs s with
  | nil =>
    rw [writtenFields, List.append_nil]
    exact ⟨s, rfl, hs⟩
  | cons f fs ih =>
    rw [List.forall_mem_cons] at h
    have hnew : f.1 ∉ gs.map Prod.fst := fun hmem =>
      List.disjoint_of_nodup_append hnames hmem List.mem_cons_self
    have hmore := hs.members (name_quote f.1) h.1.bare
    rw [put_append hnew] at hmore
    obtain ⟨t, ht, hderives⟩ := ih h.2 _ (by simpa using hnames) hmore
    refine ⟨t, ?_, ?_⟩
    · rw [← ht, printMoreFields, printField]
      simp
    · rw [writtenFields, writtenField]
      simpa using hderives

theorem derives_print {j : Json} (h : Distinct j) : Derives (.value (written j)) (print j) := by
  induction h with
  | null => exact .null
  | bool b => cases b <;> constructor
  | num x =>
    rw [written, print, printNumber]
    split_ifs with hx
    · exact .number (format_numeral hx)
    · exact .null
  | str t => exact .string (quoted_quote t)
  | @arr items _ ih =>
    rw [written, print]
    cases items with
    | nil => exact .emptyList .nil
    | cons v vs =>
      rw [List.forall_mem_cons] at ih
      obtain ⟨t, ht, hderives⟩ := derives_printMoreItems ih.2 (.item ih.1.bare)
      rw [printItems, ht]
      exact .list hderives
  | @obj fields hnames _ ih =>
    rw [written, print]
    cases fields with
    | nil => exact .emptyObject .nil
    | cons f fs =>
      rw [List.forall_mem_cons] at ih
      obtain ⟨t, ht, hderives⟩ := derives_printMoreFields ih.2 [(f.1, written f.2)] hnames
        (.member (name_quote f.1) ih.1.bare)
      rw [printFields, printField, ht, writtenFields, writtenField]
      exact .object hderives

theorem read?_print {j : Json} (h : Distinct j) : read? (print j) = some (written j) :=
  read?_eq_some.mpr (derives_print h).bare

theorem put_names (key : Text) (v : Json) (fs : Fields) :
    (put key v fs).map Prod.fst =
      if key ∈ fs.map Prod.fst then fs.map Prod.fst else fs.map Prod.fst ++ [key] := by
  split_ifs with h
  · induction fs with
    | nil => cases h
    | cons f fs ih =>
      rw [put]
      split_ifs with hk
      · rfl
      · rw [List.map_cons, List.map_cons, ih ((List.mem_cons.mp h).resolve_left (Ne.symm hk))]
  · rw [put_append h, List.map_append, List.map_singleton]

theorem mem_put {key : Text} {v : Json} {fs : Fields} {f : Text × Json} (h : f ∈ put key v fs) :
    f.2 = v ∨ f ∈ fs := by
  induction fs with
  | nil => exact .inl (by rw [List.mem_singleton.mp h])
  | cons g fs ih =>
    rw [put] at h
    split_ifs at h
    · obtain rfl | h := List.mem_cons.mp h
      · exact .inl rfl
      · exact .inr (List.mem_cons_of_mem _ h)
    · obtain rfl | h := List.mem_cons.mp h
      · exact .inr List.mem_cons_self
      · exact (ih h).imp_right (List.mem_cons_of_mem _)

/-- `Distinct` of every value in a part, and of the names of its members. -/
def Part.Distinct : Part → Prop
  | .value v | .element v => Grammar.Distinct v
  | .items vs => ∀ v ∈ vs, Grammar.Distinct v
  | .members fs => (fs.map Prod.fst).Nodup ∧ ∀ f ∈ fs, Grammar.Distinct f.2

theorem Derives.distinct {p : Part} {t : Text} (h : Derives p t) : p.Distinct := by
  induction h with
  | null => exact .null
  | true | false => exact .bool _
  | number => exact .num _
  | string => exact .str _
  | emptyList => exact .arr fun _ hv => absurd hv List.not_mem_nil
  | list _ ih => exact .arr ih
  | emptyObject => exact .obj List.nodup_nil fun _ hf => absurd hf List.not_mem_nil
  | object _ ih => exact .obj ih.1 ih.2
  | element _ _ _ ih => exact ih
  | item _ ih => exact List.forall_mem_singleton.mpr ih
  | items _ _ ihs ih =>
    exact List.forall_mem_append.mpr ⟨ihs, List.forall_mem_singleton.mpr ih⟩
  | member _ _ ih => exact ⟨List.nodup_singleton _, List.forall_mem_singleton.mpr ih⟩
  | members _ _ _ ihs ih =>
    refine ⟨?_, fun f hf => ?_⟩
    · rw [put_names]
      split_ifs with hmem
      · exact ihs.1
      · exact List.Nodup.append ihs.1 (List.nodup_singleton _)
          (List.disjoint_singleton.mpr hmem)
    · obtain hv | hf := mem_put hf
      · rw [hv]
        exact ih
      · exact ihs.2 f hf

end LimitBook.Json.Grammar
