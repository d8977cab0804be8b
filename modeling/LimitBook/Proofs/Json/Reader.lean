import LimitBook.Proofs.Json.Numeral

namespace LimitBook.Json.Grammar

open Text Reader

/-- Items and the commas after them. -/
inductive Listed : List Json → Text → Prop where
  | none : Listed [] []
  | some {vs : List Json} {t : Text} (h : Derives (.items vs) t) : Listed vs (t ++ [unit ','])

/-- Members and the commas after them. -/
inductive Fielded : Fields → Text → Prop where
  | none : Fielded [] []
  | some {fs : Fields} {t : Text} (h : Derives (.members fs) t) : Fielded fs (t ++ [unit ','])

/-- The texts after which a value may come, inside some lists and objects that are open. -/
inductive AtValue : List Open → Text → Prop where
  | top {b : Text} (hb : Blank b) : AtValue [] b
  | list {stack : List Open} {t body b : Text} {vs : List Json} (h : AtValue stack t)
      (hi : Listed vs body) (hb : Blank b) :
      AtValue (.list vs.reverse :: stack) (t ++ unit '[' :: (body ++ b))
  | object {stack : List Open} {t body name key b : Text} {fs : Fields} (h : AtValue stack t)
      (hm : Fielded fs body) (hn : Name name key) (hb : Blank b) :
      AtValue (.object fs key :: stack) (t ++ unit '{' :: (body ++ name ++ unit ':' :: b))

/-- The texts after which the name of a field may come. -/
inductive AtKey (stack : List Open) (fs : Fields) : Text → Prop where
  | mk {t body b : Text} (h : AtValue stack t) (hm : Fielded fs body) (hb : Blank b) :
      AtKey stack fs (t ++ unit '{' :: (body ++ b))

def AtString (stack : List Open) : Role → Text → Prop
  | .value => AtValue stack
  | .key fs => AtKey stack fs

/-- The texts after which the reader is in a state. -/
inductive Reached : State → Text → Prop where
  | value {stack : List Open} {t : Text} (h : AtValue stack t) : Reached ⟨.value, stack⟩ t
  | firstItem {stack : List Open} {t b : Text} (h : AtValue stack t) (hb : Blank b) :
      Reached ⟨.firstItem, stack⟩ (t ++ unit '[' :: b)
  | firstKey {stack : List Open} {t b : Text} (h : AtValue stack t) (hb : Blank b) :
      Reached ⟨.firstKey, stack⟩ (t ++ unit '{' :: b)
  | key {stack : List Open} {fs : Fields} {t : Text} (h : AtKey stack fs t) :
      Reached ⟨.key fs, stack⟩ t
  | colon {stack : List Open} {fs : Fields} {t body name key : Text} (h : AtValue stack t)
      (hm : Fielded fs body) (hn : Name name key) :
      Reached ⟨.colon fs key, stack⟩ (t ++ unit '{' :: (body ++ name))
  | quoted {stack : List Open} {role : Role} {t s us : Text} (h : AtString stack role t)
      (hc : Characters s us) :
      Reached ⟨.quoted role us.reverse, stack⟩ (t ++ unit '"' :: s)
  | escape {stack : List Open} {role : Role} {t s us : Text} (h : AtString stack role t)
      (hc : Characters s us) :
      Reached ⟨.escape role us.reverse, stack⟩ (t ++ unit '"' :: (s ++ [unit '\\']))
  | unicode {stack : List Open} {role : Role} {t s us ds : Text} {left n : Nat}
      (h : AtString stack role t) (hc : Characters s us) (hx : Hex ds n)
      (hleft : ds.length + left = 4) (hpos : 0 < left) :
      Reached ⟨.unicode role us.reverse left n, stack⟩
        (t ++ unit '"' :: (s ++ unit '\\' :: unit 'u' :: ds))
  | number {stack : List Open} {t s : Text} {n : Reader.Numeral} (h : AtValue stack t)
      (hn : Scanned s n) : Reached ⟨.number n, stack⟩ (t ++ s)
  | word {stack : List Open} {t s left : Text} {v : Json} (h : AtValue stack t)
      (hw : Derives (.value v) (s ++ left)) : Reached ⟨.word left v, stack⟩ (t ++ s)
  | after {stack : List Open} {t s b : Text} {v : Json} (h : AtValue stack t)
      (hv : Derives (.value v) s) (hb : Blank b) : Reached ⟨.after v, stack⟩ (t ++ s ++ b)

theorem Reached.opened {stack : List Open} {role : Role} {t : Text} (h : AtString stack role t) :
    Reached ⟨.quoted role [], stack⟩ (t ++ [unit '"']) :=
  @Reached.quoted stack role t [] [] h .nil

theorem Blank.nil : Blank [] := fun _ h => absurd h List.not_mem_nil

theorem Blank.snoc {t : Text} {u : UInt16} (h : Blank t) (hu : isSpace u = true) :
    Blank (t ++ [u]) := by
  refine List.forall_mem_append.mpr ⟨h, List.forall_mem_singleton.mpr ?_⟩
  simpa [isSpace, or_assoc] using hu

theorem Listed.element {vs : List Json} {body s : Text} {v : Json} (h : Listed vs body)
    (hv : Derives (.element v) s) : Derives (.items (vs ++ [v])) (body ++ s) := by
  cases h with
  | none => exact .item hv
  | some h =>
    rw [List.append_assoc]
    exact .items h hv

theorem Fielded.element {fs : Fields} {body name key s : Text} {v : Json} (h : Fielded fs body)
    (hn : Name name key) (hv : Derives (.element v) s) :
    Derives (.members (put key v fs)) (body ++ name ++ unit ':' :: s) := by
  cases h with
  | none => exact .member hn hv
  | some h =>
    have hmembers := Derives.members h hn hv
    simpa using hmembers

theorem AtValue.space {stack : List Open} {t : Text} {u : UInt16} (h : AtValue stack t)
    (hu : isSpace u = true) : AtValue stack (t ++ [u]) := by
  cases h with
  | top hb => exact .top (hb.snoc hu)
  | list h hi hb => simpa using AtValue.list h hi (hb.snoc hu)
  | object h hm hn hb => simpa using AtValue.object h hm hn (hb.snoc hu)

theorem AtKey.space {stack : List Open} {fs : Fields} {t : Text} {u : UInt16}
    (h : AtKey stack fs t) (hu : isSpace u = true) : AtKey stack fs (t ++ [u]) := by
  obtain ⟨h, hm, hb⟩ := h
  simpa using AtKey.mk h hm (hb.snoc hu)

theorem Name.space {s key : Text} {u : UInt16} (h : Name s key) (hu : isSpace u = true) :
    Name (s ++ [u]) key := by
  obtain ⟨ha, h, hb⟩ := h
  simpa using Name.mk ha h (hb.snoc hu)

variable {stack : List Open} {t s b : Text} {u : UInt16} {v : Json} {s' : State}

theorem reached_value (h : AtValue stack t) (hu : Reader.value stack u = some s') :
    Reached s' (t ++ [u]) := by
  unfold Reader.value at hu
  split_ifs at hu with h1 h2 h3 h4 h5 h6
  · cases hu
    rw [h1]
    exact .firstKey h .nil
  · cases hu
    rw [h2]
    exact .firstItem h .nil
  · cases hu
    rw [h3]
    exact .opened h
  · cases hu
    rw [h4]
    exact .word h .true
  · cases hu
    rw [h5]
    exact .word h .false
  · cases hu
    rw [h6]
    exact .word h .null
  · obtain ⟨n, hn, rfl⟩ := Option.map_eq_some_iff.mp hu
    exact .number h (scanned_start hn)

theorem reached_after (h : AtValue stack t) (hv : Derives (.value v) s) (hb : Blank b)
    (hu : Reader.after stack v u = some s') : Reached s' (t ++ s ++ b ++ [u]) := by
  unfold Reader.after at hu
  by_cases hspace : isSpace u = true
  · rw [if_pos hspace] at hu
    cases hu
    rw [List.append_assoc _ b]
    exact .after h hv (hb.snoc hspace)
  · rw [if_neg hspace] at hu
    cases h with
    | top => cases hu
    | list h hi ha =>
      have hitems := hi.element (.element ha hv hb)
      simp only at hu
      split_ifs at hu with hcomma hclose
      · cases hu
        rw [hcomma, ← List.reverse_concat]
        simpa using Reached.value (.list h (.some hitems) .nil)
      · cases hu
        rw [hclose, List.reverse_cons, List.reverse_reverse]
        simpa using Reached.after h (.list hitems) .nil
    | object h hm hn ha =>
      have hmembers := hm.element hn (.element ha hv hb)
      simp only at hu
      split_ifs at hu with hcomma hclose
      · cases hu
        rw [hcomma]
        simpa using Reached.key (.mk h (.some hmembers) .nil)
      · cases hu
        rw [hclose]
        simpa using Reached.after h (.object hmembers) .nil

theorem letter_of_escaped {c x : UInt16} (h : escaped? c = some x) : (c, x) ∈ letters := by
  unfold escaped? at h
  simp only [Bool.or_eq_true, decide_eq_true_eq] at h
  split_ifs at h with hself hb hf hn hr ht
  · cases h
    obtain (rfl | rfl) | rfl := hself <;> decide
  all_goals
    cases h
    subst c
    decide

theorem reached_close {role : Role} {cs us : Text} (h : AtString stack role t)
    (hc : Characters cs us) :
    Reached (close stack us role) (t ++ unit '"' :: (cs ++ [unit '"'])) := by
  cases role with
  | value => simpa [close] using Reached.after (b := []) h (.string (.mk hc)) .nil
  | key fs =>
    obtain ⟨h, hm, hb⟩ := h
    simpa [close] using Reached.colon h hm (.mk hb (.mk hc) .nil)

theorem Reached.step {r : State} (h : Reached r t) (hu : Reader.step r u = some s') :
    Reached s' (t ++ [u]) := by
  cases h with
  | value h =>
    simp only [Reader.step] at hu
    split_ifs at hu with hspace
    · cases hu
      exact .value (h.space hspace)
    · exact reached_value h hu
  | firstItem h hb =>
    simp only [Reader.step] at hu
    split_ifs at hu with hspace hclose
    · cases hu
      simpa using Reached.firstItem h (hb.snoc hspace)
    · cases hu
      rw [hclose]
      simpa using Reached.after h (.emptyList hb) .nil
    · exact reached_value (.list h .none hb) hu
  | firstKey h hb =>
    simp only [Reader.step] at hu
    split_ifs at hu with hspace hclose hquote
    · cases hu
      simpa using Reached.firstKey h (hb.snoc hspace)
    · cases hu
      rw [hclose]
      simpa using Reached.after h (.emptyObject hb) .nil
    · cases hu
      rw [hquote]
      exact .opened (.mk h .none hb)
  | key h =>
    simp only [Reader.step] at hu
    split_ifs at hu with hspace hquote
    · cases hu
      exact .key (h.space hspace)
    · cases hu
      rw [hquote]
      exact .opened h
  | colon h hm hn =>
    simp only [Reader.step] at hu
    split_ifs at hu with hspace hcolon
    · cases hu
      simpa using Reached.colon h hm (hn.space hspace)
    · cases hu
      rw [hcolon]
      simpa using Reached.value (.object h hm hn .nil)
  | quoted h hc =>
    simp only [Reader.step, Reader.quoted, List.reverse_reverse] at hu
    split_ifs at hu with hquote hslash hcontrol
    · cases hu
      rw [hquote]
      simpa using reached_close h hc
    · cases hu
      rw [hslash]
      simpa using Reached.escape h hc
    · cases hu
      rw [← List.reverse_concat]
      simpa using Reached.quoted h (hc.snoc (.plain hquote hslash hcontrol))
  | escape h hc =>
    simp only [Reader.step] at hu
    split_ifs at hu with hcode
    · cases hu
      rw [hcode]
      simpa using Reached.unicode h hc .nil rfl (by decide)
    · obtain ⟨x, hx, rfl⟩ := Option.map_eq_some_iff.mp hu
      rw [← List.reverse_concat]
      simpa using Reached.quoted h (hc.snoc (.letter (letter_of_escaped hx)))
  | unicode h hc hx hleft hpos =>
    simp only [Reader.step] at hu
    obtain ⟨d, hd, hnext⟩ := Option.map_eq_some_iff.mp hu
    split_ifs at hnext with hone
    · cases hnext
      rw [← List.reverse_concat]
      simpa using Reached.quoted h (hc.snoc (.code (hx.snoc hd) (by simp; omega)))
    · cases hnext
      simpa using Reached.unicode h hc (hx.snoc hd) (by simp; omega) (by omega)
  | number h hn =>
    rename_i n
    simp only [Reader.step] at hu
    cases hextend : n.extend u with
    | some n' =>
      rw [hextend] at hu
      cases hu
      simpa using Reached.number h (hn.extend hextend)
    | none =>
      rw [hextend] at hu
      simp only [Option.ite_none_right_eq_some] at hu
      simpa using reached_after h (.number (hn.numeral hu.1)) .nil hu.2
  | word h hw =>
    rename_i left v
    cases left with
    | nil =>
      simp only [Reader.step] at hu
      rw [List.append_nil] at hw
      simpa using reached_after h hw .nil hu
    | cons c left =>
      simp only [Reader.step, Option.ite_none_right_eq_some] at hu
      obtain ⟨rfl, hu⟩ := hu
      cases hu
      rw [List.append_assoc]
      exact .word h (by simpa using hw)
  | after h hv hb =>
    exact reached_after h hv hb hu

def run (s : State) (t : Text) : Option State := t.foldlM Reader.step s

theorem run_append (s : State) (t t' : Text) : run s (t ++ t') = (run s t).bind (run · t') :=
  List.foldlM_append

theorem run_cons (s : State) (u : UInt16) (t : Text) :
    run s (u :: t) = (Reader.step s u).bind (run · t) := List.foldlM_cons

theorem Reached.run {r : State} (h : Reached r t) (hrun : run r s = some s') :
    Reached s' (t ++ s) := by
  induction s generalizing r t with
  | nil =>
    cases hrun
    rwa [List.append_nil]
  | cons u s ih =>
    rw [run_cons, Option.bind_eq_some_iff] at hrun
    obtain ⟨r', hstep, hrun⟩ := hrun
    have hreached := ih (h.step hstep) hrun
    rwa [List.append_assoc] at hreached

theorem Reached.finish {r : State} {j : Json} (h : Reached r t) (hr : Reader.finish r = some j) :
    Derives (.element j) t := by
  have helement : ∀ {t s b : Text}, AtValue [] t → Derives (.value j) s → Blank b →
      Derives (.element j) (t ++ s ++ b) := by
    rintro t s b ⟨ht⟩ hv hb
    exact .element ht hv hb
  obtain ⟨mode, stack⟩ := r
  unfold Reader.finish at hr
  simp only at hr
  split at hr
  · cases hr
    cases h with
    | after h hv hb => exact helement h hv hb
  · cases hr
    cases h with
    | word h hw =>
      rw [List.append_nil] at hw
      simpa using helement h hw .nil
  · cases h with
    | number h hn =>
      rw [Option.ite_none_right_eq_some] at hr
      obtain ⟨hcomplete, hr⟩ := hr
      cases hr
      simpa using helement h (.number (hn.numeral hcomplete)) .nil
  · cases hr

theorem derives_of_read {j : Json} (h : read? t = some j) : Derives (.element j) t := by
  obtain ⟨s, hrun, hfinish⟩ := Option.bind_eq_some_iff.mp h
  exact (Reached.run (.value (.top .nil)) hrun).finish hfinish

/-- The states in which a value is read, though its end may not have been seen. -/
inductive Done (stack : List Open) : Json → State → Prop where
  | after (v : Json) : Done stack v ⟨.after v, stack⟩
  | word (v : Json) : Done stack v ⟨.word [] v, stack⟩
  | number {n : Reader.Numeral} (h : n.complete = true) :
      Done stack (.num n.toFloat) ⟨.number n, stack⟩

def Ends (u : UInt16) : Prop :=
  isSpace u = true ∨ u = unit ',' ∨ u = unit ']' ∨ u = unit '}'

/-- The states in which a value may start. -/
inductive Starts : List Open → State → Prop where
  | value (stack : List Open) : Starts stack ⟨.value, stack⟩
  | first (stack : List Open) : Starts (.list [] :: stack) ⟨.firstItem, stack⟩

/-- The states in which a name may start. -/
inductive StartsKey (stack : List Open) : Fields → State → Prop where
  | key (fs : Fields) : StartsKey stack fs ⟨.key fs, stack⟩
  | first : StartsKey stack [] ⟨.firstKey, stack⟩

theorem isSpace_of_blank (h : Blank t) : ∀ u ∈ t, isSpace u = true := fun u hu => by
  simpa [isSpace, or_assoc] using h u hu

theorem extend_of_ends (n : Reader.Numeral) (hu : Ends u) : n.extend u = none := by
  have hspace : isSpace u = true → u = 0x20 ∨ u = 0x09 ∨ u = 0x0A ∨ u = 0x0D := fun h => by
    simpa [isSpace, or_assoc] using h
  obtain hu | rfl | rfl | rfl := hu
  · obtain rfl | rfl | rfl | rfl := hspace hu <;> rfl
  · rfl
  · rfl
  · rfl

theorem Done.step {r : State} (h : Done stack v r) (hu : Ends u) :
    Reader.step r u = Reader.after stack v u := by
  cases h with
  | after | word => rfl
  | number h => simp only [Reader.step, extend_of_ends _ hu, h, if_true]

theorem Done.space {r : State} (h : Done stack v r) (hb : Blank b) :
    ∃ r', run r b = some r' ∧ Done stack v r' := by
  replace hb := isSpace_of_blank hb
  induction b generalizing r with
  | nil => exact ⟨r, rfl, h⟩
  | cons u b ih =>
    obtain ⟨hu, hb⟩ := List.forall_mem_cons.mp hb
    rw [run_cons, h.step (.inl hu), Reader.after.eq_def, if_pos hu]
    exact ih (.after v) hb

theorem run_space {r : State} (hr : ∀ u, isSpace u = true → Reader.step r u = some r)
    (hb : Blank b) : run r b = some r := by
  replace hb := isSpace_of_blank hb
  induction b with
  | nil => rfl
  | cons u b ih =>
    obtain ⟨hu, hb⟩ := List.forall_mem_cons.mp hb
    rw [run_cons, hr u hu]
    exact ih hb

theorem Starts.space {r : State} (h : Starts stack r) (hb : Blank b) : run r b = some r := by
  refine run_space (fun u hu => ?_) hb
  cases h <;> simp only [Reader.step, hu, if_true]

theorem Starts.step {r : State} (h : Starts stack r) (hspace : isSpace u = false)
    (hclose : u ≠ unit ']') : Reader.step r u = Reader.value stack u := by
  cases h <;> simp only [Reader.step, hspace, hclose, Bool.false_eq_true, if_false]

theorem StartsKey.space {r : State} {fs : Fields} (h : StartsKey stack fs r) (hb : Blank b) :
    run r b = some r := by
  refine run_space (fun u hu => ?_) hb
  cases h <;> simp only [Reader.step, hu, if_true]

theorem StartsKey.quote {r : State} {fs : Fields} (h : StartsKey stack fs r) :
    Reader.step r (unit '"') = some ⟨.quoted (.key fs) [], stack⟩ := by
  cases h <;> rfl

theorem Hex.run {n : Nat} (h : Hex t n) (hsize : t.length < 4) (role : Role) (rev : Text) :
    run ⟨.unicode role rev 4 0, stack⟩ t = some ⟨.unicode role rev (4 - t.length) n, stack⟩ := by
  induction h with
  | nil => rfl
  | snoc h hu ih =>
    rename_i t n d u
    rw [List.length_append, List.length_singleton] at hsize ⊢
    rw [run_append, ih (by omega), Option.bind_some, run_cons]
    simp only [Reader.step, hu, Option.map_some]
    rw [if_neg (by omega)]
    rfl

theorem Character.run {c : Text} (h : Character c u) (role : Role) (rev : Text) :
    run ⟨.quoted role rev, stack⟩ c = some ⟨.quoted role (u :: rev), stack⟩ := by
  cases h with
  | plain hquote hslash hcontrol =>
    rw [run_cons]
    simp only [Reader.step, Reader.quoted, hquote, hslash, hcontrol, if_false]
    rfl
  | letter h =>
    rename_i c
    have hescaped : letters.all (fun x => x.1 != unit 'u' && escaped? x.1 == some x.2) = true := by
      decide
    have hc := List.all_eq_true.mp hescaped _ h
    simp only [Bool.and_eq_true, bne_iff_ne, beq_iff_eq] at hc
    obtain ⟨hcode, hc⟩ := hc
    have hslash : Reader.step ⟨.quoted role rev, stack⟩ (unit '\\') =
        some ⟨.escape role rev, stack⟩ := rfl
    rw [run_cons, hslash, Option.bind_some, run_cons]
    simp only [Reader.step, hcode, if_false, hc, Option.map_some]
    rfl
  | code h hsize =>
    cases h with
    | nil => cases hsize
    | snoc h hu =>
      rename_i t n d u
      have hslash : run ⟨.quoted role rev, stack⟩ [unit '\\', unit 'u'] =
          some ⟨.unicode role rev 4 0, stack⟩ := rfl
      rw [List.length_append, List.length_singleton] at hsize
      rw [show unit '\\' :: unit 'u' :: (t ++ [u]) = [unit '\\', unit 'u'] ++ (t ++ [u]) from rfl,
        run_append, hslash, Option.bind_some, run_append, h.run (by omega), Option.bind_some, run_cons]
      simp only [Reader.step, hu, Option.map_some]
      rw [if_pos (by omega)]
      rfl

theorem Characters.run {us : Text} (h : Characters s us) (role : Role) :
    run ⟨.quoted role [], stack⟩ s = some ⟨.quoted role us.reverse, stack⟩ := by
  induction h with
  | nil => rfl
  | snoc h hc ih => rw [run_append, ih, Option.bind_some, hc.run, List.reverse_concat]

theorem Quoted.run {r : State} {us : Text} (role : Role) (h : Quoted s us)
    (hr : Reader.step r (unit '"') = some ⟨.quoted role [], stack⟩) :
    run r s = some (close stack us role) := by
  obtain ⟨h⟩ := h
  have hclose : run ⟨.quoted role us.reverse, stack⟩ [unit '"'] = some (close stack us role) := by
    rw [run_cons]
    simp only [Reader.step, Reader.quoted, if_true, List.reverse_reverse]
    rfl
  rw [run_cons, hr, Option.bind_some, run_append, h.run, Option.bind_some, hclose]

theorem Name.run {r : State} {fs : Fields} {key : Text} (h : Name s key)
    (hr : StartsKey stack fs r) : run r s = some ⟨.colon fs key, stack⟩ := by
  obtain ⟨ha, h, hb⟩ := h
  have hcolon : run ⟨.colon fs key, stack⟩ _ = some ⟨.colon fs key, stack⟩ :=
    run_space (fun u hu => by simp only [Reader.step, hu, if_true]) hb
  rw [run_append, run_append, hr.space ha, Option.bind_some, h.run _ hr.quote, Option.bind_some]
  exact hcolon

def Reads : Part → Text → Prop
  | .value v, t | .element v, t =>
    ∀ stack r, Starts stack r → ∃ r', run r t = some r' ∧ Done stack v r'
  | .items vs, t => ∀ stack, ∃ r init v, vs = init ++ [v] ∧
      run ⟨.firstItem, stack⟩ t = some r ∧ Done (.list init.reverse :: stack) v r
  | .members fs, t => ∀ stack, ∃ r init key v, fs = put key v init ∧
      run ⟨.firstKey, stack⟩ t = some r ∧ Done (.object init key :: stack) v r

theorem Numeral.reads {x : Float} (h : Numeral t x) : Reads (.value (.num x)) t := by
  intro stack r hr
  obtain ⟨n, hn, hcomplete, rfl⟩ := h.scanned
  obtain ⟨u, s, m, rfl, hstart, hrun⟩ := hn.run
  have hne : ∀ w, Numeral.start? w = none → u ≠ w := fun w hw hu => by
    rw [hu, hw] at hstart
    cases hstart
  have hfirst : Reader.step r u = some ⟨.number m, stack⟩ := by
    rw [hr.step (by simp [isSpace, hne 0x20 rfl, hne 0x09 rfl, hne 0x0A rfl, hne 0x0D rfl])
      (hne _ rfl), Reader.value, if_neg (hne _ rfl), if_neg (hne _ rfl), if_neg (hne _ rfl),
      if_neg (hne _ rfl), if_neg (hne _ rfl), if_neg (hne _ rfl), hstart]
    rfl
  have hrest : ∀ {s : Text} {m : Reader.Numeral}, s.foldlM Numeral.extend m = some n →
      run ⟨.number m, stack⟩ s = some ⟨.number n, stack⟩ := by
    intro s
    induction s with
    | nil =>
      rintro m ⟨⟩
      rfl
    | cons u s ih =>
      intro m hm
      rw [List.foldlM_cons] at hm
      obtain ⟨m', hextend, hm⟩ := Option.bind_eq_some_iff.mp hm
      rw [run_cons]
      simp only [Reader.step, hextend]
      exact ih hm
  refine ⟨_, ?_, .number hcomplete⟩
  rw [run_cons, hfirst]
  exact hrest hrun

theorem reads_word {c : UInt16} {left : Text}
    (h : ∀ stack r, Starts stack r → Reader.step r c = some ⟨.word left v, stack⟩) :
    Reads (.value v) (c :: left) := by
  intro stack r hr
  have hrest : ∀ left : Text, run ⟨.word left v, stack⟩ left = some ⟨.word [] v, stack⟩ := by
    intro left
    induction left with
    | nil => rfl
    | cons u left ih =>
      rw [run_cons]
      simp only [Reader.step, if_true]
      exact ih
  refine ⟨_, ?_, .word v⟩
  rw [run_cons, h stack r hr]
  exact hrest left

theorem Derives.reads {p : Part} (h : Derives p t) : Reads p t := by
  induction h with
  | null => exact reads_word fun stack r hr => hr.step rfl (by decide)
  | true => exact reads_word fun stack r hr => hr.step rfl (by decide)
  | false => exact reads_word fun stack r hr => hr.step rfl (by decide)
  | number h => exact h.reads
  | string h =>
    intro stack r hr
    exact ⟨_, h.run .value (hr.step rfl (by decide)), .after _⟩
  | emptyList h =>
    intro stack r hr
    refine ⟨_, ?_, .after _⟩
    have hopen : Reader.step r (unit '[') = some ⟨.firstItem, stack⟩ := hr.step rfl (by decide)
    have hblank : run ⟨.firstItem, stack⟩ _ = some ⟨.firstItem, stack⟩ :=
      run_space (fun u hu => by simp only [Reader.step, hu, if_true]) h
    rw [run_cons, hopen, Option.bind_some, run_append, hblank]
    rfl
  | list h ih =>
    intro stack r hr
    obtain ⟨r', init, v, rfl, hrun, hdone⟩ := ih stack
    refine ⟨⟨.after (.arr (v :: init.reverse).reverse), stack⟩, ?_, ?_⟩
    · have hopen : Reader.step r (unit '[') = some ⟨.firstItem, stack⟩ := hr.step rfl (by decide)
      rw [run_cons, hopen, Option.bind_some, run_append, hrun, Option.bind_some, run_cons,
        hdone.step (.inr (.inr (.inl rfl)))]
      rfl
    · rw [List.reverse_cons, List.reverse_reverse]
      exact .after _
  | emptyObject h =>
    intro stack r hr
    refine ⟨_, ?_, .after _⟩
    have hopen : Reader.step r (unit '{') = some ⟨.firstKey, stack⟩ := hr.step rfl (by decide)
    have hblank : run ⟨.firstKey, stack⟩ _ = some ⟨.firstKey, stack⟩ :=
      run_space (fun u hu => by simp only [Reader.step, hu, if_true]) h
    rw [run_cons, hopen, Option.bind_some, run_append, hblank]
    rfl
  | object h ih =>
    intro stack r hr
    obtain ⟨r', init, key, v, rfl, hrun, hdone⟩ := ih stack
    refine ⟨⟨.after (.obj (put key v init)), stack⟩, ?_, .after _⟩
    have hopen : Reader.step r (unit '{') = some ⟨.firstKey, stack⟩ := hr.step rfl (by decide)
    rw [run_cons, hopen, Option.bind_some, run_append, hrun, Option.bind_some, run_cons,
      hdone.step (.inr (.inr (.inr rfl)))]
    rfl
  | element ha h hb ih =>
    intro stack r hr
    obtain ⟨r₁, hrun, hdone⟩ := ih stack r hr
    obtain ⟨r₂, hrun', hdone'⟩ := hdone.space hb
    refine ⟨r₂, ?_, hdone'⟩
    rw [run_append, run_append, hr.space ha, Option.bind_some, hrun, Option.bind_some, hrun']
  | item h ih =>
    intro stack
    obtain ⟨r, hrun, hdone⟩ := ih _ _ (.first stack)
    exact ⟨r, [], _, rfl, hrun, hdone⟩
  | items hvs h ihvs ih =>
    intro stack
    obtain ⟨r, init, v, rfl, hrun, hdone⟩ := ihvs stack
    have hcomma := hdone.step (u := unit ',') (.inr (.inl rfl))
    obtain ⟨r', hrun', hdone'⟩ := ih _ _ (.value (.list (v :: init.reverse) :: stack))
    refine ⟨r', init ++ [v], _, rfl, ?_, ?_⟩
    · rw [run_append, hrun, Option.bind_some, run_cons, hcomma]
      exact hrun'
    · rw [List.reverse_concat]
      exact hdone'
  | member hname h ih =>
    intro stack
    obtain ⟨r, hrun, hdone⟩ := ih _ _ (.value (.object [] _ :: stack))
    refine ⟨r, [], _, _, rfl, ?_, hdone⟩
    rw [run_append, hname.run .first, Option.bind_some, run_cons]
    exact hrun
  | members hfs hname h ihfs ih =>
    intro stack
    obtain ⟨r, init, key, v, rfl, hrun, hdone⟩ := ihfs stack
    have hcomma := hdone.step (u := unit ',') (.inr (.inl rfl))
    obtain ⟨r', hrun', hdone'⟩ := ih _ _ (.value (.object (put key v init) _ :: stack))
    refine ⟨r', put key v init, _, _, rfl, ?_, hdone'⟩
    rw [run_append, hrun, Option.bind_some, run_cons, hcomma]
    show run ⟨.key (put key v init), stack⟩ _ = _
    rw [run_append, hname.run (.key _), Option.bind_some, run_cons]
    exact hrun'

theorem read_of_derives {j : Json} (h : Derives (.element j) t) : read? t = some j := by
  obtain ⟨r, hrun, hdone⟩ := h.reads [] _ (.value [])
  refine Option.bind_eq_some_iff.mpr ⟨r, hrun, ?_⟩
  cases hdone with
  | after | word => rfl
  | number hcomplete => exact if_pos hcomplete

theorem read?_eq_some {j : Json} : read? t = some j ↔ Derives (.element j) t :=
  ⟨derives_of_read, read_of_derives⟩

end LimitBook.Json.Grammar
