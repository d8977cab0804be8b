import LimitBook.Proofs.Book.Exchange
import LimitBook.Proofs.Scalar.Rational

namespace LimitBook

section Entries

variable {α : Type}

/-- What happens to accounts. -/
inductive Entry (α : Type) where
  | opened (x : Account α) (quantity : α)
  | traded (limit : α) (f : Fill α)
  | closed (x : Account α)
  | cleared

/-- With what quantity an account was opened, and the fills since that name it. -/
structure Turnover (α : Type) where
  quantity : α
  fills : List (Fill α)

def Fill.Names (f : Fill α) (limit : α) (x : Account α) : Prop := f.maker = x ∨ f.taker limit = x

variable [DecidableEq α]

instance (f : Fill α) (limit : α) (x : Account α) : Decidable (f.Names limit x) :=
  inferInstanceAs (Decidable (_ ∨ _))

def Entry.post (x : Account α) (t : Option (Turnover α)) : Entry α → Option (Turnover α)
  | .opened y q => if y = x then some ⟨q, []⟩ else t
  | .traded limit f =>
    if f.Names limit x then t.map fun t => { t with fills := t.fills ++ [f] } else t
  | .closed y => if y = x then none else t
  | .cleared => none

def turnover (es : List (Entry α)) (x : Account α) : Option (Turnover α) :=
  es.foldl (Entry.post x) none

variable {es : List (Entry α)} {x y : Account α} {limit quantity : α} {fs : List (Fill α)}

theorem turnover_append (es es' : List (Entry α)) (x : Account α) :
    turnover (es ++ es') x = es'.foldl (Entry.post x) (turnover es x) := List.foldl_append

def Entry.arrival (x : Account α) (limit quantity : α) (fs : List (Fill α)) : List (Entry α) :=
  .opened x quantity :: fs.map (.traded limit)

theorem post_fills (x : Account α) (limit : α) (fs : List (Fill α)) (t : Option (Turnover α)) :
    (fs.map (Entry.traded limit)).foldl (Entry.post x) t =
      t.map fun t => { t with fills := t.fills ++ fs.filter fun f => f.Names limit x } := by
  induction fs generalizing t with
  | nil => simp
  | cons f fs ih =>
    rw [List.map_cons, List.foldl_cons, ih, Entry.post]
    by_cases hf : f.Names limit x
    · simp [hf, Function.comp_def]
    · simp [hf]

end Entries

section Exchanges

variable {α : Type} [Scalar α] [DecidableEq α] {b b' : Book α} {es : List (Entry α)}
  {x y : Account α} {limit quantity : α} {fs : List (Fill α)}

theorem Exchange.named (h : Exchange b b' x limit quantity fs) {f : Fill α} (hf : f ∈ fs) :
    f.taker limit = x ∧ f.maker ≠ x := by
  obtain ⟨before, rest, hsplit⟩ := List.append_of_mem hf
  obtain ⟨htaker, hmaker, -⟩ := h.made before f rest hsplit
  exact ⟨htaker, hmaker⟩

theorem Exchange.turnover_self (h : Exchange b b' x limit quantity fs) :
    turnover (es ++ Entry.arrival x limit quantity fs) x = some ⟨quantity, fs⟩ := by
  have hall : fs.filter (fun f => f.Names limit x) = fs :=
    List.filter_eq_self.mpr fun f hf => decide_eq_true (.inr (h.named hf).1)
  rw [turnover_append, Entry.arrival, List.foldl_cons, post_fills, Entry.post, if_pos rfl, hall]
  rfl

theorem Exchange.turnover_other (h : Exchange b b' x limit quantity fs) (hy : y ≠ x) :
    turnover (es ++ Entry.arrival x limit quantity fs) y =
      (turnover es y).map fun t => { t with fills := t.fills ++ fillsOf fs y } := by
  have hothers : fs.filter (fun f => f.Names limit y) = fillsOf fs y :=
    List.filter_congr fun f hf => decide_eq_decide.mpr <|
      or_iff_left fun ht => hy (ht.symm.trans (h.named hf).1)
  rw [turnover_append, Entry.arrival, List.foldl_cons, post_fills, Entry.post, if_neg (Ne.symm hy),
    hothers]

theorem Exchange.fillsOf_cases (h : Exchange b b' x limit quantity fs) (y : Account α) :
    fillsOf fs y = [] ∨ ∃ before f rest, fs = before ++ f :: rest ∧ f.maker = y ∧
      fillsOf fs y = [f] := by
  cases hy : fillsOf fs y with
  | nil => exact .inl rfl
  | cons f more =>
    obtain ⟨before, rest, hsplit, -, hf, hmore⟩ := List.filter_eq_cons_iff.mp hy
    refine .inr ⟨before, f, rest, hsplit, of_decide_eq_true hf, ?_⟩
    cases more with
    | nil => rfl
    | cons g more =>
      obtain ⟨between, rest', rfl, -, hg, -⟩ := List.filter_eq_cons_iff.mp hmore
      obtain ⟨-, -, hfirst, -⟩ := h.made (before ++ f :: between) g rest' (by simp [hsplit])
      exact absurd ((of_decide_eq_true hf).trans (of_decide_eq_true hg).symm)
        (hfirst f (by simp))

variable [Scalar.Lawful α] {side : Side} {p : α} {r : Resting α}

/-- An order that waits is as it was, or it has made one fill, and is gone if no more than dust is
left of it. -/
theorem Exchange.waits (h : Exchange b b' x limit quantity fs) (hs : b.Sound)
    (hr : r ∈ b.queueAt side p) :
    fillsOf fs (r.account side p) = [] ∧
        r.filledBy? (fillsOf fs (r.account side p)) = some r ∨
      ∃ f left, fillsOf fs (r.account side p) = [f] ∧ Fair f.quantity left r.order.remaining ∧
        r.filledBy? (fillsOf fs (r.account side p)) =
          if negligible (r.order.remaining - f.quantity) then none
          else some ⟨r.handle, r.order.fill f.quantity⟩ := by
  obtain hnone | ⟨before, f, rest, hsplit, hf, hone⟩ := h.fillsOf_cases (r.account side p)
  · refine .inl ⟨hnone, ?_⟩
    rw [hnone]
    exact Resting.filledBy?_of_unnamed (hs.counts_at hr) fun f hf => absurd hf List.not_mem_nil
  · obtain ⟨-, -, -, side', p', r', hr', haccount, hfair⟩ := h.made before f rest hsplit
    obtain ⟨rfl, rfl, rfl⟩ := hs.account_inj hr' hr (haccount.trans hf)
    refine .inr ⟨f, _, hone, hfair, ?_⟩
    have hfill : r'.filledBy [f] = ⟨r'.handle, r'.order.fill f.quantity⟩ := by
      have hnames : [f].filter (fun f => decide (f.passive = r'.order.party)) = [f] :=
        List.filter_cons_of_pos (decide_eq_true (Party.account_inj hf))
      rw [Resting.filledBy, hnames]
      rfl
    rw [hone, Resting.filledBy?, hfill, Order.fill_remaining, leftOver_beq, negligible_leftOver]

end Exchanges

namespace Book

/-- The accounts of a book after some entries. As long as an order rests, its account tells all that
it has traded and nothing is missing; what has left its account open was traded but for dust. -/
structure Balanced (es : List (Entry ℚ)) (b : Book ℚ) : Prop where
  rests : ∀ side p, ∀ r ∈ b.queueAt side p, ∃ fs,
    turnover es (r.account side p) = some ⟨r.order.original, fs⟩ ∧ r.order.filled = volume fs ∧
      r.order.filled + r.order.remaining = r.order.original
  left : ∀ x q fs, turnover es x = some ⟨q, fs⟩ →
    (∀ side p, ∀ r ∈ b.queueAt side p, r.account side p ≠ x) →
      0 ≤ q - volume fs ∧ q - volume fs < 1 / 10 ^ 10

namespace Balanced

variable {es : List (Entry ℚ)} {b b' : Book ℚ} {side : Side} {p : ℚ} {x : Account ℚ} {limit q : ℚ}
  {fs : List (Fill ℚ)}

theorem congr (h : Balanced es b) (hq : ∀ side p, b'.queueAt side p = b.queueAt side p) :
    Balanced es b' where
  rests side p r hr := h.rests side p r (hq side p ▸ hr)
  left x q fs ht hx := h.left x q fs ht fun side p r hr => hx side p r (by rwa [hq])

/-- What comes trades no more than its quantity, and rests unless no more than dust is left of it. -/
theorem self (hx : Exchange b b' x limit q fs) (hq : 0 ≤ q) :
    0 ≤ q - volume fs ∧
      (negligible (remainder q fs) = false → remainder q fs = q - volume fs) ∧
        (negligible (remainder q fs) = true → q - volume fs < 1 / 10 ^ 10) := by
  have hfair : ∀ before f rest, fs = before ++ f :: rest →
      1 / 10 ^ 10 ≤ f.quantity ∧ f.quantity ≤ remainder q before := fun before f rest hf => by
    obtain ⟨-, -, -, side, p, r, hr, -, hfair⟩ := hx.made before f rest hf
    refine ⟨hfair.counts, hfair.smaller.trans_le ?_⟩
    rw [Scalar.smaller_eq_min]
    exact min_le_left _ _
  obtain ⟨hrest, hexact⟩ := remainder_exact hq hfair
  refine ⟨hrest, fun hn => ?_, fun hn => ?_⟩
  · refine hexact.resolve_right fun ⟨hz, _⟩ => ?_
    rw [hz] at hn
    exact Bool.false_ne_true (hn.symm.trans negligible_zero)
  · obtain he | ⟨-, hlt⟩ := hexact
    · exact he ▸ negligible_iff.mp hn
    · exact hlt

theorem waited (h : Balanced es b) (hs : b.Sound) (hx : Exchange b b' x limit q fs)
    {r : Resting ℚ} (hr : r ∈ b.queueAt side p) (hne : r.account side p ≠ x) :
    ∃ fs', turnover (es ++ Entry.arrival x limit q fs) (r.account side p) =
        some ⟨r.order.original, fs'⟩ ∧
      (∀ r', r.filledBy? (fillsOf fs (r.account side p)) = some r' →
        r'.order.original = r.order.original ∧ r'.order.filled = volume fs' ∧
          r'.order.filled + r'.order.remaining = r'.order.original) ∧
      (r.filledBy? (fillsOf fs (r.account side p)) = none →
        0 ≤ r.order.original - volume fs' ∧ r.order.original - volume fs' < 1 / 10 ^ 10) := by
  obtain ⟨before, ht, hfilled, hsum⟩ := h.rests side p r hr
  refine ⟨before ++ fillsOf fs (r.account side p), by rw [hx.turnover_other hne, ht]; rfl, ?_⟩
  obtain ⟨hnil, hstays⟩ | ⟨f, left, hone, hfair, hmet⟩ := hx.waits hs hr
  · rw [hstays, hnil, List.append_nil]
    refine ⟨fun r' he => ?_, fun he => by cases he⟩
    obtain rfl := Option.some.inj he
    exact ⟨rfl, hfilled, hsum⟩
  · have hle : f.quantity ≤ r.order.remaining := by
      rw [hfair.smaller, Scalar.smaller_eq_min]
      exact min_le_right _ _
    have hvolume : volume (before ++ [f]) = r.order.filled + f.quantity := by
      rw [volume_append, volume_singleton, hfilled]
    rw [hmet, hone, hvolume]
    by_cases hn : negligible (r.order.remaining - f.quantity) = true
    · rw [if_pos hn, ← hsum, add_sub_add_left_eq_sub]
      exact ⟨fun r' he => by (cases he), fun _ => ⟨sub_nonneg.mpr hle, negligible_iff.mp hn⟩⟩
    · rw [if_neg hn]
      refine ⟨fun r' he => ?_, fun he => by (cases he)⟩
      obtain rfl := Option.some.inj he
      have hleft : (r.order.fill f.quantity).remaining = r.order.remaining - f.quantity :=
        if_neg hn
      refine ⟨rfl, rfl, ?_⟩
      rw [hleft]
      exact (add_add_sub_cancel _ _ _).trans hsum

theorem exchange (h : Balanced es b) (hs : b.Sound) (hx : Exchange b b' x limit q fs)
    (hq : 0 ≤ q) : Balanced (es ++ Entry.arrival x limit q fs) b' := by
  obtain ⟨hrest, hexact, hdust⟩ := self hx hq
  have hsame : ∀ {side p r r'}, Resting.filledBy? (fillsOf fs (r.account side p)) r = some r' →
      r'.account side p = r.account side p := fun he =>
    congrArg (Party.account _ _) (filledBy?_eq_some he).2
  refine ⟨fun side p r' hr' => ?_, fun y q' fs' ht hnone => ?_⟩
  · by_cases hy : r'.account side p = x
    · obtain ⟨hn, hremaining, horiginal, hfilled⟩ := hx.came side p r' hr' hy
      have hvolume : r'.order.filled = volume fs :=
        hfilled.trans ((foldl_quantity 0 fs).trans (zero_add _))
      refine ⟨fs, by rw [hy, hx.turnover_self, horiginal], hvolume, ?_⟩
      rw [hvolume, hremaining, horiginal, hexact hn]
      exact add_sub_cancel _ _
    · obtain ⟨r, hr, he⟩ := (hx.waited side p r' hy).mp hr'
      rw [hsame he] at hy ⊢
      obtain ⟨fs', ht, hstays, -⟩ := h.waited hs hx hr hy
      obtain ⟨horiginal, hrest⟩ := hstays r' he
      exact ⟨fs', horiginal ▸ ht, hrest⟩
  · by_cases hy : y = x
    · subst hy
      obtain ⟨rfl, rfl⟩ := Turnover.mk.inj (Option.some.inj (hx.turnover_self.symm.trans ht))
      refine ⟨hrest, hdust ((Bool.not_eq_false _).mp fun hn => ?_)⟩
      obtain ⟨side, p, r, hr, he⟩ := hx.stays hn
      exact hnone side p r hr he
    by_cases hwaits : ∃ side p, ∃ r ∈ b.queueAt side p, r.account side p = y
    · obtain ⟨side, p, r, hr, rfl⟩ := hwaits
      obtain ⟨fs', ht', -, hgone⟩ := h.waited hs hx hr hy
      obtain ⟨rfl, rfl⟩ := Turnover.mk.inj (Option.some.inj (ht'.symm.trans ht))
      refine hgone (Option.eq_none_iff_forall_ne_some.mpr fun r' he => ?_)
      exact hnone side p r' ((hx.waited side p r' (hsame he ▸ hy)).mpr ⟨r, hr, he⟩) (hsame he)
    · push Not at hwaits
      rw [hx.turnover_other hy] at ht
      obtain ⟨⟨quantity, before⟩, hbefore, he⟩ := Option.map_eq_some_iff.mp ht
      obtain ⟨rfl, rfl⟩ := Turnover.mk.inj he
      obtain hnil | ⟨earlier, f, rest, hsplit, hf, -⟩ := hx.fillsOf_cases y
      · rw [hnil, List.append_nil]
        exact h.left y _ _ hbefore hwaits
      · obtain ⟨-, -, -, side, p, r, hr, haccount, -⟩ := hx.made earlier f rest hsplit
        exact absurd (haccount.trans hf) (hwaits side p r hr)

theorem close (h : Balanced es b)
    (hq : ∀ side p r, r ∈ b'.queueAt side p ↔ r ∈ b.queueAt side p ∧ r.account side p ≠ x) :
    Balanced (es ++ [.closed x]) b' := by
  have hclosed : ∀ y, turnover (es ++ [.closed x]) y = if x = y then none else turnover es y :=
    fun y => turnover_append es [.closed x] y
  refine ⟨fun side p r hr => ?_, fun y q fs ht hnone => ?_⟩
  · obtain ⟨hr, hne⟩ := (hq side p r).mp hr
    rw [hclosed, if_neg hne.symm]
    exact h.rests side p r hr
  · rw [hclosed] at ht
    split at ht
    · cases ht
    · refine h.left y q fs ht fun side p r hr he => ?_
      exact hnone side p r ((hq side p r).mpr ⟨hr, fun hx => ‹¬x = y› (hx.symm.trans he)⟩) he

theorem clear (hq : ∀ side p, b'.queueAt side p = []) : Balanced (es ++ [.cleared]) b' := by
  have hcleared : ∀ y, turnover (es ++ [.cleared]) y = none :=
    fun y => turnover_append es [.cleared] y
  refine ⟨fun side p r hr => ?_, fun y q fs ht => ?_⟩
  · rw [hq] at hr
    cases hr
  · rw [hcleared] at ht
    cases ht

end Balanced

end Book

end LimitBook
