import LimitBook.Config
import LimitBook.Proofs.Input.Range

namespace LimitBook

open Number

variable {isAddress : Text → Bool} {env env' : Environment}

theorem Input.Range.check_ne_nil {r : Range} {x : Float} {issues : List Issue}
    (h : r.check x = .error issues) : issues ≠ [] := by
  unfold check at h
  split at h
  · cases h
    exact List.cons_ne_nil _ _
  · split at h
    · cases h
    · rename_i hne
      cases h
      exact hne

namespace Rule

/-- Does a text follow a rule? A whole number may be written in any way that numbers are. -/
def Accepts (isAddress : Text → Bool) : Rule → Text → Prop
  | any, _ => True
  | nonempty, t => t ≠ []
  | oneOf options, t => ∃ o ∈ options, Text.ofString o = t
  | address, t => isAddress t = true
  | whole range, t => ∃ n : Nat, value? (ofText t) = some (n : ℚ) ∧ range.Holds n

def Exact : Rule → Prop
  | whole range => range.Exact
  | any | nonempty | oneOf _ | address => True

theorem exact_atLeast {n : Int} (hn : 0 ≤ n ∧ n < 2 ^ 53) : (Setting.atLeast n).Exact :=
  ⟨hn, fun _ hm => nomatch hm⟩

theorem exact_within {low high : Int} (hlow : 0 ≤ low ∧ low < 2 ^ 53)
    (hhigh : 0 ≤ high ∧ high < 2 ^ 53) : (Setting.within low high).Exact :=
  ⟨hlow, fun _ hm => Option.some.inj hm ▸ hhigh⟩

theorem Accepts.mono {isAddress' : Text → Bool} {r : Rule} {t : Text}
    (h : r.Accepts isAddress t) (hmono : ∀ t, isAddress t = true → isAddress' t = true) :
    r.Accepts isAddress' t := by
  cases r with
  | address => exact hmono t h
  | any | nonempty | oneOf | whole => exact h

theorem issues_eq_nil {r : Rule} (hr : r.Exact) (t : Text) :
    r.issues isAddress t = [] ↔ r.Accepts isAddress t := by
  cases r with
  | any => exact iff_of_true rfl trivial
  | nonempty => simp [issues, Accepts]
  | oneOf options => simp [issues, Accepts]
  | address => simp [issues, Accepts]
  | whole range =>
    simp only [issues, Accepts, ← Input.Range.check_eq_ok hr]
    cases hcheck : range.check (ofText t) with
    | ok n => exact iff_of_true rfl ⟨n, rfl⟩
    | error issues => simp [Input.Range.check_ne_nil hcheck]

end Rule

namespace Setting

variable {s : Setting} {t : Text}

/-- A setting that is given follows its rule. -/
def Right (isAddress : Text → Bool) (env : Environment) (s : Setting) : Prop :=
  ∀ t ∈ s.given? env, s.rule.Accepts isAddress t

/-- The text of a setting, given or by default, is a numeral of this number. -/
def Reads (s : Setting) (env : Environment) (n : Nat) : Prop :=
  value? (ofText (s.text env)) = some (n : ℚ)

theorem eq_of_name {s' : Setting} (hs : s ∈ all) (hs' : s' ∈ all)
    (hname : Text.ofString s.name = Text.ofString s'.name) : s = s' := by
  have hnodup : (all.map fun s => Text.ofString s.name).Nodup := by decide +kernel
  exact List.inj_on_of_nodup_map hnodup hs hs' hname

theorem exact_of_mem (hs : s ∈ all) : s.rule.Exact := by
  revert s
  have hzero : (atLeast 0).Exact := Rule.exact_atLeast (by decide)
  simp only [all, List.forall_mem_cons]
  exact ⟨trivial, trivial, trivial, Rule.exact_within (by decide) (by decide), trivial, trivial,
    trivial, trivial, trivial, hzero, hzero, Rule.exact_atLeast (by decide),
    Rule.exact_within (by decide) (by decide), hzero, fun _ h => nomatch h⟩

theorem accepts_default (hurl : isAddress "wss://ws.okx.com:8443/ws/v5/public" = true)
    (hs : s ∈ all) {d : String} (hd : d ∈ s.default) :
    s.rule.Accepts isAddress (Text.ofString d) := by
  let isDefault (t : Text) : Bool := t = Text.ofString "wss://ws.okx.com:8443/ws/v5/public"
  have hissues : ∀ s ∈ all, ∀ d ∈ s.default,
      (s.rule.issues isDefault (Text.ofString d)).isEmpty = true := by decide +kernel
  have haccepts := (Rule.issues_eq_nil (exact_of_mem hs) _).mp
    (List.isEmpty_iff.mp (hissues s hs d hd))
  exact haccepts.mono fun t ht => of_decide_eq_true ht ▸ hurl

variable (hurl : isAddress "wss://ws.okx.com:8443/ws/v5/public" = true)

include hurl in
theorem issues_eq_nil (hs : s ∈ all) :
    s.issues isAddress env = [] ↔ s.Right isAddress env := by
  unfold issues text? Right
  cases hgiven : s.given? env with
  | some t => simp [Rule.issues_eq_nil (exact_of_mem hs)]
  | none =>
    cases hdefault : s.default with
    | none => simp
    | some d => simpa [Rule.issues_eq_nil (exact_of_mem hs)] using accepts_default hurl hs hdefault

theorem text?_congr (h : s.given? env' = s.given? env) : s.text? env' = s.text? env := by
  rw [text?, text?, h]

theorem nat_reads {range : Input.Range} (hr : range.Exact) (hrule : s.rule = .whole range)
    (ht : s.text? env = some t) (hs : s.issues isAddress env = []) :
    s.Reads env (s.nat env) ∧ range.Holds (s.nat env) := by
  have hexact : s.rule.Exact := by rw [hrule]; exact hr
  simp only [issues, ht, Rule.issues_eq_nil hexact] at hs
  rw [hrule] at hs
  obtain ⟨n, hvalue, hholds⟩ := hs
  have htext : s.text env = t := by rw [text, ht]; rfl
  have hnat : s.nat env = n := by rw [nat, htext, truncate_eq (n := n) hvalue, Int.toNat_natCast]
  rw [Reads, htext, hnat]
  exact ⟨hvalue, hholds⟩

end Setting

namespace Config

theorem faults_eq (isAddress : Text → Bool) (env : Environment) :
    faults isAddress env = (Setting.all.filter fun s => !(s.issues isAddress env).isEmpty).map
      fun s => (s.name, (s.issues isAddress env).map (·.message)) := by
  unfold faults
  induction Setting.all with
  | nil => rfl
  | cons s rest ih =>
    rw [List.filterMap_cons, List.filter_cons, ih]
    cases h : s.issues isAddress env <;> simp [h]

theorem faults_eq_nil :
    faults isAddress env = [] ↔ ∀ s ∈ Setting.all, s.issues isAddress env = [] := by
  simp [faults_eq]

theorem read_eq_ok {c : Config} :
    read isAddress env = .ok c ↔
      (∀ s ∈ Setting.all, s.issues isAddress env = []) ∧ ofTexts env = c := by
  rw [← faults_eq_nil, read]
  split
  · rename_i hnil
    simp [hnil]
  · rename_i hne
    exact iff_of_false (fun h => nomatch h) fun h => hne h.1

theorem read_eq_error {e : Error} :
    read isAddress env = .error e ↔
      faults isAddress env ≠ [] ∧ e.fields = faults isAddress env := by
  obtain ⟨fields⟩ := e
  rw [read]
  split
  · rename_i hnil
    exact iff_of_false (fun h => nomatch h) fun h => h.1 hnil
  · rename_i hne
    exact ⟨fun h => ⟨hne, (Error.mk.inj (Except.error.inj h)).symm⟩, fun h => by rw [← h.2]⟩

section Alone

variable {s : Setting} {t : Text}

theorem given?_alone (hs : s ∈ Setting.all) {s' : Setting} (hs' : s' ∈ Setting.all) (hne : s' ≠ s) :
    s'.given? [(Text.ofString s.name, t)] = none := by
  have hname : Text.ofString s'.name ≠ Text.ofString s.name := fun h =>
    hne (Setting.eq_of_name hs' hs h)
  rw [Setting.given?, List.lookup_cons, beq_false_of_ne hname, List.lookup_nil]

theorem faults_alone (hurl : isAddress "wss://ws.okx.com:8443/ws/v5/public" = true)
    (hs : s ∈ Setting.all) (hne : s.rule.issues isAddress t ≠ []) :
    faults isAddress [(Text.ofString s.name, t)] =
      [(s.name, (s.rule.issues isAddress t).map (·.message))] := by
  have hown : s.issues isAddress [(Text.ofString s.name, t)] = s.rule.issues isAddress t := by
    simp [Setting.issues, Setting.text?, Setting.given?]
  have hothers : ∀ s' ∈ Setting.all, s' ≠ s →
      s'.issues isAddress [(Text.ofString s.name, t)] = [] := fun s' hs' hne' => by
    rw [Setting.issues_eq_nil hurl hs', Setting.Right, given?_alone hs hs' hne']
    exact fun _ h => nomatch h
  have hnodup : Setting.all.Nodup := .of_map Setting.name (by decide)
  have hwrong : (Setting.all.filter fun s' =>
      !(s'.issues isAddress [(Text.ofString s.name, t)]).isEmpty) = [s] := by
    refine List.perm_singleton.mp ((List.perm_ext_iff_of_nodup (hnodup.filter _)
      (List.nodup_singleton s)).mpr fun s' => ?_)
    rw [List.mem_filter, List.mem_singleton]
    constructor
    · rintro ⟨hs', hissues⟩
      by_contra hne'
      simp [hothers s' hs' hne'] at hissues
    · rintro rfl
      exact ⟨hs, by simpa [hown] using hne⟩
  rw [faults_eq, hwrong, List.map_singleton, hown]

end Alone

/-- Every number of a configuration is what the text of its setting says, and within the bounds;
the instrument is the one that is given, or else goes by the name of the book. -/
structure Configured (env : Environment) (c : Config) : Prop where
  port : Setting.port.Reads env c.port ∧ c.port ≤ 65535
  reconnectDelay : Setting.reconnectDelay.Reads env c.reconnectDelay
  pingInterval : Setting.pingInterval.Reads env c.pingInterval
  maxSequenceFaults : Setting.maxSequenceFaults.Reads env c.maxSequenceFaults ∧
    1 ≤ c.maxSequenceFaults
  depthLevels : Setting.depthLevels.Reads env c.depthLevels ∧ 1 ≤ c.depthLevels ∧
    c.depthLevels ≤ 100
  displayInterval : Setting.displayInterval.Reads env c.displayInterval
  instId : c.instId = (Setting.feedInstId.given? env).getD c.symbol
  symbol : c.symbol = Setting.symbol.text env

theorem text?_of_default {s : Setting} {d : String} (hd : s.default = some d) :
    ∃ t, s.text? env = some t := by
  unfold Setting.text?
  cases s.given? env with
  | some t => exact ⟨t, rfl⟩
  | none => exact ⟨_, by rw [hd]; rfl⟩

theorem configured {c : Config} (h : read isAddress env = .ok c) : Configured env c := by
  obtain ⟨hissues, rfl⟩ := read_eq_ok.mp h
  have hreads : ∀ (s : Setting) {d : String} {range : Input.Range}, s ∈ Setting.all →
      s.default = some d → s.rule = .whole range →
        s.Reads env (s.nat env) ∧ range.Holds (s.nat env) := fun s _ _ hs hd hrule => by
    obtain ⟨t, ht⟩ := text?_of_default hd
    have hexact := Setting.exact_of_mem hs
    rw [hrule] at hexact
    exact Setting.nat_reads hexact hrule ht (hissues _ hs)
  have hport := hreads .port (by simp [Setting.all]) rfl rfl
  have hfaults := hreads .maxSequenceFaults (by simp [Setting.all]) rfl rfl
  have hlevels := hreads .depthLevels (by simp [Setting.all]) rfl rfl
  exact {
    port := ⟨hport.1, Int.ofNat_le.mp (hport.2.2 _ rfl)⟩
    reconnectDelay := (hreads .reconnectDelay (by simp [Setting.all]) rfl rfl).1
    pingInterval := (hreads .pingInterval (by simp [Setting.all]) rfl rfl).1
    maxSequenceFaults := ⟨hfaults.1, Int.ofNat_le.mp hfaults.2.1⟩
    depthLevels := ⟨hlevels.1, Int.ofNat_le.mp hlevels.2.1, Int.ofNat_le.mp (hlevels.2.2 _ rfl)⟩
    displayInterval := (hreads .displayInterval (by simp [Setting.all]) rfl rfl).1
    instId := by simp [instId, ofTexts, Setting.text?, Setting.feedInstId]
    symbol := rfl }

theorem read_congr (h : ∀ s ∈ Setting.all, s.given? env' = s.given? env) :
    read isAddress env' = read isAddress env := by
  have htext : ∀ s ∈ Setting.all, s.text? env' = s.text? env := fun s hs =>
    Setting.text?_congr (h s hs)
  have hissues : ∀ s ∈ Setting.all, s.issues isAddress env' = s.issues isAddress env :=
    fun s hs => by rw [Setting.issues, Setting.issues, htext s hs]
  have hfaults : faults isAddress env' = faults isAddress env :=
    List.filterMap_congr fun s hs => by rw [hissues s hs]
  have hconfig : ofTexts env' = ofTexts env := by
    simp only [Setting.all, List.forall_mem_cons] at htext
    simp only [ofTexts, Setting.text, Setting.nat, Setting.isOn, htext]
    rfl
  rw [read, read, hfaults, hconfig]

open scoped Classical in
/-- There is a configuration if and only if every setting that is given follows its own rule. Its
numbers are then what the settings say and within their bounds. Otherwise the error names exactly
the settings that do not, in the order of all, and says of each what it would say of the setting
alone. Names that no setting has make no difference. -/
theorem read_exact (hurl : isAddress "wss://ws.okx.com:8443/ws/v5/public" = true)
    (env : Environment) :
    ((∃ c, read isAddress env = .ok c) ↔ ∀ s ∈ Setting.all, s.Right isAddress env) ∧
      (∀ c, read isAddress env = .ok c → Configured env c) ∧
      (∀ e, read isAddress env = .error e →
        e.fields.map Prod.fst =
            (Setting.all.filter fun s => ¬s.Right isAddress env).map Setting.name ∧
          ∀ f ∈ e.fields, ∃ s ∈ Setting.all, ∃ t ∈ s.given? env, f.1 = s.name ∧ f.2 ≠ [] ∧
            read isAddress [(Text.ofString s.name, t)] = .error ⟨[f]⟩) ∧
      ∀ env', (∀ s ∈ Setting.all, s.given? env' = s.given? env) →
        read isAddress env' = read isAddress env := by
  have hright : ∀ s ∈ Setting.all, s.issues isAddress env = [] ↔ s.Right isAddress env :=
    fun s hs => Setting.issues_eq_nil hurl hs
  refine ⟨⟨?_, fun h => ?_⟩, fun c => configured, fun e he => ?_, fun env' => read_congr⟩
  · rintro ⟨c, hc⟩ s hs
    exact (hright s hs).mp ((read_eq_ok.mp hc).1 s hs)
  · exact ⟨_, read_eq_ok.mpr ⟨fun s hs => (hright s hs).mpr (h s hs), rfl⟩⟩
  · obtain ⟨-, hfields⟩ := read_eq_error.mp he
    rw [faults_eq] at hfields
    refine ⟨?_, fun f hf => ?_⟩
    · rw [hfields, List.map_map]
      refine congrArg (List.map Setting.name) (List.filter_congr fun s hs => ?_)
      rw [Bool.eq_iff_iff]
      simp [← hright s hs]
    · rw [hfields] at hf
      obtain ⟨s, hs, rfl⟩ := List.mem_map.mp hf
      obtain ⟨hs, hwrong⟩ := List.mem_filter.mp hs
      have hne : s.issues isAddress env ≠ [] := by simpa using hwrong
      obtain ⟨t, ht⟩ : ∃ t, s.given? env = some t := by
        by_contra hmissing
        refine hne ((hright s hs).mpr fun t ht => ?_)
        exact absurd ⟨t, ht⟩ hmissing
      have hown : s.issues isAddress env = s.rule.issues isAddress t := by
        simp [Setting.issues, Setting.text?, ht]
      rw [hown] at hne ⊢
      refine ⟨s, hs, t, ht, rfl, by simpa using hne, ?_⟩
      exact read_eq_error.mpr ⟨by simp [faults_alone hurl hs hne], (faults_alone hurl hs hne).symm⟩

def strayEnvironment : Environment :=
  [("PATH", "/bin"), ("PORT", "70000.5"), ("DEPTH_LEVELS", " 1e1 "), ("FEED_CHANNEL", "trades")]

theorem read_exact_strayEnvironment :
    Address.isAddress "wss://ws.okx.com:8443/ws/v5/public" = true ∧
      ∃ e, read Address.isAddress strayEnvironment = .error e ∧
        e.fields.map Prod.fst = ["PORT", "FEED_CHANNEL"] ∧
        ∀ f ∈ e.fields, ∃ s ∈ Setting.all, ∃ t ∈ s.given? strayEnvironment, f.1 = s.name ∧
          f.2 ≠ [] ∧ read Address.isAddress [(Text.ofString s.name, t)] = .error ⟨[f]⟩ := by
  have hurl : Address.isAddress "wss://ws.okx.com:8443/ws/v5/public" = true := by decide +kernel
  obtain ⟨-, -, herror, -⟩ := read_exact hurl strayEnvironment
  cases h : read Address.isAddress strayEnvironment with
  | ok c =>
    have hwrong : (faults Address.isAddress strayEnvironment).isEmpty = false := by decide +kernel
    rw [faults_eq_nil.mpr (read_eq_ok.mp h).1] at hwrong
    cases hwrong
  | error e =>
    have hnames : (faults Address.isAddress strayEnvironment).map Prod.fst =
        ["PORT", "FEED_CHANNEL"] := by decide +kernel
    rw [← (read_eq_error.mp h).2] at hnames
    exact ⟨hurl, e, rfl, hnames, (herror e h).2⟩

end Config

end LimitBook
