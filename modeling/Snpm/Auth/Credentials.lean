import Mathlib
import Snpm.Auth.Persistence

/-!
What `login` and `logout` do to the configuration that the rc file gives: when a
saved token is read back, when `logout` fails, and what it leaves in effect.
-/
namespace Snpm.Auth

open Config

section Loading

variable {env : Env} {host : String} {config config' : RegistryConfig}

/-- The credential of the host of a URL that an rc file gives. -/
def loadedCredential (env : Env) (text url : String) : Option String :=
  (hostFromUrl url).bind fun host =>
    (applyRcFile env defaultRegistryConfig (some text)).registryAuth[host]?

/-- The token that an entry files under a host. -/
def tokenFor (host : String) (e : String × String) : Option String :=
  (hostCredential e).bind fun c => if c.1 = host then some c.2.1 else none

theorem hostCredential_eq_some {e : String × String} {c : String × String × AuthScheme}
    (h : hostCredential e = some c) : c.2.1 = e.2 ∧ ∃ rest prefixText : String,
      e.1 = "//" ++ rest ∧ parseScopedAuthKey rest = some (prefixText, c.2.2) ∧
        c.1 = normalizeAuthHost prefixText := by
  unfold hostCredential at h
  split at h
  next rest _ hrest =>
      have hkey := Text.stripPrefix_eq_some hrest
      obtain ⟨parts, hparse, hsome⟩ := Option.bind_eq_some_iff.mp h
      dsimp only at hsome
      split at hsome
      next => cases hsome
      next =>
          rw [Option.some.injEq] at hsome
          have hhost := congrArg Prod.fst hsome
          have hvalue := congrArg (fun c => c.2.1) hsome
          have hscheme := congrArg (fun c => c.2.2) hsome
          dsimp only at hhost hvalue hscheme
          refine ⟨hvalue.symm, rest, parts.1, hkey, ?_, hhost.symm⟩
          rw [hparse, ← hscheme]
  next => cases h

theorem tokenFor_eq_none_iff {e : String × String} :
    tokenFor host e = none ↔ filedHost e ≠ some host := by
  rw [tokenFor, filedHost]
  cases hostCredential e with
  | none => simp
  | some c => simp

theorem tokenFor_value {e : String × String} {token : String} (h : tokenFor host e = some token) :
    token = e.2 ∧ filedHost e = some host := by
  obtain ⟨c, hc, hsome⟩ := Option.bind_eq_some_iff.mp h
  split at hsome
  next heq =>
      cases hsome
      exact ⟨(hostCredential_eq_some hc).1, by rw [filedHost, hc, Option.map_some, heq]⟩
  next => cases hsome

theorem registryAuth_run (config : RegistryConfig) (entries : List (String × String)) :
    (applyRcEntries config entries).registryAuth[host]? =
      ((entries.filterMap (tokenFor host)).getLast?).or config.registryAuth[host]? := by
  induction entries using List.reverseRecOn with
  | nil => rfl
  | append_singleton entries e ih =>
      have hstep : applyRcEntries (applyRcEntries config entries) [e] =
          rcStep (applyRcEntries config entries) e := rfl
      rw [applyRcEntries_append, hstep, rcStep_tokens, ih, List.filterMap_append]
      cases htoken : tokenFor host e with
      | none =>
          rw [tokenFor] at htoken
          rw [htoken]
          simp [tokenFor, htoken]
      | some token =>
          rw [tokenFor] at htoken
          rw [htoken]
          simp [tokenFor, htoken]

/-- A file without entries for a host gives it no credential. -/
theorem unfiled_iff (entries : List (String × String)) :
    (applyRcEntries defaultRegistryConfig entries).registryAuth[host]? = none ↔
      ∀ e ∈ entries, filedHost e ≠ some host := by
  have hempty : defaultRegistryConfig.registryAuth[host]? = none := Std.ExtTreeMap.getElem?_empty
  rw [registryAuth_run, hempty, Option.or_none, List.getLast?_eq_none_iff,
    List.filterMap_eq_nil_iff]
  simp only [tokenFor_eq_none_iff]

/-- A configuration without its credentials of hosts. -/
def withoutHosts (config : RegistryConfig) : RegistryConfig :=
  { config with registryAuth := ∅, registryAuthSchemes := ∅ }

def SameRest (config config' : RegistryConfig) : Prop := withoutHosts config' = withoutHosts config

theorem SameRest.update (h : SameRest config config') (update : RegistryConfig → RegistryConfig)
    (hupdate : ∀ config, withoutHosts (update config) = update (withoutHosts config)) :
    SameRest (update config) (update config') := by
  rw [SameRest, hupdate, hupdate, h]

theorem SameRest.ite {p : Prop} [Decidable p] {left left' right right' : RegistryConfig}
    (hleft : SameRest left left') (hright : SameRest right right') :
    SameRest (if p then left else right) (if p then left' else right') := by
  split
  · exact hleft
  · exact hright

theorem SameRest.hoisting (h : SameRest config config') (value : String) :
    SameRest
      (match HoistingMode.parse value with
        | some mode => { config with hoisting := some mode }
        | none => config)
      (match HoistingMode.parse value with
        | some mode => { config' with hoisting := some mode }
        | none => config') := by
  cases HoistingMode.parse value with
  | none => exact h
  | some mode => exact h.update (fun c => { c with hoisting := some mode }) fun _ => rfl

theorem SameRest.scope (h : SameRest config config') (scopeName value : String) :
    SameRest (applyScopeRegistry config scopeName value)
      (applyScopeRegistry config' scopeName value) := by
  unfold applyScopeRegistry
  generalize normalizeRegistryUrl value = registry
  generalize Text.trim scopeName = name
  apply SameRest.ite
  · exact h.update (fun c => { c with
      scopedRegistries := c.scopedRegistries.insert name registry }) fun _ => rfl
  · exact h

theorem withoutHosts_applyScopedAuth (config : RegistryConfig) (rest value : String) :
    withoutHosts (applyScopedAuth config rest value) = withoutHosts config := by
  unfold applyScopedAuth
  cases scopedCredential rest value with
  | none => rfl
  | some credential => rfl

theorem SameRest.plain (h : SameRest config config') (key value : String) :
    SameRest (applyPlainEntry config key value) (applyPlainEntry config' key value) := by
  unfold applyPlainEntry
  generalize envFlagIsEnabled value = flag
  generalize Text.trim value = trimmed
  apply SameRest.ite
  · exact h.update (fun c => { c with defaultAuthToken := some value }) fun _ => rfl
  · apply SameRest.ite
    · exact h.update (fun c => { c with defaultAuthToken := some value, defaultAuthBasic := true })
        fun _ => rfl
    · apply SameRest.ite
      · exact h.update (fun c => { c with alwaysAuth := flag }) fun _ => rfl
      · apply SameRest.ite
        · exact h.update (fun c => { c with saveExact := some flag }) fun _ => rfl
        · apply SameRest.ite
          · exact h.update (fun c => { c with savePrefix := some trimmed }) fun _ => rfl
          · exact h

/-- What an entry does to the other fields does not depend on the credentials. -/
theorem SameRest.step (h : SameRest config config') (e : String × String) :
    SameRest (rcStep config e) (rcStep config' e) := by
  unfold rcStep applyRcEntry
  generalize normalizeRegistryUrl e.2 = registry
  generalize parsePackageNameList e.2 = packages
  apply SameRest.ite
  · apply SameRest.ite
    · exact h
    · exact h.update (fun c => { c with defaultRegistry := registry }) fun _ => rfl
  · apply SameRest.ite
    · exact h.hoisting e.2
    · apply SameRest.ite
      · exact h.update (fun c => { c with
          disableGlobalVirtualStoreForPackages := some packages }) fun _ => rfl
      · cases Text.stripSuffix e.1 ":registry" with
        | some scopeName => exact h.scope scopeName e.2
        | none =>
            cases Text.stripPrefix e.1 "//" with
            | some rest =>
                dsimp only
                rw [SameRest, withoutHosts_applyScopedAuth, withoutHosts_applyScopedAuth, h]
            | none => exact h.plain e.1 e.2

/-- Two configurations that differ in the credential of one host at most. -/
structure AgreeElsewhere (host : String) (config config' : RegistryConfig) : Prop where
  tokens : ∀ other, other ≠ host → config'.registryAuth[other]? = config.registryAuth[other]?
  schemes : ∀ other, other ≠ host →
    config'.registryAuthSchemes[other]? = config.registryAuthSchemes[other]?
  rest : SameRest config config'

theorem AgreeElsewhere.refl (host : String) (config : RegistryConfig) :
    AgreeElsewhere host config config :=
  ⟨fun _ _ => rfl, fun _ _ => rfl, rfl⟩

theorem AgreeElsewhere.step (h : AgreeElsewhere host config config') (e : String × String) :
    AgreeElsewhere host (rcStep config e) (rcStep config' e) where
  tokens := by
    intro other hne
    rw [rcStep_tokens, rcStep_tokens, h.tokens other hne]
  schemes := by
    intro other hne
    rw [rcStep_schemes, rcStep_schemes, h.schemes other hne]
  rest := h.rest.step e

/-- The key of a host's credential is none of the recognised keys. -/
theorem withoutHosts_rcStep {e : String × String} (he : (hostCredential e).isSome = true) :
    withoutHosts (rcStep config e) = withoutHosts config := by
  have hkeys : ∀ {keys : List String}, (∀ key ∈ keys, Text.stripPrefix key "//" = none) →
      e.1 ∉ keys := by
    intro keys hkeys hmem
    have hnone : hostCredential e = none := hostCredential_none (hkeys e.1 hmem)
    rw [hnone] at he
    cases he
  have hregistry : e.1 ≠ "registry" := by
    intro heq
    have hnot : e.1 ∉ ["registry"] := hkeys (by decide)
    exact hnot (List.mem_singleton.mpr heq)
  have hhoist : e.1 ∉ hoistKeys := hkeys (by decide)
  have hstore : e.1 ∉ virtualStoreKeys := hkeys (by decide)
  unfold rcStep applyRcEntry
  rw [if_neg hregistry, if_neg hhoist, if_neg hstore]
  unfold hostCredential at he
  split at he
  next hscope hrest =>
      rw [hscope, hrest]
      exact withoutHosts_applyScopedAuth _ _ _
  next => cases he

/-- A credential of the host makes no difference elsewhere. -/
theorem AgreeElsewhere.skip (h : AgreeElsewhere host config config') {e : String × String}
    (he : filedHost e = some host) : AgreeElsewhere host (rcStep config e) config' := by
  obtain ⟨c, hc, rfl⟩ := Option.map_eq_some_iff.mp he
  have hfiled : AgreeOff c.1 config (rcStep config e) := agreeOff_rcStep hc
  refine ⟨?_, ?_, ?_⟩
  · intro other hne
    rw [h.tokens other hne, hfiled.tokens other hne]
  · intro other hne
    rw [h.schemes other hne, hfiled.schemes other hne]
  · rw [SameRest, withoutHosts_rcStep (by rw [hc]; rfl)]
    exact h.rest

theorem AgreeElsewhere.symm (h : AgreeElsewhere host config config') :
    AgreeElsewhere host config' config :=
  ⟨fun other hne => (h.tokens other hne).symm, fun other hne => (h.schemes other hne).symm,
    Eq.symm h.rest⟩

theorem AgreeElsewhere.trans {config'' : RegistryConfig} (h : AgreeElsewhere host config config')
    (h' : AgreeElsewhere host config' config'') : AgreeElsewhere host config config'' :=
  ⟨fun other hne => (h'.tokens other hne).trans (h.tokens other hne),
    fun other hne => (h'.schemes other hne).trans (h.schemes other hne),
    Eq.trans h'.rest h.rest⟩

/-- An entry that is not the host's credential and changes some configuration. -/
def OtherEffect (host : String) (e : String × String) : Prop :=
  filedHost e ≠ some host ∧ ∃ config, rcStep config e ≠ config

open Classical in
/-- The entries for other hosts and those that are no credential, but for the
ones without effect. -/
noncomputable def otherEntries (env : Env) (host text : String) : List (String × String) :=
  (rcFileEntries env (some text)).filter fun e => OtherEffect host e

/-- Only the entries with another effect matter elsewhere. -/
theorem agree_otherEntries (h : AgreeElsewhere host config config')
    {p : String × String → Bool} (entries : List (String × String))
    (hp : ∀ e, p e = true ↔ OtherEffect host e) :
    AgreeElsewhere host (applyRcEntries config entries)
      (applyRcEntries config' (entries.filter p)) := by
  induction entries generalizing config config' with
  | nil => exact h
  | cons e entries ih =>
      rw [applyRcEntries_cons]
      cases hother : p e with
      | true =>
          rw [List.filter_cons_of_pos hother, applyRcEntries_cons]
          exact ih (h.step e)
      | false =>
          rw [List.filter_cons_of_neg (by simp [hother])]
          apply ih
          have hnot : ¬ OtherEffect host e := by
            rw [← hp, hother]
            exact Bool.false_ne_true
          by_cases hfiled : filedHost e = some host
          · exact h.skip hfiled
          · have hidle : rcStep config e = config := by
              by_contra hchange
              exact hnot ⟨hfiled, config, hchange⟩
            rw [hidle]
            exact h

theorem agree_of_otherEntries {text text' : String}
    (h : otherEntries env host text' = otherEntries env host text) (config : RegistryConfig) :
    AgreeElsewhere host (applyRcFile env config (some text)) (applyRcFile env config (some text')) := by
  have hrun : ∀ file, AgreeElsewhere host (applyRcFile env config (some file))
      (applyRcEntries config (otherEntries env host file)) :=
    fun file => agree_otherEntries (.refl host config) _
      fun _ => @decide_eq_true_iff _ (Classical.propDecidable _)
  have hnew := hrun text'
  rw [h] at hnew
  exact (hrun text).trans hnew.symm

end Loading

section Files

variable {env : Env} {host : String}

theorem rcLineEntry_stripReturn (line : String) :
    rcLineEntry env (Text.stripReturn line) = rcLineEntry env line := by
  unfold rcLineEntry
  rw [Text.trim_stripReturn]

theorem rcFileEntries_some (text : String) :
    rcFileEntries env (some text) = (Text.lines text).filterMap (rcLineEntry env) := rfl

/-- A written file has the entries of its lines. -/
theorem entries_writeRcFile {lines : List String} (h : ∀ line ∈ lines, Text.OneLine line) :
    rcFileEntries env (some (writeRcFile lines)) = lines.filterMap (rcLineEntry env) := by
  have hstrip : rcLineEntry env ∘ Text.stripReturn = rcLineEntry env := by
    funext line
    rw [Function.comp_apply, rcLineEntry_stripReturn]
  rw [rcFileEntries_some, writeRcFile_eq_unlines, Text.lines_unlines h, List.filterMap_map, hstrip]

def keptLines (content host : String) : List String :=
  (Text.lines content).filter fun line => shouldKeepLine line host none

theorem keptLines_oneLine {content line : String} (h : line ∈ keptLines content host) :
    Text.OneLine line :=
  Text.oneLine_of_mem_lines (List.mem_filter.mp h).1

theorem chosenRegistry_url (defaultRegistry : String) (url : WebUrl) :
    chosenRegistry defaultRegistry (some url.text) = url.text := by
  have hne : Text.trim url.text ≠ "" := by
    rw [url.trim_text, WebUrl.text]
    intro hempty
    have hlist := congrArg String.toList hempty
    simp at hlist
  simp [chosenRegistry, Option.filter, hne]

theorem logout_eq (defaultRegistry content : String) {url : WebUrl}
    (hhost : hostFromUrl url.text = some host) :
    logout defaultRegistry (some url.text) none (some content) =
      if (keptLines content host).length = (Text.lines content).length then
        .error (.auth ("no credentials found for " ++ url.text))
      else .ok (some (writeRcFile (keptLines content host))) := by
  have hchosen := chosenRegistry_url defaultRegistry url
  have hregistry : registryHost url.text = .ok host := by rw [registryHost, hhost]
  have hscope : validateScope none = .ok none := rfl
  unfold logout
  rw [hchosen]
  dsimp only
  rw [hregistry, hscope]
  rfl

/-- The loader files the entry of a line under a host. -/
def FiledUnder (env : Env) (host line : String) : Prop :=
  ∃ e, rcLineEntry env line = some e ∧ filedHost e = some host

/-- The entry of a line is no credential of a host and has an effect. -/
def ActsElsewhere (env : Env) (host line : String) : Prop :=
  ∃ e, rcLineEntry env line = some e ∧ OtherEffect host e

/-- `logout` fails when the file has no credential for the host; otherwise the
new file has none, and the other entries keep their effect. -/
structure LogoutSound (env : Env) (content : String) (url : WebUrl) : Prop where
  fails : ∀ defaultRegistry,
    (∃ e, logout defaultRegistry (some url.text) none (some content) = .error e) ↔
      loadedCredential env content url.text = none
  removed : ∀ defaultRegistry new,
    logout defaultRegistry (some url.text) none (some content) = .ok (some new) →
      loadedCredential env new url.text = none
  others : ∀ defaultRegistry new host, hostFromUrl url.text = some host →
    logout defaultRegistry (some url.text) none (some content) = .ok (some new) →
      otherEntries env host new = otherEntries env host content
  elsewhere : ∀ defaultRegistry new host, hostFromUrl url.text = some host →
    logout defaultRegistry (some url.text) none (some content) = .ok (some new) →
      ∀ config, AgreeElsewhere host (applyRcFile env config (some content))
        (applyRcFile env config (some new))

/-- The lines that the loader files under a host are those that `logout` takes
for its credentials: none is missed, none of the others has an effect, and a
line is removed only when there is one. -/
structure LinesAgree (env : Env) (content host : String) : Prop where
  matched : ∀ line ∈ Text.lines content, FiledUnder env host line →
    matchesAuthLine (Text.trim line) host = true
  harmless : ∀ line ∈ Text.lines content, matchesAuthLine (Text.trim line) host = true →
    ¬ ActsElsewhere env host line
  present : ∀ line ∈ Text.lines content,
    (Text.trim line = "" ∨ matchesAuthLine (Text.trim line) host = true) →
      ∃ other ∈ Text.lines content, FiledUnder env host other

theorem shouldKeepLine_eq_false_iff {line : String} :
    shouldKeepLine line host none = false ↔
      Text.trim line = "" ∨ matchesAuthLine (Text.trim line) host = true := by
  simp [shouldKeepLine, matchesScopeLine, or_iff_not_imp_left]

theorem blank_unfiled {line : String} (h : Text.trim line = "") : rcLineEntry env line = none := by
  simp [rcLineEntry, h]

theorem loadedCredential_none_iff {content : String} {url : WebUrl}
    (hhost : hostFromUrl url.text = some host) :
    loadedCredential env content url.text = none ↔
      ∀ line ∈ Text.lines content, ¬ FiledUnder env host line := by
  rw [loadedCredential, hhost, Option.bind_some]
  refine (unfiled_iff _).trans ?_
  constructor
  · intro h line hline hfiled
    obtain ⟨e, he, hfiled⟩ := hfiled
    exact h e (List.mem_filterMap.mpr ⟨line, hline, he⟩) hfiled
  · intro h e he hfiled
    obtain ⟨line, hline, he⟩ := List.mem_filterMap.mp he
    exact h line hline ⟨e, he, hfiled⟩

theorem loadedCredential_kept_none_iff {content : String} {url : WebUrl}
    (hhost : hostFromUrl url.text = some host) :
    loadedCredential env (writeRcFile (keptLines content host)) url.text = none ↔
      ∀ line ∈ keptLines content host, ¬ FiledUnder env host line := by
  rw [loadedCredential, hhost, Option.bind_some, applyRcFile,
    entries_writeRcFile fun _ hline => keptLines_oneLine hline]
  refine (unfiled_iff _).trans ?_
  constructor
  · intro h line hline hfiled
    obtain ⟨e, he, hfiled⟩ := hfiled
    exact h e (List.mem_filterMap.mpr ⟨line, hline, he⟩) hfiled
  · intro h e he hfiled
    obtain ⟨line, hline, he⟩ := List.mem_filterMap.mp he
    exact h line hline ⟨e, he, hfiled⟩

/-- Dropping elements keeps what a list is mapped to when they are mapped to
nothing, and only then. -/
theorem filterMap_filter_eq_iff {α β : Type} (keep : α → Bool) (f : α → Option β) (l : List α) :
    (l.filter keep).filterMap f = l.filterMap f ↔ ∀ x ∈ l, keep x = false → f x = none := by
  induction l with
  | nil => simp
  | cons x l ih =>
      rw [List.forall_mem_cons, ← ih]
      cases hkeep : keep x with
      | true =>
          rw [List.filter_cons_of_pos hkeep, List.filterMap_cons, List.filterMap_cons]
          cases f x with
          | none => simp
          | some y => simp
      | false =>
          rw [List.filter_cons_of_neg (by simp [hkeep]), List.filterMap_cons]
          cases hf : f x with
          | none => simp
          | some y =>
              constructor
              · intro heq
                have hlength := congrArg List.length heq
                have hless : ((l.filter keep).filterMap f).length ≤ (l.filterMap f).length :=
                  (List.filter_sublist.filterMap f).length_le
                rw [List.length_cons] at hlength
                omega
              · intro h
                cases h.1 rfl

theorem otherEntries_kept_iff {content : String} :
    otherEntries env host (writeRcFile (keptLines content host)) = otherEntries env host content ↔
      ∀ line ∈ Text.lines content, shouldKeepLine line host none = false →
        ¬ ActsElsewhere env host line := by
  classical
  have hother : ∀ lines : List String,
      (lines.filterMap (rcLineEntry env)).filter (fun e => OtherEffect host e) =
        lines.filterMap fun line => (rcLineEntry env line).filter fun e => OtherEffect host e := by
    intro lines
    rw [List.filter_filterMap]
  rw [otherEntries, otherEntries, entries_writeRcFile fun _ hline => keptLines_oneLine hline,
    rcFileEntries_some, hother, hother, keptLines, filterMap_filter_eq_iff]
  apply forall_congr'
  intro line
  apply imp_congr_right
  intro _
  apply imp_congr_right
  intro _
  rw [Option.filter_eq_none_iff]
  constructor
  · intro h hacts
    obtain ⟨e, he, heffect⟩ := hacts
    exact h e he (decide_eq_true heffect)
  · intro h e he heffect
    exact h ⟨e, he, of_decide_eq_true heffect⟩

end Files

section Logout

variable {env : Env} {content host : String} {url : WebUrl}

theorem all_kept_iff :
    (keptLines content host).length = (Text.lines content).length ↔
      ∀ line ∈ Text.lines content, shouldKeepLine line host none = true :=
  List.length_filter_eq_length_iff

/-- A removed line makes `logout` succeed. -/
theorem logout_ok_of_removed (hhost : hostFromUrl url.text = some host) {line : String}
    (hline : line ∈ Text.lines content) (hremoved : shouldKeepLine line host none = false)
    (defaultRegistry : String) :
    logout defaultRegistry (some url.text) none (some content) =
      .ok (some (writeRcFile (keptLines content host))) := by
  rw [logout_eq defaultRegistry content hhost, if_neg]
  intro hlength
  have hkept := all_kept_iff.mp hlength line hline
  rw [hremoved] at hkept
  cases hkept

theorem logout_ok {defaultRegistry new : String} (hhost : hostFromUrl url.text = some host)
    (h : logout defaultRegistry (some url.text) none (some content) = .ok (some new)) :
    new = writeRcFile (keptLines content host) ∧
      ∃ line ∈ Text.lines content, shouldKeepLine line host none = false := by
  rw [logout_eq defaultRegistry content hhost] at h
  split at h
  next => cases h
  next hlength =>
      rw [all_kept_iff] at hlength
      cases h
      refine ⟨rfl, ?_⟩
      by_contra hnone
      apply hlength
      intro line hline
      cases hkept : shouldKeepLine line host none with
      | true => rfl
      | false => exact absurd ⟨line, hline, hkept⟩ hnone

theorem linesAgree_of_sound (hhost : hostFromUrl url.text = some host)
    (h : LogoutSound env content url) : LinesAgree env content host where
  matched := by
    intro line hline hfiled
    by_contra hmatch
    have hkeep : line ∈ keptLines content host := by
      apply List.mem_filter.mpr
      refine ⟨hline, ?_⟩
      cases hkept : shouldKeepLine line host none with
      | true => rfl
      | false =>
          cases shouldKeepLine_eq_false_iff.mp hkept with
          | inl hblank =>
              obtain ⟨e, he, -⟩ := hfiled
              rw [blank_unfiled hblank] at he
              cases he
          | inr hmatched => exact absurd hmatched hmatch
    -- The file has a credential, so `logout` succeeds and leaves this line.
    cases hresult : logout "" (some url.text) none (some content) with
    | error e =>
        have hnone := (h.fails "").mp ⟨e, hresult⟩
        exact (loadedCredential_none_iff hhost).mp hnone line hline hfiled
    | ok result =>
        have hsome : ∃ new, result = some new := by
          rw [logout_eq "" content hhost] at hresult
          split at hresult
          next => cases hresult
          next =>
              cases hresult
              exact ⟨_, rfl⟩
        obtain ⟨new, rfl⟩ := hsome
        have hremoved := h.removed "" new hresult
        rw [(logout_ok hhost hresult).1, loadedCredential_kept_none_iff hhost] at hremoved
        exact hremoved line hkeep hfiled
  harmless := by
    intro line hline hmatch
    have hremoved : shouldKeepLine line host none = false :=
      shouldKeepLine_eq_false_iff.mpr (.inr hmatch)
    have hothers := h.others "" _ host hhost (logout_ok_of_removed hhost hline hremoved "")
    exact otherEntries_kept_iff.mp hothers line hline hremoved
  present := by
    intro line hline hdropped
    have hremoved := shouldKeepLine_eq_false_iff.mpr hdropped
    have hok := logout_ok_of_removed hhost hline hremoved ""
    by_contra hnone
    have hload : loadedCredential env content url.text = none := by
      rw [loadedCredential_none_iff hhost]
      intro other hother hfiled
      exact hnone ⟨other, hother, hfiled⟩
    obtain ⟨e, he⟩ := (h.fails "").mpr hload
    rw [hok] at he
    cases he

theorem sound_of_linesAgree (hhost : hostFromUrl url.text = some host)
    (h : LinesAgree env content host) : LogoutSound env content url := by
  have hothers : otherEntries env host (writeRcFile (keptLines content host)) =
      otherEntries env host content := by
    rw [otherEntries_kept_iff]
    intro line hline hremoved
    cases shouldKeepLine_eq_false_iff.mp hremoved with
    | inl hblank =>
        intro hacts
        obtain ⟨e, he, -⟩ := hacts
        rw [blank_unfiled hblank] at he
        cases he
    | inr hmatched => exact h.harmless line hline hmatched
  have hnew : ∀ {defaultRegistry new other : String}, hostFromUrl url.text = some other →
      logout defaultRegistry (some url.text) none (some content) = .ok (some new) →
        otherEntries env other new = otherEntries env other content := by
    intro defaultRegistry new other hother hok
    rw [hhost, Option.some.injEq] at hother
    rw [← hother, (logout_ok hhost hok).1]
    exact hothers
  constructor
  · intro defaultRegistry
    rw [loadedCredential_none_iff hhost, logout_eq defaultRegistry content hhost]
    constructor
    · intro herror line hline hfiled
      obtain ⟨e, he⟩ := herror
      split at he
      next hlength =>
          have hkept := all_kept_iff.mp hlength line hline
          have hmatched := h.matched line hline hfiled
          rw [shouldKeepLine_eq_false_iff.mpr (.inr hmatched)] at hkept
          cases hkept
      next => cases he
    · intro hnone
      rw [if_pos]
      · exact ⟨_, rfl⟩
      · rw [all_kept_iff]
        intro line hline
        cases hkept : shouldKeepLine line host none with
        | true => rfl
        | false =>
            obtain ⟨other, hother, hfiled⟩ :=
              h.present line hline (shouldKeepLine_eq_false_iff.mp hkept)
            exact absurd hfiled (hnone other hother)
  · intro defaultRegistry new hok
    rw [(logout_ok hhost hok).1, loadedCredential_kept_none_iff hhost]
    intro line hline hfiled
    obtain ⟨hmem, hkept⟩ := List.mem_filter.mp hline
    have hmatched := h.matched line hmem hfiled
    rw [shouldKeepLine_eq_false_iff.mpr (.inr hmatched)] at hkept
    cases hkept
  · intro defaultRegistry new other hother hok
    exact hnew hother hok
  · intro defaultRegistry new other hother hok config
    exact agree_of_otherEntries (hnew hother hok) config

/-- Without a host in the URL `logout` fails, and nothing is filed for it. -/
theorem sound_of_no_host (hhost : hostFromUrl url.text = none) : LogoutSound env content url := by
  have herror : ∀ defaultRegistry, logout defaultRegistry (some url.text) none (some content) =
      .error (.auth ("invalid registry URL: " ++ url.text)) := by
    intro defaultRegistry
    have hchosen := chosenRegistry_url defaultRegistry url
    have hregistry : registryHost url.text =
        .error (.auth ("invalid registry URL: " ++ url.text)) := by rw [registryHost, hhost]
    unfold logout
    rw [hchosen]
    dsimp only
    rw [hregistry]
    rfl
  constructor
  · intro defaultRegistry
    rw [loadedCredential, hhost]
    exact ⟨fun _ => rfl, fun _ => ⟨_, herror defaultRegistry⟩⟩
  · intro defaultRegistry new hok
    rw [herror] at hok
    cases hok
  · intro defaultRegistry new other hother
    rw [hhost] at hother
    cases hother
  · intro defaultRegistry new other hother
    rw [hhost] at hother
    cases hother

theorem logout_sound_iff :
    LogoutSound env content url ↔
      ∀ host, hostFromUrl url.text = some host → LinesAgree env content host := by
  constructor
  · intro h host hhost
    exact linesAgree_of_sound hhost h
  · intro h
    cases hhost : hostFromUrl url.text with
    | none => exact sound_of_no_host hhost
    | some host => exact sound_of_linesAgree hhost (h host hhost)

end Logout

end Snpm.Auth
