import Mathlib
import Snpm.Config.Runtime
import Snpm.Library.Overrides

/-!
The credential of the default registry. The token is that of the last entry or
of the environment, but an rc file that once gave a basic credential makes the
scheme basic whatever supplies the token.
-/
namespace Snpm.Config

/-- A token and the scheme that belongs to what supplied it. -/
structure Credential where
  token : String
  scheme : AuthScheme
deriving DecidableEq

/-- The default credential of an entry. -/
def entryCredential (e : String × String) : Option Credential :=
  if e.1 = "_authToken" ∧ e.2 ≠ "" then some ⟨e.2, .bearer⟩
  else if e.1 = "_auth" ∧ e.2 ≠ "" then some ⟨e.2, .basic⟩
  else none

/-- The default credential of the environment. -/
def envCredential (env : Env) : Option Credential :=
  match authTokenVariable env, readConfigEnv env "_auth" allFamilies with
  | some token, _ => some ⟨token, .bearer⟩
  | none, some token => some ⟨token, .basic⟩
  | none, none => none

def entryRegistry (e : String × String) : Option String :=
  if e.1 = "registry" ∧ e.2 ≠ "" then some (normalizeRegistryUrl e.2) else none

/-- The default registry of the rc files. -/
def rcRegistry (entries : List (String × String)) : String :=
  ((entries.filterMap entryRegistry).getLast?).getD defaultRegistryConfig.defaultRegistry

/-- The environment names a registry on another host than the rc files. -/
def registryMoved (env : Env) (entries : List (String × String)) : Bool :=
  (readConfigEnv env "registry" allFamilies).any fun registry =>
    hostFromUrl (rcRegistry entries) != hostFromUrl registry

/-- What supplies the effective token: the environment, or else the last entry
with a default credential unless the registry moves to another host. -/
def supplier (env : Env) (entries : List (String × String)) : Option Credential :=
  (envCredential env).or
    (if registryMoved env entries then none else (entries.filterMap entryCredential).getLast?)

section Steps

variable {config config' : RegistryConfig} {key value : String}

/-- The fields of the default registry and its credential. -/
def SameDefault (config config' : RegistryConfig) : Prop :=
  config'.defaultAuthToken = config.defaultAuthToken ∧
    config'.defaultAuthBasic = config.defaultAuthBasic ∧
    config'.defaultRegistry = config.defaultRegistry

/-- What an entry does to the default registry and its credential. -/
def EntryStep (config config' : RegistryConfig) (e : String × String) : Prop :=
  config'.defaultAuthToken =
      ((entryCredential e).map fun c => some c.token).getD config.defaultAuthToken ∧
    config'.defaultAuthBasic = (config.defaultAuthBasic || decide (e.1 = "_auth" ∧ e.2 ≠ "")) ∧
    config'.defaultRegistry = (entryRegistry e).getD config.defaultRegistry

/-- An entry with another key sets none of them. -/
theorem EntryStep.other (htoken : key ≠ "_authToken") (hauth : key ≠ "_auth")
    (hregistry : key ≠ "registry") (h : SameDefault config config') :
    EntryStep config config' (key, value) := by
  have ⟨hsameToken, hsameBasic, hsameRegistry⟩ := h
  refine ⟨?_, ?_, ?_⟩
  · simpa [entryCredential, htoken, hauth] using hsameToken
  · simpa [hauth] using hsameBasic
  · simpa [entryRegistry, hregistry] using hsameRegistry

theorem applyScopeRegistry_same (config : RegistryConfig) (scopeName value : String) :
    SameDefault config (applyScopeRegistry config scopeName value) := by
  unfold applyScopeRegistry
  split
  · exact ⟨rfl, rfl, rfl⟩
  · exact ⟨rfl, rfl, rfl⟩

theorem applyScopedAuth_same (config : RegistryConfig) (rest value : String) :
    SameDefault config (applyScopedAuth config rest value) := by
  unfold applyScopedAuth
  split
  · exact ⟨rfl, rfl, rfl⟩
  · exact ⟨rfl, rfl, rfl⟩

theorem applyPlainEntry_step (config : RegistryConfig) (hregistry : key ≠ "registry") :
    EntryStep config (applyPlainEntry config key value) (key, value) := by
  unfold applyPlainEntry
  split
  · rename_i htoken
    refine ⟨?_, ?_, ?_⟩
    · simp [entryCredential, htoken]
    · simp [htoken.1]
    · simp [entryRegistry, hregistry]
  · rename_i htoken
    split
    · rename_i hauth
      refine ⟨?_, ?_, ?_⟩
      · simp [entryCredential, hauth]
      · simp [hauth]
      · simp [entryRegistry, hregistry]
    · rename_i hauth
      have hnone : entryCredential (key, value) = none := by simp [entryCredential, htoken, hauth]
      have hsame : ∀ config', SameDefault config config' →
          EntryStep config config' (key, value) := by
        intro config' ⟨hsameToken, hsameBasic, hsameRegistry⟩
        refine ⟨?_, ?_, ?_⟩
        · simpa [hnone] using hsameToken
        · simpa [hauth] using hsameBasic
        · simpa [entryRegistry, hregistry] using hsameRegistry
      apply hsame
      split
      · exact ⟨rfl, rfl, rfl⟩
      · split
        · exact ⟨rfl, rfl, rfl⟩
        · split
          · exact ⟨rfl, rfl, rfl⟩
          · exact ⟨rfl, rfl, rfl⟩

/-- A key of a list that has none of the default keys. -/
theorem EntryStep.of_mem {keys : List String} (hmem : key ∈ keys)
    (hkeys : "_authToken" ∉ keys ∧ "_auth" ∉ keys ∧ "registry" ∉ keys)
    (h : SameDefault config config') : EntryStep config config' (key, value) := by
  refine EntryStep.other ?_ ?_ ?_ h
  · exact fun heq => hkeys.1 (heq ▸ hmem)
  · exact fun heq => hkeys.2.1 (heq ▸ hmem)
  · exact fun heq => hkeys.2.2 (heq ▸ hmem)

theorem applyRcEntry_step (config : RegistryConfig) (key value : String) :
    EntryStep config (applyRcEntry config key value) (key, value) := by
  unfold applyRcEntry
  split
  · rename_i hregistry
    subst hregistry
    split
    · rename_i hempty
      subst hempty
      exact ⟨rfl, by simp, rfl⟩
    · rename_i hvalue
      exact ⟨rfl, by simp, by simp [entryRegistry, hvalue]⟩
  · rename_i hregistry
    split
    · rename_i hhoist
      refine EntryStep.of_mem hhoist (by decide) ?_
      split
      · exact ⟨rfl, rfl, rfl⟩
      · exact ⟨rfl, rfl, rfl⟩
    · split
      · rename_i hstore
        exact EntryStep.of_mem hstore (by decide) ⟨rfl, rfl, rfl⟩
      · split
        · rename_i hscope
          refine EntryStep.other ?_ ?_ hregistry (applyScopeRegistry_same _ _ _)
          · intro heq
            subst heq
            cases hscope
          · intro heq
            subst heq
            cases hscope
        · rename_i hhost
          refine EntryStep.other ?_ ?_ hregistry (applyScopedAuth_same _ _ _)
          · intro heq
            subst heq
            cases hhost
          · intro heq
            subst heq
            cases hhost
        · exact applyPlainEntry_step config hregistry

end Steps

section Runs

variable (env : Env) (localData : Option PathBuf) (entries : List (String × String))

/-- An entry as a step of a run. -/
def rcStep (config : RegistryConfig) (e : String × String) : RegistryConfig :=
  applyRcEntry config e.1 e.2

theorem rcStep_step (config : RegistryConfig) (e : String × String) :
    EntryStep config (rcStep config e) e :=
  applyRcEntry_step config e.1 e.2

theorem rcEntries_token :
    (applyRcEntries defaultRegistryConfig entries).defaultAuthToken =
      ((entries.filterMap entryCredential).getLast?).map (·.token) := by
  have hlast := Overrides.last_wins rcStep RegistryConfig.defaultAuthToken
    (fun e => (entryCredential e).map fun c => some c.token)
    (fun config e => (rcStep_step config e).1) defaultRegistryConfig entries
  have hcredentials : (entries.filterMap fun e => (entryCredential e).map fun c => some c.token) =
      (entries.filterMap entryCredential).map fun c => some c.token :=
    (List.map_filterMap).symm
  rw [hcredentials, List.getLast?_map] at hlast
  refine hlast.trans ?_
  cases (entries.filterMap entryCredential).getLast? with
  | none => rfl
  | some c => rfl

theorem rcEntries_basic :
    (applyRcEntries defaultRegistryConfig entries).defaultAuthBasic = true ↔
      ∃ e ∈ entries, e.1 = "_auth" ∧ e.2 ≠ "" := by
  have hany := Overrides.any_switches rcStep RegistryConfig.defaultAuthBasic
    (fun e => decide (e.1 = "_auth" ∧ e.2 ≠ ""))
    (fun config e => (rcStep_step config e).2.1) defaultRegistryConfig entries
  have hrun : (applyRcEntries defaultRegistryConfig entries).defaultAuthBasic =
      entries.any fun e => decide (e.1 = "_auth" ∧ e.2 ≠ "") := hany
  rw [hrun, List.any_eq_true]
  simp

theorem rcEntries_registry :
    (applyRcEntries defaultRegistryConfig entries).defaultRegistry = rcRegistry entries :=
  Overrides.last_wins rcStep RegistryConfig.defaultRegistry entryRegistry
    (fun config e => (rcStep_step config e).2.2) defaultRegistryConfig entries

theorem applyAuthEnv_eq (token : Option String) (scheme : AuthScheme) :
    applyAuthEnv env token scheme =
      (((envCredential env).map (·.token)).or token,
        ((envCredential env).map (·.scheme)).getD scheme) := by
  unfold applyAuthEnv envCredential
  cases authTokenVariable env with
  | some _ => rfl
  | none =>
      cases readConfigEnv env "_auth" allFamilies with
      | some _ => rfl
      | none => rfl

theorem applyDefaultRegistryEnv_token (token : Option String) :
    (applyDefaultRegistryEnv env (rcRegistry entries) token).2 =
      if registryMoved env entries then none else token := by
  unfold applyDefaultRegistryEnv registryMoved
  cases readConfigEnv env "registry" allFamilies with
  | none => rfl
  | some registry =>
      cases decEq (hostFromUrl (rcRegistry entries)) (hostFromUrl registry) with
      | isTrue heq => simp [heq]
      | isFalse hne => simp [hne]

/-- The effective token is the one of its supplier. -/
theorem effective_token :
    (fromRegistryConfig env localData
        (applyRcEntries defaultRegistryConfig entries)).defaultRegistryAuthToken =
      (supplier env entries).map (·.token) := by
  unfold fromRegistryConfig supplier
  dsimp only
  rw [applyAuthEnv_eq, rcEntries_registry, rcEntries_token, applyDefaultRegistryEnv_token]
  cases envCredential env with
  | some c => rfl
  | none =>
      cases registryMoved env entries with
      | true => rfl
      | false => rfl

/-- The scheme is basic once an rc file gave a basic credential, and otherwise
the one of the environment. -/
theorem effective_scheme :
    (fromRegistryConfig env localData
        (applyRcEntries defaultRegistryConfig entries)).defaultRegistryAuthScheme =
      if ∃ e ∈ entries, e.1 = "_auth" ∧ e.2 ≠ "" then .basic
      else ((envCredential env).map (·.scheme)).getD .bearer := by
  unfold fromRegistryConfig
  dsimp only
  rw [applyAuthEnv_eq]
  simp only [rcEntries_basic]

/-- A basic credential of an entry comes from an entry that gives one. -/
theorem basic_entry {c : Credential} (h : (entries.filterMap entryCredential).getLast? = some c)
    (hbasic : c.scheme = .basic) : ∃ e ∈ entries, e.1 = "_auth" ∧ e.2 ≠ "" := by
  have ⟨e, hmem, hcredential⟩ := List.mem_filterMap.mp (List.mem_of_getLast? h)
  refine ⟨e, hmem, ?_⟩
  unfold entryCredential at hcredential
  split at hcredential
  · cases hcredential
    cases hbasic
  · split at hcredential
    · assumption
    · cases hcredential

/-- Where no entry gives a basic credential, the scheme is that of the supplier. -/
theorem supplier_scheme {c : Credential} (h : supplier env entries = some c)
    (hnone : ¬ ∃ e ∈ entries, e.1 = "_auth" ∧ e.2 ≠ "") :
    ((envCredential env).map (·.scheme)).getD .bearer = c.scheme := by
  unfold supplier at h
  cases henv : envCredential env with
  | some given =>
      rw [henv] at h
      cases h
      rfl
  | none =>
      rw [henv, Option.none_or] at h
      split at h
      · cases h
      · cases hscheme : c.scheme with
        | bearer => rfl
        | basic => exact absurd (basic_entry entries h hscheme) hnone

end Runs

section Effective

/-- The token of the default registry is that of its supplier, and its scheme is
the supplier's exactly unless an rc file gives a basic credential and the
supplier is a bearer token. -/
theorem default_auth_scheme_iff (env : Env) (localData : Option PathBuf)
    (userFiles ancestorFiles : List (Option String)) :
    (fromEnv env localData userFiles ancestorFiles).defaultRegistryAuthToken =
        (supplier env (rcEntries env (userFiles ++ ancestorFiles))).map (·.token) ∧
      ((∀ c, supplier env (rcEntries env (userFiles ++ ancestorFiles)) = some c →
          (fromEnv env localData userFiles ancestorFiles).defaultRegistryAuthScheme = c.scheme) ↔
        ¬ ((∃ e ∈ rcEntries env (userFiles ++ ancestorFiles), e.1 = "_auth" ∧ e.2 ≠ "") ∧
          ∃ c, supplier env (rcEntries env (userFiles ++ ancestorFiles)) = some c ∧
            c.scheme = .bearer)) := by
  unfold fromEnv
  rw [readRegistryConfig_eq, effective_token, effective_scheme]
  refine ⟨rfl, ?_, ?_⟩
  · intro hmatches ⟨hbasic, c, hsupplier, hbearer⟩
    have hscheme := hmatches c hsupplier
    rw [if_pos hbasic, hbearer] at hscheme
    cases hscheme
  · intro hnot c hsupplier
    split
    · rename_i hbasic
      cases hscheme : c.scheme with
      | bearer => exact absurd ⟨hbasic, c, hsupplier, hscheme⟩ hnot
      | basic => rfl
    · rename_i hnone
      exact supplier_scheme env _ hsupplier hnone

/-- A user file with a basic credential and a project file with a bearer token. -/
def basicThenBearer : List (Option String) :=
  [some "_auth=dXNlcjpwYXNz\n", some "_authToken=abc\n"]

/-- The bearer token is sent as a basic credential. -/
theorem bearer_token_sent_as_basic :
    supplier (fun _ => none) (rcEntries (fun _ => none) basicThenBearer) =
        some ⟨"abc", .bearer⟩ ∧
      (fromEnv (fun _ => none) none basicThenBearer []).defaultRegistryAuthToken = some "abc" ∧
      (fromEnv (fun _ => none) none basicThenBearer []).defaultRegistryAuthScheme = .basic := by
  decide +kernel

end Effective

end Snpm.Config
