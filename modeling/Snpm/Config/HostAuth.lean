import Mathlib
import Snpm.Config.DefaultAuth
import Snpm.Config.HostKeys

/-!
The credentials of single hosts. An rc entry is filed under its authority
without the port 80 or 443, and a URL is looked up without the default port of
its scheme. The two agree but for an entry whose port is the default of the
scheme that the URL does not have.
-/
namespace Snpm.Config

open Text (toAsciiLowercase)

section Filing

/-- The host, the token and the scheme of an entry that is a host's credential. -/
def hostCredential (e : String × String) : Option (String × String × AuthScheme) :=
  match Text.stripSuffix e.1 ":registry", Text.stripPrefix e.1 "//" with
  | none, some rest => scopedCredential rest e.2
  | _, _ => none

def filedHost (e : String × String) : Option String := (hostCredential e).map (·.1)

/-- The credentials of hosts in a configuration. -/
def fileCredential (config : RegistryConfig) (credential : Option (String × String × AuthScheme)) :
    BTreeMap String String × BTreeMap String AuthScheme :=
  match credential with
  | none => (config.registryAuth, config.registryAuthSchemes)
  | some (host, token, scheme) =>
      (config.registryAuth.insert host token, config.registryAuthSchemes.insert host scheme)

theorem hostCredential_none {key value : String} (h : Text.stripPrefix key "//" = none) :
    hostCredential (key, value) = none := by
  unfold hostCredential
  rw [h]
  split
  · rename_i hsome
    cases hsome
  · rfl

/-- An entry files the credential that it gives, and no other does. -/
theorem applyRcEntry_files (config : RegistryConfig) (e : String × String) :
    ((applyRcEntry config e.1 e.2).registryAuth,
        (applyRcEntry config e.1 e.2).registryAuthSchemes) =
      fileCredential config (hostCredential e) := by
  have ⟨key, value⟩ := e
  have hplain : ∀ {keys : List String}, key ∈ keys →
      (∀ key ∈ keys, Text.stripPrefix key "//" = none) →
      fileCredential config (hostCredential (key, value)) =
        (config.registryAuth, config.registryAuthSchemes) := by
    intro keys hmem hkeys
    rw [hostCredential_none (hkeys key hmem)]
    rfl
  unfold applyRcEntry
  dsimp only
  split
  · rename_i hregistry
    rw [hplain (List.mem_singleton.mpr hregistry) (by decide)]
    split
    · rfl
    · rfl
  · split
    · rename_i hhoist
      rw [hplain hhoist (by decide)]
      split
      · rfl
      · rfl
    · split
      · rename_i hstore
        rw [hplain hstore (by decide)]
      · split
        · rename_i hscope
          rw [hostCredential, hscope]
          unfold applyScopeRegistry
          split
          · rfl
          · rfl
        · rename_i hregistry hrest
          rw [hostCredential, hregistry, hrest]
          dsimp only
          unfold applyScopedAuth
          cases scopedCredential _ value with
          | none => rfl
          | some credential => rfl
        · rename_i hregistry hrest
          rw [hostCredential_none hrest]
          unfold applyPlainEntry
          split
          · rfl
          · split
            · rfl
            · split
              · rfl
              · split
                · rfl
                · split
                  · rfl
                  · rfl

end Filing

section Lookup

variable {config config' : RegistryConfig} {host token : String} {scheme : AuthScheme}
  {after : List (String × String)} {env : Env} {localData : Option PathBuf} {url : String}

/-- Two configurations that differ in the credential of one host at most. -/
structure AgreeOff (host : String) (config config' : RegistryConfig) : Prop where
  tokens : ∀ other, other ≠ host → config'.registryAuth[other]? = config.registryAuth[other]?
  schemes : ∀ other, other ≠ host →
    config'.registryAuthSchemes[other]? = config.registryAuthSchemes[other]?
  same : SameDefault config config'

theorem fileCredential_tokens (config : RegistryConfig)
    (credential : Option (String × String × AuthScheme)) (other : String) :
    (fileCredential config credential).1[other]? =
      (credential.bind fun c => if c.1 = other then some c.2.1 else none).or
        config.registryAuth[other]? := by
  cases credential with
  | none => rfl
  | some c =>
      simp only [fileCredential, Option.bind_some, Std.ExtTreeMap.getElem?_insert, compare_eq_iff_eq]
      split
      · rfl
      · rfl

theorem fileCredential_schemes (config : RegistryConfig)
    (credential : Option (String × String × AuthScheme)) (other : String) :
    (fileCredential config credential).2[other]? =
      (credential.bind fun c => if c.1 = other then some c.2.2 else none).or
        config.registryAuthSchemes[other]? := by
  cases credential with
  | none => rfl
  | some c =>
      simp only [fileCredential, Option.bind_some, Std.ExtTreeMap.getElem?_insert, compare_eq_iff_eq]
      split
      · rfl
      · rfl

theorem rcStep_tokens (config : RegistryConfig) (e : String × String) (other : String) :
    (rcStep config e).registryAuth[other]? =
      ((hostCredential e).bind fun c => if c.1 = other then some c.2.1 else none).or
        config.registryAuth[other]? := by
  rw [← fileCredential_tokens, ← applyRcEntry_files]
  rfl

theorem rcStep_schemes (config : RegistryConfig) (e : String × String) (other : String) :
    (rcStep config e).registryAuthSchemes[other]? =
      ((hostCredential e).bind fun c => if c.1 = other then some c.2.2 else none).or
        config.registryAuthSchemes[other]? := by
  rw [← fileCredential_schemes, ← applyRcEntry_files]
  rfl

theorem SameDefault.step (h : SameDefault config config') (e : String × String) :
    SameDefault (rcStep config e) (rcStep config' e) := by
  have ⟨htoken, hbasic, hregistry⟩ := h
  have ⟨htoken₁, hbasic₁, hregistry₁⟩ := rcStep_step config e
  have ⟨htoken₂, hbasic₂, hregistry₂⟩ := rcStep_step config' e
  refine ⟨?_, ?_, ?_⟩
  · rw [htoken₁, htoken₂, htoken]
  · rw [hbasic₁, hbasic₂, hbasic]
  · rw [hregistry₁, hregistry₂, hregistry]

theorem AgreeOff.step (h : AgreeOff host config config') (e : String × String) :
    AgreeOff host (rcStep config e) (rcStep config' e) where
  tokens := by
    intro other hne
    rw [rcStep_tokens, rcStep_tokens, h.tokens other hne]
  schemes := by
    intro other hne
    rw [rcStep_schemes, rcStep_schemes, h.schemes other hne]
  same := h.same.step e

/-- The entries after a credential keep the difference to its host. -/
theorem AgreeOff.run (h : AgreeOff host config config') (after : List (String × String)) :
    AgreeOff host (applyRcEntries config after) (applyRcEntries config' after) :=
  Overrides.foldl_related rcStep (AgreeOff host) (fun e _ _ _ hagree => hagree.step e) h

/-- The key of a host's credential is none of the default keys. -/
theorem hostCredential_key {e : String × String} (h : (hostCredential e).isSome = true) :
    e.1 ≠ "_authToken" ∧ e.1 ≠ "_auth" ∧ e.1 ≠ "registry" := by
  have ⟨key, value⟩ := e
  have hkey : ∀ plain : String, Text.stripPrefix plain "//" = none → key ≠ plain := by
    intro plain hplain heq
    subst heq
    rw [hostCredential_none hplain] at h
    cases h
  exact ⟨hkey _ (by decide), hkey _ (by decide), hkey _ (by decide)⟩

theorem applyRcEntries_cons (config : RegistryConfig) (e : String × String)
    (after : List (String × String)) :
    applyRcEntries config (e :: after) = applyRcEntries (rcStep config e) after :=
  List.foldl_cons

/-- A credential changes the configuration at its host only. -/
theorem agreeOff_rcStep {e : String × String} (h : hostCredential e = some (host, token, scheme)) :
    AgreeOff host config (rcStep config e) where
  tokens := by
    intro other hne
    rw [rcStep_tokens, h, Option.bind_some, if_neg (Ne.symm hne), Option.none_or]
  schemes := by
    intro other hne
    rw [rcStep_schemes, h, Option.bind_some, if_neg (Ne.symm hne), Option.none_or]
  same := by
    have hsome : (hostCredential e).isSome = true := by
      rw [h]
      rfl
    have ⟨htoken, hauth, hregistry⟩ := hostCredential_key hsome
    have hstep := rcStep_step config e
    simpa [EntryStep, SameDefault, entryCredential, entryRegistry, htoken, hauth, hregistry]
      using hstep

/-- A credential is found under its host right after its entry. -/
theorem rcStep_files (config : RegistryConfig) {e : String × String}
    (h : hostCredential e = some (host, token, scheme)) :
    (rcStep config e).registryAuth[host]? = some token ∧
      (rcStep config e).registryAuthSchemes[host]? = some scheme := by
  constructor
  · rw [rcStep_tokens, h, Option.bind_some, if_pos rfl]
    rfl
  · rw [rcStep_schemes, h, Option.bind_some, if_pos rfl]
    rfl

theorem filterMap_unfiled {V : Type} (hafter : ∀ e ∈ after, filedHost e ≠ some host)
    (f : String × String × AuthScheme → V) :
    (after.filterMap fun e => (hostCredential e).bind fun c =>
      if c.1 = host then some (some (f c)) else none) = [] := by
  refine List.filterMap_eq_nil_iff.mpr ?_
  intro e hmem
  cases hcredential : hostCredential e with
  | none => rfl
  | some c =>
      have hne : c.1 ≠ host := by
        intro heq
        exact hafter e hmem (by simp [filedHost, hcredential, heq])
      rw [Option.bind_some, if_neg hne]

/-- A credential that no later entry replaces stays in effect. -/
theorem applyRcEntries_tokens (hafter : ∀ e ∈ after, filedHost e ≠ some host) :
    (applyRcEntries config after).registryAuth[host]? = config.registryAuth[host]? := by
  have hlast := Overrides.last_wins rcStep (fun config => config.registryAuth[host]?)
    (fun e => (hostCredential e).bind fun c => if c.1 = host then some (some c.2.1) else none)
    (by
      intro config e
      rw [rcStep_tokens]
      cases hostCredential e with
      | none => rfl
      | some c =>
          simp only [Option.bind_some]
          split
          · rfl
          · rfl) config after
  rw [filterMap_unfiled hafter] at hlast
  exact hlast

theorem applyRcEntries_schemes (hafter : ∀ e ∈ after, filedHost e ≠ some host) :
    (applyRcEntries config after).registryAuthSchemes[host]? =
      config.registryAuthSchemes[host]? := by
  have hlast := Overrides.last_wins rcStep (fun config => config.registryAuthSchemes[host]?)
    (fun e => (hostCredential e).bind fun c => if c.1 = host then some (some c.2.2) else none)
    (by
      intro config e
      rw [rcStep_schemes]
      cases hostCredential e with
      | none => rfl
      | some c =>
          simp only [Option.bind_some]
          split
          · rfl
          · rfl) config after
  rw [filterMap_unfiled hafter] at hlast
  exact hlast

/-- The header that a request to a URL gets. -/
def headerFor (env : Env) (localData : Option PathBuf) (config : RegistryConfig) (url : String) :
    Option String :=
  authorizationHeaderForUrl (fromRegistryConfig env localData config) url

theorem headerFor_filed (hurl : hostFromUrl url = some host)
    (htoken : config.registryAuth[host]? = some token)
    (hscheme : config.registryAuthSchemes[host]? = some scheme) :
    headerFor env localData config url = some (scheme.header token) := by
  have htokens : (fromRegistryConfig env localData config).registryAuth[host]? = some token := htoken
  have hschemes : (fromRegistryConfig env localData config).registryAuthSchemes[host]? =
      some scheme := hscheme
  simp [headerFor, authorizationHeaderForUrl, authTokenForUrl, authSchemeForUrl, hurl, htokens,
    hschemes]

theorem SameDefault.runtime (env : Env) (localData : Option PathBuf)
    (h : SameDefault config config') :
    (fromRegistryConfig env localData config').defaultRegistry =
        (fromRegistryConfig env localData config).defaultRegistry ∧
      (fromRegistryConfig env localData config').defaultRegistryAuthToken =
        (fromRegistryConfig env localData config).defaultRegistryAuthToken ∧
      (fromRegistryConfig env localData config').defaultRegistryAuthScheme =
        (fromRegistryConfig env localData config).defaultRegistryAuthScheme := by
  have ⟨htoken, hbasic, hregistry⟩ := h
  unfold fromRegistryConfig
  dsimp only
  rw [htoken, hbasic, hregistry]
  exact ⟨rfl, rfl, rfl⟩

/-- A URL with another host gets the header that it gets without the credential. -/
theorem headerFor_other (hurl : hostFromUrl url ≠ some host) (h : AgreeOff host config config') :
    headerFor env localData config' url = headerFor env localData config url := by
  have ⟨hregistry, htoken, hscheme⟩ := h.same.runtime env localData
  unfold headerFor authorizationHeaderForUrl authTokenForUrl authSchemeForUrl
  rw [hregistry, htoken, hscheme]
  cases hfound : hostFromUrl url with
  | none => rfl
  | some other =>
      have hne : other ≠ host := fun heq => hurl (heq ▸ hfound)
      have htokens : (fromRegistryConfig env localData config').registryAuth[other]? =
          (fromRegistryConfig env localData config).registryAuth[other]? := h.tokens other hne
      have hschemes : (fromRegistryConfig env localData config').registryAuthSchemes[other]? =
          (fromRegistryConfig env localData config).registryAuthSchemes[other]? :=
        h.schemes other hne
      rw [Option.bind_some, Option.bind_some, htokens, hschemes]
      rfl

end Lookup

section Entry

variable {authority path token : String} {scheme : AuthScheme}

/-- How the key of a credential ends. -/
def AuthScheme.ending : AuthScheme → String
  | .bearer => ":_authToken"
  | .basic => ":_auth"

/-- The key of an authority's credential, with a path after the authority. -/
def credentialKey (authority path : String) (scheme : AuthScheme) : String :=
  "//" ++ (authority ++ path ++ scheme.ending)

theorem ending_last (scheme : AuthScheme) :
    scheme.ending.toList ≠ [] ∧ scheme.ending.toList.getLast? ≠ (":registry" : String).toList.getLast? := by
  cases scheme with
  | bearer => decide
  | basic => decide

/-- The text that is left of a path whose last slash is part of the ending. -/
theorem host_of_slash (h : IsAuthority authority) {left : String}
    (hpath : path = "" ∨ path.toList.head? = some '/') (heq : authority ++ path = left ++ "/") :
    ∃ rest : String, left = authority ++ rest ∧ (rest = "" ∨ rest.toList.head? = some '/') := by
  have hlist : authority.toList ++ path.toList = left.toList ++ ['/'] := by
    have hlists := congrArg String.toList heq
    simpa using hlists
  have hne : path.toList ≠ [] := by
    intro hnil
    rw [hnil, List.append_nil] at hlist
    exact (h.chars '/' (by rw [hlist]; simp)).1 rfl
  have hleft : left.toList = authority.toList ++ path.toList.dropLast := by
    have hdrop := congrArg List.dropLast hlist
    rw [List.dropLast_append_of_ne_nil hne, List.dropLast_concat] at hdrop
    exact hdrop.symm
  refine ⟨String.ofList path.toList.dropLast, ?_, ?_⟩
  · rw [← String.toList_inj, hleft]
    simp
  · cases hpath with
    | inl hempty => exact absurd (by rw [hempty]; rfl) hne
    | inr hhead =>
        have ⟨rest, hrest⟩ := List.head?_eq_some_iff.mp hhead
        rw [hrest]
        cases rest with
        | nil => exact .inl rfl
        | cons c cs => exact .inr (by simp)

/-- The host of a key is the authority with nothing or a path after it. -/
theorem parseScopedAuthKey_eq (h : IsAuthority authority)
    (hpath : path = "" ∨ path.toList.head? = some '/') :
    ∃ rest : String, (rest = "" ∨ rest.toList.head? = some '/') ∧
      parseScopedAuthKey (authority ++ path ++ scheme.ending) = some (authority ++ rest, scheme) := by
  have hslash : ∀ left : String, authority ++ path ++ scheme.ending = left ++ ("/" ++ scheme.ending) →
      authority ++ path = left ++ "/" := by
    intro left heq
    have hlists := congrArg String.toList heq
    rw [← String.append_assoc, String.toList_append, String.toList_append (t := scheme.ending)]
      at hlists
    exact String.toList_inj.mp (List.append_cancel_right hlists)
  unfold parseScopedAuthKey
  cases scheme with
  | bearer =>
      cases hlong : Text.stripSuffix (authority ++ path ++ AuthScheme.bearer.ending)
          "/:_authToken" with
      | some left =>
          have ⟨rest, hrest, hstart⟩ :=
            host_of_slash h hpath (hslash left (Text.stripSuffix_eq_some hlong))
          exact ⟨rest, hstart, by rw [hrest]⟩
      | none =>
          have hshort : Text.stripSuffix (authority ++ path ++ AuthScheme.bearer.ending)
              ":_authToken" = some (authority ++ path) := Text.stripSuffix_append _ _
          exact ⟨path, hpath, by rw [hshort]⟩
  | basic =>
      have hlast : (authority ++ path ++ AuthScheme.basic.ending).toList.getLast? = some 'h' := by
        rw [String.toList_append, List.getLast?_append_of_ne_nil _ (ending_last _).1]
        rfl
      have htoken : ∀ p : String, p.toList.getLast? = some 'n' → p ≠ "" →
          Text.stripSuffix (authority ++ path ++ AuthScheme.basic.ending) p = none := by
        intro p hp hne
        refine Text.stripSuffix_eq_none ?_ hne
        rw [hlast, hp]
        decide
      rw [htoken "/:_authToken" (by decide) (by decide), htoken ":_authToken" (by decide) (by decide)]
      cases hlong : Text.stripSuffix (authority ++ path ++ AuthScheme.basic.ending) "/:_auth" with
      | some left =>
          have ⟨rest, hrest, hstart⟩ :=
            host_of_slash h hpath (hslash left (Text.stripSuffix_eq_some hlong))
          exact ⟨rest, hstart, by rw [hrest]⟩
      | none =>
          have hshort : Text.stripSuffix (authority ++ path ++ AuthScheme.basic.ending)
              ":_auth" = some (authority ++ path) := Text.stripSuffix_append _ _
          exact ⟨path, hpath, by rw [hshort]⟩

/-- The credential that an entry gives, whatever the path after its authority. -/
theorem hostCredential_entry (h : IsAuthority authority)
    (hpath : path = "" ∨ path.toList.head? = some '/') (htoken : token ≠ "") :
    hostCredential (credentialKey authority path scheme, token) =
      some (normalizeAuthHost authority, token, scheme) := by
  have ⟨rest, hstart, hparse⟩ : ∃ rest : String, (rest = "" ∨ rest.toList.head? = some '/') ∧
      parseScopedAuthKey (authority ++ path ++ scheme.ending) = some (authority ++ rest, scheme) :=
    parseScopedAuthKey_eq h hpath
  have hregistry : Text.stripSuffix (credentialKey authority path scheme) ":registry" = none := by
    refine Text.stripSuffix_eq_none ?_ (by decide)
    rw [credentialKey, String.toList_append, String.toList_append,
      List.getLast?_append_of_ne_nil _ (by simp [(ending_last scheme).1]),
      List.getLast?_append_of_ne_nil _ (ending_last scheme).1]
    exact (ending_last scheme).2
  have hrest : Text.stripPrefix (credentialKey authority path scheme) "//" =
      some (authority ++ path ++ scheme.ending) := Text.stripPrefix_append _ _
  have hhost : normalizeAuthHost (authority ++ rest) = normalizeAuthHost authority := by
    have hbare := normalizeAuthHost_append h (.inl rfl : ("" : String) = "" ∨ _)
    rw [String.append_empty] at hbare
    rw [normalizeAuthHost_append h hstart, hbare]
  have hne : normalizeAuthHost (authority ++ rest) ≠ "" := normalizeAuthHost_nonempty h hstart
  unfold hostCredential
  dsimp only
  rw [hregistry, hrest]
  dsimp only [scopedCredential]
  rw [hparse, Option.bind_some]
  dsimp only
  rw [if_neg (by simp [htoken, hne]), hhost]

end Entry

section Origin

variable {authority path token : String} {scheme : AuthScheme} {url : WebUrl}

/-- A credential is used for its authority, and is not used for a URL with
another port than its authority names, in every configuration in which no later
entry is filed under the same host. -/
def LookupSound (authority path : String) (scheme : AuthScheme) (token : String) (url : WebUrl) :
    Prop :=
  ∀ (env : Env) (localData : Option PathBuf) (config : RegistryConfig)
    (after : List (String × String)),
    (∀ e ∈ after, filedHost e ≠ filedHost (credentialKey authority path scheme, token)) →
    (SameText url.authority authority →
      headerFor env localData
          (applyRcEntries config ((credentialKey authority path scheme, token) :: after)) url.text =
        some (scheme.header token)) ∧
    ∀ port, explicitPort authority = some port → url.effectivePort ≠ port →
      headerFor env localData
          (applyRcEntries config ((credentialKey authority path scheme, token) :: after)) url.text =
        headerFor env localData (applyRcEntries config after) url.text

/-- The URL is plain if it has the authority of the credential, and where the
port of the credential is the default port of the other scheme, a plain URL has
neither this authority nor its host alone or with the default port. -/
def LookupCondition (authority : String) (url : WebUrl) : Prop :=
  (SameText url.authority authority → url.Plain) ∧
  ∀ host, OddPort authority host url.scheme → url.Plain →
    ¬ SameText url.authority authority ∧ ¬ SameText url.authority host ∧
      ¬ SameText url.authority (host ++ ":" ++ url.scheme.port)

theorem headerFor_default (url : String) :
    headerFor (fun _ => none) none defaultRegistryConfig url = none := by
  have htoken : (fromRegistryConfig (fun _ => none) none
      defaultRegistryConfig).defaultRegistryAuthToken = none := rfl
  have htokens : ∀ host : String, (fromRegistryConfig (fun _ => none) none
      defaultRegistryConfig).registryAuth[host]? = none :=
    fun host => Std.ExtTreeMap.getElem?_empty
  unfold headerFor authorizationHeaderForUrl authTokenForUrl
  cases hostFromUrl url with
  | none => rfl
  | some host => simp [htoken, htokens]

theorem effectivePort_of_free (h : ':' ∉ (toAsciiLowercase url.authority).toList) :
    url.effectivePort = portNumber url.scheme.port := by
  rw [WebUrl.effectivePort, ← explicitPort_toAsciiLowercase, explicitPort_of_free h]
  rfl

theorem effectivePort_of_port {host : String}
    (h : toAsciiLowercase url.authority = host ++ ":" ++ url.scheme.port) :
    url.effectivePort = portNumber url.scheme.port := by
  rw [WebUrl.effectivePort, ← explicitPort_toAsciiLowercase, h, explicitPort_append]
  rfl

/-- Where neither normal form has dropped a port of the other scheme, URLs with
the host of a credential have its port. -/
theorem effectivePort_of_same_host {port : Nat}
    (h : stripDefaultPort (toAsciiLowercase authority) url.scheme.name =
      stripDefaultPort (toAsciiLowercase url.authority) url.scheme.name)
    (hport : explicitPort authority = some port) : url.effectivePort = port := by
  rw [← explicitPort_toAsciiLowercase] at hport
  cases stripDefaultPort_cases (toAsciiLowercase authority) url.scheme with
  | inl hfiled =>
      have ⟨host, hfree, hauthority, hhost⟩ := hfiled
      rw [hauthority, explicitPort_append] at hport
      cases hport
      cases stripDefaultPort_cases (toAsciiLowercase url.authority) url.scheme with
      | inl hstripped =>
          have ⟨other, _, hother, _⟩ := hstripped
          exact effectivePort_of_port hother
      | inr hkept =>
          rw [hhost, hkept.2] at h
          exact effectivePort_of_free (h ▸ hfree)
  | inr hfiled =>
      cases stripDefaultPort_cases (toAsciiLowercase url.authority) url.scheme with
      | inl hstripped =>
          have ⟨other, hfree, _, hother⟩ := hstripped
          rw [hfiled.2, hother] at h
          rw [h, explicitPort_of_free hfree] at hport
          cases hport
      | inr hkept =>
          rw [hfiled.2, hkept.2] at h
          rw [WebUrl.effectivePort, ← explicitPort_toAsciiLowercase, ← h, hport]
          rfl

/-- The host under which a credential is filed, and its port apart. -/
theorem filed_odd {host : String} (h : IsAuthority authority)
    (hodd : OddPort authority host url.scheme) :
    normalizeAuthHost authority = toAsciiLowercase host := by
  have hfiled := normalizeAuthHost_odd h hodd (.inl rfl : ("" : String) = "" ∨ _)
  rwa [String.append_empty] at hfiled

theorem filed_even (h : IsAuthority authority)
    (heven : ∀ host, ¬ OddPort authority host url.scheme) :
    normalizeAuthHost authority =
      stripDefaultPort (toAsciiLowercase authority) url.scheme.name := by
  have hfiled := normalizeAuthHost_even h heven (.inl rfl : ("" : String) = "" ∨ _)
  rwa [String.append_empty] at hfiled

/-- A plain URL is looked up under the host of a credential exactly if the two
normal forms are the same. -/
theorem hostFromUrl_eq_filed (h : IsAuthority authority) (hplain : url.Plain) :
    hostFromUrl url.text = some (normalizeAuthHost authority) ↔
      stripDefaultPort (toAsciiLowercase url.authority) url.scheme.name =
        normalizeAuthHost authority := by
  have hne : normalizeAuthHost authority ≠ "" := by
    have hnonempty := normalizeAuthHost_nonempty h (.inl rfl : ("" : String) = "" ∨ _)
    rwa [String.append_empty] at hnonempty
  rw [url.hostFromUrl_plain hplain]
  dsimp only
  split
  · rename_i hempty
    rw [hempty]
    exact ⟨nofun, fun heq => absurd heq.symm hne⟩
  · exact Option.some_inj

theorem hostFromUrl_ne_filed (h : IsAuthority authority) (hplain : ¬ url.Plain) :
    hostFromUrl url.text ≠ some (normalizeAuthHost authority) := by
  intro hhost
  have hmarks := normalizeAuthHost_marks h (.inl rfl : ("" : String) = "" ∨ _)
  rw [String.append_empty] at hmarks
  cases url.hostFromUrl_marks hplain hhost with
  | inl hquery => exact hmarks.1 hquery
  | inr hrest =>
      cases hrest with
      | inl hhash => exact hmarks.2.1 hhash
      | inr hcolon => exact hmarks.2.2 hcolon

/-- A URL is looked up under the host of an odd port in three spellings. -/
theorem stripDefaultPort_eq_host {host : String} (hhost : ':' ∉ host.toList) :
    stripDefaultPort (toAsciiLowercase url.authority) url.scheme.name = toAsciiLowercase host ↔
      SameText url.authority host ∨ SameText url.authority (host ++ ":" ++ url.scheme.port) := by
  unfold SameText
  rw [toAsciiLowercase_port]
  cases stripDefaultPort_cases (toAsciiLowercase url.authority) url.scheme with
  | inl hstripped =>
      have ⟨other, hfree, hauthority, hother⟩ := hstripped
      rw [hother, hauthority]
      constructor
      · intro heq
        rw [heq]
        exact .inr rfl
      · intro heq
        cases heq with
        | inl hsame =>
            have hcolon : ':' ∈ (toAsciiLowercase host).toList := by
              rw [← hsame]
              simp
            exact absurd hcolon (lower_free hhost)
        | inr hsame =>
            have hsplit := splitOnce_port hfree url.scheme.port
            rw [hsame, splitOnce_port (lower_free hhost)] at hsplit
            exact (congrArg Prod.fst (Option.some_inj.mp hsplit)).symm
  | inr hkept =>
      rw [hkept.2]
      constructor
      · exact .inl
      · intro heq
        cases heq with
        | inl hsame => exact hsame
        | inr hsame => exact absurd hsame (hkept.1 _ (lower_free hhost))

/-- An authority with an odd port is none of the spellings of its host. -/
theorem odd_port_ne {host : String} (hodd : OddPort authority host url.scheme)
    (hsame : SameText url.authority authority) :
    stripDefaultPort (toAsciiLowercase url.authority) url.scheme.name ≠ toAsciiLowercase host := by
  have hports : url.scheme.other.port ≠ url.scheme.port := by
    cases url.scheme with
    | https => decide
    | http => decide
  intro heq
  have hlower : toAsciiLowercase url.authority =
      toAsciiLowercase host ++ ":" ++ url.scheme.other.port := by
    rw [hsame, hodd.2, toAsciiLowercase_port]
  cases (stripDefaultPort_eq_host hodd.1).mp heq with
  | inl hhost =>
      have hcolon : ':' ∈ (toAsciiLowercase host).toList := by
        rw [← hhost, hlower]
        simp
      exact lower_free hodd.1 hcolon
  | inr hport =>
      unfold SameText at hport
      rw [hlower, toAsciiLowercase_port] at hport
      have hsplit := splitOnce_port (lower_free hodd.1) url.scheme.port
      rw [← hport, splitOnce_port (lower_free hodd.1)] at hsplit
      exact hports (congrArg Prod.snd (Option.some_inj.mp hsplit))

/-- With the credential and without it, in a configuration of nothing else. -/
theorem header_unused (hentry : hostCredential (credentialKey authority path scheme, token) =
      some (normalizeAuthHost authority, token, scheme))
    (hurl : hostFromUrl url.text ≠ some (normalizeAuthHost authority)) :
    headerFor (fun _ => none) none
      (applyRcEntries defaultRegistryConfig [(credentialKey authority path scheme, token)])
      url.text = none :=
  (headerFor_other hurl (agreeOff_rcStep hentry)).trans (headerFor_default url.text)

theorem header_used (env : Env) (localData : Option PathBuf) (config : RegistryConfig)
    {after : List (String × String)}
    (hentry : hostCredential (credentialKey authority path scheme, token) =
      some (normalizeAuthHost authority, token, scheme))
    (hafter : ∀ e ∈ after, filedHost e ≠ some (normalizeAuthHost authority))
    (hurl : hostFromUrl url.text = some (normalizeAuthHost authority)) :
    headerFor env localData
        (applyRcEntries config ((credentialKey authority path scheme, token) :: after)) url.text =
      some (scheme.header token) := by
  have ⟨htoken, hscheme⟩ := rcStep_files config hentry
  rw [applyRcEntries_cons]
  exact headerFor_filed hurl ((applyRcEntries_tokens hafter).trans htoken)
    ((applyRcEntries_schemes hafter).trans hscheme)

theorem condition_of_sound (h : IsAuthority authority)
    (hentry : hostCredential (credentialKey authority path scheme, token) =
      some (normalizeAuthHost authority, token, scheme))
    (hsound : LookupSound authority path scheme token url) : LookupCondition authority url := by
  have hdefault := hsound (fun _ => none) none defaultRegistryConfig [] (fun _ hmem => by cases hmem)
  have hfound : SameText url.authority authority →
      hostFromUrl url.text = some (normalizeAuthHost authority) := by
    intro hsame
    by_contra hother
    have hheader := hdefault.1 hsame
    rw [header_unused hentry hother] at hheader
    cases hheader
  -- an unused credential changes nothing
  have hport : ∀ port, explicitPort authority = some port → url.effectivePort ≠ port →
      hostFromUrl url.text ≠ some (normalizeAuthHost authority) := by
    intro port hexplicit hne hhost
    have hheader := hdefault.2 port hexplicit hne
    rw [header_used _ _ _ hentry (fun _ hmem => by cases hmem) hhost] at hheader
    cases hheader.trans (headerFor_default url.text)
  refine ⟨?_, ?_⟩
  · intro hsame
    by_contra hplain
    exact hostFromUrl_ne_filed h hplain (hfound hsame)
  · intro host hodd hplain
    have hfiled : normalizeAuthHost authority = toAsciiLowercase host := filed_odd h hodd
    have hkey := hostFromUrl_eq_filed h hplain
    rw [hfiled] at hkey hfound hport
    have hports : portNumber url.scheme.port ≠ portNumber url.scheme.other.port := by
      cases url.scheme with
      | https => decide
      | http => decide
    have hexplicit : explicitPort authority = some (portNumber url.scheme.other.port) := by
      rw [hodd.2, explicitPort_append]
    refine ⟨?_, ?_, ?_⟩
    · intro hsame
      exact odd_port_ne hodd hsame (hkey.mp (hfound hsame))
    · intro hsame
      have heffective : url.effectivePort = portNumber url.scheme.port := by
        refine effectivePort_of_free ?_
        rw [hsame]
        exact lower_free hodd.1
      refine hport _ hexplicit (heffective ▸ hports) ?_
      exact hkey.mpr ((stripDefaultPort_eq_host hodd.1).mpr (.inl hsame))
    · intro hsame
      have heffective : url.effectivePort = portNumber url.scheme.port := by
        have hlower : toAsciiLowercase url.authority =
            toAsciiLowercase host ++ ":" ++ url.scheme.port := by
          rw [hsame, toAsciiLowercase_port]
        exact effectivePort_of_port hlower
      refine hport _ hexplicit (heffective ▸ hports) ?_
      exact hkey.mpr ((stripDefaultPort_eq_host hodd.1).mpr (.inr hsame))

theorem sound_of_condition (h : IsAuthority authority)
    (hentry : hostCredential (credentialKey authority path scheme, token) =
      some (normalizeAuthHost authority, token, scheme))
    (hcondition : LookupCondition authority url) :
    LookupSound authority path scheme token url := by
  intro env localData config after hafter
  have hfiled : filedHost (credentialKey authority path scheme, token) =
      some (normalizeAuthHost authority) := by
    unfold filedHost
    rw [hentry, Option.map_some]
  have hunfiled : ∀ e ∈ after, filedHost e ≠ some (normalizeAuthHost authority) :=
    fun e hmem heq => hafter e hmem (heq.trans hfiled.symm)
  refine ⟨?_, ?_⟩
  · intro hsame
    have hplain := hcondition.1 hsame
    have heven : ∀ host, ¬ OddPort authority host url.scheme :=
      fun host hodd => (hcondition.2 host hodd hplain).1 hsame
    refine header_used env localData config hentry hunfiled ?_
    rw [hostFromUrl_eq_filed h hplain, filed_even h heven, hsame]
  · intro port hexplicit hne
    rw [applyRcEntries_cons]
    refine headerFor_other ?_ ((agreeOff_rcStep hentry).run after)
    intro hhost
    cases Classical.em url.Plain with
    | inr hplain => exact hostFromUrl_ne_filed h hplain hhost
    | inl hplain =>
        rw [hostFromUrl_eq_filed h hplain] at hhost
        cases Classical.em (∃ host, OddPort authority host url.scheme) with
        | inl hodd =>
            have ⟨host, hodd⟩ := hodd
            have hspellings := (hcondition.2 host hodd hplain).2
            rw [filed_odd h hodd, stripDefaultPort_eq_host hodd.1] at hhost
            cases hhost with
            | inl hsame => exact hspellings.1 hsame
            | inr hsame => exact hspellings.2 hsame
        | inr heven =>
            rw [filed_even h fun host hodd => heven ⟨host, hodd⟩] at hhost
            exact hne (effectivePort_of_same_host hhost.symm hexplicit)

/-- The lookup of a host's credential is sound exactly for the URLs that the two
normal forms treat alike. -/
theorem host_lookup_sound_iff (authority path token : String) (scheme : AuthScheme) (url : WebUrl)
    (h : IsAuthority authority) (hpath : path = "" ∨ path.toList.head? = some '/')
    (htoken : token ≠ "") :
    LookupSound authority path scheme token url ↔ LookupCondition authority url :=
  ⟨condition_of_sound h (hostCredential_entry h hpath htoken),
    sound_of_condition h (hostCredential_entry h hpath htoken)⟩

end Origin

section Ports

/-- An https URL on its default port. -/
def secureUrl : WebUrl where
  scheme := .https
  spelled := "https"
  authority := "npm.example.com"
  tail := "/pkg"
  spelled_name := by decide
  authority_chars := by
    have hall : ("npm.example.com" : String).toList.all
        (fun c => decide (c ≠ '/' ∧ c ≠ '?' ∧ c ≠ '#')) = true := by decide
    exact fun c hc => of_decide_eq_true (List.all_eq_true.mp hall c hc)
  tail_start := by
    intro c hc
    have hslash : some '/' = some c := hc
    cases hslash
    exact .inl rfl
  no_space := by
    have hall : ("https" ++ "://" ++ "npm.example.com" ++ "/pkg" : String).toList.all
        (fun c => !Text.isWhitespace c) = true := by decide
    exact fun c hc => by simpa using List.all_eq_true.mp hall c hc

theorem exampleAuthority : IsAuthority "npm.example.com" where
  nonempty := by decide
  host := by decide
  port := by decide
  chars := by
    have hall : ("npm.example.com" : String).toList.all
        (fun c => decide (c ≠ '/' ∧ c ≠ '?' ∧ c ≠ '#' ∧ Text.isWhitespace c = false)) = true := by
      decide
    exact fun c hc => of_decide_eq_true (List.all_eq_true.mp hall c hc)

theorem host_lookup_sound_secure :
    ("/" : String).toList.head? = some '/' ∧ "abc" ≠ "" ∧
      (LookupSound "npm.example.com" "/" .bearer "abc" secureUrl ↔
        LookupCondition "npm.example.com" secureUrl) :=
  ⟨by decide, by decide,
    host_lookup_sound_iff "npm.example.com" "/" "abc" .bearer secureUrl exampleAuthority
      (.inr (by decide)) (by decide)⟩

/-- A token for the port 443. -/
def securePortEntry : String × String := (credentialKey "npm.example.com:443" "/" .bearer, "abc")

/-- The token for the port 443 is sent to the port 80, and not to the port 443
where the URL names it. -/
theorem token_sent_to_other_port :
    explicitPort "npm.example.com:443" = some 443 ∧
      headerFor (fun _ => none) none (applyRcEntries defaultRegistryConfig [securePortEntry])
        "http://npm.example.com/pkg" = some "Bearer abc" ∧
      headerFor (fun _ => none) none (applyRcEntries defaultRegistryConfig [securePortEntry])
        "http://npm.example.com:443/pkg" = none := by
  decide +kernel

end Ports

end Snpm.Config
