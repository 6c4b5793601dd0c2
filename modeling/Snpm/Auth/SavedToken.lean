import Mathlib
import Snpm.Auth.Credentials

/-!
When a saved token is read back: the line that `login` writes is one line, the
loader files it under the host that the URL is looked up under, and variable
expansion leaves the token as it is.
-/
namespace Snpm.Auth

open Config
open Text (OneLine Tight IsCaseless)

section Expansion

/-- Every variable is set to the same letter. -/
def letterEnv : Env := fun _ => some "x"

theorem expandReference_letter (cs : List Char) :
    (expandReference letterEnv cs).1 = ['x'] ∨ (expandReference letterEnv cs).1 = ['$'] := by
  have hletter : (letterEnv "").filter (· ≠ "") = some "x" := by decide
  have hlist : ("x" : String).toList = ['x'] := by decide
  unfold expandReference
  cases bracedEnvReference cs with
  | some reference =>
      left
      dsimp only
      have hvalue : letterEnv reference.1 = letterEnv "" := rfl
      rw [hvalue, hletter, Option.getD_some, hlist]
  | none =>
      dsimp only
      split
      · exact .inr rfl
      · left
        dsimp only [letterEnv]
        rw [Option.getD_some, hlist]

theorem oneLine_expandFrom (skip : Nat) {cs : List Char} (h : '\n' ∉ cs) :
    '\n' ∉ expandFrom letterEnv skip cs := by
  induction cs generalizing skip with
  | nil => simp [expandFrom]
  | cons c cs ih =>
      rw [List.mem_cons, not_or] at h
      cases skip with
      | succ skip => exact ih skip h.2
      | zero =>
          rw [expandFrom]
          split
          · rw [List.mem_append, not_or]
            refine ⟨?_, ih _ h.2⟩
            cases expandReference_letter cs with
            | inl hletter => rw [hletter]; decide
            | inr hdollar => rw [hdollar]; decide
          · rw [List.mem_append, not_or]
            exact ⟨fun hpush => h.1 (eq_of_mem_pushBytes (by decide) hpush), ih 0 h.2⟩

theorem oneLine_expandEnvVars {text : String} (h : OneLine text) :
    OneLine (expandEnvVars letterEnv text) := by
  rw [OneLine, expandEnvVars, String.toList_ofList]
  exact oneLine_expandFrom 0 h

end Expansion

section Entries

variable {env : Env} {host line : String} {e : String × String}

theorem OneLine.trim {text : String} (h : OneLine text) : OneLine (Text.trim text) :=
  fun hmem => h (Text.mem_of_mem_trim hmem)

theorem parseRcEntry_cases {text : String} (he : parseRcEntry env text = some e) :
    (e = (Text.trim text, "true") ∧ '=' ∉ text.toList) ∨
      ∃ before after, Text.splitOnce text (· = '=') = some (before, after) ∧
        e.1 = Text.trim before ∧
          (e.2 = expandEnvVars env (Text.trim after) ∨
            e.2 ++ "/" = expandEnvVars env (Text.trim after)) := by
  unfold parseRcEntry at he
  split at he
  next hsplit =>
      dsimp only at he
      split at he
      next => cases he
      next => exact .inl ⟨(Option.some.inj he).symm, Text.splitOnce_eq_none_iff.mp hsplit⟩
  next before after hsplit =>
      refine .inr ⟨before, after, hsplit, ?_⟩
      generalize expandEnvVars env (Text.trim after) = value at he ⊢
      generalize Text.trim before = key at he ⊢
      dsimp only at he
      split at he
      next =>
          have heq := Option.some.inj he
          rw [← heq]
          cases hstrip : Text.stripSuffix value "/" with
          | none => exact ⟨rfl, .inl rfl⟩
          | some front => exact ⟨rfl, .inr (Text.stripSuffix_eq_some hstrip).symm⟩
      next =>
          have heq := Option.some.inj he
          rw [← heq]
          exact ⟨rfl, .inl rfl⟩

theorem rcLineEntry_parse (he : rcLineEntry env line = some e) :
    parseRcEntry env (Text.trim line) = some e := by
  unfold rcLineEntry at he
  dsimp only at he
  split at he
  next => cases he
  next => exact he

/-- The value of a line's entry is one line. -/
theorem oneLine_value (h : OneLine line) (he : rcLineEntry letterEnv line = some e) :
    OneLine e.2 := by
  cases parseRcEntry_cases (rcLineEntry_parse he) with
  | inl hflag =>
      rw [hflag.1]
      exact (by decide : '\n' ∉ ("true" : String).toList)
  | inr hvalue =>
      obtain ⟨before, after, hsplit, -, hvalue⟩ := hvalue
      have hafter : OneLine after := by
        intro hmem
        apply OneLine.trim h
        rw [(Text.splitOnce_eq_some hsplit).1, String.toList_append]
        exact List.mem_append_right _ hmem
      have hexpand := oneLine_expandEnvVars (OneLine.trim hafter)
      cases hvalue with
      | inl heq =>
          rw [heq]
          exact hexpand
      | inr heq =>
          intro hmem
          apply hexpand
          rw [← heq, String.toList_append]
          exact List.mem_append_left _ hmem

/-- The key of an entry ends before the first equals sign. -/
theorem key_free (he : rcLineEntry env line = some e) : '=' ∉ e.1.toList := by
  cases parseRcEntry_cases (rcLineEntry_parse he) with
  | inl hflag =>
      rw [hflag.1]
      exact fun hmem => hflag.2 (Text.mem_of_mem_trim hmem)
  | inr hkey =>
      obtain ⟨before, after, hsplit, hkey, -⟩ := hkey
      rw [hkey]
      exact fun hmem => (Text.splitOnce_eq_some hsplit).2 (Text.mem_of_mem_trim hmem)

theorem mem_firstPart {text : String} {c sep : Char}
    (h : c ∈ (Text.firstPart text (· = sep)).toList) : c ∈ text.toList := by
  rw [Text.firstPart_eq, String.toList_ofList] at h
  exact (List.takeWhile_sublist _).subset h

theorem mem_trimEndMatches {text : String} {c end_ : Char}
    (h : c ∈ (Text.trimEndMatches text end_).toList) : c ∈ text.toList := by
  rw [Text.trimEndMatches, String.toList_ofList, List.mem_reverse] at h
  exact List.mem_reverse.mp ((List.dropWhile_suffix _).subset h)

/-- A caseless character of a host's normal form is one of the text. -/
theorem mem_normalizeAuthHost {text : String} {c : Char} (hc : IsCaseless c)
    (h : c ∈ (normalizeAuthHost text).toList) : c ∈ text.toList := by
  have hlower : ∀ {part : String}, c ∈ (Text.toAsciiLowercase part).toList → c ∈ part.toList :=
    fun hmem => (Text.mem_toAsciiLowercase hc).mp hmem
  unfold normalizeAuthHost at h
  dsimp only at h
  split at h
  next => exact mem_firstPart (Text.mem_of_mem_trim (mem_trimEndMatches (hlower h)))
  next name port hsplit =>
      have hname : c ∈ name.toList → c ∈ text.toList := by
        intro hmem
        apply mem_firstPart
        apply Text.mem_of_mem_trim
        apply mem_trimEndMatches
        apply hlower
        rw [(Text.splitOnce_eq_some hsplit).1, String.toList_append, String.toList_append]
        exact List.mem_append_left _ (List.mem_append_left _ hmem)
      split at h
      next => exact hname h
      next => exact mem_firstPart (Text.mem_of_mem_trim (mem_trimEndMatches (hlower h)))

theorem parseScopedAuthKey_text {rest hostAndPath : String} {scheme : AuthScheme}
    (h : parseScopedAuthKey rest = some (hostAndPath, scheme)) :
    ∃ ending, rest = hostAndPath ++ ending := by
  unfold parseScopedAuthKey at h
  split at h
  next hstrip => cases h; exact ⟨_, Text.stripSuffix_eq_some hstrip⟩
  next hstrip => cases h; exact ⟨_, Text.stripSuffix_eq_some hstrip⟩
  next hstrip => cases h; exact ⟨_, Text.stripSuffix_eq_some hstrip⟩
  next hstrip => cases h; exact ⟨_, Text.stripSuffix_eq_some hstrip⟩
  next => cases h

/-- No entry is filed under a host with an equals sign. -/
theorem filedHost_free (he : rcLineEntry env line = some e) (hfiled : filedHost e = some host) :
    '=' ∉ host.toList := by
  obtain ⟨c, hc, rfl⟩ := Option.map_eq_some_iff.mp hfiled
  obtain ⟨-, rest, hostAndPath, hkey, hparse, hhost⟩ := hostCredential_eq_some hc
  obtain ⟨ending, hrest⟩ := parseScopedAuthKey_text hparse
  intro hmem
  rw [hhost] at hmem
  have hpart := mem_normalizeAuthHost (by decide) hmem
  apply key_free he
  rw [hkey, hrest, String.toList_append, String.toList_append]
  exact List.mem_append_right _ (List.mem_append_left _ hpart)

end Entries

section Written

variable {env : Env} {host token : String} {url : WebUrl}

theorem mem_stripDefaultPort {hostport scheme : String} {c : Char}
    (h : c ∈ (stripDefaultPort hostport scheme).toList) : c ∈ hostport.toList := by
  unfold stripDefaultPort at h
  split at h
  next => exact h
  next before after hsplit =>
      split at h
      next =>
          rw [(Text.splitOnce_eq_some hsplit).1, String.toList_append, String.toList_append]
          exact List.mem_append_left _ (List.mem_append_left _ h)
      next => exact h

theorem hostOfRest_text {rest : String} {scheme : Option String}
    (h : hostOfRest rest scheme = some host) :
    host ≠ "" ∧ ∀ c, IsCaseless c → c ∈ host.toList → c ∈ rest.toList := by
  have hlower : ∀ c, IsCaseless c →
      c ∈ (Text.toAsciiLowercase (Text.trim (Text.firstPart rest (· = '/')))).toList →
        c ∈ rest.toList := by
    intro c hc hmem
    exact mem_firstPart (Text.mem_of_mem_trim ((Text.mem_toAsciiLowercase hc).mp hmem))
  unfold hostOfRest at h
  dsimp only at h
  generalize Text.toAsciiLowercase (Text.trim (Text.firstPart rest (· = '/'))) = lowered at h hlower
  have hname : ∀ {name : String}, (∀ c, c ∈ name.toList → c ∈ lowered.toList) →
      (if name = "" then none else some name) = some host →
        host ≠ "" ∧ ∀ c, IsCaseless c → c ∈ host.toList → c ∈ rest.toList := by
    intro name hsub hsome
    split at hsome
    next => cases hsome
    next hne =>
        have heq := Option.some.inj hsome
        rw [heq] at hne hsub
        exact ⟨hne, fun c hc hmem => hlower c hc (hsub c hmem)⟩
  split at h
  next => cases h
  next =>
      cases scheme with
      | none => exact hname (fun _ hmem => hmem) h
      | some scheme => exact hname (fun _ hmem => mem_stripDefaultPort hmem) h

theorem hostFromUrl_text {text : String} (h : hostFromUrl text = some host) :
    host ≠ "" ∧ ∀ c, IsCaseless c → c ∈ host.toList → c ∈ text.toList := by
  have hstrip : ∀ {start rest : String} {c : Char},
      Text.stripPrefix (Text.trim text) start = some rest → c ∈ rest.toList → c ∈ text.toList := by
    intro start rest c hrest hmem
    apply Text.mem_of_mem_trim
    rw [Text.stripPrefix_eq_some hrest, String.toList_append]
    exact List.mem_append_right _ hmem
  unfold hostFromUrl at h
  dsimp only at h
  split at h
  next rest _ hrest =>
      have hhost := hostOfRest_text h
      exact ⟨hhost.1, fun c hc hmem => hstrip hrest (hhost.2 c hc hmem)⟩
  next rest _ hrest =>
      have hhost := hostOfRest_text h
      exact ⟨hhost.1, fun c hc hmem => hstrip hrest (hhost.2 c hc hmem)⟩
  next =>
      have hhost := hostOfRest_text h
      exact ⟨hhost.1, fun c hc hmem => Text.mem_of_mem_trim (hhost.2 c hc hmem)⟩

theorem host_oneLine (hhost : hostFromUrl url.text = some host) : OneLine host := by
  intro hmem
  have hspace := url.no_space '\n' ((hostFromUrl_text hhost).2 '\n' (by decide) hmem)
  exact absurd hspace (by decide)

def credentialKeyOf (host : String) : String := "//" ++ host ++ "/:_authToken"

theorem credentialLine_eq (host token : String) :
    credentialLine host token = credentialKeyOf host ++ String.singleton '=' ++ token := by
  rw [credentialLine, credentialKeyOf, ← String.toList_inj]
  simp

theorem credentialKeyOf_last (host : String) :
    (credentialKeyOf host).toList.getLast? = some 'n' := by
  rw [credentialKeyOf, String.toList_append, List.getLast?_append_of_ne_nil _ (by decide)]
  decide

theorem credentialKeyOf_tight (host : String) : Tight (credentialKeyOf host) where
  first := by
    intro c hc
    have heq : c = '/' := by simpa [credentialKeyOf, eq_comm] using hc
    rw [heq]
    decide
  last := by
    intro c hc
    rw [credentialKeyOf_last, Option.mem_some_iff] at hc
    rw [← hc]
    decide

theorem credentialLine_tight (htoken : Tight token) (hne : token ≠ "") :
    Tight (credentialLine host token) where
  first := by
    intro c hc
    have heq : c = '/' := by simpa [credentialLine, eq_comm] using hc
    rw [heq]
    decide
  last := by
    intro c hc
    apply htoken.last
    have hlist : token.toList ≠ [] := fun hnil => hne (String.toList_inj.mp hnil)
    rw [credentialLine, String.toList_append, List.getLast?_append_of_ne_nil _ hlist] at hc
    exact hc

/-- The entry of the line that `login` writes. -/
theorem credentialLine_entry (hhost : '=' ∉ host.toList) (htoken : Tight token) (hne : token ≠ "") :
    rcLineEntry env (credentialLine host token) =
      some (credentialKeyOf host, expandEnvVars env token) := by
  have htight : Tight (credentialLine host token) := credentialLine_tight htoken hne
  have htrim := htight.trim_eq
  have hkey : '=' ∉ (credentialKeyOf host).toList := by
    simp [credentialKeyOf, hhost]
  have hslashes : Text.startsWith (credentialKeyOf host) "//" = true := by
    simp [Text.startsWith, credentialKeyOf]
  have hsplit : Text.splitOnce (credentialLine host token) (· = '=') =
      some (credentialKeyOf host, token) := by
    rw [credentialLine_eq]
    exact Text.splitOnce_append _ _ hkey
  have hentry : ¬ (credentialLine host token = "" ∨
      Text.startsWith (credentialLine host token) "#" = true ∨
        Text.startsWith (credentialLine host token) ";" = true) := by
    have hlist : (credentialLine host token).toList = '/' :: ('/' :: (host.toList ++
        "/:_authToken=".toList ++ token.toList)) := by
      simp [credentialLine]
    rw [← String.toList_inj, Text.startsWith, Text.startsWith, hlist]
    simp
  unfold rcLineEntry
  dsimp only
  rw [htrim, if_neg hentry]
  unfold parseRcEntry
  rw [hsplit]
  dsimp only
  rw [(credentialKeyOf_tight host).trim_eq, htoken.trim_eq, if_neg fun h => h.2 hslashes]

/-- It is filed under the normal form of the host. -/
theorem credentialKey_filed (host value : String) (hvalue : value ≠ "") {other : String}
    (hother : other ≠ "") :
    tokenFor other (credentialKeyOf host, value) =
      if normalizeAuthHost host = other then some value else none := by
  have hlast : Text.stripSuffix (credentialKeyOf host) ":registry" = none := by
    apply Text.stripSuffix_eq_none
    · rw [credentialKeyOf_last]
      decide
    · decide
  have hfirst : Text.stripPrefix (credentialKeyOf host) "//" = some (host ++ "/:_authToken") := by
    rw [credentialKeyOf, String.append_assoc]
    exact Text.stripPrefix_append _ _
  have hparse : parseScopedAuthKey (host ++ "/:_authToken") = some (host, .bearer) := by
    rw [parseScopedAuthKey, Text.stripSuffix_append]
  rw [tokenFor, hostCredential, hlast, hfirst]
  dsimp only
  rw [scopedCredential, hparse, Option.bind_some]
  dsimp only
  by_cases hempty : normalizeAuthHost host = ""
  · rw [if_pos (.inr hempty), hempty, if_neg (Ne.symm hother), Option.bind_none]
  · rw [if_neg (not_or.mpr ⟨hvalue, hempty⟩), Option.bind_some]

end Written

section Saved

variable {env : Env} {host token : String} {url : WebUrl} {file : Option String}

/-- A saved token is the credential that the loader finds for the URL. -/
def SaveSound (url : WebUrl) (token : String) : Prop :=
  ∀ (env : Env) (defaultRegistry : String) (file : Option String) (text : String),
    saveCredentials defaultRegistry (some url.text) token none file = .ok text →
      loadedCredential env text url.text = some token

/-- The token is one line that variable expansion leaves alone, and the host of
the URL has no equals sign and is its own normal form. -/
def TokenReadable (url : WebUrl) (token : String) : Prop :=
  ∀ host, hostFromUrl url.text = some host → Text.trim token ≠ "" →
    OneLine token ∧ (∀ env, expandEnvVars env (Text.trim token) = token) ∧
      '=' ∉ host.toList ∧ normalizeAuthHost host = host

/-- The lines that a saved token joins. -/
def otherLines (file : Option String) (host : String) : List String :=
  (readRcFile file).filter fun line => shouldKeepLine line host none

theorem saveCredentials_eq (defaultRegistry : String) (hhost : hostFromUrl url.text = some host)
    (htoken : Text.trim token ≠ "") :
    saveCredentials defaultRegistry (some url.text) token none file =
      .ok (writeRcFile (otherLines file host ++ [credentialLine host (Text.trim token)])) := by
  have hchosen := chosenRegistry_url defaultRegistry url
  have hregistry : registryHost url.text = .ok host := by rw [registryHost, hhost]
  have hscope : validateScope none = .ok none := rfl
  have happend : otherLines file host ++ [credentialLine host (Text.trim token)] ++
      scopeLines none url.text = otherLines file host ++ [credentialLine host (Text.trim token)] :=
    List.append_nil _
  unfold saveCredentials
  dsimp only
  rw [if_neg htoken, hchosen, hregistry, hscope]
  exact congrArg (fun lines => Except.ok (writeRcFile lines)) happend

theorem saveCredentials_ok {defaultRegistry text : String}
    (h : saveCredentials defaultRegistry (some url.text) token none file = .ok text) :
    ∃ host, hostFromUrl url.text = some host ∧ Text.trim token ≠ "" := by
  have hchosen := chosenRegistry_url defaultRegistry url
  unfold saveCredentials at h
  dsimp only at h
  split at h
  next => cases h
  next htoken =>
      cases hhost : hostFromUrl url.text with
      | some host => exact ⟨host, rfl, htoken⟩
      | none =>
          have hregistry : registryHost url.text =
              .error (.auth ("invalid registry URL: " ++ url.text)) := by rw [registryHost, hhost]
          rw [hchosen, hregistry] at h
          cases h

theorem otherLines_oneLine {line : String} (h : line ∈ otherLines file host) : OneLine line :=
  Text.oneLine_of_mem_lines (List.mem_filter.mp h).1

theorem credentialLine_oneLine (hhost : OneLine host) (htoken : OneLine token) :
    OneLine (credentialLine host token) := by
  unfold OneLine at hhost htoken ⊢
  simp [credentialLine, hhost, htoken]

/-- What is loaded after a save whose token is one line. -/
theorem loaded_after_save (hhost : hostFromUrl url.text = some host) (hfree : '=' ∉ host.toList)
    (htoken : Text.trim token ≠ "") (hline : OneLine (Text.trim token))
    (hvalue : expandEnvVars env (Text.trim token) ≠ "") :
    loadedCredential env
        (writeRcFile (otherLines file host ++ [credentialLine host (Text.trim token)])) url.text =
      if normalizeAuthHost host = host then some (expandEnvVars env (Text.trim token))
      else (((otherLines file host).filterMap (rcLineEntry env)).filterMap
        (tokenFor host)).getLast? := by
  have hlines : ∀ line ∈ otherLines file host ++ [credentialLine host (Text.trim token)],
      OneLine line := by
    intro line hmem
    cases List.mem_append.mp hmem with
    | inl hother => exact otherLines_oneLine hother
    | inr hlast =>
        rw [List.mem_singleton.mp hlast]
        exact credentialLine_oneLine (host_oneLine hhost) hline
  have hentry : rcLineEntry env (credentialLine host (Text.trim token)) =
      some (credentialKeyOf host, expandEnvVars env (Text.trim token)) :=
    credentialLine_entry hfree (Text.trim_tight token) htoken
  have hempty : defaultRegistryConfig.registryAuth[host]? = none := Std.ExtTreeMap.getElem?_empty
  rw [loadedCredential, hhost, Option.bind_some, applyRcFile, entries_writeRcFile hlines,
    registryAuth_run, hempty, Option.or_none, List.filterMap_append, List.filterMap_append]
  have hfiled := credentialKey_filed host _ hvalue (hostFromUrl_text hhost).1
  generalize expandEnvVars env (Text.trim token) = value at hentry hfiled ⊢
  have hnew : [credentialLine host (Text.trim token)].filterMap (rcLineEntry env) =
      [(credentialKeyOf host, value)] := by
    rw [List.filterMap_cons, hentry, List.filterMap_nil]
  generalize normalizeAuthHost host = name at hfiled ⊢
  rw [hnew]
  split
  next hname =>
      rw [if_pos hname] at hfiled
      rw [List.filterMap_cons, hfiled, List.filterMap_nil, List.getLast?_append]
      rfl
  next hname =>
      rw [if_neg hname] at hfiled
      rw [List.filterMap_cons, hfiled, List.filterMap_nil, List.append_nil]

theorem saveSound_of_readable (h : TokenReadable url token) : SaveSound url token := by
  intro env defaultRegistry file text hsave
  obtain ⟨host, hhost, htoken⟩ := saveCredentials_ok hsave
  obtain ⟨hline, hexpand, hfree, hnormal⟩ := h host hhost htoken
  rw [saveCredentials_eq defaultRegistry hhost htoken] at hsave
  rw [← Except.ok.inj hsave]
  have hne : token ≠ "" := by
    intro hempty
    apply htoken
    rw [hempty]
    decide
  rw [loaded_after_save hhost hfree htoken (OneLine.trim hline) (by rw [hexpand env]; exact hne),
    if_pos hnormal, hexpand env]

/-- A loaded credential is the value of an entry of the host. -/
theorem loaded_entry {text : String} (hhost : hostFromUrl url.text = some host)
    (h : loadedCredential env text url.text = some token) :
    ∃ line ∈ Text.lines text, ∃ e, rcLineEntry env line = some e ∧ e.2 = token ∧
      filedHost e = some host := by
  have hempty : defaultRegistryConfig.registryAuth[host]? = none := Std.ExtTreeMap.getElem?_empty
  rw [loadedCredential, hhost, Option.bind_some, applyRcFile, registryAuth_run, hempty,
    Option.or_none] at h
  obtain ⟨e, he, htoken⟩ := List.mem_filterMap.mp (List.mem_of_getLast? h)
  obtain ⟨line, hline, hentry⟩ := List.mem_filterMap.mp he
  obtain ⟨hvalue, hfiled⟩ := tokenFor_value htoken
  exact ⟨line, hline, e, hentry, hvalue.symm, hfiled⟩

theorem readable_of_saveSound (h : SaveSound url token) : TokenReadable url token := by
  intro host hhost htoken
  have hload : ∀ env, loadedCredential env
      (writeRcFile (otherLines none host ++ [credentialLine host (Text.trim token)])) url.text =
        some token :=
    fun env => h env "" none _ (saveCredentials_eq "" hhost htoken)
  have hline : OneLine token := by
    obtain ⟨line, hmem, e, he, hvalue, -⟩ := loaded_entry hhost (hload letterEnv)
    rw [← hvalue]
    exact oneLine_value (Text.oneLine_of_mem_lines hmem) he
  have hfree : '=' ∉ host.toList := by
    obtain ⟨line, -, e, he, -, hfiled⟩ := loaded_entry hhost (hload letterEnv)
    exact filedHost_free he hfiled
  have hvalue : ∀ env, expandEnvVars env (Text.trim token) = token ∧
      normalizeAuthHost host = host := by
    intro env
    obtain ⟨line, hmem, e, he, hvalue, hfiled⟩ := loaded_entry hhost (hload env)
    have hnone : otherLines none host = [] := by
      have hlines : Text.lines "" = [] := by decide
      rw [otherLines, readRcFile, Option.getD_none, hlines, List.filter_nil]
    have hwritten : ∀ line ∈ [credentialLine host (Text.trim token)], OneLine line := by
      intro line hline'
      rw [List.mem_singleton.mp hline']
      exact credentialLine_oneLine (host_oneLine hhost) (OneLine.trim hline)
    rw [hnone, List.nil_append, writeRcFile_eq_unlines, Text.lines_unlines hwritten, List.map_cons,
      List.map_nil, List.mem_singleton] at hmem
    rw [hmem, rcLineEntry_stripReturn,
      credentialLine_entry hfree (Text.trim_tight token) htoken] at he
    have heq := Option.some.inj he
    rw [← heq] at hvalue hfiled
    dsimp only at hvalue
    refine ⟨hvalue, ?_⟩
    by_contra hname
    have hne : token ≠ "" := by
      intro hempty
      apply htoken
      rw [hempty]
      decide
    have hunfiled := credentialKey_filed host token hne (hostFromUrl_text hhost).1
    rw [if_neg hname, tokenFor_eq_none_iff] at hunfiled
    rw [hvalue] at hfiled
    exact hunfiled hfiled
  exact ⟨hline, fun env => (hvalue env).1, hfree, (hvalue letterEnv).2⟩

end Saved

/-- What `login` saves is read back when the token and the host survive the
loader, and `logout` does what it should when it and the loader take the same
lines for the credentials of the host. -/
theorem credentials_sound_iff (url : WebUrl) (token : String) (env : Env) (content : String) :
    (SaveSound url token ↔ TokenReadable url token) ∧
      (LogoutSound env content url ↔
        ∀ host, hostFromUrl url.text = some host → LinesAgree env content host) :=
  ⟨⟨readable_of_saveSound, saveSound_of_readable⟩, logout_sound_iff⟩

/-- A token with a dollar sign is not read back, and a basic credential is not
found by `logout`. -/
theorem dollar_token_not_read_back :
    ¬ SaveSound secureUrl "a$b" ∧
      ¬ LogoutSound (fun _ => none) "//npm.example.com/:_auth=abc" secureUrl := by
  constructor
  · intro h
    have hload := h (fun _ => none) "" none "//npm.example.com/:_authToken=a$b\n"
      (by decide +kernel)
    have hread : loadedCredential (fun _ => none) "//npm.example.com/:_authToken=a$b\n"
        secureUrl.text = some "a" := by decide +kernel
    rw [hread] at hload
    exact absurd hload (by decide)
  · intro h
    have hfails : logout "" (some secureUrl.text) none (some "//npm.example.com/:_auth=abc") =
        .error (.auth ("no credentials found for " ++ secureUrl.text)) := by decide +kernel
    have hnone := (h.fails "").mp ⟨_, hfails⟩
    have hread : loadedCredential (fun _ => none) "//npm.example.com/:_auth=abc"
        secureUrl.text = some "abc" := by decide +kernel
    rw [hread] at hnone
    cases hnone

end Snpm.Auth
