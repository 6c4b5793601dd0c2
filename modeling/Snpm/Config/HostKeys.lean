import Mathlib
import Snpm.Config.Runtime

/-!
The two normal forms of a host: the one under which an rc entry is filed, and
the one under which a URL is looked up.
-/
namespace Snpm.Config

open Text (toAsciiLowercase IsCaseless)

def UrlScheme.name : UrlScheme → String
  | .https => "https"
  | .http => "http"

/-- The default port of a scheme. -/
def UrlScheme.port : UrlScheme → String
  | .https => "443"
  | .http => "80"

def UrlScheme.other : UrlScheme → UrlScheme
  | .https => .http
  | .http => .https

def portNumber (port : String) : Nat := Text.digitsValue port.toList

/-- The port that an authority names. -/
def explicitPort (authority : String) : Option Nat :=
  (Text.rsplitOnce authority (· = ':')).bind fun parts =>
    if parts.2 ≠ "" ∧ parts.2.toList.all Text.isAsciiDigit then some (portNumber parts.2) else none

/-- A host, or a host and a port. -/
structure IsAuthority (authority : String) : Prop where
  nonempty : authority ≠ ""
  host : authority.toList.head? ≠ some ':'
  port : authority.toList.getLast? ≠ some ':'
  chars : ∀ c ∈ authority.toList,
    c ≠ '/' ∧ c ≠ '?' ∧ c ≠ '#' ∧ Text.isWhitespace c = false

/-- An http or https URL in its parts. The scheme may be spelled in either case,
and the authority ends at a slash, a question mark, a hash or with the URL. -/
structure WebUrl where
  scheme : UrlScheme
  spelled : String
  authority : String
  tail : String
  spelled_name : toAsciiLowercase spelled = scheme.name
  authority_chars : ∀ c ∈ authority.toList, c ≠ '/' ∧ c ≠ '?' ∧ c ≠ '#'
  tail_start : ∀ c ∈ tail.toList.head?, c = '/' ∨ c = '?' ∨ c = '#'
  no_space : ∀ c ∈ (spelled ++ "://" ++ authority ++ tail).toList, Text.isWhitespace c = false

def WebUrl.text (url : WebUrl) : String := url.spelled ++ "://" ++ url.authority ++ url.tail

/-- The port that a URL names, or the default port of its scheme. -/
def WebUrl.effectivePort (url : WebUrl) : Nat :=
  (explicitPort url.authority).getD (portNumber url.scheme.port)

/-- The scheme is in lower case, and the authority ends at a slash or with the URL. -/
def WebUrl.Plain (url : WebUrl) : Prop :=
  url.spelled = url.scheme.name ∧ (url.tail = "" ∨ url.tail.toList.head? = some '/')

/-- The same text but for the case of letters. -/
def SameText (s t : String) : Prop := toAsciiLowercase s = toAsciiLowercase t

section Ports

variable {s host port : String} {scheme : UrlScheme}

theorem caseless_digit {c : Char} (h : Text.isAsciiDigit c = true) : IsCaseless c := by
  have hdigit : '0' ≤ c ∧ c ≤ '9' := by simpa [Text.isAsciiDigit] using h
  have hhigh : c.toNat ≤ 57 := hdigit.2
  exact .inl (by omega)

theorem port_caseless (scheme : UrlScheme) : ∀ c ∈ scheme.port.toList, IsCaseless c := by
  have hall : scheme.port.toList.all (fun c => decide (IsCaseless c)) = true := by
    cases scheme with
    | https => decide
    | http => decide
  exact fun c hc => of_decide_eq_true (List.all_eq_true.mp hall c hc)

theorem port_free (scheme : UrlScheme) : ':' ∉ scheme.port.toList := by
  cases scheme with
  | https => decide
  | http => decide

theorem all_digits_toAsciiLowercase (s : String) :
    (toAsciiLowercase s).toList.all Text.isAsciiDigit = s.toList.all Text.isAsciiDigit := by
  have hdigit : ∀ c, Text.isAsciiDigit (Text.toAsciiLower c) = Text.isAsciiDigit c := by
    intro c
    cases h : Text.isAsciiDigit c with
    | true => rw [Text.toAsciiLower_self (caseless_digit h), h]
    | false =>
        cases hlower : Text.isAsciiDigit (Text.toAsciiLower c) with
        | false => rfl
        | true =>
            have hself := (Text.toAsciiLower_eq_iff (caseless_digit hlower)).mp
              (rfl : Text.toAsciiLower c = Text.toAsciiLower c)
            rw [← hself, h] at hlower
            cases hlower
  simp [toAsciiLowercase, List.all_map, Function.comp_def, hdigit]

/-- The case of letters does not matter for the port. -/
theorem explicitPort_toAsciiLowercase (s : String) :
    explicitPort (toAsciiLowercase s) = explicitPort s := by
  unfold explicitPort
  rw [Text.rsplitOnce_toAsciiLowercase (by decide)]
  cases Text.rsplitOnce s (· = ':') with
  | none => rfl
  | some parts =>
      dsimp only [Option.map_some, Option.bind_some]
      rw [all_digits_toAsciiLowercase]
      cases hdigits : parts.2.toList.all Text.isAsciiDigit with
      | false => simp
      | true =>
          have hsame : toAsciiLowercase parts.2 = parts.2 :=
            Text.toAsciiLowercase_eq_self fun c hc => caseless_digit (List.all_eq_true.mp hdigits c hc)
          rw [hsame]

theorem explicitPort_of_free (h : ':' ∉ s.toList) : explicitPort s = none := by
  rw [explicitPort, Text.rsplitOnce_eq_none h]
  rfl

theorem colon_eq : (":" : String) = String.singleton ':' := by decide

theorem explicitPort_append (host : String) (scheme : UrlScheme) :
    explicitPort (host ++ ":" ++ scheme.port) = some (portNumber scheme.port) := by
  have hdigits : scheme.port ≠ "" ∧ scheme.port.toList.all Text.isAsciiDigit = true := by
    cases scheme with
    | https => decide
    | http => decide
  rw [explicitPort, colon_eq, Text.rsplitOnce_append _ _ _ (port_free scheme)]
  exact if_pos hdigits

end Ports

section Keys

variable {authority host s : String} {scheme : UrlScheme}

/-- A host before its port. -/
theorem splitOnce_port (hhost : ':' ∉ host.toList) (port : String) :
    Text.splitOnce (host ++ ":" ++ port) (· = ':') = some (host, port) := by
  rw [colon_eq]
  exact Text.splitOnce_append _ _ hhost

theorem stripDefaultPort_cases (s : String) (scheme : UrlScheme) :
    (∃ host, ':' ∉ host.toList ∧ s = host ++ ":" ++ scheme.port ∧
        stripDefaultPort s scheme.name = host) ∨
      ((∀ host, ':' ∉ host.toList → s ≠ host ++ ":" ++ scheme.port) ∧
        stripDefaultPort s scheme.name = s) := by
  unfold stripDefaultPort
  cases hsplit : Text.splitOnce s (· = ':') with
  | none =>
      refine .inr ⟨?_, rfl⟩
      intro host hhost heq
      rw [heq, splitOnce_port hhost] at hsplit
      cases hsplit
  | some parts =>
      have ⟨host, port⟩ := parts
      have ⟨hs, hfree⟩ := Text.splitOnce_eq_some hsplit
      dsimp only
      cases decEq port scheme.port with
      | isTrue hport =>
          subst hport
          left
          refine ⟨host, hfree, hs, ?_⟩
          cases scheme with
          | https => rfl
          | http => rfl
      | isFalse hport =>
          right
          constructor
          · intro other hother heq
            rw [heq, splitOnce_port hother] at hsplit
            cases hsplit
            exact hport rfl
          · cases scheme with
            | https => exact if_neg (by simpa [UrlScheme.name, UrlScheme.port] using hport)
            | http => exact if_neg (by simpa [UrlScheme.name, UrlScheme.port] using hport)

/-- What an authority without its port 80 or 443 is filed under. -/
theorem normalizeAuthHost_append (h : IsAuthority authority) {path : String}
    (hpath : path = "" ∨ path.toList.head? = some '/') :
    normalizeAuthHost (authority ++ path) =
      match Text.splitOnce (toAsciiLowercase authority) (· = ':') with
      | none => toAsciiLowercase authority
      | some (name, port) =>
          if port = "80" ∨ port = "443" then name else toAsciiLowercase authority := by
  have hslash : '/' ∉ authority.toList := fun hmem => (h.chars _ hmem).1 rfl
  unfold normalizeAuthHost
  rewrite [Text.firstPart_append hslash hpath, Text.trim_eq_self fun c hc => (h.chars c hc).2.2.2,
    Text.trimEndMatches_eq_self hslash]
  rfl

/-- The port of an authority is the default port of the other scheme. -/
def OddPort (authority host : String) (scheme : UrlScheme) : Prop :=
  ':' ∉ host.toList ∧ authority = host ++ ":" ++ scheme.other.port

theorem toAsciiLowercase_port (host : String) (scheme : UrlScheme) :
    toAsciiLowercase (host ++ ":" ++ scheme.port) = toAsciiLowercase host ++ ":" ++ scheme.port := by
  rw [Text.toAsciiLowercase_append, Text.toAsciiLowercase_append,
    Text.toAsciiLowercase_eq_self (port_caseless scheme)]
  rfl

theorem lower_free (h : ':' ∉ host.toList) : ':' ∉ (toAsciiLowercase host).toList :=
  fun hmem => h ((Text.mem_toAsciiLowercase (by decide)).mp hmem)

theorem normalizeAuthHost_odd (h : IsAuthority authority) (hodd : OddPort authority host scheme)
    {path : String} (hpath : path = "" ∨ path.toList.head? = some '/') :
    normalizeAuthHost (authority ++ path) = toAsciiLowercase host := by
  rw [normalizeAuthHost_append h hpath, hodd.2, toAsciiLowercase_port,
    splitOnce_port (lower_free hodd.1)]
  cases scheme with
  | https => rfl
  | http => rfl

/-- Without such a port the two normal forms are the same. -/
theorem normalizeAuthHost_even (h : IsAuthority authority)
    (heven : ∀ host, ¬ OddPort authority host scheme)
    {path : String} (hpath : path = "" ∨ path.toList.head? = some '/') :
    normalizeAuthHost (authority ++ path) =
      stripDefaultPort (toAsciiLowercase authority) scheme.name := by
  rw [normalizeAuthHost_append h hpath]
  unfold stripDefaultPort
  cases hsplit : Text.splitOnce authority (· = ':') with
  | none =>
      rw [Text.splitOnce_toAsciiLowercase (by decide), hsplit]
      rfl
  | some parts =>
      have ⟨host, port⟩ := parts
      have ⟨hs, hfree⟩ := Text.splitOnce_eq_some hsplit
      have hport : toAsciiLowercase port ≠ scheme.other.port := by
        intro heq
        have heq' := (Text.toAsciiLowercase_eq_iff (port_caseless _)).mp heq
        subst heq'
        exact heven host ⟨hfree, hs⟩
      rw [Text.splitOnce_toAsciiLowercase (by decide), hsplit]
      dsimp only [Option.map_some]
      cases scheme with
      | https =>
          have hne : toAsciiLowercase port ≠ "80" := hport
          simp [UrlScheme.name, hne]
      | http =>
          have hne : toAsciiLowercase port ≠ "443" := hport
          simp [UrlScheme.name, hne]

/-- A mark that is neither a colon nor a digit stays. -/
theorem mem_stripDefaultPort {c : Char} (hc : c ≠ ':' ∧ c ∉ scheme.port.toList)
    (h : c ∈ s.toList) : c ∈ (stripDefaultPort s scheme.name).toList := by
  cases stripDefaultPort_cases s scheme with
  | inl hstripped =>
      have ⟨host, _, hs, hhost⟩ := hstripped
      rw [hs] at h
      rw [hhost]
      simpa [hc.1, hc.2] using h
  | inr hkept => rwa [hkept.2]

/-- The normal form of an authority has no mark of a query and does not end at a
colon. -/
theorem normalizeAuthHost_marks (h : IsAuthority authority) {path : String}
    (hpath : path = "" ∨ path.toList.head? = some '/') :
    '?' ∉ (normalizeAuthHost (authority ++ path)).toList ∧
      '#' ∉ (normalizeAuthHost (authority ++ path)).toList ∧
      (normalizeAuthHost (authority ++ path)).toList.getLast? ≠ some ':' := by
  have hmark : ∀ {c : Char}, c ∉ authority.toList → IsCaseless c →
      c ∉ (toAsciiLowercase authority).toList :=
    fun hfree hc hmem => hfree ((Text.mem_toAsciiLowercase hc).mp hmem)
  have hquery : '?' ∉ (toAsciiLowercase authority).toList :=
    hmark (fun hmem => (h.chars _ hmem).2.1 rfl) (by decide)
  have hhash : '#' ∉ (toAsciiLowercase authority).toList :=
    hmark (fun hmem => (h.chars _ hmem).2.2.1 rfl) (by decide)
  have hlast : (toAsciiLowercase authority).toList.getLast? ≠ some ':' := by
    intro hcolon
    rw [toAsciiLowercase, String.toList_ofList, List.getLast?_map] at hcolon
    obtain ⟨c, hc, hlower⟩ := Option.map_eq_some_iff.mp hcolon
    rw [Text.toAsciiLower_eq_iff (by decide)] at hlower
    subst hlower
    exact h.port hc
  rw [normalizeAuthHost_append h hpath]
  split
  · exact ⟨hquery, hhash, hlast⟩
  · rename_i name port hsplit
    obtain ⟨hs, hfree⟩ := Text.splitOnce_eq_some hsplit
    split
    · rw [hs] at hquery hhash
      refine ⟨?_, ?_, ?_⟩
      · exact fun hmem => hquery (by simp [hmem])
      · exact fun hmem => hhash (by simp [hmem])
      · exact fun hcolon => hfree (List.mem_of_getLast? hcolon)
    · exact ⟨hquery, hhash, hlast⟩

theorem normalizeAuthHost_nonempty (h : IsAuthority authority) {path : String}
    (hpath : path = "" ∨ path.toList.head? = some '/') :
    normalizeAuthHost (authority ++ path) ≠ "" := by
  have hlower : toAsciiLowercase authority ≠ "" :=
    fun hempty => h.nonempty (Text.toAsciiLowercase_eq_empty_iff.mp hempty)
  rw [normalizeAuthHost_append h hpath]
  split
  · exact hlower
  · rename_i name port hsplit
    obtain ⟨hs, _⟩ := Text.splitOnce_eq_some hsplit
    split
    · intro hname
      subst hname
      have hhead : (toAsciiLowercase authority).toList.head? = some ':' := by
        rw [hs]
        simp
      rw [toAsciiLowercase, String.toList_ofList, List.head?_map] at hhead
      obtain ⟨c, hc, hcolon⟩ := Option.map_eq_some_iff.mp hhead
      rw [Text.toAsciiLower_eq_iff (by decide)] at hcolon
      subst hcolon
      exact h.host hc
    · exact hlower

end Keys

section Urls

variable {url : WebUrl}

theorem name_colon_free (scheme : UrlScheme) :
    ':' ∉ scheme.name.toList ∧ '/' ∉ scheme.name.toList := by
  cases scheme with
  | https => decide
  | http => decide

theorem WebUrl.spelled_free (url : WebUrl) : ':' ∉ url.spelled.toList ∧ '/' ∉ url.spelled.toList := by
  have hfree := name_colon_free url.scheme
  rw [← url.spelled_name] at hfree
  constructor
  · exact fun hmem => hfree.1 ((Text.mem_toAsciiLowercase (by decide)).mpr hmem)
  · exact fun hmem => hfree.2 ((Text.mem_toAsciiLowercase (by decide)).mpr hmem)

theorem WebUrl.trim_text (url : WebUrl) : Text.trim url.text = url.text :=
  Text.trim_eq_self url.no_space

/-- The text of a URL starts with a scheme exactly if it is spelled so. -/
theorem WebUrl.stripPrefix_text (url : WebUrl) (scheme : UrlScheme) :
    Text.stripPrefix url.text (scheme.name ++ "://") =
      if url.spelled = scheme.name then some (url.authority ++ url.tail) else none := by
  have hrest : ∀ name rest : String, name ++ "://" ++ rest =
      name ++ String.singleton ':' ++ ("//" ++ rest) := by
    intro name rest
    rw [← String.toList_inj]
    simp
  have htext : url.text = url.spelled ++ "://" ++ (url.authority ++ url.tail) := by
    rw [text, String.append_assoc]
  split
  · rename_i hspelled
    rw [htext, hspelled]
    exact Text.stripPrefix_append _ _
  · rename_i hspelled
    cases hstrip : Text.stripPrefix url.text (scheme.name ++ "://") with
    | none => rfl
    | some rest =>
        have heq := Text.stripPrefix_eq_some hstrip
        rw [htext, hrest, hrest] at heq
        have hsplit := Text.splitOnce_append _ ("//" ++ (url.authority ++ url.tail)) url.spelled_free.1
        rw [heq, Text.splitOnce_append _ _ (name_colon_free scheme).1] at hsplit
        have hname := congrArg Prod.fst (Option.some_inj.mp hsplit)
        exact absurd hname.symm hspelled

/-- The authority with what follows it up to the first slash. -/
def WebUrl.hostport (url : WebUrl) : String := Text.firstPart (url.authority ++ url.tail) (· = '/')

theorem WebUrl.hostport_plain (h : url.Plain) : url.hostport = url.authority :=
  Text.firstPart_append (fun hmem => (url.authority_chars _ hmem).1 rfl) h.2

theorem hostOfRest_eq_some {rest host name : String}
    (h : hostOfRest rest (some name) = some host) :
    host = stripDefaultPort
      (toAsciiLowercase (Text.trim (Text.firstPart rest (· = '/')))) name := by
  unfold hostOfRest at h
  dsimp only at h
  generalize hstripped : stripDefaultPort
    (toAsciiLowercase (Text.trim (Text.firstPart rest (· = '/')))) name = stripped at h
  split at h
  · cases h
  · split at h
    · cases h
    · exact (Option.some_inj.mp h).symm

/-- The host of a URL whose scheme is in lower case. -/
theorem WebUrl.hostFromUrl_spelled (h : url.spelled = url.scheme.name) :
    hostFromUrl url.text = hostOfRest (url.authority ++ url.tail) (some url.scheme.name) := by
  have hstrip := url.stripPrefix_text
  unfold hostFromUrl
  rw [url.trim_text]
  dsimp only
  cases hscheme : url.scheme with
  | https =>
      have hhttps := hstrip .https
      rw [if_pos (by rw [h, hscheme])] at hhttps
      have heq : Text.stripPrefix url.text "https://" = some (url.authority ++ url.tail) := hhttps
      rw [heq]
      rfl
  | http =>
      have hhttps := hstrip .https
      have hhttp := hstrip .http
      rw [if_neg (by rw [h, hscheme]; decide)] at hhttps
      rw [if_pos (by rw [h, hscheme])] at hhttp
      have hnone : Text.stripPrefix url.text "https://" = none := hhttps
      have hsome : Text.stripPrefix url.text "http://" = some (url.authority ++ url.tail) := hhttp
      rw [hnone, hsome]
      rfl

theorem WebUrl.hostFromUrl_plain (h : url.Plain) :
    hostFromUrl url.text =
      let host := stripDefaultPort (toAsciiLowercase url.authority) url.scheme.name
      if host = "" then none else some host := by
  have htrim : Text.trim url.authority = url.authority := by
    refine Text.trim_eq_self fun c hc => url.no_space c ?_
    simp [hc]
  rw [url.hostFromUrl_spelled h.1]
  unfold hostOfRest
  have hhostport : Text.firstPart (url.authority ++ url.tail) (· = '/') = url.authority :=
    url.hostport_plain h
  rw [hhostport, htrim]
  cases decEq url.authority "" with
  | isTrue hempty =>
      rw [hempty]
      cases url.scheme with
      | https => decide
      | http => decide
  | isFalse hne => rw [if_neg hne]

theorem name_caseless_inj (url : WebUrl) {scheme : UrlScheme} (h : url.spelled = scheme.name) :
    url.spelled = url.scheme.name := by
  have hlower : toAsciiLowercase scheme.name = scheme.name := by
    cases scheme with
    | https => decide
    | http => decide
  have hname : url.scheme.name = scheme.name := by
    rw [← url.spelled_name, h, hlower]
  rw [h, hname]

/-- The host of a text that starts with no scheme in lower case. -/
theorem WebUrl.hostFromUrl_unspelled (h : url.spelled ≠ url.scheme.name) :
    hostFromUrl url.text = some (url.scheme.name ++ ":") := by
  have hstrip : ∀ scheme : UrlScheme, Text.stripPrefix url.text (scheme.name ++ "://") = none := by
    intro scheme
    rw [url.stripPrefix_text, if_neg fun hspelled => h (name_caseless_inj url hspelled)]
  have hhttps : Text.stripPrefix url.text "https://" = none := hstrip .https
  have hhttp : Text.stripPrefix url.text "http://" = none := hstrip .http
  have hfirst : Text.firstPart url.text (· = '/') = url.spelled ++ ":" := by
    have htext : url.text = url.spelled ++ ":" ++ ("//" ++ url.authority ++ url.tail) := by
      rw [text, ← String.toList_inj]
      simp
    rw [htext]
    refine Text.firstPart_append ?_ (.inr (by simp))
    intro hmem
    have hslash : '/' ∈ url.spelled.toList := by simpa using hmem
    exact url.spelled_free.2 hslash
  have htrim : Text.trim (url.spelled ++ ":") = url.spelled ++ ":" := by
    refine Text.trim_eq_self fun c hc => url.no_space c ?_
    have hc' : c ∈ url.spelled.toList ∨ c = ':' := by simpa using hc
    cases hc' with
    | inl hspelled => simp [hspelled]
    | inr hcolon => simp [hcolon]
  have hlower : toAsciiLowercase (url.spelled ++ ":") = url.scheme.name ++ ":" := by
    rw [Text.toAsciiLowercase_append, url.spelled_name]
    rfl
  have hne : ∀ s : String, s ++ ":" ≠ "" := by
    intro s heq
    have hlist := congrArg String.toList heq
    simp at hlist
  unfold hostFromUrl
  rw [url.trim_text]
  dsimp only
  rw [hhttps, hhttp]
  dsimp only [hostOfRest]
  rw [hfirst, htrim, if_neg (hne _), hlower, if_neg (hne _)]

theorem scheme_marks {c : Char} (h : c = '?' ∨ c = '#') (scheme : UrlScheme) :
    c ≠ ':' ∧ c ∉ scheme.port.toList ∧ c ≠ '/' ∧ IsCaseless c := by
  cases h with
  | inl hquery =>
      subst hquery
      cases scheme with
      | https => decide
      | http => decide
  | inr hhash =>
      subst hhash
      cases scheme with
      | https => decide
      | http => decide

/-- A query or a fragment right after the authority counts as part of the host. -/
theorem WebUrl.hostFromUrl_query (h : url.spelled = url.scheme.name) {c : Char}
    (hc : c = '?' ∨ c = '#') (htail : url.tail.toList.head? = some c) {host : String}
    (hhost : hostFromUrl url.text = some host) : c ∈ host.toList := by
  have ⟨hcolon, hport, hslash, hcaseless⟩ := scheme_marks hc url.scheme
  have ⟨rest, hrest⟩ := List.head?_eq_some_iff.mp htail
  have hfirst : Text.firstPart (url.authority ++ url.tail) (· = '/') =
      String.ofList (url.authority.toList ++ c :: rest.takeWhile fun x => decide (x ≠ '/')) := by
    have hauthority : ∀ x ∈ url.authority.toList, decide (x ≠ '/') = true :=
      fun x hx => decide_eq_true (url.authority_chars x hx).1
    rw [Text.firstPart_eq, String.toList_append, List.takeWhile_append_of_pos hauthority, hrest,
      List.takeWhile_cons, if_pos (decide_eq_true hslash)]
  have htrim : Text.trim (Text.firstPart (url.authority ++ url.tail) (· = '/')) =
      Text.firstPart (url.authority ++ url.tail) (· = '/') := by
    refine Text.trim_eq_self fun x hx => url.no_space x ?_
    rw [Text.firstPart_eq, String.toList_ofList] at hx
    have hmem := (List.takeWhile_sublist _).subset hx
    simp only [String.toList_append, List.mem_append] at hmem ⊢
    cases hmem with
    | inl hauthority => exact .inl (.inr hauthority)
    | inr htail => exact .inr htail
  have hmem : c ∈ (stripDefaultPort (toAsciiLowercase
      (Text.firstPart (url.authority ++ url.tail) (· = '/'))) url.scheme.name).toList := by
    refine mem_stripDefaultPort ⟨hcolon, hport⟩ ((Text.mem_toAsciiLowercase hcaseless).mpr ?_)
    rw [hfirst]
    simp
  rw [url.hostFromUrl_spelled h] at hhost
  rw [hostOfRest_eq_some hhost, htrim]
  exact hmem

/-- A URL that is not plain is looked up under a host that has a mark or ends at
a colon. -/
theorem WebUrl.hostFromUrl_marks (h : ¬ url.Plain) {host : String}
    (hhost : hostFromUrl url.text = some host) :
    '?' ∈ host.toList ∨ '#' ∈ host.toList ∨ host.toList.getLast? = some ':' := by
  cases decEq url.spelled url.scheme.name with
  | isFalse hspelled =>
      rw [url.hostFromUrl_unspelled hspelled] at hhost
      cases hhost
      exact .inr (.inr (by simp))
  | isTrue hspelled =>
      cases htail : url.tail.toList.head? with
      | none =>
          have hempty : url.tail = "" := by
            rw [← String.toList_inj]
            simpa using htail
          exact absurd ⟨hspelled, .inl hempty⟩ h
      | some c =>
          have hstart := url.tail_start c htail
          cases hstart with
          | inl hslash =>
              subst hslash
              exact absurd ⟨hspelled, .inr htail⟩ h
          | inr hmark =>
              have hmem := url.hostFromUrl_query hspelled hmark htail hhost
              cases hmark with
              | inl hquery => exact .inl (hquery ▸ hmem)
              | inr hhash => exact .inr (.inl (hhash ▸ hmem))

end Urls

end Snpm.Config
