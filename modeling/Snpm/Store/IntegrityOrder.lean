import Mathlib
import Snpm.Library.TextParts
import Snpm.Library.Words
import Snpm.Store.Integrity

/-!
The order of the tokens of an integrity string. A token that does not decode ends
the verification where it stands, so it counts only before the first match.
-/
namespace Snpm.Store

section Words

variable {C : Crypto} {word : String} {token : IntegrityToken}

/-- The token that a word of an integrity string is read as. -/
def IntegrityToken.ofWord (word : String) : Option IntegrityToken :=
  (Text.splitOnce (Text.firstPart word (· = '?')) (· = '-')).bind fun (algorithm, expectedDigest) =>
    (IntegrityAlgorithm.parse algorithm).map fun algorithm => ⟨algorithm, expectedDigest⟩

/-- A word is an algorithm, a hyphen and a digest, and options may follow. -/
structure Names (word : String) (token : IntegrityToken) : Prop where
  plain : '?' ∉ token.expectedDigest.toList
  written : ∃ options : String, (options = "" ∨ options.toList.head? = some '?') ∧
    word = token.algorithm.name ++ "-" ++ token.expectedDigest ++ options

theorem IntegrityAlgorithm.parse_eq_some {value : String} {algorithm : IntegrityAlgorithm} :
    IntegrityAlgorithm.parse value = some algorithm ↔ value = algorithm.name := by
  constructor
  · intro h
    unfold IntegrityAlgorithm.parse at h
    split at h
    · cases h
      assumption
    · split at h
      · cases h
        assumption
      · split at h
        · cases h
          assumption
        · cases h
  · intro h
    rw [h]
    cases algorithm <;> decide

theorem IntegrityAlgorithm.name_plain (algorithm : IntegrityAlgorithm) :
    '-' ∉ algorithm.name.toList ∧ '?' ∉ algorithm.name.toList := by
  cases algorithm <;> decide

theorem IntegrityToken.ofWord_eq_some : IntegrityToken.ofWord word = some token ↔ Names word token := by
  constructor
  · intro h
    obtain ⟨⟨value, expectedDigest⟩, hsplit, hmap⟩ := Option.bind_eq_some_iff.mp h
    obtain ⟨algorithm, hparse, heq⟩ := Option.map_eq_some_iff.mp hmap
    obtain ⟨hfree, options, hword, hoptions⟩ := Text.firstPart_spec word '?'
    have hpart := (Text.splitOnce_eq_some hsplit).1
    rw [IntegrityAlgorithm.parse_eq_some.mp hparse] at hpart
    rw [hpart] at hfree hword
    subst heq
    constructor
    · intro hmem
      exact hfree (by simp [hmem])
    · exact ⟨options, hoptions, hword⟩
  · intro h
    obtain ⟨options, hoptions, hword⟩ := h.written
    have hpart : Text.firstPart word (· = '?') =
        token.algorithm.name ++ String.singleton '-' ++ token.expectedDigest := by
      rw [hword]
      apply Text.firstPart_append _ hoptions
      simpa using ⟨token.algorithm.name_plain.2, h.plain⟩
    have hparse := IntegrityAlgorithm.parse_eq_some.mpr (rfl : token.algorithm.name = _)
    rw [IntegrityToken.ofWord, hpart, Text.splitOnce_append _ _ token.algorithm.name_plain.1,
      Option.bind_some]
    dsimp only
    rw [hparse, Option.map_some]

theorem readToken_eq (spec : IntegritySpec) (word : String) :
    spec.readToken C word = match IntegrityToken.ofWord word with
      | none => spec
      | some token =>
          { tokens := spec.tokens ++ [token]
            sawSupported := true
            cacheable := spec.cacheable && (C.decode token.expectedDigest).isOk } := by
  have hpart : ((Text.split word (· = '?')).head?).getD word = Text.firstPart word (· = '?') := by
    rw [Text.firstPart, List.headD_eq_head?_getD]
    cases hsplit : Text.split word (· = '?') with
    | nil => exact absurd hsplit (Text.split_ne_nil _ _)
    | cons part parts => rfl
  unfold IntegritySpec.readToken IntegrityToken.ofWord
  rw [hpart]
  dsimp only
  cases Text.splitOnce (Text.firstPart word (· = '?')) (· = '-') with
  | none => rfl
  | some parts =>
      rw [Option.bind_some]
      dsimp only
      cases IntegrityAlgorithm.parse parts.1 with
      | none => rfl
      | some algorithm => rfl

theorem tokens_foldl (words : List String) (spec : IntegritySpec) :
    (words.foldl (IntegritySpec.readToken C) spec).tokens =
      spec.tokens ++ words.filterMap IntegrityToken.ofWord := by
  induction words generalizing spec with
  | nil => rw [List.foldl_nil, List.filterMap_nil, List.append_nil]
  | cons word words ih =>
      rw [List.foldl_cons, ih, readToken_eq]
      cases hword : IntegrityToken.ofWord word with
      | none => rw [List.filterMap_cons_none hword]
      | some token => rw [List.filterMap_cons_some hword, List.append_assoc, List.singleton_append]

/-- What an integrity string is parsed to. -/
theorem parse_eq_some_iff {integrity : String} {spec : IntegritySpec} :
    IntegritySpec.parse C (some integrity) = some spec ↔
      Text.splitWhitespace integrity ≠ [] ∧
        spec = (Text.splitWhitespace integrity).foldl (IntegritySpec.readToken C) ⟨[], false, true⟩ := by
  have hiff : Text.splitWhitespace integrity ≠ [] ↔ Text.trim integrity ≠ "" :=
    not_congr Text.splitWhitespace_eq_nil_iff
  rw [hiff, IntegritySpec.parse, Option.map_some, Option.filter_some]
  by_cases hempty : Text.trim integrity = ""
  · simp [hempty]
  · simp [hempty, Text.splitWhitespace_trim, eq_comm]

end Words

section Order

variable {C : Crypto} {url : String} {spec : IntegritySpec} {bytes : Bytes}

def IntegrityToken.Decodes (C : Crypto) (token : IntegrityToken) : Prop :=
  ∃ digest, C.decode token.expectedDigest = .ok digest

/-- The token gives the digest of the bytes. -/
def IntegrityToken.Matches (C : Crypto) (bytes : Bytes) (token : IntegrityToken) : Prop :=
  C.decode token.expectedDigest = .ok (C.digest token.algorithm bytes)

theorem IntegrityToken.Matches.decodes {token : IntegrityToken} (h : token.Matches C bytes) :
    token.Decodes C :=
  ⟨_, h⟩

/-- A match counts when every token before it decodes. -/
theorem finishTokens_ok_iff {verifier : IntegrityVerifier} {tokens : List IntegrityToken}
    (hhasher : ∀ token ∈ tokens, verifier.hasher token.algorithm = some bytes) :
    (∃ key, verifier.finishTokens C url tokens = .ok key) ↔
      ∃ front token back, tokens = front ++ token :: back ∧ token.Matches C bytes ∧
        ∀ earlier ∈ front, earlier.Decodes C := by
  induction tokens with
  | nil =>
      constructor
      · rintro ⟨key, h⟩
        cases h
      · rintro ⟨front, token, back, h, _⟩
        exact absurd h.symm (by simp)
  | cons token rest ih =>
      have ih := ih fun t ht => hhasher t (List.mem_cons_of_mem _ ht)
      unfold IntegrityVerifier.finishTokens
      rw [hhasher token List.mem_cons_self]
      dsimp only
      cases hdecode : token.decodeExpectedDigest C url with
      | error error =>
          have hbad : ¬ token.Decodes C := by
            rintro ⟨digest, hdigest⟩
            rw [decodeExpectedDigest_ok.mpr hdigest] at hdecode
            cases hdecode
          constructor
          · rintro ⟨key, h⟩
            cases h
          · rintro ⟨front, other, back, heq, hmatch, hfront⟩
            cases front with
            | nil =>
                cases heq
                exact absurd hmatch.decodes hbad
            | cons first front =>
                cases heq
                exact absurd (hfront token List.mem_cons_self) hbad
      | ok expected =>
          have hexpected := decodeExpectedDigest_ok.mp hdecode
          dsimp only
          by_cases hdigest : C.digest token.algorithm bytes = expected
          · rw [if_pos hdigest]
            constructor
            · intro _
              have hmatch : token.Matches C bytes := by rw [IntegrityToken.Matches, hdigest, hexpected]
              exact ⟨[], token, rest, rfl, hmatch, by simp⟩
            · intro _
              exact ⟨_, rfl⟩
          · rw [if_neg hdigest, ih]
            constructor
            · rintro ⟨front, other, back, heq, hmatch, hfront⟩
              refine ⟨token :: front, other, back, by rw [heq, List.cons_append], hmatch, ?_⟩
              intro earlier hearlier
              cases List.mem_cons.mp hearlier with
              | inl hhead => exact hhead ▸ ⟨expected, hexpected⟩
              | inr htail => exact hfront earlier htail
            · rintro ⟨front, other, back, heq, hmatch, hfront⟩
              cases front with
              | nil =>
                  cases heq
                  rw [IntegrityToken.Matches, hexpected, Except.ok.injEq] at hmatch
                  exact absurd hmatch.symm hdigest
              | cons first front =>
                  cases heq
                  exact ⟨front, other, back, rfl, hmatch,
                    fun earlier h => hfront earlier (List.mem_cons_of_mem _ h)⟩

/-- A body whose integrity string is `integrity` passes the verification. -/
def Accepts (C : Crypto) (url integrity : String) (chunks : List Bytes) : Prop :=
  ∀ spec, IntegritySpec.parse C (some integrity) = some spec →
    ∃ key, spec.verifyChunks C url chunks = .ok key

theorem verifyIntegrityFile_ok_iff {integrity : String} :
    verifyIntegrityFile C url (some integrity) (.ok bytes) = .ok () ↔
      Accepts C url integrity [bytes] := by
  unfold verifyIntegrityFile Accepts
  cases IntegritySpec.parse C (some integrity) with
  | none => simp
  | some spec =>
      dsimp only
      cases hverify : spec.verifyChunks C url [bytes] with
      | error error => simp [Except.map, hverify]
      | ok key => simp [Except.map, hverify]

theorem accepts_iff {integrity : String} {chunks : List Bytes} :
    Accepts C url integrity chunks ↔ Text.splitWhitespace integrity = [] ∨
      ∃ front token back,
        (Text.splitWhitespace integrity).filterMap IntegrityToken.ofWord = front ++ token :: back ∧
          token.Matches C chunks.flatten ∧ ∀ earlier ∈ front, earlier.Decodes C := by
  by_cases hnil : Text.splitWhitespace integrity = []
  · constructor
    · exact fun _ => .inl hnil
    · intro _ spec hspec
      exact absurd hnil (parse_eq_some_iff.mp hspec).1
  · let spec := (Text.splitWhitespace integrity).foldl (IntegritySpec.readToken C) ⟨[], false, true⟩
    have hparse : IntegritySpec.parse C (some integrity) = some spec :=
      parse_eq_some_iff.mpr ⟨hnil, rfl⟩
    have htokens : spec.tokens =
        (Text.splitWhitespace integrity).filterMap IntegrityToken.ofWord := by
      rw [tokens_foldl, List.nil_append]
    have hwf := IntegritySpec.parse_wellFormed hparse
    have hfinish : (∃ key, spec.verifyChunks C url chunks = .ok key) ↔
        ∃ front token back, spec.tokens = front ++ token :: back ∧
          token.Matches C chunks.flatten ∧ ∀ earlier ∈ front, earlier.Decodes C := by
      have htokensIff : (∃ key, (chunks.foldl IntegrityVerifier.update spec.verifier).finishTokens C
          url spec.tokens = .ok key) ↔ _ :=
        finishTokens_ok_iff fun token htoken => hasher_verifier htoken chunks
      rw [← htokensIff]
      unfold IntegritySpec.verifyChunks IntegrityVerifier.finish
      rw [spec_update]
      have hspec : spec.verifier.spec = spec := rfl
      rw [hspec]
      cases hsupported : spec.sawSupported with
      | true => rfl
      | false =>
          have hempty : spec.tokens = [] := by
            by_contra hsome
            rw [hwf.supported.mpr hsome] at hsupported
            cases hsupported
          rw [hempty]
          simp [IntegrityVerifier.finishTokens]
    rw [htokens] at hfinish
    constructor
    · intro h
      exact .inr (hfinish.mp (h spec hparse))
    · intro h other hother
      rw [hparse, Option.some.injEq] at hother
      rw [← hother]
      exact hfinish.mpr (h.resolve_left hnil)

/-- A word of the integrity string is a token with the digest of the bytes. -/
def WordMatches (C : Crypto) (bytes : Bytes) (word : String) : Prop :=
  ∃ token, Names word token ∧ token.Matches C bytes

/-- A word that is a token of a supported algorithm has a digest that decodes. -/
def WordDecodes (C : Crypto) (word : String) : Prop :=
  ∀ token, Names word token → token.Decodes C

/-- Verification accepts in every order what has a matching word, and nothing else. -/
def OrderFree (C : Crypto) (url integrity : String) (chunks : List Bytes) : Prop :=
  (∀ other, (Text.splitWhitespace other).Perm (Text.splitWhitespace integrity) →
    (Accepts C url other chunks ↔ Accepts C url integrity chunks)) ∧
  (Accepts C url integrity chunks ↔
    ∃ word ∈ Text.splitWhitespace integrity, WordMatches C chunks.flatten word)

theorem accepts_words {integrity : String} {chunks : List Bytes}
    (hne : Text.splitWhitespace integrity ≠ []) (h : Accepts C url integrity chunks) :
    ∃ word ∈ Text.splitWhitespace integrity, WordMatches C chunks.flatten word := by
  obtain ⟨front, token, back, heq, hmatch, _⟩ := (accepts_iff.mp h).resolve_left hne
  have hmem : token ∈ (Text.splitWhitespace integrity).filterMap IntegrityToken.ofWord := by
    rw [heq]
    exact List.mem_append_right front List.mem_cons_self
  obtain ⟨word, hword, htoken⟩ := List.mem_filterMap.mp hmem
  exact ⟨word, hword, token, IntegrityToken.ofWord_eq_some.mp htoken, hmatch⟩

/-- When every word decodes, a matching one is enough wherever it stands. -/
theorem accepts_of_decodes {integrity : String} {chunks : List Bytes}
    (hdecodes : ∀ word ∈ Text.splitWhitespace integrity, WordDecodes C word)
    (h : ∃ word ∈ Text.splitWhitespace integrity, WordMatches C chunks.flatten word) :
    Accepts C url integrity chunks := by
  obtain ⟨word, hword, token, htoken, hmatch⟩ := h
  have hmem : token ∈ (Text.splitWhitespace integrity).filterMap IntegrityToken.ofWord :=
    List.mem_filterMap.mpr ⟨word, hword, IntegrityToken.ofWord_eq_some.mpr htoken⟩
  obtain ⟨front, back, heq⟩ := List.append_of_mem hmem
  refine accepts_iff.mpr (.inr ⟨front, token, back, heq, hmatch, ?_⟩)
  intro earlier hearlier
  have hread : earlier ∈ (Text.splitWhitespace integrity).filterMap IntegrityToken.ofWord := by
    rw [heq]
    exact List.mem_append_left _ hearlier
  obtain ⟨other, hother, hnames⟩ := List.mem_filterMap.mp hread
  exact hdecodes other hother earlier (IntegrityToken.ofWord_eq_some.mp hnames)

/-- A word that does not decode makes every order reject that has it in front. -/
theorem rejects_of_head {integrity word : String} {words : List String} {chunks : List Bytes}
    (heq : Text.splitWhitespace integrity = word :: words) (hword : ¬ WordDecodes C word) :
    ¬ Accepts C url integrity chunks := by
  intro h
  have hne : Text.splitWhitespace integrity ≠ [] := by rw [heq]; exact List.cons_ne_nil _ _
  obtain ⟨front, token, back, hparts, hmatch, hfront⟩ := (accepts_iff.mp h).resolve_left hne
  have hbad : ∃ bad, IntegrityToken.ofWord word = some bad ∧ ¬ bad.Decodes C := by
    by_contra hnone
    apply hword
    intro token htoken
    by_contra hdecodes
    exact hnone ⟨token, IntegrityToken.ofWord_eq_some.mpr htoken, hdecodes⟩
  obtain ⟨bad, hread, hdecodes⟩ := hbad
  rw [heq, List.filterMap_cons_some hread] at hparts
  cases front with
  | nil =>
      rw [List.nil_append, List.cons.injEq] at hparts
      exact hdecodes (hparts.1 ▸ hmatch.decodes)
  | cons first front =>
      rw [List.cons_append, List.cons.injEq] at hparts
      exact hdecodes (hparts.1 ▸ hfront first List.mem_cons_self)

theorem verdict_order_free_iff (C : Crypto) (url integrity : String) (chunks : List Bytes) :
    OrderFree C url integrity chunks ↔
      Text.splitWhitespace integrity ≠ [] ∧
        ((∀ word ∈ Text.splitWhitespace integrity, ¬ WordMatches C chunks.flatten word) ∨
          ∀ word ∈ Text.splitWhitespace integrity, WordDecodes C word) := by
  constructor
  · rintro ⟨horders, hverdict⟩
    have hne : Text.splitWhitespace integrity ≠ [] := by
      intro hnil
      obtain ⟨word, hword, _⟩ := hverdict.mp (accepts_iff.mpr (.inl hnil))
      rw [hnil] at hword
      cases hword
    refine ⟨hne, ?_⟩
    by_contra hcond
    rw [not_or] at hcond
    obtain ⟨hmatches, hundecoded⟩ := hcond
    simp only [not_forall, not_not, exists_prop] at hmatches hundecoded
    obtain ⟨bad, hbad, hbadWord⟩ := hundecoded
    let words := bad :: (Text.splitWhitespace integrity).erase bad
    have hperm : words.Perm (Text.splitWhitespace integrity) := (List.perm_cons_erase hbad).symm
    have hsplit : Text.splitWhitespace (String.intercalate " " words) = words :=
      Text.splitWhitespace_intercalate fun word hword => Text.isWord_of_mem (hperm.mem_iff.mp hword)
    have hsame := horders (String.intercalate " " words) (by rw [hsplit]; exact hperm)
    exact rejects_of_head hsplit hbadWord (hsame.mpr (hverdict.mpr hmatches))
  · rintro ⟨hne, hcond⟩
    have hiff : ∀ other, (Text.splitWhitespace other).Perm (Text.splitWhitespace integrity) →
        (Accepts C url other chunks ↔
          ∃ word ∈ Text.splitWhitespace integrity, WordMatches C chunks.flatten word) := by
      intro other hperm
      have hother : Text.splitWhitespace other ≠ [] := by
        intro hnil
        rw [hnil] at hperm
        exact hne hperm.nil_eq.symm
      constructor
      · intro h
        obtain ⟨word, hword, hmatch⟩ := accepts_words hother h
        exact ⟨word, hperm.mem_iff.mp hword, hmatch⟩
      · rintro ⟨word, hword, hmatch⟩
        cases hcond with
        | inl hnone => exact absurd hmatch (hnone word hword)
        | inr hall =>
            exact accepts_of_decodes (fun w hw => hall w (hperm.mem_iff.mp hw))
              ⟨word, hperm.mem_iff.mpr hword, hmatch⟩
    have hself := hiff integrity (.refl _)
    exact ⟨fun other hperm => (hiff other hperm).trans hself.symm, hself⟩

/-- SHA-1 of the empty body. -/
def emptyDigest : Bytes :=
  [0xda, 0x39, 0xa3, 0xee, 0x5e, 0x6b, 0x4b, 0x0d, 0x32, 0x55,
    0xbf, 0xef, 0x95, 0x60, 0x18, 0x90, 0xaf, 0xd8, 0x07, 0x09]

/-- SHA-1 and base64 on the values that occur here. -/
def emptyCrypto : Crypto where
  digest _ bytes := if bytes = [] then emptyDigest else []
  decode text :=
    if text = "2jmj7l5rSw0yVb/vlWAYkK/YBwk=" then .ok emptyDigest else .error "Invalid padding"

/-- The digest of the body after a word that does not decode. -/
theorem digest_after_undecodable : ¬ OrderFree emptyCrypto "https://example.com/pkg.tgz"
    "sha1-wrongdigest sha1-2jmj7l5rSw0yVb/vlWAYkK/YBwk=" [] := by
  intro h
  have hwords : Text.splitWhitespace "sha1-wrongdigest sha1-2jmj7l5rSw0yVb/vlWAYkK/YBwk=" =
      ["sha1-wrongdigest", "sha1-2jmj7l5rSw0yVb/vlWAYkK/YBwk="] := by
    decide +kernel
  have hbad : ¬ WordDecodes emptyCrypto "sha1-wrongdigest" := by
    intro hdecodes
    have hread : IntegrityToken.ofWord "sha1-wrongdigest" = some ⟨.sha1, "wrongdigest"⟩ := by
      decide +kernel
    obtain ⟨digest, hdigest⟩ := hdecodes _ (IntegrityToken.ofWord_eq_some.mp hread)
    cases hdigest
  have hgood : WordMatches emptyCrypto [] "sha1-2jmj7l5rSw0yVb/vlWAYkK/YBwk=" := by
    refine ⟨⟨.sha1, "2jmj7l5rSw0yVb/vlWAYkK/YBwk="⟩, ?_, rfl⟩
    apply IntegrityToken.ofWord_eq_some.mp
    decide +kernel
  apply rejects_of_head hwords hbad
  exact h.2.mpr ⟨_, by rw [hwords]; exact List.mem_cons_of_mem _ List.mem_cons_self, hgood⟩

end Order

end Snpm.Store
