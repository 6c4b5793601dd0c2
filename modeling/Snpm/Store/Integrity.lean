import Mathlib
import Snpm.Error
import Snpm.Library.Text

/-!
Integrity strings: their tokens, the keys under which verified blobs are cached
and the streaming verifier. The digest functions and the base64 decoder are
parameters, and a hasher is the bytes it was fed. A key that the verifier would
report is reported only for bytes with the digest in it.
-/
namespace Snpm.Store

abbrev Bytes := List UInt8

section Hex

def hexDigit (n : Nat) : Char :=
  if n < 10 then Char.ofNat ('0'.toNat + n) else Char.ofNat ('a'.toNat + (n - 10))

def hexByte (byte : UInt8) : List Char := [hexDigit (byte.toNat / 16), hexDigit (byte.toNat % 16)]

/-- `hex::encode`. -/
def hexEncode (bytes : Bytes) : String := String.ofList (bytes.flatMap hexByte)

theorem hexDigit_inj {m n : Nat} (hm : m < 16) (hn : n < 16) (h : hexDigit m = hexDigit n) :
    m = n := by
  have hall : ∀ a : Fin 16, ∀ b : Fin 16, hexDigit a = hexDigit b → a = b := by decide
  exact congrArg Fin.val (hall ⟨m, hm⟩ ⟨n, hn⟩ h)

theorem hexDigit_ne_slash {n : Nat} (hn : n < 16) : hexDigit n ≠ '/' := by
  have hall : ∀ a : Fin 16, hexDigit a ≠ '/' := by decide
  exact hall ⟨n, hn⟩

theorem hexByte_inj {a b : UInt8} (h : hexByte a = hexByte b) : a = b := by
  have ha := a.toNat_lt
  have hb := b.toNat_lt
  simp only [hexByte, List.cons.injEq, and_true] at h
  have hhigh := hexDigit_inj (by omega) (by omega) h.1
  have hlow := hexDigit_inj (by omega) (by omega) h.2
  apply UInt8.toNat_inj.mp
  omega

theorem flatMap_hexByte_inj {a b : Bytes} (h : a.flatMap hexByte = b.flatMap hexByte) : a = b := by
  induction a generalizing b with
  | nil =>
      cases b with
      | nil => rfl
      | cons y b => simp [hexByte] at h
  | cons x a ih =>
      cases b with
      | nil => simp [hexByte] at h
      | cons y b =>
          rw [List.flatMap_cons, List.flatMap_cons] at h
          obtain ⟨hbyte, hrest⟩ := List.append_inj h rfl
          rw [hexByte_inj hbyte, ih hrest]

theorem hexEncode_inj {a b : Bytes} (h : hexEncode a = hexEncode b) : a = b :=
  flatMap_hexByte_inj (String.ofList_injective h)

theorem slash_not_mem_hexEncode (bytes : Bytes) : '/' ∉ (hexEncode bytes).toList := by
  rw [hexEncode, String.toList_ofList, List.mem_flatMap]
  rintro ⟨byte, _, hmem⟩
  have hlt := byte.toNat_lt
  simp only [hexByte, List.mem_cons, List.not_mem_nil, or_false] at hmem
  cases hmem with
  | inl h => exact hexDigit_ne_slash (by omega) h.symm
  | inr h => exact hexDigit_ne_slash (by omega) h.symm

end Hex

inductive IntegrityAlgorithm where
  | sha512
  | sha256
  | sha1
deriving DecidableEq

namespace IntegrityAlgorithm

def parse (value : String) : Option IntegrityAlgorithm :=
  if value = "sha512" then some .sha512
  else if value = "sha256" then some .sha256
  else if value = "sha1" then some .sha1
  else none

def name : IntegrityAlgorithm → String
  | sha512 => "sha512"
  | sha256 => "sha256"
  | sha1 => "sha1"

theorem name_inj {a b : IntegrityAlgorithm} (h : a.name = b.name) : a = b := by
  cases a <;> cases b <;> first | rfl | exact absurd h (by decide)

end IntegrityAlgorithm

/-- The digest functions and the standard base64 decoder. -/
structure Crypto where
  digest : IntegrityAlgorithm → Bytes → Bytes
  decode : String → Except String Bytes

structure IntegrityToken where
  algorithm : IntegrityAlgorithm
  expectedDigest : String
deriving DecidableEq

structure IntegrityCacheKey where
  algorithm : String
  digestHex : String
deriving DecidableEq

def IntegrityCacheKey.new (algorithm : String) (digest : Bytes) : IntegrityCacheKey :=
  ⟨algorithm, hexEncode digest⟩

structure IntegritySpec where
  tokens : List IntegrityToken
  sawSupported : Bool
  cacheable : Bool
deriving DecidableEq

section Parse

variable (C : Crypto)

/-- `decode_expected_digest`. -/
def IntegrityToken.decodeExpectedDigest (token : IntegrityToken) (url : String) : Result Bytes :=
  match C.decode token.expectedDigest with
  | .ok digest => .ok digest
  | .error error => .error (.tarball url ("invalid integrity value: " ++ error))

/-- One word of an integrity string; options after a question mark are dropped
and unknown algorithms are skipped. -/
def IntegritySpec.readToken (spec : IntegritySpec) (word : String) : IntegritySpec :=
  let token := ((Text.split word (· = '?')).head?).getD word
  match Text.splitOnce token (· = '-') with
  | none => spec
  | some (algorithm, expectedDigest) =>
      match IntegrityAlgorithm.parse algorithm with
      | none => spec
      | some algorithm =>
          { tokens := spec.tokens ++ [⟨algorithm, expectedDigest⟩]
            sawSupported := true
            cacheable := spec.cacheable && (C.decode expectedDigest).isOk }

def IntegritySpec.parse (integrity : Option String) : Option IntegritySpec :=
  match (integrity.map Text.trim).filter (· ≠ "") with
  | none => none
  | some integrity =>
      some ((Text.splitWhitespace integrity).foldl (readToken C) ⟨[], false, true⟩)

/-- The keys of one algorithm, after those collected so far. -/
def IntegritySpec.addKeys (url : String) (algorithm : IntegrityAlgorithm)
    (keys : List IntegrityCacheKey) : List IntegrityToken → Result (List IntegrityCacheKey)
  | [] => .ok keys
  | token :: rest =>
      match token.decodeExpectedDigest C url with
      | .error error => .error error
      | .ok digest =>
          let key := IntegrityCacheKey.new algorithm.name digest
          addKeys url algorithm (if key ∈ keys then keys else keys ++ [key]) rest

def IntegritySpec.cacheKeys (spec : IntegritySpec) (url : String) :
    Result (List IntegrityCacheKey) :=
  if !spec.cacheable then .ok []
  else
    [IntegrityAlgorithm.sha512, .sha256, .sha1].foldlM (fun keys algorithm =>
      addKeys C url algorithm keys (spec.tokens.filter (·.algorithm = algorithm))) []

/-- A hasher is there for each algorithm that a token names. -/
structure IntegrityVerifier where
  spec : IntegritySpec
  sha512 : Option Bytes
  sha256 : Option Bytes
  sha1 : Option Bytes

def IntegritySpec.verifier (spec : IntegritySpec) : IntegrityVerifier :=
  let hasher algorithm := if spec.tokens.any (·.algorithm = algorithm) then some [] else none
  ⟨spec, hasher .sha512, hasher .sha256, hasher .sha1⟩

def IntegrityVerifier.update (verifier : IntegrityVerifier) (bytes : Bytes) : IntegrityVerifier :=
  { verifier with
    sha512 := verifier.sha512.map (· ++ bytes)
    sha256 := verifier.sha256.map (· ++ bytes)
    sha1 := verifier.sha1.map (· ++ bytes) }

def IntegrityVerifier.hasher (verifier : IntegrityVerifier) : IntegrityAlgorithm → Option Bytes
  | .sha512 => verifier.sha512
  | .sha256 => verifier.sha256
  | .sha1 => verifier.sha1

/-- The first token with the actual digest decides. -/
def IntegrityVerifier.finishTokens (verifier : IntegrityVerifier) (url : String) :
    List IntegrityToken → Result (Option IntegrityCacheKey)
  | [] => .error (.tarball url "integrity verification failed")
  | token :: rest =>
      match verifier.hasher token.algorithm with
      | none => .error (.internal
          ("missing hasher for supported integrity algorithm " ++ token.algorithm.name))
      | some fed =>
          match token.decodeExpectedDigest C url with
          | .error error => .error error
          | .ok expected =>
              if C.digest token.algorithm fed = expected then
                .ok (if verifier.spec.cacheable then
                  some (.new token.algorithm.name expected) else none)
              else finishTokens verifier url rest

def IntegrityVerifier.finish (verifier : IntegrityVerifier) (url : String) :
    Result (Option IntegrityCacheKey) :=
  if !verifier.spec.sawSupported then
    .error (.tarball url "integrity value uses no supported algorithm (sha512/sha256/sha1)")
  else verifier.finishTokens C url verifier.spec.tokens

/-- Feed the verifier a body in chunks. -/
def IntegritySpec.verifyChunks (spec : IntegritySpec) (url : String) (chunks : List Bytes) :
    Result (Option IntegrityCacheKey) :=
  (chunks.foldl IntegrityVerifier.update spec.verifier).finish C url

/-- `verify_integrity_file`, on what reading the file gives. -/
def verifyIntegrityFile (url : String) (integrity : Option String) (file : Result Bytes) :
    Result Unit :=
  match IntegritySpec.parse C integrity with
  | none => .ok ()
  | some spec =>
      match file with
      | .error error => .error error
      | .ok bytes => (spec.verifyChunks C url [bytes]).map fun _ => ()

end Parse

section Lemmas

variable {C : Crypto} {spec : IntegritySpec} {url : String}

/-- What parsing guarantees of a specification. -/
structure IntegritySpec.WellFormed (C : Crypto) (spec : IntegritySpec) : Prop where
  supported : spec.sawSupported = true ↔ spec.tokens ≠ []
  decodes : spec.cacheable = true → ∀ token ∈ spec.tokens,
    ∃ digest, C.decode token.expectedDigest = .ok digest

theorem IntegritySpec.WellFormed.readToken (h : spec.WellFormed C) (word : String) :
    (spec.readToken C word).WellFormed C := by
  unfold IntegritySpec.readToken
  dsimp only
  split
  · exact h
  · split
    · exact h
    · rename_i expectedDigest _ _ algorithm _
      refine ⟨by simp, fun hcacheable token htoken => ?_⟩
      rw [Bool.and_eq_true] at hcacheable
      cases List.mem_append.mp htoken with
      | inl hold => exact h.decodes hcacheable.1 token hold
      | inr hnew =>
          rw [List.mem_singleton] at hnew
          subst hnew
          cases hdecode : C.decode expectedDigest with
          | error error =>
              rw [hdecode] at hcacheable
              exact absurd hcacheable.2 (by simp [Except.isOk, Except.toBool])
          | ok digest => exact ⟨digest, rfl⟩

theorem IntegritySpec.parse_wellFormed {integrity : Option String}
    (h : IntegritySpec.parse C integrity = some spec) : spec.WellFormed C := by
  have hfold : ∀ (words : List String) (start : IntegritySpec), start.WellFormed C →
      (words.foldl (IntegritySpec.readToken C) start).WellFormed C := by
    intro words
    induction words with
    | nil => exact fun _ h => h
    | cons word words ih => exact fun start h => ih _ (h.readToken word)
  unfold IntegritySpec.parse at h
  split at h
  · cases h
  · cases h
    exact hfold _ _ ⟨by simp, by simp⟩

theorem decodeExpectedDigest_ok {token : IntegrityToken} {digest : Bytes} :
    token.decodeExpectedDigest C url = .ok digest ↔ C.decode token.expectedDigest = .ok digest := by
  unfold IntegrityToken.decodeExpectedDigest
  cases C.decode token.expectedDigest with
  | error error => simp
  | ok d => simp

/-- Every key stands for a token that decodes. -/
theorem addKeys_mem {algorithm : IntegrityAlgorithm} {tokens : List IntegrityToken}
    {start keys : List IntegrityCacheKey}
    (h : IntegritySpec.addKeys C url algorithm start tokens = .ok keys) {key : IntegrityCacheKey}
    (hkey : key ∈ keys) : key ∈ start ∨ ∃ token ∈ tokens, ∃ digest,
      C.decode token.expectedDigest = .ok digest ∧ key = .new algorithm.name digest := by
  induction tokens generalizing start with
  | nil =>
      cases h
      exact .inl hkey
  | cons token rest ih =>
      unfold IntegritySpec.addKeys at h
      split at h
      · cases h
      · rename_i digest hdigest
        cases ih h with
        | inl hstart =>
            split at hstart
            · exact .inl hstart
            · cases List.mem_append.mp hstart with
              | inl hold => exact .inl hold
              | inr hnew =>
                  exact .inr ⟨token, List.mem_cons_self, digest, decodeExpectedDigest_ok.mp hdigest,
                    List.mem_singleton.mp hnew⟩
        | inr hrest =>
            obtain ⟨other, hother, hdecoded⟩ := hrest
            exact .inr ⟨other, List.mem_cons_of_mem _ hother, hdecoded⟩

theorem cacheKeys_mem {keys : List IntegrityCacheKey} (h : spec.cacheKeys C url = .ok keys)
    {key : IntegrityCacheKey} (hkey : key ∈ keys) :
    spec.cacheable = true ∧ ∃ token ∈ spec.tokens, ∃ digest,
      C.decode token.expectedDigest = .ok digest ∧ key = .new token.algorithm.name digest := by
  unfold IntegritySpec.cacheKeys at h
  split at h
  · cases h
    cases hkey
  · rename_i hcacheable
    refine ⟨by simpa using hcacheable, ?_⟩
    have hfold : ∀ (algorithms : List IntegrityAlgorithm) (start : List IntegrityCacheKey),
        algorithms.foldlM (fun keys algorithm => IntegritySpec.addKeys C url algorithm keys
          (spec.tokens.filter (·.algorithm = algorithm))) start = .ok keys →
        key ∈ start ∨ ∃ token ∈ spec.tokens, ∃ digest,
          C.decode token.expectedDigest = .ok digest ∧ key = .new token.algorithm.name digest := by
      intro algorithms
      induction algorithms with
      | nil =>
          intro start h
          cases h
          exact .inl hkey
      | cons algorithm algorithms ih =>
          intro start h
          obtain ⟨next, hnext, hrest⟩ := Result.bind_eq_ok h
          cases ih next hrest with
          | inr htoken => exact .inr htoken
          | inl hmem =>
              cases addKeys_mem hnext hmem with
              | inl hstart => exact .inl hstart
              | inr htoken =>
                  obtain ⟨token, htoken, digest, hdigest, heq⟩ := htoken
                  rw [List.mem_filter, decide_eq_true_eq] at htoken
                  exact .inr ⟨token, htoken.1, digest, hdigest, htoken.2 ▸ heq⟩
    exact (hfold _ [] h).resolve_left (by simp)

section Verifier

/-- Only the bytes count, not how they were cut. -/
theorem foldl_update (chunks : List Bytes) (verifier : IntegrityVerifier) :
    chunks.foldl IntegrityVerifier.update verifier = verifier.update chunks.flatten := by
  induction chunks generalizing verifier with
  | nil => simp [IntegrityVerifier.update]
  | cons chunk chunks ih =>
      rw [List.foldl_cons, ih]
      simp [IntegrityVerifier.update, Option.map_map, Function.comp_def]

theorem verifyChunks_flatten (chunks : List Bytes) :
    spec.verifyChunks C url chunks = spec.verifyChunks C url [chunks.flatten] := by
  unfold IntegritySpec.verifyChunks
  rw [foldl_update, foldl_update]
  simp

/-- What a verifier holds after some chunks. -/
theorem hasher_update (chunks : List Bytes) (verifier : IntegrityVerifier)
    (algorithm : IntegrityAlgorithm) :
    (chunks.foldl IntegrityVerifier.update verifier).hasher algorithm =
      (verifier.hasher algorithm).map (· ++ chunks.flatten) := by
  rw [foldl_update]
  cases algorithm <;> rfl

theorem spec_update (chunks : List Bytes) (verifier : IntegrityVerifier) :
    (chunks.foldl IntegrityVerifier.update verifier).spec = verifier.spec := by
  rw [foldl_update]
  rfl

theorem hasher_verifier {token : IntegrityToken} (h : token ∈ spec.tokens) (chunks : List Bytes) :
    (chunks.foldl IntegrityVerifier.update spec.verifier).hasher token.algorithm =
      some chunks.flatten := by
  have hany : spec.tokens.any (·.algorithm = token.algorithm) = true :=
    List.any_eq_true.mpr ⟨token, h, by simp⟩
  rw [hasher_update]
  cases hcase : token.algorithm <;> rw [hcase] at hany <;>
    simp [IntegrityVerifier.hasher, IntegritySpec.verifier, hany]

/-- Bytes with the digest of some token. -/
def IntegritySpec.Admits (C : Crypto) (spec : IntegritySpec) (bytes : Bytes) : Prop :=
  ∃ token ∈ spec.tokens, ∃ digest, C.decode token.expectedDigest = .ok digest ∧
    C.digest token.algorithm bytes = digest

theorem finishTokens_ok {verifier : IntegrityVerifier} {tokens : List IntegrityToken}
    {bytes : Bytes} (hhasher : ∀ token ∈ tokens, verifier.hasher token.algorithm = some bytes)
    {key : Option IntegrityCacheKey} (h : verifier.finishTokens C url tokens = .ok key) :
    ∃ token ∈ tokens, ∃ digest, C.decode token.expectedDigest = .ok digest ∧
      C.digest token.algorithm bytes = digest ∧
      key = if verifier.spec.cacheable then some (.new token.algorithm.name digest) else none := by
  induction tokens with
  | nil => cases h
  | cons token rest ih =>
      unfold IntegrityVerifier.finishTokens at h
      rw [hhasher token List.mem_cons_self] at h
      dsimp only at h
      split at h
      · cases h
      · rename_i expected hexpected
        split at h
        · rename_i hdigest
          cases h
          exact ⟨token, List.mem_cons_self, expected, decodeExpectedDigest_ok.mp hexpected, hdigest,
            rfl⟩
        · obtain ⟨other, hother, hrest⟩ :=
            ih (fun t ht => hhasher t (List.mem_cons_of_mem _ ht)) h
          exact ⟨other, List.mem_cons_of_mem _ hother, hrest⟩

/-- A token with the digest makes the verifier accept when all tokens decode. -/
theorem finishTokens_accepts {verifier : IntegrityVerifier} {tokens : List IntegrityToken}
    {bytes : Bytes} (hhasher : ∀ token ∈ tokens, verifier.hasher token.algorithm = some bytes)
    (hdecodes : ∀ token ∈ tokens, ∃ digest, C.decode token.expectedDigest = .ok digest)
    (hadmits : ∃ token ∈ tokens, ∃ digest, C.decode token.expectedDigest = .ok digest ∧
      C.digest token.algorithm bytes = digest) :
    ∃ key, verifier.finishTokens C url tokens = .ok key := by
  induction tokens with
  | nil =>
      obtain ⟨token, htoken, _⟩ := hadmits
      cases htoken
  | cons token rest ih =>
      obtain ⟨digest, hdigest⟩ := hdecodes token List.mem_cons_self
      unfold IntegrityVerifier.finishTokens
      rw [hhasher token List.mem_cons_self, decodeExpectedDigest_ok.mpr hdigest]
      dsimp only
      split
      · exact ⟨_, rfl⟩
      · rename_i hne
        apply ih (fun t ht => hhasher t (List.mem_cons_of_mem _ ht))
          (fun t ht => hdecodes t (List.mem_cons_of_mem _ ht))
        obtain ⟨other, hother, expected, hexpected, hmatch⟩ := hadmits
        cases List.mem_cons.mp hother with
        | inl heq =>
            subst heq
            rw [hdigest] at hexpected
            cases hexpected
            exact absurd hmatch hne
        | inr hmem => exact ⟨other, hmem, expected, hexpected, hmatch⟩

/-- The URL stands in errors only. -/
theorem finishTokens_url {verifier : IntegrityVerifier} {tokens : List IntegrityToken}
    {key : Option IntegrityCacheKey} (h : verifier.finishTokens C url tokens = .ok key)
    (other : String) : verifier.finishTokens C other tokens = .ok key := by
  induction tokens with
  | nil => cases h
  | cons token rest ih =>
      unfold IntegrityVerifier.finishTokens at h ⊢
      split at h
      · cases h
      · split at h
        · cases h
        · rename_i expected hexpected
          rw [decodeExpectedDigest_ok.mpr (decodeExpectedDigest_ok.mp hexpected)]
          dsimp only
          split at h
          · rename_i hdigest
            rw [if_pos hdigest]
            exact h
          · rename_i hdigest
            rw [if_neg hdigest]
            exact ih h

theorem verifyChunks_url {chunks : List Bytes} {key : Option IntegrityCacheKey}
    (h : spec.verifyChunks C url chunks = .ok key) (other : String) :
    spec.verifyChunks C other chunks = .ok key := by
  unfold IntegritySpec.verifyChunks IntegrityVerifier.finish at h ⊢
  split at h
  · cases h
  · rename_i hsupported
    rw [if_neg hsupported]
    exact finishTokens_url h other

/-- A body that was verified has the digest of a token, and a reported key names it. -/
theorem verifyChunks_ok {chunks : List Bytes} {key : Option IntegrityCacheKey}
    (h : spec.verifyChunks C url chunks = .ok key) :
    ∃ token ∈ spec.tokens, ∃ digest, C.decode token.expectedDigest = .ok digest ∧
      C.digest token.algorithm chunks.flatten = digest ∧
      key = if spec.cacheable then some (.new token.algorithm.name digest) else none := by
  unfold IntegritySpec.verifyChunks IntegrityVerifier.finish at h
  rw [spec_update] at h
  split at h
  · cases h
  · have hok := finishTokens_ok (fun token htoken => hasher_verifier htoken chunks) h
    rwa [spec_update] at hok

theorem verifyChunks_accepts (hwf : spec.WellFormed C) (hcacheable : spec.cacheable = true)
    {chunks : List Bytes} (h : spec.Admits C chunks.flatten) :
    ∃ key, spec.verifyChunks C url chunks = .ok key := by
  obtain ⟨token, htoken, hmatch⟩ := h
  have hsupported : spec.sawSupported = true :=
    hwf.supported.mpr (List.ne_nil_of_mem htoken)
  unfold IntegritySpec.verifyChunks IntegrityVerifier.finish
  rw [spec_update]
  have hspec : spec.verifier.spec = spec := rfl
  rw [hspec, hsupported]
  exact finishTokens_accepts (fun token htoken => hasher_verifier htoken chunks)
    (hwf.decodes hcacheable) ⟨token, htoken, hmatch⟩

end Verifier

end Lemmas

end Snpm.Store
