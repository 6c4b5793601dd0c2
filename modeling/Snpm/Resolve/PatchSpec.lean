import Mathlib
import Snpm.Library.SingleCall
import Snpm.Library.Utf8
import Snpm.Resolve.AliasOrRange

/-!
The split of a spec calls itself on what a patch is for. Every call is made on
a text that is shorter by the word for the patch at least, so the split ends,
and a patch for a name and a range denotes this name and this range.
-/
namespace Snpm.Resolve

open Store (ValidName isUrlSafe not_mem_of_safe)

section Calls

/-- The split with its own calls left open. -/
def splitBody (again : String → Option DepRequest) (spec : String) : Option DepRequest :=
  if looksLikeHostedGitUrl spec then some ⟨spec, "latest", .git⟩
  else (splitPatchProtocolSpec again spec).or (splitSchemeSpec spec)

/-- The spec behind a registry protocol, unless it is a range or nothing. -/
def registryCall (protocol : RegistryProtocol) (rest : String) : Option String :=
  if rest = "" then none
  else if hasNoNameChars rest then none
  else some (protocol.name ++ ":" ++ rest)

def locatorCall (inner : String) : Option String :=
  match Text.stripPrefix inner "npm:", Text.stripPrefix inner "jsr:" with
  | some rest, _ => registryCall .npm rest
  | none, some rest => registryCall .jsr rest
  | none, none => some inner

/-- The spec that the split of a spec calls itself on. -/
def nextSpec (spec : String) : Option String :=
  if looksLikeHostedGitUrl spec then none
  else do
    let target := beforeHash (← Text.stripPrefix spec "patch:")
    if target = "" then none
    else
      match splitPatchLocator (urlDecode target) with
      | some (_, inner) => locatorCall inner
      | none => some (urlDecode target)

theorem splitPatchRegistryTarget_congr {again other : String → Option DepRequest}
    {protocol : RegistryProtocol} {rest : String} (name : String)
    (h : ∀ y ∈ registryCall protocol rest, again y = other y) :
    splitPatchRegistryTarget again name rest protocol =
      splitPatchRegistryTarget other name rest protocol := by
  simp only [splitPatchRegistryTarget, registryCall] at h ⊢
  by_cases hempty : rest = ""
  · rw [if_pos hempty, if_pos hempty]
  · by_cases hplain : hasNoNameChars rest = true
    · rw [if_neg hempty, if_neg hempty, if_pos hplain, if_pos hplain]
    · rw [if_neg hempty, if_neg hplain] at h ⊢
      rw [if_neg hempty, if_neg hplain, h _ rfl]

theorem splitPatchLocatorSpec_congr {again other : String → Option DepRequest} {inner : String}
    (name : String) (h : ∀ y ∈ locatorCall inner, again y = other y) :
    splitPatchLocatorSpec again name inner = splitPatchLocatorSpec other name inner := by
  simp only [splitPatchLocatorSpec, locatorCall] at h ⊢
  cases hnpm : Text.stripPrefix inner "npm:" with
  | some rest =>
      rw [hnpm] at h
      exact splitPatchRegistryTarget_congr name h
  | none =>
      rw [hnpm] at h
      cases hjsr : Text.stripPrefix inner "jsr:" with
      | some rest =>
          rw [hjsr] at h
          exact splitPatchRegistryTarget_congr name h
      | none =>
          rw [hjsr] at h
          exact congrArg (Option.getD · _) (h inner rfl)

theorem splitBody_asks : SingleCall.AsksNext splitBody nextSpec := by
  intro again other spec h
  simp only [splitBody, nextSpec, splitPatchProtocolSpec] at h ⊢
  cases hhosted : looksLikeHostedGitUrl spec with
  | true => rfl
  | false =>
      rw [hhosted, if_neg Bool.false_ne_true] at h
      simp only [Bool.false_eq_true, if_false]
      cases hpatch : Text.stripPrefix spec "patch:" with
      | none => rfl
      | some text =>
          rw [hpatch] at h
          simp only [Option.bind_eq_bind, Option.bind_some] at h ⊢
          by_cases hempty : beforeHash text = ""
          · rw [if_pos hempty, if_pos hempty]
          · rw [if_neg hempty] at h
            rw [if_neg hempty, if_neg hempty]
            cases hlocator : splitPatchLocator (urlDecode (beforeHash text)) with
            | none =>
                rw [hlocator] at h
                dsimp only
                rw [h _ rfl]
            | some parts =>
                rw [hlocator] at h
                dsimp only at h ⊢
                rw [splitPatchLocatorSpec_congr parts.1 h]

end Calls

section Shorter

theorem length_percentDecode (bytes : List UInt8) : (percentDecode bytes).length ≤ bytes.length := by
  fun_induction percentDecode bytes with
  | case1 a b rest high low hhigh hlow ih =>
      simp only [List.length_cons]
      omega
  | case2 a b rest hnone ih =>
      simp only [List.length_cons] at ih ⊢
      omega
  | case3 b rest hother ih =>
      simp only [List.length_cons]
      omega
  | case4 => exact Nat.le_refl _

/-- Decoding never lengthens a text. -/
theorem utf8ByteSize_urlDecode (text : String) :
    (urlDecode text).utf8ByteSize ≤ text.utf8ByteSize := by
  unfold urlDecode
  dsimp only
  cases hdecoded : String.fromUTF8? ⟨(percentDecode text.toUTF8.data.toList).toArray⟩ with
  | none => exact Nat.le_refl _
  | some decoded =>
      have hsize := Text.utf8ByteSize_of_fromUTF8? hdecoded
      have hless := length_percentDecode (Text.utf8 text)
      have hlength := Text.length_utf8 text
      rw [Option.getD_some, hsize, ← hlength]
      exact hless

theorem utf8ByteSize_beforeHash (text : String) :
    (beforeHash text).utf8ByteSize ≤ text.utf8ByteSize := by
  rw [beforeHash]
  cases hsplit : Text.splitOnce text (· = '#') with
  | none => exact Nat.le_refl _
  | some parts =>
      have htext := (Text.splitOnce_eq_some hsplit).1
      rw [Option.map_some, Option.getD_some, htext, String.utf8ByteSize_append,
        String.utf8ByteSize_append]
      omega

theorem utf8ByteSize_splitOnce {text before after : String} {c : Char}
    (h : Text.splitOnce text (· = c) = some (before, after)) :
    after.utf8ByteSize ≤ text.utf8ByteSize := by
  rw [(Text.splitOnce_eq_some h).1, String.utf8ByteSize_append, String.utf8ByteSize_append]
  omega

theorem utf8ByteSize_splitPatchLocator {target name inner : String}
    (h : splitPatchLocator target = some (name, inner)) :
    inner.utf8ByteSize ≤ target.utf8ByteSize := by
  simp only [splitPatchLocator] at h
  cases hscoped : Text.startsWith target "@" with
  | false =>
      rw [hscoped, if_neg Bool.false_ne_true] at h
      cases hat : Text.splitOnce target (· = '@') with
      | none =>
          rw [hat] at h
          cases h
      | some parts =>
          rw [hat] at h
          dsimp only at h
          split at h
          · cases h
          · cases h
            exact utf8ByteSize_splitOnce hat
  | true =>
      rw [hscoped, if_pos rfl] at h
      cases hslash : Text.splitOnce target (· = '/') with
      | none =>
          rw [hslash] at h
          cases h
      | some parts =>
          cases hat : Text.splitOnce parts.2 (· = '@') with
          | none =>
              rw [hslash, Option.bind_eq_bind, Option.bind_some, hat] at h
              cases h
          | some rest =>
              rw [hslash, Option.bind_eq_bind, Option.bind_some, hat] at h
              simp only [Option.bind_some] at h
              split at h
              · cases h
              · cases h
                exact (utf8ByteSize_splitOnce hat).trans (utf8ByteSize_splitOnce hslash)

theorem registryCall_eq {protocol : RegistryProtocol} {rest y : String}
    (h : y ∈ registryCall protocol rest) : y = protocol.name ++ ":" ++ rest := by
  rw [registryCall] at h
  split at h
  · cases h
  · split at h
    · cases h
    · cases h
      rfl

/-- A prefix that was taken away for the call is put back by it. -/
theorem locatorCall_eq {inner y : String} (h : y ∈ locatorCall inner) : y = inner := by
  rw [locatorCall] at h
  cases hnpm : Text.stripPrefix inner "npm:" with
  | some rest =>
      rw [hnpm] at h
      rw [registryCall_eq h, Text.stripPrefix_eq_some hnpm]
      rfl
  | none =>
      rw [hnpm] at h
      cases hjsr : Text.stripPrefix inner "jsr:" with
      | some rest =>
          rw [hjsr] at h
          rw [registryCall_eq h, Text.stripPrefix_eq_some hjsr]
          rfl
      | none =>
          rw [hjsr] at h
          cases h
          rfl

/-- Every call is on a text shorter by the word for the patch. -/
theorem nextSpec_shorter {spec y : String} (h : y ∈ nextSpec spec) :
    y.utf8ByteSize + 6 ≤ spec.utf8ByteSize := by
  rw [nextSpec] at h
  split at h
  · cases h
  · cases hpatch : Text.stripPrefix spec "patch:" with
    | none =>
        rw [hpatch] at h
        cases h
    | some text =>
        have hspec : spec.utf8ByteSize = 6 + text.utf8ByteSize := by
          rw [Text.stripPrefix_eq_some hpatch, String.utf8ByteSize_append]
          rfl
        have hdecoded : (urlDecode (beforeHash text)).utf8ByteSize ≤ text.utf8ByteSize :=
          (utf8ByteSize_urlDecode _).trans (utf8ByteSize_beforeHash _)
        rw [hpatch, Option.bind_eq_bind, Option.bind_some] at h
        dsimp only at h
        split at h
        · cases h
        · cases hlocator : splitPatchLocator (urlDecode (beforeHash text)) with
          | none =>
              rw [hlocator] at h
              cases h
              omega
          | some parts =>
              rw [hlocator] at h
              have hinner := utf8ByteSize_splitPatchLocator hlocator
              rw [locatorCall_eq h]
              omega

/-- How many patches a spec has room for. -/
def patchRoom (spec : String) : Nat := spec.utf8ByteSize / 6

theorem nextSpec_shrinks : SingleCall.Shrinks nextSpec patchRoom := by
  intro spec y hy
  have hless := nextSpec_shorter hy
  simp only [patchRoom]
  omega

theorem patchRoom_lt (spec : String) : patchRoom spec < spec.length + 1 := by
  have hsize := Text.utf8ByteSize_le spec
  simp only [patchRoom]
  omega

end Shorter

section Ends

theorem splitProtocolSpecWithin_eq (fuel : Nat) :
    splitProtocolSpecWithin fuel = SingleCall.within splitBody (fun _ => none) fuel := by
  induction fuel with
  | zero => rfl
  | succ fuel ih =>
      funext spec
      rw [splitProtocolSpecWithin, SingleCall.within, ← ih, splitBody]

theorem splitProtocolSpec_eq : splitProtocolSpec = fun spec =>
    SingleCall.within splitBody (fun _ => none) (spec.length + 1) spec := by
  funext spec
  rw [splitProtocolSpec, splitProtocolSpecWithin_eq]

/-- The length of a spec is fuel enough for all its patches. -/
theorem splitProtocolSpec_solves (spec : String) :
    splitProtocolSpec spec = splitBody splitProtocolSpec spec := by
  have hsolves := SingleCall.within_solves splitBody_asks nextSpec_shrinks (fun _ => none)
    patchRoom_lt spec
  rw [splitProtocolSpec_eq]
  exact hsolves

end Ends

section Encoding

/-- A percent-encoding of bytes: each byte stands for itself, unless it is the
percent sign, or is written as two hexadecimal digits behind a percent sign. -/
inductive PercentEncodes : List UInt8 → List UInt8 → Prop
  | nil : PercentEncodes [] []
  | kept {encoded plain : List UInt8} {byte : UInt8} (hbyte : byte ≠ 37)
      (h : PercentEncodes encoded plain) : PercentEncodes (byte :: encoded) (byte :: plain)
  | escaped {encoded plain : List UInt8} {a b high low : UInt8} (hhigh : hexValue a = some high)
      (hlow : hexValue b = some low) (h : PercentEncodes encoded plain) :
      PercentEncodes (37 :: a :: b :: encoded) ((high * 16 + low) :: plain)

theorem percentDecode_kept {byte : UInt8} (h : byte ≠ 37) (rest : List UInt8) :
    percentDecode (byte :: rest) = byte :: percentDecode rest := by
  rw [percentDecode]
  intro a b rest heq _
  exact h heq

theorem percentDecode_encoded {encoded plain : List UInt8} (h : PercentEncodes encoded plain) :
    percentDecode encoded = plain := by
  induction h with
  | nil => rfl
  | kept hbyte h ih => rw [percentDecode_kept hbyte, ih]
  | escaped hhigh hlow h ih =>
      rw [percentDecode, hhigh, hlow]
      exact congrArg (_ :: ·) ih

/-- A percent-encoding of a text, free of the sign that ends it. -/
structure TextEncodes (encoded text : String) : Prop where
  bytes : PercentEncodes (Text.utf8 encoded) (Text.utf8 text)
  noHash : '#' ∉ encoded.toList

theorem urlDecode_encoded {encoded text : String} (h : TextEncodes encoded text) :
    urlDecode encoded = text := by
  have hbytes : percentDecode encoded.toUTF8.data.toList = Text.utf8 text :=
    percentDecode_encoded h.bytes
  unfold urlDecode
  dsimp only
  rw [hbytes, Text.fromUTF8?_utf8]
  rfl

def hexDigit (n : UInt8) : Char := Char.ofNat (if n < 10 then 48 + n.toNat else 55 + n.toNat)

/-- The bytes that need no escape in a URL. -/
def isUnreserved (byte : UInt8) : Bool :=
  (48 ≤ byte && byte ≤ 57) || (65 ≤ byte && byte ≤ 90) || (97 ≤ byte && byte ≤ 122) ||
    byte ∈ ([45, 46, 95, 126] : List UInt8)

def encodeByte (byte : UInt8) : List Char :=
  if isUnreserved byte then [Char.ofNat byte.toNat]
  else ['%', hexDigit (byte / 16), hexDigit (byte % 16)]

/-- The percent-encoding that keeps the unreserved characters only. -/
def urlEncode (text : String) : String := String.ofList ((Text.utf8 text).flatMap encodeByte)

theorem hexDigit_spec {n : UInt8} (h : n.toNat < 16) : (hexDigit n).toNat < 128 ∧
    hexDigit n ≠ '#' ∧ hexValue (UInt8.ofNat (hexDigit n).toNat) = some n := by
  have hall : ∀ k : Fin 16, (hexDigit (UInt8.ofNat k.val)).toNat < 128 ∧
      hexDigit (UInt8.ofNat k.val) ≠ '#' ∧
      hexValue (UInt8.ofNat (hexDigit (UInt8.ofNat k.val)).toNat) = some (UInt8.ofNat k.val) := by
    decide +kernel
  have hn := hall ⟨n.toNat, h⟩
  rwa [UInt8.ofNat_toNat] at hn

theorem unreserved_spec {byte : UInt8} (h : isUnreserved byte = true) :
    byte.toNat < 128 ∧ byte ≠ 37 ∧ byte.toNat ≠ 35 := by
  simp only [isUnreserved, Bool.or_eq_true, Bool.and_eq_true, decide_eq_true_eq, List.mem_cons,
    List.not_mem_nil, or_false, UInt8.le_iff_toNat_le, ← UInt8.toNat_inj] at h
  simp only [ne_eq, ← UInt8.toNat_inj]
  simp only [UInt8.reduceToNat] at h ⊢
  omega

theorem div_mod_byte (byte : UInt8) : byte / 16 * 16 + byte % 16 = byte := by
  have hlt := byte.toNat_lt
  apply UInt8.toNat_inj.mp
  simp only [UInt8.toNat_add, UInt8.toNat_mul, UInt8.toNat_div, UInt8.toNat_mod,
    UInt8.reduceToNat]
  omega

theorem nibbles_lt (byte : UInt8) : (byte / 16).toNat < 16 ∧ (byte % 16).toNat < 16 := by
  have hlt := byte.toNat_lt
  simp only [UInt8.toNat_div, UInt8.toNat_mod, UInt8.reduceToNat]
  omega

/-- The characters of one byte encode it. -/
theorem encodeByte_encodes {byte : UInt8} {encoded plain : List UInt8}
    (h : PercentEncodes encoded plain) :
    PercentEncodes ((encodeByte byte).flatMap String.utf8EncodeChar ++ encoded) (byte :: plain) := by
  rw [encodeByte]
  cases hkept : isUnreserved byte with
  | true =>
      obtain ⟨hascii, hne, -⟩ := unreserved_spec hkept
      have hnat : (Char.ofNat byte.toNat).toNat = byte.toNat := by
        rw [Char.toNat_ofNat, if_pos (.inl (by omega))]
      rw [if_pos rfl, List.flatMap_singleton, Text.utf8EncodeChar_ascii (by omega), hnat,
        UInt8.ofNat_toNat]
      exact .kept hne h
  | false =>
      have hhigh := hexDigit_spec (nibbles_lt byte).1
      have hlow := hexDigit_spec (nibbles_lt byte).2
      have hescaped := PercentEncodes.escaped hhigh.2.2 hlow.2.2 h
      rw [div_mod_byte] at hescaped
      rw [if_neg Bool.false_ne_true]
      simp only [List.flatMap_cons, List.flatMap_nil, Text.utf8EncodeChar_ascii hhigh.1,
        Text.utf8EncodeChar_ascii hlow.1]
      exact hescaped

theorem hash_not_mem_encodeByte (byte : UInt8) : '#' ∉ encodeByte byte := by
  rw [encodeByte]
  cases hkept : isUnreserved byte with
  | true =>
      obtain ⟨hascii, -, hne⟩ := unreserved_spec hkept
      have hnat : (Char.ofNat byte.toNat).toNat = byte.toNat := by
        rw [Char.toNat_ofNat, if_pos (.inl (by omega))]
      rw [if_pos rfl, List.mem_singleton]
      intro heq
      rw [← heq] at hnat
      exact hne hnat.symm
  | false =>
      have hhigh := (hexDigit_spec (nibbles_lt byte).1).2.1
      have hlow := (hexDigit_spec (nibbles_lt byte).2).2.1
      rw [if_neg Bool.false_ne_true]
      simp only [List.mem_cons, List.not_mem_nil, or_false, not_or]
      exact ⟨by decide, hhigh.symm, hlow.symm⟩

theorem flatMap_encodeByte (bytes : List UInt8) :
    PercentEncodes ((bytes.flatMap encodeByte).flatMap String.utf8EncodeChar) bytes := by
  induction bytes with
  | nil => exact .nil
  | cons byte bytes ih =>
      rw [List.flatMap_cons, List.flatMap_append]
      exact encodeByte_encodes ih

/-- Every text has a percent-encoding. -/
theorem urlEncode_encodes (text : String) : TextEncodes (urlEncode text) text := by
  constructor
  · rw [urlEncode, Text.utf8_ofList]
    exact flatMap_encodeByte _
  · rw [urlEncode, String.toList_ofList, List.mem_flatMap]
    intro hmem
    obtain ⟨byte, _, hbyte⟩ := hmem
    exact hash_not_mem_encodeByte byte hbyte

end Encoding

section Locators

variable {n r : String}

/-- What a patch is for: a name at a range of the registry. -/
def npmLocator (n r : String) : String := n ++ String.singleton '@' ++ ("npm:" ++ r)

theorem beforeHash_append {encoded suffix : String} (h : '#' ∉ encoded.toList)
    (hsuffix : suffix = "" ∨ suffix.toList.head? = some '#') :
    beforeHash (encoded ++ suffix) = encoded := by
  rw [beforeHash]
  cases hsuffix with
  | inl hempty =>
      rw [hempty, String.append_empty, Text.splitOnce_eq_none_iff.mpr h]
      rfl
  | inr hhash =>
      have htext : encoded ++ suffix =
          encoded ++ String.singleton '#' ++ String.ofList suffix.toList.tail := by
        rw [← String.toList_inj]
        cases hcs : suffix.toList with
        | nil =>
            rw [hcs] at hhash
            cases hhash
        | cons c cs =>
            rw [hcs] at hhash
            cases hhash
            simp [hcs]
      rw [htext, Text.splitOnce_append _ _ h]
      rfl

theorem startsWith_at_iff {text : String} :
    Text.startsWith text "@" = true ↔ text.toList.head? = some '@' := by
  have hat : "@".toList = ['@'] := by decide
  rw [Text.startsWith, hat]
  cases text.toList with
  | nil => exact iff_of_false Bool.false_ne_true (by simp)
  | cons c cs =>
      simp only [List.isPrefixOf, Bool.and_true, beq_iff_eq, List.head?_cons, Option.some.injEq]
      exact eq_comm

/-- The at sign of a scope is no separator of the locator. -/
theorem splitPatchLocator_name (h : ValidName n.toList) {inner : String} (hne : inner ≠ "") :
    splitPatchLocator (n ++ String.singleton '@' ++ inner) = some (n, inner) := by
  have hhead : ∀ rest : String, (n ++ rest).toList.head? = n.toList.head? := by
    intro rest
    rw [String.toList_append, List.head?_append_of_ne_nil]
    exact fun hnil => validName_ne_empty h (String.toList_inj.mp hnil)
  have hgoal : (if n = "" ∨ inner = "" then none else some (n, inner)) = some (n, inner) :=
    if_neg fun hempty => hempty.elim (validName_ne_empty h) hne
  simp only [splitPatchLocator]
  by_cases hscoped : IsScoped n
  · obtain ⟨scope, base, hn, hscope, hbase⟩ := scoped_parts h hscoped
    have hstarts : Text.startsWith (n ++ String.singleton '@' ++ inner) "@" = true := by
      rw [startsWith_at_iff, String.append_assoc, hhead]
      exact hscoped
    have hname : n = String.ofList ('@' :: scope) ++ "/" ++ String.ofList base := by
      rw [← String.toList_inj, hn]
      simp
    have htext : n ++ String.singleton '@' ++ inner = String.ofList ('@' :: scope) ++
        String.singleton '/' ++ (String.ofList base ++ String.singleton '@' ++ inner) := by
      rw [← String.toList_inj]
      simp [hn]
    have hslash : '/' ∉ (String.ofList ('@' :: scope)).toList := by
      rw [String.toList_ofList, List.mem_cons, not_or]
      exact ⟨by decide, not_mem_of_safe hscope (by decide)⟩
    have hat : '@' ∉ (String.ofList base).toList := by
      rw [String.toList_ofList]
      exact not_mem_of_safe hbase (by decide)
    rw [hstarts, if_pos rfl, htext, Text.splitOnce_append _ _ hslash]
    simp only [Option.bind_eq_bind, Option.bind_some]
    rw [Text.splitOnce_append _ _ hat]
    dsimp only [Option.bind_some]
    rw [← hname]
    exact hgoal
  · have hstarts : Text.startsWith (n ++ String.singleton '@' ++ inner) "@" = false := by
      rw [Bool.eq_false_iff, ne_eq, startsWith_at_iff, String.append_assoc, hhead]
      exact hscoped
    have hat : '@' ∉ n.toList := not_mem_of_safe (unscoped_safe h hscoped) (by decide)
    rw [hstarts, if_neg Bool.false_ne_true, Text.splitOnce_append _ _ hat]
    exact hgoal

theorem splitPatchLocatorSpec_npm {again : String → Option DepRequest}
    (hr : r ≠ "" → hasNoNameChars r = true) :
    splitPatchLocatorSpec again n ("npm:" ++ r) = ⟨n, if r = "" then "latest" else r, .npm⟩ := by
  rw [splitPatchLocatorSpec, Text.stripPrefix_append]
  dsimp only
  rw [splitPatchRegistryTarget]
  by_cases hempty : r = ""
  · rw [if_pos hempty, if_pos hempty]
  · rw [if_neg hempty, if_neg hempty, if_pos (hr hempty)]

/-- A patch of a name at a range denotes the name and the range, and the latest
version where the range is empty. -/
theorem splitProtocolSpec_patch (hn : ValidName n.toList)
    (hr : '@' ∉ r.toList ∧ '/' ∉ r.toList ∧ ':' ∉ r.toList) {encoded suffix : String}
    (hencoded : TextEncodes encoded (npmLocator n r))
    (hsuffix : suffix = "" ∨ suffix.toList.head? = some '#') :
    splitProtocolSpec ("patch:" ++ (encoded ++ suffix)) =
      some ⟨n, if r = "" then "latest" else r, .npm⟩ := by
  have hhead : ("patch:" ++ (encoded ++ suffix)).toList.head? = some 'p' := by simp
  have hhosted : looksLikeHostedGitUrl ("patch:" ++ (encoded ++ suffix)) = false := by
    apply looksLikeHostedGitUrl_head
    rw [Text.trim_head hhead (by decide)]
    decide
  have hdecoded := urlDecode_encoded hencoded
  have hlocator : splitPatchLocator (npmLocator n r) = some (n, "npm:" ++ r) := by
    apply splitPatchLocator_name hn
    intro hempty
    have hlength := congrArg String.length hempty
    rw [String.length_append] at hlength
    exact absurd hlength (by simp)
  have hne : encoded ≠ "" := by
    intro hempty
    have hnothing : npmLocator n r = "" := by
      rw [← hdecoded, hempty]
      decide
    have hnone : splitPatchLocator "" = none := by decide
    rw [hnothing, hnone] at hlocator
    cases hlocator
  have hrange : r ≠ "" → hasNoNameChars r = true :=
    fun hr' => hasNoNameChars_iff.mpr ⟨hr', hr⟩
  rw [splitProtocolSpec_solves, splitBody, hhosted, if_neg Bool.false_ne_true,
    splitPatchProtocolSpec, Text.stripPrefix_append, Option.bind_eq_bind, Option.bind_some,
    beforeHash_append hencoded.noHash hsuffix, if_neg hne]
  dsimp only
  rw [hdecoded, hlocator]
  dsimp only
  rw [splitPatchLocatorSpec_npm hrange, Option.some_or]

/-- The split ends, its equation determines it, and it takes the name and the
range out of an encoded patch; `rangeOf` is what it makes of the range. -/
structure SplitsPatches (rangeOf : String → String) : Prop where
  asks : SingleCall.AsksNext splitBody nextSpec
  ends : WellFounded (SingleCall.Calls nextSpec)
  solves : ∀ spec, splitProtocolSpec spec = splitBody splitProtocolSpec spec
  unique : ∀ split : String → Option DepRequest, (∀ spec, split spec = splitBody split spec) →
    ∀ spec, split spec = splitProtocolSpec spec
  patch : ∀ n r encoded suffix : String, ValidName n.toList →
    '@' ∉ r.toList ∧ '/' ∉ r.toList ∧ ':' ∉ r.toList → TextEncodes encoded (npmLocator n r) →
    (suffix = "" ∨ suffix.toList.head? = some '#') →
    splitProtocolSpec ("patch:" ++ (encoded ++ suffix)) = some ⟨n, rangeOf r, .npm⟩

end Locators

end Snpm.Resolve
