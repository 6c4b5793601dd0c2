import Mathlib
import Snpm.Library.SeqParts
import Snpm.Semver
import Snpm.Resolve.Query
import Snpm.Store.Naming

/-!
The two readings of an alias: the resolver splits it into a name and a range,
and the range reader takes the range out of it. They look for the at sign in
different places.
-/
namespace Snpm.Resolve

open Store (ValidName isUrlSafe not_mem_of_safe)

section Names

variable {n : String}

def IsScoped (n : String) : Prop := n.toList.head? = some '@'

/-- The parts of a valid name with a scope. -/
theorem scoped_parts (h : ValidName n.toList) (hscoped : IsScoped n) :
    ∃ scope base : List Char, n.toList = '@' :: (scope ++ '/' :: base) ∧
      (∀ c ∈ scope, isUrlSafe c = true) ∧ ∀ c ∈ base, isUrlSafe c = true := by
  generalize hcs : n.toList = cs at h
  cases h with
  | bare hne hsafe hhead =>
      rw [IsScoped, hcs] at hscoped
      have hat := hsafe '@' (List.mem_of_mem_head? hscoped)
      exact absurd hat (by decide)
  | @inScope scope base hne hscope hbase => exact ⟨scope, base, rfl, hscope, hbase⟩

theorem unscoped_safe (h : ValidName n.toList) (hscoped : ¬ IsScoped n) :
    ∀ c ∈ n.toList, isUrlSafe c = true := by
  generalize hcs : n.toList = cs at h
  cases h with
  | bare hne hsafe hhead => exact hsafe
  | inScope => exact absurd (by rw [IsScoped, hcs]; rfl) hscoped

theorem validName_ne_empty (h : ValidName n.toList) : n ≠ "" := by
  intro hempty
  rw [hempty] at h
  generalize hcs : "".toList = cs at h
  cases h with
  | bare hne => exact hne hcs.symm
  | inScope => cases hcs

/-- A character that is no at sign, no slash and not safe is in no name. -/
theorem validName_not_mem (h : ValidName n.toList) {c : Char} (hc : isUrlSafe c = false)
    (hat : c ≠ '@') (hslash : c ≠ '/') : c ∉ n.toList := by
  generalize hcs : n.toList = cs at h
  cases h with
  | bare hne hsafe hhead => exact not_mem_of_safe hsafe hc
  | inScope hne hscope hbase =>
      intro hmem
      simp only [List.mem_cons, List.mem_append] at hmem
      rcases hmem with heq | hscoped | heq | hbased
      · exact hat heq
      · exact not_mem_of_safe hscope hc hscoped
      · exact hslash heq
      · exact not_mem_of_safe hbase hc hbased

theorem safe_not_whitespace {c : Char} (h : isUrlSafe c = true) : Text.isWhitespace c = false := by
  unfold isUrlSafe at h
  rw [Bool.or_eq_true] at h
  cases h with
  | inl halpha =>
      have hcode : 48 ≤ c.toNat ∧ c.toNat ≤ 122 := by
        have hval : c.toNat = c.val.toNat := rfl
        simp [Char.isAlphanum, Char.isAlpha, Char.isUpper, Char.isLower, Char.isDigit,
          UInt32.le_iff_toNat_le] at halpha
        omega
      simp only [Text.isWhitespace, Bool.or_eq_false_iff, Bool.and_eq_false_iff,
        decide_eq_false_iff_not, beq_eq_false_iff_ne]
      omega
  | inr hmem =>
      simp only [decide_eq_true_eq, List.mem_cons, List.not_mem_nil, or_false] at hmem
      rcases hmem with rfl | rfl | rfl | rfl | rfl | rfl | rfl | rfl | rfl
      all_goals decide

theorem validName_tight (h : ValidName n.toList) : Text.Tight n := by
  have hall : ∀ c ∈ n.toList, Text.isWhitespace c = false := by
    intro c hc
    cases hspace : Text.isWhitespace c with
    | false => rfl
    | true =>
        have hsafe : isUrlSafe c = false := by
          rw [Bool.eq_false_iff]
          intro hsafe
          rw [safe_not_whitespace hsafe] at hspace
          cases hspace
        have hne : ∀ d, Text.isWhitespace d = false → c ≠ d := by
          intro d hd heq
          rw [heq, hd] at hspace
          cases hspace
        exact absurd hc (validName_not_mem h hsafe (hne '@' (by decide)) (hne '/' (by decide)))
  exact ⟨fun c hc => hall c (List.mem_of_mem_head? hc), fun c hc => hall c (List.mem_of_mem_getLast? hc)⟩

end Names

section Split

variable {n r : String}

/-- The texts of an alias: a name, and a range behind an at sign. -/
def aliasTarget (n : String) : Option String → String
  | none => n
  | some range => n ++ String.singleton '@' ++ range

def aliasSpec (n : String) (r : Option String) : String := "npm:" ++ aliasTarget n r

/-- The address of a hosted repository starts with the name of its transport. -/
theorem looksLikeHostedGitUrl_head {spec : String}
    (h : (Text.trim spec).toList.head? ≠ some 'h') : looksLikeHostedGitUrl spec = false := by
  have hhost : ∀ host : String, host.toList.head? = some 'h' → host ≠ "" →
      matchesHostedGitUrl spec host = false := by
    intro host hhost hne
    have hnone : Text.stripPrefix (Text.trim spec) host = none := by
      apply Text.stripPrefix_eq_none _ hne
      rw [hhost]
      exact h
    rw [matchesHostedGitUrl, hnone]
  rw [looksLikeHostedGitUrl, hhost _ (by decide) (by decide), hhost _ (by decide) (by decide),
    hhost _ (by decide) (by decide)]
  rfl

/-- A spec of the registry is no patch and no hosted repository. -/
theorem splitProtocolSpec_npm {rest : String} (h : rest ≠ "") :
    splitProtocolSpec ("npm:" ++ rest) = some (splitRegistryTarget .npm rest) := by
  have hhead : ("npm:" ++ rest).toList.head? = some 'n' := by simp
  have hgit : looksLikeHostedGitUrl ("npm:" ++ rest) = false := by
    apply looksLikeHostedGitUrl_head
    rw [Text.trim_head hhead (by decide)]
    decide
  have hpatch : Text.stripPrefix ("npm:" ++ rest) "patch:" = none := by
    apply Text.stripPrefix_eq_none _ (by decide)
    rw [hhead]
    decide
  have hcolon : Text.splitOnce ("npm:" ++ rest) (· = ':') = some ("npm", rest) := by
    have hsplit := Text.splitOnce_append (c := ':') "npm" rest (by decide)
    exact hsplit
  unfold splitProtocolSpec splitProtocolSpecWithin
  rw [hgit, if_neg Bool.false_ne_true]
  unfold splitPatchProtocolSpec splitSchemeSpec
  rw [hpatch, hcolon]
  simp [h, isGitProtocolPrefix, schemeProtocol, RegistryProtocol.npm, RegistryProtocol.file]

theorem aliasTarget_ne_empty (h : ValidName n.toList) (range : Option String) :
    aliasTarget n range ≠ "" := by
  cases range with
  | none => exact validName_ne_empty h
  | some range =>
      intro hempty
      have hmem : '@' ∈ (aliasTarget n (some range)).toList := by simp [aliasTarget]
      rw [hempty] at hmem
      cases hmem

/-- A name with a range is split at the at sign between them exactly if the range
has none. -/
theorem splitRegistryTarget_range_iff (h : ValidName n.toList) (hr : r ≠ "") :
    splitRegistryTarget .npm (aliasTarget n (some r)) = ⟨n, r, .npm⟩ ↔ '@' ∉ r.toList := by
  constructor
  · intro heq hat
    cases hsplit : Text.rsplitOnce (aliasTarget n (some r)) (· = '@') with
    | none =>
        unfold splitRegistryTarget at heq
        rw [hsplit] at heq
        have hrange : "latest" = r := congrArg DepRequest.range heq
        rw [← hrange] at hat
        exact absurd hat (by decide)
    | some parts =>
        obtain ⟨name, version⟩ := parts
        have hfree := (Text.rsplitOnce_eq_some hsplit).2
        unfold splitRegistryTarget at heq
        rw [hsplit] at heq
        have hrange : (if version = "" then "latest" else version) = r :=
          congrArg DepRequest.range heq
        split at hrange
        · rw [← hrange] at hat
          exact absurd hat (by decide)
        · rw [← hrange] at hat
          exact hfree hat
  · intro hfree
    unfold splitRegistryTarget
    rw [aliasTarget, Text.rsplitOnce_append _ _ _ hfree]
    dsimp only
    rw [if_neg (validName_ne_empty h), if_neg hr]

/-- A name alone is read so exactly if it has no scope. -/
theorem splitRegistryTarget_name_iff (h : ValidName n.toList) :
    splitRegistryTarget .npm (aliasTarget n none) = ⟨n, "latest", .npm⟩ ↔ ¬ IsScoped n := by
  constructor
  · intro heq hscoped
    obtain ⟨scope, base, hn, hscope, hbase⟩ := scoped_parts h hscoped
    have hfree : '@' ∉ (String.ofList (scope ++ '/' :: base)).toList := by
      rw [String.toList_ofList, List.mem_append, List.mem_cons]
      intro hmem
      rcases hmem with hmem | heq | hmem
      · exact not_mem_of_safe hscope (by decide) hmem
      · exact absurd heq (by decide)
      · exact not_mem_of_safe hbase (by decide) hmem
    have htext : n = "" ++ String.singleton '@' ++ String.ofList (scope ++ '/' :: base) := by
      rw [← String.toList_inj, hn]
      simp
    unfold splitRegistryTarget at heq
    rw [aliasTarget, htext, Text.rsplitOnce_append _ _ _ hfree] at heq
    have hrange : (if String.ofList (scope ++ '/' :: base) = "" then "latest"
        else String.ofList (scope ++ '/' :: base)) = "latest" := congrArg DepRequest.range heq
    -- The name without its at sign is taken for the range.
    have hslash : '/' ∈ (String.ofList (scope ++ '/' :: base)).toList := by simp
    split at hrange
    · rename_i hempty
      rw [hempty] at hslash
      cases hslash
    · rw [hrange] at hslash
      exact absurd hslash (by decide)
  · intro hscoped
    have hfree : '@' ∉ n.toList := not_mem_of_safe (unscoped_safe h hscoped) (by decide)
    unfold splitRegistryTarget
    rw [aliasTarget, Text.rsplitOnce_eq_none hfree]

end Split

section Range

variable {n r : String}

/-- A range is a text of its own, no alias. -/
structure PlainRange (r : String) : Prop where
  given : r ≠ ""
  npm : Text.startsWith (Text.trim r) "npm:" = false
  jsr : Text.startsWith (Text.trim r) "jsr:" = false

/-- A range text admits a version. -/
def RangeMatches (S : SemverCrate) (range : String) (v : S.Version) : Prop :=
  ∃ set, RangeSet.parse S range = .ok set ∧ set.contains v = true

/-- The requirement texts of the text that is split. -/
def sourceTexts (source : String) : List String :=
  let texts := (Text.splitSeq source "||").filterMap fun part =>
    let normalized := normalizePart part
    if normalized = "" then none else some (adjustNodeDefault normalized)
  if texts = [] then ["*"] else texts

theorem requirementTexts_eq (range : String) :
    requirementTexts range = sourceTexts (rangeSource range) := rfl

theorem rangeMatches_congr {S : SemverCrate} {range other : String} {v : S.Version}
    (h : requirementTexts range = requirementTexts other) :
    RangeMatches S range v ↔ RangeMatches S other v := by
  unfold RangeMatches RangeSet.parse
  rw [h]
  cases hranges : (requirementTexts other).mapM S.parseReq with
  | error message =>
      constructor
      · exact fun h => nomatch h.choose_spec.1
      · exact fun h => nomatch h.choose_spec.1
  | ok ranges =>
      have hboth : ∀ text, (∃ set, (.ok ⟨text, ranges⟩ : Except String (RangeSet S)) = .ok set ∧
          set.contains v = true) ↔ ranges.any (fun range => S.reqMatches range v) = true := by
        intro text
        constructor
        · intro h
          obtain ⟨set, hset, hcontains⟩ := h
          cases hset
          exact hcontains
        · intro h
          exact ⟨⟨text, ranges⟩, rfl, h⟩
      exact (hboth range).trans (hboth other).symm

/-- The range behind the at sign that follows the scope. -/
theorem extractVersionRange_range (h : ValidName n.toList) (hr : '@' ∉ r.toList) :
    extractVersionRange (aliasTarget n (some r)) =
      if Text.trim r = "" then "*" else Text.trim r := by
  unfold extractVersionRange
  by_cases hscoped : IsScoped n
  · obtain ⟨scope, base, hn, hscope, hbase⟩ := scoped_parts h hscoped
    have htext : aliasTarget n (some r) = String.ofList ('@' :: scope) ++ String.singleton '/' ++
        (String.ofList base ++ String.singleton '@' ++ r) := by
      rw [← String.toList_inj]
      simp [aliasTarget, hn]
    have hstarts : Text.startsWith (aliasTarget n (some r)) "@" = true := by
      simp [Text.startsWith, aliasTarget, hn]
    have hslash : '/' ∉ (String.ofList ('@' :: scope)).toList := by
      rw [String.toList_ofList, List.mem_cons]
      intro hmem
      cases hmem with
      | inl heq => exact absurd heq (by decide)
      | inr hmem => exact not_mem_of_safe hscope (by decide) hmem
    rw [if_pos hstarts, htext, Text.splitOnce_append _ _ hslash]
    dsimp only
    rw [Text.rsplitOnce_append _ _ _ hr]
  · have hat : '@' ∉ n.toList := not_mem_of_safe (unscoped_safe h hscoped) (by decide)
    have hstarts : Text.startsWith (aliasTarget n (some r)) "@" = false := by
      cases hcs : n.toList with
      | nil => exact absurd (String.toList_inj.mp hcs) (validName_ne_empty h)
      | cons c cs =>
          have hne : c ≠ '@' := by
            intro heq
            rw [hcs, heq] at hat
            exact hat List.mem_cons_self
          simp [Text.startsWith, aliasTarget, hcs, List.isPrefixOf, Ne.symm hne]
    rw [hstarts, if_neg Bool.false_ne_true]
    dsimp only
    rw [aliasTarget, Text.rsplitOnce_append _ _ _ hr]

/-- What is split for an alias is what follows its colon. -/
theorem rangeSource_npm {rest : String} :
    rangeSource ("npm:" ++ rest) = extractVersionRange (Text.trimEnd rest) := by
  have hspace : ∀ c ∈ ("npm:" ++ rest).toList.head?, Text.isWhitespace c = false := by
    intro c hc
    have heq : c = 'n' := by simpa using hc.symm
    rw [heq]
    decide
  have htrim : Text.trim ("npm:" ++ rest) = "npm:" ++ Text.trimEnd rest := by
    rw [Text.trim_eq_trimEnd hspace, Text.trimEnd_append ⟨':', by decide, by decide⟩]
  have hne : ∀ other : String, other.toList.head? ≠ some 'n' →
      "npm:" ++ Text.trimEnd rest ≠ other := by
    intro other hother heq
    rw [← heq] at hother
    exact hother (by simp)
  have hstarts : Text.startsWith ("npm:" ++ Text.trimEnd rest) "npm:" = true := by
    simp [Text.startsWith]
  have hcolon : Text.splitOnce ("npm:" ++ Text.trimEnd rest) (· = ':') =
      some ("npm", Text.trimEnd rest) :=
    Text.splitOnce_append (c := ':') "npm" (Text.trimEnd rest) (by decide)
  have hbool : ¬ (decide ("npm:" ++ Text.trimEnd rest = "") ||
      decide ("npm:" ++ Text.trimEnd rest = "latest")) = true := by
    rw [Bool.or_eq_true, decide_eq_true_eq, decide_eq_true_eq]
    intro hother
    cases hother with
    | inl hempty => exact hne "" (by decide) hempty
    | inr hlatest => exact hne "latest" (by decide) hlatest
  unfold rangeSource
  rw [htrim]
  dsimp only
  rw [if_neg hbool, hstarts, Bool.true_or, if_pos rfl, hcolon]

theorem rangeSource_plain (h : PlainRange r) :
    rangeSource r = if Text.trim r = "" ∨ Text.trim r = "latest" then "*" else Text.trim r := by
  unfold rangeSource
  dsimp only
  by_cases hdefault : Text.trim r = "" ∨ Text.trim r = "latest"
  · have hbool : (decide (Text.trim r = "") || decide (Text.trim r = "latest")) = true := by
      simpa using hdefault
    rw [if_pos hbool, if_pos hdefault]
    decide
  · have hbool : ¬ (decide (Text.trim r = "") || decide (Text.trim r = "latest")) = true := by
      simpa using hdefault
    rw [if_neg hbool, if_neg hdefault, h.npm, h.jsr]
    rfl

/-- The two readings split the same alternatives. -/
theorem requirementTexts_alias (h : ValidName n.toList) (hr : PlainRange r)
    (hfree : '@' ∉ r.toList) :
    requirementTexts (aliasSpec n (some r)) = requirementTexts r := by
  have htarget : Text.trimEnd (aliasTarget n (some r)) = aliasTarget n (some (Text.trimEnd r)) := by
    have hlast : ∃ c ∈ (n ++ String.singleton '@').toList.getLast?, Text.isWhitespace c = false :=
      ⟨'@', by simp, by decide⟩
    exact Text.trimEnd_append hlast
  have hlatest : sourceTexts "latest" = sourceTexts "*" := by decide
  rw [requirementTexts_eq, requirementTexts_eq, aliasSpec, rangeSource_npm, htarget,
    extractVersionRange_range h fun hmem => hfree (Text.mem_of_mem_trimEnd hmem),
    Text.trim_trimEnd, rangeSource_plain hr]
  by_cases hempty : Text.trim r = ""
  · rw [if_pos hempty, if_pos (.inl hempty)]
  · rw [if_neg hempty]
    by_cases hdefault : Text.trim r = "latest"
    · rw [if_pos (.inr hdefault), hdefault, hlatest]
    · rw [if_neg fun h => h.elim hempty hdefault]

theorem requirementTexts_name (h : ValidName n.toList) (hscoped : ¬ IsScoped n) :
    requirementTexts (aliasSpec n none) = requirementTexts "latest" := by
  have hat : '@' ∉ n.toList := not_mem_of_safe (unscoped_safe h hscoped) (by decide)
  have htrim : Text.trimEnd n = n := by
    rw [← Text.trim_eq_trimEnd (validName_tight h).first, (validName_tight h).trim_eq]
  have hextract : extractVersionRange n = "*" := by
    unfold extractVersionRange
    have hstarts : Text.startsWith n "@" = false := by
      cases hcs : n.toList with
      | nil => exact absurd (String.toList_inj.mp hcs) (validName_ne_empty h)
      | cons c cs =>
          have hne : c ≠ '@' := by
            intro heq
            rw [hcs, heq] at hat
            exact hat List.mem_cons_self
          simp [Text.startsWith, hcs, List.isPrefixOf, Ne.symm hne]
    rw [hstarts, if_neg Bool.false_ne_true]
    dsimp only
    rw [Text.rsplitOnce_eq_none hat]
  have hsource : rangeSource (aliasSpec n none) = "*" := by
    rw [aliasSpec, rangeSource_npm, aliasTarget, htrim, hextract]
  rw [requirementTexts_eq, requirementTexts_eq, hsource]
  decide

end Range

section Agreement

variable {n : String}

/-- The resolver takes the name and the range out of an alias, and the range
reader admits the versions of this range. -/
structure AliasAgrees (n : String) (r : Option String) : Prop where
  split : splitProtocolSpec (aliasSpec n r) = some ⟨n, r.getD "latest", .npm⟩
  range : ∀ (S : SemverCrate) (v : S.Version),
    RangeMatches S (aliasSpec n r) v ↔ RangeMatches S (r.getD "latest") v

/-- The two readings agree exactly if a name with a scope stands with a range, and
the range has no at sign. -/
theorem alias_agrees_iff (h : ValidName n.toList) (r : Option String)
    (hr : ∀ range ∈ r, PlainRange range) :
    AliasAgrees n r ↔ (r = none → ¬ IsScoped n) ∧ ∀ range ∈ r, '@' ∉ range.toList := by
  cases r with
  | none =>
      constructor
      · intro hagrees
        have hsplit := hagrees.split
        rw [aliasSpec, splitProtocolSpec_npm (aliasTarget_ne_empty h none), Option.some.injEq]
          at hsplit
        exact ⟨fun _ => (splitRegistryTarget_name_iff h).mp hsplit, by simp⟩
      · intro hcond
        have hscoped := hcond.1 rfl
        refine ⟨?_, fun S v => rangeMatches_congr (requirementTexts_name h hscoped)⟩
        rw [aliasSpec, splitProtocolSpec_npm (aliasTarget_ne_empty h none)]
        exact congrArg some ((splitRegistryTarget_name_iff h).mpr hscoped)
  | some range =>
      have hplain := hr range rfl
      constructor
      · intro hagrees
        have hsplit := hagrees.split
        rw [aliasSpec, splitProtocolSpec_npm (aliasTarget_ne_empty h _), Option.some.injEq]
          at hsplit
        refine ⟨by simp, ?_⟩
        intro other hother
        cases hother
        exact (splitRegistryTarget_range_iff h hplain.given).mp hsplit
      · intro hcond
        have hfree := hcond.2 range rfl
        refine ⟨?_, fun S v => rangeMatches_congr (requirementTexts_alias h hplain hfree)⟩
        rw [aliasSpec, splitProtocolSpec_npm (aliasTarget_ne_empty h _)]
        exact congrArg some ((splitRegistryTarget_range_iff h hplain.given).mpr hfree)

theorem lodash_alias_agrees : AliasAgrees "lodash" (some "^4.0.0") := by
  have hname : ValidName "lodash".toList :=
    .bare (by decide) (List.all_eq_true.mp (by decide)) (by decide)
  refine (alias_agrees_iff hname _ ?_).mpr ⟨(fun hnone => nomatch hnone), ?_⟩
  · intro range hrange
    cases hrange
    exact ⟨by decide, by decide, by decide⟩
  · intro range hrange
    cases hrange
    decide

/-- The name of an alias with a scope and no range is taken for its range. -/
theorem scoped_alias_disagrees :
    splitProtocolSpec (aliasSpec "@scope/pkg" none) = some ⟨"@scope/pkg", "scope/pkg", .npm⟩ ∧
      requirementTexts (aliasSpec "@scope/pkg" none) = ["*"] ∧
      requirementTexts "scope/pkg" = ["scope/pkg"] ∧ ¬ AliasAgrees "@scope/pkg" none := by
  have hsplit : splitProtocolSpec (aliasSpec "@scope/pkg" none) =
      some ⟨"@scope/pkg", "scope/pkg", .npm⟩ := by decide +kernel
  refine ⟨hsplit, by decide +kernel, by decide +kernel, ?_⟩
  intro hagrees
  have heq := hsplit.symm.trans hagrees.split
  exact absurd heq (by decide)

end Agreement

end Snpm.Resolve
