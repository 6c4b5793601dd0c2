import Mathlib
import Snpm.Resolve.Alias

/-!
What stands behind `npm:` alone: the name of another package, or a range for
the name on the left. The request tells the two apart by the first character.
-/
namespace Snpm.Resolve

open Store (ValidName isUrlSafe not_mem_of_safe)

variable {declared name target : String}

/-- A valid name is a package at its latest version, and every other text is a
range for the declared name. -/
structure TargetMeant (declared target : String) (request : DepRequest) : Prop where
  name : ValidName target.toList → request = ⟨target, "latest", .npm⟩
  range : ¬ ValidName target.toList → request = ⟨declared, target, .npm⟩

/-- The first character of a range, as the request looks for it. -/
def StartsRange (target : String) : Prop :=
  ∃ c ∈ target.toList.head?,
    (Text.isAsciiDigit c || c ∈ ['^', '~', '=', '>', '<', '*', 'x', 'X']) = true

/-- A name that has no scope and does not start as a range, or a text of no name
character that does. -/
structure TargetTold (target : String) : Prop where
  name : ValidName target.toList → ¬ IsScoped target ∧ ¬ StartsRange target
  range : ¬ ValidName target.toList → hasNoNameChars target = true ∧ StartsRange target

theorem latest_starts_no_range : ¬ StartsRange "latest" := by
  intro hstarts
  obtain ⟨c, hc, hsigil⟩ := hstarts
  have heq : c = 'l' := by simpa using hc.symm
  rw [heq] at hsigil
  exact absurd hsigil (by decide)

theorem looksLikeRegistryRange_iff :
    looksLikeRegistryRange target = true ↔ hasNoNameChars target = true ∧ StartsRange target := by
  rw [looksLikeRegistryRange, Bool.and_eq_true, StartsRange]
  cases target.toList.head? with
  | none => simp
  | some c => simp

theorem hasNoNameChars_iff :
    hasNoNameChars target = true ↔
      target ≠ "" ∧ '@' ∉ target.toList ∧ '/' ∉ target.toList ∧ ':' ∉ target.toList := by
  simp only [hasNoNameChars, Text.containsChar, Bool.and_eq_true, decide_eq_true_eq,
    Bool.not_eq_true', List.any_eq_false, Bool.or_eq_true, not_or]
  constructor
  · intro h
    exact ⟨h.1, fun hmem => (h.2 _ hmem).1.1 rfl, fun hmem => (h.2 _ hmem).1.2 rfl,
      fun hmem => (h.2 _ hmem).2 rfl⟩
  · intro h
    refine ⟨h.1, fun c hc => ⟨⟨?_, ?_⟩, ?_⟩⟩
    · intro heq
      exact h.2.1 (heq ▸ hc)
    · intro heq
      exact h.2.2.1 (heq ▸ hc)
    · intro heq
      exact h.2.2.2 (heq ▸ hc)

/-- A valid name has the characters of a range exactly if it has no scope. -/
theorem hasNoNameChars_name_iff (h : ValidName name.toList) :
    hasNoNameChars name = true ↔ ¬ IsScoped name := by
  rw [hasNoNameChars_iff]
  constructor
  · intro hfree hscoped
    exact hfree.2.1 (List.mem_of_mem_head? hscoped)
  · intro hscoped
    have hsafe := unscoped_safe h hscoped
    exact ⟨validName_ne_empty h, not_mem_of_safe hsafe (by decide),
      not_mem_of_safe hsafe (by decide), not_mem_of_safe hsafe (by decide)⟩

section Request

variable {protocol : RegistryProtocol} {sources : Option (BTreeMap String String)}

/-- The request behind `npm:`, by what stands there. -/
def npmRequest (declared target : String) : DepRequest :=
  if target = "" then ⟨declared, "latest", .npm⟩
  else if looksLikeRegistryRange target then ⟨declared, target, .npm⟩
  else splitRegistryTarget .npm target

theorem stripPrefix_npm (prefixed : String) (h : prefixed.toList.head? ≠ some 'n')
    (hne : prefixed ≠ "") : Text.stripPrefix ("npm:" ++ target) prefixed = none := by
  apply Text.stripPrefix_eq_none _ hne
  simpa using h.symm

theorem requestOf_npm : requestOf declared ("npm:" ++ target) protocol sources =
    npmRequest declared target := by
  have hlocal : resolveLocalWorkspaceSource declared ("npm:" ++ target) sources = none := by
    have hstarts : Text.startsWith ("npm:" ++ target) "workspace:" = false := by
      simp [Text.startsWith, List.isPrefixOf]
    rw [resolveLocalWorkspaceSource, hstarts, if_neg Bool.false_ne_true]
  have hworkspace : splitWorkspaceSpec ("npm:" ++ target) = none := by
    rw [splitWorkspaceSpec, stripPrefix_npm "workspace:" (by decide) (by decide), Option.map_none]
  have hnpm : Text.stripPrefix ("npm:" ++ target) "npm:" = some target :=
    Text.stripPrefix_append _ _
  have hjsr : Text.stripPrefix ("npm:" ++ target) "jsr:" = none :=
    stripPrefix_npm "jsr:" (by decide) (by decide)
  have hpackageLess : splitPackageLessRegistrySpec ("npm:" ++ target) =
      (packageLessRange target).map fun range => (.npm, range) := by
    rw [splitPackageLessRegistrySpec, hnpm, hjsr, Option.bind_some, Option.bind_none,
      Option.map_none, Option.or_none]
  rw [requestOf, hlocal, hworkspace, hpackageLess, npmRequest, packageLessRange]
  by_cases hempty : target = ""
  · rw [if_pos hempty, if_pos hempty]
    rfl
  · rw [if_neg hempty, if_neg hempty]
    cases hlooks : looksLikeRegistryRange target with
    | true => rfl
    | false =>
        dsimp only [Bool.false_eq_true, if_false, Option.map_none]
        rw [splitProtocolSpec_npm hempty]
        rfl

theorem npmRequest_name_iff (h : ValidName name.toList) :
    npmRequest declared name = ⟨name, "latest", .npm⟩ ↔ ¬ IsScoped name ∧ ¬ StartsRange name := by
  rw [npmRequest, if_neg (validName_ne_empty h)]
  by_cases hlooks : looksLikeRegistryRange name = true
  · have hstarts := (looksLikeRegistryRange_iff.mp hlooks).2
    rw [if_pos hlooks]
    constructor
    · intro heq
      have hname : name = "latest" := congrArg DepRequest.range heq
      rw [hname] at hstarts
      exact absurd hstarts latest_starts_no_range
    · intro hcond
      exact absurd hstarts hcond.2
  · rw [if_neg hlooks]
    have hsplit := splitRegistryTarget_name_iff h
    rw [aliasTarget] at hsplit
    rw [hsplit]
    constructor
    · intro hscoped
      refine ⟨hscoped, fun hstarts => hlooks ?_⟩
      exact looksLikeRegistryRange_iff.mpr ⟨(hasNoNameChars_name_iff h).mpr hscoped, hstarts⟩
    · exact And.left

/-- The split of a target never keeps the whole of it as the range, unless this
is the word for the latest version. -/
theorem splitRegistryTarget_range_ne (h : target ≠ "latest") :
    (splitRegistryTarget .npm target).range ≠ target := by
  rw [splitRegistryTarget]
  cases hsplit : Text.rsplitOnce target (· = '@') with
  | none => exact fun heq => h heq.symm
  | some parts =>
      obtain ⟨before, version⟩ := parts
      have hparts := Text.rsplitOnce_eq_some hsplit
      dsimp only
      split
      · exact fun heq => h heq.symm
      · intro heq
        have hmem : '@' ∈ target.toList := by
          rw [hparts.1]
          simp
        rw [← heq] at hmem
        exact hparts.2 hmem

theorem validName_latest : ValidName "latest".toList :=
  .bare (by decide) (List.all_eq_true.mp (by decide)) (by decide)

theorem npmRequest_range_iff (h : ¬ ValidName target.toList) :
    npmRequest declared target = ⟨declared, target, .npm⟩ ↔
      hasNoNameChars target = true ∧ StartsRange target := by
  rw [← looksLikeRegistryRange_iff, npmRequest]
  by_cases hempty : target = ""
  · subst hempty
    rw [if_pos rfl]
    constructor
    · intro heq
      have hrange : "latest" = "" := congrArg DepRequest.range heq
      exact absurd hrange (by decide)
    · intro hlooks
      exact absurd hlooks (by decide)
  · rw [if_neg hempty]
    have hlatest : target ≠ "latest" := by
      intro heq
      rw [heq] at h
      exact h validName_latest
    cases hlooks : looksLikeRegistryRange target with
    | true => simp
    | false =>
        rw [if_neg Bool.false_ne_true]
        constructor
        · intro heq
          exact absurd (congrArg DepRequest.range heq) (splitRegistryTarget_range_ne hlatest)
        · exact fun hlooks => nomatch hlooks

end Request

end Snpm.Resolve
