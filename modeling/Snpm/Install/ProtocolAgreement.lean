import Mathlib
import Snpm.Install.Manifest
import Snpm.Resolve.PatchSpec

/-!
The manifest tells the protocol of a spec by its first word, and the resolver
splits the spec at its first colon. Each has its own list of words, and where
neither knows the word they can part.
-/
namespace Snpm.Install

open Resolve

variable {name spec scheme rest : String} {sources : Option (BTreeMap String String)}

/-- The manifest and the resolver tell one protocol. The manifest gives the
resolver the protocol that it told, and `npm` where it told none. -/
structure ProtocolsAgree (name spec : String) (sources : Option (BTreeMap String String)) :
    Prop where
  told : ∀ protocol, detectManifestProtocol spec = some protocol →
    (buildDepRequest name spec protocol none sources).protocol = protocol
  formed : ∀ request, request =
      buildDepRequest name spec ((detectManifestProtocol spec).getD .npm) none sources →
    request.protocol = .git ∨ request.protocol = .file →
      detectManifestProtocol spec = some request.protocol

def gitSchemes : List String :=
  ["git", "git+http", "git+https", "git+rsync", "git+ftp", "git+file", "git+ssh", "github",
    "gitlab", "bitbucket"]

/-- The words before a colon that both sides know. -/
def sharedSchemes : List String :=
  ["npm", "jsr", "file", "link", "portal", "patch"] ++ gitSchemes

/-- What keeps the two lists apart does not happen. -/
structure ToldAlike (name spec : String) (sources : Option (BTreeMap String String)) : Prop where
  workspace : ∀ rest, Text.splitOnce spec (· = ':') = some ("workspace", rest) →
    looksLikeHostedGitShorthand spec = false ∧
      resolveLocalWorkspaceSource name spec sources = none
  ssh : ∀ rest, Text.splitOnce spec (· = ':') = some ("ssh", rest) → rest ≠ "" →
    looksLikeHostedGitShorthand spec = true
  other : ∀ scheme rest, Text.splitOnce spec (· = ':') = some (scheme, rest) →
    scheme ∉ "workspace" :: "ssh" :: sharedSchemes → scheme ≠ "" → rest ≠ "" →
    looksLikeHostedGitUrl spec = false →
      Text.startsWith spec "git+" = false ∧ looksLikeHostedGitShorthand spec = false

section Request

/-- The protocol that a spec carries itself, as the resolver sees it. -/
def specProtocol (spec : String) : Option RegistryProtocol :=
  ((splitPackageLessRegistrySpec spec).map (·.1)).or ((splitProtocolSpec spec).map (·.protocol))

theorem requestOf_protocol (h : Text.startsWith spec "workspace:" = false)
    (protocol : RegistryProtocol) :
    (requestOf name spec protocol sources).protocol = (specProtocol spec).getD protocol := by
  have hlocal : resolveLocalWorkspaceSource name spec sources = none := by
    rw [resolveLocalWorkspaceSource, h, if_neg Bool.false_ne_true]
  have hworkspace : splitWorkspaceSpec spec = none := by
    rw [splitWorkspaceSpec, Text.stripPrefix, h, if_neg Bool.false_ne_true, Option.map_none]
  rw [requestOf, hlocal, hworkspace, specProtocol]
  cases splitPackageLessRegistrySpec spec with
  | some target => rfl
  | none =>
      cases splitProtocolSpec spec with
      | some request => rfl
      | none =>
          dsimp only
          split
          · rfl
          · rfl

theorem buildDepRequest_protocol (h : Text.startsWith spec "workspace:" = false)
    (protocol : RegistryProtocol) :
    (buildDepRequest name spec protocol none sources).protocol =
      (specProtocol spec).getD protocol :=
  requestOf_protocol h protocol

/-- Outside workspace specs the two sides agree exactly if the protocol that the
resolver sees is the one the manifest told, or none of them is git or a file. -/
theorem protocolsAgree_iff (h : Text.startsWith spec "workspace:" = false) :
    ProtocolsAgree name spec sources ↔
      ∀ protocol, specProtocol spec = some protocol →
        detectManifestProtocol spec = some protocol ∨
          (detectManifestProtocol spec = none ∧ protocol ≠ .git ∧ protocol ≠ .file) := by
  constructor
  · intro hagree protocol hspec
    cases hdetect : detectManifestProtocol spec with
    | some detected =>
        have htold := hagree.told detected hdetect
        rw [buildDepRequest_protocol h, hspec] at htold
        exact .inl (congrArg some htold.symm)
    | none =>
        refine .inr ⟨rfl, ?_, ?_⟩
        all_goals
          intro heq
          have hformed := hagree.formed _ rfl
          rw [hdetect, buildDepRequest_protocol h, hspec, heq] at hformed
          have hnone := hformed (by decide)
          cases hnone
  · intro hcond
    constructor
    · intro protocol hdetect
      rw [buildDepRequest_protocol h]
      cases hspec : specProtocol spec with
      | none => rfl
      | some other =>
          cases hcond other hspec with
          | inl hsame => exact Option.some.inj (hsame.symm.trans hdetect)
          | inr hnone => exact absurd (hdetect.symm.trans hnone.1) (fun heq => nomatch heq)
    · intro request hrequest hkind
      have hprotocol : request.protocol =
          (specProtocol spec).getD ((detectManifestProtocol spec).getD .npm) := by
        rw [hrequest, buildDepRequest_protocol h]
      cases hspec : specProtocol spec with
      | none =>
          rw [hspec, Option.getD_none] at hprotocol
          cases hdetect : detectManifestProtocol spec with
          | some detected =>
              rw [hdetect, Option.getD_some] at hprotocol
              rw [hprotocol]
          | none =>
              rw [hdetect, Option.getD_none] at hprotocol
              rw [hprotocol] at hkind
              exact absurd hkind (by decide)
      | some other =>
          rw [hspec, Option.getD_some] at hprotocol
          rw [hprotocol] at hkind ⊢
          cases hcond other hspec with
          | inl hsame => exact hsame
          | inr hnone => exact absurd hkind (not_or.mpr hnone.2)

end Request

section Scheme

/-- The two parts of a spec around its first colon. -/
abbrev HasScheme (spec scheme rest : String) : Prop :=
  Text.splitOnce spec (· = ':') = some (scheme, rest)

theorem startsWith_scheme (h : HasScheme spec scheme rest) (word : String)
    (hword : ':' ∉ word.toList) :
    Text.startsWith spec (word ++ String.singleton ':') = decide (scheme = word) := by
  rw [Bool.eq_iff_iff, Text.startsWith_part_iff word hword, decide_eq_true_eq]
  constructor
  · intro hpart
    obtain ⟨other, hother⟩ := hpart
    cases h.symm.trans hother
    rfl
  · intro heq
    exact ⟨rest, heq ▸ h⟩

theorem stripPrefix_scheme (h : HasScheme spec scheme rest) (word : String)
    (hword : ':' ∉ word.toList) :
    Text.stripPrefix spec (word ++ String.singleton ':') =
      if scheme = word then some rest else none := by
  by_cases heq : scheme = word
  · rw [if_pos heq, (Text.splitOnce_eq_some h).1, heq, Text.stripPrefix_append]
  · rw [if_neg heq, Text.stripPrefix, startsWith_scheme h word hword, decide_eq_false heq,
      if_neg Bool.false_ne_true]

theorem isGitSpec_scheme (h : HasScheme spec scheme rest) :
    isGitSpec spec = (decide (scheme ∈ ["git", "github", "gitlab", "bitbucket"]) ||
      Text.startsWith spec "git+" || looksLikeHostedGitUrl spec ||
      looksLikeHostedGitShorthand spec) := by
  have hgit : Text.startsWith spec "git:" = decide (scheme = "git") :=
    startsWith_scheme h "git" (by decide)
  have hgithub : Text.startsWith spec "github:" = decide (scheme = "github") :=
    startsWith_scheme h "github" (by decide)
  have hgitlab : Text.startsWith spec "gitlab:" = decide (scheme = "gitlab") :=
    startsWith_scheme h "gitlab" (by decide)
  have hbitbucket : Text.startsWith spec "bitbucket:" = decide (scheme = "bitbucket") :=
    startsWith_scheme h "bitbucket" (by decide)
  rw [isGitSpec]
  simp only [List.any_cons, List.any_nil, hgit, hgithub, hgitlab, hbitbucket, Bool.or_false,
    List.mem_cons, List.not_mem_nil, or_false, Bool.decide_or]
  cases Text.startsWith spec "git+" <;> simp

theorem detectManifestProtocol_scheme (h : HasScheme spec scheme rest) :
    detectManifestProtocol spec =
      if scheme = "npm" then some .npm
      else if scheme ∈ ["file", "link", "portal"] then some .file
      else if scheme = "patch" then (splitProtocolSpec spec).map (·.protocol)
      else if scheme = "jsr" then some .jsr
      else if isGitSpec spec then some .git
      else none := by
  have hnpm : Text.startsWith spec "npm:" = decide (scheme = "npm") :=
    startsWith_scheme h "npm" (by decide)
  have hfile : Text.startsWith spec "file:" = decide (scheme = "file") :=
    startsWith_scheme h "file" (by decide)
  have hlink : Text.startsWith spec "link:" = decide (scheme = "link") :=
    startsWith_scheme h "link" (by decide)
  have hportal : Text.startsWith spec "portal:" = decide (scheme = "portal") :=
    startsWith_scheme h "portal" (by decide)
  have hpatch : Text.startsWith spec "patch:" = decide (scheme = "patch") :=
    startsWith_scheme h "patch" (by decide)
  have hjsr : Text.startsWith spec "jsr:" = decide (scheme = "jsr") :=
    startsWith_scheme h "jsr" (by decide)
  rw [detectManifestProtocol, hnpm, hpatch, hjsr]
  simp only [List.any_cons, List.any_nil, hfile, hlink, hportal, Bool.or_false,
    List.mem_cons, List.not_mem_nil, or_false, Bool.or_eq_true, decide_eq_true_eq]

end Scheme

section SpecProtocol

theorem splitRegistryTarget_protocol (protocol : RegistryProtocol) (target : String) :
    (splitRegistryTarget protocol target).protocol = protocol := by
  rw [splitRegistryTarget]
  cases Text.rsplitOnce target (· = '@') with
  | none => rfl
  | some parts => rfl

theorem splitSchemeSpec_protocol (h : HasScheme spec scheme rest) :
    (splitSchemeSpec spec).map (·.protocol) =
      if scheme = "" ∨ rest = "" then none
      else if isGitProtocolPrefix scheme then some .git
      else some (schemeProtocol scheme) := by
  rw [splitSchemeSpec, h, Option.bind_eq_bind, Option.bind_some]
  dsimp only
  by_cases hempty : scheme = "" ∨ rest = ""
  · rw [if_pos hempty, if_pos hempty, Option.map_none]
  · rw [if_neg hempty, if_neg hempty]
    by_cases hgit : isGitProtocolPrefix scheme = true
    · rw [if_pos hgit, if_pos hgit, Option.map_some]
    · rw [if_neg hgit, if_neg hgit]
      by_cases hfile : schemeProtocol scheme = .file
      · rw [if_pos hfile, Option.map_some, hfile]
      · rw [if_neg hfile, Option.map_some, splitRegistryTarget_protocol]

/-- The registry that a range stands behind is known by the scheme. -/
theorem splitPackageLessRegistrySpec_protocol (h : HasScheme spec scheme rest) :
    (splitPackageLessRegistrySpec spec).map (·.1) =
      if packageLessRange rest = none then none
      else if scheme = "npm" then some .npm
      else if scheme = "jsr" then some .jsr
      else none := by
  have hnpm : Text.stripPrefix spec "npm:" = if scheme = "npm" then some rest else none :=
    stripPrefix_scheme h "npm" (by decide)
  have hjsr : Text.stripPrefix spec "jsr:" = if scheme = "jsr" then some rest else none :=
    stripPrefix_scheme h "jsr" (by decide)
  rw [splitPackageLessRegistrySpec, hnpm, hjsr]
  by_cases hisNpm : scheme = "npm"
  · have hother : scheme ≠ "jsr" := by
      rw [hisNpm]
      decide
    rw [if_pos hisNpm, if_neg hother, if_pos hisNpm]
    rw [Option.bind_some]
    cases packageLessRange rest with
    | none => simp
    | some range => simp
  · rw [if_neg hisNpm, if_neg hisNpm]
    by_cases hisJsr : scheme = "jsr"
    · rw [if_pos hisJsr, if_pos hisJsr]
      rw [Option.bind_some]
      cases packageLessRange rest with
      | none => simp
      | some range => simp
    · rw [if_neg hisJsr, if_neg hisJsr, ite_self]
      rfl

/-- The protocol of a spec that is no patch and no hosted repository. -/
theorem specProtocol_scheme (h : HasScheme spec scheme rest) (hpatch : scheme ≠ "patch")
    (hhosted : looksLikeHostedGitUrl spec = false) :
    specProtocol spec =
      if scheme = "npm" then some .npm
      else if scheme = "jsr" then some .jsr
      else if scheme = "" ∨ rest = "" then none
      else if isGitProtocolPrefix scheme then some .git
      else some (schemeProtocol scheme) := by
  have hstrip : Text.stripPrefix spec "patch:" = none := by
    have hscheme := stripPrefix_scheme h "patch" (by decide)
    rw [if_neg hpatch] at hscheme
    exact hscheme
  have hsplit : splitProtocolSpec spec = splitSchemeSpec spec := by
    rw [splitProtocolSpec_solves, splitBody, hhosted, if_neg Bool.false_ne_true,
      splitPatchProtocolSpec, hstrip]
    rfl
  rw [specProtocol, splitPackageLessRegistrySpec_protocol h, hsplit, splitSchemeSpec_protocol h]
  by_cases hregistry : scheme = "npm" ∨ scheme = "jsr"
  · by_cases hrange : packageLessRange rest = none
    · have hempty : ¬ (scheme = "" ∨ rest = "") := by
        intro hempty
        cases hempty with
        | inl hscheme =>
            rw [hscheme] at hregistry
            exact absurd hregistry (by decide)
        | inr hrest =>
            rw [hrest] at hrange
            exact absurd hrange (by decide)
      rw [if_pos hrange, Option.none_or, if_neg hempty]
      cases hregistry with
      | inl hnpm =>
          rw [hnpm]
          decide
      | inr hjsr =>
          rw [hjsr]
          decide
    · rw [if_neg hrange]
      cases hregistry with
      | inl hnpm => rw [if_pos hnpm, if_pos hnpm, Option.some_or]
      | inr hjsr =>
          have hnpm : scheme ≠ "npm" := by
            rw [hjsr]
            decide
          rw [if_neg hnpm, if_neg hnpm, if_pos hjsr, if_pos hjsr, Option.some_or]
  · rw [not_or] at hregistry
    rw [if_neg hregistry.1, if_neg hregistry.2, if_neg hregistry.1, if_neg hregistry.2, ite_self,
      Option.none_or]

end SpecProtocol

section Hosted

/-- The address of a hosted repository starts with no other word. -/
theorem hosted_not_startsWith (h : looksLikeHostedGitUrl spec = true) (word : String)
    (hword : word.toList.head?.any (fun c => !Text.isWhitespace c && c ≠ 'h') = true) :
    Text.startsWith spec word = false := by
  cases hhead : word.toList.head? with
  | none =>
      rw [hhead] at hword
      cases hword
  | some c =>
      rw [hhead, Option.any_some, Bool.and_eq_true, Bool.not_eq_true', decide_eq_true_eq] at hword
      rw [Bool.eq_false_iff]
      intro hstarts
      obtain ⟨t, ht⟩ := Text.startsWith_iff.mp hstarts
      have hspec : spec.toList.head? = some c := by
        rw [ht, String.toList_append, List.head?_append, hhead]
        rfl
      have hfalse : looksLikeHostedGitUrl spec = false := by
        apply looksLikeHostedGitUrl_head
        rw [Text.trim_head hspec hword.1]
        exact fun heq => hword.2 (Option.some.inj heq)
      rw [h] at hfalse
      cases hfalse

theorem detectManifestProtocol_hosted (h : looksLikeHostedGitUrl spec = true) :
    detectManifestProtocol spec = some .git := by
  have hgit : isGitSpec spec = true := by
    rw [isGitSpec, h, Bool.or_true, Bool.true_or]
  have hfile : ["file:", "link:", "portal:"].any (Text.startsWith spec) = false := by
    rw [List.any_eq_false]
    have hall : ∀ word ∈ ["file:", "link:", "portal:"],
        word.toList.head?.any (fun c => !Text.isWhitespace c && c ≠ 'h') = true := by decide
    intro word hword
    rw [hosted_not_startsWith h word (hall word hword)]
    exact Bool.false_ne_true
  rw [detectManifestProtocol, hosted_not_startsWith h "npm:" (by decide), hfile,
    hosted_not_startsWith h "patch:" (by decide),
    hosted_not_startsWith h "jsr:" (by decide), hgit]
  rfl

theorem specProtocol_hosted (h : looksLikeHostedGitUrl spec = true) :
    specProtocol spec = some .git := by
  have hless : splitPackageLessRegistrySpec spec = none := by
    rw [splitPackageLessRegistrySpec, Text.stripPrefix,
      hosted_not_startsWith h "npm:" (by decide), Text.stripPrefix,
      hosted_not_startsWith h "jsr:" (by decide)]
    rfl
  rw [specProtocol, hless, splitProtocolSpec_solves, splitBody, h, if_pos rfl]
  rfl

end Hosted

section Agreement

/-- A workspace spec is told as none, and the resolver looks it up in the
registry, unless a project has the name. -/
theorem protocolsAgree_workspace_iff (h : HasScheme spec "workspace" rest) :
    ProtocolsAgree name spec sources ↔ looksLikeHostedGitShorthand spec = false ∧
      resolveLocalWorkspaceSource name spec sources = none := by
  have htext : spec = "workspace:" ++ rest := (Text.splitOnce_eq_some h).1
  have hhead : spec.toList.head? = some 'w' := by
    rw [htext]
    simp
  have hhosted : looksLikeHostedGitUrl spec = false := by
    apply looksLikeHostedGitUrl_head
    rw [Text.trim_head hhead (by decide)]
    decide
  have hplus : Text.startsWith spec "git+" = false := by
    apply Text.startsWith_eq_false _ (by decide)
    rw [hhead]
    decide
  have hdetect : detectManifestProtocol spec =
      if looksLikeHostedGitShorthand spec then some .git else none := by
    rw [detectManifestProtocol_scheme h, isGitSpec_scheme h, hhosted, hplus]
    rfl
  have hworkspace : splitWorkspaceSpec spec ≠ none := by
    rw [splitWorkspaceSpec, htext, Text.stripPrefix_append]
    exact Option.some_ne_none _
  have hrequest : ∀ protocol, (buildDepRequest name spec protocol none sources).protocol =
      if resolveLocalWorkspaceSource name spec sources = none then .npm else .file := by
    intro protocol
    have hbuild : buildDepRequest name spec protocol none sources =
        requestOf name spec protocol sources := rfl
    rw [hbuild, requestOf]
    cases resolveLocalWorkspaceSource name spec sources with
    | some source => rfl
    | none =>
        cases hsplit : splitWorkspaceSpec spec with
        | none => exact absurd hsplit hworkspace
        | some range => rfl
  constructor
  · intro hagree
    have hshort : looksLikeHostedGitShorthand spec = false := by
      rw [Bool.eq_false_iff]
      intro hshort
      have htold := hagree.told .git (by rw [hdetect, if_pos hshort])
      rw [hrequest] at htold
      split at htold
      · exact absurd htold (by decide)
      · exact absurd htold (by decide)
    refine ⟨hshort, ?_⟩
    by_contra hlocal
    have hformed := hagree.formed _ rfl
    rw [hrequest, if_neg hlocal, hdetect, hshort] at hformed
    have hnone := hformed (.inr rfl)
    cases hnone
  · intro hcond
    rw [hcond.1] at hdetect
    constructor
    · intro protocol htold
      rw [hdetect] at htold
      cases htold
    · intro request heq hkind
      rw [heq, hrequest, if_pos hcond.2] at hkind
      exact absurd hkind (by decide)

theorem gitScheme_isGitSpec (h : HasScheme spec scheme rest) (hgit : scheme ∈ gitSchemes) :
    isGitSpec spec = true := by
  have hall : ∀ word ∈ gitSchemes, word ∈ ["git", "github", "gitlab", "bitbucket"] ∨
      Text.startsWith word "git+" = true := by decide
  rw [isGitSpec_scheme h]
  cases hall scheme hgit with
  | inl hword => rw [decide_eq_true hword, Bool.true_or, Bool.true_or, Bool.true_or]
  | inr hplus =>
      obtain ⟨t, ht⟩ := Text.startsWith_iff.mp hplus
      have hstarts : Text.startsWith spec "git+" = true := by
        rw [Text.startsWith_iff, (Text.splitOnce_eq_some h).1, ht]
        exact ⟨_, by rw [String.append_assoc, String.append_assoc]⟩
      rw [hstarts, Bool.or_true, Bool.true_or, Bool.true_or]

/-- The schemes that both sides know are told alike. -/
theorem shared_told_alike (h : HasScheme spec scheme rest) (hshared : scheme ∈ sharedSchemes)
    (hhosted : looksLikeHostedGitUrl spec = false) {protocol : RegistryProtocol}
    (hspec : specProtocol spec = some protocol) :
    detectManifestProtocol spec = some protocol := by
  rw [detectManifestProtocol_scheme h]
  by_cases hpatch : scheme = "patch"
  · subst hpatch
    have hless : (splitPackageLessRegistrySpec spec).map (·.1) = none := by
      rw [splitPackageLessRegistrySpec_protocol h]
      split
      · rfl
      · decide
    rw [specProtocol, hless, Option.none_or] at hspec
    rw [if_neg (by decide), if_neg (by decide), if_pos rfl, hspec]
  · rw [specProtocol_scheme h hpatch hhosted] at hspec
    by_cases hnpm : scheme = "npm"
    · rw [if_pos hnpm] at hspec ⊢
      exact hspec
    · rw [if_neg hnpm] at hspec ⊢
      by_cases hjsr : scheme = "jsr"
      · have hfile : scheme ∉ ["file", "link", "portal"] := by
          rw [hjsr]
          decide
        rw [if_pos hjsr] at hspec
        rw [if_neg hfile, if_neg hpatch, if_pos hjsr, hspec]
      · rw [if_neg hjsr] at hspec
        split at hspec
        · cases hspec
        · by_cases hfile : scheme ∈ ["file", "link", "portal"]
          · have hall : ∀ word ∈ ["file", "link", "portal"],
                isGitProtocolPrefix word = false ∧ schemeProtocol word = .file := by decide
            have hword := hall scheme hfile
            rw [hword.1, if_neg Bool.false_ne_true, hword.2] at hspec
            rw [if_pos hfile, hspec]
          · have hgit : scheme ∈ gitSchemes := by
              simp only [sharedSchemes, List.mem_append, List.mem_cons, List.not_mem_nil, or_false]
                at hshared hfile
              grind
            have hall : ∀ word ∈ gitSchemes, isGitProtocolPrefix word = true := by decide
            rw [hall scheme hgit, if_pos rfl] at hspec
            rw [if_neg hfile, if_neg hpatch, if_neg hjsr, gitScheme_isGitSpec h hgit, if_pos rfl,
              hspec]

/-- A scheme that the manifest does not know is told by the look of the spec. -/
theorem detectManifestProtocol_unshared (h : HasScheme spec scheme rest)
    (hshared : scheme ∉ sharedSchemes) (hhosted : looksLikeHostedGitUrl spec = false) :
    detectManifestProtocol spec =
      if Text.startsWith spec "git+" = true ∨ looksLikeHostedGitShorthand spec = true then some .git
      else none := by
  have hword : ∀ word ∈ sharedSchemes, scheme ≠ word := fun word hword heq => hshared (heq ▸ hword)
  have hfile : scheme ∉ ["file", "link", "portal"] := by
    intro hmem
    have hall : ∀ word ∈ ["file", "link", "portal"], word ∈ sharedSchemes := by decide
    exact hshared (hall scheme hmem)
  have hgit : scheme ∉ ["git", "github", "gitlab", "bitbucket"] := by
    intro hmem
    have hall : ∀ word ∈ ["git", "github", "gitlab", "bitbucket"], word ∈ sharedSchemes := by decide
    exact hshared (hall scheme hmem)
  rw [detectManifestProtocol_scheme h, if_neg (hword "npm" (by decide)), if_neg hfile,
    if_neg (hword "patch" (by decide)), if_neg (hword "jsr" (by decide)), isGitSpec_scheme h,
    hhosted, decide_eq_false hgit, Bool.false_or, Bool.or_false]
  simp only [Bool.or_eq_true]

/-- A scheme that neither side knows is a registry of its own. -/
theorem specProtocol_unknown (h : HasScheme spec scheme rest)
    (hknown : scheme ∉ "workspace" :: "ssh" :: sharedSchemes) (hscheme : scheme ≠ "")
    (hrest : rest ≠ "") (hhosted : looksLikeHostedGitUrl spec = false) :
    specProtocol spec = some (.custom scheme) := by
  have hword : ∀ word ∈ "workspace" :: "ssh" :: sharedSchemes, scheme ≠ word :=
    fun word hword heq => hknown (heq ▸ hword)
  have hgit : isGitProtocolPrefix scheme = false := by
    rw [Bool.eq_false_iff]
    intro hgit
    have hall : ∀ word ∈ ["git", "git+http", "git+https", "git+rsync", "git+ftp", "git+file",
      "git+ssh", "ssh", "github", "gitlab", "bitbucket"],
        word ∈ "workspace" :: "ssh" :: sharedSchemes := by decide
    exact hknown (hall scheme (of_decide_eq_true hgit))
  have hfile : ¬ (scheme = "file" ∨ scheme = "link" ∨ scheme = "portal") := by
    rw [not_or, not_or]
    exact ⟨hword "file" (by decide), hword "link" (by decide), hword "portal" (by decide)⟩
  rw [specProtocol_scheme h (hword "patch" (by decide)) hhosted, if_neg (hword "npm" (by decide)),
    if_neg (hword "jsr" (by decide)), if_neg (not_or.mpr ⟨hscheme, hrest⟩), hgit,
    if_neg Bool.false_ne_true, schemeProtocol, if_neg (hword "npm" (by decide)),
    if_neg (hword "jsr" (by decide)), if_neg hfile]

theorem specProtocol_no_scheme (h : Text.splitOnce spec (· = ':') = none)
    (hhosted : looksLikeHostedGitUrl spec = false) : specProtocol spec = none := by
  have hstrip : ∀ word : String, ':' ∉ word.toList →
      Text.stripPrefix spec (word ++ String.singleton ':') = none := by
    intro word hword
    rw [Text.stripPrefix, if_neg]
    rw [Text.startsWith_part_iff word hword, h]
    intro hsome
    obtain ⟨rest, hrest⟩ := hsome
    cases hrest
  have hnpm : Text.stripPrefix spec "npm:" = none := hstrip "npm" (by decide)
  have hjsr : Text.stripPrefix spec "jsr:" = none := hstrip "jsr" (by decide)
  have hpatch : Text.stripPrefix spec "patch:" = none := hstrip "patch" (by decide)
  rw [specProtocol, splitPackageLessRegistrySpec, hnpm, hjsr, splitProtocolSpec_solves, splitBody,
    hhosted, if_neg Bool.false_ne_true, splitPatchProtocolSpec, hpatch, splitSchemeSpec, h]
  rfl

theorem toldAlike_scheme_iff (h : HasScheme spec scheme rest) :
    ToldAlike name spec sources ↔
      (scheme = "workspace" → looksLikeHostedGitShorthand spec = false ∧
        resolveLocalWorkspaceSource name spec sources = none) ∧
      (scheme = "ssh" → rest ≠ "" → looksLikeHostedGitShorthand spec = true) ∧
      (scheme ∉ "workspace" :: "ssh" :: sharedSchemes → scheme ≠ "" → rest ≠ "" →
        looksLikeHostedGitUrl spec = false →
        Text.startsWith spec "git+" = false ∧ looksLikeHostedGitShorthand spec = false) := by
  constructor
  · intro halike
    exact ⟨fun heq => halike.workspace rest (heq ▸ h), fun heq => halike.ssh rest (heq ▸ h),
      halike.other scheme rest h⟩
  · intro hcond
    constructor
    · intro other hother
      cases h.symm.trans hother
      exact hcond.1 rfl
    · intro other hother
      cases h.symm.trans hother
      exact hcond.2.1 rfl
    · intro word other hother
      cases h.symm.trans hother
      exact hcond.2.2

theorem not_workspace (h : HasScheme spec scheme rest) (hscheme : scheme ≠ "workspace") :
    Text.startsWith spec "workspace:" = false := by
  have hstarts := startsWith_scheme h "workspace" (by decide)
  rw [decide_eq_false hscheme] at hstarts
  exact hstarts

/-- Both sides tell a hosted repository as git. -/
theorem hosted_agrees (h : looksLikeHostedGitUrl spec = true) :
    ProtocolsAgree name spec sources ∧ ToldAlike name spec sources := by
  constructor
  · rw [protocolsAgree_iff (hosted_not_startsWith h "workspace:" (by decide))]
    intro protocol hspec
    rw [specProtocol_hosted h] at hspec
    rw [detectManifestProtocol_hosted h, hspec]
    exact .inl rfl
  · have hword : ∀ {word rest : String}, HasScheme spec word rest → ':' ∉ word.toList →
        (word ++ String.singleton ':').toList.head?.any
          (fun c => !Text.isWhitespace c && c ≠ 'h') = true → False := by
      intro word rest hscheme hfree hhead
      have hstarts := startsWith_scheme hscheme word hfree
      rw [hosted_not_startsWith h _ hhead, decide_eq_true rfl] at hstarts
      cases hstarts
    constructor
    · intro rest hscheme
      exact (hword hscheme (by decide) (by decide)).elim
    · intro rest hscheme
      exact (hword hscheme (by decide) (by decide)).elim
    · intro scheme rest _ _ _ _ hfalse
      rw [h] at hfalse
      cases hfalse

/-- An address behind `ssh:` is git for the resolver. -/
theorem ssh_agrees_iff (h : HasScheme spec "ssh" rest)
    (hhosted : looksLikeHostedGitUrl spec = false) :
    ProtocolsAgree name spec sources ↔ (rest ≠ "" → looksLikeHostedGitShorthand spec = true) := by
  have hplus : Text.startsWith spec "git+" = false := by
    apply Text.startsWith_eq_false _ (by decide)
    rw [(Text.splitOnce_eq_some h).1]
    simp
  have hdetect := detectManifestProtocol_unshared h (by decide) hhosted
  have hspec := specProtocol_scheme h (by decide) hhosted
  rw [if_neg (by decide), if_neg (by decide)] at hspec
  rw [hplus] at hdetect
  rw [protocolsAgree_iff (not_workspace h (by decide)), hspec, hdetect]
  by_cases hrest : rest = ""
  · simp [hrest]
  · rw [if_neg (not_or.mpr ⟨by decide, hrest⟩), if_pos (by decide)]
    cases looksLikeHostedGitShorthand spec with
    | true => simp
    | false => simp [hrest]

/-- A spec without a colon carries no protocol. -/
theorem no_scheme_agrees (h : Text.splitOnce spec (· = ':') = none)
    (hhosted : looksLikeHostedGitUrl spec = false) :
    ProtocolsAgree name spec sources ∧ ToldAlike name spec sources := by
  have hno : ∀ {scheme rest : String}, ¬ HasScheme spec scheme rest := by
    intro scheme rest hscheme
    rw [HasScheme, h] at hscheme
    cases hscheme
  have hstarts : Text.startsWith spec "workspace:" = false := by
    rw [Bool.eq_false_iff]
    intro hstarts
    have hscheme : ∃ rest, HasScheme spec "workspace" rest :=
      (Text.startsWith_part_iff "workspace" (by decide)).mp hstarts
    exact hno hscheme.choose_spec
  constructor
  · rw [protocolsAgree_iff hstarts, specProtocol_no_scheme h hhosted]
    intro protocol heq
    cases heq
  · constructor
    · intro rest hscheme
      exact (hno hscheme).elim
    · intro rest hscheme
      exact (hno hscheme).elim
    · intro scheme rest hscheme
      exact (hno hscheme).elim

/-- A scheme that neither side knows is told as git exactly if the spec looks so. -/
theorem unknown_agrees_iff (h : HasScheme spec scheme rest)
    (hknown : scheme ∉ "workspace" :: "ssh" :: sharedSchemes)
    (hhosted : looksLikeHostedGitUrl spec = false) :
    ProtocolsAgree name spec sources ↔ (scheme ≠ "" → rest ≠ "" →
      Text.startsWith spec "git+" = false ∧ looksLikeHostedGitShorthand spec = false) := by
  have hword : ∀ word ∈ "workspace" :: "ssh" :: sharedSchemes, scheme ≠ word :=
    fun word hword heq => hknown (heq ▸ hword)
  have hshared : scheme ∉ sharedSchemes :=
    fun hmem => hknown (List.mem_cons_of_mem _ (List.mem_cons_of_mem _ hmem))
  rw [protocolsAgree_iff (not_workspace h (hword "workspace" (by decide)))]
  by_cases hempty : scheme = "" ∨ rest = ""
  · have hspec := specProtocol_scheme h (hword "patch" (by decide)) hhosted
    rw [if_neg (hword "npm" (by decide)), if_neg (hword "jsr" (by decide)), if_pos hempty] at hspec
    rw [hspec]
    apply iff_of_true
    · intro protocol heq
      cases heq
    · intro hscheme hrest
      exact (hempty.elim hscheme hrest).elim
  · rw [not_or] at hempty
    have hgit : RegistryProtocol.custom scheme ≠ .git := by
      intro heq
      exact hword "git" (by decide) (congrArg RegistryProtocol.name heq)
    have hfile : RegistryProtocol.custom scheme ≠ .file := by
      intro heq
      exact hword "file" (by decide) (congrArg RegistryProtocol.name heq)
    rw [specProtocol_unknown h hknown hempty.1 hempty.2 hhosted,
      detectManifestProtocol_unshared h hshared hhosted]
    constructor
    · intro hagree _ _
      rw [← Bool.not_eq_true, ← Bool.not_eq_true, ← not_or]
      intro hlooks
      have htold := hagree _ rfl
      rw [if_pos hlooks] at htold
      cases htold with
      | inl heq => exact hgit (Option.some.inj heq).symm
      | inr hnone => cases hnone.1
    · intro hplain protocol heq
      have hlooks := hplain hempty.1 hempty.2
      rw [hlooks.1, hlooks.2]
      cases heq
      exact .inr ⟨rfl, hgit, hfile⟩

/-- The two sides agree exactly if a workspace spec looks like no repository and
names no project, an ssh address looks like a repository, and a scheme that
neither side knows is no git scheme and does not. -/
theorem protocolsAgree_iff_toldAlike (name spec : String)
    (sources : Option (BTreeMap String String)) :
    ProtocolsAgree name spec sources ↔ ToldAlike name spec sources := by
  cases hhosted : looksLikeHostedGitUrl spec with
  | true => exact iff_of_true (hosted_agrees hhosted).1 (hosted_agrees hhosted).2
  | false =>
  cases hsplit : Text.splitOnce spec (· = ':') with
  | none =>
      have hboth := @no_scheme_agrees name spec sources hsplit hhosted
      exact iff_of_true hboth.1 hboth.2
  | some parts =>
      have h : HasScheme spec parts.1 parts.2 := hsplit
      rw [toldAlike_scheme_iff h]
      by_cases hworkspace : parts.1 = "workspace"
      · rw [@protocolsAgree_workspace_iff name spec parts.2 sources (hworkspace ▸ h)]
        simp [hworkspace]
      · by_cases hssh : parts.1 = "ssh"
        · rw [@ssh_agrees_iff name spec parts.2 sources (hssh ▸ h) hhosted]
          simp [hssh]
        · by_cases hshared : parts.1 ∈ sharedSchemes
          · apply iff_of_true
            · rw [protocolsAgree_iff (not_workspace h hworkspace)]
              exact fun _ hspec => .inl (shared_told_alike h hshared hhosted hspec)
            · simp [hworkspace, hssh, hshared]
          · have hknown : parts.1 ∉ "workspace" :: "ssh" :: sharedSchemes := by
              simp [hworkspace, hssh, hshared]
            rw [unknown_agrees_iff h hknown hhosted]
            simp [hworkspace, hssh, hshared, hhosted]

/-- The address of a repository at a host is told as git, and requested from a
registry of the host's name. -/
theorem scp_address_disagrees :
    detectManifestProtocol "git@github.com:acme/pkg" = some .git ∧
      buildDepRequest "pkg" "git@github.com:acme/pkg" .git none none =
        ⟨"acme/pkg", "latest", .custom "git@github.com"⟩ ∧
      ¬ ProtocolsAgree "pkg" "git@github.com:acme/pkg" none := by
  have hdetect : detectManifestProtocol "git@github.com:acme/pkg" = some .git := by decide +kernel
  have hrequest : buildDepRequest "pkg" "git@github.com:acme/pkg" .git none none =
      ⟨"acme/pkg", "latest", .custom "git@github.com"⟩ := by decide +kernel
  refine ⟨hdetect, hrequest, ?_⟩
  intro hagree
  have htold := hagree.told .git hdetect
  rw [hrequest] at htold
  exact absurd htold (by decide)

end Agreement

end Snpm.Install
