import Mathlib
import Snpm.Publish.Rewrite

/-!
What a published manifest holds after the rewrite, and when no spec of it is left
that only the workspace understands.
-/
namespace Snpm.Publish

open Install (resolveCatalogSpec)

/-- A spec that only the workspace understands. -/
def Monorepo (spec : String) : Prop :=
  Text.startsWith spec "workspace:" = true ∨ Text.startsWith spec "catalog:" = true

/-- The name and spec of each dependency of a section. -/
def specsOf : Json → List (String × String)
  | .object members => members.filterMap fun
      | (name, .string spec) => some (name, spec)
      | _ => none
  | _ => []

/-- The dependencies of a manifest in the order of its text. -/
def dependencies : Json → List (String × String)
  | .object members => members.flatMap fun m => if m.1 ∈ depSections then specsOf m.2 else []
  | _ => []

/-- The package that a `workspace:` dependency stands for. -/
def workspaceTarget (name spec : String) : Option String :=
  (Text.stripPrefix spec "workspace:").map fun rest =>
    ((splitWorkspaceAlias rest).map (·.1)).getD name

variable (workspace : Option Workspace) (catalog : Option CatalogConfig)

def IsMember (name : String) : Prop := ∃ w ∈ workspace, (w.projectByName name).isSome

/-- No monorepo spec is left, every other spec is as it was, every `workspace:` dependency is a
package of the workspace, and a second rewrite has nothing to do. -/
structure Published (manifest rewritten : Json) : Prop where
  no_monorepo : ∀ d ∈ dependencies rewritten, ¬ Monorepo d.2
  others_kept : List.Forall₂ (fun old new => new.1 = old.1 ∧ (¬ Monorepo old.2 → new.2 = old.2))
    (dependencies manifest) (dependencies rewritten)
  members : ∀ d ∈ dependencies manifest, ∀ target ∈ workspaceTarget d.1 d.2,
    IsMember workspace target
  again : rewritePublishedManifest workspace catalog rewritten = .ok (rewritten, false)

def IsShorthand (range : String) : Prop := range ∈ ["", "*", "~", "^"]

instance (range : String) : Decidable (IsShorthand range) := inferInstanceAs (Decidable (_ ∈ _))

/-- What a `workspace:` dependency must be for the rewrite to do what it should: an explicit range
names a package of the workspace and is a registry range, and so is a version taken as it stands. -/
def GoodWorkspaceSpec (name rest : String) : Prop :=
  match splitWorkspaceAlias rest with
  | some (target, range) => ¬ IsShorthand range → IsMember workspace target
  | none => if IsShorthand rest then
      rest = "" ∨ rest = "*" → ∀ version, siblingVersion workspace name = .ok version → ¬ Monorepo version
    else IsMember workspace name ∧ ¬ Monorepo rest

def Publishable (name spec : String) : Prop :=
  (∀ rest, Text.stripPrefix spec "workspace:" = some rest → GoodWorkspaceSpec workspace name rest) ∧
  (Text.startsWith spec "catalog:" = true → ∀ range,
    resolveCatalogSpec name spec workspace catalog = .ok range → ¬ Monorepo range)

section Spec

variable {workspace catalog} {name spec : String}

theorem monorepo_of_stripPrefix {rest : String} (h : Text.stripPrefix spec "workspace:" = some rest) :
    Text.startsWith spec "workspace:" = true ∧ Text.startsWith spec "catalog:" = false := by
  rw [Text.stripPrefix_eq_some h]
  simp [Text.startsWith, List.isPrefixOf]

theorem map_eq_ok_iff {α β : Type} {x : Result α} {f : α → β} {b : β} :
    x.map f = .ok b ↔ ∃ a, x = .ok a ∧ f a = b := by
  cases x with
  | error e => simp [Except.map]
  | ok a => simp [Except.map]

theorem ok_bind {α β : Type} (a : α) (f : α → Result β) : ((Except.ok a : Result α) >>= f) = f a := rfl

theorem stripPrefix_eq_none_iff {prefix_ : String} :
    Text.stripPrefix spec prefix_ = none ↔ Text.startsWith spec prefix_ = false := by
  simp [Text.stripPrefix]

/-- Only a monorepo spec is rewritten. -/
theorem rewriteSpec_none (h : ¬ Monorepo spec) :
    rewriteSpec workspace catalog name spec = .ok none := by
  simp only [Monorepo, not_or, Bool.not_eq_true] at h
  simp [rewriteSpec, stripPrefix_eq_none_iff.mpr h.1, h.2]

theorem not_monorepo_of_rewriteSpec_none (h : rewriteSpec workspace catalog name spec = .ok none) :
    ¬ Monorepo spec := by
  simp only [rewriteSpec] at h
  cases hstrip : Text.stripPrefix spec "workspace:" with
  | some rest =>
      rw [hstrip] at h
      dsimp only at h
      split at h
      · obtain ⟨_, _, heq⟩ := map_eq_ok_iff.mp h
        cases heq
      · obtain ⟨_, _, heq⟩ := map_eq_ok_iff.mp h
        cases heq
  | none =>
      rw [hstrip] at h
      dsimp only at h
      split at h
      · obtain ⟨_, _, heq⟩ := map_eq_ok_iff.mp h
        cases heq
      · rename_i hcatalog
        simp [Monorepo, stripPrefix_eq_none_iff.mp hstrip, hcatalog]

theorem not_monorepo_tilde (version : String) : ¬ Monorepo ("~" ++ version) := by
  simp [Monorepo, Text.startsWith, List.isPrefixOf]

theorem not_monorepo_caret (version : String) : ¬ Monorepo ("^" ++ version) := by
  simp [Monorepo, Text.startsWith, List.isPrefixOf]

theorem isMember_of_siblingVersion {version : String}
    (h : siblingVersion workspace name = .ok version) : IsMember workspace name := by
  cases workspace with
  | none => cases h
  | some w =>
      refine ⟨w, rfl, ?_⟩
      simp only [siblingVersion] at h
      cases hproject : w.projectByName name with
      | none =>
          rw [hproject] at h
          cases h
      | some project => rfl

/-- A shorthand is rewritten with the version of a package of the workspace. -/
theorem concreteRange_shorthand {range rewritten : String} (hshort : IsShorthand range)
    (h : concreteRange workspace range name = .ok rewritten) :
    ∃ version, siblingVersion workspace name = .ok version ∧
      ((range = "" ∨ range = "*") ∧ rewritten = version ∨
        range = "~" ∧ rewritten = "~" ++ version ∨ range = "^" ∧ rewritten = "^" ++ version) := by
  have hranges : range = "" ∨ range = "*" ∨ range = "~" ∨ range = "^" := by
    simpa [IsShorthand] using hshort
  cases hversion : siblingVersion workspace name with
  | error e =>
      obtain rfl | rfl | rfl | rfl := hranges <;> simp [concreteRange, hversion, Except.map] at h
  | ok version =>
      refine ⟨version, rfl, ?_⟩
      obtain rfl | rfl | rfl | rfl := hranges <;>
        simp [concreteRange, hversion, Except.map] at h <;> simp [h]

theorem concreteRange_explicit {range : String} (hshort : ¬ IsShorthand range) :
    concreteRange workspace range name = .ok range := by
  simp only [IsShorthand, List.mem_cons, List.not_mem_nil, or_false, not_or] at hshort
  simp [concreteRange, hshort]

/-- A dependency that is rewritten is what it must be exactly when its new spec is a registry
spec and its package is in the workspace. -/
theorem publishable_iff {rewritten : Option String}
    (h : rewriteSpec workspace catalog name spec = .ok rewritten) :
    Publishable workspace catalog name spec ↔ (∀ new ∈ rewritten, ¬ Monorepo new) ∧
      ∀ target ∈ workspaceTarget name spec, IsMember workspace target := by
  cases hstrip : Text.stripPrefix spec "workspace:" with
  | none =>
      simp only [Publishable, workspaceTarget, hstrip, Option.map_none, reduceCtorEq,
        false_imp_iff, implies_true, true_and, Option.mem_def, and_true]
      simp only [rewriteSpec, hstrip] at h
      split at h
      · rename_i hcatalog
        obtain ⟨range, hrange, rfl⟩ := map_eq_ok_iff.mp h
        simp [hcatalog, hrange]
      · rename_i hcatalog
        cases h
        simp [hcatalog]
  | some rest =>
      have hcatalog := (monorepo_of_stripPrefix hstrip).2
      simp only [Publishable, workspaceTarget, hstrip, Option.map_some, Option.some.injEq,
        forall_eq', hcatalog, Bool.false_eq_true, false_imp_iff, and_true, Option.mem_def]
      simp only [rewriteSpec, hstrip] at h
      cases halias : splitWorkspaceAlias rest with
      | some parts =>
          obtain ⟨target, range⟩ := parts
          simp only [halias] at h
          simp only [GoodWorkspaceSpec, halias, Option.map_some, Option.getD_some]
          obtain ⟨concrete, hrange, rfl⟩ := map_eq_ok_iff.mp h
          have hnpm : ¬ Monorepo ("npm:" ++ target ++ "@" ++ concrete) := by
            simp [Monorepo, Text.startsWith, List.isPrefixOf]
          simp only [Option.some.injEq, forall_eq', hnpm, not_false_eq_true, true_and]
          constructor
          · intro hgood
            by_cases hshort : IsShorthand range
            · obtain ⟨version, hversion, _⟩ := concreteRange_shorthand hshort hrange
              exact isMember_of_siblingVersion hversion
            · exact hgood hshort
          · exact fun hmember _ => hmember
      | none =>
          simp only [halias] at h
          simp only [GoodWorkspaceSpec, halias, Option.map_none, Option.getD_none]
          obtain ⟨concrete, hrange, rfl⟩ := map_eq_ok_iff.mp h
          simp only [Option.some.injEq, forall_eq']
          by_cases hshort : IsShorthand rest
          · obtain ⟨version, hversion, hcases⟩ := concreteRange_shorthand hshort hrange
            have hmember := isMember_of_siblingVersion hversion
            simp only [if_pos hshort, hversion, Except.ok.injEq, forall_eq', hmember, and_true]
            cases hcases with
            | inl hplain => simp only [hplain.1, hplain.2, forall_const]
            | inr hmarked =>
                have hnot : ¬ Monorepo concrete := by
                  cases hmarked with
                  | inl htilde =>
                      rw [htilde.2]
                      exact not_monorepo_tilde version
                  | inr hcaret =>
                      rw [hcaret.2]
                      exact not_monorepo_caret version
                have hrest : ¬ (rest = "" ∨ rest = "*") := by
                  cases hmarked with
                  | inl htilde => simp [htilde.1]
                  | inr hcaret => simp [hcaret.1]
                simp only [hnot, hrest, not_false_eq_true, false_imp_iff]
          · rw [concreteRange_explicit hshort, Except.ok.injEq] at hrange
            subst hrange
            simp only [if_neg hshort]
            exact and_comm

end Spec

section Lists

variable {workspace catalog}

variable (workspace catalog) in
/-- A dependency before and after the rewrite. -/
def SpecResult (old new : String × String) : Prop :=
  new.1 = old.1 ∧ ∃ rewritten, rewriteSpec workspace catalog old.1 old.2 = .ok rewritten ∧
    new.2 = rewritten.getD old.2

theorem rewriteMembers_spec {members members' : List (String × Json)} {changed : Bool}
    (h : rewriteMembers workspace catalog members = .ok (members', changed)) :
    List.Forall₂ (SpecResult workspace catalog) (specsOf (.object members))
      (specsOf (.object members')) := by
  induction members generalizing members' changed with
  | nil =>
      cases h
      exact .nil
  | cons member members ih =>
      obtain ⟨name, value⟩ := member
      cases value with
      | string spec =>
          simp only [rewriteMembers, Result.bind_eq_ok_iff, Prod.exists] at h
          obtain ⟨rewritten, hspec, rest, changedRest, hrest, heq⟩ := h
          cases heq
          exact .cons ⟨rfl, rewritten, hspec, rfl⟩ (ih hrest)
      | null | bool _ | number _ | array _ | object _ =>
          simp only [rewriteMembers, Result.bind_eq_ok_iff, Prod.exists] at h
          obtain ⟨rest, changedRest, hrest, heq⟩ := h
          cases heq
          have hstep := ih hrest
          exact hstep

variable (workspace catalog) in
/-- A member of the manifest before and after the sections of a list are rewritten. -/
def MemberResult (sections : List String) (old new : String × Json) : Prop :=
  new.1 = old.1 ∧ (old.1 ∉ sections → new.2 = old.2) ∧
    (old.1 ∈ sections → List.Forall₂ (SpecResult workspace catalog) (specsOf old.2) (specsOf new.2))

theorem rewriteSection_spec {sectionName : String} {manifest manifest' : List (String × Json)}
    {changed : Bool}
    (h : rewriteSection workspace catalog sectionName manifest = .ok (manifest', changed)) :
    List.Forall₂ (MemberResult workspace catalog [sectionName]) manifest manifest' := by
  induction manifest generalizing manifest' changed with
  | nil =>
      cases h
      exact .nil
  | cons member manifest ih =>
      obtain ⟨key, value⟩ := member
      cases value with
      | object members =>
          simp only [rewriteSection, Result.bind_eq_ok_iff, Prod.exists] at h
          obtain ⟨members', changedMembers, hmembers, rest, changedRest, hrest, heq⟩ := h
          cases heq
          refine .cons ⟨rfl, ?_, ?_⟩ (ih hrest)
          · intro hkey
            rw [rewriteObject, if_neg (by simpa using hkey)] at hmembers
            cases hmembers
            rfl
          · intro hkey
            rw [rewriteObject, if_pos (by simpa using hkey)] at hmembers
            exact rewriteMembers_spec hmembers
      | null | bool _ | number _ | array _ | string _ =>
          simp only [rewriteSection, Result.bind_eq_ok_iff, Prod.exists] at h
          obtain ⟨rest, changedRest, hrest, heq⟩ := h
          cases heq
          exact .cons ⟨rfl, fun _ => rfl, fun _ => .nil⟩ (ih hrest)

theorem memberResult_trans {sectionName : String} {sections : List String} {a b c : String × Json}
    (hnot : sectionName ∉ sections) (hab : MemberResult workspace catalog [sectionName] a b)
    (hbc : MemberResult workspace catalog sections b c) :
    MemberResult workspace catalog (sectionName :: sections) a c := by
  obtain ⟨hname, hkeep, hsection⟩ := hab
  obtain ⟨hname', hkeep', hsection'⟩ := hbc
  rw [hname] at hname' hkeep' hsection'
  refine ⟨hname', fun hout => ?_, fun hin => ?_⟩
  · rw [List.mem_cons, not_or] at hout
    rw [hkeep' hout.2, hkeep (by simpa using hout.1)]
  · cases List.mem_cons.mp hin with
    | inl heq =>
        rw [hkeep' (heq ▸ hnot)]
        exact hsection (by simpa using heq)
    | inr hmem =>
        have hne : a.1 ∉ [sectionName] := by
          rw [List.mem_singleton]
          rintro rfl
          exact hnot hmem
        rw [← hkeep hne]
        exact hsection' hmem

theorem forall₂_memberResult_trans {sectionName : String} {sections : List String}
    {as bs cs : List (String × Json)} (hnot : sectionName ∉ sections)
    (hab : List.Forall₂ (MemberResult workspace catalog [sectionName]) as bs)
    (hbc : List.Forall₂ (MemberResult workspace catalog sections) bs cs) :
    List.Forall₂ (MemberResult workspace catalog (sectionName :: sections)) as cs := by
  induction hab generalizing cs with
  | nil =>
      cases hbc
      exact .nil
  | cons h _ ih =>
      cases hbc with
      | cons h' hrest => exact .cons (memberResult_trans hnot h h') (ih hrest)

theorem rewriteSections_spec {sections : List String} (hnodup : sections.Nodup)
    {manifest manifest' : List (String × Json)} {changed : Bool}
    (h : rewriteSections workspace catalog sections manifest = .ok (manifest', changed)) :
    List.Forall₂ (MemberResult workspace catalog sections) manifest manifest' := by
  induction sections generalizing manifest changed with
  | nil =>
      cases h
      refine List.forall₂_same.mpr fun m _ => ⟨rfl, fun _ => rfl, fun hmem => ?_⟩
      cases hmem
  | cons sectionName sections ih =>
      simp only [rewriteSections, Result.bind_eq_ok_iff, Prod.exists] at h
      obtain ⟨next, changedNext, hnext, last, changedLast, hlast, heq⟩ := h
      cases heq
      rw [List.nodup_cons] at hnodup
      exact forall₂_memberResult_trans hnodup.1 (rewriteSection_spec hnext) (ih hnodup.2 hlast)

theorem dependencies_spec {manifest manifest' : Json} {changed : Bool}
    (h : rewritePublishedManifest workspace catalog manifest = .ok (manifest', changed)) :
    List.Forall₂ (SpecResult workspace catalog) (dependencies manifest) (dependencies manifest') := by
  cases manifest with
  | object members =>
      simp only [rewritePublishedManifest] at h
      cases hsections : rewriteSections workspace catalog depSections members with
      | error e => simp [hsections, Except.map] at h
      | ok result =>
          obtain ⟨members', changed'⟩ := result
          simp only [hsections, Except.map, Except.ok.injEq, Prod.mk.injEq] at h
          obtain ⟨rfl, rfl⟩ := h
          have hmembers := rewriteSections_spec (by decide) hsections
          clear hsections
          simp only [dependencies]
          induction hmembers with
          | nil => exact .nil
          | cons hmember _ ih =>
              rw [List.flatMap_cons, List.flatMap_cons, hmember.1]
              refine List.rel_append ?_ ih
              split
              · exact hmember.2.2 ‹_›
              · exact .nil
  | null | bool _ | number _ | array _ | string _ =>
      cases h
      exact .nil

/-- Members without monorepo specs are left as they are. -/
theorem rewriteMembers_eq_self {members : List (String × Json)}
    (h : ∀ d ∈ specsOf (.object members), ¬ Monorepo d.2) :
    rewriteMembers workspace catalog members = .ok (members, false) := by
  induction members with
  | nil => rfl
  | cons member members ih =>
      obtain ⟨name, value⟩ := member
      cases value with
      | string spec =>
          have hspec := h (name, spec) (by simp [specsOf])
          have hrest := ih fun d hd => h d (by
            simp only [specsOf, List.filterMap_cons] at hd ⊢
            exact List.mem_cons_of_mem _ hd)
          simp [rewriteMembers, rewriteSpec_none hspec, hrest, ok_bind]
      | null | bool _ | number _ | array _ | object _ =>
          have hrest := ih fun d hd => h d (by simpa [specsOf] using hd)
          simp only [rewriteMembers, hrest, ok_bind]

theorem rewriteSection_eq_self {sectionName : String} {manifest : List (String × Json)}
    (h : ∀ m ∈ manifest, m.1 = sectionName → ∀ d ∈ specsOf m.2, ¬ Monorepo d.2) :
    rewriteSection workspace catalog sectionName manifest = .ok (manifest, false) := by
  induction manifest with
  | nil => rfl
  | cons member manifest ih =>
      obtain ⟨key, value⟩ := member
      have hrest := ih fun m hm => h m (List.mem_cons_of_mem _ hm)
      cases value with
      | object members =>
          have hobject : rewriteObject workspace catalog sectionName key members = .ok (members, false) := by
            simp only [rewriteObject]
            split
            · rename_i hkey
              exact rewriteMembers_eq_self (h (key, .object members) List.mem_cons_self hkey)
            · rfl
          simp only [rewriteSection, hobject, hrest, ok_bind, Bool.or_self]
      | null | bool _ | number _ | array _ | string _ =>
          simp only [rewriteSection, hrest, ok_bind]

theorem rewriteSections_eq_self {sections : List String} {manifest : List (String × Json)}
    (h : ∀ m ∈ manifest, m.1 ∈ sections → ∀ d ∈ specsOf m.2, ¬ Monorepo d.2) :
    rewriteSections workspace catalog sections manifest = .ok (manifest, false) := by
  induction sections with
  | nil => rfl
  | cons sectionName sections ih =>
      have hfirst : rewriteSection workspace catalog sectionName manifest = .ok (manifest, false) :=
        rewriteSection_eq_self fun m hm hkey => h m hm (hkey ▸ List.mem_cons_self)
      have hrest := ih fun m hm hkey => h m hm (List.mem_cons_of_mem sectionName hkey)
      simp only [rewriteSections, hfirst, hrest, ok_bind, Bool.or_self]

theorem rewrite_eq_self {manifest : Json} (h : ∀ d ∈ dependencies manifest, ¬ Monorepo d.2) :
    rewritePublishedManifest workspace catalog manifest = .ok (manifest, false) := by
  cases manifest with
  | object members =>
      have hself : rewriteSections workspace catalog depSections members = .ok (members, false) := by
        refine rewriteSections_eq_self fun m hm hkey d hd => h d ?_
        simp only [dependencies, List.mem_flatMap]
        exact ⟨m, hm, by simpa [hkey] using hd⟩
      simp only [rewritePublishedManifest, hself]
      rfl
  | null | bool _ | number _ | array _ | string _ => rfl

end Lists

section Publish

variable {workspace : Option Workspace} {catalog : Option CatalogConfig} {manifest rewritten : Json}
  {changed : Bool}

theorem others_kept_of_specResult {olds news : List (String × String)}
    (h : List.Forall₂ (SpecResult workspace catalog) olds news) :
    List.Forall₂ (fun old new => new.1 = old.1 ∧ (¬ Monorepo old.2 → new.2 = old.2)) olds news := by
  refine h.imp fun old new ⟨hname, result, hresult, hnew⟩ => ⟨hname, fun hplain => ?_⟩
  rw [rewriteSpec_none hplain, Except.ok.injEq] at hresult
  rw [hnew, ← hresult, Option.getD_none]

/-- A dependency comes out as a registry spec exactly when its rewritten spec is one. -/
theorem not_monorepo_iff {old new : String × String} {result : Option String}
    (hresult : rewriteSpec workspace catalog old.1 old.2 = .ok result)
    (hnew : new.2 = result.getD old.2) : (∀ s ∈ result, ¬ Monorepo s) ↔ ¬ Monorepo new.2 := by
  cases result with
  | none =>
      rw [hnew, Option.getD_none]
      simpa using not_monorepo_of_rewriteSpec_none hresult
  | some s => simp [hnew]

theorem publishable_all_iff {olds news : List (String × String)}
    (h : List.Forall₂ (SpecResult workspace catalog) olds news) :
    (∀ d ∈ olds, Publishable workspace catalog d.1 d.2) ↔
      (∀ d ∈ news, ¬ Monorepo d.2) ∧
        ∀ d ∈ olds, ∀ target ∈ workspaceTarget d.1 d.2, IsMember workspace target := by
  induction h with
  | nil => simp
  | cons hone _ ih =>
      obtain ⟨_, result, hresult, hnew⟩ := hone
      simp only [List.forall_mem_cons, publishable_iff hresult, not_monorepo_iff hresult hnew, ih]
      exact and_and_and_comm

/-- Exactly when a manifest that is rewritten can be published. -/
theorem published_iff (h : rewritePublishedManifest workspace catalog manifest = .ok (rewritten, changed)) :
    Published workspace catalog manifest rewritten ↔
      ∀ d ∈ dependencies manifest, Publishable workspace catalog d.1 d.2 := by
  have hspecs := dependencies_spec h
  rw [publishable_all_iff hspecs]
  constructor
  · intro hpublished
    exact ⟨hpublished.no_monorepo, hpublished.members⟩
  · intro ⟨hplain, hmembers⟩
    exact ⟨hplain, others_kept_of_specResult hspecs, hmembers, rewrite_eq_self hplain⟩

/-- A manifest with one dependency. -/
def oneDependency (name spec : String) : Json :=
  .object [("name", .string "app"), ("dependencies", .object [(name, .string spec)])]

def catalogOf (name range : String) : CatalogConfig := ⟨BTreeMap.collect [(name, range)], ∅⟩

theorem plain_catalog_published :
    Published none (some (catalogOf "a" "^1.0.0")) (oneDependency "a" "catalog:")
        (oneDependency "a" "^1.0.0") ↔
      ∀ d ∈ dependencies (oneDependency "a" "catalog:"),
        Publishable none (some (catalogOf "a" "^1.0.0")) d.1 d.2 :=
  @published_iff _ _ _ _ true (by rfl)

/-- An entry of the catalog that is a workspace spec is published. -/
theorem workspace_spec_published :
    ¬ ∀ rewritten changed, rewritePublishedManifest none (some (catalogOf "a" "workspace:^"))
        (oneDependency "a" "catalog:") = .ok (rewritten, changed) →
      Published none (some (catalogOf "a" "workspace:^")) (oneDependency "a" "catalog:") rewritten := by
  intro h
  have hpublished := h (oneDependency "a" "workspace:^") true (by rfl)
  have hdependency : ("a", "workspace:^") ∈ dependencies (oneDependency "a" "workspace:^") := by
    simp [dependencies, oneDependency, depSections, specsOf]
  exact hpublished.no_monorepo _ hdependency (.inl (by decide))

end Publish

end Snpm.Publish
