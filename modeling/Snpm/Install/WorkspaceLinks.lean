import Mathlib
import Snpm.Install.RecordSteps
import Snpm.Install.WorkspaceOrder

/-!
Where the dependencies of workspace members are linked. Roots are collected from
the specs that catalog references stand for, links are made from the specs as
they stand in the manifest, and nothing is linked when no root is left.
-/
namespace Snpm.Install
namespace WorkspaceInstall

/-- A member declares a dependency in one of its sections. -/
def Declares (project : Project) (name spec : String) : Prop :=
  project.manifest.dependencies[name]? = some spec ∨
    project.manifest.devDependencies[name]? = some spec ∨
    project.manifest.optionalDependencies[name]? = some spec

/-- Some declaration of a name is linked to a sibling. -/
def LinkedLocally (S : SemverCrate) (workspace : Workspace) (project : Project) (name : String) :
    Prop :=
  ∃ spec, Declares project name spec ∧
    isLocalWorkspaceDependency S workspace name spec = .ok true

/-- Some declaration of a name may be linked to the virtual store. -/
def LinkedOutside (project : Project) (name : String) : Prop :=
  ∃ spec, Declares project name spec ∧ Text.startsWith spec "workspace:" = false

/-- Where the root resolution of a name lies. -/
def rootTarget (graph : ResolutionGraph) (virtualStorePaths : BTreeMap PackageId PathBuf)
    (name : String) : Option PathBuf :=
  (graph.root.dependencies[name]?).bind fun dep => virtualStorePaths[dep.resolved]?

section Links

variable {S : SemverCrate} {world : World} {workspace : Workspace} {graph : ResolutionGraph}
  {virtualStorePaths : BTreeMap PackageId PathBuf} {nodeModules : PathBuf}
  {deps : BTreeMap String String} {localDeps : BTreeSet String}
  {links links' : BTreeMap String PathBuf} {name : String}

theorem collectLocalDeps_ok (h : collectLocalDeps S workspace deps = .ok localDeps)
    (name : String) :
    (localDeps.contains name = true ↔ ∃ spec, deps[name]? = some spec ∧
      isLocalWorkspaceDependency S workspace name spec = .ok true) := by
  obtain ⟨found, hfound, h⟩ := Result.bind_eq_ok h
  cases h
  rw [contains_optionalNames, BTreeMap.mem_iff_exists]
  obtain ⟨hother, hown⟩ := BTreeMap.filterMapM_ok hfound name
  cases hspec : deps[name]? with
  | none => simp [hother hspec]
  | some spec =>
      obtain ⟨isLocal, hlocal, hentry⟩ := Result.bind_eq_ok (hown spec hspec)
      rw [← Except.ok.inj hentry]
      cases isLocal with
      | true => simp [hlocal]
      | false => simp [hlocal]

/-- What the external step does to the link of its own name. -/
def externalLink (localDeps : BTreeSet String) (graph : ResolutionGraph)
    (virtualStorePaths : BTreeMap PackageId PathBuf) (name spec : String)
    (current : Option PathBuf) : Option (Option PathBuf) :=
  if Text.startsWith spec "workspace:" || localDeps.contains name then some current
  else
    match graph.root.dependencies[name]? with
    | none => some current
    | some dep => (virtualStorePaths[dep.resolved]?).map some

theorem linkExternalDep_acts {spec : String}
    (h : linkExternalDep world localDeps graph virtualStorePaths nodeModules links (name, spec) =
      .ok links') :
    externalLink localDeps graph virtualStorePaths name spec links[name]? =
        some links'[name]? ∧
      ∀ other, other ≠ name → links'[other]? = links[other]? := by
  unfold linkExternalDep at h
  unfold externalLink
  simp only at h
  split at h
  next hskip =>
      rw [if_pos hskip]
      cases h
      exact ⟨rfl, fun _ _ => rfl⟩
  next hskip =>
      rw [if_neg hskip]
      cases hroot : graph.root.dependencies[name]? with
      | none =>
          rw [hroot] at h
          cases h
          exact ⟨rfl, fun _ _ => rfl⟩
      | some dep =>
          rw [hroot] at h
          simp only at h ⊢
          cases htarget : virtualStorePaths[dep.resolved]? with
          | none =>
              rw [htarget] at h
              cases h
          | some target =>
              rw [htarget] at h
              obtain ⟨_, -, h⟩ := Result.bind_eq_ok h
              cases h
              refine ⟨by simp, fun other hother => ?_⟩
              rw [BTreeMap.getElem?_insert_self_or, if_neg hother.symm]

/-- What linking a section does to a name: nothing when the name is not taken
from it, and else the link of the root. -/
theorem linkExternalDeps_acts
    (h : linkExternalDeps world deps localDeps graph virtualStorePaths nodeModules links =
      .ok links') (name : String) :
    (deps[name]? = none → links'[name]? = links[name]?) ∧
      ∀ spec, deps[name]? = some spec →
        externalLink localDeps graph virtualStorePaths name spec links[name]? =
          some links'[name]? := by
  obtain ⟨hother, hown⟩ := @KeyedFold.foldlM_acts_of _ _ _ _ _
    (fun (links : BTreeMap String PathBuf) (name : String) => links[name]?)
    (linkExternalDep world localDeps graph virtualStorePaths nodeModules)
    (externalLink localDeps graph virtualStorePaths) linkExternalDep_acts _ _ _
    (nodup_names deps) h
  refine ⟨fun hnone => hother name ?_, fun spec hspec =>
    hown name spec (Std.ExtTreeMap.mem_toList_iff_getElem?_eq_some.mpr hspec)⟩
  rw [mem_names_iff, hnone]
  simp

/-- A section leaves the link of a name or sets it to the root of the name. -/
theorem linkExternalDeps_cases
    (h : linkExternalDeps world deps localDeps graph virtualStorePaths nodeModules links =
      .ok links') (name : String) :
    links'[name]? = links[name]? ∨
      ∃ path, rootTarget graph virtualStorePaths name = some path ∧ links'[name]? = some path := by
  obtain ⟨hother, hown⟩ := linkExternalDeps_acts h name
  cases hspec : deps[name]? with
  | none => exact .inl (hother hspec)
  | some spec =>
      have hact := hown spec hspec
      unfold externalLink at hact
      unfold rootTarget
      split at hact
      next => exact .inl (Option.some.inj hact).symm
      next =>
          split at hact
          next => exact .inl (Option.some.inj hact).symm
          next dep hroot =>
              obtain ⟨path, hpath, hlink⟩ := Option.map_eq_some_iff.mp hact
              rw [hroot, Option.bind_some, hpath]
              exact .inr ⟨path, rfl, hlink.symm⟩

theorem linkExternalDeps_taken
    (h : linkExternalDeps world deps localDeps graph virtualStorePaths nodeModules links =
      .ok links') (hlocal : localDeps.contains name = false) {spec : String} {dep : RootDependency}
    (hspec : deps[name]? = some spec) (houtside : Text.startsWith spec "workspace:" = false)
    (hroot : graph.root.dependencies[name]? = some dep) :
    ∃ path, rootTarget graph virtualStorePaths name = some path ∧ links'[name]? = some path := by
  have hact := (linkExternalDeps_acts h name).2 spec hspec
  unfold externalLink at hact
  rw [houtside, hlocal, Bool.or_false, if_neg Bool.false_ne_true, hroot] at hact
  obtain ⟨path, hpath, hlink⟩ := Option.map_eq_some_iff.mp hact
  unfold rootTarget
  rw [hroot, Option.bind_some, hpath]
  exact ⟨path, rfl, hlink.symm⟩

theorem linkExternalDeps_left
    (h : linkExternalDeps world deps localDeps graph virtualStorePaths nodeModules links =
      .ok links')
    (hinside : ∀ spec, deps[name]? = some spec → Text.startsWith spec "workspace:" = true) :
    links'[name]? = links[name]? := by
  obtain ⟨hother, hown⟩ := linkExternalDeps_acts h name
  cases hspec : deps[name]? with
  | none => exact hother hspec
  | some spec =>
      have hact := hown spec hspec
      unfold externalLink at hact
      rw [hinside spec hspec, Bool.true_or, if_pos rfl] at hact
      exact (Option.some.inj hact).symm

theorem linkLocalDeps_acts {localDeps localDevDeps : BTreeSet String} {names : List String}
    (h : names.foldlM (linkLocalDep world workspace localDeps localDevDeps true nodeModules) links =
      .ok links') (name : String) :
    (name ∈ names → ∃ sibling, workspace.projectByName name = some sibling ∧
        links'[name]? = some sibling.root) ∧
      (name ∉ names → links'[name]? = links[name]?) := by
  induction names generalizing links with
  | nil =>
      cases h
      exact ⟨fun hmem => absurd hmem List.not_mem_nil, fun _ => rfl⟩
  | cons first names ih =>
      rw [List.foldlM_cons] at h
      obtain ⟨next, hnext, hrest⟩ := Result.bind_eq_ok h
      obtain ⟨hin, hout⟩ := ih hrest
      unfold linkLocalDep at hnext
      rw [Bool.not_true, Bool.false_and, Bool.false_and, if_neg Bool.false_ne_true] at hnext
      cases hsibling : workspace.projectByName first with
      | none =>
          rw [hsibling] at hnext
          cases hnext
      | some sibling =>
          rw [hsibling] at hnext
          obtain ⟨_, -, hnext⟩ := Result.bind_eq_ok hnext
          cases hnext
          constructor
          · intro hmem
            by_cases hlater : name ∈ names
            · exact hin hlater
            · have hfirst : name = first :=
                (List.mem_cons.mp hmem).resolve_right hlater
              subst hfirst
              exact ⟨sibling, hsibling, by rw [hout hlater, Std.ExtTreeMap.getElem?_insert_self]⟩
          · intro hmem
            rw [List.mem_cons, not_or] at hmem
            rw [hout hmem.2, BTreeMap.getElem?_insert_self_or, if_neg (Ne.symm hmem.1)]

end Links

section Member

variable {S : SemverCrate} {world : World} {workspace : Workspace} {graph : ResolutionGraph}
  {virtualStorePaths : BTreeMap PackageId PathBuf} {project : Project}
  {links : BTreeMap String PathBuf} {name : String}

/-- The stages of linking a member in a full install. -/
theorem linkProjectDependencies_ok
    (h : linkProjectDependencies S world workspace graph virtualStorePaths true project =
      .ok links) :
    ∃ localDeps localDevDeps localOptionalDeps first second third,
      collectLocalDeps S workspace project.manifest.dependencies = .ok localDeps ∧
      collectLocalDeps S workspace project.manifest.devDependencies = .ok localDevDeps ∧
      collectLocalDeps S workspace project.manifest.optionalDependencies = .ok localOptionalDeps ∧
      linkExternalDeps world project.manifest.dependencies localDeps graph virtualStorePaths
        (project.root.join "node_modules") (world.nodeModules project) = .ok first ∧
      linkExternalDeps world project.manifest.devDependencies localDevDeps graph virtualStorePaths
        (project.root.join "node_modules") first = .ok second ∧
      linkExternalDeps world project.manifest.optionalDependencies localOptionalDeps graph
        virtualStorePaths (project.root.join "node_modules") second = .ok third ∧
      linkLocalWorkspaceDeps world workspace localDeps localDevDeps localOptionalDeps true
        (project.root.join "node_modules") third = .ok links := by
  obtain ⟨localDeps, hdeps, h⟩ := Result.bind_eq_ok h
  obtain ⟨localDevDeps, hdev, h⟩ := Result.bind_eq_ok h
  obtain ⟨localOptionalDeps, hoptional, h⟩ := Result.bind_eq_ok h
  obtain ⟨first, hfirst, h⟩ := Result.bind_eq_ok h
  obtain ⟨second, hsecond, h⟩ := Result.bind_eq_ok h
  obtain ⟨third, hthird, h⟩ := Result.bind_eq_ok h
  exact ⟨_, _, _, _, _, _, hdeps, hdev, hoptional, hfirst, hsecond, hthird, h⟩

theorem linkedLocally_iff {localDeps localDevDeps localOptionalDeps : BTreeSet String}
    (hdeps : collectLocalDeps S workspace project.manifest.dependencies = .ok localDeps)
    (hdev : collectLocalDeps S workspace project.manifest.devDependencies = .ok localDevDeps)
    (hoptional : collectLocalDeps S workspace project.manifest.optionalDependencies =
      .ok localOptionalDeps) (name : String) :
    name ∈ localDeps.toList ++ localDevDeps.toList ++ localOptionalDeps.toList ↔
      LinkedLocally S workspace project name := by
  simp only [List.mem_append, Std.ExtTreeSet.mem_toList, Std.ExtTreeSet.mem_iff_contains,
    collectLocalDeps_ok hdeps, collectLocalDeps_ok hdev, collectLocalDeps_ok hoptional]
  constructor
  · rintro ((⟨spec, hspec, hlocal⟩ | ⟨spec, hspec, hlocal⟩) | ⟨spec, hspec, hlocal⟩)
    · exact ⟨spec, .inl hspec, hlocal⟩
    · exact ⟨spec, .inr (.inl hspec), hlocal⟩
    · exact ⟨spec, .inr (.inr hspec), hlocal⟩
  · rintro ⟨spec, hspec | hspec | hspec, hlocal⟩
    · exact .inl (.inl ⟨spec, hspec, hlocal⟩)
    · exact .inl (.inr ⟨spec, hspec, hlocal⟩)
    · exact .inr ⟨spec, hspec, hlocal⟩

theorem link_of_linkedLocally
    (h : linkProjectDependencies S world workspace graph virtualStorePaths true project =
      .ok links) (hlocal : LinkedLocally S workspace project name) :
    ∃ sibling, workspace.projectByName name = some sibling ∧
      links[name]? = some sibling.root := by
  obtain ⟨_, _, _, _, _, _, hdeps, hdev, hoptional, -, -, -, hlast⟩ := linkProjectDependencies_ok h
  exact (linkLocalDeps_acts hlast name).1
    ((linkedLocally_iff hdeps hdev hoptional name).mpr hlocal)

/-- A name that is not linked to a sibling keeps its link or gets the root's. -/
theorem link_cases
    (h : linkProjectDependencies S world workspace graph virtualStorePaths true project =
      .ok links) (hlocal : ¬LinkedLocally S workspace project name) :
    links[name]? = (world.nodeModules project)[name]? ∨
      ∃ path, rootTarget graph virtualStorePaths name = some path ∧ links[name]? = some path := by
  obtain ⟨_, _, _, first, second, third, hdeps, hdev, hoptional, hfirst, hsecond, hthird, hlast⟩ :=
    linkProjectDependencies_ok h
  rw [(linkLocalDeps_acts hlast name).2
    (fun hmem => hlocal ((linkedLocally_iff hdeps hdev hoptional name).mp hmem))]
  rcases linkExternalDeps_cases hthird name with heq | htarget
  · rw [heq]
    rcases linkExternalDeps_cases hsecond name with heq | htarget
    · rw [heq]
      exact linkExternalDeps_cases hfirst name
    · exact .inr htarget
  · exact .inr htarget

theorem link_of_inside
    (h : linkProjectDependencies S world workspace graph virtualStorePaths true project =
      .ok links) (hlocal : ¬LinkedLocally S workspace project name)
    (hinside : ¬LinkedOutside project name) :
    links[name]? = (world.nodeModules project)[name]? := by
  obtain ⟨_, _, _, first, second, third, hdeps, hdev, hoptional, hfirst, hsecond, hthird, hlast⟩ :=
    linkProjectDependencies_ok h
  have hspecs : ∀ spec, Declares project name spec → Text.startsWith spec "workspace:" = true := by
    intro spec hspec
    by_contra hout
    exact hinside ⟨spec, hspec, Bool.not_eq_true _ ▸ hout⟩
  rw [(linkLocalDeps_acts hlast name).2
      (fun hmem => hlocal ((linkedLocally_iff hdeps hdev hoptional name).mp hmem)),
    linkExternalDeps_left hthird fun spec hspec => hspecs spec (.inr (.inr hspec)),
    linkExternalDeps_left hsecond fun spec hspec => hspecs spec (.inr (.inl hspec)),
    linkExternalDeps_left hfirst fun spec hspec => hspecs spec (.inl hspec)]

theorem link_of_outside
    (h : linkProjectDependencies S world workspace graph virtualStorePaths true project =
      .ok links) (hlocal : ¬LinkedLocally S workspace project name)
    (houtside : LinkedOutside project name) (hroot : name ∈ graph.root.dependencies) :
    ∃ path, rootTarget graph virtualStorePaths name = some path ∧ links[name]? = some path := by
  obtain ⟨_, _, _, first, second, third, hdeps, hdev, hoptional, hfirst, hsecond, hthird, hlast⟩ :=
    linkProjectDependencies_ok h
  obtain ⟨dep, hroot⟩ := BTreeMap.mem_iff_exists.mp hroot
  have hnot : ∀ {deps : BTreeMap String String} {localDeps : BTreeSet String},
      collectLocalDeps S workspace deps = .ok localDeps →
      (∀ spec, deps[name]? = some spec → Declares project name spec) →
        localDeps.contains name = false := by
    intro deps localDeps hcollect hdeclares
    rw [← Bool.not_eq_true, collectLocalDeps_ok hcollect]
    rintro ⟨spec, hspec, hsibling⟩
    exact hlocal ⟨spec, hdeclares spec hspec, hsibling⟩
  rw [(linkLocalDeps_acts hlast name).2
    (fun hmem => hlocal ((linkedLocally_iff hdeps hdev hoptional name).mp hmem))]
  obtain ⟨spec, hspec, houtside⟩ := houtside
  rcases hspec with hspec | hspec | hspec
  · obtain ⟨path, htarget, hlink⟩ := linkExternalDeps_taken hfirst
      (hnot hdeps fun _ h => .inl h) hspec houtside hroot
    rcases linkExternalDeps_cases hthird name with heq | htarget'
    · rw [heq]
      rcases linkExternalDeps_cases hsecond name with heq | htarget'
      · exact ⟨path, htarget, heq.trans hlink⟩
      · exact htarget'
    · exact htarget'
  · have hset := linkExternalDeps_taken hsecond (hnot hdev fun _ h => .inr (.inl h)) hspec
      houtside hroot
    rcases linkExternalDeps_cases hthird name with heq | htarget
    · rw [heq]
      exact hset
    · exact htarget
  · exact linkExternalDeps_taken hthird (hnot hoptional fun _ h => .inr (.inr h)) hspec houtside
      hroot

end Member

section Collected

variable {S : SemverCrate} {workspace : Workspace} {project : Project} {name spec : String}

/-- A declaration that was collected has been resolved and classified, and is a
root unless it is local. -/
def Collected (S : SemverCrate) (workspace : Workspace) (name spec : String)
    (isRoot : Prop) : Prop :=
  ∃ resolved isLocal, catalogResolved (some workspace) none name spec = .ok resolved ∧
    isLocalWorkspaceDependency S workspace name resolved = .ok isLocal ∧
    (isLocal = false → isRoot)

theorem collected_of_applyMemberSpecs {overrides deps applied : BTreeMap String String}
    (h : applyMemberSpecs S workspace overrides deps = .ok applied)
    (hspec : deps[name]? = some spec) : Collected S workspace name spec (name ∈ applied) := by
  obtain ⟨found, hfound, h⟩ := Result.bind_eq_ok h
  obtain ⟨resolved, hresolved, hentry⟩ :=
    Result.bind_eq_ok ((BTreeMap.filterMapM_ok hfound name).2 spec hspec)
  obtain ⟨isLocal, hlocal, hentry⟩ := Result.bind_eq_ok hentry
  refine ⟨resolved, isLocal, hresolved, hlocal, fun hfalse => ?_⟩
  subst hfalse
  have hname : found[name]? = some resolved := (Except.ok.inj hentry).symm
  have hmember := (BTreeMap.filterMapM_ok h name).2 resolved hname
  rw [BTreeMap.mem_iff_exists]
  unfold memberSpec at hmember
  simp only at hmember
  split at hmember
  next =>
      split at hmember
      next =>
          obtain ⟨_, -, hmember⟩ := Result.bind_eq_ok hmember
          exact ⟨_, (Except.ok.inj hmember).symm⟩
      next => exact ⟨_, (Except.ok.inj hmember).symm⟩
  next => exact ⟨_, (Except.ok.inj hmember).symm⟩

theorem Collected.mono {isRoot isRoot' : Prop} (h : Collected S workspace name spec isRoot)
    (hroot : isRoot → isRoot') : Collected S workspace name spec isRoot' := by
  obtain ⟨resolved, isLocal, hresolved, hlocal, hfalse⟩ := h
  exact ⟨resolved, isLocal, hresolved, hlocal, fun hnot => hroot (hfalse hnot)⟩

theorem collected_of_member {overrides : BTreeMap String String} {memberSpecs : RootSpecSet}
    (h : buildMemberRootSpecs S workspace overrides project true = .ok memberSpecs)
    (hspec : Declares project name spec) :
    Collected S workspace name spec (name ∈ memberSpecs.required ∪ memberSpecs.optional) := by
  obtain ⟨dependencies, hdependencies, h⟩ := Result.bind_eq_ok h
  obtain ⟨optional, hoptional, h⟩ := Result.bind_eq_ok h
  obtain ⟨development, hdevelopment, h⟩ := Result.bind_eq_ok h
  cases h
  have hrequired : name ∈ dependencies ∨ name ∈ development ∨ name ∈ optional →
      name ∈ (buildProjectRootSpecs dependencies development optional true).required ∪
        (buildProjectRootSpecs dependencies development optional true).optional := by
    intro hmem
    rw [Std.ExtTreeMap.mem_union_iff]
    by_cases hname : name ∈ optional
    · exact .inr hname
    · refine .inl ?_
      rw [buildProjectRootSpecs, Std.ExtTreeMap.mem_diff_iff, if_pos rfl,
        Std.ExtTreeMap.mem_union_iff]
      refine ⟨?_, hname⟩
      rcases hmem with hmem | hmem | hmem
      · exact .inr hmem
      · exact .inl hmem
      · exact absurd hmem hname
  rcases hspec with hspec | hspec | hspec
  · exact (collected_of_applyMemberSpecs hdependencies hspec).mono fun h => hrequired (.inl h)
  · exact (collected_of_applyMemberSpecs hdevelopment hspec).mono
      fun h => hrequired (.inr (.inl h))
  · exact (collected_of_applyMemberSpecs hoptional hspec).mono fun h => hrequired (.inr (.inr h))

/-- Every declaration of a member is classified by the plan of a full install. -/
theorem collected_of_plan {H : Digest.Hash} {input : LayoutInput} {mode : FrozenLockfileMode}
    {strict force : Bool} {plan : WorkspaceInstallPlan}
    (hplan : planWorkspaceInstall H S input workspace true mode strict force = .ok plan)
    (hproject : project ∈ workspace.projects) (hspec : Declares project name spec) :
    Collected S workspace name spec
      (name ∈ plan.setup.rootSpecs.required ∪ plan.setup.rootSpecs.optional) := by
  obtain ⟨setup, hsetup, hpinned, -⟩ := planWorkspaceInstall_ok hplan
  obtain ⟨overrides, rootSpecs, -, hcollect, rfl⟩ := prepareWorkspaceInstall_ok hsetup
  obtain ⟨memberSpecs, hbuild⟩ := collect_builds S input.files workspace true overrides hcollect
    project hproject
  rw [hpinned, pinSetup_rootSpecs]
  exact (collected_of_member hbuild hspec).mono fun hname =>
    root_of_member hcollect hproject hbuild hname

theorem mem_rootDependencies {H : Digest.Hash} {input : LayoutInput} {mode : FrozenLockfileMode}
    {includeDev strict force : Bool} {plan : WorkspaceInstallPlan}
    (hplan : planWorkspaceInstall H S input workspace includeDev mode strict force = .ok plan)
    (hname : name ∈ plan.setup.rootSpecs.required ∪ plan.setup.rootSpecs.optional) :
    name ∈ plan.setup.rootDependencies := by
  obtain ⟨setup, hsetup, hpinned, -⟩ := planWorkspaceInstall_ok hplan
  obtain ⟨overrides, rootSpecs, -, -, rfl⟩ := prepareWorkspaceInstall_ok hsetup
  rw [hpinned, pinSetup_rootSpecs] at hname
  rw [hpinned]
  unfold pinSetup
  split
  next =>
      unfold pinnedWorkspaceRootDependenciesForFix
      simp only
      split
      next => exact hname
      next =>
          rw [pinRoots, Std.ExtTreeMap.mem_union_iff, Std.ExtTreeMap.mem_union_iff]
          exact .inl (.inl hname)
  next => exact hname

end Collected

section Agreement

variable (S : SemverCrate) (world : World) (workspace : Workspace) (plan : WorkspaceInstallPlan)
  (force : Bool) (result : Option InstallOutcome)

/-- The members and their links after the install; an install that had nothing
to do leaves the links as they were. -/
def membersAfter : List LinkedMember :=
  match result with
  | none => workspace.projects.map fun project => ⟨project, world.nodeModules project⟩
  | some outcome => outcome.finalized.members

/-- Where the root resolution of a name lies after the install. -/
def targetAfter (name : String) : Option PathBuf :=
  result.bind fun outcome =>
    rootTarget outcome.loaded.graph outcome.finalized.virtualStorePaths name

/-- The install went on without a resolution of the root. -/
def Unresolved (name : String) : Prop :=
  ∃ outcome, result = some outcome ∧ name ∉ outcome.loaded.graph.root.dependencies

/-- What each member declares is linked to the sibling that its spec stands for,
and else to the resolution of the root. -/
def MembersLinked : Prop :=
  ∀ member ∈ membersAfter world workspace result, ∀ (name spec resolved : String),
    Declares member.project name spec →
    catalogResolved (some workspace) none name spec = .ok resolved →
    (isLocalWorkspaceDependency S workspace name resolved = .ok true →
      ∃ sibling, workspace.projectByName name = some sibling ∧
        member.links[name]? = some sibling.root) ∧
    (isLocalWorkspaceDependency S workspace name resolved = .ok false →
      (∃ path, targetAfter result name = some path ∧ member.links[name]? = some path) ∨
        (name ∈ member.project.manifest.optionalDependencies ∧ Unresolved result name))

/-- The graph that is resolved, or that is taken from the disk. -/
def Uses (graph : ResolutionGraph) : Prop :=
  (plan.scenario = .cold → ∃ storePaths,
      world.resolve plan.setup force plan.scenarioGraph = .ok (graph, storePaths)) ∧
    (plan.scenario ≠ .cold → plan.scenarioGraph = some graph)

/-- The specs in the manifests are classified like the specs they stand for, a
name is a sibling in all sections or in none, and there is a root unless nothing
is declared. A graph from the disk has the roots, and so has a resolution for
roots that some member declares optional. -/
structure ClassifiedAlike : Prop where
  roots : plan.setup.rootDependencies.isEmpty = true → ∀ project ∈ workspace.projects,
    ∀ (name spec : String), ¬Declares project name spec
  siblings : plan.setup.rootDependencies.isEmpty = false → ∀ project ∈ workspace.projects,
    ∀ (name spec resolved : String), Declares project name spec →
      catalogResolved (some workspace) none name spec = .ok resolved →
      isLocalWorkspaceDependency S workspace name resolved = .ok true →
        LinkedLocally S workspace project name
  outside : plan.setup.rootDependencies.isEmpty = false → ∀ project ∈ workspace.projects,
    ∀ (name spec resolved : String), Declares project name spec →
      catalogResolved (some workspace) none name spec = .ok resolved →
      isLocalWorkspaceDependency S workspace name resolved = .ok false →
      ∀ graph, Uses world plan force graph →
        (¬LinkedLocally S workspace project name ∧ LinkedOutside project name ∧
          ((plan.scenario = .cold → name ∈ plan.setup.rootSpecs.optional) →
            name ∈ graph.root.dependencies)) ∨
          (name ∈ project.manifest.optionalDependencies ∧ name ∉ graph.root.dependencies)

/-- No member has links yet, and no place in the virtual store is a member. -/
structure Apart : Prop where
  fresh : ∀ project ∈ workspace.projects, world.nodeModules project = ∅
  outside : ∀ scenario graph storePaths virtualStorePaths,
    world.virtualStore scenario graph storePaths = .ok virtualStorePaths →
      ∀ (id : PackageId) path, virtualStorePaths[id]? = some path →
        ∀ sibling ∈ workspace.projects, path ≠ sibling.root

end Agreement

section Install

variable {H : Digest.Hash} {S : SemverCrate} {world : World} {config : SnpmConfig}
  {workspace : Workspace} {files : FileView} {mode : FrozenLockfileMode} {strict force : Bool}
  {plan : WorkspaceInstallPlan} {result : Option InstallOutcome}

theorem exists_of_mapM_ok {α β : Type} {f : α → Result β} {xs : List α} {ys : List β}
    (h : xs.mapM f = .ok ys) : ∀ x ∈ xs, ∃ y ∈ ys, f x = .ok y := by
  induction xs generalizing ys with
  | nil => exact fun x hx => absurd hx List.not_mem_nil
  | cons first xs ih =>
      rw [List.mapM_cons] at h
      obtain ⟨y, hy, h⟩ := Result.bind_eq_ok h
      obtain ⟨rest, hrest, h⟩ := Result.bind_eq_ok h
      cases h
      intro x hx
      cases List.mem_cons.mp hx with
      | inl heq => exact ⟨y, List.mem_cons_self, heq ▸ hy⟩
      | inr hmem =>
          obtain ⟨z, hz, hxz⟩ := ih hrest x hmem
          exact ⟨z, List.mem_cons_of_mem _ hz, hxz⟩

theorem linkMember_ok {graph : ResolutionGraph} {virtualStorePaths : BTreeMap PackageId PathBuf}
    {includeDev : Bool} {project : Project} {member : LinkedMember}
    (h : linkMember S world workspace graph virtualStorePaths includeDev project = .ok member) :
    member.project = project ∧ linkProjectDependencies S world workspace graph virtualStorePaths
      includeDev project = .ok member.links := by
  obtain ⟨links, hlinks, h⟩ := Result.bind_eq_ok h
  cases h
  exact ⟨rfl, hlinks⟩

theorem finalizeWorkspaceInstall_ok {graph : ResolutionGraph}
    {storePaths : BTreeMap PackageId PathBuf} {includeDev : Bool} {scenario : InstallScenario}
    {finalized : FinalizedInstall}
    (h : finalizeWorkspaceInstall S world workspace graph storePaths includeDev scenario =
      .ok finalized) :
    world.virtualStore scenario graph storePaths = .ok finalized.virtualStorePaths ∧
      workspace.projects.mapM (linkMember S world workspace graph finalized.virtualStorePaths
        includeDev) = .ok finalized.members := by
  obtain ⟨paths, hpaths, h⟩ := Result.bind_eq_ok h
  obtain ⟨members, hmembers, h⟩ := Result.bind_eq_ok h
  obtain ⟨_, -, h⟩ := Result.bind_eq_ok h
  cases h
  exact ⟨hpaths, hmembers⟩

theorem uses_of_loaded {includeDev : Bool} {loaded : WorkspaceGraphLoad}
    (h : loadWorkspaceGraph world config files plan includeDev force = .ok loaded) :
    Uses world plan force loaded.graph := by
  obtain ⟨hcold, hwarm⟩ := loadWorkspaceGraph_ok h
  exact ⟨fun hcase => (hcold hcase).1, fun hcase => (hwarm hcase).1⟩

theorem Uses.unique {graph graph' : ResolutionGraph} (h : Uses world plan force graph)
    (h' : Uses world plan force graph') : graph = graph' := by
  by_cases hcase : plan.scenario = .cold
  · obtain ⟨storePaths, hresolve⟩ := h.1 hcase
    obtain ⟨storePaths', hresolve'⟩ := h'.1 hcase
    rw [hresolve] at hresolve'
    cases hresolve'
    rfl
  · exact Option.some.inj ((h.2 hcase).symm.trans (h'.2 hcase))

/-- A root that is not optional is in every resolution. -/
theorem mem_root_of_resolved {graph : ResolutionGraph} {name : String}
    (hroots : RootsOf plan.setup.rootDependencies plan.setup.optionalRootNames graph)
    (hnames : plan.setup.optionalRootNames = .ofList plan.setup.rootSpecs.optional.keys compare)
    (hname : name ∈ plan.setup.rootDependencies) (hrequired : name ∉ plan.setup.rootSpecs.optional) :
    name ∈ graph.root.dependencies := by
  obtain ⟨resolvePackage, hroots⟩ := hroots
  obtain ⟨range, hrange⟩ := BTreeMap.mem_iff_exists.mp hname
  rcases (Resolve.root_of_resolveRootDependencies hroots name).2 range hrange with
    ⟨id, -, hroot⟩ | ⟨hoptional, -⟩
  · exact BTreeMap.mem_iff_exists.mpr ⟨_, hroot⟩
  · rw [hnames, contains_optionalNames] at hoptional
    exact absurd hoptional hrequired

/-- An install is one that had nothing to do or one whose plan has roots. -/
theorem installWorkspace_cases
    (hplan : planWorkspaceInstall H S ⟨config, some workspace, files⟩ workspace true mode strict
      force = .ok plan)
    (hinstall : installWorkspace H S world config workspace files true mode strict force =
      .ok result) :
    (result = none ∧ (workspace.projects = [] ∨ plan.setup.rootDependencies.isEmpty = true)) ∨
      ∃ outcome, result = some outcome ∧ outcome.plan = plan ∧
        plan.setup.rootDependencies.isEmpty = false ∧
        Uses world plan force outcome.loaded.graph ∧
        world.virtualStore plan.scenario outcome.loaded.graph outcome.loaded.storePaths =
          .ok outcome.finalized.virtualStorePaths ∧
        workspace.projects.mapM (linkMember S world workspace outcome.loaded.graph
          outcome.finalized.virtualStorePaths true) = .ok outcome.finalized.members := by
  cases result with
  | some outcome =>
      obtain ⟨hplanned, hroots, hloaded, hfinalized, -⟩ := installWorkspace_some hinstall
      rw [hplan, Except.ok.injEq] at hplanned
      subst hplanned
      obtain ⟨hpaths, hmembers⟩ := finalizeWorkspaceInstall_ok hfinalized
      exact .inr ⟨outcome, rfl, rfl, hroots, uses_of_loaded hloaded, hpaths, hmembers⟩
  | none =>
      refine .inl ⟨rfl, ?_⟩
      unfold installWorkspace at hinstall
      split at hinstall
      next hempty => exact .inl (List.isEmpty_iff.mp hempty)
      next =>
          obtain ⟨_, -, hinstall⟩ := Result.bind_eq_ok hinstall
          rw [hplan] at hinstall
          obtain ⟨planned, hplanned, hinstall⟩ := Result.bind_eq_ok hinstall
          cases hplanned
          split at hinstall
          next hroots => exact .inr hroots
          next =>
              obtain ⟨_, -, hinstall⟩ := Result.bind_eq_ok hinstall
              cases hinstall

theorem projectByName_mem {name : String} {sibling : Project}
    (h : workspace.projectByName name = some sibling) : sibling ∈ workspace.projects :=
  List.mem_of_find?_eq_some h

theorem mem_root_of_target {graph : ResolutionGraph}
    {virtualStorePaths : BTreeMap PackageId PathBuf} {name : String} {path : PathBuf}
    (h : rootTarget graph virtualStorePaths name = some path) :
    name ∈ graph.root.dependencies ∧ ∃ id : PackageId, virtualStorePaths[id]? = some path := by
  obtain ⟨dep, hdep, hpath⟩ := Option.bind_eq_some_iff.mp h
  exact ⟨BTreeMap.mem_iff_exists.mpr ⟨dep, hdep⟩, dep.resolved, hpath⟩

theorem linked_of_classifiedAlike
    (hplan : planWorkspaceInstall H S ⟨config, some workspace, files⟩ workspace true mode strict
      force = .ok plan)
    (hresolves : ∀ graph storePaths,
      world.resolve plan.setup force plan.scenarioGraph = .ok (graph, storePaths) →
        RootsOf plan.setup.rootDependencies plan.setup.optionalRootNames graph)
    (hinstall : installWorkspace H S world config workspace files true mode strict force =
      .ok result)
    (hcond : ClassifiedAlike S world workspace plan force) :
    MembersLinked S world workspace result := by
  intro member hmember name spec resolved hspec hresolved
  rcases installWorkspace_cases hplan hinstall with
    ⟨rfl, hnothing⟩ | ⟨outcome, rfl, -, hroots, huses, hpaths, hmembers⟩
  · obtain ⟨project, hproject, rfl⟩ := List.mem_map.mp hmember
    rcases hnothing with hempty | hempty
    · rw [hempty] at hproject
      exact absurd hproject List.not_mem_nil
    · exact absurd hspec (hcond.roots hempty project hproject name spec)
  · obtain ⟨project, hproject, hlinked⟩ := mapM_ok_mem hmembers member hmember
    obtain ⟨hsame, hlinks⟩ := linkMember_ok hlinked
    rw [hsame] at hspec ⊢
    constructor
    · intro hlocal
      exact link_of_linkedLocally hlinks
        (hcond.siblings hroots project hproject name spec resolved hspec hresolved hlocal)
    · intro houtside
      rcases hcond.outside hroots project hproject name spec resolved hspec hresolved houtside
        outcome.loaded.graph huses with ⟨hnot, hout, hroot⟩ | ⟨hoptional, hmissing⟩
      · have hname : name ∈ outcome.loaded.graph.root.dependencies := by
          by_cases hcase : plan.scenario = .cold → name ∈ plan.setup.rootSpecs.optional
          · exact hroot hcase
          · rw [Classical.not_imp] at hcase
            obtain ⟨hcold, hrequired⟩ := hcase
            obtain ⟨storePaths, hresolve⟩ := huses.1 hcold
            obtain ⟨resolved', isLocal, hresolved', hlocal', hisRoot⟩ :=
              collected_of_plan hplan hproject hspec
            rw [hresolved] at hresolved'
            cases hresolved'
            rw [houtside] at hlocal'
            exact mem_root_of_resolved (hresolves _ _ hresolve) (setup_of_plan hplan).2.2
              (mem_rootDependencies hplan (hisRoot (Except.ok.inj hlocal').symm)) hrequired
        exact .inl (link_of_outside hlinks hnot hout hname)
      · exact .inr ⟨hoptional, outcome, rfl, hmissing⟩

theorem classifiedAlike_of_linked
    (hplan : planWorkspaceInstall H S ⟨config, some workspace, files⟩ workspace true mode strict
      force = .ok plan)
    (hinstall : installWorkspace H S world config workspace files true mode strict force =
      .ok result)
    (hapart : Apart world workspace) (hlinked : MembersLinked S world workspace result) :
    ClassifiedAlike S world workspace plan force := by
  rcases installWorkspace_cases hplan hinstall with
    ⟨rfl, hnothing⟩ | ⟨outcome, rfl, -, hroots, huses, hpaths, hmembers⟩
  · have hnoRoots : plan.setup.rootDependencies.isEmpty = false → ∀ project,
        project ∉ workspace.projects := by
      intro hroots project hproject
      rcases hnothing with hempty | hempty
      · rw [hempty] at hproject
        exact absurd hproject List.not_mem_nil
      · rw [hempty] at hroots
        cases hroots
    refine ⟨fun hempty project hproject name spec hspec => ?_,
      fun hroots project hproject => absurd hproject (hnoRoots hroots project),
      fun hroots project hproject => absurd hproject (hnoRoots hroots project)⟩
    obtain ⟨resolved, isLocal, hresolved, hlocal, hisRoot⟩ :=
      collected_of_plan hplan hproject hspec
    have hmember := hlinked ⟨project, world.nodeModules project⟩
      (List.mem_map.mpr ⟨project, hproject, rfl⟩) name spec resolved hspec hresolved
    cases isLocal with
    | true =>
        obtain ⟨sibling, -, hlink⟩ := hmember.1 hlocal
        rw [hapart.fresh project hproject, Std.ExtTreeMap.getElem?_empty] at hlink
        cases hlink
    | false =>
        have hname := mem_rootDependencies hplan (hisRoot rfl)
        rw [Std.ExtTreeMap.isEmpty_iff.mp hempty] at hname
        exact absurd hname Std.ExtTreeMap.not_mem_empty
  · refine ⟨fun hempty => absurd (hempty.symm.trans hroots) (by decide),
      fun _ project hproject name spec resolved hspec hresolved hlocal => ?_,
      fun _ project hproject name spec resolved hspec hresolved houtside graph hgraph => ?_⟩
    · obtain ⟨member, hmember, hmade⟩ := exists_of_mapM_ok hmembers project hproject
      obtain ⟨rfl, hlinks⟩ := linkMember_ok hmade
      obtain ⟨sibling, hsibling, hlink⟩ :=
        (hlinked member hmember name spec resolved hspec hresolved).1 hlocal
      by_contra hnot
      rcases link_cases hlinks hnot with hkept | ⟨path, htarget, hpath⟩
      · rw [hapart.fresh _ hproject, Std.ExtTreeMap.getElem?_empty, hlink] at hkept
        cases hkept
      · obtain ⟨-, id, hid⟩ := mem_root_of_target htarget
        rw [hlink, Option.some.injEq] at hpath
        exact hapart.outside _ _ _ _ hpaths id path hid sibling (projectByName_mem hsibling)
          hpath.symm
    · obtain ⟨member, hmember, hmade⟩ := exists_of_mapM_ok hmembers project hproject
      obtain ⟨rfl, hlinks⟩ := linkMember_ok hmade
      cases huses.unique hgraph
      rcases (hlinked member hmember name spec resolved hspec hresolved).2 houtside with
        ⟨path, htarget, hlink⟩ | ⟨hoptional, found, hfound, hmissing⟩
      · obtain ⟨hroot, id, hid⟩ := mem_root_of_target htarget
        have hnot : ¬LinkedLocally S workspace member.project name := by
          intro hlocal
          obtain ⟨sibling, hsibling, hlink'⟩ := link_of_linkedLocally hlinks hlocal
          rw [hlink, Option.some.injEq] at hlink'
          exact hapart.outside _ _ _ _ hpaths id path hid sibling (projectByName_mem hsibling)
            hlink'
        refine .inl ⟨hnot, ?_, fun _ => hroot⟩
        by_contra hinside
        have hkept := link_of_inside hlinks hnot hinside
        rw [hapart.fresh _ hproject, Std.ExtTreeMap.getElem?_empty, hlink] at hkept
        cases hkept
      · cases hfound
        exact .inr ⟨hoptional, hmissing⟩

/-- After a full install every declared dependency of every member is linked
where its spec points when specs are classified alike where roots are collected
and where links are made; and only then, when the members had no links and the
virtual store lies apart from them. -/
theorem members_linked_iff
    (hplan : planWorkspaceInstall H S ⟨config, some workspace, files⟩ workspace true mode strict
      force = .ok plan)
    (hresolves : ∀ graph storePaths,
      world.resolve plan.setup force plan.scenarioGraph = .ok (graph, storePaths) →
        RootsOf plan.setup.rootDependencies plan.setup.optionalRootNames graph)
    (hinstall : installWorkspace H S world config workspace files true mode strict force =
      .ok result) :
    (ClassifiedAlike S world workspace plan force → MembersLinked S world workspace result) ∧
      (Apart world workspace → MembersLinked S world workspace result →
        ClassifiedAlike S world workspace plan force) :=
  ⟨linked_of_classifiedAlike hplan hresolves hinstall, classifiedAlike_of_linked hplan hinstall⟩

end Install

section Examples

/-- A library and an application with the given dependencies. -/
def pairOf (deps : BTreeMap String String) : Workspace where
  root := "/ws"
  projects :=
    [⟨"/ws/lib", "/ws/lib/package.json", { Manifest.empty with
        name := some "lib"
        version := some "1.0.0" }⟩,
      ⟨"/ws/app", "/ws/app/package.json", { Manifest.empty with
        name := some "app"
        dependencies := deps }⟩]
  config := ⟨∅, ∅, [], [], none, none⟩

/-- The place of the one package in the virtual store. -/
def storeOfA : BTreeMap PackageId PathBuf :=
  BTreeMap.collect [(pkgA, "/ws/.snpm/a@1.0.0/node_modules/a")]

/-- A world that resolves to one package and in which every write succeeds. -/
def quietWorld : World where
  createClient := .ok ()
  checkAges _ := .ok ()
  resolve _ _ _ := .ok (onePackage, ∅)
  download _ := .ok ∅
  writeLockfile _ _ := .ok ()
  virtualStore _ _ _ := .ok storeOfA
  nodeModules _ := ∅
  symlink _ _ := .ok ()
  runScripts := .ok ()
  captureChecks _ := .ok []
  writeInstallState _ := .ok ()
  after := emptyView

def pairPlan (deps : BTreeMap String String) (roots : RootSpecSet) : WorkspaceInstallPlan :=
  ⟨setupOf (workspaceLockfilePath (pairOf deps)) none ∅ roots, .cold, none, none⟩

theorem plan_pair (deps : BTreeMap String String) (roots : RootSpecSet)
    (hroots : collectWorkspaceRootSpecsWithOverrides releaseCrate emptyView (pairOf deps) true ∅ =
      .ok roots) :
    planWorkspaceInstall Digest.unaryHash releaseCrate ⟨plainConfig, some (pairOf deps), emptyView⟩
      (pairOf deps) true .prefer false false = .ok (pairPlan deps roots) := by
  have hoverrides : loadWorkspaceOverrides emptyView (pairOf deps) = .ok ∅ := rfl
  have hprepare : prepareWorkspaceInstall releaseCrate emptyView (pairOf deps) true .prefer false =
      .ok (pairPlan deps roots).setup := by
    unfold prepareWorkspaceInstall
    rw [if_neg (by simp)]
    exact Result.bind_eq_ok_iff.mpr ⟨_, hoverrides, Result.bind_eq_ok_iff.mpr ⟨_, hroots, rfl⟩⟩
  exact Result.bind_eq_ok_iff.mpr ⟨_, hprepare, rfl⟩

def mixedDeps : BTreeMap String String :=
  BTreeMap.collect [("a", "1.0.0"), ("lib", "workspace:*")]

theorem declares_mixed {project : Project} (hproject : project ∈ (pairOf mixedDeps).projects)
    {name spec : String} (h : Declares project name spec) :
    project.root = "/ws/app" ∧ (name, spec) ∈ [("a", "1.0.0"), ("lib", "workspace:*")] := by
  have hempty : ∀ {text : String}, (∅ : BTreeMap String String)[name]? ≠ some text := by
    intro text
    rw [Std.ExtTreeMap.getElem?_empty]
    simp
  simp only [pairOf, List.mem_cons, List.not_mem_nil, or_false] at hproject
  rcases hproject with rfl | rfl
  · rcases h with h | h | h
    · exact absurd h hempty
    · exact absurd h hempty
    · exact absurd h hempty
  · rcases h with h | h | h
    · exact ⟨rfl, BTreeMap.mem_of_getElem?_collect h⟩
    · exact absurd h hempty
    · exact absurd h hempty

theorem classifiedAlike_mixed : ClassifiedAlike releaseCrate quietWorld (pairOf mixedDeps)
    (pairPlan mixedDeps ⟨onlySpec, ∅⟩) false := by
  have hroots : (pairPlan mixedDeps ⟨onlySpec, ∅⟩).setup.rootDependencies.isEmpty = false := by
    decide +kernel
  have hlib : isLocalWorkspaceDependency releaseCrate (pairOf mixedDeps) "lib" "workspace:*" =
      .ok true := by
    decide +kernel
  have ha : isLocalWorkspaceDependency releaseCrate (pairOf mixedDeps) "a" "1.0.0" =
      .ok false := by
    decide +kernel
  have hspecs : ∀ {name spec resolved : String},
      (name, spec) ∈ [("a", "1.0.0"), ("lib", "workspace:*")] →
      catalogResolved (some (pairOf mixedDeps)) none name spec = .ok resolved →
        resolved = spec ∧ (name = "a" ∧ spec = "1.0.0" ∨ name = "lib" ∧ spec = "workspace:*") := by
    intro name spec resolved hmem hresolved
    simp only [List.mem_cons, Prod.mk.injEq, List.not_mem_nil, or_false] at hmem
    rcases hmem with ⟨rfl, rfl⟩ | ⟨rfl, rfl⟩
    · cases hresolved
      exact ⟨rfl, .inl ⟨rfl, rfl⟩⟩
    · cases hresolved
      exact ⟨rfl, .inr ⟨rfl, rfl⟩⟩
  refine ⟨fun hempty => absurd (hempty.symm.trans hroots) (by decide),
    fun _ project hproject name spec resolved hspec hresolved hlocal => ?_,
    fun _ project hproject name spec resolved hspec hresolved houtside graph hgraph => ?_⟩
  · obtain ⟨-, hmem⟩ := declares_mixed hproject hspec
    obtain ⟨rfl, -⟩ := hspecs hmem hresolved
    exact ⟨resolved, hspec, hlocal⟩
  · obtain ⟨-, hmem⟩ := declares_mixed hproject hspec
    obtain ⟨rfl, ⟨rfl, rfl⟩ | ⟨rfl, rfl⟩⟩ := hspecs hmem hresolved
    · refine .inl ⟨?_, ⟨_, hspec, by decide⟩, fun _ => ?_⟩
      · rintro ⟨spec, hdeclared, hlocal⟩
        obtain ⟨-, hmem⟩ := declares_mixed hproject hdeclared
        simp only [List.mem_cons, Prod.mk.injEq, List.not_mem_nil, or_false] at hmem
        rcases hmem with ⟨-, rfl⟩ | ⟨hname, -⟩
        · rw [ha] at hlocal
          cases hlocal
        · exact absurd hname (by decide)
      · obtain ⟨_, hresolve⟩ := hgraph.1 rfl
        cases hresolve
        decide +kernel
    · rw [hlib] at houtside
      cases houtside

/-- An application with a sibling and a registry dependency. -/
theorem members_linked_mixed :
    ∃ outcome, installWorkspace Digest.unaryHash releaseCrate quietWorld plainConfig
        (pairOf mixedDeps) emptyView true .prefer false false = .ok (some outcome) ∧
      MembersLinked releaseCrate quietWorld (pairOf mixedDeps) (some outcome) := by
  have hplan := plan_pair mixedDeps ⟨onlySpec, ∅⟩ (by decide +kernel)
  have hmembers : ((pairOf mixedDeps).projects.mapM (linkMember releaseCrate quietWorld
      (pairOf mixedDeps) onePackage storeOfA true)).toOption.isSome = true := by
    decide +kernel
  obtain ⟨members, hmembers⟩ := Option.isSome_iff_exists.mp hmembers
  have hplanned : installPlanned Digest.unaryHash releaseCrate quietWorld plainConfig
      (pairOf mixedDeps) emptyView (pairPlan mixedDeps ⟨onlySpec, ∅⟩) true false =
        .ok ⟨pairPlan mixedDeps ⟨onlySpec, ∅⟩,
          ⟨onePackage, ∅, some (Lockfile.ofGraph onePackage ∅)⟩, ⟨storeOfA, members⟩, none⟩ := by
    refine Result.bind_eq_ok_iff.mpr
      ⟨⟨onePackage, ∅, some (Lockfile.ofGraph onePackage ∅)⟩, rfl, ?_⟩
    refine Result.bind_eq_ok_iff.mpr ⟨⟨storeOfA, members⟩, ?_, rfl⟩
    exact Result.bind_eq_ok_iff.mpr ⟨storeOfA, rfl,
      Result.bind_eq_ok_iff.mpr ⟨members, toOption_eq_some hmembers, rfl⟩⟩
  have hinstall : installWorkspace Digest.unaryHash releaseCrate quietWorld plainConfig
      (pairOf mixedDeps) emptyView true .prefer false false =
        .ok (some ⟨pairPlan mixedDeps ⟨onlySpec, ∅⟩,
          ⟨onePackage, ∅, some (Lockfile.ofGraph onePackage ∅)⟩, ⟨storeOfA, members⟩, none⟩) := by
    unfold installWorkspace
    rw [if_neg (by decide)]
    refine Result.bind_eq_ok_iff.mpr ⟨(), rfl, Result.bind_eq_ok_iff.mpr ⟨_, hplan, ?_⟩⟩
    rw [if_neg (by decide +kernel)]
    exact Result.bind_eq_ok_iff.mpr ⟨_, hplanned, rfl⟩
  refine ⟨_, hinstall, (members_linked_iff hplan (fun graph storePaths hresolve => ?_)
    hinstall).1 classifiedAlike_mixed⟩
  cases hresolve
  exact ⟨fun _ _ => .ok pkgA, by rfl⟩

/-- Members that depend only on each other are not linked at all. -/
theorem siblings_only_not_linked :
    installWorkspace Digest.unaryHash releaseCrate quietWorld plainConfig
        (pairOf (BTreeMap.collect [("lib", "workspace:*")])) emptyView true .prefer false false =
          .ok none ∧
      ¬MembersLinked releaseCrate quietWorld
        (pairOf (BTreeMap.collect [("lib", "workspace:*")])) none := by
  constructor
  · have hplan := plan_pair (BTreeMap.collect [("lib", "workspace:*")]) ⟨∅, ∅⟩
      (by decide +kernel)
    unfold installWorkspace
    rw [if_neg (by decide)]
    refine Result.bind_eq_ok_iff.mpr ⟨(), rfl, Result.bind_eq_ok_iff.mpr ⟨_, hplan, ?_⟩⟩
    rw [if_pos (by decide +kernel)]
  · intro hlinked
    obtain ⟨sibling, -, hlink⟩ := (hlinked _ (.tail _ (.head _)) "lib" "workspace:*" "workspace:*"
      (.inl (by decide +kernel)) rfl).1 (by decide +kernel)
    cases hlink

end Examples

end WorkspaceInstall
end Snpm.Install
