import Mathlib
import Snpm.Install.RecordedSpecs
import Snpm.Install.Records
import Snpm.Resolve.Tasks

/-!
What one install does to the record. An install that writes the lockfile its
graph can be read back from, for the roots the manifests ask for literally,
leaves a record that says what the lockfile says.
-/
namespace Snpm.Install

/-- The roots of the graph are what resolving the dependencies gave. -/
def RootsOf (rootDeps : BTreeMap String String) (optionalRootNames : BTreeSet String)
    (graph : ResolutionGraph) : Prop :=
  ∃ resolvePackage,
    Resolve.resolveRootDependencies rootDeps optionalRootNames resolvePackage = .ok graph.root

theorem rootsOf_of_resolves {S : SemverCrate} {ctx : Resolve.ResolverContext}
    {rootDeps : BTreeMap String String} {rootProtocols : BTreeMap String RegistryProtocol}
    {optionalRootNames : BTreeSet String} {events : List Resolve.Event} {graph : ResolutionGraph}
    (h : Resolve.Resolves S ctx rootDeps rootProtocols optionalRootNames events graph) :
    RootsOf rootDeps optionalRootNames graph := by
  obtain ⟨_, _, -, -, hroots, -⟩ := h
  exact ⟨_, hroots⟩

namespace ProjectInstall

/-- The project once the additions are written as they were requested. -/
def nextProject (project : Project) (plan : ProjectInstallPlan) (options : InstallOptions) :
    Project :=
  if plan.additions.isEmpty then project
  else { project with manifest := manifestWith project.manifest plan.additions options.dev }

def nextSpecs (project : Project) (plan : ProjectInstallPlan) (options : InstallOptions) :
    RootSpecSet :=
  recordedRootSpecs (nextProject project plan options) options.includeDev

end ProjectInstall

namespace Site

variable (H : Digest.Hash) (S : SemverCrate) (site : Site)

/-- What linking and scripts leave of an install that wrote `wrote`. -/
structure Leaves (before after : FileView) (wrote : Option Lockfile) : Prop where
  written : ∀ lockfile, wrote = some lockfile →
    after.isFile site.lockfilePath = true ∧ after.lockfile site.lockfilePath = .ok lockfile
  kept : wrote = none → after.isFile site.lockfilePath = before.isFile site.lockfilePath ∧
    after.lockfile site.lockfilePath = before.lockfile site.lockfilePath
  foreign : ∀ source, before.detectCompatible site.root = some source →
    after.detectCompatible site.root = some source ∧
      after.compatible source = before.compatible source
  record : after.installState (installStatePath site.root) =
    before.installState (installStatePath site.root)
  snapshot : after.graphSnapshot (graphSnapshotPath site.root) =
    before.graphSnapshot (graphSnapshotPath site.root)

section Conditions

/-- A graph of all roots can be written to the lockfile; a graph that is not
written is the one the lockfile has, for the same roots. -/
def Recordable (files : FileView) (compatible : Option CompatibleLockfile) (includeDev : Bool)
    (specs : RootSpecSet) (graph : ResolutionGraph) : Prop :=
  if includeDev then Lockfile.Writable graph
  else ∃ lockfile, readExistingLockfile files site.lockfilePath compatible
      "no lockfile was found" = .ok lockfile ∧ lockfile.toGraph = graph ∧
    lockfile.rootSpecsMatch specs.required specs.optional = true

/-- Nothing is recorded without a lockfile. -/
def Unlocked (files : FileView) (compatible : Option CompatibleLockfile) (includeDev : Bool) :
    Prop :=
  includeDev = false ∧ lockfileSourcePath files site.lockfilePath compatible = none

/-- A foreign lockfile that is taken over can be written again. -/
def Importable (files : FileView) (compatible : Option CompatibleLockfile)
    (specs : RootSpecSet) : Prop :=
  ∀ source lockfile, compatible = some source → files.compatible source = .ok lockfile →
    lockfile.rootSpecsMatch specs.required specs.optional = true →
      Lockfile.Writable lockfile.toGraph

open ProjectInstall in
/-- The roots that a project install resolves and writes to the lockfile are
literally those of the manifest it leaves, and what it resolves is recordable. -/
structure ProjectMeets (world : ProjectInstall.World) (config : SnpmConfig) (files : FileView)
    (project : Project) (options : InstallOptions) (plan : ProjectInstallPlan) : Prop where
  planned : site.specs plan.rootSpecs
  next : site.specs (nextSpecs project plan options)
  literal : (nextSpecs project plan options).required ∪ (nextSpecs project plan options).optional =
    plannedRootDependencies files plan options
  optional : (nextSpecs project plan options).optional = plan.rootSpecs.optional
  written : ∀ (name requested : String), plan.additions[name]? = some requested → ∀ version,
    manifestSpecForDependency name requested version plan.workspace plan.catalog
      config.effectiveSavePrefix = requested
  resolved : (scenarioOf H S config files project plan options).scenario = .cold →
    ∀ graph storePaths, world.resolve plan (plannedRootDependencies files plan options)
      options.force ((explicitLockfileSeed files project plan options).or
        (scenarioOf H S config files project plan options).graph) = .ok (graph, storePaths) →
        site.Recordable files plan.compatibleLockfile options.includeDev
          (nextSpecs project plan options) graph
  imported : Importable files plan.compatibleLockfile plan.rootSpecs

/-- The same for a workspace install, which resolves the roots it has collected. -/
structure WorkspaceMeets (world : WorkspaceInstall.World) (files : FileView) (includeDev force : Bool)
    (plan : WorkspaceInstallPlan) : Prop where
  planned : site.specs plan.setup.rootSpecs
  literal : plan.setup.rootDependencies =
    plan.setup.rootSpecs.required ∪ plan.setup.rootSpecs.optional
  resolved : plan.scenario = .cold → ∀ graph storePaths,
    world.resolve plan.setup force plan.scenarioGraph = .ok (graph, storePaths) →
      site.Recordable files plan.setup.compatibleLockfile includeDev plan.setup.rootSpecs graph
  imported : Importable files plan.setup.compatibleLockfile plan.setup.rootSpecs

end Conditions

/-- The lockfile after an install that wrote `wrote`. -/
def lockfileAfter (before : FileView) (compatible : Option CompatibleLockfile)
    (wrote : Option Lockfile) : Result Lockfile :=
  match wrote with
  | some lockfile => .ok lockfile
  | none => readExistingLockfile before site.lockfilePath compatible "no lockfile was found"

/-- The lockfile after an install has the graph and matches the specs. -/
def Keeps (before : FileView) (compatible : Option CompatibleLockfile) (wrote : Option Lockfile)
    (specs : RootSpecSet) (graph : ResolutionGraph) : Prop :=
  ∃ lockfile, site.lockfileAfter before compatible wrote = .ok lockfile ∧
    lockfile.toGraph = graph ∧
    lockfile.rootSpecsMatch specs.required specs.optional = true

section Keep

variable {H S site} {before after : FileView} {compatible : Option CompatibleLockfile}
  {wrote : Option Lockfile} {specs : RootSpecSet} {graph : ResolutionGraph}

/-- A fresh resolution that is recordable. -/
theorem Keeps.of_resolved {includeDev : Bool} {rootDeps : BTreeMap String String}
    {optionalRootNames : BTreeSet String} (hspecs : site.specs specs)
    (hroots : RootsOf rootDeps optionalRootNames graph)
    (hdeps : rootDeps = specs.required ∪ specs.optional)
    (hnames : optionalRootNames = .ofList specs.optional.keys compare)
    (hrecordable : site.Recordable before compatible includeDev specs graph)
    (hwrote : wrote = if includeDev then some (Lockfile.ofGraph graph specs.optional) else none) :
    site.Keeps before compatible wrote specs graph := by
  unfold Recordable at hrecordable
  split at hrecordable
  next hdev =>
      rw [if_pos hdev] at hwrote
      subst hwrote hdeps hnames
      refine ⟨_, rfl, (Lockfile.toGraph_ofGraph hrecordable _).1, ?_⟩
      have hresolved : ResolvedFor specs.required specs.optional graph := hroots
      exact (rootSpecsMatch_iff hresolved _ _).mpr
        (onlyMoved_self.mpr (site.told.sectioned specs hspecs))
  next hdev =>
      rw [if_neg hdev] at hwrote
      subst hwrote
      exact hrecordable

/-- A graph that was read from the lockfile, and perhaps written again. -/
theorem Keeps.of_read {lockfile : Lockfile} (hspecs : site.specs specs)
    (hread : readExistingLockfile before site.lockfilePath compatible "no lockfile was found" =
      .ok lockfile)
    (hmatch : lockfile.rootSpecsMatch specs.required specs.optional = true)
    (hwrote : wrote = none ∨ Lockfile.Writable lockfile.toGraph ∧
      wrote = some (Lockfile.ofGraph lockfile.toGraph specs.optional)) :
    site.Keeps before compatible wrote specs lockfile.toGraph := by
  rcases hwrote with rfl | ⟨hwritable, rfl⟩
  · exact ⟨lockfile, hread, rfl, hmatch⟩
  · exact ⟨_, rfl, (Lockfile.toGraph_ofGraph hwritable _).1,
      rootSpecsMatch_rewritten (site.told.sectioned specs hspecs) hmatch⟩

theorem Leaves.text (h : site.Leaves before after wrote) (hstamped : site.Stamped after)
    (hbeside : site.Beside before compatible) {stamp : SnapshotSource}
    (hstamp : SnapshotSource.capture after
      ((lockfileSourcePath after site.lockfilePath compatible).getD site.lockfilePath) = some stamp)
    (hfile : after.isFile ((lockfileSourcePath after site.lockfilePath compatible).getD
      site.lockfilePath) = true) :
    site.text stamp = site.lockfileAfter before compatible wrote := by
  cases wrote with
  | some lockfile =>
      obtain ⟨hown, hread⟩ := h.written lockfile rfl
      rw [lockfileSourcePath_of_isFile hown] at hstamp
      exact (hstamped.own stamp hown hstamp).trans hread
  | none =>
      obtain ⟨hsame, hread⟩ := h.kept rfl
      have hbeside' : site.Beside after compatible := fun source hsource =>
        (h.foreign source (hbeside source hsource)).1
      have hreadSame : readExistingLockfile after site.lockfilePath compatible
          "no lockfile was found" =
            readExistingLockfile before site.lockfilePath compatible "no lockfile was found" := by
        unfold readExistingLockfile
        rw [hsame, hread]
        cases hcompatible : compatible with
        | none => rfl
        | some source =>
            simp only [(h.foreign source (hbeside source hcompatible)).2]
      cases hsource : lockfileSourcePath after site.lockfilePath compatible with
      | some path =>
          rw [hsource] at hstamp
          exact (hstamped.read hbeside' hsource hstamp _).trans hreadSame
      | none =>
          rw [hsource, Option.getD_none] at hfile
          rw [lockfileSourcePath_of_isFile hfile] at hsource
          cases hsource

theorem Unlocked.not_isFile (h : site.Unlocked before compatible includeDev)
    (hleaves : site.Leaves before after none) :
    after.isFile ((lockfileSourcePath after site.lockfilePath compatible).getD
      site.lockfilePath) = false := by
  have hsource := h.2
  unfold lockfileSourcePath at hsource ⊢
  rw [(hleaves.kept rfl).1]
  split at hsource
  next => cases hsource
  next hfile =>
      rw [if_neg hfile, hsource, Option.getD_none, (hleaves.kept rfl).1]
      exact Bool.not_eq_true _ ▸ hfile

/-- The record of an install is sound when the lockfile after it has the graph
and matches the recorded specs. -/
theorem Keeps.sound (h : site.Keeps before compatible wrote specs graph)
    (hspecs : site.specs specs) {state : InstallStateFile}
    (htext : site.text state.source = site.lockfileAfter before compatible wrote)
    (hhash : state.rootSpecsHash = rootSpecsHash H specs.required specs.optional)
    (hgraph : state.graph = graph) : site.Sound H state := by
  obtain ⟨lockfile, hafter, htoGraph, hmatch⟩ := h
  exact ⟨lockfile, specs, htext.trans hafter, hgraph.trans htoGraph.symm, hspecs, hhash, hmatch⟩

/-- The invariant after an install, given its record. -/
theorem Inv.recorded (h : site.Inv H before) (hleaves : site.Leaves before after wrote)
    (hstamped : site.Stamped after) {recorded : Option InstallStateFile}
    (hsound : ∀ state, recorded = some state → site.Sound H state) :
    site.Inv H (after.record site.root recorded) := by
  cases recorded with
  | none =>
      refine ⟨hstamped, fun state hstate => ?_, hleaves.snapshot.trans h.snapshot⟩
      have hbefore : before.installState (installStatePath site.root) = some state :=
        hleaves.record.symm.trans hstate
      exact h.record state hbefore
  | some written =>
      refine ⟨⟨hstamped.own, hstamped.foreign⟩, fun state hstate _ => ?_,
        hleaves.snapshot.trans h.snapshot⟩
      simp only [FileView.record, if_true, Option.some.injEq] at hstate
      exact hstate ▸ hsound written rfl

end Keep

section ProjectStep

open ProjectInstall

variable {H S site} {world : ProjectInstall.World} {config : SnpmConfig} {files : FileView}
  {project : Project} {options : InstallOptions} {plan : ProjectInstallPlan}
  {resolved : ResolvedInstall}

theorem plan_beside (hroot : project.root = site.root)
    (hplan : prepareInstallPlan S files project options = .ok plan) :
    site.Beside files plan.compatibleLockfile := by
  obtain ⟨manifest, -, -, -, -, -, hplan⟩ := prepareInstallPlan_ok hplan
  intro source hsource
  rw [hplan] at hsource
  simp only [planOf] at hsource
  split at hsource
  next => rwa [← hroot]
  next => cases hsource

theorem plan_optionalRootNames
    (hplan : prepareInstallPlan S files project options = .ok plan) :
    plan.optionalRootNames = .ofList plan.rootSpecs.optional.keys compare ∧
      plan.rootDependencies = plan.rootSpecs.required ∪ plan.rootSpecs.optional ∪ plan.additions := by
  obtain ⟨manifest, -, -, -, -, -, hplan⟩ := prepareInstallPlan_ok hplan
  rw [hplan]
  exact ⟨rfl, rfl⟩

variable (files options) in
theorem mem_plannedRootDependencies {name : String} (h : name ∈ plan.rootDependencies) :
    name ∈ plannedRootDependencies files plan options := by
  unfold plannedRootDependencies
  split
  next =>
      unfold pinnedRootDependenciesForFix
      split
      next => exact h
      next =>
          rw [pinRoots, Std.ExtTreeMap.mem_union_iff, Std.ExtTreeMap.mem_union_iff]
          exact .inl (.inl h)
  next => exact h

/-- The additions are written as they were requested. -/
theorem writtenSpecs_eq (hplan : prepareInstallPlan S files project options = .ok plan)
    (hmeets : site.ProjectMeets H S world config files project options plan)
    {graph : ResolutionGraph}
    (hroots : RootsOf (plannedRootDependencies files plan options) plan.optionalRootNames graph)
    (hadditions : plan.additions.isEmpty = false) :
    writtenSpecs graph plan.additions plan.workspace plan.catalog config.effectiveSavePrefix =
      plan.additions := by
  obtain ⟨resolvePackage, hroots⟩ := hroots
  obtain ⟨hnames, hdeps⟩ := plan_optionalRootNames hplan
  apply Std.ExtTreeMap.ext_getElem?
  intro name
  rw [writtenSpecs, Std.ExtTreeMap.getElem?_filterMap']
  cases hrequested : plan.additions[name]? with
  | none =>
      cases graph.root.dependencies[name]? with
      | none => rfl
      | some dep => rfl
  | some requested =>
      have haddition := BTreeMap.mem_iff_exists.mpr ⟨requested, hrequested⟩
      have hmem : name ∈ plan.rootDependencies := by
        rw [hdeps, Std.ExtTreeMap.mem_union_iff]
        exact .inr haddition
      obtain ⟨range, hrange⟩ := BTreeMap.mem_iff_exists.mp
        (mem_plannedRootDependencies files options hmem)
      rcases (Resolve.root_of_resolveRootDependencies hroots name).2 range hrange with
        ⟨id, -, hroot⟩ | ⟨hoptional, -⟩
      · rw [hroot, Option.bind_some, Option.map_some, hmeets.written name requested hrequested]
      · rw [hnames, contains_optionalNames, ← hmeets.optional] at hoptional
        have hnext : (nextSpecs project plan options).optional =
            project.manifest.optionalDependencies \ plan.additions := by
          rw [nextSpecs, nextProject, hadditions]
          rfl
        rw [hnext, Std.ExtTreeMap.mem_diff_iff] at hoptional
        exact absurd haddition hoptional.2

/-- The project as it is after the install is the one the condition is about. -/
theorem written_eq_nextProject {graph : ResolutionGraph} {after : Project}
    (hplan : prepareInstallPlan S files project options = .ok plan)
    (hmeets : site.ProjectMeets H S world config files project options plan)
    (hroots : plan.additions.isEmpty = false →
      RootsOf (plannedRootDependencies files plan options) plan.optionalRootNames graph)
    (h : writeManifest world project graph plan.additions options.dev plan.workspace plan.catalog
      config.effectiveSavePrefix = .ok after) :
    after = nextProject project plan options := by
  unfold writeManifest at h
  unfold nextProject
  cases hadditions : plan.additions.isEmpty with
  | true =>
      rw [hadditions, if_pos rfl] at h
      cases h
      rfl
  | false =>
      rw [hadditions, if_neg Bool.false_ne_true] at h
      simp only at h
      obtain ⟨_, -, h⟩ := Result.bind_eq_ok h
      cases h
      rw [writtenSpecs_eq hplan hmeets (hroots hadditions) hadditions]
      rfl

/-- Without additions, and without pins, the next specs are those of the plan. -/
theorem nextSpecs_eq (hplan : prepareInstallPlan S files project options = .ok plan)
    (hmeets : site.ProjectMeets H S world config files project options plan)
    (hadditions : plan.additions.isEmpty = true) (hmode : options.frozenLockfile ≠ .fix) :
    nextSpecs project plan options = plan.rootSpecs := by
  apply site.told.determined _ _ hmeets.next hmeets.planned
  rw [hmeets.literal, plannedRootDependencies, if_neg hmode, (plan_optionalRootNames hplan).2]
  apply Std.ExtTreeMap.ext_getElem?
  intro name
  rw [Std.ExtTreeMap.getElem?_union, Std.ExtTreeMap.isEmpty_iff.mp hadditions,
    Std.ExtTreeMap.getElem?_empty, Option.none_or]

/-- What a warm project install reads. -/
theorem Inv.warm (h : site.Inv H files) (hroot : project.root = site.root)
    (hpath : plan.lockfilePath = site.lockfilePath)
    (hplan : prepareInstallPlan S files project options = .ok plan)
    (hspecs : site.specs plan.rootSpecs)
    (hwarm : (scenarioOf H S config files project plan options).scenario ≠ .cold) :
    ∃ lockfile, readExistingLockfile files site.lockfilePath plan.compatibleLockfile
        "no lockfile was found" = .ok lockfile ∧
      lockfile.rootSpecsMatch plan.rootSpecs.required plan.rootSpecs.optional = true ∧
      (scenarioOf H S config files project plan options).graph = some lockfile.toGraph := by
  obtain ⟨-, -, hmode, -, hdetect⟩ := scenarioOf_warm hwarm
  rw [hdetect, hpath, manifestRoot_eq hplan] at hwarm ⊢
  cases hsource : lockfileSourcePath files site.lockfilePath plan.compatibleLockfile with
  | none =>
      unfold detectInstallScenario at hwarm
      rw [if_neg hmode, hsource] at hwarm
      exact absurd rfl hwarm
  | some path =>
      rw [Site.Inv.detect ⟨config, plan.workspace, files⟩ h (plan_beside hroot hplan) hspecs hroot
        hmode hsource] at hwarm ⊢
      cases hread : readExistingLockfile files site.lockfilePath plan.compatibleLockfile
          "no lockfile was found" with
      | error error =>
          rw [hread] at hwarm
          exact absurd rfl hwarm
      | ok lockfile =>
          rw [hread] at hwarm
          obtain ⟨hmatch, hgraph⟩ := projectVerdict_warm _ hwarm
          exact ⟨lockfile, rfl, hmatch, hgraph⟩

/-- A project install that meets the condition leaves a lockfile with its graph
that matches the root specs it records. -/
theorem ProjectMeets.keeps (hmeets : site.ProjectMeets H S world config files project options plan)
    (hinv : site.Inv H files) (hroot : project.root = site.root)
    (hpath : plan.lockfilePath = site.lockfilePath)
    (hplan : prepareInstallPlan S files project options = .ok plan)
    (hresolved : resolveInstallState H S world config files project plan options = .ok resolved)
    (hroots : ∀ force seed graph storePaths,
      world.resolve plan (plannedRootDependencies files plan options) force seed =
          .ok (graph, storePaths) →
        RootsOf (plannedRootDependencies files plan options) plan.optionalRootNames graph) :
    site.Keeps files plan.compatibleLockfile resolved.wroteLockfile
      (nextSpecs project plan options) resolved.graph := by
  obtain ⟨hscenario, hcold, hwarm⟩ := resolveInstallState_ok hresolved
  by_cases hcase : resolved.scenario = .cold
  · obtain ⟨⟨storePaths, hresolve⟩, hwrote⟩ := hcold hcase
    apply Keeps.of_resolved hmeets.next (hroots _ _ _ _ hresolve) hmeets.literal.symm
    · rw [hmeets.optional]
      exact (plan_optionalRootNames hplan).1
    · exact hmeets.resolved (hscenario.symm.trans hcase) _ _ hresolve
    · rw [hwrote, hmeets.optional]
  · obtain ⟨hgraph, hwrote⟩ := hwarm hcase
    rw [hscenario] at hcase
    obtain ⟨-, hadditions, -, hfix, -⟩ := scenarioOf_warm hcase
    obtain ⟨lockfile, hread, hmatch, hfound⟩ :=
      hinv.warm hroot hpath hplan hmeets.planned hcase
    rw [hfound, Option.some.injEq] at hgraph
    rw [← hgraph] at hwrote ⊢
    rw [nextSpecs_eq hplan hmeets hadditions hfix]
    refine Keeps.of_read hmeets.planned hread hmatch ?_
    rcases hwrote with ⟨hnone, -⟩ | ⟨himports, hsome⟩
    · exact .inl hnone
    · obtain ⟨source, hsource⟩ := Option.isSome_iff_exists.mp himports.foreign
      have hforeign := hread
      unfold readExistingLockfile at hforeign
      rw [← hpath, if_neg (by simp [himports.missing]), hsource] at hforeign
      exact .inr ⟨hmeets.imported source lockfile hsource hforeign hmatch, hsome⟩

/-- The record of a project install that meets the condition is sound. -/
theorem sound_of_project {outcome : InstallOutcome} {state : InstallStateFile}
    (hinv : site.Inv H files) (hroot : project.root = site.root)
    (hpath : outcome.plan.lockfilePath = site.lockfilePath)
    (hinstall : install H S world config files project options = .ok outcome)
    (hroots : ∀ force seed graph storePaths,
      world.resolve outcome.plan (plannedRootDependencies files outcome.plan options) force seed =
          .ok (graph, storePaths) →
        RootsOf (plannedRootDependencies files outcome.plan options)
          outcome.plan.optionalRootNames graph)
    (hleaves : site.Leaves files world.after outcome.resolved.wroteLockfile)
    (hstamped : site.Stamped world.after)
    (hmeets : site.Unlocked files outcome.plan.compatibleLockfile options.includeDev ∨
      site.ProjectMeets H S world config files project options outcome.plan)
    (hstate : outcome.installState = some state) : site.Sound H state := by
  obtain ⟨hplan, -, hresolved, hwritten, hrecord⟩ := install_ok hinstall
  rw [hstate] at hrecord
  obtain ⟨-, hsource, hhash, hgraph⟩ := recordInstall_some hrecord
  have hfile := recordInstall_isFile hrecord
  obtain ⟨hscenario, hcold, -⟩ := resolveInstallState_ok hresolved
  unfold ProjectInstallPlan.lockfileSourcePath at hsource hfile
  rw [hpath] at hsource hfile
  rcases hmeets with hunlocked | hmeets
  · have hcase : outcome.resolved.scenario = .cold := by
      by_contra hwarm
      rw [hscenario] at hwarm
      have hdev := (scenarioOf_warm hwarm).1
      rw [hunlocked.1] at hdev
      cases hdev
    have hnone := (hcold hcase).2
    rw [hunlocked.1, if_neg Bool.false_ne_true] at hnone
    rw [hnone] at hleaves
    rw [hunlocked.not_isFile hleaves] at hfile
    cases hfile
  · have hkeeps := hmeets.keeps hinv hroot hpath hplan hresolved hroots
    have hproject : outcome.project = nextProject project outcome.plan options := by
      refine written_eq_nextProject hplan hmeets (fun hadditions => ?_) hwritten
      have hcase : outcome.resolved.scenario = .cold := by
        by_contra hwarm
        rw [hscenario] at hwarm
        have hnone := (scenarioOf_warm hwarm).2.1
        rw [hadditions] at hnone
        cases hnone
      obtain ⟨storePaths, hresolve⟩ := (hcold hcase).1
      exact hroots _ _ _ _ hresolve
    rw [hproject] at hhash
    exact hkeeps.sound hmeets.next
      (hleaves.text hstamped (plan_beside hroot hplan) hsource hfile) hhash hgraph

end ProjectStep

section WorkspaceStep

open WorkspaceInstall

variable {H S site} {world : WorkspaceInstall.World} {config : SnpmConfig} {files : FileView}
  {workspace : Workspace} {plan : WorkspaceInstallPlan} {includeDev strict force : Bool}
  {mode : FrozenLockfileMode} {loaded : WorkspaceGraphLoad}

theorem workspace_beside (hroot : workspace.root = site.root) :
    site.Beside files (workspaceCompatibleLockfile files workspace) := by
  intro source hsource
  unfold workspaceCompatibleLockfile at hsource
  split at hsource
  next => cases hsource
  next => rwa [← hroot]

/-- What a warm workspace install reads. -/
theorem Inv.warmWorkspace (h : site.Inv H files) (hroot : workspace.root = site.root)
    (hpath : workspaceLockfilePath workspace = site.lockfilePath)
    (hplan : planWorkspaceInstall H S ⟨config, some workspace, files⟩ workspace includeDev mode
      strict force = .ok plan)
    (hspecs : site.specs plan.setup.rootSpecs) (hwarm : plan.scenario ≠ .cold) :
    ∃ lockfile, readExistingLockfile files site.lockfilePath plan.setup.compatibleLockfile
        "no lockfile was found" = .ok lockfile ∧
      lockfile.rootSpecsMatch plan.setup.rootSpecs.required plan.setup.rootSpecs.optional =
        true ∧
      plan.scenarioGraph = some lockfile.toGraph := by
  obtain ⟨setup, hsetup, hpinned, hscenario, hgraph⟩ := planWorkspaceInstall_ok hplan
  have hdetected := hscenario.resolve_right hwarm
  rw [hdetected] at hwarm
  rw [hgraph]
  rw [hpinned, pinSetup_rootSpecs] at hspecs ⊢
  rw [pinSetup_compatibleLockfile]
  obtain ⟨overrides, rootSpecs, -, -, rfl⟩ := prepareWorkspaceInstall_ok hsetup
  unfold workspaceArtifacts at hwarm ⊢
  split at hwarm
  next => exact absurd rfl hwarm
  next hfix =>
      rw [if_neg hfix]
      simp only [setupOf] at hwarm hspecs ⊢
      rw [hpath] at hwarm ⊢
      by_cases hno : mode = .no
      · unfold detectWorkspaceScenarioEarly at hwarm
        rw [if_pos (.inl hno)] at hwarm
        exact absurd rfl hwarm
      · have hmode : ¬(mode = .no ∨ mode = .fix) := not_or.mpr ⟨hno, hfix⟩
        cases hsource : lockfileSourcePath files site.lockfilePath
            (workspaceCompatibleLockfile files workspace) with
        | none =>
            unfold detectWorkspaceScenarioEarly at hwarm
            rw [if_neg hmode, hsource] at hwarm
            exact absurd rfl hwarm
        | some path =>
            rw [Site.Inv.detectWorkspace ⟨config, some workspace, files⟩ h (workspace_beside hroot)
              hspecs hroot hmode hsource] at hwarm ⊢
            cases hread : readExistingLockfile files site.lockfilePath
                (workspaceCompatibleLockfile files workspace) "no lockfile was found" with
            | error error =>
                rw [hread] at hwarm
                exact absurd rfl hwarm
            | ok lockfile =>
                rw [hread] at hwarm
                obtain ⟨hmatch, hfound⟩ := workspaceVerdict_warm _ hwarm
                exact ⟨lockfile, rfl, hmatch, hfound⟩

/-- The same for a workspace install. -/
theorem WorkspaceMeets.keeps (hmeets : site.WorkspaceMeets world files includeDev force plan)
    (hinv : site.Inv H files) (hroot : workspace.root = site.root)
    (hpath : workspaceLockfilePath workspace = site.lockfilePath)
    (hplan : planWorkspaceInstall H S ⟨config, some workspace, files⟩ workspace includeDev mode
      strict force = .ok plan)
    (hloaded : loadWorkspaceGraph world config files plan includeDev force = .ok loaded)
    (hroots : ∀ force seed graph storePaths,
      world.resolve plan.setup force seed = .ok (graph, storePaths) →
        RootsOf plan.setup.rootDependencies plan.setup.optionalRootNames graph) :
    site.Keeps files plan.setup.compatibleLockfile loaded.wroteLockfile plan.setup.rootSpecs
      loaded.graph := by
  obtain ⟨hcold, hwarm⟩ := loadWorkspaceGraph_ok hloaded
  obtain ⟨hlockfilePath, -, hnames⟩ := setup_of_plan hplan
  by_cases hcase : plan.scenario = .cold
  · obtain ⟨⟨storePaths, hresolve⟩, hwrote⟩ := hcold hcase
    exact Keeps.of_resolved hmeets.planned (hroots _ _ _ _ hresolve) hmeets.literal hnames
      (hmeets.resolved hcase _ _ hresolve) hwrote
  · obtain ⟨hgraph, hwrote⟩ := hwarm hcase
    obtain ⟨lockfile, hread, hmatch, hfound⟩ :=
      hinv.warmWorkspace hroot hpath hplan hmeets.planned hcase
    rw [hfound, Option.some.injEq] at hgraph
    rw [← hgraph] at hwrote ⊢
    refine Keeps.of_read hmeets.planned hread hmatch ?_
    rcases hwrote with ⟨hnone, -⟩ | ⟨himports, hsome⟩
    · exact .inl hnone
    · obtain ⟨source, hsource⟩ := Option.isSome_iff_exists.mp himports.foreign
      have hforeign := hread
      unfold readExistingLockfile at hforeign
      rw [← hpath, ← hlockfilePath, if_neg (by simp [himports.missing]), hsource] at hforeign
      exact .inr ⟨hmeets.imported source lockfile hsource hforeign hmatch, hsome⟩

theorem sound_of_workspace {outcome : WorkspaceInstall.InstallOutcome} {state : InstallStateFile}
    (hinv : site.Inv H files) (hroot : workspace.root = site.root)
    (hpath : workspaceLockfilePath workspace = site.lockfilePath)
    (hinstall : installWorkspace H S world config workspace files includeDev mode strict force =
      .ok (some outcome))
    (hroots : ∀ force seed graph storePaths,
      world.resolve outcome.plan.setup force seed = .ok (graph, storePaths) →
        RootsOf outcome.plan.setup.rootDependencies outcome.plan.setup.optionalRootNames graph)
    (hleaves : site.Leaves files world.after outcome.loaded.wroteLockfile)
    (hstamped : site.Stamped world.after)
    (hmeets : site.Unlocked files outcome.plan.setup.compatibleLockfile includeDev ∨
      site.WorkspaceMeets world files includeDev force outcome.plan)
    (hstate : outcome.installState = some state) : site.Sound H state := by
  obtain ⟨hplan, -, hloaded, -, hrecord⟩ := installWorkspace_some hinstall
  rw [hstate] at hrecord
  obtain ⟨hfile, -, hsource, hhash, hgraph⟩ := WorkspaceInstall.recordInstall_some hrecord
  obtain ⟨hlockfilePath, hcompatible, -⟩ := setup_of_plan hplan
  have hbeside : site.Beside files outcome.plan.setup.compatibleLockfile :=
    hcompatible ▸ workspace_beside hroot
  unfold WorkspaceInstallSetup.lockfileSourcePath at hsource hfile
  rw [hlockfilePath, hpath] at hsource hfile
  rcases hmeets with hunlocked | hmeets
  · have hnone : outcome.loaded.wroteLockfile = none := by
      obtain ⟨hcold, hwarm⟩ := loadWorkspaceGraph_ok hloaded
      by_cases hcase : outcome.plan.scenario = .cold
      · rw [(hcold hcase).2, hunlocked.1, if_neg Bool.false_ne_true]
      · rcases (hwarm hcase).2 with ⟨hnone, -⟩ | ⟨himports, -⟩
        · exact hnone
        · have hdev := himports.full
          rw [hunlocked.1] at hdev
          cases hdev
    rw [hnone] at hleaves
    rw [hunlocked.not_isFile hleaves] at hfile
    cases hfile
  · have hkeeps := hmeets.keeps hinv hroot hpath hplan hloaded hroots
    exact hkeeps.sound hmeets.planned (hleaves.text hstamped hbeside hsource hfile) hhash hgraph

end WorkspaceStep

end Site

end Snpm.Install
