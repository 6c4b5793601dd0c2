import Mathlib
import Snpm.Install.RecordSteps

/-!
Runs of project installs, workspace installs and edits of the lockfile in one
directory. Under conditions on each install, every record that is found says
what the lockfile in place says, and the detectors decide by the lockfile.
-/
namespace Snpm.Install

inductive Event where
  /-- An edit of the lockfile, or an install that failed after writing it. -/
  | edit
  | project (world : ProjectInstall.World) (config : SnpmConfig) (project : Project)
      (options : InstallOptions)
  | workspace (world : WorkspaceInstall.World) (config : SnpmConfig) (workspace : Workspace)
      (includeDev : Bool) (frozenLockfile : FrozenLockfileMode) (strictNoLockfile force : Bool)

namespace Site

variable (H : Digest.Hash) (S : SemverCrate) (site : Site)

open ProjectInstall in
/-- What an event does to the disk. -/
inductive Step : Event → FileView → FileView → Prop where
  | edit {before after : FileView}
      (record : after.installState (installStatePath site.root) =
        before.installState (installStatePath site.root))
      (snapshot : after.graphSnapshot (graphSnapshotPath site.root) =
        before.graphSnapshot (graphSnapshotPath site.root))
      (stamped : site.Stamped after) : Step .edit before after
  | project {world : ProjectInstall.World} {config : SnpmConfig} {project : Project}
      {options : InstallOptions} {before : FileView} {outcome : ProjectInstall.InstallOutcome}
      (root : project.root = site.root)
      (lockfilePath : outcome.plan.lockfilePath = site.lockfilePath)
      (installed : ProjectInstall.install H S world config before project options = .ok outcome)
      (resolves : ∀ force seed graph storePaths,
        world.resolve outcome.plan (plannedRootDependencies before outcome.plan options) force
            seed = .ok (graph, storePaths) →
          RootsOf (plannedRootDependencies before outcome.plan options)
            outcome.plan.optionalRootNames graph)
      (leaves : site.Leaves before world.after outcome.resolved.wroteLockfile)
      (stamped : site.Stamped world.after) :
      Step (.project world config project options) before
        (world.after.record site.root outcome.installState)
  | workspace {world : WorkspaceInstall.World} {config : SnpmConfig} {workspace : Workspace}
      {includeDev strict force : Bool} {mode : FrozenLockfileMode} {before : FileView}
      {outcome : WorkspaceInstall.InstallOutcome}
      (root : workspace.root = site.root)
      (lockfilePath : workspaceLockfilePath workspace = site.lockfilePath)
      (installed : WorkspaceInstall.installWorkspace H S world config workspace before includeDev
        mode strict force = .ok (some outcome))
      (resolves : ∀ force seed graph storePaths,
        world.resolve outcome.plan.setup force seed = .ok (graph, storePaths) →
          RootsOf outcome.plan.setup.rootDependencies outcome.plan.setup.optionalRootNames graph)
      (leaves : site.Leaves before world.after outcome.loaded.wroteLockfile)
      (stamped : site.Stamped world.after) :
      Step (.workspace world config workspace includeDev mode strict force) before
        (world.after.record site.root outcome.installState)
  | idle {world : WorkspaceInstall.World} {config : SnpmConfig} {workspace : Workspace}
      {includeDev strict force : Bool} {mode : FrozenLockfileMode} {before : FileView}
      (installed : WorkspaceInstall.installWorkspace H S world config workspace before includeDev
        mode strict force = .ok none) :
      Step (.workspace world config workspace includeDev mode strict force) before before

/-- The condition on an event and the disk before it. -/
def Meets : Event → FileView → Prop
  | .edit, _ => True
  | .project world config project options, files =>
      ∀ plan, ProjectInstall.prepareInstallPlan S files project options = .ok plan →
        site.Unlocked files plan.compatibleLockfile options.includeDev ∨
          site.ProjectMeets H S world config files project options plan
  | .workspace world config workspace includeDev mode strict force, files =>
      ∀ plan, planWorkspaceInstall H S ⟨config, some workspace, files⟩ workspace includeDev mode
          strict force = .ok plan →
        site.Unlocked files plan.setup.compatibleLockfile includeDev ∨
          site.WorkspaceMeets world files includeDev force plan

/-- A run whose events all meet the condition. -/
def MeetingRun : FileView → FileView → Prop :=
  Relation.ReflTransGen fun before after =>
    ∃ event, site.Meets H S event before ∧ site.Step H S event before after

section Run

variable {H S site} {before after : FileView} {event : Event}

theorem Inv.step (h : site.Inv H before) (hmeets : site.Meets H S event before)
    (hstep : site.Step H S event before after) : site.Inv H after := by
  cases hstep with
  | edit hrecord hsnapshot hstamped =>
      exact ⟨hstamped, fun state hstate => h.record state (hrecord.symm.trans hstate),
        hsnapshot.trans h.snapshot⟩
  | project hroot hpath hinstall hroots hleaves hstamped =>
      have hplan := (ProjectInstall.install_ok hinstall).1
      exact h.recorded hleaves hstamped fun state hstate =>
        sound_of_project h hroot hpath hinstall hroots hleaves hstamped (hmeets _ hplan) hstate
  | workspace hroot hpath hinstall hroots hleaves hstamped =>
      have hplan := (WorkspaceInstall.installWorkspace_some hinstall).1
      exact h.recorded hleaves hstamped fun state hstate =>
        sound_of_workspace h hroot hpath hinstall hroots hleaves hstamped (hmeets _ hplan) hstate
  | idle => exact h

theorem Inv.run (h : site.Inv H before) (hrun : site.MeetingRun H S before after) :
    site.Inv H after := by
  induction hrun with
  | refl => exact h
  | tail _ hlast ih =>
      obtain ⟨event, hmeets, hstep⟩ := hlast
      exact ih.step hmeets hstep

/-- The disk before the first install: nothing is recorded. -/
structure Fresh (files : FileView) : Prop where
  stamped : site.Stamped files
  record : files.installState (installStatePath site.root) = none
  snapshot : files.graphSnapshot (graphSnapshotPath site.root) = none

theorem Fresh.inv (h : site.Fresh before) : site.Inv H before := by
  refine ⟨h.stamped, fun state hstate => ?_, h.snapshot⟩
  rw [h.record] at hstate
  cases hstate

/-- After any run whose events meet the condition, the detectors decide as they
would without the record, namely by the lockfile. -/
theorem detectors_agree (hstart : site.Fresh before) (hrun : site.MeetingRun H S before after) :
    site.ProjectAgrees H S after ∧ site.WorkspaceAgrees H S after := by
  have hinv : site.Inv H after := hstart.inv.run hrun
  exact ⟨hinv.projectAgrees, hinv.workspaceAgrees⟩

end Run

section Examples

open ProjectInstall

/-- A project with a development root beside a lockfile of both roots. -/
def devProject : Project :=
  ⟨"/app", "/app/package.json", { Manifest.empty with
    dependencies := onlySpec
    devDependencies := BTreeMap.collect [("b", "1.0.0")] }⟩

def devGraph : ResolutionGraph where
  root := ⟨BTreeMap.collect [("a", ⟨"1.0.0", pkgA⟩), ("b", ⟨"1.0.0", pkgB⟩)]⟩
  packages := BTreeMap.collect
    [(pkgA, samplePackage pkgA "a.tgz" ∅), (pkgB, samplePackage pkgB "b.tgz" ∅)]

def devLockfile : Lockfile := Lockfile.ofGraph devGraph ∅

def devSpecs : RootSpecSet := ⟨BTreeMap.collect [("a", "1.0.0"), ("b", "1.0.0")], ∅⟩

def devView : FileView :=
  { emptyView with
    isFile := fun path => path = "/app/snpm-lock.yaml"
    metadata := fun _ => some ⟨100, 1, 0⟩
    lockfile := fun _ => .ok devLockfile }

def devInstall (includeDev : Bool) : InstallOptions :=
  ⟨[], false, includeDev, if includeDev then .no else .prefer, false, false⟩

def devPlan (includeDev : Bool) : ProjectInstallPlan :=
  planOf devView devProject [] none none ∅ ∅ (recordedRootSpecs devProject includeDev)

theorem toldApart_dev : ToldApart (· = devSpecs) where
  sectioned _ h name _ := by
    cases h
    exact Std.ExtTreeMap.not_mem_empty
  nulFree _ h := by
    cases h
    exact ⟨nulFree_of_toList (by decide +kernel), nulFree_empty⟩
  determined _ _ h h' _ := h.trans h'.symm

def devSite : Site := ⟨"/app", "/app/snpm-lock.yaml", (· = devSpecs), fun _ => .ok devLockfile,
  toldApart_dev⟩

theorem devSite_stamped (files : FileView) (hlockfile : files.lockfile = devView.lockfile)
    (hforeign : files.detectCompatible = devView.detectCompatible) : devSite.Stamped files := by
  refine ⟨fun stamp _ _ => ?_, fun source stamp hsource => ?_⟩
  · rw [hlockfile]
    rfl
  · rw [hforeign] at hsource
    cases hsource

theorem prepare_dev (includeDev : Bool) :
    prepareInstallPlan releaseCrate devView devProject (devInstall includeDev) =
      .ok (devPlan includeDev) := by
  have hmanifest : resolveManifestSpecs releaseCrate devProject none none = .ok
      ⟨devProject.manifest.dependencies, devProject.manifest.devDependencies,
        devProject.manifest.optionalDependencies, ∅⟩ := by
    refine Result.bind_eq_ok_iff.mpr
      ⟨devProject.manifest.dependencies, by decide +kernel, ?_⟩
    refine Result.bind_eq_ok_iff.mpr
      ⟨devProject.manifest.devDependencies, by decide +kernel, ?_⟩
    refine Result.bind_eq_ok_iff.mpr
      ⟨devProject.manifest.optionalDependencies, by decide +kernel, ?_⟩
    have hprotocols : manifestProtocols devProject.manifest.dependencies ∪
        manifestProtocols devProject.manifest.devDependencies ∪
        manifestProtocols devProject.manifest.optionalDependencies =
          (∅ : BTreeMap String RegistryProtocol) := by
      decide +kernel
    rw [hprotocols]
  refine Result.bind_eq_ok_iff.mpr ⟨none, rfl, ?_⟩
  refine Result.bind_eq_ok_iff.mpr ⟨none, rfl, ?_⟩
  refine Result.bind_eq_ok_iff.mpr ⟨∅, rfl, ?_⟩
  refine Result.bind_eq_ok_iff.mpr ⟨_, hmanifest, ?_⟩
  exact Result.bind_eq_ok_iff.mpr ⟨_, rfl, rfl⟩

theorem devPlan_lockfilePath (includeDev : Bool) :
    (devPlan includeDev).lockfilePath = "/app/snpm-lock.yaml" := by
  have hpath : (devPlan includeDev).lockfilePath = PathBuf.join "/app" "snpm-lock.yaml" :=
    planOf_lockfilePath _ _
  rw [hpath]
  decide +kernel

theorem devPlan_compatibleLockfile (includeDev : Bool) :
    (devPlan includeDev).compatibleLockfile = none := by
  cases includeDev with
  | true => rfl
  | false => rfl

/-- What an install of the development project leaves. -/
theorem install_dev (includeDev : Bool) (graph : ResolutionGraph)
    (hlayout : (projectLayoutEntries releaseCrate ⟨plainConfig, none, devView⟩ devProject graph
      includeDev).toOption.isSome = true)
    (hcold : scenarioOf Digest.unaryHash releaseCrate plainConfig devView devProject
      (devPlan includeDev) (devInstall includeDev) = ScenarioResult.cold) :
    ∃ outcome state,
      install Digest.unaryHash releaseCrate (quietWorld graph devView) plainConfig devView
          devProject (devInstall includeDev) = .ok outcome ∧
        outcome.plan = devPlan includeDev ∧
        outcome.resolved.wroteLockfile = (if includeDev then
          some (Lockfile.ofGraph graph (devPlan includeDev).rootSpecs.optional) else none) ∧
        outcome.installState = some state ∧ state.graph = graph ∧
        state.version = installStateVersion ∧
        state.source = ⟨"/app/snpm-lock.yaml", 100, 1, 0⟩ ∧
        state.rootSpecsHash = rootSpecsHash Digest.unaryHash
          (recordedRootSpecs devProject includeDev).required
          (recordedRootSpecs devProject includeDev).optional := by
  obtain ⟨entries, hentries⟩ := Option.isSome_iff_exists.mp hlayout
  have hhash : buildProjectLayoutHash Digest.unaryHash releaseCrate
      ⟨plainConfig, (devPlan includeDev).workspace, devView⟩ devProject graph includeDev =
        .ok (hashEntries Digest.unaryHash entries) :=
    Result.bind_eq_ok_iff.mpr ⟨entries, toOption_eq_some hentries, rfl⟩
  have hfile : devView.isFile (devPlan includeDev).lockfilePath = true := by
    rw [devPlan_lockfilePath]
    rfl
  have hsource : SnapshotSource.capture devView (devPlan includeDev).lockfilePath =
      some ⟨"/app/snpm-lock.yaml", 100, 1, 0⟩ := by
    rw [devPlan_lockfilePath]
    rfl
  have hvalid : validateFrozenLockfile devView (devInstall includeDev) (devPlan includeDev) =
      .ok () := by
    cases includeDev with
    | true => rfl
    | false => rfl
  exact ⟨_, _, install_quiet (prepare_dev includeDev) hvalid rfl rfl hcold hfile hsource hhash,
    rfl, rfl, rfl, rfl, rfl, rfl, rfl⟩

theorem devSite_leaves {wrote : Option Lockfile}
    (hwrote : ∀ lockfile, wrote = some lockfile → lockfile = devLockfile) :
    devSite.Leaves devView devView wrote where
  written lockfile h := by
    rw [hwrote lockfile h]
    exact ⟨rfl, rfl⟩
  kept _ := ⟨rfl, rfl⟩
  foreign source h := ⟨h, rfl⟩
  record := rfl
  snapshot := rfl

theorem devSite_fresh : devSite.Fresh devView := ⟨devSite_stamped devView rfl rfl, rfl, rfl⟩

theorem projectMeets_dev : devSite.ProjectMeets Digest.unaryHash releaseCrate
    (quietWorld devGraph devView) plainConfig devView devProject (devInstall true)
    (devPlan true) := by
  have hspecs : (devPlan true).rootSpecs = devSpecs := by
    decide +kernel
  have hwritable : Lockfile.Writable devGraph :=
    Lockfile.writable_of_toList (by decide +kernel)
  have hempty : (devPlan true).additions = ∅ := by
    decide +kernel
  refine ⟨hspecs, hspecs, by decide +kernel, rfl, ?_, ?_, ?_⟩
  · intro name requested h
    rw [hempty, Std.ExtTreeMap.getElem?_empty] at h
    cases h
  · intro _ graph storePaths h
    cases h
    exact hwritable
  · intro source lockfile h
    rw [devPlan_compatibleLockfile] at h
    cases h

/-- A run of one full install that leaves a record. -/
theorem detectors_agree_dev :
    ∃ after, devSite.MeetingRun Digest.unaryHash releaseCrate devView after ∧
      (after.installState (installStatePath devSite.root)).isSome = true ∧
      devSite.ProjectAgrees Digest.unaryHash releaseCrate after ∧
      devSite.WorkspaceAgrees Digest.unaryHash releaseCrate after := by
  obtain ⟨outcome, state, hinstall, hplan, hwrote, hstate, -⟩ :=
    install_dev true devGraph (by decide +kernel) rfl
  have hstep : devSite.Step Digest.unaryHash releaseCrate
      (.project (quietWorld devGraph devView) plainConfig devProject (devInstall true)) devView
      (devView.record devSite.root outcome.installState) := by
    refine Step.project rfl ?_ hinstall ?_ ?_ (devSite_stamped _ rfl rfl)
    · rw [hplan, devPlan_lockfilePath]
      rfl
    · intro force seed graph storePaths h
      cases h
      rw [hplan]
      exact ⟨fun name _ => .ok (if name = "a" then pkgA else pkgB), by rfl⟩
    · rw [hwrote]
      apply devSite_leaves
      intro lockfile h
      cases h
      rfl
  have hrun : devSite.MeetingRun Digest.unaryHash releaseCrate devView
      (devView.record devSite.root outcome.installState) := by
    refine .single ⟨_, fun plan hprepared => .inr ?_, hstep⟩
    rw [prepare_dev] at hprepared
    cases hprepared
    exact projectMeets_dev
  refine ⟨_, hrun, ?_, detectors_agree devSite_fresh hrun⟩
  rw [hstate]
  simp [FileView.record]

/-- A production install records its graph under the stamp of the lockfile of
all roots. -/
theorem production_record_disagrees :
    ∃ event after, devSite.Fresh devView ∧
      devSite.Step Digest.unaryHash releaseCrate event devView after ∧
      ¬devSite.ProjectAgrees Digest.unaryHash releaseCrate after := by
  obtain ⟨outcome, state, hinstall, hplan, hwrote, hstate, hgraph, hversion, hsource, hhash⟩ :=
    install_dev false onePackage (by decide +kernel) rfl
  have hstep : devSite.Step Digest.unaryHash releaseCrate
      (.project (quietWorld onePackage devView) plainConfig devProject (devInstall false)) devView
      (devView.record devSite.root outcome.installState) := by
    refine Step.project rfl ?_ hinstall ?_ ?_ (devSite_stamped _ rfl rfl)
    · rw [hplan, devPlan_lockfilePath]
      rfl
    · intro force seed graph storePaths h
      cases h
      rw [hplan]
      exact ⟨fun _ _ => .ok pkgA, by rfl⟩
    · rw [hwrote]
      apply devSite_leaves
      intro lockfile h
      cases h
  refine ⟨_, _, devSite_fresh, hstep, fun hagrees => ?_⟩
  rw [hstate] at hagrees
  have hvalid : readValidInstallState (devView.record devSite.root (some state)) "/app"
      "/app/snpm-lock.yaml" = some state := by
    have hdisk : (devView.record devSite.root (some state)).installState
        (installStatePath "/app") = some state := by
      simp [FileView.record, devSite]
    have hcapture : SnapshotSource.capture (devView.record devSite.root (some state))
        "/app/snpm-lock.yaml" = some state.source := by
      rw [hsource]
      rfl
    unfold readValidInstallState
    rw [hdisk, hcapture]
    simp [hversion]
  obtain ⟨cached, hcached⟩ : ∃ cached, loadProjectInstallState Digest.unaryHash releaseCrate
      ⟨plainConfig, none, devView.record devSite.root (some state)⟩ devProject
      "/app/snpm-lock.yaml" devSpecs.required devSpecs.optional true = some cached :=
    exists_loadInstallState hvalid
  obtain ⟨found, hfound, hcachedGraph, hmatches⟩ := loadInstallState_some hcached
  have hsame : some found = some state := hfound.symm.trans hvalid
  cases hsame
  have hmismatch : cached.rootSpecsMatches = false := by
    rw [← Bool.not_eq_true, hmatches, hhash]
    intro hequal
    have hspecs := (rootSpecsHash_eq_iff Digest.unaryHash
      (nulFree_of_toList (by decide +kernel)) nulFree_empty (nulFree_of_toList (by decide +kernel))
      nulFree_empty).mp hequal
    exact absurd hspecs.1 (by decide +kernel)
  obtain ⟨lockfile, hread, hdetect, -⟩ := hagrees plainConfig none devProject devSpecs .prefer
    false none "/app/snpm-lock.yaml" cached rfl rfl (fun _ h => by cases h) (by decide) rfl hcached
  have hlockfile : (.ok devLockfile : Result Lockfile) = .ok lockfile := hread
  cases hlockfile
  have hcold : detectInstallScenario Digest.unaryHash releaseCrate
      ⟨plainConfig, none, devView.record devSite.root (some state)⟩ devProject
      devSite.lockfilePath devSpecs.required devSpecs.optional .prefer false none =
        coldWithGraph onePackage := by
    have hrecords : detectFromRecords Digest.unaryHash releaseCrate
        ⟨plainConfig, none, devView.record devSite.root (some state)⟩ devProject
        devSite.lockfilePath "/app/snpm-lock.yaml" devSpecs.required devSpecs.optional false none =
          coldWithGraph onePackage := by
      unfold detectFromRecords
      rw [hcached]
      simp only [hmismatch, Bool.false_eq_true, if_false, hcachedGraph, hgraph]
    exact hrecords
  rw [hcold, projectVerdict, if_pos (by decide +kernel)] at hdetect
  rcases detectFromGraph_cases (H := Digest.unaryHash) (S := releaseCrate)
    ⟨plainConfig, none, devView.record devSite.root (some state)⟩ devProject devLockfile.toGraph
    false (some cached.layoutValid) with h | h
  · rw [h] at hdetect
    exact absurd (congrArg ScenarioResult.graph hdetect) (by simp [coldWithGraph,
      ScenarioResult.cold])
  · rw [← hdetect] at h
    have hequal : onePackage = devLockfile.toGraph := Option.some.inj h
    exact absurd hequal (by decide +kernel)

end Examples

end Site

end Snpm.Install
