import Mathlib
import Snpm.Install.Scenario
import Snpm.Install.WorkspaceRoots

/-!
Planning the install of a workspace: the roots are collected, the scenario is
detected from what former installs recorded or from the lockfile, and a frozen
install is refused when the lockfile no longer matches the manifests.
-/
namespace Snpm.Install

structure WorkspaceInstallSetup where
  lockfilePath : PathBuf
  compatibleLockfile : Option CompatibleLockfile
  overrides : BTreeMap String String
  rootSpecs : RootSpecSet
  rootDependencies : BTreeMap String String
  rootProtocols : BTreeMap String RegistryProtocol
  optionalRootNames : BTreeSet String

structure WorkspaceScenarioArtifacts where
  scenario : InstallScenario
  existingLockfile : Option Lockfile
  graph : Option ResolutionGraph
  cacheCheck : Option CacheCheckResult
  lockfileChecked : Bool

structure WorkspaceInstallPlan where
  setup : WorkspaceInstallSetup
  scenario : InstallScenario
  scenarioGraph : Option ResolutionGraph
  scenarioCacheCheck : Option CacheCheckResult

def WorkspaceScenarioArtifacts.cold (lockfileChecked : Bool) : WorkspaceScenarioArtifacts :=
  ⟨.cold, none, none, none, lockfileChecked⟩

/-- Every root gets the protocol its spec shows, and npm otherwise. -/
def buildRootProtocols (rootDependencies : BTreeMap String String) :
    BTreeMap String RegistryProtocol :=
  rootDependencies.map fun _ spec => (detectManifestProtocol spec).getD .npm

section Setup

variable (S : SemverCrate) (files : FileView) (workspace : Workspace)

/-- Only the manifest of the workspace root declares overrides. -/
def loadWorkspaceOverrides : Result (BTreeMap String String) := do
  let overrides := (← files.overridesConfig workspace.root).getD ∅
  match workspace.projects.find? (·.root = workspace.root) with
  | some rootProject => mergeManifestOverrides rootProject overrides
  | none => .ok overrides

def setupOf (lockfilePath : PathBuf) (compatibleLockfile : Option CompatibleLockfile)
    (overrides : BTreeMap String String) (rootSpecs : RootSpecSet) : WorkspaceInstallSetup :=
  let rootDependencies := rootSpecs.required ∪ rootSpecs.optional
  { lockfilePath := lockfilePath
    compatibleLockfile := compatibleLockfile
    overrides := overrides
    rootSpecs := rootSpecs
    rootDependencies := rootDependencies
    rootProtocols := buildRootProtocols rootDependencies
    optionalRootNames := .ofList rootSpecs.optional.keys compare }

def workspaceLockfilePath : PathBuf := workspace.root.join "snpm-lock.yaml"

def workspaceCompatibleLockfile : Option CompatibleLockfile :=
  if files.isFile (workspaceLockfilePath workspace) then none
  else files.detectCompatible workspace.root

def prepareWorkspaceInstall (includeDev : Bool) (frozenLockfile : FrozenLockfileMode)
    (strictNoLockfile : Bool) : Result WorkspaceInstallSetup :=
  if strictNoLockfile && frozenLockfile = .frozen &&
      !files.isFile (workspaceLockfilePath workspace) &&
      (workspaceCompatibleLockfile files workspace).isNone then
    .error (.lockfile (workspaceLockfilePath workspace)
      "frozen-lockfile requested but neither snpm-lock.yaml nor a supported compatible lockfile was found")
  else do
    let overrides ← loadWorkspaceOverrides files workspace
    let rootSpecs ← collectWorkspaceRootSpecsWithOverrides S files workspace includeDev overrides
    .ok (setupOf (workspaceLockfilePath workspace) (workspaceCompatibleLockfile files workspace)
      overrides rootSpecs)

end Setup

def WorkspaceInstallSetup.lockfileSourcePath (files : FileView) (setup : WorkspaceInstallSetup) :
    PathBuf :=
  (Install.lockfileSourcePath files setup.lockfilePath setup.compatibleLockfile).getD
    setup.lockfilePath

section Detect

variable (H : Digest.Hash) (S : SemverCrate) (input : LayoutInput) (workspace : Workspace)

/-- The scenario of a workspace graph. Other than for a project, a cold result
keeps the graph and the lockfile it came from. -/
def detectWorkspaceFromGraph (graph : ResolutionGraph) (force : Bool)
    (existingLockfile : Option Lockfile) (lockfileChecked : Bool)
    (cachedLayoutValid : Option Bool) : WorkspaceScenarioArtifacts :=
  match buildWorkspaceIntegrityState H input.files workspace graph with
  | .error _ => ⟨.cold, existingLockfile, some graph, none, lockfileChecked⟩
  | .ok integrityState =>
      let layoutValid :=
        cachedLayoutValid.getD (checkWorkspaceLayoutState H S input workspace graph true)
      if !force && checkIntegrityPath input.files workspace.root integrityState && layoutValid then
        ⟨.hot, existingLockfile, some graph, none, lockfileChecked⟩
      else
        let cacheCheck := checkStoreCache input.config input.files graph
        if cacheCheck.missing.any (·.tarball = "") then
          ⟨.cold, existingLockfile, some graph, none, lockfileChecked⟩
        else if cacheCheck.missing = [] then
          ⟨.warmLinkOnly, existingLockfile, some graph, some cacheCheck, lockfileChecked⟩
        else ⟨.warmPartialCache, existingLockfile, some graph, some cacheCheck, lockfileChecked⟩

def detectWorkspaceFromLockfile (lockfilePath : PathBuf)
    (compatibleLockfile : Option CompatibleLockfile) (force : Bool)
    (requiredRoot optionalRoot : BTreeMap String String) : WorkspaceScenarioArtifacts :=
  match readExistingLockfile input.files lockfilePath compatibleLockfile "no lockfile was found" with
  | .error _ => WorkspaceScenarioArtifacts.cold false
  | .ok existing =>
      if existing.rootSpecsMatch requiredRoot optionalRoot then
        detectWorkspaceFromGraph H S input workspace existing.toGraph force (some existing) true none
      else ⟨.cold, some existing, some existing.toGraph, none, true⟩

/-- The graph of a snapshot, when it was resolved for the present root specs. -/
def matchingSnapshot (sourcePath : PathBuf) (requiredRoot optionalRoot : BTreeMap String String) :
    Option ResolutionGraph :=
  (loadGraphSnapshot input.files workspace.root sourcePath).bind fun snapshot =>
    if snapshot.matchesRootSpecs H requiredRoot optionalRoot then some snapshot.graph else none

def detectWorkspaceScenarioEarly (lockfilePath : PathBuf)
    (compatibleLockfile : Option CompatibleLockfile) (frozenLockfile : FrozenLockfileMode)
    (force : Bool) (requiredRoot optionalRoot : BTreeMap String String) :
    WorkspaceScenarioArtifacts :=
  if frozenLockfile = .no ∨ frozenLockfile = .fix then WorkspaceScenarioArtifacts.cold false
  else
    match lockfileSourcePath input.files lockfilePath compatibleLockfile with
    | none => WorkspaceScenarioArtifacts.cold false
    | some sourcePath =>
        match loadWorkspaceInstallState H S input workspace sourcePath requiredRoot optionalRoot
          true with
        | some state =>
            if state.rootSpecsMatches then
              detectWorkspaceFromGraph H S input workspace state.graph force none true
                (some state.layoutValid)
            else ⟨.cold, none, some state.graph, none, true⟩
        | none =>
            match matchingSnapshot H input workspace sourcePath requiredRoot optionalRoot with
            | some graph => detectWorkspaceFromGraph H S input workspace graph force none true none
            | none => detectWorkspaceFromLockfile H S input workspace lockfilePath
                compatibleLockfile force requiredRoot optionalRoot

end Detect

def validateLockfileMatchesManifest (frozenLockfile : FrozenLockfileMode) (lockfilePath : PathBuf)
    (strictNoLockfile : Bool) (scenario : InstallScenario) (lockfile : Option Lockfile)
    (requiredRoot optionalRoot : BTreeMap String String) (lockfileChecked : Bool) :
    Result (InstallScenario × Option Lockfile) :=
  if lockfile.any fun existing => !existing.rootSpecsMatch requiredRoot optionalRoot then
    if frozenLockfile = .frozen then
      .error (.lockfile lockfilePath
        "manifest dependencies do not match the existing lockfile when using frozen-lockfile")
    else .ok (.cold, lockfile)
  else if strictNoLockfile && frozenLockfile = .frozen && !lockfileChecked then
    .error (.lockfile lockfilePath "frozen-lockfile requested but lockfile could not be read")
  else .ok (scenario, lockfile)

/-- The version a lockfile pins a required root to. -/
def pinRequired (existing : Lockfile) (name requested : String) : Option String :=
  (existing.root.dependencies[name]?).bind fun dep =>
    if dep.optional ∨ dep.requested ≠ requested then none else dep.version

def pinOptional (existing : Lockfile) (name requested : String) : Option String :=
  (existing.root.dependencies[name]?).bind fun dep =>
    if dep.requested ≠ requested then none else dep.version

/-- Roots whose request is unchanged are replaced by their locked versions. -/
def pinRoots (specs : RootSpecSet) (rootDependencies : BTreeMap String String)
    (existing : Lockfile) : BTreeMap String String :=
  rootDependencies ∪ specs.required.filterMap (pinRequired existing) ∪
    specs.optional.filterMap (pinOptional existing)

def pinnedWorkspaceRootDependenciesForFix (setup : WorkspaceInstallSetup)
    (existingLockfile : Option Lockfile) : BTreeMap String String :=
  match existingLockfile with
  | none => setup.rootDependencies
  | some existing => pinRoots setup.rootSpecs setup.rootDependencies existing

section Plan

variable (H : Digest.Hash) (S : SemverCrate) (input : LayoutInput) (workspace : Workspace)

def readWorkspaceLockfileForFix (setup : WorkspaceInstallSetup) : Option Lockfile :=
  (readExistingLockfile input.files setup.lockfilePath setup.compatibleLockfile
    "no lockfile was found").toOption

def workspaceArtifacts (setup : WorkspaceInstallSetup) (frozenLockfile : FrozenLockfileMode)
    (force : Bool) : WorkspaceScenarioArtifacts :=
  if frozenLockfile = .fix then
    let existing := readWorkspaceLockfileForFix input setup
    ⟨.cold, existing, existing.map Lockfile.toGraph, none, existing.isSome⟩
  else
    detectWorkspaceScenarioEarly H S input workspace setup.lockfilePath setup.compatibleLockfile
      frozenLockfile force setup.rootSpecs.required setup.rootSpecs.optional

/-- In fix mode the protocols are computed again, from the pinned specs. -/
def pinSetup (setup : WorkspaceInstallSetup) (frozenLockfile : FrozenLockfileMode)
    (existingLockfile : Option Lockfile) : WorkspaceInstallSetup :=
  if frozenLockfile = .fix then
    let pinned := pinnedWorkspaceRootDependenciesForFix setup existingLockfile
    { setup with rootDependencies := pinned, rootProtocols := buildRootProtocols pinned }
  else setup

def planWorkspaceInstall (includeDev : Bool) (frozenLockfile : FrozenLockfileMode)
    (strictNoLockfile force : Bool) : Result WorkspaceInstallPlan := do
  let setup ← prepareWorkspaceInstall S input.files workspace includeDev frozenLockfile
    strictNoLockfile
  let artifacts := workspaceArtifacts H S input workspace setup frozenLockfile force
  let (scenario, existingLockfile) ← validateLockfileMatchesManifest frozenLockfile
    (setup.lockfileSourcePath input.files) strictNoLockfile artifacts.scenario
    artifacts.existingLockfile setup.rootSpecs.required setup.rootSpecs.optional
    artifacts.lockfileChecked
  .ok ⟨pinSetup setup frozenLockfile existingLockfile, scenario, artifacts.graph,
    artifacts.cacheCheck⟩

end Plan

section Stages

variable {H : Digest.Hash} {S : SemverCrate} {input : LayoutInput} {workspace : Workspace}
  {includeDev strict force : Bool} {mode : FrozenLockfileMode} {plan : WorkspaceInstallPlan}

theorem validateLockfileMatchesManifest_ok {path : PathBuf} {scenario after : InstallScenario}
    {lockfile existing : Option Lockfile} {required optional : BTreeMap String String}
    {checked : Bool}
    (h : validateLockfileMatchesManifest mode path strict scenario lockfile required optional
      checked = .ok (after, existing)) :
    existing = lockfile ∧ (after = scenario ∨ after = .cold) := by
  unfold validateLockfileMatchesManifest at h
  split at h
  next =>
      split at h
      next => cases h
      next =>
          cases h
          exact ⟨rfl, .inr rfl⟩
  next =>
      split at h
      next => cases h
      next =>
          cases h
          exact ⟨rfl, .inl rfl⟩

/-- The stages of a plan. A scenario is at most made cold after it was
detected. -/
theorem planWorkspaceInstall_ok
    (h : planWorkspaceInstall H S input workspace includeDev mode strict force = .ok plan) :
    ∃ setup, prepareWorkspaceInstall S input.files workspace includeDev mode strict = .ok setup ∧
      plan.setup = pinSetup setup mode
        (workspaceArtifacts H S input workspace setup mode force).existingLockfile ∧
      (plan.scenario = (workspaceArtifacts H S input workspace setup mode force).scenario ∨
        plan.scenario = .cold) ∧
      plan.scenarioGraph = (workspaceArtifacts H S input workspace setup mode force).graph := by
  obtain ⟨setup, hsetup, h⟩ := Result.bind_eq_ok h
  simp only at h
  obtain ⟨⟨scenario, existing⟩, hvalid, h⟩ := Result.bind_eq_ok h
  cases h
  obtain ⟨hexisting, hscenario⟩ := validateLockfileMatchesManifest_ok hvalid
  cases hexisting
  exact ⟨setup, hsetup, rfl, hscenario, rfl⟩

theorem prepareWorkspaceInstall_ok {files : FileView} {setup : WorkspaceInstallSetup}
    (h : prepareWorkspaceInstall S files workspace includeDev mode strict = .ok setup) :
    ∃ overrides rootSpecs, loadWorkspaceOverrides files workspace = .ok overrides ∧
      collectWorkspaceRootSpecsWithOverrides S files workspace includeDev overrides =
        .ok rootSpecs ∧
      setup = setupOf (workspaceLockfilePath workspace) (workspaceCompatibleLockfile files workspace)
        overrides rootSpecs := by
  unfold prepareWorkspaceInstall at h
  split at h
  next => cases h
  next =>
      obtain ⟨overrides, hoverrides, h⟩ := Result.bind_eq_ok h
      obtain ⟨rootSpecs, hspecs, h⟩ := Result.bind_eq_ok h
      cases h
      exact ⟨overrides, rootSpecs, hoverrides, hspecs, rfl⟩

@[simp] theorem pinSetup_rootSpecs {setup : WorkspaceInstallSetup} {existing : Option Lockfile} :
    (pinSetup setup mode existing).rootSpecs = setup.rootSpecs := by
  unfold pinSetup
  split
  next => rfl
  next => rfl

@[simp] theorem pinSetup_lockfilePath {setup : WorkspaceInstallSetup}
    {existing : Option Lockfile} :
    (pinSetup setup mode existing).lockfilePath = setup.lockfilePath := by
  unfold pinSetup
  split
  next => rfl
  next => rfl

@[simp] theorem pinSetup_compatibleLockfile {setup : WorkspaceInstallSetup}
    {existing : Option Lockfile} :
    (pinSetup setup mode existing).compatibleLockfile = setup.compatibleLockfile := by
  unfold pinSetup
  split
  next => rfl
  next => rfl

@[simp] theorem pinSetup_optionalRootNames {setup : WorkspaceInstallSetup}
    {existing : Option Lockfile} :
    (pinSetup setup mode existing).optionalRootNames = setup.optionalRootNames := by
  unfold pinSetup
  split
  next => rfl
  next => rfl

/-- The fields of the setup that pinning leaves alone. -/
theorem setup_of_plan
    (hplan : planWorkspaceInstall H S input workspace includeDev mode strict force = .ok plan) :
    plan.setup.lockfilePath = workspaceLockfilePath workspace ∧
      plan.setup.compatibleLockfile = workspaceCompatibleLockfile input.files workspace ∧
      plan.setup.optionalRootNames = .ofList plan.setup.rootSpecs.optional.keys compare := by
  obtain ⟨setup, hsetup, hpinned, -⟩ := planWorkspaceInstall_ok hplan
  obtain ⟨overrides, rootSpecs, -, -, rfl⟩ := prepareWorkspaceInstall_ok hsetup
  rw [hpinned, pinSetup_lockfilePath, pinSetup_compatibleLockfile, pinSetup_optionalRootNames,
    pinSetup_rootSpecs]
  exact ⟨rfl, rfl, rfl⟩

end Stages

end Snpm.Install
