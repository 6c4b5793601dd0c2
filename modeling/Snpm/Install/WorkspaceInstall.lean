import Mathlib
import Snpm.Install.WorkspacePlan

/-!
Installing a workspace. The planned graph is loaded or resolved, the packages
are put into the shared virtual store, and each member gets links to its
siblings and to the store. What the network answers and whether writes succeed
is given from outside.
-/
namespace Snpm.Install
namespace WorkspaceInstall

/-- What one workspace install gets from outside. `after` is the disk once the
members are linked and the scripts have run. -/
structure World where
  createClient : Result Unit
  checkAges : ResolutionGraph → Result Unit
  resolve : WorkspaceInstallSetup → Bool → Option ResolutionGraph →
    Result (ResolutionGraph × BTreeMap PackageId PathBuf)
  download : List ResolvedPackage → Result (BTreeMap PackageId PathBuf)
  writeLockfile : PathBuf → Lockfile → Result Unit
  /-- Where the packages of a graph lie in the shared virtual store. -/
  virtualStore : InstallScenario → ResolutionGraph → BTreeMap PackageId PathBuf →
    Result (BTreeMap PackageId PathBuf)
  /-- The links that a member has before the install. -/
  nodeModules : Project → BTreeMap String PathBuf
  symlink : PathBuf → PathBuf → Result Unit
  runScripts : Result Unit
  captureChecks : ResolutionGraph → Result (List LayoutCheck)
  writeInstallState : InstallStateFile → Result Unit
  after : FileView

structure WorkspaceGraphLoad where
  graph : ResolutionGraph
  storePaths : BTreeMap PackageId PathBuf
  wroteLockfile : Option Lockfile

section Graph

variable (world : World) (config : SnpmConfig) (files : FileView) (plan : WorkspaceInstallPlan)
  (includeDev force : Bool)

def scenarioGraph (scenario : String) : Result ResolutionGraph :=
  match plan.scenarioGraph with
  | some graph => .ok graph
  | none => .error (.lockfile plan.setup.lockfilePath
      (scenario ++ " scenario requires existing graph state"))

def scenarioCache (graph : ResolutionGraph) : CacheCheckResult :=
  plan.scenarioCacheCheck.getD (checkStoreCache config files graph)

def validateAges : Result Unit :=
  match config.minPackageAgeDays, plan.scenarioGraph with
  | some _, some graph => if force then .ok () else world.checkAges graph
  | _, _ => .ok ()

def writeLockfile (graph : ResolutionGraph) : Result Lockfile := do
  let lockfile := Lockfile.ofGraph graph plan.setup.rootSpecs.optional
  world.writeLockfile plan.setup.lockfilePath lockfile
  .ok lockfile

/-- Only the roots of a full install are written to the lockfile. -/
def loadColdGraph : Result WorkspaceGraphLoad := do
  let (graph, storePaths) ← world.resolve plan.setup force plan.scenarioGraph
  if includeDev then
    let lockfile ← writeLockfile world plan graph
    .ok ⟨graph, storePaths, some lockfile⟩
  else .ok ⟨graph, storePaths, none⟩

def loadGraph : Result WorkspaceGraphLoad :=
  match plan.scenario with
  | .hot => do
      let graph ← scenarioGraph plan "Hot"
      .ok ⟨graph, ∅, none⟩
  | .warmLinkOnly => do
      let graph ← scenarioGraph plan "WarmLinkOnly"
      .ok ⟨graph, (scenarioCache config files plan graph).cached, none⟩
  | .warmPartialCache => do
      let graph ← scenarioGraph plan "WarmPartialCache"
      let cacheCheck := scenarioCache config files plan graph
      let downloaded ← world.download cacheCheck.missing
      .ok ⟨graph, cacheCheck.cached ∪ downloaded, none⟩
  | .cold => loadColdGraph world plan includeDev force

/-- A lockfile of another package manager is imported on the first install. -/
def importLockfile (loaded : WorkspaceGraphLoad) : Result WorkspaceGraphLoad :=
  if includeDev && loaded.wroteLockfile.isNone && plan.setup.compatibleLockfile.isSome &&
      !files.isFile plan.setup.lockfilePath then do
    let lockfile ← writeLockfile world plan loaded.graph
    .ok { loaded with wroteLockfile := some lockfile }
  else .ok loaded

def loadWorkspaceGraph : Result WorkspaceGraphLoad := do
  validateAges world config plan force
  let loaded ← loadGraph world config files plan includeDev force
  importLockfile world files plan includeDev loaded

end Graph

section Links

variable (S : SemverCrate) (world : World) (workspace : Workspace)

/-- The dependencies that are linked to a sibling, decided on the specs as they
stand in the manifest. -/
def collectLocalDeps (deps : BTreeMap String String) : Result (BTreeSet String) := do
  let found ← BTreeMap.filterMapM (fun name spec => do
    let isLocal ← isLocalWorkspaceDependency S workspace name spec
    .ok (if isLocal then some spec else none)) deps
  .ok (.ofList found.keys compare)

/-- A root that was not resolved gets no link. -/
def linkExternalDep (localDeps : BTreeSet String) (graph : ResolutionGraph)
    (virtualStorePaths : BTreeMap PackageId PathBuf) (nodeModules : PathBuf)
    (links : BTreeMap String PathBuf) (dep : String × String) : Result (BTreeMap String PathBuf) :=
  if Text.startsWith dep.2 "workspace:" || localDeps.contains dep.1 then .ok links
  else
    match graph.root.dependencies[dep.1]? with
    | none => .ok links
    | some rootDep =>
        match virtualStorePaths[rootDep.resolved]? with
        | none => .error (.graphMissing rootDep.resolved.name rootDep.resolved.version)
        | some target => do
            world.symlink target (nodeModules.join dep.1)
            .ok (links.insert dep.1 target)

def linkExternalDeps (manifestDeps : BTreeMap String String) (localDeps : BTreeSet String)
    (graph : ResolutionGraph) (virtualStorePaths : BTreeMap PackageId PathBuf)
    (nodeModules : PathBuf) (links : BTreeMap String PathBuf) : Result (BTreeMap String PathBuf) :=
  manifestDeps.toList.foldlM
    (linkExternalDep world localDeps graph virtualStorePaths nodeModules) links

def linkLocalDep (localDeps localDevDeps : BTreeSet String) (includeDev : Bool)
    (nodeModules : PathBuf) (links : BTreeMap String PathBuf) (name : String) :
    Result (BTreeMap String PathBuf) :=
  if !includeDev && localDevDeps.contains name && !localDeps.contains name then .ok links
  else
    match workspace.projectByName name with
    | none => .error (dependencyNotFound workspace name)
    | some source => do
        world.symlink source.root (nodeModules.join name)
        .ok (links.insert name source.root)

/-- The sibling links come last. -/
def linkLocalWorkspaceDeps (localDeps localDevDeps localOptionalDeps : BTreeSet String)
    (includeDev : Bool) (nodeModules : PathBuf) (links : BTreeMap String PathBuf) :
    Result (BTreeMap String PathBuf) :=
  (localDeps.toList ++ localDevDeps.toList ++ localOptionalDeps.toList).foldlM
    (linkLocalDep world workspace localDeps localDevDeps includeDev nodeModules) links

/-- The links of a member after the install. -/
def linkProjectDependencies (graph : ResolutionGraph)
    (virtualStorePaths : BTreeMap PackageId PathBuf) (includeDev : Bool) (project : Project) :
    Result (BTreeMap String PathBuf) := do
  let nodeModules := project.root.join "node_modules"
  let localDeps ← collectLocalDeps S workspace project.manifest.dependencies
  let localDevDeps ← collectLocalDeps S workspace project.manifest.devDependencies
  let localOptionalDeps ← collectLocalDeps S workspace project.manifest.optionalDependencies
  let links ← linkExternalDeps world project.manifest.dependencies localDeps graph
    virtualStorePaths nodeModules (world.nodeModules project)
  let links ← linkExternalDeps world
    (if includeDev then project.manifest.devDependencies else ∅) localDevDeps graph
    virtualStorePaths nodeModules links
  let links ← linkExternalDeps world project.manifest.optionalDependencies localOptionalDeps graph
    virtualStorePaths nodeModules links
  linkLocalWorkspaceDeps world workspace localDeps localDevDeps localOptionalDeps includeDev
    nodeModules links

/-- A member and its links. -/
structure LinkedMember where
  project : Project
  links : BTreeMap String PathBuf

def linkMember (graph : ResolutionGraph) (virtualStorePaths : BTreeMap PackageId PathBuf)
    (includeDev : Bool) (project : Project) : Result LinkedMember := do
  let links ← linkProjectDependencies S world workspace graph virtualStorePaths includeDev project
  .ok ⟨project, links⟩

structure FinalizedInstall where
  virtualStorePaths : BTreeMap PackageId PathBuf
  members : List LinkedMember

def finalizeWorkspaceInstall (graph : ResolutionGraph) (storePaths : BTreeMap PackageId PathBuf)
    (includeDev : Bool) (scenario : InstallScenario) : Result FinalizedInstall := do
  let virtualStorePaths ← world.virtualStore scenario graph storePaths
  let members ← workspace.projects.mapM
    (linkMember S world workspace graph virtualStorePaths includeDev)
  world.runScripts
  .ok ⟨virtualStorePaths, members⟩

end Links

structure InstallOutcome where
  plan : WorkspaceInstallPlan
  loaded : WorkspaceGraphLoad
  finalized : FinalizedInstall
  installState : Option InstallStateFile

section Install

variable (H : Digest.Hash) (S : SemverCrate) (world : World) (config : SnpmConfig)
  (workspace : Workspace)

def writeWorkspaceInstallState (setup : WorkspaceInstallSetup) (graph : ResolutionGraph)
    (includeDev : Bool) : Result InstallStateFile := do
  let source ← captureSource world.after (setup.lockfileSourcePath world.after)
  let checks ← world.captureChecks graph
  let layoutHash ← buildWorkspaceLayoutHash H S ⟨config, some workspace, world.after⟩ workspace
    graph includeDev
  let state : InstallStateFile := ⟨installStateVersion, source,
    rootSpecsHash H setup.rootSpecs.required setup.rootSpecs.optional, graph, ⟨layoutHash, checks⟩⟩
  world.writeInstallState state
  .ok state

def recordInstall (setup : WorkspaceInstallSetup) (graph : ResolutionGraph) (includeDev : Bool) :
    Result (Option InstallStateFile) :=
  if world.after.isFile (setup.lockfileSourcePath world.after) then do
    let state ← writeWorkspaceInstallState H S world config workspace setup graph includeDev
    .ok (some state)
  else .ok none

def installPlanned (files : FileView) (plan : WorkspaceInstallPlan) (includeDev force : Bool) :
    Result InstallOutcome := do
  let loaded ← loadWorkspaceGraph world config files plan includeDev force
  let finalized ← finalizeWorkspaceInstall S world workspace loaded.graph loaded.storePaths
    includeDev plan.scenario
  let state ← recordInstall H S world config workspace plan.setup loaded.graph includeDev
  .ok ⟨plan, loaded, finalized, state⟩

/-- Nothing is done for a workspace without members, or without a root that
comes from outside the workspace. -/
def installWorkspace (files : FileView) (includeDev : Bool) (frozenLockfile : FrozenLockfileMode)
    (strictNoLockfile force : Bool) : Result (Option InstallOutcome) :=
  if workspace.projects.isEmpty then .ok none
  else do
    world.createClient
    let plan ← planWorkspaceInstall H S ⟨config, some workspace, files⟩ workspace includeDev
      frozenLockfile strictNoLockfile force
    if plan.setup.rootDependencies.isEmpty then .ok none
    else
      let outcome ← installPlanned H S world config workspace files plan includeDev force
      .ok (some outcome)

end Install

section Spec

variable {H : Digest.Hash} {S : SemverCrate} {world : World} {config : SnpmConfig}
  {files : FileView} {workspace : Workspace} {plan : WorkspaceInstallPlan}
  {includeDev force : Bool}

theorem scenarioGraph_ok {scenario : String} {graph : ResolutionGraph}
    (h : scenarioGraph plan scenario = .ok graph) : plan.scenarioGraph = some graph := by
  unfold scenarioGraph at h
  split at h
  next found hfound =>
      cases h
      exact hfound
  next => cases h

theorem writeLockfile_ok {graph : ResolutionGraph} {lockfile : Lockfile}
    (h : writeLockfile world plan graph = .ok lockfile) :
    lockfile = Lockfile.ofGraph graph plan.setup.rootSpecs.optional := by
  obtain ⟨_, -, h⟩ := Result.bind_eq_ok h
  cases h
  rfl

theorem loadColdGraph_ok {loaded : WorkspaceGraphLoad}
    (h : loadColdGraph world plan includeDev force = .ok loaded) :
    world.resolve plan.setup force plan.scenarioGraph = .ok (loaded.graph, loaded.storePaths) ∧
      loaded.wroteLockfile = if includeDev then
        some (Lockfile.ofGraph loaded.graph plan.setup.rootSpecs.optional) else none := by
  obtain ⟨⟨graph, storePaths⟩, hresolve, h⟩ := Result.bind_eq_ok h
  simp only at h
  split at h
  next hdev =>
      obtain ⟨lockfile, hlockfile, h⟩ := Result.bind_eq_ok h
      cases h
      rw [if_pos hdev, writeLockfile_ok hlockfile]
      exact ⟨hresolve, rfl⟩
  next hdev =>
      cases h
      rw [if_neg hdev]
      exact ⟨hresolve, rfl⟩

theorem loadGraph_ok {loaded : WorkspaceGraphLoad} (hscenario : plan.scenario ≠ .cold)
    (h : loadGraph world config files plan includeDev force = .ok loaded) :
    plan.scenarioGraph = some loaded.graph ∧ loaded.wroteLockfile = none := by
  unfold loadGraph at h
  split at h
  next =>
      obtain ⟨graph, hgraph, h⟩ := Result.bind_eq_ok h
      cases h
      exact ⟨scenarioGraph_ok hgraph, rfl⟩
  next =>
      obtain ⟨graph, hgraph, h⟩ := Result.bind_eq_ok h
      cases h
      exact ⟨scenarioGraph_ok hgraph, rfl⟩
  next =>
      obtain ⟨graph, hgraph, h⟩ := Result.bind_eq_ok h
      obtain ⟨_, -, h⟩ := Result.bind_eq_ok h
      cases h
      exact ⟨scenarioGraph_ok hgraph, rfl⟩
  next hcold => exact absurd hcold hscenario

/-- A foreign lockfile is taken over when there is no own one. -/
structure Imports (files : FileView) (plan : WorkspaceInstallPlan) (includeDev : Bool) :
    Prop where
  full : includeDev = true
  foreign : plan.setup.compatibleLockfile.isSome = true
  missing : files.isFile plan.setup.lockfilePath = false

theorem importLockfile_ok {loaded after : WorkspaceGraphLoad}
    (h : importLockfile world files plan includeDev loaded = .ok after) :
    after.graph = loaded.graph ∧ after.storePaths = loaded.storePaths ∧
      (after.wroteLockfile = loaded.wroteLockfile ∧
          ¬(loaded.wroteLockfile = none ∧ Imports files plan includeDev) ∨
        loaded.wroteLockfile = none ∧ Imports files plan includeDev ∧
          after.wroteLockfile =
            some (Lockfile.ofGraph loaded.graph plan.setup.rootSpecs.optional)) := by
  unfold importLockfile at h
  split at h
  next hcond =>
      simp only [Bool.and_eq_true, Bool.not_eq_true', Option.isNone_iff_eq_none] at hcond
      obtain ⟨lockfile, hlockfile, h⟩ := Result.bind_eq_ok h
      cases h
      exact ⟨rfl, rfl, .inr ⟨hcond.1.1.2, ⟨hcond.1.1.1, hcond.1.2, hcond.2⟩,
        congrArg some (writeLockfile_ok hlockfile)⟩⟩
  next hcond =>
      cases h
      refine ⟨rfl, rfl, .inl ⟨rfl, ?_⟩⟩
      rintro ⟨hnone, himports⟩
      apply hcond
      simp [himports.full, himports.foreign, himports.missing, hnone]

/-- Where the graph of an install comes from, and what is written to the
lockfile. -/
theorem loadWorkspaceGraph_ok {loaded : WorkspaceGraphLoad}
    (h : loadWorkspaceGraph world config files plan includeDev force = .ok loaded) :
    (plan.scenario = .cold →
        (∃ storePaths, world.resolve plan.setup force plan.scenarioGraph =
          .ok (loaded.graph, storePaths)) ∧
          loaded.wroteLockfile = if includeDev then
            some (Lockfile.ofGraph loaded.graph plan.setup.rootSpecs.optional) else none) ∧
      (plan.scenario ≠ .cold →
        plan.scenarioGraph = some loaded.graph ∧
          (loaded.wroteLockfile = none ∧ ¬Imports files plan includeDev ∨
            Imports files plan includeDev ∧ loaded.wroteLockfile =
              some (Lockfile.ofGraph loaded.graph plan.setup.rootSpecs.optional))) := by
  obtain ⟨_, -, h⟩ := Result.bind_eq_ok h
  obtain ⟨first, hfirst, h⟩ := Result.bind_eq_ok h
  obtain ⟨hgraph, -, hwrote⟩ := importLockfile_ok h
  refine ⟨fun hcold => ?_, fun hwarm => ?_⟩
  · unfold loadGraph at hfirst
    rw [hcold] at hfirst
    obtain ⟨hresolve, hlockfile⟩ := loadColdGraph_ok hfirst
    refine ⟨⟨first.storePaths, hgraph ▸ hresolve⟩, ?_⟩
    rcases hwrote with ⟨hsame, -⟩ | ⟨hnone, himports, -⟩
    · rw [hsame, hlockfile, hgraph]
    · rw [hlockfile, if_pos himports.full] at hnone
      cases hnone
  · obtain ⟨hfound, hnone⟩ := loadGraph_ok hwarm hfirst
    rw [hgraph]
    refine ⟨hfound, ?_⟩
    rcases hwrote with ⟨hsame, hnot⟩ | ⟨-, himports, hsome⟩
    · exact .inl ⟨hsame.trans hnone, fun himports => hnot ⟨hnone, himports⟩⟩
    · exact .inr ⟨himports, hsome⟩

/-- What is recorded: the source, the root specs of the plan and the graph. -/
theorem recordInstall_some {setup : WorkspaceInstallSetup} {graph : ResolutionGraph}
    {state : InstallStateFile}
    (h : recordInstall H S world config workspace setup graph includeDev = .ok (some state)) :
    world.after.isFile (setup.lockfileSourcePath world.after) = true ∧
      state.version = installStateVersion ∧
      SnapshotSource.capture world.after (setup.lockfileSourcePath world.after) =
        some state.source ∧
      state.rootSpecsHash = rootSpecsHash H setup.rootSpecs.required setup.rootSpecs.optional ∧
      state.graph = graph := by
  unfold recordInstall at h
  split at h
  next hfile =>
      obtain ⟨written, hwritten, h⟩ := Result.bind_eq_ok h
      cases h
      obtain ⟨source, hsource, h⟩ := Result.bind_eq_ok hwritten
      obtain ⟨checks, -, h⟩ := Result.bind_eq_ok h
      obtain ⟨layoutHash, -, h⟩ := Result.bind_eq_ok h
      obtain ⟨_, -, h⟩ := Result.bind_eq_ok h
      cases h
      exact ⟨hfile, rfl, capture_of_captureSource hsource, rfl, rfl⟩
  next => cases h

/-- The stages of an install that has something to do. -/
theorem installWorkspace_some {mode : FrozenLockfileMode} {strict : Bool}
    {outcome : InstallOutcome}
    (h : installWorkspace H S world config workspace files includeDev mode strict force =
      .ok (some outcome)) :
    planWorkspaceInstall H S ⟨config, some workspace, files⟩ workspace includeDev mode strict
        force = .ok outcome.plan ∧
      outcome.plan.setup.rootDependencies.isEmpty = false ∧
      loadWorkspaceGraph world config files outcome.plan includeDev force = .ok outcome.loaded ∧
      finalizeWorkspaceInstall S world workspace outcome.loaded.graph outcome.loaded.storePaths
        includeDev outcome.plan.scenario = .ok outcome.finalized ∧
      recordInstall H S world config workspace outcome.plan.setup outcome.loaded.graph
        includeDev = .ok outcome.installState := by
  unfold installWorkspace at h
  split at h
  next => cases h
  next =>
      obtain ⟨_, -, h⟩ := Result.bind_eq_ok h
      obtain ⟨plan, hplan, h⟩ := Result.bind_eq_ok h
      split at h
      next => cases h
      next hroots =>
          obtain ⟨found, hfound, h⟩ := Result.bind_eq_ok h
          cases h
          obtain ⟨loaded, hloaded, h⟩ := Result.bind_eq_ok hfound
          obtain ⟨finalized, hfinalized, h⟩ := Result.bind_eq_ok h
          obtain ⟨state, hstate, h⟩ := Result.bind_eq_ok h
          cases h
          exact ⟨hplan, Bool.eq_false_iff.mpr hroots, hloaded, hfinalized, hstate⟩

end Spec

end WorkspaceInstall
end Snpm.Install
