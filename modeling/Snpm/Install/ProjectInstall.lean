import Mathlib
import Snpm.Install.ProjectPlan

/-!
Installing one project. The graph comes from a record of a former install, from
the lockfile or from a fresh resolution; a fresh resolution of all roots is
written to the lockfile, packages asked for are written to the manifest, and
what was installed is recorded for the next run. What the network answers and
whether writes succeed is given from outside.
-/
namespace Snpm.Install
namespace ProjectInstall

/-- What one install gets from outside. `after` is the disk once the packages
are linked and the scripts have run. -/
structure World where
  createClient : Result Unit
  checkAges : ResolutionGraph → Result Unit
  resolve : ProjectInstallPlan → BTreeMap String String → Bool → Option ResolutionGraph →
    Result (ResolutionGraph × BTreeMap PackageId PathBuf)
  download : List ResolvedPackage → Result (BTreeMap PackageId PathBuf)
  writeLockfile : PathBuf → Lockfile → Result Unit
  writeManifest : Project → Result Unit
  finalize : ResolutionGraph → BTreeMap PackageId PathBuf → Result Unit
  runScripts : Result Unit
  captureChecks : ResolutionGraph → Result (List LayoutCheck)
  writeInstallState : InstallStateFile → Result Unit
  after : FileView

structure ResolvedInstall where
  scenario : InstallScenario
  graph : ResolutionGraph
  storePaths : BTreeMap PackageId PathBuf
  integrityState : Option IntegrityState
  wroteLockfile : Option Lockfile
  hotInstallStateCurrent : Bool

section Seed

variable (files : FileView) (project : Project) (plan : ProjectInstallPlan)

def readLockfileForFix : Result Lockfile :=
  readExistingLockfile files plan.lockfilePath plan.compatibleLockfile "no lockfile was found"

def pinnedRootDependenciesForFix : BTreeMap String String :=
  match readLockfileForFix files plan with
  | .error _ => plan.rootDependencies
  | .ok existing => pinRoots plan.rootSpecs plan.rootDependencies existing

def plannedRootDependencies (options : InstallOptions) : BTreeMap String String :=
  if options.frozenLockfile = .fix then pinnedRootDependenciesForFix files plan
  else plan.rootDependencies

def readExistingGraphSeed : Option ResolutionGraph :=
  if files.isFile plan.lockfilePath then
    match loadGraphSnapshot files project.root plan.lockfilePath with
    | some snapshot => some snapshot.graph
    | none => (files.lockfile plan.lockfilePath).toOption.map Lockfile.toGraph
  else plan.compatibleLockfile.bind fun source =>
    (files.compatible source).toOption.map Lockfile.toGraph

/-- The graph that additions and a fix are resolved against. -/
def explicitLockfileSeed (options : InstallOptions) : Option ResolutionGraph :=
  if options.frozenLockfile = .fix then
    (readLockfileForFix files plan).toOption.map Lockfile.toGraph
  else if plan.additions.isEmpty || options.frozenLockfile = .no then none
  else readExistingGraphSeed files project plan

end Seed

section Resolve

variable (H : Digest.Hash) (S : SemverCrate) (world : World) (config : SnpmConfig)
  (files : FileView) (project : Project) (plan : ProjectInstallPlan) (options : InstallOptions)

/-- Only a full install without additions looks for work it can save. -/
def scenarioOf : ScenarioResult :=
  if options.includeDev && plan.additions.isEmpty &&
      !(options.frozenLockfile = .no || options.frozenLockfile = .fix) then
    detectInstallScenario H S ⟨config, plan.workspace, files⟩ project plan.lockfilePath
      plan.manifestRoot plan.rootSpecs.optional options.frozenLockfile options.force
      plan.compatibleLockfile
  else ScenarioResult.cold

def requireGraph (graph : Option ResolutionGraph) (scenario : String) : Result ResolutionGraph :=
  match graph with
  | some graph => .ok graph
  | none => .error (.internal (scenario ++ " scenario requires a precomputed graph"))

def requireCache (cacheCheck : Option CacheCheckResult) (message : String) :
    Result CacheCheckResult :=
  match cacheCheck with
  | some cacheCheck => .ok cacheCheck
  | none => .error (.internal message)

def validateAges (graph : Option ResolutionGraph) : Result Unit :=
  match config.minPackageAgeDays, graph with
  | some _, some graph => if options.force then .ok () else world.checkAges graph
  | _, _ => .ok ()

def writeLockfile (graph : ResolutionGraph) : Result Lockfile := do
  let lockfile := Lockfile.ofGraph graph plan.rootSpecs.optional
  world.writeLockfile plan.lockfilePath lockfile
  .ok lockfile

structure LoadedGraph where
  graph : ResolutionGraph
  storePaths : BTreeMap PackageId PathBuf
  wroteLockfile : Option Lockfile

def resolveCold (seed : Option ResolutionGraph) : Result LoadedGraph := do
  let (graph, storePaths) ← world.resolve plan (plannedRootDependencies files plan options)
    options.force seed
  if options.includeDev then
    let lockfile ← writeLockfile world plan graph
    .ok ⟨graph, storePaths, some lockfile⟩
  else .ok ⟨graph, storePaths, none⟩

def loadGraph (result : ScenarioResult) : Result LoadedGraph :=
  match result.scenario with
  | .hot => do
      let graph ← requireGraph result.graph "Hot"
      .ok ⟨graph, ∅, none⟩
  | .warmLinkOnly => do
      let graph ← requireGraph result.graph "WarmLinkOnly"
      let cacheCheck ← requireCache result.cacheCheck "WarmLinkOnly scenario requires cache state"
      .ok ⟨graph, cacheCheck.cached, none⟩
  | .warmPartialCache => do
      let graph ← requireGraph result.graph "WarmPartialCache"
      let cacheCheck ← requireCache result.cacheCheck
        "WarmPartialCache scenario requires cache state"
      let downloaded ← world.download cacheCheck.missing
      .ok ⟨graph, cacheCheck.cached ∪ downloaded, none⟩
  | .cold => resolveCold world files plan options
      ((explicitLockfileSeed files project plan options).or result.graph)

/-- A lockfile of another package manager is imported on the first install. -/
def importLockfile (loaded : LoadedGraph) : Result LoadedGraph :=
  if options.includeDev && loaded.wroteLockfile.isNone && plan.compatibleLockfile.isSome &&
      !files.isFile plan.lockfilePath then do
    let lockfile ← writeLockfile world plan loaded.graph
    .ok { loaded with wroteLockfile := some lockfile }
  else .ok loaded

/-- A hot install without an age limit stays off the network. -/
def registryClient (scenario : InstallScenario) : Result Unit :=
  if config.minPackageAgeDays.isSome || scenario ≠ .hot then world.createClient else .ok ()

def resolveInstallState : Result ResolvedInstall := do
  let result := scenarioOf H S config files project plan options
  registryClient world config result.scenario
  validateAges world config options (explicitLockfileSeed files project plan options)
  validateAges world config options result.graph
  let loaded ← loadGraph world files project plan options result
  let loaded ← importLockfile world files plan options loaded
  .ok ⟨result.scenario, loaded.graph, loaded.storePaths, result.integrityState,
    loaded.wroteLockfile, result.hotInstallStateCurrent⟩

end Resolve

section Write

def findCatalogSelector (name : String) (defaultCatalog : BTreeMap String String)
    (namedCatalogs : BTreeMap String (BTreeMap String String)) : Option String :=
  if defaultCatalog.contains name then some "catalog:"
  else (namedCatalogs.toList.find? fun entry => entry.2.contains name).map fun entry =>
    "catalog:" ++ entry.1

def catalogSelector (name : String) (workspace : Option Workspace)
    (catalog : Option CatalogConfig) : Option String :=
  match workspace with
  | some workspace =>
      findCatalogSelector name workspace.config.catalog workspace.config.catalogs
  | none => catalog.bind fun catalog => findCatalogSelector name catalog.catalog catalog.catalogs

/-- A package of a catalog is written as a reference, a bare request as the
resolved version under the configured prefix, and other requests as they are. -/
def manifestSpecForDependency (name requested version : String) (workspace : Option Workspace)
    (catalog : Option CatalogConfig) (savePrefix : String) : String :=
  match catalogSelector name workspace catalog with
  | some selector => selector
  | none =>
      let requested := Text.trim requested
      if requested = "" ∨ requested = "latest" ∨ requested = "*" then savePrefix ++ version
      else requested

/-- The specs that are written for the additions that were resolved. -/
def writtenSpecs (graph : ResolutionGraph) (additions : BTreeMap String String)
    (workspace : Option Workspace) (catalog : Option CatalogConfig) (savePrefix : String) :
    BTreeMap String String :=
  graph.root.dependencies.filterMap fun name dep =>
    (additions[name]?).map fun requested =>
      manifestSpecForDependency name requested dep.resolved.version workspace catalog savePrefix

/-- An addition lands in one section and leaves the others. -/
def manifestWith (manifest : Manifest) (written : BTreeMap String String) (dev : Bool) :
    Manifest :=
  { manifest with
    dependencies := (manifest.dependencies \ written) ∪ (if dev then ∅ else written)
    devDependencies := (manifest.devDependencies \ written) ∪ (if dev then written else ∅)
    optionalDependencies := manifest.optionalDependencies \ written }

def writeManifest (world : World) (project : Project) (graph : ResolutionGraph)
    (additions : BTreeMap String String) (dev : Bool) (workspace : Option Workspace)
    (catalog : Option CatalogConfig) (savePrefix : String) : Result Project :=
  if additions.isEmpty then .ok project
  else do
    let written := writtenSpecs graph additions workspace catalog savePrefix
    let project := { project with manifest := manifestWith project.manifest written dev }
    world.writeManifest project
    .ok project

end Write

/-- The root specs that are recorded: the sections of the manifest as written. -/
def recordedRootSpecs (project : Project) (includeDev : Bool) : RootSpecSet :=
  buildProjectRootSpecs project.manifest.dependencies project.manifest.devDependencies
    project.manifest.optionalDependencies includeDev

structure InstallOutcome where
  plan : ProjectInstallPlan
  resolved : ResolvedInstall
  project : Project
  installState : Option InstallStateFile

section Install

variable (H : Digest.Hash) (S : SemverCrate) (world : World) (config : SnpmConfig)

def writeProjectInstallState (project : Project) (plan : ProjectInstallPlan)
    (graph : ResolutionGraph) (includeDev : Bool) : Result InstallStateFile := do
  let source ← captureSource world.after (plan.lockfileSourcePath world.after)
  let checks ← world.captureChecks graph
  let state ← projectInstallState H S ⟨config, plan.workspace, world.after⟩ project source
    (recordedRootSpecs project includeDev).required
    (recordedRootSpecs project includeDev).optional graph includeDev checks
  world.writeInstallState state
  .ok state

/-- A hot install whose record is current is not recorded again. -/
def recordInstall (project : Project) (plan : ProjectInstallPlan) (resolved : ResolvedInstall)
    (includeDev : Bool) : Result (Option InstallStateFile) :=
  if (resolved.scenario = .hot && resolved.hotInstallStateCurrent) ||
      !world.after.isFile (plan.lockfileSourcePath world.after) then .ok none
  else do
    let state ← writeProjectInstallState H S world config project plan resolved.graph includeDev
    .ok (some state)

def finalizeInstall (resolved : ResolvedInstall) : Result Unit :=
  if resolved.scenario = .hot then .ok () else world.finalize resolved.graph resolved.storePaths

def install (files : FileView) (project : Project) (options : InstallOptions) :
    Result InstallOutcome := do
  let plan ← prepareInstallPlan S files project options
  validateFrozenLockfile files options plan
  let resolved ← resolveInstallState H S world config files project plan options
  let project ← writeManifest world project resolved.graph plan.additions options.dev
    plan.workspace plan.catalog config.effectiveSavePrefix
  finalizeInstall world resolved
  world.runScripts
  let state ← recordInstall H S world config project plan resolved options.includeDev
  .ok ⟨plan, resolved, project, state⟩

end Install

section Spec

variable {H : Digest.Hash} {S : SemverCrate} {world : World} {config : SnpmConfig}
  {files : FileView} {project : Project} {options : InstallOptions} {plan : ProjectInstallPlan}

/-- The stages of a plan. -/
theorem prepareInstallPlan_ok (h : prepareInstallPlan S files project options = .ok plan) :
    ∃ resolvedManifest,
      files.discover project.root = .ok plan.workspace ∧
      loadCatalog files project plan.workspace = .ok plan.catalog ∧
      loadOverrides files project plan.workspace = .ok plan.overrides ∧
      resolveManifestSpecs S project plan.workspace plan.catalog = .ok resolvedManifest ∧
      buildRootSpecs S files plan.workspace resolvedManifest options.includeDev plan.overrides =
        .ok plan.rootSpecs ∧
      plan = planOf files project options.requested plan.workspace plan.catalog plan.overrides
        resolvedManifest.protocols plan.rootSpecs := by
  unfold prepareInstallPlan at h
  obtain ⟨workspace, hworkspace, h⟩ := Result.bind_eq_ok h
  obtain ⟨catalog, hcatalog, h⟩ := Result.bind_eq_ok h
  obtain ⟨overrides, hoverrides, h⟩ := Result.bind_eq_ok h
  obtain ⟨resolvedManifest, hmanifest, h⟩ := Result.bind_eq_ok h
  obtain ⟨rootSpecs, hspecs, h⟩ := Result.bind_eq_ok h
  cases h
  exact ⟨resolvedManifest, hworkspace, hcatalog, hoverrides, hmanifest, hspecs, rfl⟩

/-- The stages of an install. -/
theorem install_ok {outcome : InstallOutcome}
    (h : install H S world config files project options = .ok outcome) :
    prepareInstallPlan S files project options = .ok outcome.plan ∧
      validateFrozenLockfile files options outcome.plan = .ok () ∧
      resolveInstallState H S world config files project outcome.plan options =
        .ok outcome.resolved ∧
      writeManifest world project outcome.resolved.graph outcome.plan.additions options.dev
        outcome.plan.workspace outcome.plan.catalog config.effectiveSavePrefix =
          .ok outcome.project ∧
      recordInstall H S world config outcome.project outcome.plan outcome.resolved
        options.includeDev = .ok outcome.installState := by
  unfold install at h
  obtain ⟨plan, hplan, h⟩ := Result.bind_eq_ok h
  obtain ⟨_, hvalid, h⟩ := Result.bind_eq_ok h
  obtain ⟨resolved, hresolved, h⟩ := Result.bind_eq_ok h
  obtain ⟨after, hafter, h⟩ := Result.bind_eq_ok h
  obtain ⟨-, -, h⟩ := Result.bind_eq_ok h
  obtain ⟨-, -, h⟩ := Result.bind_eq_ok h
  obtain ⟨state, hstate, h⟩ := Result.bind_eq_ok h
  cases h
  exact ⟨hplan, hvalid, hresolved, hafter, hstate⟩

/-- What is recorded: the source and the root specs of the manifest, and the
graph that was installed. -/
theorem recordInstall_some {resolved : ResolvedInstall} {includeDev : Bool}
    {state : InstallStateFile}
    (h : recordInstall H S world config project plan resolved includeDev = .ok (some state)) :
    state.version = installStateVersion ∧
      SnapshotSource.capture world.after (plan.lockfileSourcePath world.after) =
        some state.source ∧
      state.rootSpecsHash = rootSpecsHash H (recordedRootSpecs project includeDev).required
        (recordedRootSpecs project includeDev).optional ∧
      state.graph = resolved.graph := by
  unfold recordInstall at h
  split at h
  next => cases h
  next =>
      obtain ⟨written, hwritten, h⟩ := Result.bind_eq_ok h
      cases h
      obtain ⟨source, hsource, h⟩ := Result.bind_eq_ok hwritten
      obtain ⟨checks, -, h⟩ := Result.bind_eq_ok h
      obtain ⟨written, hprojected, h⟩ := Result.bind_eq_ok h
      obtain ⟨-, -, h⟩ := Result.bind_eq_ok h
      cases h
      obtain ⟨layoutHash, -, h⟩ := Result.bind_eq_ok hprojected
      cases h
      exact ⟨rfl, capture_of_captureSource hsource, rfl, rfl⟩

theorem requireGraph_ok {graph : Option ResolutionGraph} {scenario : String}
    {found : ResolutionGraph} (h : requireGraph graph scenario = .ok found) :
    graph = some found := by
  cases graph with
  | none => cases h
  | some graph =>
      cases h
      rfl

theorem writeLockfile_ok {graph : ResolutionGraph} {lockfile : Lockfile}
    (h : writeLockfile world plan graph = .ok lockfile) :
    lockfile = Lockfile.ofGraph graph plan.rootSpecs.optional := by
  obtain ⟨_, -, h⟩ := Result.bind_eq_ok h
  cases h
  rfl

theorem resolveCold_ok {seed : Option ResolutionGraph} {loaded : LoadedGraph}
    (h : resolveCold world files plan options seed = .ok loaded) :
    world.resolve plan (plannedRootDependencies files plan options) options.force seed =
        .ok (loaded.graph, loaded.storePaths) ∧
      loaded.wroteLockfile = if options.includeDev then
        some (Lockfile.ofGraph loaded.graph plan.rootSpecs.optional) else none := by
  obtain ⟨⟨graph, storePaths⟩, hresolve, h⟩ := Result.bind_eq_ok h
  simp only at h
  split at h
  next hdev =>
      obtain ⟨lockfile, hlockfile, h⟩ := Result.bind_eq_ok h
      cases h
      rw [if_pos hdev, writeLockfile_ok hlockfile]
      exact ⟨hresolve, rfl⟩
  next hdev =>
      cases h
      rw [if_neg hdev]
      exact ⟨hresolve, rfl⟩

/-- A graph that is not resolved is the one of the scenario. -/
theorem loadGraph_ok {result : ScenarioResult} {loaded : LoadedGraph}
    (hscenario : result.scenario ≠ .cold)
    (h : loadGraph world files project plan options result = .ok loaded) :
    result.graph = some loaded.graph ∧ loaded.wroteLockfile = none := by
  unfold loadGraph at h
  split at h
  next =>
      obtain ⟨graph, hgraph, h⟩ := Result.bind_eq_ok h
      cases h
      exact ⟨requireGraph_ok hgraph, rfl⟩
  next =>
      obtain ⟨graph, hgraph, h⟩ := Result.bind_eq_ok h
      obtain ⟨_, -, h⟩ := Result.bind_eq_ok h
      cases h
      exact ⟨requireGraph_ok hgraph, rfl⟩
  next =>
      obtain ⟨graph, hgraph, h⟩ := Result.bind_eq_ok h
      obtain ⟨_, -, h⟩ := Result.bind_eq_ok h
      obtain ⟨_, -, h⟩ := Result.bind_eq_ok h
      cases h
      exact ⟨requireGraph_ok hgraph, rfl⟩
  next hcold => exact absurd hcold hscenario

/-- A foreign lockfile is taken over when there is no own one. -/
structure Imports (files : FileView) (plan : ProjectInstallPlan) (options : InstallOptions) :
    Prop where
  full : options.includeDev = true
  foreign : plan.compatibleLockfile.isSome = true
  missing : files.isFile plan.lockfilePath = false

theorem importLockfile_ok {loaded after : LoadedGraph}
    (h : importLockfile world files plan options loaded = .ok after) :
    after.graph = loaded.graph ∧ after.storePaths = loaded.storePaths ∧
      (after.wroteLockfile = loaded.wroteLockfile ∧
          ¬(loaded.wroteLockfile = none ∧ Imports files plan options) ∨
        loaded.wroteLockfile = none ∧ Imports files plan options ∧
          after.wroteLockfile =
            some (Lockfile.ofGraph loaded.graph plan.rootSpecs.optional)) := by
  unfold importLockfile at h
  split at h
  next hcond =>
      simp only [Bool.and_eq_true, Bool.not_eq_true', Option.isNone_iff_eq_none] at hcond
      obtain ⟨lockfile, hlockfile, h⟩ := Result.bind_eq_ok h
      cases h
      exact ⟨rfl, rfl, .inr ⟨hcond.1.1.2, ⟨hcond.1.1.1, hcond.1.2, hcond.2⟩,
        congrArg some (writeLockfile_ok hlockfile)⟩⟩
  next hcond =>
      cases h
      refine ⟨rfl, rfl, .inl ⟨rfl, ?_⟩⟩
      rintro ⟨hnone, himports⟩
      apply hcond
      simp [himports.full, himports.foreign, himports.missing, hnone]

/-- Where the graph of an install comes from, and what is written to the
lockfile. -/
theorem resolveInstallState_ok {resolved : ResolvedInstall}
    (h : resolveInstallState H S world config files project plan options = .ok resolved) :
    resolved.scenario = (scenarioOf H S config files project plan options).scenario ∧
      (resolved.scenario = .cold →
        (∃ storePaths, world.resolve plan (plannedRootDependencies files plan options)
          options.force ((explicitLockfileSeed files project plan options).or
            (scenarioOf H S config files project plan options).graph) =
              .ok (resolved.graph, storePaths)) ∧
          resolved.wroteLockfile = if options.includeDev then
            some (Lockfile.ofGraph resolved.graph plan.rootSpecs.optional) else none) ∧
      (resolved.scenario ≠ .cold →
        (scenarioOf H S config files project plan options).graph = some resolved.graph ∧
          (resolved.wroteLockfile = none ∧ ¬Imports files plan options ∨
            Imports files plan options ∧ resolved.wroteLockfile =
              some (Lockfile.ofGraph resolved.graph plan.rootSpecs.optional))) := by
  unfold resolveInstallState at h
  simp only at h
  generalize scenarioOf H S config files project plan options = result at h ⊢
  obtain ⟨_, -, h⟩ := Result.bind_eq_ok h
  obtain ⟨_, -, h⟩ := Result.bind_eq_ok h
  obtain ⟨_, -, h⟩ := Result.bind_eq_ok h
  obtain ⟨loaded, hloaded, h⟩ := Result.bind_eq_ok h
  obtain ⟨after, hafter, h⟩ := Result.bind_eq_ok h
  cases h
  obtain ⟨hgraph, hpaths, hwrote⟩ := importLockfile_ok hafter
  refine ⟨rfl, fun hcold => ?_, fun hwarm => ?_⟩
  · simp only at hcold ⊢
    unfold loadGraph at hloaded
    rw [hcold] at hloaded
    obtain ⟨hresolve, hlockfile⟩ := resolveCold_ok hloaded
    refine ⟨⟨loaded.storePaths, hgraph ▸ hresolve⟩, ?_⟩
    rcases hwrote with ⟨hsame, -⟩ | ⟨hnone, himports, -⟩
    · rw [hsame, hlockfile, hgraph]
    · rw [hlockfile, if_pos himports.full] at hnone
      cases hnone
  · simp only at hwarm ⊢
    obtain ⟨hfound, hnone⟩ := loadGraph_ok hwarm hloaded
    rw [hgraph]
    refine ⟨hfound, ?_⟩
    rcases hwrote with ⟨hsame, hnot⟩ | ⟨-, himports, hsome⟩
    · exact .inl ⟨hsame.trans hnone, fun himports => hnot ⟨hnone, himports⟩⟩
    · exact .inr ⟨himports, hsome⟩

/-- Work is saved by a full install without additions that looks at the
lockfile. -/
theorem scenarioOf_warm
    (h : (scenarioOf H S config files project plan options).scenario ≠ .cold) :
    options.includeDev = true ∧ plan.additions.isEmpty = true ∧ options.frozenLockfile ≠ .no ∧
      options.frozenLockfile ≠ .fix ∧
      scenarioOf H S config files project plan options =
        detectInstallScenario H S ⟨config, plan.workspace, files⟩ project plan.lockfilePath
          plan.manifestRoot plan.rootSpecs.optional options.frozenLockfile options.force
          plan.compatibleLockfile := by
  unfold scenarioOf at h ⊢
  split at h
  next hcond =>
      rw [if_pos hcond]
      simp only [Bool.and_eq_true, Bool.not_eq_true', Bool.or_eq_false_iff,
        decide_eq_false_iff_not] at hcond
      exact ⟨hcond.1.1, hcond.1.2, hcond.2.1, hcond.2.2, rfl⟩
  next => exact absurd rfl h

theorem recordInstall_isFile {resolved : ResolvedInstall} {includeDev : Bool}
    {state : InstallStateFile}
    (h : recordInstall H S world config project plan resolved includeDev = .ok (some state)) :
    world.after.isFile (plan.lockfileSourcePath world.after) = true := by
  unfold recordInstall at h
  split at h
  next => cases h
  next hcond =>
      rw [Bool.or_eq_true, not_or] at hcond
      simpa using hcond.2

end Spec

/-- A world in which resolving gives the graph and every write succeeds. -/
def quietWorld (graph : ResolutionGraph) (after : FileView) : World where
  createClient := .ok ()
  checkAges _ := .ok ()
  resolve _ _ _ _ := .ok (graph, ∅)
  download _ := .ok ∅
  writeLockfile _ _ := .ok ()
  writeManifest _ := .ok ()
  finalize _ _ := .ok ()
  runScripts := .ok ()
  captureChecks _ := .ok []
  writeInstallState _ := .ok ()
  after := after

section Quiet

variable {H : Digest.Hash} {S : SemverCrate} {config : SnpmConfig} {files after : FileView}
  {project : Project} {options : InstallOptions} {plan : ProjectInstallPlan}
  {graph : ResolutionGraph}

/-- A cold install in a quiet world: the graph is installed, and a full install
writes the lockfile. -/
theorem resolveInstallState_quiet (hage : config.minPackageAgeDays = none)
    (hcold : scenarioOf H S config files project plan options = ScenarioResult.cold) :
    resolveInstallState H S (quietWorld graph after) config files project plan options =
      .ok ⟨.cold, graph, ∅, none,
        if options.includeDev then some (Lockfile.ofGraph graph plan.rootSpecs.optional) else none,
        false⟩ := by
  unfold resolveInstallState
  cases hdev : options.includeDev with
  | true =>
      simp [hcold, ScenarioResult.cold, registryClient, validateAges, hage, loadGraph, resolveCold,
        writeLockfile, importLockfile, quietWorld, hdev, bind, Except.bind]
  | false =>
      simp [hcold, ScenarioResult.cold, registryClient, validateAges, hage, loadGraph, resolveCold,
        importLockfile, quietWorld, hdev, bind, Except.bind]

theorem recordInstall_quiet {resolved : ResolvedInstall} {source : SnapshotSource}
    {layoutHash : String} {includeDev : Bool} (hscenario : resolved.scenario = .cold)
    (hfile : after.isFile plan.lockfilePath = true)
    (hsource : SnapshotSource.capture after plan.lockfilePath = some source)
    (hlayout : buildProjectLayoutHash H S ⟨config, plan.workspace, after⟩ project resolved.graph
      includeDev = .ok layoutHash) :
    recordInstall H S (quietWorld graph after) config project plan resolved includeDev =
      .ok (some ⟨installStateVersion, source,
        rootSpecsHash H (recordedRootSpecs project includeDev).required
          (recordedRootSpecs project includeDev).optional, resolved.graph, ⟨layoutHash, []⟩⟩) := by
  have hpath : plan.lockfileSourcePath after = plan.lockfilePath := by
    rw [ProjectInstallPlan.lockfileSourcePath, lockfileSourcePath_of_isFile hfile]
    rfl
  simp [recordInstall, hscenario, quietWorld, hpath, hfile, writeProjectInstallState,
    captureSource, hsource, projectInstallState, hlayout, bind, Except.bind]

/-- A cold install without additions in a quiet world. -/
theorem install_quiet {source : SnapshotSource} {layoutHash : String}
    (hplan : prepareInstallPlan S files project options = .ok plan)
    (hvalid : validateFrozenLockfile files options plan = .ok ())
    (hadditions : plan.additions.isEmpty = true) (hage : config.minPackageAgeDays = none)
    (hcold : scenarioOf H S config files project plan options = ScenarioResult.cold)
    (hfile : after.isFile plan.lockfilePath = true)
    (hsource : SnapshotSource.capture after plan.lockfilePath = some source)
    (hlayout : buildProjectLayoutHash H S ⟨config, plan.workspace, after⟩ project graph
      options.includeDev = .ok layoutHash) :
    install H S (quietWorld graph after) config files project options =
      .ok ⟨plan, ⟨.cold, graph, ∅, none,
          if options.includeDev then some (Lockfile.ofGraph graph plan.rootSpecs.optional) else none,
          false⟩, project,
        some ⟨installStateVersion, source,
          rootSpecsHash H (recordedRootSpecs project options.includeDev).required
            (recordedRootSpecs project options.includeDev).optional, graph, ⟨layoutHash, []⟩⟩⟩ := by
  have hresolved : resolveInstallState H S (quietWorld graph after) config files project plan
      options = .ok ⟨.cold, graph, ∅, none,
        if options.includeDev then some (Lockfile.ofGraph graph plan.rootSpecs.optional) else none,
        false⟩ :=
    resolveInstallState_quiet hage hcold
  have hproject : writeManifest (quietWorld graph after) project graph plan.additions options.dev
      plan.workspace plan.catalog config.effectiveSavePrefix = .ok project :=
    if_pos hadditions
  unfold install
  refine Result.bind_eq_ok_iff.mpr ⟨plan, hplan, ?_⟩
  refine Result.bind_eq_ok_iff.mpr ⟨(), hvalid, ?_⟩
  refine Result.bind_eq_ok_iff.mpr ⟨_, hresolved, ?_⟩
  refine Result.bind_eq_ok_iff.mpr ⟨project, hproject, ?_⟩
  refine Result.bind_eq_ok_iff.mpr ⟨(), rfl, ?_⟩
  refine Result.bind_eq_ok_iff.mpr ⟨(), rfl, ?_⟩
  exact Result.bind_eq_ok_iff.mpr ⟨_, recordInstall_quiet rfl hfile hsource hlayout, rfl⟩

end Quiet

end ProjectInstall
end Snpm.Install
