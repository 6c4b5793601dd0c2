import Mathlib
import Snpm.Install.Integrity
import Snpm.Install.InstallState

/-!
How much work an install has to do. The scenario is decided from the lockfile,
or from the graph a former install recorded for it, by comparing the integrity
record, the layout and the package store with what the graph asks for.
-/
namespace Snpm.Install

inductive InstallScenario where
  | hot
  | warmLinkOnly
  | warmPartialCache
  | cold
deriving DecidableEq

inductive FrozenLockfileMode where
  | frozen
  | prefer
  | no
  | fix
deriving DecidableEq

structure CacheCheckResult where
  cached : BTreeMap PackageId PathBuf
  missing : List ResolvedPackage

structure ScenarioResult where
  scenario : InstallScenario
  cacheCheck : Option CacheCheckResult
  graph : Option ResolutionGraph
  integrityState : Option IntegrityState
  hotInstallStateCurrent : Bool

def ScenarioResult.cold : ScenarioResult := ⟨.cold, none, none, none, false⟩

def cachedRootReady (files : FileView) (root : PathBuf) : Bool :=
  files.isDir root && (files.isFile (root.join ".snpm-package-metadata.json") ||
    files.isFile (root.join "package.json"))

/-- The stored root of a package, or nothing when the store lacks it. -/
def cacheLookup (config : SnpmConfig) (files : FileView) (id : PackageId) : Option PathBuf :=
  let directory := (config.packagesDir.join (Text.replaceChar id.name '/' '_')).join id.version
  if files.isFile (directory.join ".snpm_complete") then
    match files.indexedRoot id with
    | some root =>
        if cachedRootReady files root then some root else some (files.packageRootDir directory)
    | none => some (files.packageRootDir directory)
  else none

def checkStoreCache (config : SnpmConfig) (files : FileView) (graph : ResolutionGraph) :
    CacheCheckResult where
  cached := BTreeMap.collect (graph.packages.values.filterMap fun package =>
    (cacheLookup config files package.id).map fun root => (package.id, root))
  missing := graph.packages.values.filter fun package =>
    (cacheLookup config files package.id).isNone

variable (H : Digest.Hash) (S : SemverCrate)

/-- The scenario of a graph whose integrity state could be computed. -/
def classify (input : LayoutInput) (graph : ResolutionGraph) (integrityState : IntegrityState)
    (hot current : Bool) : ScenarioResult :=
  if hot then ⟨.hot, none, some graph, some integrityState, current⟩
  else
    let cacheCheck := checkStoreCache input.config input.files graph
    if cacheCheck.missing.any (·.tarball = "") then ScenarioResult.cold
    else if cacheCheck.missing = [] then
      ⟨.warmLinkOnly, some cacheCheck, some graph, some integrityState, false⟩
    else ⟨.warmPartialCache, some cacheCheck, some graph, some integrityState, false⟩

def detectFromGraph (input : LayoutInput) (project : Project) (graph : ResolutionGraph)
    (force : Bool) (cachedLayoutValid : Option Bool) : ScenarioResult :=
  match buildProjectIntegrityState H input.files project graph with
  | .error _ => ScenarioResult.cold
  | .ok integrityState =>
      let layoutValid :=
        cachedLayoutValid.getD (checkProjectLayoutState H S input project graph true)
      classify input graph integrityState
        (!force && checkIntegrityPath input.files project.root integrityState && layoutValid)
        cachedLayoutValid.isSome

/-- The file the graph is read from: the own lockfile, else a foreign one. -/
def lockfileSourcePath (files : FileView) (lockfilePath : PathBuf)
    (compatibleLockfile : Option CompatibleLockfile) : Option PathBuf :=
  if files.isFile lockfilePath then some lockfilePath else compatibleLockfile.map (·.path)

def readExistingLockfile (files : FileView) (lockfilePath : PathBuf)
    (compatibleLockfile : Option CompatibleLockfile) (missing : String) : Result Lockfile :=
  if files.isFile lockfilePath then files.lockfile lockfilePath
  else
    match compatibleLockfile with
    | some source => files.compatible source
    | none => .error (.lockfile lockfilePath missing)

theorem lockfileSourcePath_of_isFile {files : FileView} {path : PathBuf}
    {compatible : Option CompatibleLockfile} (hfile : files.isFile path = true) :
    lockfileSourcePath files path compatible = some path := by
  rw [lockfileSourcePath, if_pos hfile]

theorem readExistingLockfile_of_isFile {files : FileView} {path : PathBuf}
    {compatible : Option CompatibleLockfile} {missing : String}
    (hfile : files.isFile path = true) :
    readExistingLockfile files path compatible missing = files.lockfile path := by
  unfold readExistingLockfile
  rw [if_pos hfile]

def coldWithGraph (graph : ResolutionGraph) : ScenarioResult :=
  ⟨.cold, none, some graph, none, false⟩

/-- The lockfile itself is parsed only when no former install recorded its graph. -/
def detectFromLockfile (input : LayoutInput) (project : Project) (lockfilePath : PathBuf)
    (requiredRoot optionalRoot : BTreeMap String String) (force : Bool)
    (compatibleLockfile : Option CompatibleLockfile) : ScenarioResult :=
  match readExistingLockfile input.files lockfilePath compatibleLockfile "no lockfile was found" with
  | .error _ => ScenarioResult.cold
  | .ok existing =>
      if existing.rootSpecsMatch requiredRoot optionalRoot then
        detectFromGraph H S input project existing.toGraph force none
      else coldWithGraph existing.toGraph

def detectFromRecords (input : LayoutInput) (project : Project) (lockfilePath sourcePath : PathBuf)
    (requiredRoot optionalRoot : BTreeMap String String) (force : Bool)
    (compatibleLockfile : Option CompatibleLockfile) : ScenarioResult :=
  match loadProjectInstallState H S input project sourcePath requiredRoot optionalRoot true with
  | some state =>
      if state.rootSpecsMatches then
        detectFromGraph H S input project state.graph force (some state.layoutValid)
      else coldWithGraph state.graph
  | none =>
      match loadGraphSnapshot input.files project.root sourcePath with
      | some snapshot =>
          if snapshot.matchesRootSpecs H requiredRoot optionalRoot then
            detectFromGraph H S input project snapshot.graph force none
          else coldWithGraph snapshot.graph
      | none => detectFromLockfile H S input project lockfilePath requiredRoot optionalRoot force
          compatibleLockfile

def detectInstallScenario (input : LayoutInput) (project : Project) (lockfilePath : PathBuf)
    (requiredRoot optionalRoot : BTreeMap String String) (frozenLockfile : FrozenLockfileMode)
    (force : Bool) (compatibleLockfile : Option CompatibleLockfile) : ScenarioResult :=
  if frozenLockfile = .no then ScenarioResult.cold
  else
    match lockfileSourcePath input.files lockfilePath compatibleLockfile with
    | none => ScenarioResult.cold
    | some sourcePath => detectFromRecords H S input project lockfilePath sourcePath requiredRoot
        optionalRoot force compatibleLockfile

end Snpm.Install
