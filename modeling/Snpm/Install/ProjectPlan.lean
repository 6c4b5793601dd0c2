import Mathlib
import Snpm.Install.WorkspacePlan

/-!
Planning the install of one project: the packages asked for on the command
line, the root specs of the manifest, and the refusal of a frozen install whose
lockfile no longer matches them.
-/
namespace Snpm.Install

structure ParsedSpec where
  name : String
  range : String
  protocol : Option String
deriving DecidableEq

/-- The parts around the first hit of the marker; the range keeps its scheme. -/
def splitAliasAt (spec marker : String) : Option (String × String) :=
  match Text.splitSeq spec marker with
  | name :: _ :: _ =>
      if name = "" then none
      else some (name, String.ofList (spec.toList.drop (name.toList.length + 1)))
  | _ => none

def splitAliasSpec (spec : String) : Option (String × String) :=
  (splitAliasAt spec "@npm:").or (splitAliasAt spec "@jsr:")

def splitProtocolPrefix (spec : String) : Option String × String :=
  match Text.splitOnce spec (· = ':') with
  | none => (none, spec)
  | some (scheme, rest) => if scheme = "" then (none, spec) else (some scheme, rest)

def splitPackageSpec (spec : String) : String × String :=
  match Text.stripPrefix spec "@" with
  | some withoutAt =>
      match Text.rsplitOnce withoutAt (· = '@') with
      | some (scopeAndName, range) => ("@" ++ scopeAndName, range)
      | none => (spec, "latest")
  | none => (Text.rsplitOnce spec (· = '@')).getD (spec, "latest")

/-- An alias keeps its name, and the whole target is its range. -/
def parseRequestedSpec (spec : String) : ParsedSpec :=
  match splitAliasSpec spec with
  | some (name, range) => ⟨name, range, none⟩
  | none =>
      let (protocol, rest) := splitProtocolPrefix spec
      let (name, range) := splitPackageSpec rest
      ⟨name, range, protocol⟩

example : parseRequestedSpec "my-alias@npm:lodash@^4.0.0" =
    ⟨"my-alias", "npm:lodash@^4.0.0", none⟩ := by decide
example : parseRequestedSpec "npm:@scope/pkg@^1.0.0" = ⟨"@scope/pkg", "^1.0.0", some "npm"⟩ := by
  decide

def requestedProtocol (protocol : String) : RegistryProtocol :=
  if protocol = "npm" then .npm
  else if protocol = "git" then .git
  else if protocol = "jsr" then .jsr
  else if Text.startsWith protocol "git+" then .git
  else .custom protocol

def parseRequestedWithProtocol (specs : List String) :
    BTreeMap String String × BTreeMap String RegistryProtocol :=
  let parsed := specs.map parseRequestedSpec
  (BTreeMap.collect (parsed.map fun spec => (spec.name, spec.range)),
    BTreeMap.collect (parsed.filterMap fun spec =>
      spec.protocol.map fun protocol => (spec.name, requestedProtocol protocol)))

structure InstallOptions where
  requested : List String
  dev : Bool
  includeDev : Bool
  frozenLockfile : FrozenLockfileMode
  strictNoLockfile : Bool
  force : Bool

namespace ProjectInstall

/-- A package that is asked for is an addition, listed in the manifest or not. -/
def collectAdditions (requested : List String) :
    BTreeMap String String × BTreeMap String RegistryProtocol :=
  let (ranges, protocols) := parseRequestedWithProtocol requested
  (ranges, ranges.filterMap fun name _ => protocols[name]?)

structure ResolvedManifestSpecs where
  dependencies : BTreeMap String String
  developmentDependencies : BTreeMap String String
  optionalDependencies : BTreeMap String String
  protocols : BTreeMap String RegistryProtocol

structure ProjectInstallPlan where
  workspace : Option Workspace
  catalog : Option CatalogConfig
  overrides : BTreeMap String String
  additions : BTreeMap String String
  manifestRoot : BTreeMap String String
  rootSpecs : RootSpecSet
  rootDependencies : BTreeMap String String
  rootProtocols : BTreeMap String RegistryProtocol
  optionalRootNames : BTreeSet String
  lockfilePath : PathBuf
  compatibleLockfile : Option CompatibleLockfile

section Manifest

variable (S : SemverCrate)

def resolveManifestSpecs (project : Project) (workspace : Option Workspace)
    (catalog : Option CatalogConfig) : Result ResolvedManifestSpecs := do
  let dependencies ← applySpecs S workspace catalog project.manifest.dependencies
  let development ← applySpecs S workspace catalog project.manifest.devDependencies
  let optional ← applySpecs S workspace catalog project.manifest.optionalDependencies
  .ok ⟨dependencies, development, optional,
    manifestProtocols dependencies ∪ manifestProtocols development ∪ manifestProtocols optional⟩

/-- Inside a workspace the roots are those of all its members. -/
def buildRootSpecs (files : FileView) (workspace : Option Workspace)
    (resolvedManifest : ResolvedManifestSpecs) (includeDev : Bool)
    (overrides : BTreeMap String String) : Result RootSpecSet :=
  match workspace with
  | some workspace =>
      collectWorkspaceRootSpecsWithOverrides S files workspace includeDev overrides
  | none => .ok (buildProjectRootSpecs resolvedManifest.dependencies
      resolvedManifest.developmentDependencies resolvedManifest.optionalDependencies includeDev)

end Manifest

def mergeRootDependencies (manifestRoot optionalRoot additions : BTreeMap String String) :
    BTreeMap String String :=
  manifestRoot ∪ optionalRoot ∪ additions

def buildRootProtocols (manifestRoot optionalRoot : BTreeMap String String)
    (manifestProtocols : BTreeMap String RegistryProtocol) (additions : BTreeMap String String)
    (requestedProtocols : BTreeMap String RegistryProtocol) : BTreeMap String RegistryProtocol :=
  ((manifestRoot ∪ optionalRoot).map fun name _ => (manifestProtocols[name]?).getD .npm) ∪
    additions.map fun name _ => (requestedProtocols[name]?).getD .npm

section Prepare

variable (S : SemverCrate) (files : FileView) (project : Project)

/-- A workspace brings its own catalogs. -/
def loadCatalog (workspace : Option Workspace) : Result (Option CatalogConfig) :=
  match workspace with
  | some _ => .ok none
  | none => files.catalogConfig project.root

def loadOverrides (workspace : Option Workspace) : Result (BTreeMap String String) := do
  let root := (workspace.map (·.root)).getD project.root
  let overrides := (← files.overridesConfig root).getD ∅
  mergeManifestOverrides project overrides

def projectLockfilePath (workspace : Option Workspace) : PathBuf :=
  PathBuf.join ((workspace.map (·.root)).getD project.root) "snpm-lock.yaml"

def planOf (requested : List String) (workspace : Option Workspace)
    (catalog : Option CatalogConfig) (overrides : BTreeMap String String)
    (protocols : BTreeMap String RegistryProtocol) (rootSpecs : RootSpecSet) :
    ProjectInstallPlan :=
  let (additions, requestedProtocols) := collectAdditions requested
  let lockfilePath := projectLockfilePath project workspace
  { workspace := workspace
    catalog := catalog
    overrides := overrides
    additions := additions
    manifestRoot := rootSpecs.required
    rootSpecs := rootSpecs
    rootDependencies := mergeRootDependencies rootSpecs.required rootSpecs.optional additions
    rootProtocols := buildRootProtocols rootSpecs.required rootSpecs.optional protocols additions
      requestedProtocols
    optionalRootNames := .ofList rootSpecs.optional.keys compare
    lockfilePath := lockfilePath
    compatibleLockfile :=
      if workspace.isNone && !files.isFile lockfilePath then files.detectCompatible project.root
      else none }

@[simp] theorem planOf_lockfilePath {requested : List String} {workspace : Option Workspace}
    {catalog : Option CatalogConfig} {overrides : BTreeMap String String}
    {protocols : BTreeMap String RegistryProtocol} {rootSpecs : RootSpecSet} :
    (planOf files project requested workspace catalog overrides protocols rootSpecs).lockfilePath =
      projectLockfilePath project workspace := rfl

def prepareInstallPlan (options : InstallOptions) : Result ProjectInstallPlan := do
  let workspace ← files.discover project.root
  let catalog ← loadCatalog files project workspace
  let overrides ← loadOverrides files project workspace
  let resolvedManifest ← resolveManifestSpecs S project workspace catalog
  let rootSpecs ← buildRootSpecs S files workspace resolvedManifest options.includeDev overrides
  .ok (planOf files project options.requested workspace catalog overrides
    resolvedManifest.protocols rootSpecs)

end Prepare

def ProjectInstallPlan.lockfileSourcePath (files : FileView) (plan : ProjectInstallPlan) :
    PathBuf :=
  (Install.lockfileSourcePath files plan.lockfilePath plan.compatibleLockfile).getD
    plan.lockfilePath

def validateFrozenLockfile (files : FileView) (options : InstallOptions)
    (plan : ProjectInstallPlan) : Result Unit :=
  if options.frozenLockfile ≠ .frozen then .ok ()
  else if !options.strictNoLockfile && !files.isFile plan.lockfilePath &&
      plan.compatibleLockfile.isNone then .ok ()
  else if !plan.additions.isEmpty then
    .error (.lockfile plan.lockfilePath "cannot add package when using frozen-lockfile")
  else
    match readExistingLockfile files plan.lockfilePath plan.compatibleLockfile
      "frozen-lockfile requested but no lockfile was found" with
    | .error error => .error error
    | .ok existing =>
        if existing.rootSpecsMatch plan.manifestRoot plan.rootSpecs.optional then .ok ()
        else .error (.lockfile plan.lockfilePath
          "manifest dependencies do not match the existing lockfile when using frozen-lockfile")

end ProjectInstall

end Snpm.Install
