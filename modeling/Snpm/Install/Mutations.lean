import Mathlib
import Snpm.Install.ProjectInstall
import Snpm.Install.UpdateEntry
import Snpm.Resolve.Registry

/-!
The operations that change the manifest of a project and install it anew. What is
on disk under the manifest's path is told after each, whether it succeeds or not.
-/
namespace Snpm.Install

variable {T : Type}

section World

/-- The printer and the parser of JSON texts. -/
structure JsonFormat (T : Type) where
  print : Json → T
  parse : T → Option Json
  parse_print : ∀ value, parse (print value) = some value

/-- A write that fails leaves something behind, such as an empty file. -/
inductive WriteOutcome (T : Type) where
  | written
  | failed (error : SnpmError) (left : T)

structure OutdatedEntry where
  name : String
  current : Option String
  wanted : String
  latest : Option String
deriving DecidableEq

/-- What the operations get from outside; `files` is the disk as the installer finds
it with a text under the manifest's path. -/
structure MutationWorld (T : Type) where
  format : JsonFormat T
  write : T → WriteOutcome T
  outdated : Bool → Bool → Result (List OutdatedEntry)
  createClient : Result Unit
  fetchPackage : String → Result RegistryPackage
  ageOf : String → Option Int
  files : T → FileView
  install : ProjectInstall.World

/-- A project as it was read from its manifest file. -/
structure LoadedProject (format : JsonFormat T) where
  root : PathBuf
  manifestPath : PathBuf
  manifest : PackageJson.Manifest
  text : T
  loaded : (format.parse text).bind PackageJson.readManifest = some manifest

end World

section View

def overrideValue : Json → OverrideValue
  | .string text => .range text
  | _ => .nested

/-- The fields that installation reads. -/
def installManifest (manifest : PackageJson.Manifest) : Manifest where
  name := manifest.name
  version := manifest.version
  dependencies := manifest.dependencies
  devDependencies := manifest.devDependencies
  optionalDependencies := manifest.optionalDependencies
  resolutions := manifest.resolutions
  overrides := manifest.overrides.map fun _ value => overrideValue value
  pnpm := manifest.pnpm.map fun pnpm => ⟨pnpm.overrides, pnpm.patchedDependencies⟩
  snpm := manifest.snpm.map fun snpm => ⟨snpm.overrides, snpm.patchedDependencies⟩

end View

section Operations

variable (H : Digest.Hash) (S : SemverCrate) (config : SnpmConfig) (world : MutationWorld T)
  (project : LoadedProject world.format)

/-- The result of an operation, and what is under the manifest's path afterwards. -/
abbrev Outcome (T : Type) := Result Unit × T

def reinstall (manifest : PackageJson.Manifest) (text : T) (includeDev : Bool)
    (frozenLockfile : FrozenLockfileMode) (strictNoLockfile force : Bool) : Result Unit :=
  (ProjectInstall.install H S world.install config (world.files text)
    ⟨project.root, project.manifestPath, installManifest manifest⟩
    ⟨[], false, includeDev, frozenLockfile, strictNoLockfile, force⟩).map fun _ => ()

def manifestText (manifest : PackageJson.Manifest) : T :=
  world.format.print (PackageJson.formatManifest manifest)

/-- `write_manifest` and then `reinstall`. -/
def rewriteAndReinstall (manifest : PackageJson.Manifest) (includeDev : Bool)
    (frozenLockfile : FrozenLockfileMode) (strictNoLockfile force : Bool) : Outcome T :=
  let text := manifestText world manifest
  match world.write text with
  | .failed error left => (.error error, left)
  | .written =>
    (reinstall H S config world project manifest text includeDev frozenLockfile strictNoLockfile
      force, text)

def parseSpec (spec : String) : String × String := splitPackageSpec spec

def removeDependency (manifest : PackageJson.Manifest) (name : String) : PackageJson.Manifest :=
  { manifest with
    dependencies := manifest.dependencies.erase name
    devDependencies := manifest.devDependencies.erase name
    optionalDependencies := manifest.optionalDependencies.erase name }

def remove (specs : List String) (frozenLockfile : FrozenLockfileMode) (strictNoLockfile : Bool) :
    Outcome T :=
  if specs.isEmpty then (.ok (), project.text)
  else if frozenLockfile = .frozen then
    (.error (.internal "cannot remove packages when using frozen-lockfile"), project.text)
  else
    let manifest := specs.foldl (fun manifest spec => removeDependency manifest (parseSpec spec).1)
      project.manifest
    rewriteAndReinstall H S config world project manifest true frozenLockfile strictNoLockfile false

def frozenUpgrade : SnpmError := .internal "cannot upgrade packages when using frozen-lockfile"

def collectUpgradableNames (manifest : PackageJson.Manifest) (includeDev : Bool) : List String :=
  let names := manifest.dependencies.keys ++ manifest.optionalDependencies.keys ++
    if includeDev then manifest.devDependencies.keys else []
  (Std.ExtTreeSet.ofList names compare).toList

def currentSpec (manifest : PackageJson.Manifest) (name : String) : Option String :=
  (manifest.dependencies[name]?).or
    ((manifest.devDependencies[name]?).or manifest.optionalDependencies[name]?)

def isRegistryUnresolvableSpec (spec : String) : Bool :=
  isSpecialProtocolSpec spec || Text.startsWith spec "file:"

/-- One round of the loop over the names: a name that cannot be looked up is skipped. -/
def updateToLatest (production force : Bool) (state : PackageJson.Manifest × Bool) (name : String) :
    PackageJson.Manifest × Bool :=
  if (currentSpec state.1 name).all isRegistryUnresolvableSpec then state
  else
    match world.fetchPackage name with
    | .error _ => state
    | .ok package =>
      match selectVersion S world.ageOf name "latest" package config.minPackageAgeDays force with
      | .error _ => state
      | .ok info =>
        let (manifest, updated) := updateManifestEntry state.1 name info.version production
        (manifest, state.2 || updated)

def upgradeToLatest (packages : List String) (frozenLockfile : FrozenLockfileMode)
    (strictNoLockfile production force : Bool) : Outcome T :=
  if frozenLockfile = .frozen then (.error frozenUpgrade, project.text)
  else
    let includeDev := !production
    let targetNames :=
      if packages.isEmpty then collectUpgradableNames project.manifest includeDev
      else packages.map fun spec => (parseSpec spec).1
    match world.createClient with
    | .error error => (.error error, project.text)
    | .ok _ =>
      let (manifest, changed) := targetNames.foldl (updateToLatest S config world production force)
        (project.manifest, false)
      if changed then
        rewriteAndReinstall H S config world project manifest includeDev frozenLockfile
          strictNoLockfile force
      else
        (reinstall H S config world project project.manifest project.text includeDev frozenLockfile
          strictNoLockfile force, project.text)

def wantedVersions (entries : List OutdatedEntry) : BTreeMap String String :=
  BTreeMap.collect (entries.map fun entry => (entry.name, entry.wanted))

def updateToWanted (wanted : BTreeMap String String) (production : Bool)
    (state : PackageJson.Manifest × Bool) (spec : String) : PackageJson.Manifest × Bool :=
  match wanted[(parseSpec spec).1]? with
  | none => state
  | some version =>
    let (manifest, updated) := updateManifestEntry state.1 (parseSpec spec).1 version production
    (manifest, state.2 || updated)

def upgrade (packages : List String) (frozenLockfile : FrozenLockfileMode)
    (strictNoLockfile production force latest : Bool) : Outcome T :=
  let includeDev := !production
  if latest then
    upgradeToLatest H S config world project packages frozenLockfile strictNoLockfile production
      force
  else if packages.isEmpty then
    (reinstall H S config world project project.manifest project.text includeDev frozenLockfile
      strictNoLockfile force, project.text)
  else if frozenLockfile = .frozen then (.error frozenUpgrade, project.text)
  else
    match world.outdated includeDev force with
    | .error error => (.error error, project.text)
    | .ok entries =>
      let entries := entries.filter fun entry => entry.current ≠ some entry.wanted
      if entries.isEmpty then (.ok (), project.text)
      else
        let (manifest, changed) := packages.foldl (updateToWanted (wantedVersions entries) production)
          (project.manifest, false)
        if changed then
          rewriteAndReinstall H S config world project manifest includeDev frozenLockfile
            strictNoLockfile force
        else (.ok (), project.text)

end Operations

/-- The installer itself writes no manifest when nothing is asked for. -/
theorem reinstall_writes_no_manifest (H : Digest.Hash) (S : SemverCrate) (config : SnpmConfig)
    (world : MutationWorld T) (project : LoadedProject world.format)
    (manifest : PackageJson.Manifest) (text : T) (includeDev : Bool)
    (frozenLockfile : FrozenLockfileMode) (strictNoLockfile force : Bool)
    (other : Project → Result Unit) :
    reinstall H S config { world with install := { world.install with writeManifest := other } }
        project manifest text includeDev frozenLockfile strictNoLockfile force =
      reinstall H S config world project manifest text includeDev frozenLockfile strictNoLockfile
        force := by
  unfold reinstall ProjectInstall.install
  simp only
  generalize hplan : ProjectInstall.prepareInstallPlan S (world.files text) _ _ = planned
  cases planned with
  | error e => rfl
  | ok plan =>
      obtain ⟨resolvedManifest, -, -, -, -, -, heq⟩ := ProjectInstall.prepareInstallPlan_ok hplan
      have hadditions : plan.additions.isEmpty = true := by
        rw [heq]
        rfl
      have hok : ∀ {β : Type} (next : ProjectInstall.ProjectInstallPlan → Result β),
          (Except.ok plan : Result ProjectInstall.ProjectInstallPlan) >>= next = next plan := fun _ => rfl
      simp only [hok, ProjectInstall.writeManifest, hadditions, if_true]
      rfl

end Snpm.Install
