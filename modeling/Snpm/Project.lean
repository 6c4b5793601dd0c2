import Mathlib
import Snpm.Error
import Snpm.Library.OrderedMap
import Snpm.Library.Text

/-!
Manifests, projects, workspaces and the global configuration, with the fields
that installation and linking read.
-/
namespace Snpm

structure ManifestPnpm where
  overrides : BTreeMap String String
  patchedDependencies : Option (BTreeMap String String)

structure ManifestSnpm where
  overrides : BTreeMap String String
  patchedDependencies : Option (BTreeMap String String)

/-- A value of the npm `overrides` object: only the flat form carries a range. -/
inductive OverrideValue where
  | range (text : String)
  | nested
deriving DecidableEq

structure Manifest where
  name : Option String
  version : Option String
  dependencies : BTreeMap String String
  devDependencies : BTreeMap String String
  optionalDependencies : BTreeMap String String
  resolutions : BTreeMap String String
  overrides : BTreeMap String OverrideValue
  pnpm : Option ManifestPnpm
  snpm : Option ManifestSnpm

def Manifest.empty : Manifest :=
  ⟨none, none, ∅, ∅, ∅, ∅, ∅, none, none⟩

structure Project where
  root : PathBuf
  manifestPath : PathBuf
  manifest : Manifest

structure WorkspaceConfig where
  catalog : BTreeMap String String
  catalogs : BTreeMap String (BTreeMap String String)
  onlyBuiltDependencies : List String
  ignoredBuiltDependencies : List String
  disableGlobalVirtualStoreForPackages : Option (List String)
  hoisting : Option String

/-- A catalog file beside a project that is in no workspace. -/
structure CatalogConfig where
  catalog : BTreeMap String String
  catalogs : BTreeMap String (BTreeMap String String)

structure Workspace where
  root : PathBuf
  projects : List Project
  config : WorkspaceConfig

inductive HoistingMode where
  | none
  | singleVersion
  | all
deriving DecidableEq

def HoistingMode.parse (value : String) : Option HoistingMode :=
  let value := String.ofList (value.toList.map Text.toAsciiLower)
  if value ∈ ["none", "off", "false", "disabled"] then some .none
  else if value ∈ ["single", "single-version", "safe"] then some .singleVersion
  else if value ∈ ["root", "all", "true", "on", "enabled"] then some .all
  else Option.none

structure SnpmConfig where
  hoisting : HoistingMode
  allowScripts : BTreeSet String
  disableGlobalVirtualStoreForPackages : BTreeSet String
  dataDir : PathBuf
  minPackageAgeDays : Option Nat
  saveExact : Bool
  savePrefix : String

def SnpmConfig.packagesDir (config : SnpmConfig) : PathBuf :=
  config.dataDir.join "packages"

def SnpmConfig.effectiveSavePrefix (config : SnpmConfig) : String :=
  if config.saveExact then "" else config.savePrefix

end Snpm
