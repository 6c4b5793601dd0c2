import Mathlib
import Snpm.Install.WorkspaceSpec
import Snpm.Resolve.Query

/-!
From manifest sections to root specs: catalog references are resolved, local
workspace projects are left out, and the sections are merged into required and
optional roots.
-/
namespace Snpm.Install

open Resolve (looksLikeHostedGitUrl looksLikeHostedGitShorthand splitProtocolSpec)

structure RootSpecSet where
  required : BTreeMap String String
  optional : BTreeMap String String
deriving DecidableEq

def isGitSpec (spec : String) : Bool :=
  ["git:", "git+", "github:", "gitlab:", "bitbucket:"].any (Text.startsWith spec) ||
    looksLikeHostedGitUrl spec || looksLikeHostedGitShorthand spec

def detectManifestProtocol (spec : String) : Option RegistryProtocol :=
  if Text.startsWith spec "npm:" then some .npm
  else if ["file:", "link:", "portal:"].any (Text.startsWith spec) then some .file
  else if Text.startsWith spec "patch:" then (splitProtocolSpec spec).map (·.protocol)
  else if Text.startsWith spec "jsr:" then some .jsr
  else if isGitSpec spec then some .git
  else none

structure CatalogSource where
  defaultCatalog : BTreeMap String String
  namedCatalogs : BTreeMap String (BTreeMap String String)
  rootPath : PathBuf

def catalogSource (workspace : Option Workspace) (catalog : Option CatalogConfig) :
    Result CatalogSource :=
  match workspace, catalog with
  | some workspace, _ =>
      .ok ⟨workspace.config.catalog, workspace.config.catalogs, workspace.root⟩
  | none, some catalog => .ok ⟨catalog.catalog, catalog.catalogs, "."⟩
  | none, none => .error (.workspaceConfig "."
      "catalog protocol used but no workspace or catalog configuration found")

/-- The range a `catalog:` reference stands for. -/
def resolveCatalogSpec (name value : String) (workspace : Option Workspace)
    (catalog : Option CatalogConfig) : Result String := do
  let selector := (Text.stripPrefix value "catalog:").getD value
  let source ← catalogSource workspace catalog
  let range :=
    if selector = "" ∨ selector = "default" then source.defaultCatalog[name]?
    else (source.namedCatalogs[selector]?).bind (·[name]?)
  match range with
  | some range => .ok range
  | none => .error (.workspaceConfig source.rootPath
      ("no catalog entry found for dependency " ++ name ++ " and selector " ++ value))

section ApplySpecs

variable (S : SemverCrate) (workspace : Option Workspace) (catalog : Option CatalogConfig)

def catalogResolved (name value : String) : Result String :=
  if Text.startsWith value "catalog:" then resolveCatalogSpec name value workspace catalog
  else .ok value

/-- The spec of one dependency, or nothing for a local workspace project. -/
def applySpec (name value : String) : Result (Option String) := do
  let resolved ← catalogResolved workspace catalog name value
  match workspace with
  | none => .ok (some resolved)
  | some workspace =>
      if ← isLocalWorkspaceDependency S workspace name resolved then .ok none
      else .ok (some resolved)

def applySpecs (specs : BTreeMap String String) : Result (BTreeMap String String) :=
  BTreeMap.filterMapM (applySpec S workspace catalog) specs

end ApplySpecs

/-- The protocols that the specs of a section carry themselves. -/
def manifestProtocols (specs : BTreeMap String String) : BTreeMap String RegistryProtocol :=
  specs.filterMap fun _ spec => detectManifestProtocol spec

/-- A required root of two sections keeps the spec of `dependencies`; an
optional root is never required. -/
def buildProjectRootSpecs (dependencies developmentDependencies optionalDependencies :
    BTreeMap String String) (includeDev : Bool) : RootSpecSet where
  required :=
    (if includeDev then developmentDependencies ∪ dependencies else dependencies) \
      optionalDependencies
  optional := optionalDependencies

def directDependencySpec (manifest : Manifest) (name : String) : Option String :=
  (manifest.dependencies[name]?).or <|
    (manifest.devDependencies[name]?).or manifest.optionalDependencies[name]?

def resolveOverrideReference (manifest : Manifest) (range : String) : Option String :=
  match Text.stripPrefix range "$" with
  | some referenced => directDependencySpec manifest referenced
  | none => some range

/-- One entry of the npm `overrides` object; a `$name` value copies the spec of
a direct dependency. -/
def overrideEntry (project : Project) (name : String) (value : OverrideValue) :
    Result (Option String) :=
  match value with
  | .nested => .ok none
  | .range raw =>
      match resolveOverrideReference project.manifest raw with
      | some resolved => .ok (some resolved)
      | none => .error (.manifestInvalid project.manifestPath
          ("override for " ++ name ++ " references " ++ raw ++
            ", which does not match any direct dependency"))

/-- Later sources win: resolutions, npm, pnpm and snpm overrides. -/
def mergeManifestOverrides (project : Project) (overrides : BTreeMap String String) :
    Result (BTreeMap String String) := do
  let npm ← BTreeMap.filterMapM (overrideEntry project) project.manifest.overrides
  .ok (overrides ∪ project.manifest.resolutions ∪ npm ∪
    ((project.manifest.pnpm.map (·.overrides)).getD ∅) ∪
    ((project.manifest.snpm.map (·.overrides)).getD ∅))

theorem getElem?_required {dependencies developmentDependencies optionalDependencies :
    BTreeMap String String} {includeDev : Bool} (name : String) :
    (buildProjectRootSpecs dependencies developmentDependencies optionalDependencies
        includeDev).required[name]? =
      if name ∈ optionalDependencies then none
      else (dependencies[name]?).or
        (if includeDev then developmentDependencies[name]? else none) := by
  rw [buildProjectRootSpecs, Std.ExtTreeMap.getElem?_diff]
  congr 1
  cases includeDev with
  | true => exact Std.ExtTreeMap.getElem?_union
  | false => simp

end Snpm.Install
