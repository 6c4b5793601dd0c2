import Mathlib
import Snpm.Install.InstallState

/-!
The layout checks that an install records: the change times of the directories
and every link that it expects. A link is expected for each dependency of a
section that counts and that is a local project or a root of the graph. Linking
selects the roots by a rule of its own, which differs for a name that is both a
development and an optional dependency.
-/
namespace Snpm.Install

open Linker

variable (S : SemverCrate)

/-- The sections of a manifest whose links an install expects. -/
def capturedSections (manifest : Manifest) (includeDev : Bool) : List (BTreeMap String String) :=
  if includeDev then
    [manifest.dependencies, manifest.devDependencies, manifest.optionalDependencies]
  else [manifest.dependencies, manifest.optionalDependencies]

/-- The dependencies of these sections in the order in which they are captured. -/
def capturedDependencies (manifest : Manifest) (includeDev : Bool) : List (String × String) :=
  (capturedSections manifest includeDev).flatMap (·.toList)

def isWorkspaceLink (workspace : Option Workspace) (dep : String × String) : Result Bool :=
  match workspace with
  | none => .ok false
  | some workspace => isLocalWorkspaceDependency S workspace dep.1 dep.2

def expectsLink (workspace : Option Workspace) (graph : ResolutionGraph) (dep : String × String) :
    Result Bool := do
  let isWorkspaceLink ← isWorkspaceLink S workspace dep
  .ok (isWorkspaceLink || graph.root.dependencies.contains dep.1)

/-- The checks captured so far and the links among them. -/
structure Captured where
  checks : List LayoutCheck
  seenLinks : List PathBuf

def missingFile (path : PathBuf) : SnpmError :=
  .readFile path "No such file or directory (os error 2)"

def captureLinkOrExists (files : FileView) (path : PathBuf) (captured : Captured) :
    Result Captured :=
  if path ∈ captured.seenLinks then .ok captured
  else
    match files.readLink path, files.metadata path with
    | some target, _ =>
        .ok ⟨captured.checks ++ [.symlinkTarget path target], path :: captured.seenLinks⟩
    | none, some _ => .ok ⟨captured.checks ++ [.pathExists path], path :: captured.seenLinks⟩
    | none, none => .error (missingFile path)

def captureDirectoryMtime (files : FileView) (path : PathBuf) (captured : Captured) :
    Result Captured :=
  match files.metadata path with
  | none => .error (missingFile path)
  | some m =>
      .ok { captured with
        checks := captured.checks ++ [.mtime path m.modifiedSeconds m.modifiedNanoseconds] }

def captureDirectoryMtimeIfExists (files : FileView) (path : PathBuf) (captured : Captured) :
    Result Captured :=
  if files.isDir path then captureDirectoryMtime files path captured else .ok captured

section Links

variable (files : FileView) (workspace : Option Workspace) (graph : ResolutionGraph)
  (nodeModules : PathBuf)

def captureDependency (captured : Captured) (dep : String × String) : Result Captured := do
  if ← expectsLink S workspace graph dep then
    captureLinkOrExists files (nodeModules.join dep.1) captured
  else .ok captured

/-- `capture_manifest_link_checks` of every section that counts. -/
def captureDependencies (manifest : Manifest) (includeDev : Bool) (captured : Captured) :
    Result Captured :=
  (capturedDependencies manifest includeDev).foldlM
    (captureDependency S files workspace graph nodeModules) captured

def captureHoisted (mode : HoistingMode) (captured : Captured) : Result Captured :=
  if mode = .none then .ok captured
  else (toHoist mode graph).foldlM
    (fun captured h => captureLinkOrExists files (nodeModules.join h.1) captured) captured

def captureProjectLinkChecks (mode : HoistingMode) (manifest : Manifest)
    (includeDev includeHoists : Bool) (captured : Captured) : Result Captured := do
  let captured ← captureDependencies S files workspace graph nodeModules manifest includeDev captured
  if includeHoists then captureHoisted files graph nodeModules mode captured else .ok captured

def appendLinkPath (links : List PathBuf) (dep : String × String) : Result (List PathBuf) := do
  if ← expectsLink S workspace graph dep then .ok (links ++ [nodeModules.join dep.1])
  else .ok links

/-- The link paths of a project, in the order in which they are found. -/
def projectLinkPaths (project : Project) (includeDev : Bool) : Result (List PathBuf) :=
  (capturedDependencies project.manifest includeDev).foldlM
    (appendLinkPath S workspace graph (project.root.join "node_modules")) []

end Links

section Directories

variable (files : FileView) (list : PathBuf → Option (List String))

/-- `list` gives the names of the entries of a directory that can be listed. -/
def captureNodeModulesChecks (nodeModules : PathBuf) (captured : Captured) : Result Captured := do
  let captured ← captureDirectoryMtime files nodeModules captured
  let captured ← captureDirectoryMtimeIfExists files (nodeModules.join ".bin") captured
  match list nodeModules with
  | none => .error (missingFile nodeModules)
  | some names =>
      (names.filter (Text.startsWith · "@")).foldlM
        (fun captured name => captureDirectoryMtime files (nodeModules.join name) captured) captured

def virtualPackageLocation (virtualStoreDir : PathBuf) (id : PackageId) : PathBuf :=
  ((virtualStoreDir.join (Text.replaceChar id.name '/' '+' ++ "@" ++ id.version)).join
    "node_modules").join id.name

def packageNodeModules (location : PathBuf) (name : String) : Option PathBuf :=
  if Text.containsChar name (· = '/') then (parentDir location).bind parentDir
  else parentDir location

def captureVirtualPackage (virtualStoreDir : PathBuf) (captured : Captured)
    (p : PackageId × ResolvedPackage) : Result Captured := do
  let location := virtualPackageLocation virtualStoreDir p.1
  let linked ← captureLinkOrExists files location ⟨captured.checks, []⟩
  let captured : Captured := { captured with checks := linked.checks }
  if p.2.dependencies.isEmpty then .ok captured
  else
    match packageNodeModules location p.1.name with
    | none => .error (.internal
        ("virtual package path missing node_modules parent: " ++ location))
    | some dependencyDir => do
        let captured ← captureDirectoryMtime files dependencyDir captured
        captureDirectoryMtimeIfExists files (dependencyDir.join ".bin") captured

def captureVirtualStoreChecks (virtualStoreDir : PathBuf) (graph : ResolutionGraph)
    (captured : Captured) : Result Captured := do
  let captured ← captureDirectoryMtime files virtualStoreDir captured
  graph.packages.toList.foldlM (captureVirtualPackage files virtualStoreDir) captured

end Directories

def captureProjectChecks (input : LayoutInput) (list : PathBuf → Option (List String))
    (project : Project) (graph : ResolutionGraph) (includeDev : Bool) :
    Result (List LayoutCheck) := do
  let nodeModules := project.root.join "node_modules"
  let captured ← captureNodeModulesChecks input.files list nodeModules ⟨[], []⟩
  let captured ← captureProjectLinkChecks S input.files input.workspace graph nodeModules
    (layoutMode input) project.manifest includeDev true captured
  let captured ← captureVirtualStoreChecks input.files (project.root.join ".snpm") graph captured
  .ok captured.checks

/-- The checks of one project of a workspace; links are seen per project. -/
def captureWorkspaceProject (input : LayoutInput) (list : PathBuf → Option (List String))
    (workspace : Workspace) (graph : ResolutionGraph) (includeDev : Bool) (captured : Captured)
    (project : Project) : Result Captured := do
  let nodeModules := project.root.join "node_modules"
  let captured ← captureNodeModulesChecks input.files list nodeModules ⟨captured.checks, []⟩
  captureProjectLinkChecks S input.files (some workspace) graph nodeModules
    (effectiveHoisting input.config (some workspace)) project.manifest includeDev false captured

def captureWorkspaceChecks (input : LayoutInput) (list : PathBuf → Option (List String))
    (workspace : Workspace) (graph : ResolutionGraph) (includeDev : Bool) :
    Result (List LayoutCheck) := do
  let captured ← captureDirectoryMtime input.files (workspace.root.join "node_modules") ⟨[], []⟩
  let captured ← captureVirtualStoreChecks input.files (workspace.root.join ".snpm") graph captured
  let captured ← workspace.projects.foldlM
    (captureWorkspaceProject S input list workspace graph includeDev) captured
  .ok captured.checks

end Snpm.Install
