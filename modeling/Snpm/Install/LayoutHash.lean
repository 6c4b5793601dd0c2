import Mathlib
import Snpm.Install.Files
import Snpm.Install.WorkspaceSpec
import Snpm.Library.Digest
import Snpm.Linker.Link

/-!
The layout digest of an install. Every package, resolved peer, root link and
hoisted package contributes one line.
-/
namespace Snpm.Install

open Linker

variable (H : Digest.Hash) (S : SemverCrate)

/-- Where a layout is computed: the configuration, the workspace and the disk. -/
structure LayoutInput where
  config : SnpmConfig
  workspace : Option Workspace
  files : FileView

def hoistingLabel : HoistingMode → String
  | .none => "none"
  | .singleVersion => "single-version"
  | .all => "all"

def localityOf (input : LayoutInput) (projects : List Project) : LocalityInput :=
  ⟨input.config, input.workspace, projects, input.files.isDir⟩

def packageEntries (graph : ResolutionGraph) (locals : BTreeSet PackageId) (id : PackageId) :
    List String :=
  ("package:" ++ (if locals.contains id then "local" else "shared") ++ ":" ++ id.name ++ "@" ++
      id.version) ::
    (peersOf S graph id).map fun peer =>
      "peer:" ++ id.name ++ "@" ++ id.version ++ ":" ++ peer.1 ++ "=" ++ peer.2.name ++ "@" ++
        peer.2.version

def virtualStoreEntries (input : LayoutInput) (projects : List Project)
    (graph : ResolutionGraph) : List String :=
  graph.packages.keys.flatMap
    (packageEntries S graph
      (localGlobalVirtualStorePackageIds S (localityOf input projects) graph))

/-- A root that the graph does not resolve contributes nothing. -/
def externalEntry (title : String) (graph : ResolutionGraph) (name : String) : Option String :=
  (graph.root.dependencies[name]?).map fun dep =>
    title ++ ":external:" ++ name ++ "=" ++ dep.resolved.name ++ "@" ++ dep.resolved.version

def linkEntry (input : LayoutInput) (title : String) (graph : ResolutionGraph)
    (dep : String × String) : Result (Option String) :=
  match input.workspace with
  | none => .ok (externalEntry title graph dep.1)
  | some workspace => do
      if ← isLocalWorkspaceDependency S workspace dep.1 dep.2 then
        match workspace.projectByName dep.1 with
        | none => .error (dependencyNotFound workspace dep.1)
        | some project => .ok (some (title ++ ":workspace:" ++ dep.1 ++ "=" ++ project.root))
      else .ok (externalEntry title graph dep.1)

def manifestLinkEntries (input : LayoutInput) (title : String) (graph : ResolutionGraph)
    (deps : BTreeMap String String) : Result (List String) := do
  let entries ← deps.toList.mapM (linkEntry S input title graph)
  .ok entries.reduceOption

def devLinkEntries (input : LayoutInput) (project : Project) (graph : ResolutionGraph)
    (includeDev : Bool) : Result (List String) :=
  if includeDev then
    manifestLinkEntries S input "dev_dependencies" graph project.manifest.devDependencies
  else .ok []

def projectLinkEntries (input : LayoutInput) (project : Project) (graph : ResolutionGraph)
    (includeDev : Bool) : Result (List String) := do
  let deps ← manifestLinkEntries S input "dependencies" graph project.manifest.dependencies
  let devDeps ← devLinkEntries S input project graph includeDev
  let optionalDeps ←
    manifestLinkEntries S input "optional_dependencies" graph project.manifest.optionalDependencies
  .ok (deps ++ devDeps ++ optionalDeps)

def hoistEntries (graph : ResolutionGraph) (mode : HoistingMode) : List String :=
  (toHoist mode graph).map fun h => "hoist:" ++ h.1 ++ "=" ++ h.2.name ++ "@" ++ h.2.version

def linesText (entries : List String) : String :=
  String.join (entries.map (· ++ "\n"))

def hashEntries (entries : List String) : String :=
  H.hex (linesText entries)

def layoutMode (input : LayoutInput) : HoistingMode :=
  effectiveHoisting input.config input.workspace

def projectLayoutEntries (input : LayoutInput) (project : Project) (graph : ResolutionGraph)
    (includeDev : Bool) : Result (List String) := do
  let links ← projectLinkEntries S input project graph includeDev
  .ok (["kind=project", "hoisting=" ++ hoistingLabel (layoutMode input)] ++
    virtualStoreEntries S input [project] graph ++ links ++
    hoistEntries graph (layoutMode input))

def buildProjectLayoutHash (input : LayoutInput) (project : Project) (graph : ResolutionGraph)
    (includeDev : Bool) : Result String := do
  let entries ← projectLayoutEntries S input project graph includeDev
  .ok (hashEntries H entries)

def workspaceLayoutEntries (input : LayoutInput) (workspace : Workspace) (graph : ResolutionGraph)
    (includeDev : Bool) : Result (List String) := do
  let input := { input with workspace := some workspace }
  let links ← workspace.projects.mapM fun project => do
    let links ← projectLinkEntries S input project graph includeDev
    .ok (("project=" ++ project.root) :: links)
  .ok (["kind=workspace"] ++ virtualStoreEntries S input workspace.projects graph ++
    links.flatten)

def buildWorkspaceLayoutHash (input : LayoutInput) (workspace : Workspace)
    (graph : ResolutionGraph) (includeDev : Bool) : Result String := do
  let entries ← workspaceLayoutEntries S input workspace graph includeDev
  .ok (hashEntries H entries)

end Snpm.Install
