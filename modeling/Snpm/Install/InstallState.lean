import Mathlib
import Snpm.Install.LayoutHash

/-!
Install records and whether they are still valid. The install-state file holds
the graph that was installed, a digest of the root specs it was resolved for
and the layout it left; older versions wrote a graph snapshot and a layout
record instead. A record counts only for the lockfile text it was taken from.
-/
namespace Snpm.Install

variable (H : Digest.Hash) (S : SemverCrate)

def installStateVersion : Nat := 2

def layoutStateVersion : Nat := 1

def graphSnapshotVersion : Nat := 1

def specText (kind : String) (r : String × String) : String :=
  kind ++ "\x00" ++ r.1 ++ "\x00" ++ r.2 ++ "\x00"

def rootSpecsHash (required optional : BTreeMap String String) : String :=
  H.hex (String.join (required.toList.map (specText "required")) ++
    String.join (optional.toList.map (specText "optional")))

def layoutMatches (files : FileView) (expected : Result String) (layout : LayoutSnapshot) : Bool :=
  match expected with
  | .error _ => false
  | .ok hash => hash = layout.layoutHash && layout.checks.all (LayoutCheck.validate files)

/-- The state `write_project_install_state` stores; `checks` are the captured
layout checks. -/
def projectInstallState (input : LayoutInput)
    (project : Project) (source : SnapshotSource) (required optional : BTreeMap String String)
    (graph : ResolutionGraph) (includeDev : Bool) (checks : List LayoutCheck) :
    Result InstallStateFile := do
  let layoutHash ← buildProjectLayoutHash H S input project graph includeDev
  .ok ⟨installStateVersion, source, rootSpecsHash H required optional, graph, ⟨layoutHash, checks⟩⟩

structure CachedInstallState where
  graph : ResolutionGraph
  rootSpecsMatches : Bool
  layoutValid : Bool

def readValidInstallState (files : FileView) (root sourcePath : PathBuf) :
    Option InstallStateFile := do
  let state ← files.installState (installStatePath root)
  if state.version ≠ installStateVersion then none
  else
    let current ← SnapshotSource.capture files sourcePath
    if state.source = current then some state else none

/-- The install state of a root directory whose layout digest is `layoutHash`. -/
def loadInstallState (files : FileView) (root sourcePath : PathBuf)
    (required optional : BTreeMap String String) (layoutHash : ResolutionGraph → Result String) :
    Option CachedInstallState :=
  (readValidInstallState files root sourcePath).map fun state =>
    let rootSpecsMatches : Bool := state.rootSpecsHash = rootSpecsHash H required optional
    ⟨state.graph, rootSpecsMatches,
      rootSpecsMatches && layoutMatches files (layoutHash state.graph) state.layout⟩

def loadProjectInstallState (input : LayoutInput) (project : Project) (sourcePath : PathBuf)
    (required optional : BTreeMap String String) (includeDev : Bool) : Option CachedInstallState :=
  loadInstallState H input.files project.root sourcePath required optional fun graph =>
    buildProjectLayoutHash H S input project graph includeDev

def loadWorkspaceInstallState (input : LayoutInput) (workspace : Workspace) (sourcePath : PathBuf)
    (required optional : BTreeMap String String) (includeDev : Bool) : Option CachedInstallState :=
  loadInstallState H input.files workspace.root sourcePath required optional fun graph =>
    buildWorkspaceLayoutHash H S input workspace graph includeDev

/-- The verdict of the install state, when there is one and the layout digest
can be computed. -/
def checkLayoutFromInstallState (files : FileView) (root : PathBuf) (expected : Result String) :
    Option Bool :=
  match files.installState (installStatePath root), expected with
  | some state, .ok _ =>
      if state.version = installStateVersion then some (layoutMatches files expected state.layout)
      else none
  | _, _ => none

/-- The older layout record lies in the same place. -/
def checkLayoutState (files : FileView) (root : PathBuf) (expected : Result String) : Bool :=
  match files.layoutState (installStatePath root) with
  | none => false
  | some state => state.version = layoutStateVersion && layoutMatches files expected state.layout

def checkLayout (files : FileView) (root : PathBuf) (expected : Result String) : Bool :=
  (checkLayoutFromInstallState files root expected).getD (checkLayoutState files root expected)

def checkProjectLayoutState (input : LayoutInput) (project : Project) (graph : ResolutionGraph)
    (includeDev : Bool) : Bool :=
  checkLayout input.files project.root (buildProjectLayoutHash H S input project graph includeDev)

def checkWorkspaceLayoutState (input : LayoutInput) (workspace : Workspace)
    (graph : ResolutionGraph) (includeDev : Bool) : Bool :=
  checkLayout input.files workspace.root
    (buildWorkspaceLayoutHash H S input workspace graph includeDev)

structure LoadedGraphSnapshot where
  graph : ResolutionGraph
  rootSpecsHash : String

def loadGraphSnapshot (files : FileView) (root sourcePath : PathBuf) :
    Option LoadedGraphSnapshot :=
  match readValidInstallState files root sourcePath with
  | some state => some ⟨state.graph, state.rootSpecsHash⟩
  | none => do
      let snapshot ← files.graphSnapshot (root.join ".snpm-graph-snapshot.bin")
      if snapshot.version ≠ graphSnapshotVersion then none
      else
        let current ← SnapshotSource.capture files sourcePath
        if snapshot.source = current then some ⟨snapshot.graph, snapshot.rootSpecsHash⟩ else none

def LoadedGraphSnapshot.matchesRootSpecs (snapshot : LoadedGraphSnapshot)
    (required optional : BTreeMap String String) : Bool :=
  snapshot.rootSpecsHash = Install.rootSpecsHash H required optional

/-- A record that is read lies on disk, has the present version and was taken
from the present text of its source. -/
theorem readValidInstallState_some {files : FileView} {root sourcePath : PathBuf}
    {state : InstallStateFile} (h : readValidInstallState files root sourcePath = some state) :
    files.installState (installStatePath root) = some state ∧
      state.version = installStateVersion ∧
      SnapshotSource.capture files sourcePath = some state.source := by
  unfold readValidInstallState at h
  obtain ⟨found, hfound, h⟩ := Option.bind_eq_some_iff.mp h
  split at h
  next => cases h
  next hversion =>
      obtain ⟨current, hcurrent, h⟩ := Option.bind_eq_some_iff.mp h
      split at h
      next hsource =>
          cases h
          exact ⟨hfound, not_not.mp hversion, hsource ▸ hcurrent⟩
      next => cases h

variable {H} in
/-- What a loaded record says about the graph and the root specs. -/
theorem loadInstallState_some {files : FileView} {root sourcePath : PathBuf}
    {required optional : BTreeMap String String} {layoutHash : ResolutionGraph → Result String}
    {cached : CachedInstallState}
    (h : loadInstallState H files root sourcePath required optional layoutHash = some cached) :
    ∃ state, readValidInstallState files root sourcePath = some state ∧
      cached.graph = state.graph ∧
      (cached.rootSpecsMatches = true ↔
        state.rootSpecsHash = rootSpecsHash H required optional) := by
  obtain ⟨state, hstate, rfl⟩ := Option.map_eq_some_iff.mp h
  exact ⟨state, hstate, rfl, decide_eq_true_iff⟩

variable {H} in
theorem exists_loadInstallState {files : FileView} {root sourcePath : PathBuf}
    {required optional : BTreeMap String String} {layoutHash : ResolutionGraph → Result String}
    {state : InstallStateFile} (h : readValidInstallState files root sourcePath = some state) :
    ∃ cached, loadInstallState H files root sourcePath required optional layoutHash =
      some cached := by
  rw [loadInstallState, h]
  exact ⟨_, rfl⟩

theorem layoutMatches_ok (files : FileView) (hash : String) (layout : LayoutSnapshot) :
    layoutMatches files (.ok hash) layout = true ↔
      hash = layout.layoutHash ∧ layout.checks.all (LayoutCheck.validate files) = true := by
  simp [layoutMatches]

end Snpm.Install
