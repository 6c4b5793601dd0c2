import Mathlib
import Snpm.Install.ProjectInstall
import Snpm.Install.RootSpecs
import Snpm.Install.WorkspaceInstall

/-!
The install record against the lockfile it was taken from, over runs of installs
and edits of the lockfile. A record is bound to the lockfile by its stamp only,
so that what the detectors take from it is right as long as every install left
a record that says what the lockfile says.
-/
namespace Snpm.Install

/-- Root specs that a lockfile and the digest tell apart alike: no root is in
both sections, no text contains the separator of the digest, and the names and
ranges of the roots determine their sections. -/
structure ToldApart (specs : RootSpecSet → Prop) : Prop where
  sectioned : ∀ s, specs s → Sectioned s.required s.optional
  nulFree : ∀ s, specs s → NulFree s.required ∧ NulFree s.optional
  determined : ∀ s s', specs s → specs s' →
    s.required ∪ s.optional = s'.required ∪ s'.optional → s = s'

/-- A directory with a lockfile and an install record. The root specs that are
planned in a run are `specs`, and `text` is the lockfile that a stamp stands
for. -/
structure Site where
  root : PathBuf
  lockfilePath : PathBuf
  specs : RootSpecSet → Prop
  text : SnapshotSource → Result Lockfile
  told : ToldApart specs

def graphSnapshotPath (root : PathBuf) : PathBuf := root.join ".snpm-graph-snapshot.bin"

/-- The disk without the install record of a directory. -/
def FileView.forget (files : FileView) (root : PathBuf) : FileView :=
  { files with
    installState := fun path =>
      if path = installStatePath root then none else files.installState path }

/-- The disk after an install has left its record. -/
def FileView.record (files : FileView) (root : PathBuf) (state : Option InstallStateFile) :
    FileView :=
  match state with
  | none => files
  | some state => { files with
      installState := fun path =>
        if path = installStatePath root then some state else files.installState path }

section Verdict

variable (H : Digest.Hash) (S : SemverCrate) (input : LayoutInput)

/-- What the project detector makes of a lockfile. -/
def projectVerdict (project : Project) (lockfile : Lockfile) (specs : RootSpecSet) (force : Bool)
    (cachedLayoutValid : Option Bool) : ScenarioResult :=
  if lockfile.rootSpecsMatch specs.required specs.optional then
    detectFromGraph H S input project lockfile.toGraph force cachedLayoutValid
  else coldWithGraph lockfile.toGraph

/-- What the workspace detector makes of a lockfile; it hands the lockfile on
when it had to read it. -/
def workspaceVerdict (workspace : Workspace) (lockfile : Lockfile) (specs : RootSpecSet)
    (force : Bool) (cachedLayoutValid : Option Bool) : WorkspaceScenarioArtifacts :=
  let existing := if cachedLayoutValid.isSome then none else some lockfile
  if lockfile.rootSpecsMatch specs.required specs.optional then
    detectWorkspaceFromGraph H S input workspace lockfile.toGraph force existing true
      cachedLayoutValid
  else ⟨.cold, existing, some lockfile.toGraph, none, true⟩

variable {H S}

theorem detectFromGraph_cases (project : Project) (graph : ResolutionGraph) (force : Bool)
    (cachedLayoutValid : Option Bool) :
    detectFromGraph H S input project graph force cachedLayoutValid = ScenarioResult.cold ∨
      (detectFromGraph H S input project graph force cachedLayoutValid).graph = some graph := by
  unfold detectFromGraph classify
  split
  next => exact .inl rfl
  next =>
      simp only
      split
      next => exact .inr rfl
      next =>
          split
          next => exact .inl rfl
          next =>
              split
              next => exact .inr rfl
              next => exact .inr rfl

/-- A verdict that saves work is one on a matching lockfile, with its graph. -/
theorem projectVerdict_warm {project : Project} {lockfile : Lockfile} {specs : RootSpecSet}
    {force : Bool} {cachedLayoutValid : Option Bool}
    (h : (projectVerdict H S input project lockfile specs force cachedLayoutValid).scenario ≠
      .cold) :
    lockfile.rootSpecsMatch specs.required specs.optional = true ∧
      (projectVerdict H S input project lockfile specs force cachedLayoutValid).graph =
        some lockfile.toGraph := by
  unfold projectVerdict at h ⊢
  split
  next hmatch =>
      rw [if_pos hmatch] at h
      refine ⟨hmatch, (detectFromGraph_cases input project _ force _).resolve_left fun hcold => ?_⟩
      rw [hcold] at h
      exact h rfl
  next hmatch =>
      rw [if_neg hmatch] at h
      exact absurd rfl h

theorem detectWorkspaceFromGraph_graph {workspace : Workspace} {graph : ResolutionGraph}
    {force checked : Bool} {existing : Option Lockfile} {cachedLayoutValid : Option Bool} :
    (detectWorkspaceFromGraph H S input workspace graph force existing checked
      cachedLayoutValid).graph = some graph := by
  unfold detectWorkspaceFromGraph
  split
  next => rfl
  next =>
      simp only
      split
      next => rfl
      next =>
          split
          next => rfl
          next => split <;> rfl

theorem workspaceVerdict_warm {workspace : Workspace} {lockfile : Lockfile} {specs : RootSpecSet}
    {force : Bool} {cachedLayoutValid : Option Bool}
    (h : (workspaceVerdict H S input workspace lockfile specs force cachedLayoutValid).scenario ≠
      .cold) :
    lockfile.rootSpecsMatch specs.required specs.optional = true ∧
      (workspaceVerdict H S input workspace lockfile specs force cachedLayoutValid).graph =
        some lockfile.toGraph := by
  unfold workspaceVerdict at h ⊢
  simp only at h ⊢
  split
  next hmatch => exact ⟨hmatch, detectWorkspaceFromGraph_graph input⟩
  next hmatch =>
      rw [if_neg hmatch] at h
      exact absurd rfl h

end Verdict

namespace Site

variable (H : Digest.Hash) (S : SemverCrate) (site : Site)

/-- The lockfiles in place are those their stamps stand for. -/
structure Stamped (files : FileView) : Prop where
  own : ∀ stamp, files.isFile site.lockfilePath = true →
    SnapshotSource.capture files site.lockfilePath = some stamp →
      site.text stamp = files.lockfile site.lockfilePath
  foreign : ∀ source stamp, files.detectCompatible site.root = some source →
    SnapshotSource.capture files source.path = some stamp →
      site.text stamp = files.compatible source

/-- A record that says what its lockfile says. -/
def Sound (state : InstallStateFile) : Prop :=
  ∃ (lockfile : Lockfile) (specs : RootSpecSet),
    site.text state.source = .ok lockfile ∧ state.graph = lockfile.toGraph ∧ site.specs specs ∧
      state.rootSpecsHash = rootSpecsHash H specs.required specs.optional ∧
      lockfile.rootSpecsMatch specs.required specs.optional = true

structure Inv (files : FileView) : Prop where
  stamped : site.Stamped files
  record : ∀ state, files.installState (installStatePath site.root) = some state →
    state.version = installStateVersion → site.Sound H state
  snapshot : files.graphSnapshot (graphSnapshotPath site.root) = none

/-- A foreign lockfile that a plan of the site reads lies beside its own. -/
def Beside (files : FileView) (compatible : Option CompatibleLockfile) : Prop :=
  ∀ source, compatible = some source → files.detectCompatible site.root = some source

end Site

section Detect

variable {H : Digest.Hash} {S : SemverCrate} {site : Site} {files : FileView}
  {compatible : Option CompatibleLockfile} {specs : RootSpecSet} {path : PathBuf}

theorem Site.Stamped.read (h : site.Stamped files) (hbeside : site.Beside files compatible)
    (hsource : lockfileSourcePath files site.lockfilePath compatible = some path)
    {stamp : SnapshotSource} (hstamp : SnapshotSource.capture files path = some stamp)
    (missing : String) :
    site.text stamp = readExistingLockfile files site.lockfilePath compatible missing := by
  unfold lockfileSourcePath at hsource
  unfold readExistingLockfile
  split at hsource
  next hfile =>
      cases hsource
      rw [if_pos hfile]
      exact h.own stamp hfile hstamp
  next hfile =>
      rw [if_neg hfile]
      obtain ⟨source, hcompatible, rfl⟩ := Option.map_eq_some_iff.mp hsource
      rw [hcompatible]
      exact h.foreign source stamp (hbeside source hcompatible) hstamp

/-- Among the specs of a run, a lockfile matches only one set. -/
theorem ToldApart.match_iff {told : RootSpecSet → Prop} (h : ToldApart told) {lockfile : Lockfile}
    {recorded : RootSpecSet} (hrecorded : told recorded) (hspecs : told specs)
    (hmatch : lockfile.rootSpecsMatch recorded.required recorded.optional = true) :
    lockfile.rootSpecsMatch specs.required specs.optional = true ↔ recorded = specs := by
  constructor
  · intro hmatch'
    apply h.determined recorded specs hrecorded hspecs
    apply Std.ExtTreeMap.ext_getElem?
    intro name
    rw [requested_of_rootSpecsMatch (h.sectioned recorded hrecorded) hmatch,
      requested_of_rootSpecsMatch (h.sectioned specs hspecs) hmatch']
  · rintro rfl
    exact hmatch

theorem ToldApart.hash_iff {told : RootSpecSet → Prop} (h : ToldApart told)
    {recorded : RootSpecSet} (hrecorded : told recorded) (hspecs : told specs) :
    rootSpecsHash H recorded.required recorded.optional =
        rootSpecsHash H specs.required specs.optional ↔ recorded = specs := by
  rw [rootSpecsHash_eq_iff H (h.nulFree specs hspecs).1 (h.nulFree specs hspecs).2
    (h.nulFree recorded hrecorded).1 (h.nulFree recorded hrecorded).2]
  cases recorded
  cases specs
  simp

/-- What is loaded from a record is what the lockfile in place says. -/
theorem Site.Inv.load (h : site.Inv H files) (hbeside : site.Beside files compatible)
    (hspecs : site.specs specs)
    (hsource : lockfileSourcePath files site.lockfilePath compatible = some path)
    {layoutHash : ResolutionGraph → Result String} {cached : CachedInstallState}
    (hload : loadInstallState H files site.root path specs.required specs.optional layoutHash =
      some cached) (missing : String) :
    ∃ lockfile, readExistingLockfile files site.lockfilePath compatible missing = .ok lockfile ∧
      cached.graph = lockfile.toGraph ∧
      cached.rootSpecsMatches = lockfile.rootSpecsMatch specs.required specs.optional := by
  obtain ⟨state, hstate, hgraph, hmatches⟩ := loadInstallState_some hload
  obtain ⟨hdisk, hversion, hstamp⟩ := readValidInstallState_some hstate
  obtain ⟨lockfile, recorded, htext, hrecordedGraph, hrecorded, hhash, hmatch⟩ :=
    h.record state hdisk hversion
  refine ⟨lockfile, ?_, hgraph.trans hrecordedGraph, ?_⟩
  · rw [← htext]
    exact (h.stamped.read hbeside hsource hstamp missing).symm
  · rw [Bool.eq_iff_iff, hmatches, hhash, site.told.hash_iff hrecorded hspecs,
      site.told.match_iff hrecorded hspecs hmatch]

theorem loadGraphSnapshot_none {root : PathBuf}
    (hstate : readValidInstallState files root path = none)
    (hsnapshot : files.graphSnapshot (graphSnapshotPath root) = none) :
    loadGraphSnapshot files root path = none := by
  unfold loadGraphSnapshot
  rw [hstate]
  change (files.graphSnapshot (graphSnapshotPath root)).bind _ = none
  rw [hsnapshot]
  rfl

theorem readValid_none_of_load {root : PathBuf} {layoutHash : ResolutionGraph → Result String}
    (hload : loadInstallState H files root path specs.required specs.optional layoutHash = none) :
    readValidInstallState files root path = none :=
  Option.map_eq_none_iff.mp hload

/-- The project detector goes by the lockfile, whether it reads the lockfile or
the record. -/
theorem Site.Inv.detect (input : LayoutInput) {project : Project} {mode : FrozenLockfileMode}
    {force : Bool} (h : site.Inv H input.files) (hbeside : site.Beside input.files compatible)
    (hspecs : site.specs specs) (hroot : project.root = site.root) (hmode : mode ≠ .no)
    (hsource : lockfileSourcePath input.files site.lockfilePath compatible = some path) :
    detectInstallScenario H S input project site.lockfilePath specs.required specs.optional mode
        force compatible =
      match readExistingLockfile input.files site.lockfilePath compatible "no lockfile was found" with
      | .error _ => ScenarioResult.cold
      | .ok lockfile => projectVerdict H S input project lockfile specs force
          ((loadProjectInstallState H S input project path specs.required specs.optional
            true).map (·.layoutValid)) := by
  unfold detectInstallScenario
  rw [if_neg hmode, hsource]
  simp only
  unfold detectFromRecords
  cases hload : loadProjectInstallState H S input project path specs.required specs.optional true with
  | some cached =>
      have hcached := hload
      unfold loadProjectInstallState at hcached
      rw [hroot] at hcached
      obtain ⟨lockfile, hread, hgraph, hmatches⟩ := h.load hbeside hspecs hsource hcached
        "no lockfile was found"
      rw [hread]
      simp only [hgraph, hmatches, projectVerdict, Option.map_some]
  | none =>
      have hnone := hload
      unfold loadProjectInstallState at hnone
      have hsnapshot : loadGraphSnapshot input.files project.root path = none := by
        rw [hroot] at hnone ⊢
        exact loadGraphSnapshot_none (readValid_none_of_load hnone) h.snapshot
      simp only [hsnapshot, Option.map_none]
      rfl

/-- The same for the workspace detector. -/
theorem Site.Inv.detectWorkspace (input : LayoutInput) {workspace : Workspace}
    {mode : FrozenLockfileMode} {force : Bool} (h : site.Inv H input.files)
    (hbeside : site.Beside input.files compatible) (hspecs : site.specs specs)
    (hroot : workspace.root = site.root) (hmode : ¬(mode = .no ∨ mode = .fix))
    (hsource : lockfileSourcePath input.files site.lockfilePath compatible = some path) :
    detectWorkspaceScenarioEarly H S input workspace site.lockfilePath compatible mode force
        specs.required specs.optional =
      match readExistingLockfile input.files site.lockfilePath compatible "no lockfile was found" with
      | .error _ => WorkspaceScenarioArtifacts.cold false
      | .ok lockfile => workspaceVerdict H S input workspace lockfile specs force
          ((loadWorkspaceInstallState H S input workspace path specs.required specs.optional
            true).map (·.layoutValid)) := by
  unfold detectWorkspaceScenarioEarly
  rw [if_neg hmode, hsource]
  simp only
  cases hload : loadWorkspaceInstallState H S input workspace path specs.required specs.optional
      true with
  | some cached =>
      have hcached := hload
      unfold loadWorkspaceInstallState at hcached
      rw [hroot] at hcached
      obtain ⟨lockfile, hread, hgraph, hmatches⟩ := h.load hbeside hspecs hsource hcached
        "no lockfile was found"
      rw [hread]
      simp only [hgraph, hmatches, workspaceVerdict, Option.map_some, Option.isSome_some, if_true]
  | none =>
      have hnone := hload
      unfold loadWorkspaceInstallState at hnone
      have hsnapshot : matchingSnapshot H input workspace path specs.required specs.optional =
          none := by
        unfold matchingSnapshot
        rw [hroot] at hnone ⊢
        rw [loadGraphSnapshot_none (readValid_none_of_load hnone) h.snapshot]
        rfl
      simp only [hsnapshot, Option.map_none]
      rfl

end Detect

section Agreement

variable {H : Digest.Hash} {S : SemverCrate} {site : Site} {files : FileView}

theorem Site.Inv.forget (h : site.Inv H files) : site.Inv H (files.forget site.root) where
  stamped := ⟨h.stamped.own, h.stamped.foreign⟩
  record state hstate := by
    simp only [FileView.forget, if_true] at hstate
    cases hstate
  snapshot := h.snapshot

theorem readValid_forget {path : PathBuf} :
    readValidInstallState (files.forget site.root) site.root path = none := by
  unfold readValidInstallState
  have hnone : (files.forget site.root).installState (installStatePath site.root) = none :=
    if_pos rfl
  rw [hnone]
  rfl

/-- Where a record is found, the project detector decides on the root specs and
takes the graph as it does without it, and both are the lockfile's. -/
def Site.ProjectAgrees (H : Digest.Hash) (S : SemverCrate) (site : Site) (files : FileView) :
    Prop :=
  ∀ (config : SnpmConfig) (workspace : Option Workspace) (project : Project) (specs : RootSpecSet)
    (mode : FrozenLockfileMode) (force : Bool) (compatible : Option CompatibleLockfile)
    (path : PathBuf) (cached : CachedInstallState),
    project.root = site.root → site.specs specs → site.Beside files compatible → mode ≠ .no →
    lockfileSourcePath files site.lockfilePath compatible = some path →
    loadProjectInstallState H S ⟨config, workspace, files⟩ project path specs.required
      specs.optional true = some cached →
    ∃ lockfile, readExistingLockfile files site.lockfilePath compatible "no lockfile was found" =
        .ok lockfile ∧
      detectInstallScenario H S ⟨config, workspace, files⟩ project site.lockfilePath
          specs.required specs.optional mode force compatible =
        projectVerdict H S ⟨config, workspace, files⟩ project lockfile specs force
          (some cached.layoutValid) ∧
      detectInstallScenario H S ⟨config, workspace, files.forget site.root⟩ project
          site.lockfilePath specs.required specs.optional mode force compatible =
        projectVerdict H S ⟨config, workspace, files.forget site.root⟩ project lockfile specs
          force none

/-- The same for the workspace detector. -/
def Site.WorkspaceAgrees (H : Digest.Hash) (S : SemverCrate) (site : Site) (files : FileView) :
    Prop :=
  ∀ (config : SnpmConfig) (workspace : Workspace) (specs : RootSpecSet)
    (mode : FrozenLockfileMode) (force : Bool) (compatible : Option CompatibleLockfile)
    (path : PathBuf) (cached : CachedInstallState),
    workspace.root = site.root → site.specs specs → site.Beside files compatible →
    ¬(mode = .no ∨ mode = .fix) →
    lockfileSourcePath files site.lockfilePath compatible = some path →
    loadWorkspaceInstallState H S ⟨config, some workspace, files⟩ workspace path specs.required
      specs.optional true = some cached →
    ∃ lockfile, readExistingLockfile files site.lockfilePath compatible "no lockfile was found" =
        .ok lockfile ∧
      detectWorkspaceScenarioEarly H S ⟨config, some workspace, files⟩ workspace
          site.lockfilePath compatible mode force specs.required specs.optional =
        workspaceVerdict H S ⟨config, some workspace, files⟩ workspace lockfile specs force
          (some cached.layoutValid) ∧
      detectWorkspaceScenarioEarly H S ⟨config, some workspace, files.forget site.root⟩ workspace
          site.lockfilePath compatible mode force specs.required specs.optional =
        workspaceVerdict H S ⟨config, some workspace, files.forget site.root⟩ workspace lockfile
          specs force none

theorem Site.Inv.projectAgrees (h : site.Inv H files) : site.ProjectAgrees H S files := by
  intro config workspace project specs mode force compatible path cached hroot hspecs hbeside
    hmode hsource hload
  have hcached := hload
  unfold loadProjectInstallState at hcached
  rw [hroot] at hcached
  obtain ⟨lockfile, hread, -⟩ := h.load hbeside hspecs hsource hcached "no lockfile was found"
  refine ⟨lockfile, hread, ?_, ?_⟩
  · rw [Site.Inv.detect ⟨config, workspace, files⟩ h hbeside hspecs hroot hmode hsource]
    simp only [hread, hload, Option.map_some]
  · have hnone : loadProjectInstallState H S ⟨config, workspace, files.forget site.root⟩ project
        path specs.required specs.optional true = none := by
      unfold loadProjectInstallState loadInstallState
      rw [hroot, readValid_forget]
      rfl
    have hread' : readExistingLockfile (files.forget site.root) site.lockfilePath compatible
        "no lockfile was found" = .ok lockfile := hread
    rw [Site.Inv.detect ⟨config, workspace, files.forget site.root⟩ h.forget hbeside hspecs hroot
      hmode hsource]
    simp only [hread', hnone, Option.map_none]

theorem Site.Inv.workspaceAgrees (h : site.Inv H files) : site.WorkspaceAgrees H S files := by
  intro config workspace specs mode force compatible path cached hroot hspecs hbeside
    hmode hsource hload
  have hcached := hload
  unfold loadWorkspaceInstallState at hcached
  rw [hroot] at hcached
  obtain ⟨lockfile, hread, -⟩ := h.load hbeside hspecs hsource hcached "no lockfile was found"
  refine ⟨lockfile, hread, ?_, ?_⟩
  · rw [Site.Inv.detectWorkspace ⟨config, some workspace, files⟩ h hbeside hspecs hroot hmode
      hsource]
    simp only [hread, hload, Option.map_some]
  · have hnone : loadWorkspaceInstallState H S ⟨config, some workspace, files.forget site.root⟩
        workspace path specs.required specs.optional true = none := by
      unfold loadWorkspaceInstallState loadInstallState
      rw [hroot, readValid_forget]
      rfl
    have hread' : readExistingLockfile (files.forget site.root) site.lockfilePath compatible
        "no lockfile was found" = .ok lockfile := hread
    rw [Site.Inv.detectWorkspace ⟨config, some workspace, files.forget site.root⟩ h.forget hbeside
      hspecs hroot hmode hsource]
    simp only [hread', hnone, Option.map_none]

end Agreement

end Snpm.Install
