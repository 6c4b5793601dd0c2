import Mathlib
import Snpm.Install.WorkspacePlan
import Snpm.Install.HotSoundness

/-!
Frozen workspace installs. A lockfile that does not match the manifests must
stop a frozen install. The lockfile itself is read only when no former install
left a record for its text; a record that loads hides the mismatch.
-/
namespace Snpm.Install

variable {H : Digest.Hash} {S : SemverCrate} {input : LayoutInput} {workspace : Workspace}

theorem detectWorkspaceFromGraph_existingLockfile (graph : ResolutionGraph) (force : Bool)
    (existingLockfile : Option Lockfile) (lockfileChecked : Bool) (cached : Option Bool) :
    (detectWorkspaceFromGraph H S input workspace graph force existingLockfile lockfileChecked
        cached).existingLockfile = existingLockfile ∧
      (detectWorkspaceFromGraph H S input workspace graph force existingLockfile lockfileChecked
        cached).lockfileChecked = lockfileChecked := by
  unfold detectWorkspaceFromGraph
  split
  · exact ⟨rfl, rfl⟩
  · dsimp only
    split
    · exact ⟨rfl, rfl⟩
    · split
      · exact ⟨rfl, rfl⟩
      · split <;> exact ⟨rfl, rfl⟩

/-- Validation passes when no lockfile was read but the check counts as done. -/
theorem validate_checked {mode : FrozenLockfileMode} {path : PathBuf} {strict : Bool}
    {scenario : InstallScenario} {required optional : BTreeMap String String} :
    validateLockfileMatchesManifest mode path strict scenario none required optional true =
      .ok (scenario, none) := by
  simp [validateLockfileMatchesManifest]

theorem validate_mismatch {path : PathBuf} {strict : Bool} {scenario : InstallScenario}
    {lockfile : Lockfile} {required optional : BTreeMap String String} {checked : Bool}
    (h : lockfile.rootSpecsMatch required optional = false) :
    validateLockfileMatchesManifest .frozen path strict scenario (some lockfile) required optional
        checked =
      .error (.lockfile path
        "manifest dependencies do not match the existing lockfile when using frozen-lockfile") := by
  simp [validateLockfileMatchesManifest, h]

theorem loadInstallState_eq_none_iff {files : FileView} {root sourcePath : PathBuf}
    {required optional : BTreeMap String String} {layoutHash : ResolutionGraph → Result String} :
    loadInstallState H files root sourcePath required optional layoutHash = none ↔
      readValidInstallState files root sourcePath = none := by
  rw [loadInstallState, Option.map_eq_none_iff]

section Frozen

variable {setup : WorkspaceInstallSetup} {lockfile : Lockfile} {force : Bool}

/-- Whether a record of a former install is used in place of the lockfile. -/
def HasRecord (H : Digest.Hash) (input : LayoutInput) (workspace : Workspace)
    (setup : WorkspaceInstallSetup) : Prop :=
  readValidInstallState input.files workspace.root setup.lockfilePath ≠ none ∨
    matchingSnapshot H input workspace setup.lockfilePath setup.rootSpecs.required
      setup.rootSpecs.optional ≠ none

/-- With a record, no lockfile reaches validation, and the check counts as done. -/
theorem artifacts_of_record (hfile : input.files.isFile setup.lockfilePath = true)
    (hrecord : HasRecord H input workspace setup) :
    (workspaceArtifacts H S input workspace setup .frozen force).existingLockfile = none ∧
      (workspaceArtifacts H S input workspace setup .frozen force).lockfileChecked = true := by
  simp only [workspaceArtifacts, reduceCtorEq, if_false, detectWorkspaceScenarioEarly,
    lockfileSourcePath_of_isFile hfile, or_self]
  cases hstate : loadWorkspaceInstallState H S input workspace setup.lockfilePath
      setup.rootSpecs.required setup.rootSpecs.optional true with
  | some state =>
      dsimp only
      split
      · exact detectWorkspaceFromGraph_existingLockfile _ _ _ _ _
      · exact ⟨rfl, rfl⟩
  | none =>
      dsimp only
      cases hsnapshot : matchingSnapshot H input workspace setup.lockfilePath
          setup.rootSpecs.required setup.rootSpecs.optional with
      | some graph => exact detectWorkspaceFromGraph_existingLockfile _ _ _ _ _
      | none =>
          cases hrecord with
          | inl hvalid => exact absurd (loadInstallState_eq_none_iff.mp hstate) hvalid
          | inr hmatching => exact absurd hsnapshot hmatching

/-- A record of other root specs is taken for a checked lockfile. -/
theorem artifacts_of_stale_state {state : CachedInstallState}
    (hfile : input.files.isFile setup.lockfilePath = true)
    (hstate : loadWorkspaceInstallState H S input workspace setup.lockfilePath
      setup.rootSpecs.required setup.rootSpecs.optional true = some state)
    (hstale : state.rootSpecsMatches = false) :
    workspaceArtifacts H S input workspace setup .frozen force =
      ⟨.cold, none, some state.graph, none, true⟩ := by
  simp [workspaceArtifacts, detectWorkspaceScenarioEarly, lockfileSourcePath_of_isFile hfile,
    hstate, hstale]

theorem artifacts_of_no_record (hfile : input.files.isFile setup.lockfilePath = true)
    (hread : input.files.lockfile setup.lockfilePath = .ok lockfile)
    (hmismatch : lockfile.rootSpecsMatch setup.rootSpecs.required setup.rootSpecs.optional = false)
    (hrecord : ¬ HasRecord H input workspace setup) :
    (workspaceArtifacts H S input workspace setup .frozen force).existingLockfile =
      some lockfile := by
  simp only [HasRecord, not_or, not_not] at hrecord
  have hstate : loadWorkspaceInstallState H S input workspace setup.lockfilePath
      setup.rootSpecs.required setup.rootSpecs.optional true = none :=
    loadInstallState_eq_none_iff.mpr hrecord.1
  have hexisting : readExistingLockfile input.files setup.lockfilePath setup.compatibleLockfile
      "no lockfile was found" = .ok lockfile := by
    rw [readExistingLockfile_of_isFile hfile, hread]
  simp [workspaceArtifacts, detectWorkspaceScenarioEarly, lockfileSourcePath_of_isFile hfile,
    hstate, hrecord.2, detectWorkspaceFromLockfile, hexisting, hmismatch]

/-- With a record, a frozen install is planned without a look at the lockfile. -/
theorem plan_of_record {includeDev strict : Bool}
    (hsetup : prepareWorkspaceInstall S input.files workspace includeDev .frozen strict = .ok setup)
    (hfile : input.files.isFile setup.lockfilePath = true)
    (hrecord : HasRecord H input workspace setup) :
    planWorkspaceInstall H S input workspace includeDev .frozen strict force =
      .ok ⟨setup, (workspaceArtifacts H S input workspace setup .frozen force).scenario,
        (workspaceArtifacts H S input workspace setup .frozen force).graph,
        (workspaceArtifacts H S input workspace setup .frozen force).cacheCheck⟩ := by
  have hartifacts :
      (workspaceArtifacts H S input workspace setup .frozen force).existingLockfile = none ∧
        (workspaceArtifacts H S input workspace setup .frozen force).lockfileChecked = true :=
    artifacts_of_record hfile hrecord
  obtain ⟨hnone, hchecked⟩ := hartifacts
  rw [planWorkspaceInstall, hsetup]
  simp [hnone, hchecked, validate_checked, pinSetup, bind, Except.bind]

theorem plan_of_no_record {includeDev strict : Bool}
    (hsetup : prepareWorkspaceInstall S input.files workspace includeDev .frozen strict = .ok setup)
    (hfile : input.files.isFile setup.lockfilePath = true)
    (hread : input.files.lockfile setup.lockfilePath = .ok lockfile)
    (hmismatch : lockfile.rootSpecsMatch setup.rootSpecs.required setup.rootSpecs.optional = false)
    (hrecord : ¬ HasRecord H input workspace setup) :
    planWorkspaceInstall H S input workspace includeDev .frozen strict force =
      .error (.lockfile (setup.lockfileSourcePath input.files)
        "manifest dependencies do not match the existing lockfile when using frozen-lockfile") := by
  have hexisting :
      (workspaceArtifacts H S input workspace setup .frozen force).existingLockfile =
        some lockfile :=
    artifacts_of_no_record hfile hread hmismatch hrecord
  rw [planWorkspaceInstall, hsetup]
  simp [hexisting, validate_mismatch hmismatch, bind, Except.bind]

/-- A frozen install is refused over a lockfile that does not match exactly
when no former install left a record that is used in its place. -/
theorem frozen_plan_refused_iff {includeDev strict : Bool}
    (hsetup : prepareWorkspaceInstall S input.files workspace includeDev .frozen strict = .ok setup)
    (hfile : input.files.isFile setup.lockfilePath = true)
    (hread : input.files.lockfile setup.lockfilePath = .ok lockfile)
    (hmismatch : lockfile.rootSpecsMatch setup.rootSpecs.required setup.rootSpecs.optional = false) :
    (∃ error, planWorkspaceInstall H S input workspace includeDev .frozen strict force =
        .error error) ↔
      ¬ HasRecord H input workspace setup := by
  constructor
  · rintro ⟨error, herror⟩ hrecord
    rw [plan_of_record hsetup hfile hrecord] at herror
    cases herror
  · intro hrecord
    exact ⟨_, plan_of_no_record hsetup hfile hread hmismatch hrecord⟩

end Frozen

section Examples

/-- A workspace of one project that asks for `a` in a range. -/
def oneProject (range : String) : Workspace where
  root := "/ws"
  projects := [⟨"/ws", "/ws/package.json", { Manifest.empty with
    dependencies := BTreeMap.collect [("a", range)] }⟩]
  config := ⟨∅, ∅, [], [], none, none⟩

/-- The lockfile of an install that resolved `a` in the range `^1.0.0`. -/
def caretOneLockfile : Lockfile where
  version := Lockfile.lockfileVersion
  root := ⟨BTreeMap.collect [("a", ⟨"^1.0.0", none, some "1.0.0", false⟩)]⟩
  packages := Lockfile.buildPackages onePackage

/-- What the install of the matching manifest recorded. -/
def caretOneState : InstallStateFile where
  version := installStateVersion
  source := ⟨"/ws/snpm-lock.yaml", 100, 1, 0⟩
  rootSpecsHash := rootSpecsHash Digest.unaryHash (BTreeMap.collect [("a", "^1.0.0")]) ∅
  graph := onePackage
  layout := ⟨"", []⟩

/-- A disk with that lockfile, and with or without the record. -/
def lockedInput (recorded : Bool) : LayoutInput where
  config := plainConfig
  workspace := none
  files := { emptyView with
    isFile := fun path => path = "/ws/snpm-lock.yaml"
    metadata := fun _ => some ⟨100, 1, 0⟩
    lockfile := fun _ => .ok caretOneLockfile
    installState := fun _ => if recorded then some caretOneState else none }

def caretTwoSetup : WorkspaceInstallSetup :=
  setupOf "/ws/snpm-lock.yaml" none ∅ ⟨BTreeMap.collect [("a", "^2.0.0")], ∅⟩

theorem prepare_caretTwo (recorded : Bool) :
    prepareWorkspaceInstall releaseCrate (lockedInput recorded).files (oneProject "^2.0.0") true
      .frozen true = .ok caretTwoSetup := by
  have hfile : ∀ recorded, (lockedInput recorded).files.isFile
      (workspaceLockfilePath (oneProject "^2.0.0")) = true := by decide +kernel
  have hoverrides : ∀ recorded, loadWorkspaceOverrides (lockedInput recorded).files
      (oneProject "^2.0.0") = .ok ∅ := by decide +kernel
  have hroots : ∀ recorded, collectWorkspaceRootSpecsWithOverrides releaseCrate
      (lockedInput recorded).files (oneProject "^2.0.0") true ∅ =
        .ok ⟨BTreeMap.collect [("a", "^2.0.0")], ∅⟩ := by
    decide +kernel
  simp only [prepareWorkspaceInstall, hfile, Bool.not_true, Bool.and_false, Bool.false_and,
    Bool.false_eq_true, if_false, hoverrides, hroots, bind, Except.bind,
    workspaceCompatibleLockfile, if_true]
  rfl

theorem caretOne_mismatch : caretOneLockfile.rootSpecsMatch caretTwoSetup.rootSpecs.required
    caretTwoSetup.rootSpecs.optional = false := by decide +kernel

theorem lockedInput_isFile (recorded : Bool) :
    (lockedInput recorded).files.isFile caretTwoSetup.lockfilePath = true := by
  have h : ∀ recorded, (lockedInput recorded).files.isFile caretTwoSetup.lockfilePath = true := by
    decide +kernel
  exact h recorded

/-- Without a record the frozen install is refused. -/
theorem frozen_plan_refused_without_record :
    ∃ error, planWorkspaceInstall Digest.unaryHash releaseCrate (lockedInput false)
      (oneProject "^2.0.0") true .frozen true false = .error error := by
  refine (frozen_plan_refused_iff (prepare_caretTwo false) (lockedInput_isFile false) rfl
    caretOne_mismatch).mpr ?_
  have hstate : readValidInstallState (lockedInput false).files (oneProject "^2.0.0").root
      caretTwoSetup.lockfilePath = none := rfl
  have hsnapshot : matchingSnapshot Digest.unaryHash (lockedInput false) (oneProject "^2.0.0")
      caretTwoSetup.lockfilePath caretTwoSetup.rootSpecs.required
      caretTwoSetup.rootSpecs.optional = none := rfl
  simp [HasRecord, hstate, hsnapshot]

theorem rootSpecsHash_caretTwo_ne : caretOneState.rootSpecsHash ≠
    rootSpecsHash Digest.unaryHash caretTwoSetup.rootSpecs.required
      caretTwoSetup.rootSpecs.optional := by
  intro heq
  exact absurd (Digest.unaryHash.injective heq) (by decide +kernel)

/-- The manifest was edited after an install: its record loads for the
unchanged lockfile, and the frozen install is planned as a fresh resolve. -/
theorem frozen_plan_cold_over_record :
    prepareWorkspaceInstall releaseCrate (lockedInput true).files (oneProject "^2.0.0") true
        .frozen true = .ok caretTwoSetup ∧
      (lockedInput true).files.isFile caretTwoSetup.lockfilePath = true ∧
      (lockedInput true).files.lockfile caretTwoSetup.lockfilePath = .ok caretOneLockfile ∧
      caretOneLockfile.rootSpecsMatch caretTwoSetup.rootSpecs.required
        caretTwoSetup.rootSpecs.optional = false ∧
      ∃ plan, planWorkspaceInstall Digest.unaryHash releaseCrate (lockedInput true)
          (oneProject "^2.0.0") true .frozen true false = .ok plan ∧ plan.scenario = .cold := by
  refine ⟨prepare_caretTwo true, lockedInput_isFile true, rfl, caretOne_mismatch, ?_⟩
  have hvalid : readValidInstallState (lockedInput true).files (oneProject "^2.0.0").root
      caretTwoSetup.lockfilePath = some caretOneState := by
    simp [readValidInstallState, lockedInput, caretOneState, SnapshotSource.capture, emptyView,
      caretTwoSetup, setupOf]
  have hstate : loadWorkspaceInstallState Digest.unaryHash releaseCrate
      (lockedInput true) (oneProject "^2.0.0") caretTwoSetup.lockfilePath
      caretTwoSetup.rootSpecs.required caretTwoSetup.rootSpecs.optional true =
        some ⟨onePackage, false, false⟩ := by
    rw [loadWorkspaceInstallState, loadInstallState, hvalid, Option.map_some]
    simp only [decide_eq_false rootSpecsHash_caretTwo_ne, Bool.false_and]
    rfl
  refine ⟨_, plan_of_record (prepare_caretTwo true) (lockedInput_isFile true)
    (.inl (by simp [hvalid])), ?_⟩
  rw [artifacts_of_stale_state (lockedInput_isFile true) hstate rfl]

end Examples

end Snpm.Install
