import Mathlib
import Snpm.Install.LayoutCapture

/-!
Which links an install expects when it records its layout, against the roots
that linking selects.
-/
namespace Snpm.Install

open Linker

section Expected

variable {S : SemverCrate} {workspace : Option Workspace} {graph : ResolutionGraph}
  {manifest : Manifest} {includeDev : Bool} {name spec : String}

theorem mem_capturedDependencies : (name, spec) ∈ capturedDependencies manifest includeDev ↔
    manifest.dependencies[name]? = some spec ∨
      (includeDev = true ∧ manifest.devDependencies[name]? = some spec) ∨
      manifest.optionalDependencies[name]? = some spec := by
  unfold capturedDependencies capturedSections
  cases includeDev with
  | true => simp [Std.ExtTreeMap.mem_toList_iff_getElem?_eq_some]
  | false => simp [Std.ExtTreeMap.mem_toList_iff_getElem?_eq_some]

/-- A dependency that is no local project is expected exactly if it is a root. -/
theorem expectsLink_external (h : isWorkspaceLink S workspace (name, spec) = .ok false) :
    expectsLink S workspace graph (name, spec) = .ok (graph.root.dependencies.contains name) := by
  unfold expectsLink
  rw [h]
  rfl

theorem mem_selected : name ∈ (filterRootDependencies manifest graph includeDev).map (·.1) ↔
    name ∈ graph.root.dependencies ∧ isSelectedRoot manifest includeDev name = true := by
  unfold filterRootDependencies
  simp only [List.mem_map, List.mem_filter]
  constructor
  · intro ⟨r, ⟨hmem, hselected⟩, hname⟩
    subst hname
    have hroot := Std.ExtTreeMap.mem_toList_iff_getElem?_eq_some.mp hmem
    exact ⟨BTreeMap.mem_iff_exists.mpr ⟨r.2, hroot⟩, hselected⟩
  · intro ⟨hroot, hselected⟩
    have ⟨dep, hdep⟩ := BTreeMap.mem_iff_exists.mp hroot
    exact ⟨(name, dep), ⟨Std.ExtTreeMap.mem_toList_iff_getElem?_eq_some.mpr hdep, hselected⟩, rfl⟩

/-- A name that the capture expects although it is no local project. -/
def ExpectsRoot (S : SemverCrate) (workspace : Option Workspace) (graph : ResolutionGraph)
    (manifest : Manifest) (includeDev : Bool) (name : String) : Prop :=
  ∃ spec, (name, spec) ∈ capturedDependencies manifest includeDev ∧
    isWorkspaceLink S workspace (name, spec) = .ok false ∧
    expectsLink S workspace graph (name, spec) = .ok true

/-- A production install whose linking leaves out a development dependency that
the capture expects as an optional one. -/
def LeavesOut (S : SemverCrate) (workspace : Option Workspace) (graph : ResolutionGraph)
    (manifest : Manifest) (includeDev : Bool) (name : String) : Prop :=
  includeDev = false ∧ name ∈ manifest.devDependencies ∧ name ∉ manifest.dependencies ∧
    name ∈ graph.root.dependencies ∧
    ∃ spec, manifest.optionalDependencies[name]? = some spec ∧
      isWorkspaceLink S workspace (name, spec) = .ok false

theorem isSelectedRoot_iff : isSelectedRoot manifest includeDev name = true ↔
    (name ∈ manifest.dependencies ∨ name ∈ manifest.devDependencies ∨
      name ∈ manifest.optionalDependencies) ∧
    (includeDev = true ∨ name ∉ manifest.devDependencies ∨ name ∈ manifest.dependencies) := by
  simp only [isSelectedRoot, Bool.and_eq_true, Bool.or_eq_true, Bool.not_eq_true',
    Bool.and_eq_false_iff, Bool.not_eq_false', Std.ExtTreeMap.contains_iff_mem, or_assoc]
  simp [← Std.ExtTreeMap.contains_iff_mem]

theorem ExpectsRoot.root (h : ExpectsRoot S workspace graph manifest includeDev name) :
    name ∈ graph.root.dependencies := by
  have ⟨spec, _, hexternal, hexpected⟩ := h
  rw [expectsLink_external hexternal] at hexpected
  exact Std.ExtTreeMap.contains_iff_mem.mp (Except.ok.inj hexpected)

/-- An expected root is selected, or it is left out. -/
theorem ExpectsRoot.selected_or (h : ExpectsRoot S workspace graph manifest includeDev name) :
    isSelectedRoot manifest includeDev name = true ∨
      LeavesOut S workspace graph manifest includeDev name := by
  have hroot := h.root
  have ⟨spec, hmem, hexternal, _⟩ := h
  rw [isSelectedRoot_iff]
  cases mem_capturedDependencies.mp hmem with
  | inl hdependency =>
      have hdeps : name ∈ manifest.dependencies := BTreeMap.mem_iff_exists.mpr ⟨spec, hdependency⟩
      exact .inl ⟨.inl hdeps, .inr (.inr hdeps)⟩
  | inr hrest =>
      cases hrest with
      | inl hdev =>
          have hdevs : name ∈ manifest.devDependencies := BTreeMap.mem_iff_exists.mpr ⟨spec, hdev.2⟩
          exact .inl ⟨.inr (.inl hdevs), .inl hdev.1⟩
      | inr hoptional =>
          have hoptionals : name ∈ manifest.optionalDependencies :=
            BTreeMap.mem_iff_exists.mpr ⟨spec, hoptional⟩
          cases Classical.em (includeDev = true ∨ name ∉ manifest.devDependencies ∨
              name ∈ manifest.dependencies) with
          | inl hcounts => exact .inl ⟨.inr (.inr hoptionals), hcounts⟩
          | inr hnot =>
              simp only [not_or, not_not, Bool.not_eq_true] at hnot
              exact .inr ⟨hnot.1, hnot.2.1, hnot.2.2, hroot, spec, hoptional, hexternal⟩

theorem LeavesOut.expected (h : LeavesOut S workspace graph manifest includeDev name) :
    ExpectsRoot S workspace graph manifest includeDev name ∧
      isSelectedRoot manifest includeDev name = false := by
  have ⟨hproduction, hdev, hdeps, hroot, spec, hoptional, hexternal⟩ := h
  constructor
  · refine ⟨spec, mem_capturedDependencies.mpr (.inr (.inr hoptional)), hexternal, ?_⟩
    rw [expectsLink_external hexternal, Std.ExtTreeMap.contains_iff_mem.mpr hroot]
  · rw [Bool.eq_false_iff]
    intro hselected
    cases (isSelectedRoot_iff.mp hselected).2 with
    | inl hincluded =>
        rw [hproduction] at hincluded
        cases hincluded
    | inr hcounts =>
        cases hcounts with
        | inl hnot => exact hnot hdev
        | inr hmem => exact hdeps hmem

end Expected

section Capture

variable {S : SemverCrate} {workspace : Option Workspace} {graph : ResolutionGraph}
  {files : FileView} {nodeModules path : PathBuf}

/-- A link or a file is found at a path. -/
def OnDisk (files : FileView) (path : PathBuf) : Prop :=
  (files.readLink path).isSome = true ∨ (files.metadata path).isSome = true

theorem captureLinkOrExists_ok (h : OnDisk files path) (captured : Captured) :
    ∃ next, captureLinkOrExists files path captured = .ok next := by
  unfold captureLinkOrExists
  split
  · exact ⟨_, rfl⟩
  · cases hlink : files.readLink path with
    | some target => exact ⟨_, rfl⟩
    | none =>
        cases hmetadata : files.metadata path with
        | some m => exact ⟨_, rfl⟩
        | none => simp [OnDisk, hlink, hmetadata] at h

theorem captureDependencies_ok {deps : List (String × String)}
    (h : ∀ dep ∈ deps, ∃ expected, expectsLink S workspace graph dep = .ok expected ∧
      (expected = true → OnDisk files (nodeModules.join dep.1))) (captured : Captured) :
    ∃ next, deps.foldlM (captureDependency S files workspace graph nodeModules) captured =
      .ok next := by
  induction deps generalizing captured with
  | nil => exact ⟨captured, rfl⟩
  | cons dep deps ih =>
      have ⟨expected, hexpected, hfound⟩ := h dep List.mem_cons_self
      have hstep : ∃ next, captureDependency S files workspace graph nodeModules captured dep =
          .ok next := by
        unfold captureDependency
        rw [hexpected]
        cases expected with
        | true => exact captureLinkOrExists_ok (hfound rfl) captured
        | false => exact ⟨captured, rfl⟩
      have ⟨next, hnext⟩ := hstep
      have ⟨last, hlast⟩ := ih (fun dep' hmem => h dep' (List.mem_cons_of_mem dep hmem)) next
      refine ⟨last, ?_⟩
      rw [List.foldlM_cons, hnext]
      exact hlast

/-- The names that the capture expects are selected for linking exactly if no
name is left out, and then the capture finds every link of a linked project. -/
theorem captured_links_selected_iff (S : SemverCrate) (workspace : Option Workspace)
    (graph : ResolutionGraph) (manifest : Manifest) (includeDev : Bool) :
    ((∀ name, ExpectsRoot S workspace graph manifest includeDev name →
        name ∈ (filterRootDependencies manifest graph includeDev).map (·.1)) ↔
      ∀ name, ¬ LeavesOut S workspace graph manifest includeDev name) ∧
    ((∀ name, ¬ LeavesOut S workspace graph manifest includeDev name) →
      ∀ (files : FileView) (nodeModules : PathBuf),
        (∀ dep ∈ capturedDependencies manifest includeDev, ∃ isLocal,
          isWorkspaceLink S workspace dep = .ok isLocal ∧
            (isLocal = true → OnDisk files (nodeModules.join dep.1))) →
        (∀ name ∈ (filterRootDependencies manifest graph includeDev).map (·.1),
          OnDisk files (nodeModules.join name)) →
        ∃ captured, captureDependencies S files workspace graph nodeModules manifest includeDev
          ⟨[], []⟩ = .ok captured) := by
  have hselected : (∀ name, ¬ LeavesOut S workspace graph manifest includeDev name) →
      ∀ name, ExpectsRoot S workspace graph manifest includeDev name →
        name ∈ (filterRootDependencies manifest graph includeDev).map (·.1) := by
    intro hnone name hexpects
    cases hexpects.selected_or with
    | inl hselects => exact mem_selected.mpr ⟨hexpects.root, hselects⟩
    | inr hleft => exact absurd hleft (hnone name)
  refine ⟨⟨?_, hselected⟩, ?_⟩
  · intro hcovers name hleft
    have ⟨hexpects, hunselected⟩ := hleft.expected
    have hselects := (mem_selected.mp (hcovers name hexpects)).2
    rw [hunselected] at hselects
    cases hselects
  · intro hnone files nodeModules hworkspace hlinked
    refine captureDependencies_ok ?_ _
    intro dep hmem
    have ⟨isLocal, hlocal, hlocalLink⟩ := hworkspace dep hmem
    cases isLocal with
    | true =>
        refine ⟨true, ?_, fun _ => hlocalLink rfl⟩
        rw [expectsLink, hlocal]
        rfl
    | false =>
        refine ⟨_, expectsLink_external hlocal, ?_⟩
        intro hroot
        refine hlinked dep.1 (hselected hnone dep.1 ⟨dep.2, hmem, hlocal, ?_⟩)
        rw [expectsLink_external hlocal, hroot]

/-- A manifest with a name in two sections. -/
def devAndOptional : Manifest :=
  { Manifest.empty with
    devDependencies := BTreeMap.collect [("a", "^1.0.0")]
    optionalDependencies := BTreeMap.collect [("a", "^1.0.0")] }

def rootOfA : ResolutionGraph where
  root := ⟨BTreeMap.collect [("a", ⟨"^1.0.0", ⟨"a", "1.0.0"⟩⟩)]⟩
  packages := ∅

/-- A production install does not link a name that its capture expects, and the
capture fails where nothing else is linked. -/
theorem capture_misses_unlinked :
    ((filterRootDependencies devAndOptional rootOfA false).map (·.1) = []) ∧
      (projectLinkPaths releaseCrate none rootOfA ⟨"/app", "/app/package.json", devAndOptional⟩
        false).toOption = some ["/app/node_modules/a"] ∧
      ∀ captured, captureDependencies releaseCrate emptyView none rootOfA "/app/node_modules"
        devAndOptional false ⟨[], []⟩ ≠ .ok captured := by
  refine ⟨by decide +kernel, by decide +kernel, ?_⟩
  intro captured hcaptured
  have hfails : (captureDependencies releaseCrate emptyView none rootOfA "/app/node_modules"
      devAndOptional false ⟨[], []⟩).toOption.isNone = true := by decide +kernel
  rw [hcaptured] at hfails
  cases hfails

end Capture

end Snpm.Install
