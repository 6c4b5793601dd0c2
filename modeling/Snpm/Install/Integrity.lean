import Mathlib
import Snpm.Install.Files
import Snpm.Library.Digest
import Snpm.Library.Framing
import Snpm.Linker.Locality

/-!
The integrity record of an install: a digest of the resolution graph and a
digest of the patches, written into `node_modules` and compared later.
-/
namespace Snpm.Install

open Linker (getPatchedDependencies)

variable (H : Digest.Hash)

structure IntegrityState where
  lockfileHash : String
  patchHash : String
deriving DecidableEq

def noPatchHash : String := "none"

def rootText (r : String × RootDependency) : String :=
  r.1 ++ r.2.requested ++ r.2.resolved.name ++ r.2.resolved.version

def packageText (p : PackageId × ResolvedPackage) : String :=
  p.1.name ++ p.1.version ++ p.2.id.name ++ p.2.id.version

/-- What is fed to the hasher: names, requests and versions without separators. -/
def lockfileText (graph : ResolutionGraph) : String :=
  String.join (graph.root.dependencies.toList.map rootText) ++
    String.join (graph.packages.toList.map packageText)

def computeLockfileHash (graph : ResolutionGraph) : String :=
  H.hex (lockfileText graph)

def patchText (files : FileView) (project : Project) (p : String × String) : Result String :=
  let patchPath := project.root.join p.2
  if files.isFile patchPath then
    match files.read patchPath with
    | .ok text => .ok (p.1 ++ p.2 ++ text)
    | .error source => .error (.readFile patchPath source)
  else .ok (p.1 ++ p.2 ++ "__missing__")

def computeProjectPatchHash (files : FileView) (project : Project) : Result String :=
  let patched := getPatchedDependencies project
  if patched.isEmpty then .ok noPatchHash
  else do
    let texts ← patched.toList.mapM (patchText files project)
    .ok (H.hex (String.join texts))

/-- Paths are ordered by their components. -/
def pathLe (left right : PathBuf) : Bool :=
  let components (path : PathBuf) := (Text.split path (· = '/')).filter (· ≠ "")
  (List.compareLex compare (components left) (components right)).isLE

def computeWorkspacePatchHash (files : FileView) (workspace : Workspace) : Result String := do
  let projects := workspace.projects.mergeSort fun left right => pathLe left.root right.root
  let hashes ← projects.mapM (computeProjectPatchHash H files)
  if hashes.any (· ≠ noPatchHash) then
    .ok (H.hex (String.join (List.zipWith (fun project hash => project.root ++ hash)
      projects hashes)))
  else .ok noPatchHash

def buildProjectIntegrityState (files : FileView) (project : Project) (graph : ResolutionGraph) :
    Result IntegrityState := do
  let patchHash ← computeProjectPatchHash H files project
  .ok ⟨computeLockfileHash H graph, patchHash⟩

def buildWorkspaceIntegrityState (files : FileView) (workspace : Workspace)
    (graph : ResolutionGraph) : Result IntegrityState := do
  let patchHash ← computeWorkspacePatchHash H files workspace
  .ok ⟨computeLockfileHash H graph, patchHash⟩

def integrityContent (state : IntegrityState) : String :=
  "lockfile: " ++ state.lockfileHash ++ "\npatches: " ++ state.patchHash ++ "\n"

def legacyIntegrityContent (state : IntegrityState) : String :=
  "lockfile: " ++ state.lockfileHash ++ "\n"

def integrityPath (root : PathBuf) : PathBuf :=
  (root.join "node_modules").join ".snpm-integrity"

/-- The record matches, also in the form written before patches were recorded. -/
def checkIntegrityPath (files : FileView) (root : PathBuf) (state : IntegrityState) : Bool :=
  match files.read (integrityPath root) with
  | .error _ => false
  | .ok content => content = integrityContent state ||
      (state.patchHash = noPatchHash && content = legacyIntegrityContent state)

theorem newline_not_mem_hex (H : Digest.Hash) (text : String) : '\n' ∉ (H.hex text).toList :=
  H.not_mem_of_not_digit text (by decide)

/-- The first line holds the graph digest, the rest is what follows it. -/
theorem record_inj {H : Digest.Hash} {s t u v : String}
    (h : "lockfile: " ++ H.hex s ++ ("\n" ++ u) = "lockfile: " ++ H.hex t ++ ("\n" ++ v)) :
    s = t ∧ u = v := by
  have hlist := congrArg String.toList h
  simp only [String.toList_append, List.append_assoc] at hlist
  have hlines := List.append_cancel_left hlist
  obtain ⟨hhash, hrest⟩ := Framing.split_at_stop (newline_not_mem_hex H s)
    (newline_not_mem_hex H t) (by simpa using hlines)
  exact ⟨H.injective (String.toList_inj.mp hhash), String.toList_inj.mp hrest⟩

theorem integrityContent_eq (state : IntegrityState) : integrityContent state =
    "lockfile: " ++ state.lockfileHash ++ ("\n" ++ ("patches: " ++ state.patchHash ++ "\n")) := by
  have hline : "\npatches: " = "\n" ++ "patches: " := by decide
  simp only [integrityContent, hline, String.append_assoc]

/-- A record written for one state is accepted for exactly that state. -/
theorem checkIntegrityPath_iff {H : Digest.Hash} {files : FileView} {root : PathBuf}
    {s t u v : String}
    (hread : files.read (integrityPath root) = .ok (integrityContent ⟨H.hex s, u⟩)) :
    checkIntegrityPath files root ⟨H.hex t, v⟩ = true ↔ s = t ∧ u = v := by
  simp only [checkIntegrityPath, hread, Bool.or_eq_true, Bool.and_eq_true, decide_eq_true_eq]
  constructor
  · rintro (hcontent | ⟨-, hlegacy⟩)
    · rw [integrityContent_eq, integrityContent_eq] at hcontent
      obtain ⟨rfl, hrest⟩ := record_inj hcontent
      have hlist := congrArg String.toList hrest
      simp only [String.toList_append, List.append_assoc] at hlist
      exact ⟨rfl, String.toList_inj.mp
        (List.append_cancel_right (List.append_cancel_left hlist))⟩
    · rw [integrityContent_eq, legacyIntegrityContent, ← String.append_empty (s := "\n")] at hlegacy
      obtain ⟨-, hrest⟩ := record_inj hlegacy
      exact absurd (congrArg String.toList hrest) (by simp)
  · rintro ⟨rfl, rfl⟩
    exact .inl rfl

end Snpm.Install
