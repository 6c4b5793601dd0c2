import Mathlib
import Snpm.Error
import Snpm.Lockfile
import Snpm.Project

/-!
What an installation finds on disk. Files that hold structured data are seen
through their decoders (YAML, JSON and the binary encodings), so a file that
is missing or does not decode is `none` or an error here.
-/
namespace Snpm.Install

/-- Identifies the text of a lockfile by its path, length and change time. -/
structure SnapshotSource where
  path : PathBuf
  length : Nat
  modifiedSeconds : Nat
  modifiedNanoseconds : Nat
deriving DecidableEq

inductive LayoutCheck where
  | pathExists (path : PathBuf)
  | mtime (path : PathBuf) (seconds nanoseconds : Nat)
  | symlinkTarget (link target : PathBuf)
deriving DecidableEq

structure LayoutSnapshot where
  layoutHash : String
  checks : List LayoutCheck

structure InstallStateFile where
  version : Nat
  source : SnapshotSource
  rootSpecsHash : String
  graph : ResolutionGraph
  layout : LayoutSnapshot

structure GraphSnapshot where
  version : Nat
  source : SnapshotSource
  rootSpecsHash : String
  graph : ResolutionGraph

/-- The older layout record, kept in the place of the install state. -/
structure LayoutState where
  version : Nat
  layout : LayoutSnapshot

structure Metadata where
  length : Nat
  modifiedSeconds : Nat
  modifiedNanoseconds : Nat

structure FileView where
  isFile : PathBuf → Bool
  isDir : PathBuf → Bool
  read : PathBuf → Except String String
  metadata : PathBuf → Option Metadata
  readLink : PathBuf → Option PathBuf
  canonicalize : PathBuf → Except String PathBuf
  /-- Whether listing a directory yields an entry. -/
  hasEntry : PathBuf → Bool
  installState : PathBuf → Option InstallStateFile
  layoutState : PathBuf → Option LayoutState
  graphSnapshot : PathBuf → Option GraphSnapshot
  lockfile : PathBuf → Result Lockfile
  overridesConfig : PathBuf → Result (Option (BTreeMap String String))
  catalogConfig : PathBuf → Result (Option CatalogConfig)
  /-- The workspace a directory belongs to. -/
  discover : PathBuf → Result (Option Workspace)
  detectCompatible : PathBuf → Option CompatibleLockfile
  compatible : CompatibleLockfile → Result Lockfile
  /-- The root of a stored package as the residency index records it. -/
  indexedRoot : PackageId → Option PathBuf
  /-- The root of a stored package found by looking into its directory. -/
  packageRootDir : PathBuf → PathBuf

def SnapshotSource.capture (files : FileView) (path : PathBuf) : Option SnapshotSource :=
  (files.metadata path).map fun m => ⟨path, m.length, m.modifiedSeconds, m.modifiedNanoseconds⟩

def captureSource (files : FileView) (path : PathBuf) : Result SnapshotSource :=
  match SnapshotSource.capture files path with
  | some source => .ok source
  | none => .error (.readFile path "No such file or directory (os error 2)")

theorem capture_of_captureSource {files : FileView} {path : PathBuf} {source : SnapshotSource}
    (h : captureSource files path = .ok source) :
    SnapshotSource.capture files path = some source := by
  unfold captureSource at h
  split at h
  next found hfound =>
      cases h
      exact hfound
  next => cases h

def packagePathReady (files : FileView) (path : PathBuf) : Bool :=
  files.isDir path && (files.isFile (path.join ".snpm-package-metadata.json") || files.hasEntry path)

def parentDir (path : PathBuf) : Option PathBuf :=
  (Text.rsplitOnce path (· = '/')).map fun (before, _) => if before = "" then "/" else before

def resolveSymlinkTarget (link target : PathBuf) : PathBuf :=
  if Text.startsWith target "/" then target
  else ((parentDir link).map fun parent => PathBuf.join parent target).getD target

def LayoutCheck.validate (files : FileView) : LayoutCheck → Bool
  | .pathExists path => packagePathReady files path
  | .mtime path seconds nanoseconds =>
      match files.metadata path with
      | none => false
      | some m => m.modifiedSeconds = seconds && m.modifiedNanoseconds = nanoseconds
  | .symlinkTarget link target =>
      match files.readLink link with
      | none => false
      | some current => current = target && packagePathReady files (resolveSymlinkTarget link target)

def installStatePath (root : PathBuf) : PathBuf := root.join ".snpm-install-state"

/-- A disk with nothing on it. -/
def emptyView : FileView where
  isFile _ := false
  isDir _ := false
  read _ := .error "No such file or directory (os error 2)"
  metadata _ := none
  readLink _ := none
  canonicalize _ := .error "No such file or directory (os error 2)"
  hasEntry _ := false
  installState _ := none
  layoutState _ := none
  graphSnapshot _ := none
  lockfile path := .error (.readFile path "No such file or directory (os error 2)")
  overridesConfig _ := .ok none
  catalogConfig _ := .ok none
  discover _ := .ok none
  detectCompatible _ := none
  compatible source := .error (.readFile source.path "No such file or directory (os error 2)")
  indexedRoot _ := none
  packageRootDir path := path

end Snpm.Install
