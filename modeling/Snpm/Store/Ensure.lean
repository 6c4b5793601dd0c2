import Mathlib
import Snpm.Store.BlobCache

/-!
Making sure that a package is in the store. A package directory is described by
the tarball that was unpacked into it and by its completion marker; it also
carries the integrity value of the call that unpacked it, which the store itself
does not record. A marked directory is returned as it is.
-/
namespace Snpm.Store

/-- A package directory that exists. -/
structure Slot where
  /-- The tarball whose entries are in it; none for an empty directory and for a
  copy of a local directory. -/
  tarball : Option Bytes
  /-- The integrity value of the call whose content is in it. -/
  requested : Option String
  /-- The `.snpm_complete` marker. -/
  marker : Bool
deriving DecidableEq

abbrev PackageDirs := PathBuf → Option Slot

def PackageDirs.set (dirs : PackageDirs) (dir : PathBuf) (slot : Option Slot) : PackageDirs :=
  fun d => if d = dir then slot else dirs d

/-- How unpacking a tarball ends, and whether it wrote an entry at the place of
the marker. -/
structure Unpacking where
  error : Option SnpmError
  planted : Bool

/-- What the system does while a package directory is made. -/
structure Staging where
  parentError : Option String
  createError : Option String
  stagingError : Option String
  unpacking : Unpacking
  /-- Whether the half-populated directory stays after a failure. -/
  cleanupFails : Bool
  /-- Whether the staged directory cannot be renamed over what is there. -/
  occupied : Bool
  /-- Whether what is there can be removed. -/
  removed : Bool
  renameError : Option String

inductive LocalSource where
  | directory (copyError : Option SnpmError)
  | file (content : Result Bytes)

/-- A call of `ensure_package`, with what the world does during it. -/
structure EnsureCall where
  package : ResolvedPackage
  offline : Bool
  transfer : Transfer
  permitError : Option String
  joinError : Option String
  staging : Staging
  localSource : LocalSource
  markerError : Option String
  /-- Where below its directory the package has its files. -/
  root : Option PathBuf

section Finalize

/-- `atomic_finalize_extracted_dir`. -/
def atomicFinalize (io : Staging) (finalDir : PathBuf) (staged : Slot) (dirs : PackageDirs) :
    Result Unit × PackageDirs :=
  if !io.occupied then (.ok (), dirs.set finalDir (some staged))
  else if (dirs finalDir).any (·.marker) then (.ok (), dirs)
  else
    match io.renameError with
    | none => (.ok (), dirs.set finalDir (some staged))
    | some error =>
        (.error (.writeFile finalDir error), if io.removed then dirs.set finalDir none else dirs)

/-- The content of a directory into which a tarball was unpacked. -/
def unpackedSlot (integrity : Option String) (unpacking : Unpacking) (bytes : Bytes) : Slot :=
  ⟨some bytes, integrity, unpacking.planted⟩

/-- `unpack_tarball_file`: the outcome, and what is in the directory after it. -/
def unpackTarballFile (integrity : Option String) (unpacking : Unpacking) (path : PathBuf)
    (content : Option Bytes) : Result Unit × Slot :=
  match content with
  | none => (.error (.readFile path "No such file or directory (os error 2)"), ⟨none, none, false⟩)
  | some bytes =>
      match unpacking.error with
      | some error => (.error error, unpackedSlot integrity unpacking bytes)
      | none => (.ok (), unpackedSlot integrity unpacking bytes)

def stagedFinalize (io : Staging) (integrity : Option String) (parent path finalDir : PathBuf)
    (content : Option Bytes) (dirs : PackageDirs) : Result Unit × PackageDirs :=
  match io.stagingError with
  | some error => (.error (.writeFile parent error), dirs)
  | none =>
      match unpackTarballFile integrity io.unpacking path content with
      | (.error error, _) => (.error error, dirs)
      | (.ok (), staged) => atomicFinalize io finalDir staged dirs

/-- `stage_unpack_finalize` for a remote tarball. -/
def stageUnpackFinalize (io : Staging) (integrity : Option String) (parent path finalDir : PathBuf)
    (content : Option Bytes) (dirs : PackageDirs) : Result Unit × PackageDirs :=
  match io.parentError with
  | some error => (.error (.writeFile parent error), dirs)
  | none =>
      if (dirs finalDir).isSome then stagedFinalize io integrity parent path finalDir content dirs
      else
        match io.createError with
        | some error => (.error (.writeFile finalDir error), dirs)
        | none =>
            match unpackTarballFile integrity io.unpacking path content with
            | (.error error, partly) =>
                (.error error, dirs.set finalDir (if io.cleanupFails then some partly else none))
            | (.ok (), unpacked) => (.ok (), dirs.set finalDir (some unpacked))

end Finalize

section Ensure

variable (C : Crypto) (config : SnpmConfig) (blobDir : PathBuf)

abbrev Storage := StoreState PackageDirs

def packageParent (package : ResolvedPackage) : PathBuf :=
  config.packagesDir.join (sanitizeName package.id.name)

/-- What goes into the staging directory of a local package. -/
def stageLocal (call : EnsureCall) (path : PathBuf) : Result Slot :=
  match call.localSource with
  | .directory (some error) => .error error
  | .directory none => .ok ⟨none, call.package.integrity, false⟩
  | .file content =>
      match verifyIntegrityFile C call.package.tarball call.package.integrity content with
      | .error error => .error error
      | .ok () =>
          match unpackTarballFile call.package.integrity call.staging.unpacking path
            content.toOption with
          | (.error error, _) => .error error
          | (.ok (), staged) => .ok staged

def materializeLocalPackage (call : EnsureCall) (store : Storage) : Result Unit × Storage :=
  match Text.stripPrefix call.package.tarball "file://" with
  | none => (.error (.internal "expected file:// tarball for local package materialization"), store)
  | some path =>
      match call.permitError with
      | some error => (.error (.internal
          ("extraction semaphore closed while installing local package: " ++ error)), store)
      | none =>
          match call.staging.parentError, call.staging.stagingError with
          | some error, _ | none, some error =>
              (.error (.writeFile (packageParent config call.package) error), store)
          | none, none =>
              match stageLocal C call path with
              | .error error => (.error error, store)
              | .ok staged =>
                  let (finalized, packages) := atomicFinalize call.staging
                    (packageDir config call.package) staged store.packages
                  (match call.joinError with
                    | some error => .error (.storeTask error)
                    | none => finalized, { store with packages })

def remoteExtraction (call : EnsureCall) : Extraction PackageDirs where
  permitError := call.permitError
  joinError := call.joinError
  stage content dirs := stageUnpackFinalize call.staging call.package.integrity
    (packageParent config call.package) call.package.tarball (packageDir config call.package)
    content dirs

def materializeRemotePackage (call : EnsureCall) (store : Storage) : Result Unit × Storage :=
  match downloadAndExtract C blobDir call.package.tarball call.package.integrity call.transfer
    (remoteExtraction config call) store with
  | (.error error, store) => (.error error, store)
  | (.ok tarball, store) => (.ok (), releaseTemp blobDir call.transfer tarball store)

def materialize (call : EnsureCall) (store : Storage) : Result Unit × Storage :=
  if Text.startsWith call.package.tarball "file://" then
    materializeLocalPackage C config call store
  else materializeRemotePackage C config blobDir call store

def packageRootDir (call : EnsureCall) : PathBuf :=
  match call.root with
  | none => packageDir config call.package
  | some relative => (packageDir config call.package).join relative

/-- Put the marker into an existing directory. -/
def writeMarker (call : EnsureCall) (store : Storage) : Result Unit × Storage :=
  let dir := packageDir config call.package
  match call.markerError, store.packages dir with
  | some error, _ => (.error (.writeFile (dir.join ".snpm_complete") error), store)
  | none, none => (.error (.writeFile (dir.join ".snpm_complete")
      "No such file or directory (os error 2)"), store)
  | none, some slot =>
      (.ok (), { store with packages := store.packages.set dir (some { slot with marker := true }) })

/-- `ensure_package_with_offline`. -/
def ensurePackage (call : EnsureCall) (store : Storage) : Result PathBuf × Storage :=
  if (store.packages (packageDir config call.package)).any (·.marker) then
    (.ok (packageRootDir config call), store)
  else if call.offline then
    (.error (.offlineRequired
      ("package " ++ call.package.id.name ++ "@" ++ call.package.id.version)), store)
  else
    match materialize C config blobDir call store with
    | (.error error, store) => (.error error, store)
    | (.ok (), store) =>
        match writeMarker config call store with
        | (.error error, store) => (.error error, store)
        | (.ok (), store) => (.ok (packageRootDir config call), store)

end Ensure

end Snpm.Store
