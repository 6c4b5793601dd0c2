import Mathlib
import Snpm.Library.DirTree
import Snpm.Library.Neighbours
import Snpm.Library.PathText
import Snpm.Library.Utf8
import Snpm.Resolve.Types

/-!
The metadata file of a store package and the index of the package's files that it
holds. Names are bytes, and a path is told by its components.
-/
namespace Snpm.Store

open DirTree

abbrev OsName := List UInt8

/-- A path below a package root. -/
abbrev RelPath := List OsName

abbrev OsPath := List (PathText.Component UInt8)

/-- `Path::join`: an absolute path takes the place of the base. -/
def joinPath (base path : OsPath) : OsPath :=
  if path.head? = some .rootDir then path else base ++ path

def metadataFile : OsName := Text.utf8 ".snpm-package-metadata.json"

def packageJson : OsName := Text.utf8 "package.json"

structure PackageFilesystemShape (P : Type) where
  directories : List P
  files : List P
deriving DecidableEq

def PackageFilesystemShape.isEmpty {P : Type} (shape : PackageFilesystemShape P) : Bool :=
  shape.directories.isEmpty && shape.files.isEmpty

structure PackageStoreMetadata (P : Type) where
  rootRelativePath : Option String
  name : Option String
  version : Option String
  bundledDependencies : Option BundledDependencies
  hasBin : Bool
  bin : Option BinField
  filesystem : PackageFilesystemShape P
deriving DecidableEq

def PackageStoreMetadata.withFilesystem {P Q : Type} (metadata : PackageStoreMetadata P)
    (filesystem : PackageFilesystemShape Q) : PackageStoreMetadata Q :=
  ⟨metadata.rootRelativePath, metadata.name, metadata.version, metadata.bundledDependencies,
    metadata.hasBin, metadata.bin, filesystem⟩

/-- What a metadata file says: its paths are strings. -/
abbrev MetadataDocument := PackageStoreMetadata String

/-- A file as it was unpacked, or a metadata file that was written. -/
inductive FileContent where
  | bytes (data : List UInt8)
  | document (metadata : MetadataDocument)
deriving DecidableEq

structure ManifestFacts where
  name : Option String
  version : Option String
  bin : Option BinField
  bundledDependencies : Option BundledDependencies
  bundleDependencies : Option BundledDependencies

/-- The JSON reader on the bytes of a package's files, and the writes that fail. -/
structure MetadataWorld where
  parseManifest : List UInt8 → Option ManifestFacts
  parseMetadata : List UInt8 → Option MetadataDocument
  writeError : OsPath → Option String

inductive IndexError where
  | symlink (path : OsPath)
  | serializeJson (path : OsPath)
  | writeFile (path : OsPath) (reason : String)
deriving DecidableEq

/-- A package root without links, with the names that a directory can hold. -/
structure PackageTree (L : Type) where
  entries : Listing OsName FileContent L
  distinct : entries.Distinct
  named : ∀ name ∈ entries.allNames, PathText.Segment 47 46 name
  linkFree : entries.linkFree = true

/-- A package of the store: the tree of its root, the metadata file of the package
directory where the root lies deeper, and the process's cache of metadata files. -/
structure StoredPackage (L : Type) where
  entries : Listing OsName FileContent L
  storeFile : Option MetadataDocument
  cache : List (OsPath × Option MetadataDocument)

def invalidateCachedMetadata (packageRoot : OsPath)
    (cache : List (OsPath × Option MetadataDocument)) : List (OsPath × Option MetadataDocument) :=
  cache.filter fun cached => cached.1 ≠ packageRoot

section Index

def below (packageRoot : OsPath) (relative : RelPath) : OsPath :=
  packageRoot ++ relative.map .normal

structure PackageTreeIndex where
  filesystem : PackageFilesystemShape RelPath
  nestedPackageRoots : List RelPath

/-- `sort` and then `dedup`, on paths. -/
def sortDedup (paths : List RelPath) : List RelPath :=
  Neighbours.dedup (paths.insertionSort fun a b => (compare a b).isLE = true)

theorem mem_sortDedup_iff {path : RelPath} (paths : List RelPath) :
    path ∈ sortDedup paths ↔ path ∈ paths := by
  rw [sortDedup, Neighbours.mem_dedup_iff, List.mem_insertionSort]

/-- The lists are sorted only when the walk is over. -/
def collectDirectoryShape {L : Type} (packageRoot : OsPath) :
    Listing OsName FileContent L → RelPath → Except IndexError PackageTreeIndex
  | .nil, _ => .ok ⟨⟨[], []⟩, []⟩
  | .file name _ rest, relative =>
      if name = metadataFile then collectDirectoryShape packageRoot rest relative
      else
        (collectDirectoryShape packageRoot rest relative).map fun index =>
          ⟨⟨index.filesystem.directories, (relative ++ [name]) :: index.filesystem.files⟩,
            if name = packageJson ∧ relative ≠ [] then relative :: index.nestedPackageRoots
            else index.nestedPackageRoots⟩
  | .link name _ rest, relative =>
      if name = metadataFile then collectDirectoryShape packageRoot rest relative
      else .error (.symlink (below packageRoot (relative ++ [name])))
  | .dir name entries rest, relative =>
      if name = metadataFile then collectDirectoryShape packageRoot rest relative
      else
        (collectDirectoryShape packageRoot entries (relative ++ [name])).bind fun inner =>
          (collectDirectoryShape packageRoot rest relative).map fun index =>
            ⟨⟨(relative ++ [name]) :: inner.filesystem.directories ++ index.filesystem.directories,
                inner.filesystem.files ++ index.filesystem.files⟩,
              inner.nestedPackageRoots ++ index.nestedPackageRoots⟩

def collectPackageTreeIndex {L : Type} (packageRoot : OsPath)
    (entries : Listing OsName FileContent L) : Except IndexError PackageTreeIndex :=
  (collectDirectoryShape packageRoot entries []).map fun index =>
    let nestedPackageRoots := sortDedup index.nestedPackageRoots
    let files := index.filesystem.files ++
      [metadataFile] :: nestedPackageRoots.map fun nested => nested ++ [metadataFile]
    ⟨⟨sortDedup index.filesystem.directories,
      sortDedup files⟩, nestedPackageRoots⟩

end Index

section Persist

def manifestFacts (world : MetadataWorld) : FileContent → Option ManifestFacts
  | .bytes data => world.parseManifest data
  | .document metadata =>
      some ⟨metadata.name, metadata.version, metadata.bin, metadata.bundledDependencies, none⟩

def collectManifestFacts {L : Type} (world : MetadataWorld)
    (entries : Listing OsName FileContent L) (relative : RelPath) :
    PackageStoreMetadata RelPath :=
  match ((entries.dirAt relative).bind (·.fileNamed packageJson)).bind (manifestFacts world) with
  | none => ⟨none, none, none, none, false, none, ⟨[], []⟩⟩
  | some manifest =>
      ⟨none, manifest.name, manifest.version,
        manifest.bundledDependencies.or manifest.bundleDependencies,
        manifest.bin.isSome, manifest.bin, ⟨[], []⟩⟩

/-- A path is written as a string only if its bytes are one. -/
def serializePath (path : RelPath) : Option String :=
  String.fromUTF8? ⟨([47].intercalate path).toArray⟩

def deserializePath (text : String) : OsPath := PathText.components 47 46 (Text.utf8 text)

def toDocument (metadata : PackageStoreMetadata RelPath) : Option MetadataDocument :=
  (metadata.filesystem.directories.mapM serializePath).bind fun directories =>
    (metadata.filesystem.files.mapM serializePath).map fun files =>
      metadata.withFilesystem ⟨directories, files⟩

/-- The file system itself refuses to overwrite a directory. -/
def writeMetadata {S : Type} (world : MetadataWorld) (path : OsPath)
    (metadata : PackageStoreMetadata RelPath) (write : MetadataDocument → Option S) :
    Except IndexError S :=
  match toDocument metadata with
  | none => .error (.serializeJson path)
  | some document =>
    match world.writeError path, write document with
    | some reason, _ => .error (.writeFile path reason)
    | none, none => .error (.writeFile path "Is a directory (os error 21)")
    | none, some written => .ok written

def writeBelow {L : Type} (world : MetadataWorld) (packageRoot : OsPath)
    (package : StoredPackage L) (relative : RelPath) (metadata : PackageStoreMetadata RelPath) :
    Except IndexError (StoredPackage L) :=
  (writeMetadata world (below packageRoot (relative ++ [metadataFile])) metadata fun document =>
    package.entries.putAt metadataFile (.document document) relative).map fun entries =>
      ⟨entries, package.storeFile,
        invalidateCachedMetadata (below packageRoot relative) package.cache⟩

def rootRelativePath (packageDir packageRoot : OsPath) : Option (List OsName) :=
  if packageDir.isPrefixOf packageRoot then
    match packageRoot.drop packageDir.length with
    | [] => none
    | relative => some (relative.map fun
      | .normal name => name
      | .rootDir => [47]
      | .curDir => [46]
      | .parentDir => [46, 46])
  else none

def persistPackageMetadata {L : Type} (world : MetadataWorld) (packageDir packageRoot : OsPath)
    (package : StoredPackage L) : Except IndexError (StoredPackage L) := do
  let treeIndex ← collectPackageTreeIndex packageRoot package.entries
  let rootMetadata :=
    (collectManifestFacts world package.entries []).withFilesystem treeIndex.filesystem
  let package ← writeBelow world packageRoot package [] rootMetadata
  let package ← treeIndex.nestedPackageRoots.foldlM (fun package nested =>
    writeBelow world packageRoot package nested
      (collectManifestFacts world package.entries nested)) package
  match rootRelativePath packageDir packageRoot with
  | none => .ok package
  | some relative =>
    if packageDir = packageRoot then .ok package
    else do
      let storeMetadata : PackageStoreMetadata RelPath :=
        { rootMetadata with
          rootRelativePath := some (Text.fromUtf8Lossy ([47].intercalate relative))
          filesystem := ⟨[], []⟩ }
      let document ← writeMetadata world (packageDir ++ [.normal metadataFile]) storeMetadata some
      .ok ⟨package.entries, some document, invalidateCachedMetadata packageDir package.cache⟩

end Persist

section Read

def readMetadataLossy {L : Type} (world : MetadataWorld)
    (entries : Listing OsName FileContent L) : Option MetadataDocument :=
  (entries.fileNamed metadataFile).bind fun
    | .bytes data => world.parseMetadata data
    | .document metadata => some metadata

/-- The metadata of the package root, with the cache after the lookup. -/
def cachedMetadataLookup {L : Type} (world : MetadataWorld) (packageRoot : OsPath)
    (package : StoredPackage L) : Option MetadataDocument × StoredPackage L :=
  match package.cache.lookup packageRoot with
  | some cached => (cached, package)
  | none =>
    let parsed := readMetadataLossy world package.entries
    (parsed, { package with cache := (packageRoot, parsed) :: package.cache })

def readPackageFilesystemShapeLossy {L : Type} (world : MetadataWorld) (packageRoot : OsPath)
    (package : StoredPackage L) : Option (PackageFilesystemShape OsPath) :=
  (cachedMetadataLookup world packageRoot package).1.bind fun metadata =>
    if metadata.filesystem.isEmpty then none
    else some ⟨metadata.filesystem.directories.map deserializePath,
      metadata.filesystem.files.map deserializePath⟩

end Read

end Snpm.Store
