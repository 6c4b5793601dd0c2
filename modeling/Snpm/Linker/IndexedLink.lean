import Mathlib
import Snpm.Error
import Snpm.Store.PersistedIndex

/-!
Linking a store package into place: the directories and files to create are taken
from the stored index, or from a walk of the tree where there is none.
-/
namespace Snpm.Linker

open DirTree Snpm.Store

section Model

/-- The directories to create, and each file with the place it is linked to. -/
structure LinkOps where
  directories : List OsPath
  files : List (OsPath × OsPath)
deriving DecidableEq

inductive LinkDirError where
  | symlink (path : OsPath)
deriving DecidableEq

def joinName (base : OsPath) (name : OsName) : OsPath := joinPath base [.normal name]

def indexedLinkOps {L : Type} (world : MetadataWorld) (source dest : OsPath)
    (package : StoredPackage L) : Option LinkOps :=
  (readPackageFilesystemShapeLossy world source package).map fun shape =>
    ⟨dest :: shape.directories.map (joinPath dest ·),
      shape.files.map fun relative => (joinPath source relative, joinPath dest relative)⟩

def collectLinkOps {L : Type} : Listing OsName FileContent L → OsPath → OsPath →
    Except LinkDirError LinkOps
  | .nil, _, _ => .ok ⟨[], []⟩
  | .link name _ _, source, _ => .error (.symlink (joinName source name))
  | .file name _ rest, source, dest =>
      (collectLinkOps rest source dest).map fun ops =>
        ⟨ops.directories, (joinName source name, joinName dest name) :: ops.files⟩
  | .dir name entries rest, source, dest =>
      (collectLinkOps entries (joinName source name) (joinName dest name)).bind fun inner =>
        (collectLinkOps rest source dest).map fun ops =>
          ⟨joinName dest name :: inner.directories ++ ops.directories, inner.files ++ ops.files⟩

/-- The operations of a walk: the target itself comes first. -/
def scannedLinkOps {L : Type} (source dest : OsPath) (package : StoredPackage L) :
    Except LinkDirError LinkOps :=
  (collectLinkOps package.entries source dest).map fun ops => ⟨dest :: ops.directories, ops.files⟩

/-- The operations of `link_dir`. -/
def linkOps {L : Type} (world : MetadataWorld) (source dest : OsPath) (package : StoredPackage L) :
    Except LinkDirError LinkOps :=
  match indexedLinkOps world source dest package with
  | some ops => .ok ops
  | none => scannedLinkOps source dest package

end Model

variable {L : Type} {entries : Listing OsName FileContent L} {source dest : OsPath}

theorem joinName_eq (base : OsPath) (name : OsName) : joinName base name = base ++ [.normal name] := by
  simp [joinName, joinPath]

theorem joinPath_names (base : OsPath) (relative : RelPath) :
    joinPath base (relative.map .normal) = below base relative := by
  cases relative with
  | nil => simp [joinPath, below]
  | cons name rest => simp [joinPath, below]

theorem below_nil (base : OsPath) : below base [] = base := by
  simp [below]

theorem below_cons (base : OsPath) (name : OsName) (rest : RelPath) :
    below base (name :: rest) = below (base ++ [.normal name]) rest := by
  simp [below]

theorem below_injective (base : OsPath) : Function.Injective (below base) := by
  intro p q h
  refine List.map_injective_iff.mpr (fun a b hab => ?_) (List.append_cancel_left h)
  cases hab
  rfl

/-- Without links the walk creates every directory and links every file. -/
theorem collectLinkOps_eq (hlinks : entries.linkFree = true) (source dest : OsPath) :
    collectLinkOps entries source dest = .ok ⟨entries.dirPaths.map (below dest),
      entries.filePaths.map fun path => (below source path, below dest path)⟩ := by
  induction entries generalizing source dest with
  | nil => rfl
  | link name target rest ih => cases hlinks
  | file name content rest ih =>
      simp only [collectLinkOps, ih hlinks, Except.map, joinName_eq]
      rfl
  | dir name inner rest ihInner ihRest =>
      have hboth := Bool.and_eq_true_iff.mp hlinks
      simp only [collectLinkOps, ihInner hboth.1, ihRest hboth.2, Except.bind, Except.map,
        joinName_eq, Listing.dirPaths, Listing.filePaths, List.map_cons, List.map_append,
        List.map_map, Function.comp_def, below_cons, below_nil, List.cons_append]

/-- Two operations that create the same directories and link the same files. -/
def SameOps (first second : LinkOps) : Prop :=
  (∀ directory, directory ∈ first.directories ↔ directory ∈ second.directories) ∧
    ∀ file, file ∈ first.files ↔ file ∈ second.files

/-- No directory bears the metadata file's name, and a file bears it only in the root
or beside a package.json. -/
def MetadataNamesCovered (entries : Listing OsName FileContent L) : Prop :=
  (∀ parent : RelPath, parent ++ [metadataFile] ∉ entries.dirPaths) ∧
    ∀ parent : RelPath, parent ++ [metadataFile] ∈ entries.filePaths →
      parent = [] ∨ parent ++ [packageJson] ∈ entries.filePaths

section Agreement

variable {package stored : StoredPackage L} {index : PackageTreeIndex}

/-- The paths of the index are made of names that a directory can hold. -/
theorem TreeIndexes.segments (tree : PackageTree L) (hindex : TreeIndexes tree.entries index)
    {path : RelPath} (hpath : path ∈ index.filesystem.directories ∨ path ∈ index.filesystem.files) :
    path ≠ [] ∧ ∀ name ∈ path, PathText.Segment 47 46 name := by
  have hmetadata : ∀ rest : RelPath, (∀ name ∈ rest, PathText.Segment 47 46 name) →
      rest ++ [metadataFile] ≠ [] ∧
        ∀ name ∈ rest ++ [metadataFile], PathText.Segment 47 46 name := by
    refine fun rest hrest => ⟨by simp, fun name hname => ?_⟩
    cases List.mem_append.mp hname with
    | inl hname => exact hrest name hname
    | inr hname => exact List.mem_singleton.mp hname ▸ metadataFile_segment
  cases hpath with
  | inl hpath =>
      obtain ⟨hne, hnames⟩ := Listing.mem_dirPaths ((hindex.directories path).mp hpath).1
      exact ⟨hne, fun name hname => tree.named name (hnames name hname)⟩
  | inr hpath =>
      obtain ⟨hfile, -⟩ | rfl | ⟨nested, hnested, rfl⟩ := (hindex.files path).mp hpath
      · obtain ⟨hne, hnames⟩ := Listing.mem_filePaths hfile
        exact ⟨hne, fun name hname => tree.named name (hnames name hname)⟩
      · exact hmetadata [] (by simp)
      · obtain ⟨-, hnames⟩ := Listing.mem_filePaths hnested.2.1
        exact hmetadata nested fun name hname =>
          tree.named name (hnames name (List.mem_append_left _ hname))

/-- The index that was stored is replayed path by path. -/
theorem indexedLinkOps_persisted {world : MetadataWorld} {met : List RelPath}
    (hsegments : ∀ path, path ∈ index.filesystem.directories ∨ path ∈ index.filesystem.files →
      path ≠ [] ∧ ∀ name ∈ path, PathText.Segment 47 46 name)
    (hfile : index.filesystem.files ≠ [])
    (h : Persisted entries source index.filesystem met stored) (dest : OsPath) :
    indexedLinkOps world source dest stored = some
      ⟨dest :: index.filesystem.directories.map (below dest),
        index.filesystem.files.map fun path => (below source path, below dest path)⟩ := by
  obtain ⟨metadata, document, hdocument, hfilesystem, hnamed⟩ := h.document
  obtain ⟨hdirectories, hfiles⟩ := toDocument_filesystem hdocument
  rw [hfilesystem] at hdirectories hfiles
  have hdirectoryMap := map_deserializePath (fun path hpath => hsegments path (.inl hpath))
    hdirectories
  have hfileMap := map_deserializePath (fun path hpath => hsegments path (.inr hpath)) hfiles
  have hcache : stored.cache.lookup source = none :=
    List.lookup_eq_none_iff.mpr fun cached hcached => by
      simpa using (h.uncached cached hcached).symm
  have hshape : document.filesystem.isEmpty = false := by
    have hne : document.filesystem.files ≠ [] := by
      intro hnil
      rw [hnil, List.map_nil] at hfileMap
      exact hfile (List.map_eq_nil_iff.mp hfileMap.symm)
    simp [PackageFilesystemShape.isEmpty, hne]
  simp only [indexedLinkOps, readPackageFilesystemShapeLossy, cachedMetadataLookup, hcache,
    readMetadataLossy, hnamed, Option.bind_some, hshape, Bool.false_eq_true, if_false,
    hdirectoryMap, hfileMap, Option.map_some, List.map_map, Function.comp_def, joinPath_names]

theorem sameOps_iff {directories directories' files files' : List RelPath}
    (hne : ∀ path ∈ directories, path ≠ []) (hne' : ∀ path ∈ directories', path ≠ []) :
    SameOps
        ⟨dest :: directories.map (below dest),
          files.map fun path => (below source path, below dest path)⟩
        ⟨dest :: directories'.map (below dest),
          files'.map fun path => (below source path, below dest path)⟩ ↔
      (∀ path, path ∈ directories ↔ path ∈ directories') ∧ ∀ path, path ∈ files ↔ path ∈ files' := by
  have hroot : ∀ path : RelPath, below dest path = dest → path = [] := fun path h =>
    below_injective dest (h.trans (below_nil dest).symm)
  have hdirectory : ∀ (paths : List RelPath), (∀ path ∈ paths, path ≠ []) → ∀ path : RelPath,
      path ≠ [] → (below dest path ∈ dest :: paths.map (below dest) ↔ path ∈ paths) := by
    intro paths hpaths path hpath
    rw [List.mem_cons, List.mem_map_of_injective (below_injective dest)]
    exact or_iff_right fun h => hpath (hroot path h)
  have hpair : Function.Injective fun path => (below source path, below dest path) :=
    fun first second h => below_injective source (congrArg Prod.fst h)
  constructor
  · rintro ⟨hdirectories, hfiles⟩
    refine ⟨fun path => ?_, fun path => ?_⟩
    · by_cases hpath : path = []
      · subst hpath
        exact ⟨fun h => absurd rfl (hne [] h), fun h => absurd rfl (hne' [] h)⟩
      · rw [← hdirectory directories hne path hpath, ← hdirectory directories' hne' path hpath]
        exact hdirectories (below dest path)
    · have h := hfiles (below source path, below dest path)
      rwa [List.mem_map_of_injective hpair, List.mem_map_of_injective hpair] at h
  · rintro ⟨hdirectories, hfiles⟩
    refine ⟨fun directory => ?_, fun file => ?_⟩
    · simp only [List.mem_cons, List.mem_map, hdirectories]
    · simp only [List.mem_map, hfiles]

/-- The index lists what the tree holds just when the skipped names are all covered. -/
theorem index_lists_tree_iff (hindex : TreeIndexes entries index)
    (h : Persisted entries source index.filesystem index.nestedPackageRoots stored) :
    ((∀ path, path ∈ index.filesystem.directories ↔ path ∈ stored.entries.dirPaths) ∧
        ∀ path, path ∈ index.filesystem.files ↔ path ∈ stored.entries.filePaths) ↔
      MetadataNamesCovered entries := by
  simp only [hindex.directories, hindex.files, h.directories, h.files, hindex.nested]
  constructor
  · rintro ⟨hdirectories, hfiles⟩
    refine ⟨fun parent hparent => ?_, fun parent hparent => ?_⟩
    · exact ((hdirectories _).mpr hparent).2 (by simp)
    · obtain ⟨-, hnot⟩ | hroot | ⟨nested, hnested, heq⟩ := (hfiles _).mpr (.inl hparent)
      · exact absurd (by simp) hnot
      · exact .inl (by simpa using hroot)
      · rw [List.append_cancel_right heq]
        exact .inr hnested.2.1
  · rintro ⟨hdirectories, hfiles⟩
    have hnot : ∀ path ∈ entries.dirPaths, metadataFile ∉ path := by
      intro path hpath hmem
      obtain ⟨before, after, rfl⟩ := List.append_of_mem hmem
      have happend : (before ++ [metadataFile]) ++ after ∈ entries.dirPaths := by simpa using hpath
      exact hdirectories before (Listing.dirPaths_of_append (by simp) happend)
    refine ⟨fun path => and_iff_left_of_imp (hnot path), fun path => ⟨?_, ?_⟩⟩
    · rintro (hpath | hrest)
      · exact .inl hpath.1
      · exact .inr hrest
    · rintro (hpath | hrest)
      · by_cases hmem : metadataFile ∈ path
        · obtain ⟨before, after, rfl⟩ := List.append_of_mem hmem
          cases after with
          | nil =>
              by_cases hbefore : before = []
              · subst hbefore
                exact .inr (.inl rfl)
              · have hpackage := (hfiles before hpath).resolve_left hbefore
                have hdir := Listing.dirPaths_of_filePaths hbefore (by simp) hpackage
                exact .inr (.inr ⟨before, ⟨hbefore, hpackage, hnot before hdir⟩, rfl⟩)
          | cons next after =>
              have happend : (before ++ [metadataFile]) ++ (next :: after) ∈ entries.filePaths := by
                simpa using hpath
              exact absurd (Listing.dirPaths_of_filePaths (by simp) (by simp) happend)
                (hdirectories before)
        · exact .inl ⟨hpath, hmem⟩
      · exact .inr hrest

theorem persisted_index_agrees_iff (world : MetadataWorld) (packageDir packageRoot dest : OsPath)
    (tree : PackageTree L) (storeFile : Option MetadataDocument)
    (cache : List (OsPath × Option MetadataDocument)) (stored : StoredPackage L)
    (h : persistPackageMetadata world packageDir packageRoot ⟨tree.entries, storeFile, cache⟩ =
      .ok stored) :
    ∃ indexed scanned, indexedLinkOps world packageRoot dest stored = some indexed ∧
      scannedLinkOps packageRoot dest stored = .ok scanned ∧
        (SameOps indexed scanned ↔ MetadataNamesCovered tree.entries) := by
  obtain ⟨index, hindex, hpersisted⟩ := persistPackageMetadata_ok tree.linkFree h
  have hfile : index.filesystem.files ≠ [] :=
    List.ne_nil_of_mem ((hindex.files [metadataFile]).mpr (.inr (.inl rfl)))
  have hsegments : ∀ path, path ∈ index.filesystem.directories ∨ path ∈ index.filesystem.files →
      path ≠ [] ∧ ∀ name ∈ path, PathText.Segment 47 46 name :=
    fun path hpath => TreeIndexes.segments tree hindex hpath
  have hscanned := collectLinkOps_eq hpersisted.linkFree packageRoot dest
  refine ⟨_, _, indexedLinkOps_persisted hsegments hfile hpersisted dest,
    by rw [scannedLinkOps, hscanned, Except.map], ?_⟩
  rw [sameOps_iff (fun path hpath => (hsegments path (.inl hpath)).1)
    fun path hpath => (Listing.mem_dirPaths hpath).1]
  exact index_lists_tree_iff hindex hpersisted

end Agreement

section Example

def osName (name : String) : OsName := Text.utf8 name

/-- A JSON reader that takes no file for a manifest, and writes that all succeed. -/
def plainWorld : MetadataWorld := ⟨fun _ => none, fun _ => none, fun _ => none⟩

def storeDir : OsPath := [.rootDir, .normal (osName "store"), .normal (osName "pkg")]

def slotDir : OsPath := [.rootDir, .normal (osName "slot")]

/-- A package with a fixture that bears the metadata file's name. -/
def fixturePackage : PackageTree Unit where
  entries := .file packageJson (.bytes [])
    (.dir (osName "fixtures") (.file metadataFile (.bytes []) .nil) .nil)
  distinct := ⟨by decide +kernel, by decide +kernel, ⟨by decide +kernel, trivial⟩, trivial⟩
  named := by
    have h : ∀ name ∈ [packageJson, osName "fixtures", metadataFile],
        name ≠ [] ∧ name ≠ [46] ∧ name ≠ [46, 46] ∧ 47 ∉ name := by decide +kernel
    exact fun name hname =>
      ⟨(h name hname).1, (h name hname).2.1, (h name hname).2.2.1, (h name hname).2.2.2⟩
  linkFree := rfl

def persistedFixture : Option (StoredPackage Unit) :=
  (persistPackageMetadata plainWorld storeDir storeDir ⟨fixturePackage.entries, none, []⟩).toOption

theorem persistedFixture_index_agrees_iff : ∃ stored, persistedFixture = some stored ∧
    ∃ indexed scanned, indexedLinkOps plainWorld storeDir slotDir stored = some indexed ∧
      scannedLinkOps storeDir slotDir stored = .ok scanned ∧
        (SameOps indexed scanned ↔ MetadataNamesCovered fixturePackage.entries) := by
  have hsome : persistedFixture.isSome = true := by decide +kernel
  obtain ⟨stored, hstored⟩ := Option.isSome_iff_exists.mp hsome
  exact ⟨stored, hstored, persisted_index_agrees_iff plainWorld storeDir storeDir slotDir
    fixturePackage none [] stored (toOption_eq_some hstored)⟩

/-- The walk links the fixture, and the index has lost it. -/
theorem fixture_lost :
    (persistedFixture.bind fun stored =>
        (scannedLinkOps storeDir slotDir stored).toOption.map fun ops =>
          ops.files.map Prod.snd) =
      some [below slotDir [packageJson], below slotDir [osName "fixtures", metadataFile],
        below slotDir [metadataFile]] ∧
    (persistedFixture.bind fun stored =>
        (indexedLinkOps plainWorld storeDir slotDir stored).map fun ops =>
          ops.files.map Prod.snd) =
      some [below slotDir [metadataFile], below slotDir [packageJson]] := by
  decide +kernel

end Example

end Snpm.Linker
