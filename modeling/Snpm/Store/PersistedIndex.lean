import Mathlib
import Snpm.Store.PackageIndex

/-!
What the index of a package tree without links holds, and what the tree and the
stored index are once the metadata has been persisted.
-/
namespace Snpm.Store

open DirTree

theorem packageJson_ne_metadataFile : packageJson ≠ metadataFile := by decide +kernel

theorem metadataFile_segment : PathText.Segment 47 46 metadataFile :=
  ⟨by decide +kernel, by decide +kernel, by decide +kernel, by decide +kernel⟩

variable {L : Type} {entries : Listing OsName FileContent L} {packageRoot : OsPath}

section Index

/-- Nothing that bears the metadata file's name is in the index, nor what lies below it. -/
structure Indexes (entries : Listing OsName FileContent L) (relative : RelPath)
    (index : PackageTreeIndex) : Prop where
  directories : ∀ path, path ∈ index.filesystem.directories ↔
    ∃ rest ∈ entries.dirPaths, metadataFile ∉ rest ∧ path = relative ++ rest
  files : ∀ path, path ∈ index.filesystem.files ↔
    ∃ rest ∈ entries.filePaths, metadataFile ∉ rest ∧ path = relative ++ rest
  nested : ∀ path, path ∈ index.nestedPackageRoots ↔
    ∃ rest, rest ++ [packageJson] ∈ entries.filePaths ∧ metadataFile ∉ rest ∧
      path = relative ++ rest ∧ path ≠ []

theorem Indexes.nil (relative : RelPath) :
    Indexes (.nil : Listing OsName FileContent L) relative ⟨⟨[], []⟩, []⟩ :=
  ⟨by simp [Listing.dirPaths], by simp [Listing.filePaths], by simp [Listing.filePaths]⟩

theorem Indexes.file_skipped {relative : RelPath} {index : PackageTreeIndex} (content : FileContent)
    (h : Indexes entries relative index) :
    Indexes (.file metadataFile content entries) relative index := by
  refine ⟨h.directories, fun path => ?_, fun path => ?_⟩
  · rw [h.files]
    simp [Listing.filePaths]
  · rw [h.nested]
    simp [Listing.filePaths, List.append_eq_singleton_iff, packageJson_ne_metadataFile]

theorem Indexes.file {relative : RelPath} {index : PackageTreeIndex} {name : OsName}
    (content : FileContent) (hname : name ≠ metadataFile) (h : Indexes entries relative index) :
    Indexes (.file name content entries) relative
      ⟨⟨index.filesystem.directories, (relative ++ [name]) :: index.filesystem.files⟩,
        if name = packageJson ∧ relative ≠ [] then relative :: index.nestedPackageRoots
        else index.nestedPackageRoots⟩ := by
  refine ⟨h.directories, fun path => ?_, fun path => ?_⟩
  · simp only [List.mem_cons, h.files, Listing.filePaths]
    constructor
    · rintro (rfl | ⟨rest, hrest, hnot, rfl⟩)
      · exact ⟨[name], .inl rfl, by simpa using hname.symm, rfl⟩
      · exact ⟨rest, .inr hrest, hnot, rfl⟩
    · rintro ⟨rest, rfl | hrest, hnot, rfl⟩
      · exact .inl rfl
      · exact .inr ⟨rest, hrest, hnot, rfl⟩
  · have hfile : ∀ rest : RelPath, rest ++ [packageJson] = [name] ↔
        rest = [] ∧ name = packageJson := by
      intro rest
      constructor
      · intro heq
        have hrest : rest = [] := by simpa using congrArg List.length heq
        subst hrest
        exact ⟨rfl, (List.cons.inj heq).1.symm⟩
      · rintro ⟨rfl, rfl⟩
        rfl
    simp only [Listing.filePaths, List.mem_cons, hfile]
    split
    · rename_i hpackage
      obtain ⟨rfl, hrelative⟩ := hpackage
      simp only [List.mem_cons, h.nested]
      constructor
      · rintro (rfl | ⟨rest, hrest, hnot, heq, hne⟩)
        · exact ⟨[], .inl ⟨rfl, trivial⟩, by simp, by simp, hrelative⟩
        · exact ⟨rest, .inr hrest, hnot, heq, hne⟩
      · rintro ⟨rest, ⟨rfl, -⟩ | hrest, hnot, heq, hne⟩
        · exact .inl (by simpa using heq)
        · exact .inr ⟨rest, hrest, hnot, heq, hne⟩
    · rename_i hpackage
      simp only [h.nested]
      constructor
      · rintro ⟨rest, hrest, hnot, heq, hne⟩
        exact ⟨rest, .inr hrest, hnot, heq, hne⟩
      · rintro ⟨rest, ⟨rfl, rfl⟩ | hrest, hnot, heq, hne⟩
        · rw [List.append_nil] at heq
          exact absurd ⟨rfl, heq ▸ hne⟩ hpackage
        · exact ⟨rest, hrest, hnot, heq, hne⟩

theorem Indexes.dir_skipped {relative : RelPath} {index : PackageTreeIndex}
    (inner : Listing OsName FileContent L) (h : Indexes entries relative index) :
    Indexes (.dir metadataFile inner entries) relative index := by
  refine ⟨fun path => ?_, fun path => ?_, fun path => ?_⟩
  · rw [h.directories]
    simp only [Listing.dirPaths, List.mem_cons, List.mem_append, List.mem_map]
    constructor
    · rintro ⟨rest, hrest, hnot, rfl⟩
      exact ⟨rest, .inr (.inr hrest), hnot, rfl⟩
    · rintro ⟨rest, rfl | ⟨below, -, rfl⟩ | hrest, hnot, heq⟩
      · exact absurd List.mem_cons_self hnot
      · exact absurd List.mem_cons_self hnot
      · exact ⟨rest, hrest, hnot, heq⟩
  · rw [h.files]
    simp only [Listing.filePaths, List.mem_append, List.mem_map]
    constructor
    · rintro ⟨rest, hrest, hnot, rfl⟩
      exact ⟨rest, .inr hrest, hnot, rfl⟩
    · rintro ⟨rest, ⟨below, -, rfl⟩ | hrest, hnot, heq⟩
      · exact absurd List.mem_cons_self hnot
      · exact ⟨rest, hrest, hnot, heq⟩
  · rw [h.nested]
    simp only [Listing.filePaths, List.mem_append, List.mem_map]
    constructor
    · rintro ⟨rest, hrest, hnot, heq, hne⟩
      exact ⟨rest, .inr hrest, hnot, heq, hne⟩
    · rintro ⟨rest, ⟨below, hbelow, hname⟩ | hrest, hnot, heq, hne⟩
      · cases rest with
        | nil =>
            rw [List.nil_append, List.cons.injEq] at hname
            exact absurd hname.1.symm packageJson_ne_metadataFile
        | cons first rest =>
            rw [List.cons_append, List.cons.injEq] at hname
            exact absurd (hname.1 ▸ List.mem_cons_self) hnot
      · exact ⟨rest, hrest, hnot, heq, hne⟩

theorem Indexes.dir {relative : RelPath} {innerIndex index : PackageTreeIndex} {name : OsName}
    {inner : Listing OsName FileContent L} (hname : name ≠ metadataFile)
    (hinner : Indexes inner (relative ++ [name]) innerIndex) (h : Indexes entries relative index) :
    Indexes (.dir name inner entries) relative
      ⟨⟨(relative ++ [name]) :: innerIndex.filesystem.directories ++ index.filesystem.directories,
          innerIndex.filesystem.files ++ index.filesystem.files⟩,
        innerIndex.nestedPackageRoots ++ index.nestedPackageRoots⟩ := by
  have hcons : ∀ rest : RelPath, metadataFile ∉ name :: rest ↔ metadataFile ∉ rest := by
    intro rest
    simp [hname.symm]
  refine ⟨fun path => ?_, fun path => ?_, fun path => ?_⟩
  · simp only [List.cons_append, List.mem_cons, List.mem_append, hinner.directories,
      h.directories, Listing.dirPaths, List.mem_map, List.append_assoc]
    constructor
    · rintro (rfl | ⟨rest, hrest, hnot, rfl⟩ | ⟨rest, hrest, hnot, rfl⟩)
      · exact ⟨[name], .inl rfl, (hcons []).mpr (by simp), rfl⟩
      · exact ⟨name :: rest, .inr (.inl ⟨rest, hrest, rfl⟩), (hcons rest).mpr hnot, rfl⟩
      · exact ⟨rest, .inr (.inr hrest), hnot, rfl⟩
    · rintro ⟨rest, rfl | ⟨below, hbelow, rfl⟩ | hrest, hnot, rfl⟩
      · exact .inl rfl
      · exact .inr (.inl ⟨below, hbelow, (hcons below).mp hnot, rfl⟩)
      · exact .inr (.inr ⟨rest, hrest, hnot, rfl⟩)
  · simp only [List.mem_append, hinner.files, h.files, Listing.filePaths, List.mem_map,
      List.append_assoc, List.singleton_append]
    constructor
    · rintro (⟨rest, hrest, hnot, rfl⟩ | ⟨rest, hrest, hnot, rfl⟩)
      · exact ⟨name :: rest, .inl ⟨rest, hrest, rfl⟩, (hcons rest).mpr hnot, rfl⟩
      · exact ⟨rest, .inr hrest, hnot, rfl⟩
    · rintro ⟨rest, ⟨below, hbelow, rfl⟩ | hrest, hnot, rfl⟩
      · exact .inl ⟨below, hbelow, (hcons below).mp hnot, rfl⟩
      · exact .inr ⟨rest, hrest, hnot, rfl⟩
  · simp only [List.mem_append, hinner.nested, h.nested, Listing.filePaths, List.mem_map,
      List.append_assoc, List.singleton_append]
    constructor
    · rintro (⟨rest, hrest, hnot, heq, hne⟩ | ⟨rest, hrest, hnot, heq, hne⟩)
      · exact ⟨name :: rest, .inl ⟨_, hrest, rfl⟩, (hcons rest).mpr hnot, heq, hne⟩
      · exact ⟨rest, .inr hrest, hnot, heq, hne⟩
    · rintro ⟨rest, ⟨below, hbelow, hbelowEq⟩ | hrest, hnot, heq, hne⟩
      · cases rest with
        | nil =>
            rw [List.nil_append, List.cons.injEq] at hbelowEq
            exact absurd hbelowEq.2 (Listing.mem_filePaths hbelow).1
        | cons first rest =>
            rw [List.cons_append, List.cons.injEq] at hbelowEq
            obtain ⟨rfl, rfl⟩ := hbelowEq
            exact .inl ⟨rest, hbelow, (hcons rest).mp hnot, heq, hne⟩
      · exact .inr ⟨rest, hrest, hnot, heq, hne⟩

theorem collectDirectoryShape_spec (packageRoot : OsPath) (hlinks : entries.linkFree = true)
    (relative : RelPath) : ∃ index,
      collectDirectoryShape packageRoot entries relative = .ok index ∧
        Indexes entries relative index := by
  induction entries generalizing relative with
  | nil => exact ⟨_, rfl, .nil relative⟩
  | link name target rest ih => cases hlinks
  | file name content rest ih =>
      obtain ⟨index, hindex, hspec⟩ := ih hlinks relative
      by_cases hname : name = metadataFile
      · subst hname
        exact ⟨index, by simp [collectDirectoryShape, hindex], hspec.file_skipped content⟩
      · exact ⟨_, by simp only [collectDirectoryShape, if_neg hname, hindex, Except.map],
          hspec.file content hname⟩
  | dir name inner rest ihInner ihRest =>
      have hboth := Bool.and_eq_true_iff.mp hlinks
      obtain ⟨index, hindex, hspec⟩ := ihRest hboth.2 relative
      by_cases hname : name = metadataFile
      · subst hname
        exact ⟨index, by simp [collectDirectoryShape, hindex], hspec.dir_skipped inner⟩
      · obtain ⟨innerIndex, hinner, hinnerSpec⟩ := ihInner hboth.1 (relative ++ [name])
        exact ⟨_, by
          simp only [collectDirectoryShape, if_neg hname, hinner, hindex, Except.bind, Except.map],
          hinnerSpec.dir hname hspec⟩

/-- A directory below the root that holds a package.json and is reached by the index. -/
def NestedRoot (entries : Listing OsName FileContent L) (path : RelPath) : Prop :=
  path ≠ [] ∧ path ++ [packageJson] ∈ entries.filePaths ∧ metadataFile ∉ path

/-- The index is sorted, and the metadata files that will be written are in it. -/
structure TreeIndexes (entries : Listing OsName FileContent L) (index : PackageTreeIndex) :
    Prop where
  directories : ∀ path, path ∈ index.filesystem.directories ↔
    path ∈ entries.dirPaths ∧ metadataFile ∉ path
  files : ∀ path, path ∈ index.filesystem.files ↔
    (path ∈ entries.filePaths ∧ metadataFile ∉ path) ∨ path = [metadataFile] ∨
      ∃ nested, NestedRoot entries nested ∧ path = nested ++ [metadataFile]
  nested : ∀ path, path ∈ index.nestedPackageRoots ↔ NestedRoot entries path

theorem collectPackageTreeIndex_spec (packageRoot : OsPath) (hlinks : entries.linkFree = true) :
    ∃ index, collectPackageTreeIndex packageRoot entries = .ok index ∧
      TreeIndexes entries index := by
  obtain ⟨index, hindex, hspec⟩ := collectDirectoryShape_spec packageRoot hlinks []
  have hnested : ∀ path, path ∈ index.nestedPackageRoots ↔ NestedRoot entries path := by
    intro path
    rw [hspec.nested]
    constructor
    · rintro ⟨rest, hrest, hnot, rfl, hne⟩
      exact ⟨hne, hrest, hnot⟩
    · rintro ⟨hne, hrest, hnot⟩
      exact ⟨path, hrest, hnot, rfl, hne⟩
  refine ⟨_, by rw [collectPackageTreeIndex, hindex, Except.map], ?_, ?_, ?_⟩
  · intro path
    rw [mem_sortDedup_iff, hspec.directories]
    simp only [List.nil_append]
    exact ⟨fun ⟨rest, hrest, hnot, heq⟩ => heq ▸ ⟨hrest, hnot⟩,
      fun ⟨hpath, hnot⟩ => ⟨path, hpath, hnot, rfl⟩⟩
  · intro path
    rw [mem_sortDedup_iff, List.mem_append, List.mem_cons, List.mem_map, hspec.files]
    simp only [mem_sortDedup_iff, hnested, List.nil_append, eq_comm]
    constructor
    · rintro (⟨rest, hrest, hnot, rfl⟩ | hrest)
      · exact .inl ⟨hrest, hnot⟩
      · exact .inr hrest
    · rintro (⟨hpath, hnot⟩ | hrest)
      · exact .inl ⟨path, hpath, hnot, rfl⟩
      · exact .inr hrest
  · intro path
    rw [mem_sortDedup_iff, hnested]

end Index

section RoundTrip

/-- A stored path is read back as the names it was written from. -/
theorem deserializePath_of_serializePath {path : RelPath} {text : String} (hne : path ≠ [])
    (hnames : ∀ name ∈ path, PathText.Segment 47 46 name) (h : serializePath path = some text) :
    deserializePath text = path.map .normal := by
  rw [deserializePath, Text.utf8_of_fromUTF8? h]
  exact PathText.components_intercalate hne hnames

theorem map_deserializePath {paths : List RelPath} {texts : List String}
    (hpaths : ∀ path ∈ paths, path ≠ [] ∧ ∀ name ∈ path, PathText.Segment 47 46 name)
    (h : paths.mapM serializePath = some texts) :
    texts.map deserializePath = paths.map fun path => path.map .normal := by
  induction paths generalizing texts with
  | nil =>
      cases h
      rfl
  | cons path paths ih =>
      rw [List.mapM_cons] at h
      obtain ⟨text, htext, h⟩ := Option.bind_eq_some_iff.mp h
      obtain ⟨rest, hrest, h⟩ := Option.bind_eq_some_iff.mp h
      cases h
      obtain ⟨hne, hnames⟩ := hpaths path List.mem_cons_self
      rw [List.map_cons, List.map_cons, deserializePath_of_serializePath hne hnames htext,
        ih (fun path hpath => hpaths path (List.mem_cons_of_mem _ hpath)) hrest]

theorem toDocument_filesystem {metadata : PackageStoreMetadata RelPath} {document : MetadataDocument}
    (h : toDocument metadata = some document) :
    metadata.filesystem.directories.mapM serializePath = some document.filesystem.directories ∧
      metadata.filesystem.files.mapM serializePath = some document.filesystem.files := by
  obtain ⟨directories, hdirectories, h⟩ := Option.bind_eq_some_iff.mp h
  obtain ⟨files, hfiles, rfl⟩ := Option.map_eq_some_iff.mp h
  exact ⟨hdirectories, hfiles⟩

end RoundTrip

section Persist

theorem writeMetadata_ok {S : Type} {world : MetadataWorld} {path : OsPath}
    {metadata : PackageStoreMetadata RelPath} {write : MetadataDocument → Option S} {written : S}
    (h : writeMetadata world path metadata write = .ok written) :
    ∃ document, toDocument metadata = some document ∧ write document = some written := by
  unfold writeMetadata at h
  split at h
  · cases h
  · rename_i document hdocument
    split at h
    · cases h
    · cases h
    · rename_i hwritten
      cases h
      exact ⟨document, hdocument, hwritten⟩

theorem writeBelow_ok {world : MetadataWorld} {package after : StoredPackage L}
    {relative : RelPath} {metadata : PackageStoreMetadata RelPath}
    (h : writeBelow world packageRoot package relative metadata = .ok after) :
    ∃ document written, toDocument metadata = some document ∧
      package.entries.putAt metadataFile (.document document) relative = some written ∧
      after = ⟨written, package.storeFile,
        invalidateCachedMetadata (below packageRoot relative) package.cache⟩ := by
  unfold writeBelow at h
  generalize hwrite : writeMetadata world _ metadata _ = outcome at h
  cases outcome with
  | error e => cases h
  | ok written =>
      cases h
      obtain ⟨document, hdocument, hwritten⟩ := writeMetadata_ok hwrite
      exact ⟨document, written, hdocument, hwritten, rfl⟩

/-- The stored tree while metadata files are being written: those of the root and of
the nested roots met so far. -/
structure Persisted (entries : Listing OsName FileContent L) (packageRoot : OsPath)
    (filesystem : PackageFilesystemShape RelPath) (met : List RelPath)
    (package : StoredPackage L) : Prop where
  linkFree : package.entries.linkFree = true
  directories : package.entries.dirPaths = entries.dirPaths
  files : ∀ path, path ∈ package.entries.filePaths ↔ path ∈ entries.filePaths ∨
    path = [metadataFile] ∨ ∃ nested ∈ met, path = nested ++ [metadataFile]
  document : ∃ metadata document, toDocument metadata = some document ∧
    metadata.filesystem = filesystem ∧
    package.entries.fileNamed metadataFile = some (.document document)
  uncached : ∀ cached ∈ package.cache, cached.1 ≠ packageRoot

theorem not_mem_invalidated {path : OsPath} {cache : List (OsPath × Option MetadataDocument)}
    (h : ∀ cached ∈ cache, cached.1 ≠ packageRoot) :
    ∀ cached ∈ invalidateCachedMetadata path cache, cached.1 ≠ packageRoot :=
  fun cached hcached => h cached (List.mem_of_mem_filter hcached)

theorem persisted_root {world : MetadataWorld} {package after : StoredPackage L}
    {metadata : PackageStoreMetadata RelPath} (hlinks : package.entries.linkFree = true)
    (h : writeBelow world packageRoot package [] metadata = .ok after) :
    Persisted package.entries packageRoot metadata.filesystem [] after := by
  obtain ⟨document, written, hdocument, hwritten, rfl⟩ := writeBelow_ok h
  have hput : package.entries.put metadataFile (.document document) = some written := by
    rw [← hwritten]
    cases package.entries <;> rfl
  obtain ⟨hdirs, hfree, hfile, hfiles⟩ := Listing.put_spec hput
  refine ⟨hfree.trans hlinks, hdirs, fun path => ?_, ⟨metadata, document, hdocument, rfl, hfile⟩, ?_⟩
  · simp [hfiles]
  · intro cached hcached
    simpa [below, invalidateCachedMetadata] using (List.mem_filter.mp hcached).2

theorem Persisted.step {world : MetadataWorld} {filesystem : PackageFilesystemShape RelPath}
    {met : List RelPath} {package after : StoredPackage L} {nested : RelPath}
    {metadata : PackageStoreMetadata RelPath} (hnested : nested ≠ [])
    (hinv : Persisted entries packageRoot filesystem met package)
    (h : writeBelow world packageRoot package nested metadata = .ok after) :
    Persisted entries packageRoot filesystem (met ++ [nested]) after := by
  obtain ⟨document, written, -, hwritten, rfl⟩ := writeBelow_ok h
  obtain ⟨hdirs, hfree, hfiles⟩ := Listing.putAt_spec hwritten
  obtain ⟨rootMetadata, rootDocument, hroot, hfilesystem, hfile⟩ := hinv.document
  refine ⟨hfree.trans hinv.linkFree, hdirs.trans hinv.directories, fun path => ?_,
    ⟨rootMetadata, rootDocument, hroot, hfilesystem, ?_⟩, not_mem_invalidated hinv.uncached⟩
  · rw [hfiles, hinv.files]
    simp only [List.mem_append, List.mem_singleton]
    constructor
    · rintro ((hpath | hpath | ⟨other, hother, rfl⟩) | rfl)
      · exact .inl hpath
      · exact .inr (.inl hpath)
      · exact .inr (.inr ⟨other, .inl hother, rfl⟩)
      · exact .inr (.inr ⟨nested, .inr rfl, rfl⟩)
    · rintro (hpath | hpath | ⟨other, hother | rfl, rfl⟩)
      · exact .inl (.inl hpath)
      · exact .inl (.inr (.inl hpath))
      · exact .inl (.inr (.inr ⟨other, hother, rfl⟩))
      · exact .inr rfl
  · cases nested with
    | nil => exact absurd rfl hnested
    | cons first rest => exact (Listing.fileNamed_putAt metadataFile hwritten).trans hfile

theorem Persisted.run {world : MetadataWorld} {filesystem : PackageFilesystemShape RelPath}
    {met nesteds : List RelPath} {package after : StoredPackage L}
    (hnesteds : ∀ nested ∈ nesteds, nested ≠ [])
    (hinv : Persisted entries packageRoot filesystem met package)
    (h : nesteds.foldlM (fun package nested => writeBelow world packageRoot package nested
      (collectManifestFacts world package.entries nested)) package = .ok after) :
    Persisted entries packageRoot filesystem (met ++ nesteds) after := by
  induction nesteds generalizing met package with
  | nil =>
      cases h
      simpa using hinv
  | cons nested nesteds ih =>
      rw [List.foldlM_cons] at h
      generalize hwrite : writeBelow world packageRoot package nested _ = outcome at h
      cases outcome with
      | error e => cases h
      | ok next =>
          have hstep := hinv.step (hnesteds nested List.mem_cons_self) hwrite
          have hrun := ih (fun other hother => hnesteds other (List.mem_cons_of_mem _ hother))
            hstep h
          rwa [List.append_assoc, List.singleton_append] at hrun

theorem ok_of_bind {ε α β : Type} {x : Except ε α} {f : α → Except ε β} {b : β}
    (h : x >>= f = .ok b) : ∃ a, x = .ok a ∧ f a = .ok b := by
  cases x with
  | error e => cases h
  | ok a => exact ⟨a, rfl, h⟩

theorem persistPackageMetadata_ok {world : MetadataWorld} {packageDir : OsPath}
    {package stored : StoredPackage L} (hlinks : package.entries.linkFree = true)
    (h : persistPackageMetadata world packageDir packageRoot package = .ok stored) :
    ∃ index, TreeIndexes package.entries index ∧
      Persisted package.entries packageRoot index.filesystem index.nestedPackageRoots stored := by
  obtain ⟨index, hindex, hspec⟩ := collectPackageTreeIndex_spec packageRoot hlinks
  refine ⟨index, hspec, ?_⟩
  obtain ⟨found, hfound, h⟩ := ok_of_bind h
  cases hindex.symm.trans hfound
  obtain ⟨rooted, hrooted, h⟩ := ok_of_bind h
  obtain ⟨package', hrun, h⟩ := ok_of_bind h
  have hroot := persisted_root hlinks hrooted
  have hnested : ∀ nested ∈ index.nestedPackageRoots, nested ≠ [] :=
    fun nested hmem => ((hspec.nested nested).mp hmem).1
  have hall := hroot.run hnested hrun
  split at h
  · cases h
    exact hall
  · split at h
    · cases h
      exact hall
    · obtain ⟨document, -, h⟩ := ok_of_bind h
      cases h
      exact ⟨hall.linkFree, hall.directories, hall.files, hall.document,
        not_mem_invalidated hall.uncached⟩

end Persist

end Snpm.Store
