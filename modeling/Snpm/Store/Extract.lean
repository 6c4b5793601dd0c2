import Mathlib
import Snpm.Library.FileTree
import Snpm.Store.Naming
import Snpm.Store.Integrity
import Snpm.Resolve.Source

/-!
Unpacking a tarball into a package directory. The entries are taken as the
archive reader yields them, with any path and any type, and writing the content
of a regular file is the archive library's; what it writes is its entry alone.
An entry is joined to the package directory component by component, and links
are refused, so nothing outside the directory changes.
-/
namespace Snpm.Store

open FileTree PathText

abbrev Disk := Files Char Bytes

inductive EntryType where
  | regular
  | link
  | symlink
  | char
  | block
  | directory
  | fifo
  | continuous
  | gnuLongName
  | gnuLongLink
  | gnuSparse
  | xGlobalHeader
  | xHeader
  | other (byte : UInt8)
deriving DecidableEq

/-- An entry of an archive; its path may fail to decode. -/
structure TarEntry where
  path : Except String PathBuf
  entryType : EntryType
  content : Bytes

/-- What the archive reader yields: a failure to read the archive at all, or
entries each of which may fail. -/
abbrev TarStream := Except String (List (Except String TarEntry))

/-- The operating system and the archive library as they are called here. -/
structure System where
  refuse : Disk → Path Char → Option String
  unpack : Disk → TarEntry → Path Char → Except String Unit × Disk

def refusalText : Refusal → String
  | .notFound => "No such file or directory (os error 2)"
  | .notDirectory => "Not a directory (os error 20)"
  | .alreadyExists => "File exists (os error 17)"
  | .tooManyLinks => "Too many levels of symbolic links (os error 40)"
  | .other reason => reason

def safeJoinStep (out : PathBuf) : Component Char → Option PathBuf
  | .normal segment => some (out.join (String.ofList segment))
  | .curDir => some out
  | .parentDir | .rootDir => none

def safeJoin (root rel : PathBuf) : Option PathBuf :=
  rel.components.foldlM safeJoinStep root

def invalidEntryError (pkgDir : PathBuf) (message : String) : Result Unit :=
  .error (.archive pkgDir message)

/-- The components of the parent directory, if a path has one. -/
def parentOf (path : Path Char) : Option (Path Char) :=
  match path.getLast? with
  | none | some .rootDir => none
  | some _ => some path.dropLast

def createDirAllAt (sys : System) (fs : Disk) (path : PathBuf) : Result Unit × Disk :=
  match createDirAll sys.refuse fs path.components with
  | (.error refusal, fs) => (.error (.writeFile path (refusalText refusal)), fs)
  | (.ok (), fs) => (.ok (), fs)

def ensureParentDir (sys : System) (fs : Disk) (path : PathBuf) : Result Unit × Disk :=
  match parentOf path.components with
  | none => (.ok (), fs)
  | some parent =>
      match createDirAll sys.refuse fs parent with
      | (.error refusal, fs) =>
          (.error (.writeFile (Resolve.popPath path) (refusalText refusal)), fs)
      | (.ok (), fs) => (.ok (), fs)

/-- Write the content of a regular file to a location whose parent is made first. -/
def unpackFile (sys : System) (fs : Disk) (entry : TarEntry) (destPath : PathBuf) :
    Result Unit × Disk :=
  match ensureParentDir sys fs destPath with
  | (.error error, fs) => (.error error, fs)
  | (.ok (), fs) =>
      match sys.unpack fs entry destPath.components with
      | (.error reason, fs) => (.error (.archive destPath reason), fs)
      | (.ok (), fs) => (.ok (), fs)

def unpackEntry (sys : System) (pkgDir : PathBuf) (fs : Disk) (entry : TarEntry) :
    Result Unit × Disk :=
  match entry.path with
  | .error reason => (.error (.archive pkgDir reason), fs)
  | .ok relPath =>
      match safeJoin pkgDir relPath with
      | none => (invalidEntryError pkgDir ("archive entry escapes extraction root: " ++ relPath), fs)
      | some destPath =>
          match entry.entryType with
          | .symlink | .link =>
              (invalidEntryError pkgDir
                ("archive contains forbidden symlink/hardlink entry: " ++ relPath), fs)
          | .directory => createDirAllAt sys fs destPath
          | .regular => unpackFile sys fs entry destPath
          | _ => (.ok (), fs)

def unpackEntries (sys : System) (pkgDir : PathBuf) :
    List (Except String TarEntry) → Disk → Result Unit × Disk
  | [], fs => (.ok (), fs)
  | .error reason :: _, fs => (.error (.archive pkgDir reason), fs)
  | .ok entry :: rest, fs =>
      match unpackEntry sys pkgDir fs entry with
      | (.error error, fs) => (.error error, fs)
      | (.ok (), fs) => unpackEntries sys pkgDir rest fs

def unpackTarballReader (sys : System) (pkgDir : PathBuf) (stream : TarStream) (fs : Disk) :
    Result Unit × Disk :=
  match stream with
  | .error reason => (.error (.archive pkgDir reason), fs)
  | .ok entries => unpackEntries sys pkgDir entries fs

section Join

/-- Where a path leads from a directory, its components taken one by one. -/
def destinationStep (out : Path Char) : Component Char → Path Char
  | .normal segment => out ++ [.normal segment]
  | .curDir => out
  | .parentDir => out.dropLast
  | .rootDir => [.rootDir]

def destination (root rel : Path Char) : Path Char := rel.foldl destinationStep root

/-- The path of an entry leads out of the package directory. -/
def Escapes (pkgDir relPath : PathBuf) : Prop :=
  ¬ pkgDir.components <+: destination pkgDir.components relPath.components

instance (pkgDir relPath : PathBuf) : Decidable (Escapes pkgDir relPath) :=
  inferInstanceAs (Decidable (¬ _))

/-- A path that can be joined names an entry of the root and leads there. -/
theorem safeJoin_components {root rel dest : PathBuf} (h : safeJoin root rel = some dest) :
    ∃ names : List (List Char), dest.components = root.components ++ names.map .normal ∧
      destination root.components rel.components = dest.components := by
  have hfold : ∀ (comps : Path Char) (out : PathBuf),
      (∀ segment, .normal segment ∈ comps → Segment '/' '.' segment) →
      comps.foldlM safeJoinStep out = some dest →
        ∃ names : List (List Char), dest.components = out.components ++ names.map .normal ∧
          comps.foldl destinationStep out.components = dest.components := by
    intro comps
    induction comps with
    | nil =>
        intro out _ h
        cases h
        exact ⟨[], by simp, rfl⟩
    | cons c comps ih =>
        intro out hsegments h
        have hrest : ∀ segment, .normal segment ∈ comps → Segment '/' '.' segment :=
          fun segment hmem => hsegments segment (List.mem_cons_of_mem _ hmem)
        rw [List.foldlM_cons] at h
        cases c with
        | rootDir | parentDir => cases h
        | curDir => exact ih out hrest h
        | normal segment =>
            have hsegment : PathBuf.IsSegment (String.ofList segment) := by
              rw [PathBuf.IsSegment, String.toList_ofList]
              exact hsegments segment List.mem_cons_self
            obtain ⟨names, hdest, hleads⟩ := ih _ hrest h
            rw [PathBuf.components_join out hsegment, String.toList_ofList] at hdest hleads
            exact ⟨segment :: names, by simp [hdest], hleads⟩
  exact hfold rel.components root (fun _ hmem => segment_of_mem hmem) h

theorem safeJoin_escapes {root rel : PathBuf} (h : Escapes root rel) : safeJoin root rel = none := by
  cases hjoin : safeJoin root rel with
  | none => rfl
  | some dest =>
      obtain ⟨names, hdest, hleads⟩ := safeJoin_components hjoin
      exact absurd (by rw [hleads, hdest]; exact List.prefix_append _ _) h

end Join

section Containment

/-- Unpacking a regular file touches the entry at its destination only, where it
leaves a directory alone and makes no link. -/
structure UnpackLaw (sys : System) : Prop where
  unresolved : ∀ fs entry parent name refusal, entry.entryType = .regular →
    Files.resolveDir fs parent = .error refusal →
      (sys.unpack fs entry (parent ++ [.normal name])).2 = fs
  elsewhere : ∀ fs entry parent name place, entry.entryType = .regular →
    Files.resolveDir fs parent = .ok place → ∀ p, p ≠ place ++ [name] →
      (sys.unpack fs entry (parent ++ [.normal name])).2 p = fs p
  dirs : ∀ fs entry parent name p, entry.entryType = .regular → fs p = some .dir →
    (sys.unpack fs entry (parent ++ [.normal name])).2 p = some .dir
  links : ∀ fs entry parent name p target, entry.entryType = .regular →
    (sys.unpack fs entry (parent ++ [.normal name])).2 p = some (.link target) →
      fs p = some (.link target)

/-- A directory that was made for a package: its own entry is no link, and there
are none below it. -/
structure PackageRoot (fs : Disk) (pkgDir : PathBuf) (place : Place Char) : Prop where
  rooted : Rooted fs pkgDir.components place
  entry : ∃ parent up name, pkgDir.components = parent ++ [.normal name] ∧
    fs.resolveDir parent = .ok up ∧ place = up ++ [name] ∧ fs place = some .dir

variable {sys : System} {fs fs' : Disk} {pkgDir : PathBuf} {place : Place Char}

theorem PackageRoot.contained (h : PackageRoot fs pkgDir place) (hchange : Contained place fs fs') :
    PackageRoot fs' pkgDir place where
  rooted := h.rooted.contained hchange
  entry := by
    obtain ⟨parent, up, name, hcomponents, hup, hplace, hdir⟩ := h.entry
    exact ⟨parent, up, name, hcomponents, resolveDir_mono (hchange.keeps h.rooted.free) hup, hplace,
      hchange.dirs _ hdir⟩

theorem createDirAllAt_snd (path : PathBuf) :
    (createDirAllAt sys fs path).2 = (createDirAll sys.refuse fs path.components).2 := by
  unfold createDirAllAt
  split <;> simp_all

theorem parentOf_concat (path : Path Char) (name : List Char) :
    parentOf (path ++ [.normal name]) = some path := by
  simp [parentOf]

/-- Unpacking to the package directory itself or below it stays below it. -/
theorem unpack_contained_at (hlaw : UnpackLaw sys) (h : PackageRoot fs pkgDir place)
    {entry : TarEntry} (hentry : entry.entryType = .regular) (names : List (List Char)) :
    Contained place fs (sys.unpack fs entry (pkgDir.components ++ names.map .normal)).2 := by
  cases List.eq_nil_or_concat names with
  | inl hnil =>
      subst hnil
      obtain ⟨parent, up, name, hcomponents, hup, hplace, hdir⟩ := h.entry
      rw [List.map_nil, List.append_nil, hcomponents]
      refine ⟨fun p hp => ?_, fun p hp => hlaw.dirs fs entry parent name p hentry hp,
        fun p target hp => hlaw.links fs entry parent name p target hentry hp⟩
      cases decEq p place with
      | isTrue heq =>
          rw [heq, hdir]
          exact hlaw.dirs fs entry parent name place hentry hdir
      | isFalse hne => exact hlaw.elsewhere fs entry parent name up hentry hup p (hplace ▸ hne)
  | inr hconcat =>
      obtain ⟨init, name, hnames⟩ := hconcat
      subst hnames
      have hpath : pkgDir.components ++ (init.concat name).map Component.normal =
          (pkgDir.components ++ init.map Component.normal) ++ [.normal name] := by simp
      rw [hpath]
      refine ⟨fun p hp => ?_, fun p hp => hlaw.dirs fs entry _ name p hentry hp,
        fun p target hp => hlaw.links fs entry _ name p target hentry hp⟩
      cases hparent : fs.resolveDir (pkgDir.components ++ init.map Component.normal) with
      | error refusal => rw [hlaw.unresolved fs entry _ name refusal hentry hparent]
      | ok up =>
          have hup := h.rooted.resolve_names hparent
          refine hlaw.elsewhere fs entry _ name up hentry hparent p fun heq => hp ?_
          subst hup
          subst heq
          refine ⟨?_, fun hlen => by simpa using congrArg List.length hlen⟩
          rw [List.append_assoc]
          exact List.prefix_append _ _

theorem ensureParentDir_contained (sys : System) (h : PackageRoot fs pkgDir place) {dest : PathBuf}
    {names : List (List Char)} (hdest : dest.components = pkgDir.components ++ names.map .normal) :
    Contained place fs (ensureParentDir sys fs dest).2 := by
  have hall : ∀ parent, parentOf dest.components = some parent →
      Contained place fs (createDirAll sys.refuse fs parent).2 := by
    intro parent hparent
    cases List.eq_nil_or_concat names with
    | inl hnil =>
        subst hnil
        obtain ⟨above, up, name, hcomponents, hup, _, _⟩ := h.entry
        rw [hdest, List.map_nil, List.append_nil, hcomponents, parentOf_concat] at hparent
        cases hparent
        rw [createDirAll_resolved hup]
        exact Contained.refl _ _
    | inr hconcat =>
        obtain ⟨init, name, hnames⟩ := hconcat
        subst hnames
        have hpath : pkgDir.components ++ (init.concat name).map Component.normal =
            (pkgDir.components ++ init.map Component.normal) ++ [.normal name] := by simp
        rw [hdest, hpath, parentOf_concat] at hparent
        cases hparent
        exact createDirAll_contained h.rooted init
  unfold ensureParentDir
  split
  · exact Contained.refl _ _
  · rename_i parent hparent
    have hcontained := hall parent hparent
    split
    · rename_i heq
      rw [heq] at hcontained
      exact hcontained
    · rename_i heq
      rw [heq] at hcontained
      exact hcontained

theorem unpackFile_contained (hlaw : UnpackLaw sys) (h : PackageRoot fs pkgDir place)
    {entry : TarEntry} (hentry : entry.entryType = .regular) {dest : PathBuf}
    {names : List (List Char)} (hdest : dest.components = pkgDir.components ++ names.map .normal) :
    Contained place fs (unpackFile sys fs entry dest).2 := by
  have hparent := ensureParentDir_contained sys h hdest
  unfold unpackFile
  split
  · rename_i heq
    rw [heq] at hparent
    exact hparent
  · rename_i heq
    rw [heq] at hparent
    have hunpack := unpack_contained_at hlaw (h.contained hparent) hentry names
    rw [← hdest] at hunpack
    split
    · rename_i hresult
      rw [hresult] at hunpack
      exact hparent.trans hunpack
    · rename_i hresult
      rw [hresult] at hunpack
      exact hparent.trans hunpack

/-- One entry changes nothing outside the package directory. -/
theorem unpackEntry_contained (hlaw : UnpackLaw sys) (h : PackageRoot fs pkgDir place)
    (entry : TarEntry) : Contained place fs (unpackEntry sys pkgDir fs entry).2 := by
  unfold unpackEntry
  split
  · exact Contained.refl _ _
  · split
    · exact Contained.refl _ _
    · rename_i dest hjoin
      obtain ⟨names, hdest, _⟩ := safeJoin_components hjoin
      split
      · exact Contained.refl _ _
      · exact Contained.refl _ _
      · rw [createDirAllAt_snd, hdest]
        exact createDirAll_contained h.rooted names
      · rename_i hregular
        exact unpackFile_contained hlaw h hregular hdest
      · exact Contained.refl _ _

theorem unpackEntries_contained (hlaw : UnpackLaw sys) (entries : List (Except String TarEntry))
    (h : PackageRoot fs pkgDir place) :
    Contained place fs (unpackEntries sys pkgDir entries fs).2 := by
  induction entries generalizing fs with
  | nil => exact Contained.refl _ _
  | cons item rest ih =>
      cases item with
      | error reason => exact Contained.refl _ _
      | ok entry =>
          have hentry := unpackEntry_contained hlaw h entry
          simp only [unpackEntries]
          split
          · rename_i heq
            rw [heq] at hentry
            exact hentry
          · rename_i heq
            rw [heq] at hentry
            exact hentry.trans (ih (h.contained hentry))

/-- An entry that must be refused: its path leads out, or it is a link. -/
def Forbidden (pkgDir : PathBuf) (entry : TarEntry) : Prop :=
  (∃ relPath, entry.path = .ok relPath ∧ Escapes pkgDir relPath) ∨
    entry.entryType = .symlink ∨ entry.entryType = .link

theorem unpackEntry_forbidden (sys : System) (fs : Disk) {entry : TarEntry} (h : Forbidden pkgDir entry) :
    ∃ error, (unpackEntry sys pkgDir fs entry).1 = .error error := by
  unfold unpackEntry
  split
  · exact ⟨_, rfl⟩
  · rename_i relPath hpath
    split
    · exact ⟨_, rfl⟩
    · rename_i dest hjoin
      cases h with
      | inl hescapes =>
          obtain ⟨other, hother, hescapes⟩ := hescapes
          rw [hpath] at hother
          cases hother
          rw [safeJoin_escapes hescapes] at hjoin
          cases hjoin
      | inr hlink =>
          cases hlink with
          | inl htype => exact ⟨_, by rw [htype]; rfl⟩
          | inr htype => exact ⟨_, by rw [htype]; rfl⟩

theorem unpackEntries_forbidden {entries : List (Except String TarEntry)} {entry : TarEntry}
    (hmem : .ok entry ∈ entries) (h : Forbidden pkgDir entry) :
    ∃ error, (unpackEntries sys pkgDir entries fs).1 = .error error := by
  induction entries generalizing fs with
  | nil => cases hmem
  | cons item rest ih =>
      cases item with
      | error reason => exact ⟨_, rfl⟩
      | ok first =>
          simp only [unpackEntries]
          split
          · exact ⟨_, rfl⟩
          · rename_i fs' hfirst
            cases List.mem_cons.mp hmem with
            | inl heq =>
                cases heq
                obtain ⟨error, herror⟩ := unpackEntry_forbidden sys fs h
                rw [hfirst] at herror
                cases herror
            | inr hrest => exact ih hrest

/-- Whatever the entries are, everything that changes lies below the package
directory and is no link, and one entry that leads out or is a link fails the
extraction. -/
theorem unpack_contained (sys : System) (hlaw : UnpackLaw sys) (pkgDir : PathBuf) (fs : Disk)
    (place : Place Char) (hroot : PackageRoot fs pkgDir place) (stream : TarStream) :
    (∀ p, (unpackTarballReader sys pkgDir stream fs).2 p ≠ fs p →
      (place <+: p ∧ p ≠ place) ∧
        ∀ target, (unpackTarballReader sys pkgDir stream fs).2 p ≠ some (.link target)) ∧
    ((∃ entries entry, stream = .ok entries ∧ .ok entry ∈ entries ∧ Forbidden pkgDir entry) →
      ∃ error, (unpackTarballReader sys pkgDir stream fs).1 = .error error) := by
  have hcontained : Contained place fs (unpackTarballReader sys pkgDir stream fs).2 := by
    unfold unpackTarballReader
    split
    · exact Contained.refl _ _
    · exact unpackEntries_contained hlaw _ hroot
  constructor
  · intro p hp
    have hbelow : place <+: p ∧ p ≠ place := by
      by_contra hbelow
      exact hp (hcontained.outside p hbelow)
    exact ⟨hbelow, fun target hlink =>
      hroot.rooted.free p target hbelow.1 (hcontained.links p target hlink)⟩
  · rintro ⟨entries, entry, rfl, hmem, hforbidden⟩
    exact unpackEntries_forbidden hmem hforbidden

/-- A library that writes the content unless a directory is in the way. -/
def writeContent (fs : Disk) (entry : TarEntry) (path : Path Char) : Except String Unit × Disk :=
  match path.getLast? with
  | some (.normal name) =>
      match fs.resolveDir path.dropLast with
      | .error refusal => (.error (refusalText refusal), fs)
      | .ok parent =>
          match fs (parent ++ [name]) with
          | some .dir => (.error "Is a directory (os error 21)", fs)
          | _ => (.ok (), fs.set (parent ++ [name]) (.file entry.content))
  | _ => (.error "invalid path", fs)

def plainSystem : System := ⟨fun _ _ => none, writeContent⟩

theorem writeContent_cases (fs : Disk) (entry : TarEntry) (parent : Path Char) (name : List Char) :
    (writeContent fs entry (parent ++ [.normal name])).2 = fs ∨
      ∃ up, fs.resolveDir parent = .ok up ∧ fs (up ++ [name]) ≠ some .dir ∧
        (writeContent fs entry (parent ++ [.normal name])).2 =
          fs.set (up ++ [name]) (.file entry.content) := by
  unfold writeContent
  rw [List.getLast?_concat, List.dropLast_concat]
  dsimp only
  split
  · exact .inl rfl
  · rename_i up hup
    split
    · exact .inl rfl
    · rename_i hdir
      exact .inr ⟨up, hup, fun h => hdir h, rfl⟩

theorem plainSystem_law : UnpackLaw plainSystem where
  unresolved fs entry parent name refusal _ h := by
    cases writeContent_cases fs entry parent name with
    | inl heq => exact heq
    | inr hset =>
        obtain ⟨up, hup, _⟩ := hset
        rw [h] at hup
        cases hup
  elsewhere fs entry parent name place _ h p hp := by
    cases writeContent_cases fs entry parent name with
    | inl heq => exact congrFun heq p
    | inr hset =>
        obtain ⟨up, hup, _, heq⟩ := hset
        rw [h] at hup
        cases hup
        exact (congrFun heq p).trans (by simp [Files.set, hp])
  dirs fs entry parent name p _ h := by
    cases writeContent_cases fs entry parent name with
    | inl heq => exact (congrFun heq p).trans h
    | inr hset =>
        obtain ⟨up, _, hdir, heq⟩ := hset
        have hne : p ≠ up ++ [name] := fun hp => hdir (hp ▸ h)
        exact (congrFun heq p).trans (by simp [Files.set, hne, h])
  links fs entry parent name p target _ h := by
    cases writeContent_cases fs entry parent name with
    | inl heq => exact (congrFun heq p).symm.trans h
    | inr hset =>
        obtain ⟨up, _, _, heq⟩ := hset
        have hlink := (congrFun heq p).symm.trans h
        simp only [Files.set] at hlink
        split at hlink
        · cases hlink
        · exact hlink

def storePlace : Place Char := ["store".toList, "a".toList]

/-- A store with the empty directory of a package. -/
def storeDisk : Disk := fun p =>
  if p = ["store".toList] ∨ p = storePlace then some .dir else none

def sampleEntry (path : PathBuf) (entryType : EntryType) : TarEntry := ⟨.ok path, entryType, [1]⟩

theorem storeDisk_root : PackageRoot storeDisk "/store/a" storePlace where
  rooted :=
    { resolves := by rfl
      free := by
        intro p target _ h
        unfold storeDisk at h
        split at h <;> cases h }
  entry := ⟨[.rootDir, .normal "store".toList], ["store".toList], "a".toList, by decide, by rfl,
    rfl, by rfl⟩

theorem unpack_contained_escape :
    (∀ p, (unpackTarballReader plainSystem "/store/a"
        (.ok [.ok (sampleEntry "package/index.js" .regular), .ok (sampleEntry "../b" .regular)])
        storeDisk).2 p ≠ storeDisk p → storePlace <+: p) ∧
    (∃ error, (unpackTarballReader plainSystem "/store/a"
        (.ok [.ok (sampleEntry "package/index.js" .regular), .ok (sampleEntry "../b" .regular)])
        storeDisk).1 = .error error) := by
  have h := unpack_contained plainSystem plainSystem_law "/store/a" storeDisk storePlace
    storeDisk_root
    (.ok [.ok (sampleEntry "package/index.js" .regular), .ok (sampleEntry "../b" .regular)])
  refine ⟨fun p hp => (h.1 p hp).1.1, h.2 ⟨_, sampleEntry "../b" .regular, rfl, by simp, .inl ?_⟩⟩
  exact ⟨"../b", rfl, by decide⟩

end Containment

end Snpm.Store
