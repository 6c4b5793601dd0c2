import Mathlib
import Snpm.Library.LinkTree
import Snpm.Linker.Locality
import Snpm.Linker.EntryHash

/-!
Populating the virtual store of a project. Every package of the graph gets a
location under the project's `.snpm`. A package that may be shared is a link to
its entry in the store that all projects share, and a project-local package is
a directory of its own.

A path is represented by what it is built from, so two paths are equal exactly
when they are built from the same parts. Removing an entry always succeeds; the
outcomes of copying a package directory and of recreating links are inputs, and
so is whether the file system supports symbolic links. Tasks that run in
parallel write different locations and are run in key order here.
-/
namespace Snpm.Linker

open LinkTree

/-- The locations that hold package directories or links to them. -/
inductive Loc where
  /-- `<project>/.snpm/<name>@<version>/node_modules/<name>` -/
  | view (id : PackageId)
  /-- `<data>/virtual-store/<name>@<version>-<hash>/node_modules/<name>` -/
  | shared (id : PackageId) (hash : Option String)
  /-- `<project>/node_modules/<name>` -/
  | nodeModule (name : String)
  | other (path : PathBuf)
deriving DecidableEq

/-- What readiness checks look for in a package directory, and the location it
was copied from where links cannot be made. -/
structure DirContent where
  metadata : Bool
  nonEmpty : Bool
  copiedFrom : Option Loc
deriving DecidableEq

abbrev Disk := Tree Loc DirContent

structure PopulateInput where
  graph : ResolutionGraph
  locality : LocalityInput
  /-- The unpacked packages of the store. -/
  storePaths : PackageId → Option DirContent
  /-- How copying a package directory to a location fails, if it does: the error
  and the partial directory it leaves. -/
  linkError : Loc → Option (SnpmError × Option DirContent)
  /-- Why recreating the dependency links beside a location fails, if it does. -/
  wireError : Loc → Option SnpmError
  /-- Whether the recorded dependency state of a location is current. -/
  stateMatches : Loc → Bool
  symlinks : Bool

/-- The metadata file is looked up through links. -/
def hasMetadata (disk : Disk) (loc : Loc) : Bool :=
  match disk.stat loc with
  | some (.dir content) => content.metadata
  | _ => false

def virtualPackageReady (disk : Disk) (loc : Loc) : Bool :=
  hasMetadata disk loc ||
    match disk loc with
    | some (.dir content) => content.nonEmpty
    | _ => false

def symlinkIsCorrect (disk : Disk) (loc target : Loc) : Bool :=
  disk loc = some (.link target) && disk.exists target

/-- `link_dir`: copy or clone a store package to an empty location. -/
def linkDir (input : PopulateInput) (disk : Disk) (id : PackageId) (loc : Loc) :
    Result Unit × Disk :=
  match input.storePaths id with
  | none => (.error (.storeMissing id.name id.version), disk)
  | some content =>
      match input.linkError loc with
      | none => (.ok (), disk.write loc (.dir content))
      | some (error, none) => (.error error, disk)
      | some (error, some leftover) => (.error error, disk.write loc (.dir leftover))

def copyDir (disk : Disk) (source loc : Loc) : Result Unit × Disk :=
  match disk.stat source with
  | some (.dir content) =>
      (.ok (), disk.write loc (.dir { content with copiedFrom := some source }))
  | _ => (.error (.io "" "copy source is not a directory"), disk)

def linkOrCopy (input : PopulateInput) (disk : Disk) (target loc : Loc) : Result Unit × Disk :=
  if input.symlinks then (.ok (), disk.write loc (.link target)) else copyDir disk target loc

/-- A shared entry is copied to a staging directory first, so that a failure
leaves nothing at its location. -/
def materializeOnePackage (input : PopulateInput) (disk : Disk) (id : PackageId) (loc : Loc) :
    Result Unit × Disk :=
  if virtualPackageReady disk loc then (.ok (), disk)
  else
    match input.storePaths id with
    | none => (.error (.storeMissing id.name id.version), disk)
    | some content =>
        match input.linkError loc with
        | some (error, _) => (.error error, disk.remove loc)
        | none => (.ok (), (disk.remove loc).write loc (.dir content))

/-- Recreate the link at a location unless it is correct. -/
def relink (input : PopulateInput) (disk : Disk) (target loc : Loc) : Result Unit × Disk :=
  if symlinkIsCorrect disk loc target then (.ok (), disk)
  else linkOrCopy input (disk.remove loc) target loc

theorem copyDir_other (disk : Disk) (source : Loc) {loc p : Loc} (hp : p ≠ loc) :
    (copyDir disk source loc).2 p = disk p := by
  unfold copyDir
  split
  · exact write_other _ _ hp
  · rfl

theorem relink_other (input : PopulateInput) (disk : Disk) (target : Loc) {loc p : Loc}
    (hp : p ≠ loc) : (relink input disk target loc).2 p = disk p := by
  unfold relink linkOrCopy
  split
  · rfl
  · split
    · exact (write_other _ _ hp).trans (remove_other _ hp)
    · rw [copyDir_other _ _ hp, remove_other _ hp]

/-- A location leads to a target: as a link, or as a copy of it. -/
def LeadsTo (disk : Disk) (loc target : Loc) : Prop :=
  disk loc = some (.link target) ∨
    ∃ content, disk loc = some (.dir content) ∧ content.copiedFrom = some target

theorem LeadsTo.unique {disk : Disk} {loc target target' : Loc} (h : LeadsTo disk loc target)
    (h' : LeadsTo disk loc target') : target = target' := by
  obtain h | ⟨content, h, hfrom⟩ := h <;> obtain h' | ⟨content', h', hfrom'⟩ := h' <;>
    rw [h] at h' <;> simp only [Option.some.injEq, Node.link.injEq, Node.dir.injEq,
      reduceCtorEq] at h'
  · exact h'
  · rw [h', hfrom'] at hfrom
    exact (Option.some.inj hfrom).symm

theorem relink_leadsTo {input : PopulateInput} {disk : Disk} {target loc : Loc}
    (h : (relink input disk target loc).1 = .ok ()) :
    LeadsTo (relink input disk target loc).2 loc target := by
  unfold relink linkOrCopy at h ⊢
  split
  · rename_i hcorrect
    simp only [symlinkIsCorrect, Bool.and_eq_true, decide_eq_true_eq] at hcorrect
    exact .inl hcorrect.1
  · rename_i hcorrect
    rw [if_neg hcorrect] at h
    split
    · exact .inl (write_self _ _ _)
    · rename_i hsymlinks
      rw [if_neg hsymlinks] at h
      unfold copyDir at h ⊢
      split
      · exact .inr ⟨_, write_self _ _ _, rfl⟩
      · rename_i hstat
        split at h
        · rename_i content heq
          exact absurd heq (hstat content)
        · cases h

/-- Only a dependency under the package's own name has its link at the
package's location; the other links lie beside it. -/
def wireDepSymlinksInto (input : PopulateInput) (disk : Disk) (id : PackageId) (loc : Loc)
    (wired : BTreeMap String PackageId) (locations : PackageId → Option Loc) :
    Result Unit × Disk :=
  if wired.isEmpty then (.ok (), disk)
  else
    match wired.toList.find? fun e => (locations e.2).isNone with
    | some (_, missing) => (.error (.graphMissing missing.name missing.version), disk)
    | none =>
        if input.stateMatches loc then (.ok (), disk)
        else
          let relinked := match wired[id.name]?.bind locations with
            | none => (.ok (), disk)
            | some target => relink input disk target loc
          match input.wireError loc with
          | some error => (.error error, relinked.2)
          | none => relinked

section Populate

variable (H : Digest.Hash) (S : SemverCrate)

def localIds (input : PopulateInput) : BTreeSet PackageId :=
  localGlobalVirtualStorePackageIds S input.locality input.graph

def sharedPackageIds (input : PopulateInput) : List PackageId :=
  input.graph.packages.keys.filter (· ∉ localIds S input)

def sharedLocation (input : PopulateInput) (id : PackageId) : Loc :=
  .shared id ((globalVirtualStoreEntryHashes H S input.graph)[id]?)

def sharedPaths (input : PopulateInput) (id : PackageId) : Option Loc :=
  if id ∈ sharedPackageIds S input then some (sharedLocation H S input id) else none

def projectPaths (input : PopulateInput) (id : PackageId) : Option Loc :=
  if id ∈ input.graph.packages then some (.view id) else none

/-- Dependencies with the resolved peers on top. -/
def wiredEdges (input : PopulateInput) (id : PackageId) (package : ResolvedPackage) :
    BTreeMap String PackageId :=
  BTreeMap.collect (package.dependencies.toList ++ peersOf S input.graph id)

def populateSharedPackage (input : PopulateInput) (disk : Disk) (id : PackageId) :
    Result Unit × Disk :=
  let loc := sharedLocation H S input id
  let (materialized, disk) := materializeOnePackage input disk id loc
  match materialized with
  | .error error => (.error error, disk)
  | .ok () =>
      match input.graph.packages[id]? with
      | none => (.error (.graphMissing id.name id.version), disk)
      | some package =>
          wireDepSymlinksInto input disk id loc (wiredEdges S input id package)
            (sharedPaths H S input)

def populateSharedVirtualStoreForPackages (input : PopulateInput) (disk : Disk) :
    Result Unit × Disk :=
  runAll (populateSharedPackage H S input) (sharedPackageIds S input) disk

/-- Bring the location of a project-local package up to date. -/
def materializeLocally (input : PopulateInput) (disk : Disk) (id : PackageId) :
    Result Unit × Disk :=
  if virtualPackageReady disk (.view id) then (.ok (), disk)
  else linkDir input (disk.remove (.view id)) id (.view id)

/-- Bring the link to a shared entry up to date. -/
def linkShared (input : PopulateInput) (disk : Disk) (id : PackageId) (target : Loc) :
    Result Unit × Disk :=
  if (disk (.view id)).any Node.isLink && symlinkIsCorrect disk (.view id) target then
    (.ok (), disk)
  else
    let disk := disk.remove (.view id)
    if input.symlinks then (.ok (), disk.write (.view id) (.link target))
    else linkDir input disk id (.view id)

def populatePackage (input : PopulateInput) (disk : Disk) (id : PackageId) :
    Result Unit × Disk :=
  if id ∈ localIds S input then
    let (materialized, disk) := materializeLocally input disk id
    match materialized with
    | .error error => (.error error, disk)
    | .ok () =>
        match input.graph.packages[id]? with
        | none => (.error (.graphMissing id.name id.version), disk)
        | some package =>
            wireDepSymlinksInto input disk id (.view id) package.dependencies
              (projectPaths input)
  else
    match sharedPaths H S input id with
    | none => (.error (.storeMissing id.name id.version), disk)
    | some target => linkShared input disk id target

/-- The disk is changed even when an error is returned. -/
def populateVirtualStore (input : PopulateInput) (disk : Disk) : Result Unit × Disk :=
  let (shared, disk) := populateSharedVirtualStoreForPackages H S input disk
  match shared with
  | .error error => (.error error, disk)
  | .ok () => runAll (populatePackage H S input) input.graph.packages.keys disk

end Populate

end Snpm.Linker
