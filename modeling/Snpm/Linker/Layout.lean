import Mathlib
import Snpm.Linker.VirtualStore

/-!
The layout of a project's virtual store over sequences of installs. After a
successful install a project-local package should be a directory of its own and
every other package a link to its current shared entry. The link of a package
that was shared by an earlier install hides behind the readiness check, because
that check follows links; the results name the runs in which this cannot
happen.
-/
namespace Snpm.Linker

open LinkTree

variable {H : Digest.Hash} {S : SemverCrate}

/-- The layout an install is meant to leave. -/
def LayoutCorrect (H : Digest.Hash) (S : SemverCrate) (input : PopulateInput) (disk : Disk) :
    Prop :=
  ∀ id ∈ input.graph.packages,
    (id ∈ localIds S input → ∃ content, disk (.view id) = some (.dir content)) ∧
    (id ∉ localIds S input → disk (.view id) = some (.link (sharedLocation H S input id)))

/-- No project-local package has a dependency under its own name. -/
def NoOwnName (S : SemverCrate) (input : PopulateInput) : Prop :=
  ∀ (id : PackageId) (package : ResolvedPackage), input.graph.packages[id]? = some package →
    id ∈ localIds S input → package.dependencies[id.name]? = none

def NotLink (disk : Disk) (loc : Loc) : Prop := ∀ target, disk loc ≠ some (.link target)

theorem ready_of_notLink {disk : Disk} {loc : Loc} (h : NotLink disk loc)
    (hready : virtualPackageReady disk loc = true) : ∃ content, disk loc = some (.dir content) := by
  simp only [virtualPackageReady, hasMetadata, stat_of_not_link h] at hready
  cases hnode : disk loc with
  | none => simp [hnode] at hready
  | some node =>
      cases node with
      | file => simp [hnode] at hready
      | dir content => exact ⟨content, rfl⟩
      | link target => exact absurd hnode (h target)

theorem linkDir_at (input : PopulateInput) (disk : Disk) (id : PackageId) (loc : Loc) :
    ((linkDir input disk id loc).1 = .ok () →
      ∃ content, (linkDir input disk id loc).2 loc = some (.dir content)) ∧
    (NotLink disk loc → NotLink (linkDir input disk id loc).2 loc) := by
  unfold linkDir
  split
  · exact ⟨nofun, fun h => h⟩
  · rename_i content _
    split
    · exact ⟨fun _ => ⟨content, write_self _ _ _⟩, fun _ _ => by simp⟩
    · exact ⟨nofun, fun h => h⟩
    · exact ⟨nofun, fun _ _ => by simp⟩

theorem linkDir_other (input : PopulateInput) (disk : Disk) (id : PackageId) {loc p : Loc}
    (hp : p ≠ loc) : (linkDir input disk id loc).2 p = disk p := by
  unfold linkDir
  split
  · rfl
  · split
    · exact write_other _ _ hp
    · rfl
    · exact write_other _ _ hp

theorem notLink_remove (disk : Disk) (loc : Loc) : NotLink (disk.remove loc) loc := by
  intro target
  simp [Tree.remove]

theorem materializeLocally_at (input : PopulateInput) (disk : Disk) (id : PackageId)
    (h : NotLink disk (.view id)) :
    ((materializeLocally input disk id).1 = .ok () →
      ∃ content, (materializeLocally input disk id).2 (.view id) = some (.dir content)) ∧
    NotLink (materializeLocally input disk id).2 (.view id) := by
  unfold materializeLocally
  split
  · rename_i hready
    exact ⟨fun _ => ready_of_notLink h hready, h⟩
  · have hdir := linkDir_at input (disk.remove (.view id)) id (.view id)
    exact ⟨hdir.1, hdir.2 (notLink_remove disk _)⟩

theorem materializeLocally_other (input : PopulateInput) (disk : Disk) (id : PackageId) {p : Loc}
    (hp : p ≠ .view id) : (materializeLocally input disk id).2 p = disk p := by
  unfold materializeLocally
  split
  · rfl
  · rw [linkDir_other _ _ _ hp, remove_other _ hp]

theorem wire_other (input : PopulateInput) (disk : Disk) (id : PackageId) {loc p : Loc}
    (wired : BTreeMap String PackageId) (locations : PackageId → Option Loc) (hp : p ≠ loc) :
    (wireDepSymlinksInto input disk id loc wired locations).2 p = disk p := by
  unfold wireDepSymlinksInto
  split
  · rfl
  · split
    · rfl
    · split
      · rfl
      · dsimp only
        split <;> split <;> first | rfl | exact relink_other _ _ _ hp

/-- Without a dependency under the own name the package's location is not touched. -/
theorem wire_disk (input : PopulateInput) (disk : Disk) (id : PackageId) (loc : Loc)
    (wired : BTreeMap String PackageId) (locations : PackageId → Option Loc)
    (hown : wired[id.name]? = none) :
    (wireDepSymlinksInto input disk id loc wired locations).2 = disk := by
  unfold wireDepSymlinksInto
  rw [hown, Option.bind_none]
  split
  · rfl
  · split
    · rfl
    · split
      · rfl
      · dsimp only
        split <;> rfl

theorem linkShared_other (input : PopulateInput) (disk : Disk) (id : PackageId) (target : Loc)
    {p : Loc} (hp : p ≠ .view id) : (linkShared input disk id target).2 p = disk p := by
  unfold linkShared
  split
  · rfl
  · dsimp only
    split
    · exact (write_other _ _ hp).trans (remove_other _ hp)
    · rw [linkDir_other _ _ _ hp, remove_other _ hp]

theorem linkShared_at (input : PopulateInput) (disk : Disk) (id : PackageId) (target : Loc)
    (hsymlinks : input.symlinks = true) :
    (linkShared input disk id target).2 (.view id) = some (.link target) := by
  unfold linkShared
  split
  · rename_i hcorrect
    simp only [symlinkIsCorrect, Bool.and_eq_true, decide_eq_true_eq] at hcorrect
    exact hcorrect.2.1
  · simp

theorem populatePackage_local (input : PopulateInput) :
    LinkTree.Local (populatePackage H S input) Loc.view := by
  intro disk id p hp
  unfold populatePackage
  split
  · dsimp only
    split
    · exact materializeLocally_other _ _ _ hp
    · split
      · exact materializeLocally_other _ _ _ hp
      · rw [wire_other _ _ _ _ _ hp, materializeLocally_other _ _ _ hp]
  · split
    · rfl
    · exact linkShared_other _ _ _ _ hp

/-- What one task leaves at its location. -/
theorem populatePackage_at {input : PopulateInput} (hown : NoOwnName S input) (disk : Disk)
    {id : PackageId} (hid : id ∈ input.graph.packages) :
    (id ∈ localIds S input → NotLink disk (.view id) →
      ((populatePackage H S input disk id).1 = .ok () →
        ∃ content, (populatePackage H S input disk id).2 (.view id) = some (.dir content)) ∧
      NotLink (populatePackage H S input disk id).2 (.view id)) ∧
    (id ∉ localIds S input → input.symlinks = true →
      (populatePackage H S input disk id).2 (.view id) =
        some (.link (sharedLocation H S input id))) := by
  constructor
  · intro hlocal hnot
    obtain ⟨package, hpackage⟩ := Option.isSome_iff_exists.mp
      (Std.ExtTreeMap.mem_iff_isSome_getElem?.mp hid)
    have hdisk := wire_disk input (materializeLocally input disk id).2 id (.view id)
      package.dependencies (projectPaths input) (hown id package hpackage hlocal)
    have hmat := materializeLocally_at input disk id hnot
    simp only [populatePackage, if_pos hlocal, hpackage]
    split
    · exact ⟨nofun, hmat.2⟩
    · rename_i hok
      rw [hdisk]
      exact ⟨fun _ => hmat.1 hok, hmat.2⟩
  · intro hlocal hsymlinks
    have hshared : sharedPaths H S input id = some (sharedLocation H S input id) := by
      have hmem : id ∈ sharedPackageIds S input := by
        simp [sharedPackageIds, Std.ExtTreeMap.mem_keys, hid, hlocal]
      simp [sharedPaths, hmem]
    simp only [populatePackage, if_neg hlocal, hshared]
    exact linkShared_at _ _ _ _ hsymlinks

theorem materializeOnePackage_other (input : PopulateInput) (disk : Disk) (id : PackageId)
    {loc p : Loc} (hp : p ≠ loc) : (materializeOnePackage input disk id loc).2 p = disk p := by
  unfold materializeOnePackage
  split
  · rfl
  · split
    · rfl
    · split
      · exact remove_other _ hp
      · exact (write_other _ _ hp).trans (remove_other _ hp)

theorem populateSharedPackage_local (input : PopulateInput) :
    LinkTree.Local (populateSharedPackage H S input) (sharedLocation H S input) := by
  intro disk id p hp
  unfold populateSharedPackage
  dsimp only
  split
  · exact materializeOnePackage_other _ _ _ hp
  · split
    · exact materializeOnePackage_other _ _ _ hp
    · rw [wire_other _ _ _ _ _ hp, materializeOnePackage_other _ _ _ hp]

theorem populateShared_view (input : PopulateInput) (disk : Disk) (id : PackageId) :
    (populateSharedVirtualStoreForPackages H S input disk).2 (.view id) = disk (.view id) :=
  runAll_other (populateSharedPackage_local input) fun _ _ => nofun

/-- In the batch over the graph every package is handled from its own location
as it was before the batch. -/
theorem populatePackages_at (input : PopulateInput) (disk : Disk) {id : PackageId}
    (hid : id ∈ input.graph.packages) :
    ∃ before : Disk, before (.view id) = disk (.view id) ∧
      (∀ p, (∀ j, p ≠ Loc.view j) → before p = disk p) ∧
      (runAll (populatePackage H S input) input.graph.packages.keys disk).2 (.view id) =
        (populatePackage H S input before id).2 (.view id) ∧
      ((runAll (populatePackage H S input) input.graph.packages.keys disk).1 = .ok () →
        (populatePackage H S input before id).1 = .ok ()) :=
  runAll_at (populatePackage_local input)
    (Std.ExtTreeMap.nodup_keys.map fun _ _ => Loc.view.inj) (Std.ExtTreeMap.mem_keys.mpr hid)

/-- The effect of an install on the location of one package. -/
theorem populate_view {input : PopulateInput} (hown : NoOwnName S input) (disk : Disk)
    (id : PackageId) :
    (populateVirtualStore H S input disk).2 (.view id) = disk (.view id) ∨
    (id ∈ input.graph.packages ∧ id ∈ localIds S input ∧
      (NotLink disk (.view id) → NotLink (populateVirtualStore H S input disk).2 (.view id))) ∨
    (id ∈ input.graph.packages ∧ id ∉ localIds S input) := by
  unfold populateVirtualStore
  dsimp only
  split
  · exact .inl (populateShared_view input disk id)
  · by_cases hid : id ∈ input.graph.packages
    · by_cases hlocal : id ∈ localIds S input
      · refine .inr (.inl ⟨hid, hlocal, fun hnot => ?_⟩)
        obtain ⟨before, hbefore, -, hfinal, -⟩ := populatePackages_at (H := H) (S := S) input
          (populateSharedVirtualStoreForPackages H S input disk).2 hid
        intro target
        rw [hfinal]
        refine ((populatePackage_at hown before hid).1 hlocal ?_).2 target
        intro target
        rw [hbefore, populateShared_view]
        exact hnot target
      · exact .inr (.inr ⟨hid, hlocal⟩)
    · refine .inl ((runAll_other (populatePackage_local input) ?_).trans
        (populateShared_view input disk id))
      intro k hk heq
      exact hid (Loc.view.inj heq ▸ Std.ExtTreeMap.mem_keys.mp hk)

/-- A successful install leaves the right layout when no project-local package
starts out as a link. -/
theorem layoutCorrect_of_notLink {input : PopulateInput} (hsymlinks : input.symlinks = true)
    (hown : NoOwnName S input) {disk : Disk}
    (hnot : ∀ id ∈ input.graph.packages, id ∈ localIds S input → NotLink disk (.view id))
    (hok : (populateVirtualStore H S input disk).1 = .ok ()) :
    LayoutCorrect H S input (populateVirtualStore H S input disk).2 := by
  intro id hid
  unfold populateVirtualStore at hok ⊢
  dsimp only at hok ⊢
  split
  · rename_i hshared
    rw [hshared] at hok
    cases hok
  · rename_i hshared
    rw [hshared] at hok
    obtain ⟨before, hbefore, -, hfinal, hresult⟩ := populatePackages_at (H := H) (S := S) input
      (populateSharedVirtualStoreForPackages H S input disk).2 hid
    rw [hfinal]
    have hat := populatePackage_at (H := H) hown before hid
    refine ⟨fun hlocal => (hat.1 hlocal ?_).1 (hresult hok), fun hlocal => hat.2 hlocal hsymlinks⟩
    intro target
    rw [hbefore, populateShared_view]
    exact hnot id hid hlocal target

/-- The disk after a sequence of installs, failed ones included. -/
def runInstalls (H : Digest.Hash) (S : SemverCrate) (installs : List PopulateInput) (disk : Disk) :
    Disk :=
  installs.foldl (fun disk input => (populateVirtualStore H S input disk).2) disk

/-- Where a link at a package location comes from: the install that shared it. -/
theorem runInstalls_link {installs : List PopulateInput} {disk : Disk}
    (hfresh : ∀ id, NotLink disk (.view id))
    (hown : ∀ input ∈ installs, NoOwnName S input) {id : PackageId} {target : Loc}
    (hlink : runInstalls H S installs disk (.view id) = some (.link target)) :
    ∃ input ∈ installs, id ∈ sharedPackageIds S input := by
  induction installs using List.reverseRecOn generalizing target with
  | nil => exact absurd hlink (hfresh id target)
  | append_singleton earlier input ih =>
      have hmem : input ∈ earlier ++ [input] := by simp
      have hstep := populate_view (H := H) (hown input hmem) (runInstalls H S earlier disk) id
      have hearlier : ∀ {t}, runInstalls H S earlier disk (.view id) = some (.link t) →
          ∃ input' ∈ earlier ++ [input], id ∈ sharedPackageIds S input' := by
        intro t ht
        obtain ⟨input', hinput', hid⟩ := ih (fun i hi => hown i (by simp [hi])) ht
        exact ⟨input', by simp [hinput'], hid⟩
      have hlast : (populateVirtualStore H S input (runInstalls H S earlier disk)).2 (.view id) =
          some (.link target) := by
        simpa [runInstalls] using hlink
      obtain hsame | ⟨hid, hlocal, hnot⟩ | ⟨hid, hlocal⟩ := hstep
      · exact hearlier (hsame ▸ hlast)
      · by_contra hnone
        refine hnot (fun t ht => hnone (hearlier ht)) target hlast
      · exact ⟨input, hmem, by simp [sharedPackageIds, Std.ExtTreeMap.mem_keys, hid, hlocal]⟩

/-- No package turns project-local after an earlier install shared it. -/
def NeverSharedBefore (S : SemverCrate) (earlier : List PopulateInput) (input : PopulateInput) :
    Prop :=
  ∀ id ∈ input.graph.packages, id ∈ localIds S input →
    ∀ before ∈ earlier, id ∉ sharedPackageIds S before

/-- In a run in which no package turns project-local after having been shared,
and no project-local package depends on its own name, every successful install
leaves the right layout. -/
theorem layoutCorrect_run (H : Digest.Hash) (S : SemverCrate) (installs : List PopulateInput)
    (disk : Disk) (hfresh : ∀ id, NotLink disk (.view id))
    (hsymlinks : ∀ input ∈ installs, input.symlinks = true)
    (hsafe : ∀ earlier input later, installs = earlier ++ input :: later →
      NeverSharedBefore S earlier input ∧ NoOwnName S input) :
    ∀ earlier input later, installs = earlier ++ input :: later →
      (populateVirtualStore H S input (runInstalls H S earlier disk)).1 = .ok () →
      LayoutCorrect H S input (populateVirtualStore H S input (runInstalls H S earlier disk)).2 := by
  intro earlier input later hsplit hok
  have hown : ∀ i ∈ earlier, NoOwnName S i := by
    intro i hi
    obtain ⟨before, after, rfl⟩ := List.append_of_mem hi
    exact (hsafe before i (after ++ input :: later) (by simp [hsplit])).2
  have hinput := hsafe earlier input later hsplit
  refine layoutCorrect_of_notLink (hsymlinks input (by simp [hsplit])) hinput.2 ?_ hok
  intro id hid hlocal target hlink
  obtain ⟨before, hbefore, hshared⟩ := runInstalls_link hfresh hown hlink
  exact hinput.1 id hid hlocal before hbefore hshared

/-- A link to a shared entry survives the install that makes its package
project-local: the readiness check sees the metadata file behind it. -/
theorem populate_keeps_visible_link {input : PopulateInput} (hown : NoOwnName S input)
    {disk : Disk} {id : PackageId} {hash : Option String} {content : DirContent}
    (hid : id ∈ input.graph.packages) (hlocal : id ∈ localIds S input)
    (hlink : disk (.view id) = some (.link (.shared id hash)))
    (hentry : disk (.shared id hash) = some (.dir content)) (hmetadata : content.metadata = true) :
    (populateVirtualStore H S input disk).2 (.view id) = some (.link (.shared id hash)) := by
  have hshared : (populateSharedVirtualStoreForPackages H S input disk).2 (.shared id hash) =
      some (.dir content) := by
    refine (runAll_other (populateSharedPackage_local input) ?_).trans hentry
    intro k hk heq
    simp only [sharedLocation, Loc.shared.injEq] at heq
    simp [sharedPackageIds, ← heq.1, hlocal] at hk
  unfold populateVirtualStore
  dsimp only
  split
  · exact (populateShared_view input disk id).trans hlink
  · obtain ⟨before, hbefore, hframe, hfinal, -⟩ := populatePackages_at (H := H) (S := S) input
      (populateSharedVirtualStoreForPackages H S input disk).2 hid
    rw [populateShared_view, hlink] at hbefore
    have hready : virtualPackageReady before (.view id) = true := by
      have hlimit : linkLimit = 38 + 1 + 1 := rfl
      have hstat : before.stat (.view id) = some (.dir content) := by
        rw [Tree.stat, hlimit, follow, hbefore]
        simp only [follow, hframe (.shared id hash) (by simp), hshared]
      simp [virtualPackageReady, hasMetadata, hstat, hmetadata]
    obtain ⟨package, hpackage⟩ := Option.isSome_iff_exists.mp
      (Std.ExtTreeMap.mem_iff_isSome_getElem?.mp hid)
    rw [hfinal, ← hbefore]
    simp only [populatePackage, if_pos hlocal, materializeLocally, if_pos hready, hpackage,
      wire_disk _ _ _ _ _ _ (hown id package hpackage hlocal)]

/-- An install of one package under a list of packages that may run scripts. -/
def installAllowing (scripts : List String) : PopulateInput where
  graph := onePackage
  locality := ⟨⟨.none, .ofList scripts compare, ∅, "/data", none, false, "^"⟩, none, [], fun _ => false⟩
  storePaths _ := some ⟨true, true, none⟩
  linkError _ := none
  wireError _ := none
  stateMatches _ := false
  symlinks := true

def emptyDisk : Disk := fun _ => none

theorem installAllowing_noOwnName (scripts : List String) :
    NoOwnName S (installAllowing scripts) := by
  intro id package hpackage _
  have hall : ∀ p ∈ onePackage.packages.toList, p.2.dependencies = ∅ := by decide +kernel
  rw [hall (id, package) (Std.ExtTreeMap.mem_toList_iff_getElem?_eq_some.mpr hpackage)]
  simp

/-- A first install without allowed scripts shares the package. -/
theorem populate_first_install :
    (populateVirtualStore H releaseCrate (installAllowing []) emptyDisk).1 = .ok () ∧
      (populateVirtualStore H releaseCrate (installAllowing []) emptyDisk).2 (.view pkgA) =
        some (.link (sharedLocation H releaseCrate (installAllowing []) pkgA)) ∧
      (populateVirtualStore H releaseCrate (installAllowing []) emptyDisk).2
          (sharedLocation H releaseCrate (installAllowing []) pkgA) =
        some (.dir ⟨true, true, none⟩) := by
  have hkeys : (installAllowing []).graph.packages.keys = [pkgA] := by decide +kernel
  have hshared : sharedPackageIds releaseCrate (installAllowing []) = [pkgA] := by decide +kernel
  have hlocal : pkgA ∉ localIds releaseCrate (installAllowing []) := by decide +kernel
  have hpackage : (installAllowing []).graph.packages[pkgA]? =
      some (samplePackage pkgA "a.tgz" ∅) := by decide +kernel
  have hwired : wiredEdges releaseCrate (installAllowing []) pkgA
      (samplePackage pkgA "a.tgz" ∅) = ∅ := by decide +kernel
  have hstore : (installAllowing []).storePaths pkgA = some ⟨true, true, none⟩ := rfl
  have herror : ∀ loc, (installAllowing []).linkError loc = none := fun _ => rfl
  have hsymlinks : (installAllowing []).symlinks = true := rfl
  set loc := sharedLocation H releaseCrate (installAllowing []) pkgA with hloc
  have hview : loc ≠ .view pkgA := by simp [hloc, sharedLocation]
  have hready : virtualPackageReady emptyDisk loc = false := rfl
  have hphase : populateSharedVirtualStoreForPackages H releaseCrate (installAllowing []) emptyDisk =
      (.ok (), (emptyDisk.remove loc).write loc (.dir ⟨true, true, none⟩)) := by
    simp [populateSharedVirtualStoreForPackages, hshared, runAll, populateSharedPackage,
      materializeOnePackage, ← hloc, hready, hpackage, hwired, wireDepSymlinksInto,
      hstore, herror, Except.bind]
  have hpaths : sharedPaths H releaseCrate (installAllowing []) pkgA = some loc := by
    simp [sharedPaths, hshared, hloc]
  have hnone : (emptyDisk.remove loc).write loc (.dir ⟨true, true, none⟩) (.view pkgA) = none := by
    rw [write_other _ _ hview.symm, remove_other _ hview.symm]
    rfl
  have hbatch : populateVirtualStore H releaseCrate (installAllowing []) emptyDisk =
      (.ok (), (((emptyDisk.remove loc).write loc (.dir ⟨true, true, none⟩)).remove (.view pkgA)).write
        (.view pkgA) (.link loc)) := by
    simp [populateVirtualStore, hphase, hkeys, runAll, populatePackage, hlocal, hpaths,
      linkShared, hnone, hsymlinks, Except.bind]
  rw [hbatch]
  refine ⟨rfl, by simp, ?_⟩
  dsimp only
  rw [write_other _ _ hview, remove_other _ hview, write_self]

/-- With the script allowed the install handles the package locally and succeeds. -/
theorem populate_allowed_ok (disk : Disk) :
    (populateVirtualStore H releaseCrate (installAllowing ["a"]) disk).1 = .ok () := by
  have hkeys : (installAllowing ["a"]).graph.packages.keys = [pkgA] := by decide +kernel
  have hshared : sharedPackageIds releaseCrate (installAllowing ["a"]) = [] := by decide +kernel
  have hlocal : pkgA ∈ localIds releaseCrate (installAllowing ["a"]) := by decide +kernel
  have hpackage : (installAllowing ["a"]).graph.packages[pkgA]? =
      some (samplePackage pkgA "a.tgz" ∅) := by decide +kernel
  have hstore : (installAllowing ["a"]).storePaths pkgA = some ⟨true, true, none⟩ := rfl
  have herror : (installAllowing ["a"]).linkError (.view pkgA) = none := rfl
  have hmaterialized : (materializeLocally (installAllowing ["a"]) disk pkgA).1 = .ok () := by
    unfold materializeLocally
    split
    · rfl
    · simp [linkDir, hstore, herror]
  have hdeps : (samplePackage pkgA "a.tgz" ∅).dependencies = ∅ := rfl
  simp [populateVirtualStore, populateSharedVirtualStoreForPackages, hshared, runAll, hkeys,
    populatePackage, hlocal, hmaterialized, hpackage, wireDepSymlinksInto, hdeps, Except.bind]

/-- Allowing a shared package to run scripts leaves its location a link into the
shared store, although the install succeeds. -/
theorem layout_broken_by_allowed_script :
    let first := populateVirtualStore Digest.unaryHash releaseCrate (installAllowing []) emptyDisk
    let second := populateVirtualStore Digest.unaryHash releaseCrate (installAllowing ["a"]) first.2
    first.1 = .ok () ∧ second.1 = .ok () ∧ pkgA ∈ localIds releaseCrate (installAllowing ["a"]) ∧
      second.2 (.view pkgA) =
        some (.link (sharedLocation Digest.unaryHash releaseCrate (installAllowing []) pkgA)) ∧
      ¬ LayoutCorrect Digest.unaryHash releaseCrate (installAllowing ["a"]) second.2 := by
  intro first second
  obtain ⟨hok, hlink, hentry⟩ := populate_first_install (H := Digest.unaryHash)
  have hid : pkgA ∈ (installAllowing ["a"]).graph.packages := by decide +kernel
  have hlocal : pkgA ∈ localIds releaseCrate (installAllowing ["a"]) := by decide +kernel
  have hkept : second.2 (.view pkgA) =
      some (.link (sharedLocation Digest.unaryHash releaseCrate (installAllowing []) pkgA)) :=
    populate_keeps_visible_link (installAllowing_noOwnName ["a"]) hid hlocal hlink hentry rfl
  refine ⟨hok, populate_allowed_ok _, hlocal, hkept, fun hcorrect => ?_⟩
  obtain ⟨content, hdir⟩ := (hcorrect pkgA hid).1 hlocal
  rw [hkept] at hdir
  cases hdir

/-- A package that is project-local from the first install on is a directory. -/
theorem layoutCorrect_allowed_from_start :
    (populateVirtualStore Digest.unaryHash releaseCrate (installAllowing ["a"]) emptyDisk).1 =
        .ok () ∧
      LayoutCorrect Digest.unaryHash releaseCrate (installAllowing ["a"])
        (populateVirtualStore Digest.unaryHash releaseCrate (installAllowing ["a"]) emptyDisk).2 := by
  refine ⟨populate_allowed_ok _, layoutCorrect_run Digest.unaryHash releaseCrate
    [installAllowing ["a"]] emptyDisk (fun _ => nofun) (by simp [installAllowing]) ?_ [] _ [] rfl
    (populate_allowed_ok _)⟩
  intro earlier input later hsplit
  obtain ⟨rfl, rfl, -⟩ : earlier = [] ∧ input = installAllowing ["a"] ∧ later = [] := by
    cases earlier with
    | nil => simpa [eq_comm] using hsplit
    | cons e es => simp at hsplit
  exact ⟨fun _ _ _ _ => nofun, installAllowing_noOwnName ["a"]⟩

end Snpm.Linker
