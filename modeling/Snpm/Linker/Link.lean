import Mathlib
import Snpm.Linker.VirtualStore

/-!
Linking a project. After the virtual store is populated, stale root links are
pruned, every selected root dependency is linked into `node_modules`, and then
packages of the graph are hoisted into the same directory. Launchers for
executables are not modelled; they live in a directory of their own.
-/
namespace Snpm.Linker

open LinkTree

structure LinkInput extends PopulateInput where
  project : Project
  includeDev : Bool
  /-- Why the two top-level directories cannot be created, if they cannot. -/
  createError : Option SnpmError
  /-- Whether a path outside the modelled locations lies in a virtual store. -/
  inVirtualStore : PathBuf → Bool

def isSelectedRoot (manifest : Manifest) (includeDev : Bool) (name : String) : Bool :=
  let deps := manifest.dependencies.contains name
  let devDeps := manifest.devDependencies.contains name
  let optionalDeps := manifest.optionalDependencies.contains name
  (deps || devDeps || optionalDeps) && (includeDev || !(devDeps && !deps))

def filterRootDependencies (manifest : Manifest) (graph : ResolutionGraph) (includeDev : Bool) :
    List (String × RootDependency) :=
  graph.root.dependencies.toList.filter fun r => isSelectedRoot manifest includeDev r.1

/-- Directory listings reach plain names and names inside one scope. -/
def isListed (name : String) : Bool :=
  name.toList.count '/' = 0 || (Text.startsWith name "@" && name.toList.count '/' = 1)

def leadsIntoVirtualStore (input : LinkInput) : Loc → Bool
  | .view _ => true
  | .shared _ _ => true
  | .nodeModule _ => false
  | .other path => input.inVirtualStore path

def isStale (input : LinkInput) (keep : List String) (disk : Disk) (name : String) : Bool :=
  isListed name && !keep.contains name &&
    match disk (.nodeModule name) with
    | some (.link target) => leadsIntoVirtualStore input target
    | _ => false

def pruneStaleRootEntries (input : LinkInput) (keep : List String) (disk : Disk) : Disk
  | .nodeModule name => if isStale input keep disk name then none else disk (.nodeModule name)
  | loc => disk loc

/-- Make `node_modules/<name>` lead to a package of the virtual store. -/
def linkNodeModule (input : LinkInput) (missing : SnpmError) (disk : Disk) (name : String)
    (id : PackageId) : Result Unit × Disk :=
  match projectPaths input.toPopulateInput id with
  | none => (.error missing, disk)
  | some target => relink input.toPopulateInput disk target (.nodeModule name)

def linkRootDependency (input : LinkInput) (disk : Disk) (r : String × RootDependency) :
    Result Unit × Disk :=
  linkNodeModule input (.graphMissing r.2.resolved.name r.2.resolved.version) disk r.1 r.2.resolved

def linkRootDependencies (input : LinkInput) (roots : List (String × RootDependency))
    (disk : Disk) : Result Unit × Disk :=
  runAll (linkRootDependency input) roots disk

def effectiveHoisting (config : SnpmConfig) (workspace : Option Workspace) : HoistingMode :=
  match (workspace.bind (·.config.hoisting)).bind HoistingMode.parse with
  | some mode => mode
  | none => config.hoisting

/-- The package hoisted under a name: the first of its versions in text order. -/
def hoistPick (mode : HoistingMode) (graph : ResolutionGraph) (name : String) :
    Option PackageId :=
  let ids := idsByName graph name
  match mode with
  | .none => none
  | .singleVersion => if ids.length = 1 then ids.head? else none
  | .all => ids.head?

def toHoist (mode : HoistingMode) (graph : ResolutionGraph) : List (String × PackageId) :=
  (graph.packages.keys.map (·.name)).dedup.filterMap fun name =>
    (hoistPick mode graph name).map fun id => (name, id)

def linkHoistedPackage (input : LinkInput) (disk : Disk) (h : String × PackageId) :
    Result Unit × Disk :=
  linkNodeModule input (.storeMissing h.2.name h.2.version) disk h.1 h.2

def hoistPackages (input : LinkInput) (mode : HoistingMode) (disk : Disk) : Result Unit × Disk :=
  if mode = .none then (.ok (), disk)
  else runAll (linkHoistedPackage input) (toHoist mode input.graph) disk

section Link

variable (H : Digest.Hash) (S : SemverCrate)

def hoistingMode (input : LinkInput) : HoistingMode :=
  effectiveHoisting input.locality.config input.locality.workspace

def selectedRoots (input : LinkInput) : List (String × RootDependency) :=
  filterRootDependencies input.project.manifest input.graph input.includeDev

def link (input : LinkInput) (disk : Disk) : Result Unit × Disk :=
  match input.createError with
  | some error => (.error error, disk)
  | none =>
      let (populated, disk) := populateVirtualStore H S input.toPopulateInput disk
      match populated with
      | .error error => (.error error, disk)
      | .ok () =>
          let roots := selectedRoots input
          let disk := pruneStaleRootEntries input (roots.map (·.1)) disk
          let (linked, disk) := linkRootDependencies input roots disk
          match linked with
          | .error error => (.error error, disk)
          | .ok () =>
              if hoistingMode input = .none then (.ok (), disk)
              else hoistPackages input (hoistingMode input) disk

end Link

theorem idsByName_name {graph : ResolutionGraph} {name : String} {id : PackageId}
    (h : id ∈ idsByName graph name) : id ∈ graph.packages.keys ∧ id.name = name := by
  simpa [idsByName] using h

theorem mem_toHoist {mode : HoistingMode} {graph : ResolutionGraph} {name : String}
    {id : PackageId} : (name, id) ∈ toHoist mode graph ↔ hoistPick mode graph name = some id := by
  simp only [toHoist, List.mem_filterMap, List.mem_dedup, List.mem_map, Option.map_eq_some_iff,
    Prod.mk.injEq]
  constructor
  · rintro ⟨_, -, _, hpick, rfl, rfl⟩
    exact hpick
  · intro hpick
    refine ⟨name, ?_, id, hpick, rfl, rfl⟩
    have hhead : id ∈ idsByName graph name := by
      unfold hoistPick at hpick
      cases mode with
      | none => cases hpick
      | singleVersion =>
          simp only [Option.ite_none_right_eq_some] at hpick
          exact List.mem_of_head? hpick.2
      | all => exact List.mem_of_head? hpick
    exact ⟨id, idsByName_name hhead⟩

theorem toHoist_nodup (mode : HoistingMode) (graph : ResolutionGraph) :
    ((toHoist mode graph).map fun h => Loc.nodeModule h.1).Nodup := by
  have hnames : ((toHoist mode graph).map (·.1)).Nodup := by
    refine List.Nodup.sublist ?_ (List.nodup_dedup (graph.packages.keys.map (·.name)))
    unfold toHoist
    induction (graph.packages.keys.map (·.name)).dedup with
    | nil => exact .slnil
    | cons name names ih =>
        cases hpick : hoistPick mode graph name with
        | none =>
            rw [List.filterMap_cons_none (by simp [hpick])]
            exact ih.cons name
        | some id =>
            rw [List.filterMap_cons_some (b := (name, id)) (by simp [hpick])]
            exact ih.cons_cons name
  have := hnames.map fun _ _ => Loc.nodeModule.inj
  simpa [Function.comp_def] using this

theorem selectedRoots_nodup (input : LinkInput) :
    ((selectedRoots input).map fun r => Loc.nodeModule r.1).Nodup := by
  have hnames : ((selectedRoots input).map (·.1)).Nodup := by
    refine List.Nodup.sublist (List.filter_sublist.map _) ?_
    rw [Std.ExtTreeMap.map_fst_toList_eq_keys]
    exact Std.ExtTreeMap.nodup_keys
  have := hnames.map fun _ _ => Loc.nodeModule.inj
  simpa [Function.comp_def] using this

theorem linkNodeModule_other (input : LinkInput) (missing : SnpmError) (disk : Disk)
    (name : String) (id : PackageId) {p : Loc} (hp : p ≠ .nodeModule name) :
    (linkNodeModule input missing disk name id).2 p = disk p := by
  unfold linkNodeModule
  split
  · rfl
  · exact relink_other _ _ _ hp

theorem linkNodeModule_leadsTo {input : LinkInput} {missing : SnpmError} {disk : Disk}
    {name : String} {id : PackageId}
    (h : (linkNodeModule input missing disk name id).1 = .ok ()) :
    LeadsTo (linkNodeModule input missing disk name id).2 (.nodeModule name) (.view id) := by
  unfold linkNodeModule at h ⊢
  cases hpath : projectPaths input.toPopulateInput id with
  | none =>
      rw [hpath] at h
      cases h
  | some target =>
      rw [hpath] at h
      obtain rfl : Loc.view id = target := by
        simp only [projectPaths, Option.ite_none_right_eq_some] at hpath
        exact Option.some.inj hpath.2
      exact relink_leadsTo h

theorem linkRootDependency_local (input : LinkInput) :
    LinkTree.Local (linkRootDependency input) fun r => Loc.nodeModule r.1 :=
  fun disk r _ hp => linkNodeModule_other _ _ disk r.1 r.2.resolved hp

theorem linkHoistedPackage_local (input : LinkInput) :
    LinkTree.Local (linkHoistedPackage input) fun h => Loc.nodeModule h.1 :=
  fun disk h _ hp => linkNodeModule_other _ _ disk h.1 h.2 hp

theorem linkRootDependencies_leadsTo {input : LinkInput} {disk : Disk}
    (hok : (linkRootDependencies input (selectedRoots input) disk).1 = .ok ())
    {r : String × RootDependency} (hr : r ∈ selectedRoots input) :
    LeadsTo (linkRootDependencies input (selectedRoots input) disk).2 (.nodeModule r.1)
      (.view r.2.resolved) := by
  obtain ⟨before, -, -, hfinal, hresult⟩ := runAll_at (linkRootDependency_local input)
    (selectedRoots_nodup input) hr
  have hleads := linkNodeModule_leadsTo (hresult hok)
  unfold LeadsTo linkRootDependencies
  rw [hfinal]
  exact hleads

/-- Hoisting under a name decides where the name leads; other names keep what
root linking made of them. -/
theorem hoistPackages_leadsTo {input : LinkInput} {mode : HoistingMode} {disk : Disk}
    (hok : (hoistPackages input mode disk).1 = .ok ()) (name : String) :
    (∀ id, hoistPick mode input.graph name = some id →
      LeadsTo (hoistPackages input mode disk).2 (.nodeModule name) (.view id)) ∧
    (hoistPick mode input.graph name = none →
      (hoistPackages input mode disk).2 (.nodeModule name) = disk (.nodeModule name)) := by
  unfold hoistPackages at hok ⊢
  by_cases hmode : mode = .none
  · subst hmode
    exact ⟨nofun, fun _ => rfl⟩
  · rw [if_neg hmode] at hok ⊢
    constructor
    · intro id hpick
      have hmem : (name, id) ∈ toHoist mode input.graph := mem_toHoist.mpr hpick
      obtain ⟨before, -, -, hfinal, hresult⟩ := runAll_at (linkHoistedPackage_local input)
        (toHoist_nodup mode input.graph) hmem
      have hleads := linkNodeModule_leadsTo (hresult hok)
      unfold LeadsTo
      rw [hfinal]
      exact hleads
    · intro hpick
      refine runAll_other (linkHoistedPackage_local input) ?_
      rintro ⟨hoisted, id⟩ hmem heq
      rw [Loc.nodeModule.inj heq, mem_toHoist.mp hmem] at hpick
      cases hpick

/-- A successful link ends in root linking followed by hoisting. -/
theorem link_ok {H : Digest.Hash} {S : SemverCrate} {input : LinkInput} {disk : Disk}
    (hok : (link H S input disk).1 = .ok ()) :
    ∃ pruned, (linkRootDependencies input (selectedRoots input) pruned).1 = .ok () ∧
      link H S input disk = hoistPackages input (hoistingMode input)
        (linkRootDependencies input (selectedRoots input) pruned).2 := by
  unfold link at hok ⊢
  cases hcreate : input.createError with
  | some error =>
      rw [hcreate] at hok
      cases hok
  | none =>
      rw [hcreate] at hok
      dsimp only at hok ⊢
      cases hpopulated : (populateVirtualStore H S input.toPopulateInput disk).1 with
      | error error =>
          rw [hpopulated] at hok
          cases hok
      | ok u =>
          rw [hpopulated] at hok
          dsimp only at hok ⊢
          set pruned := pruneStaleRootEntries input ((selectedRoots input).map (·.1))
            (populateVirtualStore H S input.toPopulateInput disk).2
          cases hlinked : (linkRootDependencies input (selectedRoots input) pruned).1 with
          | error error =>
              rw [hlinked] at hok
              cases hok
          | ok u =>
              refine ⟨pruned, hlinked, ?_⟩
              dsimp only
              split
              · rename_i hmode
                simp [hoistPackages, hmode]
              · rfl

/-- Every selected root name leads to the location of its own resolved package. -/
def RootsLinked (input : LinkInput) (disk : Disk) : Prop :=
  ∀ r ∈ selectedRoots input, LeadsTo disk (.nodeModule r.1) (.view r.2.resolved)

/-- After a successful link the root links are right exactly when hoisting picks
no other package under the name of a selected root. -/
theorem link_rootsLinked_iff (H : Digest.Hash) (S : SemverCrate) (input : LinkInput) (disk : Disk)
    (hok : (link H S input disk).1 = .ok ()) :
    RootsLinked input (link H S input disk).2 ↔
      ∀ r ∈ selectedRoots input, ∀ id,
        hoistPick (hoistingMode input) input.graph r.1 = some id → id = r.2.resolved := by
  obtain ⟨pruned, hlinked, hlink⟩ := link_ok hok
  rw [hlink] at hok ⊢
  constructor
  · intro hroots r hr id hpick
    have hhoisted := (hoistPackages_leadsTo hok r.1).1 id hpick
    exact Loc.view.inj (hhoisted.unique (hroots r hr))
  · intro hpicks r hr
    have hhoisted := hoistPackages_leadsTo hok r.1
    cases hpick : hoistPick (hoistingMode input) input.graph r.1 with
    | some id =>
        have hleads := hhoisted.1 id hpick
        rwa [hpicks r hr id hpick] at hleads
    | none =>
        have hleads := linkRootDependencies_leadsTo hlinked hr
        unfold LeadsTo at hleads ⊢
        rwa [hhoisted.2 hpick]

def foo1 : PackageId := ⟨"foo", "1.0.0"⟩

def foo2 : PackageId := ⟨"foo", "2.0.0"⟩

/-- A root dependency on the second version of `foo` beside a package that uses
the first. -/
def twoVersions : ResolutionGraph where
  root := ⟨BTreeMap.collect [("a", ⟨"^1.0.0", pkgA⟩), ("foo", ⟨"^2.0.0", foo2⟩)]⟩
  packages := BTreeMap.collect
    [(pkgA, samplePackage pkgA "a.tgz" (BTreeMap.collect [("foo", foo1)])),
      (foo1, samplePackage foo1 "foo-1.tgz" ∅), (foo2, samplePackage foo2 "foo-2.tgz" ∅)]

/-- A link of that graph under a hoisting mode, with every package kept local. -/
def linkTwoVersions (hoisting : HoistingMode) : LinkInput where
  graph := twoVersions
  locality :=
    ⟨⟨hoisting, .ofList ["a", "foo"] compare, ∅, "/data", none, false, "^"⟩, none, [],
      fun _ => false⟩
  storePaths _ := some ⟨true, true, none⟩
  linkError _ := none
  wireError _ := none
  stateMatches _ := false
  symlinks := true
  project := ⟨"/app", "/app/package.json", { Manifest.empty with
    dependencies := BTreeMap.collect [("a", "^1.0.0"), ("foo", "^2.0.0")] }⟩
  includeDev := true
  createError := none
  inVirtualStore _ := false

/-- With every name hoisted the root link of `foo` ends at the lower version. -/
theorem hoisting_overwrites_root_link :
    (link Digest.unaryHash releaseCrate (linkTwoVersions .all) fun _ => none).1 = .ok () ∧
      ("foo", ⟨"^2.0.0", foo2⟩) ∈ selectedRoots (linkTwoVersions .all) ∧
      (link Digest.unaryHash releaseCrate (linkTwoVersions .all) fun _ => none).2
        (.nodeModule "foo") = some (.link (.view foo1)) ∧
      ¬ RootsLinked (linkTwoVersions .all)
        (link Digest.unaryHash releaseCrate (linkTwoVersions .all) fun _ => none).2 := by
  have hroot : ("foo", ⟨"^2.0.0", foo2⟩) ∈ selectedRoots (linkTwoVersions .all) := by
    decide +kernel
  have hmodule : (link Digest.unaryHash releaseCrate (linkTwoVersions .all) fun _ => none).2
      (.nodeModule "foo") = some (.link (.view foo1)) := by decide +kernel
  refine ⟨by decide +kernel, hroot, hmodule, fun hroots => ?_⟩
  exact absurd (Loc.view.inj ((hroots _ hroot).unique (.inl hmodule))) (by decide)

/-- With single versions only, `foo` is not hoisted and its root link stands. -/
theorem single_version_keeps_root_links :
    (link Digest.unaryHash releaseCrate (linkTwoVersions .singleVersion) fun _ => none).1 =
        .ok () ∧
      RootsLinked (linkTwoVersions .singleVersion)
        (link Digest.unaryHash releaseCrate (linkTwoVersions .singleVersion) fun _ => none).2 := by
  have hok : (link Digest.unaryHash releaseCrate (linkTwoVersions .singleVersion) fun _ => none).1 =
      .ok () := by decide +kernel
  refine ⟨hok, (link_rootsLinked_iff _ _ _ _ hok).mpr ?_⟩
  have hpicks : ∀ r ∈ selectedRoots (linkTwoVersions .singleVersion),
      hoistPick .singleVersion twoVersions r.1 = none ∨
        hoistPick .singleVersion twoVersions r.1 = some r.2.resolved := by decide +kernel
  intro r hr id hpick
  obtain hnone | hsome := hpicks r hr
  · exact absurd (hnone.symm.trans hpick) nofun
  · exact Option.some.inj (hpick.symm.trans hsome)

end Snpm.Linker
