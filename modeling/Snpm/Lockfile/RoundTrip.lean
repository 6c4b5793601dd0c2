import Mathlib
import Snpm.Lockfile

/-!
The lockfile of a graph stands for that graph. Identities are flattened to
`name@version` keys on the way out and split again on the way in; optional
roots that were not resolved are recorded without a version and are no roots
of the graph that is read back.
-/
namespace Snpm
namespace Lockfile

/-- What the two conversions rely on: the package map is keyed by identity,
no version contains the key separator, and every edge stays in the graph. -/
structure Writable (graph : ResolutionGraph) : Prop where
  keyed : ∀ (id : PackageId) package, graph.packages[id]? = some package → package.id = id
  separable : ∀ (id : PackageId) package, graph.packages[id]? = some package →
    '@' ∉ id.version.toList
  closed : ∀ (id : PackageId) package, graph.packages[id]? = some package →
    ∀ (name : String) target, package.dependencies[name]? = some target → target ∈ graph.packages

theorem splitDepKey_packageKey (id : PackageId) (h : '@' ∉ id.version.toList) :
    splitDepKey (packageKey id.name id.version) = some id := by
  rw [splitDepKey, packageKey]
  exact congrArg _ (Text.rsplitOnce_append id.name id.version '@' h)

theorem packageKey_injective {a b : PackageId} (ha : '@' ∉ a.version.toList)
    (hb : '@' ∉ b.version.toList)
    (h : packageKey a.name a.version = packageKey b.name b.version) : a = b := by
  have heq : some a = some b := by
    rw [← splitDepKey_packageKey a ha, ← splitDepKey_packageKey b hb, h]
  exact Option.some.inj heq

section Packages

variable {graph : ResolutionGraph} (hgraph : Writable graph)
  (optionalRootSpecs : BTreeMap String String)
include hgraph

theorem getElem?_buildPackages (key : String) (lock : LockPackage) :
    (buildPackages graph)[key]? = some lock ↔ ∃ (id : PackageId) (package : ResolvedPackage),
      graph.packages[id]? = some package ∧ key = packageKey id.name id.version ∧
        lock = lockPackage package := by
  rw [buildPackages, BTreeMap.getElem?_collect, List.mem_map]
  · constructor
    · rintro ⟨package, hmem, heq⟩
      obtain ⟨id, hid⟩ := BTreeMap.mem_values_iff.mp hmem
      cases heq
      exact ⟨id, package, hid, by rw [hgraph.keyed id package hid], rfl⟩
    · rintro ⟨id, package, hid, rfl, rfl⟩
      exact ⟨package, BTreeMap.mem_values_iff.mpr ⟨id, hid⟩, by
        rw [hgraph.keyed id package hid]⟩
  · simp only [List.mem_map, forall_exists_index, and_imp]
    rintro _ a ha rfl _ b hb rfl hkey
    obtain ⟨ia, hia⟩ := BTreeMap.mem_values_iff.mp ha
    obtain ⟨ib, hib⟩ := BTreeMap.mem_values_iff.mp hb
    have hka := hgraph.keyed ia a hia
    have hkb := hgraph.keyed ib b hib
    have hid : a.id = b.id := packageKey_injective (hka ▸ hgraph.separable ia a hia)
      (hkb ▸ hgraph.separable ib b hib) hkey
    rw [← hka, hid, hkb, hib] at hia
    cases hia
    rfl

theorem mem_values_ofGraph (lock : LockPackage) :
    lock ∈ (ofGraph graph optionalRootSpecs).packages.values ↔
      ∃ (id : PackageId) (package : ResolvedPackage),
        graph.packages[id]? = some package ∧ lock = lockPackage package := by
  rw [BTreeMap.mem_values_iff]
  constructor
  · rintro ⟨key, hkey⟩
    obtain ⟨id, package, hid, -, hlock⟩ := (getElem?_buildPackages hgraph key lock).mp hkey
    exact ⟨id, package, hid, hlock⟩
  · rintro ⟨id, package, hid, hlock⟩
    exact ⟨_, (getElem?_buildPackages hgraph _ lock).mpr ⟨id, package, hid, rfl, hlock⟩⟩

/-- Two records of one identity are the same record. -/
theorem lock_unique {a b : LockPackage}
    (ha : a ∈ (ofGraph graph optionalRootSpecs).packages.values)
    (hb : b ∈ (ofGraph graph optionalRootSpecs).packages.values)
    (h : (⟨a.name, a.version⟩ : PackageId) = ⟨b.name, b.version⟩) : a = b := by
  obtain ⟨ia, pa, hia, rfl⟩ := (mem_values_ofGraph hgraph optionalRootSpecs a).mp ha
  obtain ⟨ib, pb, hib, rfl⟩ := (mem_values_ofGraph hgraph optionalRootSpecs b).mp hb
  have hid : pa.id = pb.id := h
  rw [hgraph.keyed ia pa hia, hgraph.keyed ib pb hib] at hid
  rw [hid, hib] at hia
  cases hia
  rfl

theorem getElem?_buildPackageNodes (id : PackageId) (node : ResolvedPackage) :
    (buildPackageNodes (ofGraph graph optionalRootSpecs))[id]? = some node ↔
      ∃ package, graph.packages[id]? = some package ∧ node = nodeOf (lockPackage package) := by
  rw [buildPackageNodes, BTreeMap.getElem?_collect, List.mem_map]
  · constructor
    · rintro ⟨lock, hmem, heq⟩
      obtain ⟨id', package, hid, rfl⟩ := (mem_values_ofGraph hgraph optionalRootSpecs lock).mp hmem
      cases heq
      exact ⟨package, by rw [← hgraph.keyed id' package hid] at hid; exact hid, rfl⟩
    · rintro ⟨package, hid, rfl⟩
      refine ⟨lockPackage package,
        (mem_values_ofGraph hgraph optionalRootSpecs _).mpr ⟨id, package, hid, rfl⟩, ?_⟩
      have hkey := hgraph.keyed id package hid
      subst hkey
      rfl
  · simp only [List.mem_map, forall_exists_index, and_imp]
    rintro _ a ha rfl _ b hb rfl hkey
    rw [lock_unique hgraph optionalRootSpecs ha hb hkey]

end Packages

def withDependencies (lock : LockPackage) (package : ResolvedPackage) : ResolvedPackage :=
  { package with dependencies := lock.dependencies.filterMap fun _ key => splitDepKey key }

theorem getElem?_populateStep (packages : BTreeMap PackageId ResolvedPackage)
    (lock : LockPackage) (id : PackageId) :
    (populateStep packages lock)[id]? =
      if (⟨lock.name, lock.version⟩ : PackageId) = id then
        (packages[id]?).map (withDependencies lock)
      else packages[id]? := by
  unfold populateStep
  split
  next hnone =>
      split
      next heq => rw [← heq, hnone, Option.map_none]
      next => rfl
  next package hsome =>
      rw [BTreeMap.getElem?_insert_self_or]
      split
      next heq =>
          rw [← heq, hsome]
          rfl
      next => rfl

/-- The graph of a lockfile is keyed by identity. -/
theorem toGraph_keyed {lockfile : Lockfile} {id : PackageId} {package : ResolvedPackage}
    (h : (toGraph lockfile).packages[id]? = some package) : package.id = id := by
  have hfold : ∀ (locks : List LockPackage) (packages : BTreeMap PackageId ResolvedPackage),
      (∀ (id : PackageId) package, packages[id]? = some package → package.id = id) →
      ∀ (id : PackageId) package, (locks.foldl populateStep packages)[id]? = some package →
        package.id = id := by
    intro locks
    induction locks with
    | nil => exact fun packages hkeyed => hkeyed
    | cons lock locks ih =>
        intro packages hkeyed
        refine ih _ fun id package hid => ?_
        rw [getElem?_populateStep] at hid
        split at hid
        next =>
            obtain ⟨node, hnode, rfl⟩ := Option.map_eq_some_iff.mp hid
            exact hkeyed id node hnode
        next => exact hkeyed id package hid
  refine hfold _ _ (fun id package hid => ?_) id package h
  obtain ⟨lock, -, heq⟩ := List.mem_map.mp (BTreeMap.mem_of_getElem?_collect hid)
  cases heq
  rfl

/-- The records of other packages leave a package alone, and its own record
sets its edges. -/
theorem getElem?_foldl_populateStep {locks : List LockPackage} {lock : LockPackage}
    (hunique : ∀ other ∈ locks, (⟨other.name, other.version⟩ : PackageId) =
      ⟨lock.name, lock.version⟩ → other = lock)
    (packages : BTreeMap PackageId ResolvedPackage) :
    (locks.foldl populateStep packages)[(⟨lock.name, lock.version⟩ : PackageId)]? =
      if lock ∈ locks then
        (packages[(⟨lock.name, lock.version⟩ : PackageId)]?).map (withDependencies lock)
      else packages[(⟨lock.name, lock.version⟩ : PackageId)]? := by
  induction locks generalizing packages with
  | nil => simp
  | cons other locks ih =>
      rw [List.foldl_cons, ih fun l hl => hunique l (List.mem_cons_of_mem _ hl),
        getElem?_populateStep]
      by_cases hother : other = lock
      · subst hother
        rw [if_pos rfl, if_pos List.mem_cons_self]
        split
        next =>
            rw [Option.map_map]
            rfl
        next => rfl
      · have hid : (⟨other.name, other.version⟩ : PackageId) ≠ ⟨lock.name, lock.version⟩ :=
          fun heq => hother (hunique other List.mem_cons_self heq)
        have hmem : lock ∈ other :: locks ↔ lock ∈ locks := by
          rw [List.mem_cons]
          exact ⟨fun h => h.resolve_left (Ne.symm hother), .inr⟩
        rw [if_neg hid]
        simp only [hmem]

theorem foldl_populateStep_none {locks : List LockPackage} {id : PackageId}
    {packages : BTreeMap PackageId ResolvedPackage} (h : packages[id]? = none) :
    (locks.foldl populateStep packages)[id]? = none := by
  induction locks generalizing packages with
  | nil => exact h
  | cons lock locks ih =>
      rw [List.foldl_cons]
      apply ih
      rw [getElem?_populateStep, h, Option.map_none, ite_self]

section Graph

variable {graph : ResolutionGraph} (hgraph : Writable graph)
  (optionalRootSpecs : BTreeMap String String)
include hgraph

theorem edge_separable {id target : PackageId} {package : ResolvedPackage}
    (hid : graph.packages[id]? = some package) {name : String}
    (hedge : package.dependencies[name]? = some target) : '@' ∉ target.version.toList := by
  have hmem := hgraph.closed id package hid name target hedge
  obtain ⟨found, hfound⟩ :=
    Option.isSome_iff_exists.mp (Std.ExtTreeMap.mem_iff_isSome_getElem?.mp hmem)
  exact hgraph.separable target found hfound

theorem edges_restored {id : PackageId} {package : ResolvedPackage}
    (hid : graph.packages[id]? = some package) :
    (lockPackage package).dependencies.filterMap (fun _ key => splitDepKey key) =
      package.dependencies := by
  apply Std.ExtTreeMap.ext_getElem?
  intro name
  have hlock : (lockPackage package).dependencies[name]? =
      (package.dependencies[name]?).map fun target => packageKey target.name target.version :=
    Std.ExtTreeMap.getElem?_map
  rw [Std.ExtTreeMap.getElem?_filterMap', hlock]
  cases hedge : package.dependencies[name]? with
  | none => rfl
  | some target => exact splitDepKey_packageKey target (edge_separable hgraph hid hedge)

theorem package_restored {id : PackageId} {package : ResolvedPackage}
    (hid : graph.packages[id]? = some package) :
    withDependencies (lockPackage package) (nodeOf (lockPackage package)) = package := by
  rw [withDependencies, edges_restored hgraph hid]
  rfl

theorem packages_restored : (toGraph (ofGraph graph optionalRootSpecs)).packages = graph.packages := by
  apply Std.ExtTreeMap.ext_getElem?
  intro id
  rw [toGraph, populatePackageDependencies]
  cases hid : graph.packages[id]? with
  | none =>
      apply foldl_populateStep_none
      rw [Option.eq_none_iff_forall_ne_some]
      intro node hnode
      obtain ⟨package, hsome, -⟩ :=
        (getElem?_buildPackageNodes hgraph optionalRootSpecs id node).mp hnode
      rw [hid] at hsome
      cases hsome
  | some package =>
      have hmem := (mem_values_ofGraph hgraph optionalRootSpecs (lockPackage package)).mpr
        ⟨id, package, hid, rfl⟩
      have hnode := (getElem?_buildPackageNodes hgraph optionalRootSpecs id _).mpr
        ⟨package, hid, rfl⟩
      have hkey : (⟨(lockPackage package).name, (lockPackage package).version⟩ : PackageId) = id :=
        hgraph.keyed id package hid
      have hfold := getElem?_foldl_populateStep
        (fun other hother => lock_unique hgraph optionalRootSpecs hother hmem)
        (buildPackageNodes (ofGraph graph optionalRootSpecs))
      rw [hkey, if_pos hmem, hnode, Option.map_some, package_restored hgraph hid] at hfold
      exact hfold

end Graph

theorem getElem?_root_toGraph (lockfile : Lockfile) (name : String) :
    (toGraph lockfile).root.dependencies[name]? =
      (lockfile.root.dependencies[name]?).bind (graphRoot name) :=
  Std.ExtTreeMap.getElem?_filterMap'

theorem graphRoot_resolvedRoot (optionalRootSpecs : BTreeMap String String) (name : String)
    (dep : RootDependency) : graphRoot name (resolvedRoot optionalRootSpecs name dep) = some dep := by
  obtain ⟨requested, id, version⟩ := dep
  simp only [graphRoot, resolvedRoot, Option.map_some]
  split
  next heq => rw [Option.getD_none, heq]
  next => rfl

theorem root_restored (graph : ResolutionGraph) (optionalRootSpecs : BTreeMap String String) :
    (toGraph (ofGraph graph optionalRootSpecs)).root = graph.root := by
  have hdeps : (toGraph (ofGraph graph optionalRootSpecs)).root.dependencies =
      graph.root.dependencies := by
    apply Std.ExtTreeMap.ext_getElem?
    intro name
    rw [getElem?_root_toGraph, ofGraph, getElem?_buildRootDependencies]
    cases graph.root.dependencies[name]? with
    | some dep => exact graphRoot_resolvedRoot optionalRootSpecs name dep
    | none =>
        cases optionalRootSpecs[name]? with
        | some requested => rfl
        | none => rfl
  generalize hroot : (toGraph (ofGraph graph optionalRootSpecs)).root = root at hdeps
  cases root
  cases hgraph : graph.root
  rw [hgraph] at hdeps
  exact congrArg _ hdeps

/-- Reading back the lockfile of a graph gives the graph, and the roots of the
lockfile that are no roots of the graph are the optional ones that were not
resolved. -/
theorem toGraph_ofGraph {graph : ResolutionGraph} (hgraph : Writable graph)
    (optionalRootSpecs : BTreeMap String String) :
    toGraph (ofGraph graph optionalRootSpecs) = graph ∧
      ∀ name, (name ∈ (ofGraph graph optionalRootSpecs).root.dependencies ∧
          name ∉ (toGraph (ofGraph graph optionalRootSpecs)).root.dependencies) ↔
        (name ∈ optionalRootSpecs ∧ name ∉ graph.root.dependencies) := by
  have hroot := root_restored graph optionalRootSpecs
  constructor
  · have hpackages := packages_restored hgraph optionalRootSpecs
    generalize toGraph (ofGraph graph optionalRootSpecs) = read at hroot hpackages
    cases read
    cases graph
    exact congrArg₂ _ hroot hpackages
  · intro name
    rw [hroot]
    refine and_congr_left fun hname => ?_
    rw [Std.ExtTreeMap.mem_iff_isSome_getElem?, Std.ExtTreeMap.mem_iff_isSome_getElem?]
    have hnone : graph.root.dependencies[name]? = none :=
      Std.ExtTreeMap.getElem?_eq_none hname
    rw [ofGraph, getElem?_buildRootDependencies, hnone]
    cases optionalRootSpecs[name]? with
    | some requested => simp
    | none => simp

/-- An aliased root of a scoped package with one dependency. -/
def aliasedGraph : ResolutionGraph where
  root := ⟨BTreeMap.collect [("alias", ⟨"npm:@scope/a@^1.0.0", ⟨"@scope/a", "1.0.0"⟩⟩)]⟩
  packages := BTreeMap.collect
    [(⟨"@scope/a", "1.0.0"⟩,
      samplePackage ⟨"@scope/a", "1.0.0"⟩ "a.tgz" (BTreeMap.collect [("b", pkgB)])),
      (pkgB, samplePackage pkgB "b.tgz" ∅)]

theorem writable_of_toList {graph : ResolutionGraph}
    (h : ∀ p ∈ graph.packages.toList, p.2.id = p.1 ∧ '@' ∉ p.1.version.toList ∧
      ∀ e ∈ p.2.dependencies.toList, e.2 ∈ graph.packages) : Writable graph where
  keyed _ _ hid := (h _ (Std.ExtTreeMap.mem_toList_iff_getElem?_eq_some.mpr hid)).1
  separable _ _ hid := (h _ (Std.ExtTreeMap.mem_toList_iff_getElem?_eq_some.mpr hid)).2.1
  closed _ _ hid _ _ hedge := (h _ (Std.ExtTreeMap.mem_toList_iff_getElem?_eq_some.mpr hid)).2.2 _
    (Std.ExtTreeMap.mem_toList_iff_getElem?_eq_some.mpr hedge)

theorem aliasedGraph_writable : Writable aliasedGraph := writable_of_toList (by decide +kernel)

theorem toGraph_ofGraph_aliased :
    let skipped : BTreeMap String String := BTreeMap.collect [("fsevents", "^2.0.0")]
    Writable aliasedGraph ∧ toGraph (ofGraph aliasedGraph skipped) = aliasedGraph ∧
      "fsevents" ∈ (ofGraph aliasedGraph skipped).root.dependencies := by
  intro skipped
  obtain ⟨hgraph, hskipped⟩ := toGraph_ofGraph aliasedGraph_writable skipped
  refine ⟨aliasedGraph_writable, hgraph, ((hskipped "fsevents").mpr ?_).1⟩
  decide +kernel

end Lockfile
end Snpm
