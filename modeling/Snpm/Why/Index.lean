import Mathlib
import Snpm.Resolve.Types
import Snpm.Library.OrderedMap

/-!
The reverse index of `why`: for every package, the packages that depend on it and
the root dependencies that ask for it.
-/
namespace Snpm.Why

structure PackageParent where
  parent : PackageId
  via : String
deriving DecidableEq

structure RootParent where
  name : String
  requested : String
deriving DecidableEq

structure ReverseIndex where
  packageParents : BTreeMap PackageId (List PackageParent)
  rootParents : BTreeMap PackageId (List RootParent)

/-- `entry(key).or_default().push(value)` -/
def pushTo {V : Type} (m : BTreeMap PackageId (List V)) (key : PackageId) (value : V) :
    BTreeMap PackageId (List V) := m.insert key (m.getD key [] ++ [value])

def comparePackageParents (a b : PackageParent) : Ordering :=
  (compare a.parent b.parent).then (compare a.via b.via)

def compareRootParents (a b : RootParent) : Ordering :=
  (compare a.name b.name).then (compare a.requested b.requested)

def pushDependencies (m : BTreeMap PackageId (List PackageParent)) (package : ResolvedPackage) :
    BTreeMap PackageId (List PackageParent) :=
  package.dependencies.toList.foldl (fun m dep => pushTo m dep.2 ⟨package.id, dep.1⟩) m

def buildReverseIndex (graph : ResolutionGraph) : ReverseIndex where
  packageParents :=
    (graph.packages.values.foldl pushDependencies ∅).map fun _ parents =>
      parents.mergeSort fun a b => (comparePackageParents a b).isLE
  rootParents :=
    (graph.root.dependencies.toList.foldl
      (fun m root => pushTo m root.2.resolved ⟨root.1, root.2.requested⟩) ∅).map fun _ roots =>
        roots.mergeSort fun a b => (compareRootParents a b).isLE

/-- One package of the graph has the other as a dependency under this name. -/
def DependsOn (graph : ResolutionGraph) (parent : PackageId) (via : String) (id : PackageId) : Prop :=
  ∃ package, package ∈ graph.packages.values ∧ package.id = parent ∧
    package.dependencies[via]? = some id

/-- The root asks for the package under this name. -/
def RootAsks (graph : ResolutionGraph) (name requested : String) (id : PackageId) : Prop :=
  ∃ dep, graph.root.dependencies[name]? = some dep ∧ dep.requested = requested ∧ dep.resolved = id

/-- No key has an empty list. -/
def NoneEmpty {V : Type} (m : BTreeMap PackageId (List V)) : Prop :=
  ∀ (id : PackageId) l, m[id]? = some l → l ≠ []

theorem mem_getD_pushTo {V : Type} (m : BTreeMap PackageId (List V)) (key id : PackageId)
    (value v : V) :
    v ∈ (pushTo m key value).getD id [] ↔ v ∈ m.getD id [] ∨ (id = key ∧ v = value) := by
  rw [pushTo, Std.ExtTreeMap.getD_eq_getD_getElem?, BTreeMap.getElem?_insert_self_or]
  by_cases hkey : key = id
  · subst hkey
    simp
  · have hother : ¬ id = key := fun h => hkey h.symm
    simp [hkey, hother, Std.ExtTreeMap.getD_eq_getD_getElem?]

theorem noneEmpty_pushTo {V : Type} {m : BTreeMap PackageId (List V)} (h : NoneEmpty m)
    (key : PackageId) (value : V) : NoneEmpty (pushTo m key value) := by
  intro id l hl
  rw [pushTo, BTreeMap.getElem?_insert_self_or] at hl
  split at hl
  · cases hl
    simp
  · exact h id l hl

/-- Pushing a list of pairs adds each value under its key. -/
theorem mem_getD_foldl_pushTo {V X : Type} (key : X → PackageId) (value : X → V) (xs : List X)
    (m : BTreeMap PackageId (List V)) (id : PackageId) (v : V) :
    v ∈ (xs.foldl (fun m x => pushTo m (key x) (value x)) m).getD id [] ↔
      v ∈ m.getD id [] ∨ ∃ x ∈ xs, id = key x ∧ v = value x := by
  induction xs generalizing m with
  | nil => simp
  | cons x xs ih =>
      rw [List.foldl_cons, ih, mem_getD_pushTo, or_assoc]
      simp only [List.mem_cons, exists_eq_or_imp]

theorem noneEmpty_foldl_pushTo {V X : Type} (key : X → PackageId) (value : X → V) (xs : List X)
    {m : BTreeMap PackageId (List V)} (h : NoneEmpty m) :
    NoneEmpty (xs.foldl (fun m x => pushTo m (key x) (value x)) m) := by
  induction xs generalizing m with
  | nil => exact h
  | cons x xs ih => exact ih (noneEmpty_pushTo h (key x) (value x))

theorem mem_getD_pushDependencies (packages : List ResolvedPackage)
    (m : BTreeMap PackageId (List PackageParent)) (id : PackageId) (parent : PackageParent) :
    parent ∈ (packages.foldl pushDependencies m).getD id [] ↔
      parent ∈ m.getD id [] ∨ ∃ package ∈ packages, package.id = parent.parent ∧
        package.dependencies[parent.via]? = some id := by
  induction packages generalizing m with
  | nil => simp
  | cons package packages ih =>
      have hpackage : (∃ dep ∈ package.dependencies.toList, id = dep.2 ∧
          parent = ⟨package.id, dep.1⟩) ↔
          package.id = parent.parent ∧ package.dependencies[parent.via]? = some id := by
        constructor
        · intro h
          obtain ⟨dep, hdep, rfl, rfl⟩ := h
          exact ⟨rfl, Std.ExtTreeMap.mem_toList_iff_getElem?_eq_some.mp hdep⟩
        · intro h
          refine ⟨(parent.via, id), Std.ExtTreeMap.mem_toList_iff_getElem?_eq_some.mpr h.2, rfl, ?_⟩
          rw [h.1]
      have hpush := mem_getD_foldl_pushTo (fun dep : String × PackageId => dep.2)
        (fun dep => PackageParent.mk package.id dep.1) package.dependencies.toList m id parent
      rw [List.foldl_cons, ih, pushDependencies, hpush, hpackage, or_assoc]
      simp only [List.mem_cons, exists_eq_or_imp]

theorem mem_getD_sorted {V : Type} (m : BTreeMap PackageId (List V)) (le : V → V → Bool)
    (id : PackageId) (v : V) :
    v ∈ (m.map fun _ l => l.mergeSort le).getD id [] ↔ v ∈ m.getD id [] := by
  rw [Std.ExtTreeMap.getD_eq_getD_getElem?, Std.ExtTreeMap.getD_eq_getD_getElem?,
    Std.ExtTreeMap.getElem?_map]
  cases m[id]? with
  | none => simp
  | some l => simp [List.mem_mergeSort]

/-- The index lists exactly the reverse edges of the graph. -/
structure Indexes (index : ReverseIndex) (graph : ResolutionGraph) : Prop where
  parents : ∀ id parent,
    parent ∈ index.packageParents.getD id [] ↔ DependsOn graph parent.parent parent.via id
  roots : ∀ id root,
    root ∈ index.rootParents.getD id [] ↔ RootAsks graph root.name root.requested id
  listed : NoneEmpty index.rootParents

theorem buildReverseIndex_indexes (graph : ResolutionGraph) :
    Indexes (buildReverseIndex graph) graph where
  parents id parent := by
    rw [buildReverseIndex, mem_getD_sorted, mem_getD_pushDependencies, DependsOn]
    simp
  roots id root := by
    have hpush := mem_getD_foldl_pushTo (fun root : String × RootDependency => root.2.resolved)
      (fun root => RootParent.mk root.1 root.2.requested) graph.root.dependencies.toList ∅ id root
    rw [buildReverseIndex, mem_getD_sorted, hpush]
    constructor
    · intro h
      obtain ⟨entry, hentry, rfl, rfl⟩ := h.resolve_left (by simp)
      exact ⟨entry.2, Std.ExtTreeMap.mem_toList_iff_getElem?_eq_some.mp hentry, rfl, rfl⟩
    · intro h
      obtain ⟨dep, hdep, hrequested, hresolved⟩ := h
      refine .inr ⟨(root.name, dep), Std.ExtTreeMap.mem_toList_iff_getElem?_eq_some.mpr hdep,
        hresolved.symm, ?_⟩
      rw [hrequested]
  listed := by
    have hfold : NoneEmpty (graph.root.dependencies.toList.foldl
        (fun m root => pushTo m root.2.resolved (RootParent.mk root.1 root.2.requested)) ∅) :=
      noneEmpty_foldl_pushTo (fun root : String × RootDependency => root.2.resolved)
        (fun root => RootParent.mk root.1 root.2.requested) _ (by simp [NoneEmpty])
    intro id l hl
    rw [buildReverseIndex, Std.ExtTreeMap.getElem?_map, Option.map_eq_some_iff] at hl
    obtain ⟨roots, hroots, rfl⟩ := hl
    intro hnil
    have hlength := congrArg List.length hnil
    rw [List.length_mergeSort, List.length_nil, List.length_eq_zero_iff] at hlength
    exact hfold id roots hroots hlength

end Snpm.Why
