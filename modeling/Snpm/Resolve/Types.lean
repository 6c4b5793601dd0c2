import Mathlib
import Snpm.Library.OrderedMap

/-!
The resolution graph: package identities, resolved packages and root
dependencies. The graph is plain data; nothing forces an edge to name a
package of the graph, and that property is stated where it is used.
-/
namespace Snpm

structure PackageId where
  name : String
  version : String
deriving DecidableEq, Repr

namespace PackageId

/-- The derived order: by name, then by version text. -/
instance : Ord PackageId where
  compare a b := (compare a.name b.name).then (compare a.version b.version)

theorem compare_def (a b : PackageId) :
    compare a b = (compare a.name b.name).then (compare a.version b.version) := rfl

instance : Std.OrientedOrd PackageId where
  eq_swap := by
    intro a b
    simp only [compare_def, Ordering.swap_then]
    rw [Std.OrientedOrd.eq_swap (a := a.name) (b := b.name),
      Std.OrientedOrd.eq_swap (a := a.version) (b := b.version)]

instance : Std.TransOrd PackageId where
  isLE_trans := by
    intro a b c hab hbc
    have htrans : Std.TransCmp
        (compareLex (compareOn PackageId.name) (compareOn PackageId.version)) := inferInstance
    exact htrans.isLE_trans hab hbc

instance : Std.LawfulEqOrd PackageId where
  eq_of_compare := by
    intro a b h
    simp only [compare_def, Ordering.then_eq_eq, Std.LawfulEqCmp.compare_eq_iff_eq] at h
    cases a
    cases b
    simpa using h

end PackageId

inductive BinField where
  | single (path : String)
  | map (entries : BTreeMap String String)
deriving DecidableEq

inductive BundledDependencies where
  | list (names : List String)
  | all (value : Bool)
deriving DecidableEq

structure ResolvedPackage where
  id : PackageId
  tarball : String
  integrity : Option String
  dependencies : BTreeMap String PackageId
  peerDependencies : BTreeMap String String
  bundledDependencies : Option BundledDependencies
  hasBin : Bool
  bin : Option BinField
deriving DecidableEq

structure RootDependency where
  requested : String
  resolved : PackageId
deriving DecidableEq

structure ResolutionRoot where
  dependencies : BTreeMap String RootDependency
deriving DecidableEq

structure ResolutionGraph where
  root : ResolutionRoot
  packages : BTreeMap PackageId ResolvedPackage
deriving DecidableEq

/-- A registry package without peers, bundles or executables. -/
def samplePackage (id : PackageId) (tarball : String) (dependencies : BTreeMap String PackageId) :
    ResolvedPackage :=
  ⟨id, tarball, some "sha512-0", dependencies, ∅, none, false, none⟩

def pkgA : PackageId := ⟨"a", "1.0.0"⟩

def pkgB : PackageId := ⟨"b", "1.0.0"⟩

def onePackage : ResolutionGraph where
  root := ⟨BTreeMap.collect [("a", ⟨"1.0.0", pkgA⟩)]⟩
  packages := BTreeMap.collect [(pkgA, samplePackage pkgA "a.tgz" ∅)]

end Snpm
