import Mathlib
import Snpm.Resolve.Types
import Snpm.Library.Text

/-!
The lockfile: what it records for a graph, the graph it stands for, and the
test that decides whether it still describes the root specs of a manifest.
Serialisation is not modelled: a lockfile is the value that the YAML text
stands for.
-/
namespace Snpm

structure LockRootDependency where
  requested : String
  package : Option String
  version : Option String
  optional : Bool
deriving DecidableEq

structure LockRoot where
  dependencies : BTreeMap String LockRootDependency
deriving DecidableEq

structure LockPackage where
  name : String
  version : String
  tarball : String
  integrity : Option String
  dependencies : BTreeMap String String
  peerDependencies : BTreeMap String String
  bundledDependencies : Option BundledDependencies
  hasBin : Bool
  bin : Option BinField
deriving DecidableEq

structure Lockfile where
  version : Nat
  root : LockRoot
  packages : BTreeMap String LockPackage
deriving DecidableEq

inductive CompatibleLockfileKind where
  | pnpm
  | bun
  | yarn
  | npmShrinkwrap
  | npm
deriving DecidableEq

/-- A lockfile of another package manager that can be imported. -/
structure CompatibleLockfile where
  kind : CompatibleLockfileKind
  path : String
deriving DecidableEq

namespace Lockfile

def lockfileVersion : Nat := 1

def packageKey (name version : String) : String := name ++ "@" ++ version

def splitDepKey (key : String) : Option PackageId :=
  (Text.rsplitOnce key (· = '@')).map fun (name, version) => ⟨name, version⟩

/-- The entry of a root that was resolved. -/
def resolvedRoot (optionalRootSpecs : BTreeMap String String) (name : String)
    (dep : RootDependency) : LockRootDependency where
  requested := dep.requested
  package := if dep.resolved.name = name then none else some dep.resolved.name
  version := some dep.resolved.version
  optional := optionalRootSpecs.contains name

/-- The entry of an optional root that was skipped. -/
def skippedRoot (_name requested : String) : LockRootDependency :=
  ⟨requested, none, none, true⟩

/-- A resolved root takes the place of a skipped one. -/
def buildRootDependencies (graph : ResolutionGraph) (optionalRootSpecs : BTreeMap String String) :
    BTreeMap String LockRootDependency :=
  optionalRootSpecs.map skippedRoot ∪
    graph.root.dependencies.map (resolvedRoot optionalRootSpecs)

def lockPackage (package : ResolvedPackage) : LockPackage where
  name := package.id.name
  version := package.id.version
  tarball := package.tarball
  integrity := package.integrity
  dependencies := package.dependencies.map fun _ id => packageKey id.name id.version
  peerDependencies := package.peerDependencies
  bundledDependencies := package.bundledDependencies
  hasBin := package.hasBin
  bin := package.bin

def buildPackages (graph : ResolutionGraph) : BTreeMap String LockPackage :=
  BTreeMap.collect (graph.packages.values.map fun package =>
    (packageKey package.id.name package.id.version, lockPackage package))

/-- The value that `write` serialises. -/
def ofGraph (graph : ResolutionGraph) (optionalRootSpecs : BTreeMap String String) : Lockfile where
  version := lockfileVersion
  root := ⟨buildRootDependencies graph optionalRootSpecs⟩
  packages := buildPackages graph

def nodeOf (package : LockPackage) : ResolvedPackage where
  id := ⟨package.name, package.version⟩
  tarball := package.tarball
  integrity := package.integrity
  dependencies := ∅
  peerDependencies := package.peerDependencies
  bundledDependencies := package.bundledDependencies
  hasBin := package.hasBin
  bin := package.bin

def buildPackageNodes (lockfile : Lockfile) : BTreeMap PackageId ResolvedPackage :=
  BTreeMap.collect (lockfile.packages.values.map fun package =>
    (⟨package.name, package.version⟩, nodeOf package))

/-- A dependency whose key has no version part is dropped. -/
def populateStep (packages : BTreeMap PackageId ResolvedPackage) (lock : LockPackage) :
    BTreeMap PackageId ResolvedPackage :=
  match packages[(⟨lock.name, lock.version⟩ : PackageId)]? with
  | none => packages
  | some package => packages.insert ⟨lock.name, lock.version⟩
      { package with dependencies := lock.dependencies.filterMap fun _ key => splitDepKey key }

def populatePackageDependencies (lockfile : Lockfile)
    (packages : BTreeMap PackageId ResolvedPackage) : BTreeMap PackageId ResolvedPackage :=
  lockfile.packages.values.foldl populateStep packages

/-- An entry without a version was skipped, and is no root of the graph. -/
def graphRoot (name : String) (dep : LockRootDependency) : Option RootDependency :=
  dep.version.map fun version => ⟨dep.requested, ⟨dep.package.getD name, version⟩⟩

def toGraph (lockfile : Lockfile) : ResolutionGraph where
  root := ⟨lockfile.root.dependencies.filterMap graphRoot⟩
  packages := populatePackageDependencies lockfile (buildPackageNodes lockfile)

def requiredMatches (lockfile : Lockfile) (r : String × String) : Bool :=
  match lockfile.root.dependencies[r.1]? with
  | none => false
  | some dep => dep.requested == r.2 && dep.version.isSome && !dep.optional

def optionalMatches (lockfile : Lockfile) (r : String × String) : Bool :=
  match lockfile.root.dependencies[r.1]? with
  | none => false
  | some dep => dep.requested == r.2

def rootSpecsMatch (lockfile : Lockfile) (required optional : BTreeMap String String) : Bool :=
  lockfile.root.dependencies.size == required.size + optional.size &&
    required.toList.all (requiredMatches lockfile) &&
    optional.toList.all (optionalMatches lockfile)

theorem getElem?_buildRootDependencies (graph : ResolutionGraph)
    (optionalRootSpecs : BTreeMap String String) (name : String) :
    (buildRootDependencies graph optionalRootSpecs)[name]? =
      ((graph.root.dependencies[name]?).map (resolvedRoot optionalRootSpecs name)).or
        ((optionalRootSpecs[name]?).map (skippedRoot name)) := by
  rw [buildRootDependencies, Std.ExtTreeMap.getElem?_union, Std.ExtTreeMap.getElem?_map,
    Std.ExtTreeMap.getElem?_map]

end Lockfile
end Snpm
