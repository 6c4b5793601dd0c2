import Mathlib
import Snpm.Project
import Snpm.Lockfile
import Snpm.Library.TrailWalk

/-!
The audit request: which package versions of a lockfile are sent to the
registry, and when a production audit asks about everything that a production
dependency brings in.
-/
namespace Snpm.Audit

open TrailWalk

/-- The options that choose packages; the others only filter the answer. -/
structure AuditOptions where
  productionOnly : Bool
  devOnly : Bool
  packages : List String

/-- What an audit runs on. -/
inductive AuditTarget where
  | project (project : Project)
  | workspace (workspace : Workspace)

def AuditTarget.members : AuditTarget → List Project
  | .project single => [single]
  | .workspace shared => shared.projects

def workspaceDevRootNames (projects : List Project) : BTreeSet String :=
  Std.ExtTreeSet.ofList (projects.flatMap fun project => project.manifest.devDependencies.keys) _

def AuditTarget.devRootNames : AuditTarget → BTreeSet String
  | .project single => Std.ExtTreeSet.ofList single.manifest.devDependencies.keys _
  | .workspace shared => workspaceDevRootNames shared.projects

/-- One call of the visitor. -/
structure Visit where
  name : String
  version : String
  path : String
  isDev : Bool
  isOptional : Bool
deriving DecidableEq

def lookupPackage (lockfile : Lockfile) (key : String) : Option LockPackage :=
  lockfile.packages[key]?

def packageEdges (package : LockPackage) : List (String × String) := package.dependencies.toList

/-- The trail holds distinct keys of the lockfile, which bounds its depth. -/
def walkPackage (lockfile : Lockfile) (packageKey label : String) (isDev isOptional : Bool) :
    List Visit :=
  (walk (lookupPackage lockfile) packageEdges (lockfile.packages.size + 1) [] []
    (label, packageKey)).map fun entry =>
      ⟨entry.2.name, entry.2.version, ">".intercalate entry.1, isDev, isOptional⟩

def rootKey (rootName version : String) (dep : LockRootDependency) : String :=
  Lockfile.packageKey (dep.package.getD rootName) version

def walkAuditedRoot (lockfile : Lockfile) (devRootNames : BTreeSet String) (options : AuditOptions)
    (rootName : String) (dep : LockRootDependency) : List Visit :=
  let isDevRoot := devRootNames.contains rootName
  if options.productionOnly && isDevRoot then []
  else if options.devOnly && !isDevRoot then []
  else
    match dep.version with
    | none => []
    | some version =>
        walkPackage lockfile (rootKey rootName version dep) rootName isDevRoot dep.optional

def walkAuditedPackages (lockfile : Lockfile) (devRootNames : BTreeSet String)
    (options : AuditOptions) : List Visit :=
  lockfile.root.dependencies.toList.flatMap fun root =>
    walkAuditedRoot lockfile devRootNames options root.1 root.2

def packageSelected (options : AuditOptions) (name : String) : Bool :=
  options.packages.isEmpty || options.packages.contains name

def requestVisit (options : AuditOptions) (versionsByName : BTreeMap String (BTreeSet String))
    (visit : Visit) : BTreeMap String (BTreeSet String) :=
  if packageSelected options visit.name then
    versionsByName.insert visit.name ((versionsByName.getD visit.name ∅).insert visit.version)
  else versionsByName

structure AuditRequestData where
  packages : BTreeMap String (List String)
  totalPackages : Nat

def buildAuditRequest (lockfile : Lockfile) (devRootNames : BTreeSet String)
    (options : AuditOptions) : AuditRequestData :=
  let versionsByName := (walkAuditedPackages lockfile devRootNames options).foldl
    (requestVisit options) ∅
  { packages := versionsByName.map fun _ versions => versions.toList
    totalPackages := (versionsByName.values.map (·.size)).sum }

/-- The request asks about a version of a package. -/
def Requests (data : AuditRequestData) (name version : String) : Prop :=
  ∃ versions, data.packages[name]? = some versions ∧ version ∈ versions

/-- A version of a package that the lockfile reaches from a package key. -/
def KeyReaches (lockfile : Lockfile) (key name version : String) : Prop :=
  ∃ found, Reaches (lookupPackage lockfile) packageEdges key found ∧
    ∃ package, lookupPackage lockfile found = some package ∧
      package.name = name ∧ package.version = version

/-- A version of a package that the lockfile reaches from a root. -/
def RootReaches (lockfile : Lockfile) (rootName name version : String) : Prop :=
  ∃ dep, lockfile.root.dependencies[rootName]? = some dep ∧
    ∃ resolved, dep.version = some resolved ∧
      KeyReaches lockfile (rootKey rootName resolved dep) name version

/-- Some member declares the name in `dependencies` or `optionalDependencies`. -/
def DeclaresProduction (target : AuditTarget) (rootName : String) : Prop :=
  ∃ member ∈ target.members, rootName ∈ member.manifest.dependencies ∨
    rootName ∈ member.manifest.optionalDependencies

def DeclaresDev (target : AuditTarget) (rootName : String) : Prop :=
  ∃ member ∈ target.members, rootName ∈ member.manifest.devDependencies

theorem lookupPackage_mem_keys (lockfile : Lockfile) (key : String) (package : LockPackage)
    (h : lookupPackage lockfile key = some package) : key ∈ lockfile.packages.keys :=
  BTreeMap.mem_keys_iff.mpr ⟨package, h⟩

/-- The depth bound of the walk is never met. -/
theorem walkPackage_fuel (lockfile : Lockfile) (packageKey label : String)
    (isDev isOptional : Bool) {fuel : Nat} (h : lockfile.packages.size < fuel) :
    walkPackage lockfile packageKey label isDev isOptional =
      (walk (lookupPackage lockfile) packageEdges fuel [] [] (label, packageKey)).map fun entry =>
        ⟨entry.2.name, entry.2.version, ">".intercalate entry.1, isDev, isOptional⟩ := by
  have hopen : unvisited lockfile.packages.keys [] < lockfile.packages.size + 1 := by
    apply Nat.lt_succ_of_le
    rw [← Std.ExtTreeMap.length_keys]
    exact List.length_filter_le _ _
  rw [walkPackage, walk_fuel (lookupPackage_mem_keys lockfile) hopen h]

theorem mem_walkPackage_iff (lockfile : Lockfile) (key label : String) (isDev isOptional : Bool)
    (name version : String) :
    (∃ visit ∈ walkPackage lockfile key label isDev isOptional,
      visit.name = name ∧ visit.version = version) ↔ KeyReaches lockfile key name version := by
  have hfuel : lockfile.packages.keys.length < lockfile.packages.size + 1 := by
    rw [Std.ExtTreeMap.length_keys]
    exact Nat.lt_succ_self _
  constructor
  · intro h
    obtain ⟨visit, hvisit, hname, hversion⟩ := h
    obtain ⟨entry, hentry, rfl⟩ := List.mem_map.mp hvisit
    obtain ⟨found, hreach, hfound⟩ := reaches_of_mem_walk hentry
    exact ⟨found, hreach, entry.2, hfound, hname, hversion⟩
  · intro h
    obtain ⟨found, hreach, package, hfound, hname, hversion⟩ := h
    have hentry : ∃ labels, (labels, package) ∈ walk (lookupPackage lockfile) packageEdges
        (lockfile.packages.size + 1) [] [] (label, key) :=
      (mem_walk_iff (lookupPackage_mem_keys lockfile) hfuel).mpr ⟨found, hreach, hfound⟩
    obtain ⟨labels, hlabels⟩ := hentry
    exact ⟨_, List.mem_map_of_mem hlabels, hname, hversion⟩

/-- The options leave a root out. -/
def RootSkipped (devRootNames : BTreeSet String) (options : AuditOptions) (rootName : String) : Prop :=
  (options.productionOnly = true ∧ rootName ∈ devRootNames) ∨
    (options.devOnly = true ∧ rootName ∉ devRootNames)

theorem mem_walkAuditedRoot_iff (lockfile : Lockfile) (devRootNames : BTreeSet String)
    (options : AuditOptions) (rootName name version : String) (dep : LockRootDependency) :
    (∃ visit ∈ walkAuditedRoot lockfile devRootNames options rootName dep,
      visit.name = name ∧ visit.version = version) ↔
    ¬ RootSkipped devRootNames options rootName ∧ ∃ resolved, dep.version = some resolved ∧
      KeyReaches lockfile (rootKey rootName resolved dep) name version := by
  have hskip : RootSkipped devRootNames options rootName ↔
      (options.productionOnly && devRootNames.contains rootName) = true ∨
        (options.devOnly && !devRootNames.contains rootName) = true := by
    rw [RootSkipped, Bool.and_eq_true, Bool.and_eq_true, Bool.not_eq_true', ← Bool.not_eq_true,
      Std.ExtTreeSet.contains_iff_mem]
  rw [hskip, not_or]
  unfold walkAuditedRoot
  dsimp only
  split
  next hprod => simp [hprod]
  next hprod =>
      split
      next hdev => simp [hdev]
      next hdev =>
          cases hversion : dep.version with
          | none => simp
          | some resolved =>
              dsimp only
              rw [mem_walkPackage_iff]
              simp [hprod, hdev]

theorem mem_walkAuditedPackages_iff (lockfile : Lockfile) (devRootNames : BTreeSet String)
    (options : AuditOptions) (name version : String) :
    (∃ visit ∈ walkAuditedPackages lockfile devRootNames options,
      visit.name = name ∧ visit.version = version) ↔
    ∃ rootName, ¬ RootSkipped devRootNames options rootName ∧ RootReaches lockfile rootName name version := by
  constructor
  · intro h
    obtain ⟨visit, hvisit, hname⟩ := h
    obtain ⟨root, hroot, hin⟩ := List.mem_flatMap.mp hvisit
    obtain ⟨hskip, hreach⟩ := (mem_walkAuditedRoot_iff lockfile devRootNames options root.1 name
      version root.2).mp ⟨visit, hin, hname⟩
    exact ⟨root.1, hskip, root.2, Std.ExtTreeMap.mem_toList_iff_getElem?_eq_some.mp hroot, hreach⟩
  · intro h
    obtain ⟨rootName, hskip, dep, hdep, hreach⟩ := h
    obtain ⟨visit, hin, hname⟩ := (mem_walkAuditedRoot_iff lockfile devRootNames options rootName name
      version dep).mpr ⟨hskip, hreach⟩
    exact ⟨visit, List.mem_flatMap.mpr
      ⟨(rootName, dep), Std.ExtTreeMap.mem_toList_iff_getElem?_eq_some.mpr hdep, hin⟩, hname⟩

theorem requestVisit_mem (options : AuditOptions)
    (versionsByName : BTreeMap String (BTreeSet String)) (visit : Visit) (name version : String) :
    (∃ versions, (requestVisit options versionsByName visit)[name]? = some versions ∧
      version ∈ versions) ↔
    (∃ versions, versionsByName[name]? = some versions ∧ version ∈ versions) ∨
      (packageSelected options name = true ∧ visit.name = name ∧ visit.version = version) := by
  rw [requestVisit]
  by_cases hname : visit.name = name
  · subst hname
    cases hselected : packageSelected options visit.name with
    | false => simp
    | true =>
        cases hfound : versionsByName[visit.name]? with
        | none =>
            simp [Std.ExtTreeMap.getD_eq_getD_getElem?, hfound, Std.ExtTreeSet.mem_insert]
        | some versions =>
            simp [Std.ExtTreeMap.getD_eq_getD_getElem?, hfound, Std.ExtTreeSet.mem_insert, or_comm]
  · split
    next => simp [Std.ExtTreeMap.getElem?_insert, hname]
    next => simp [hname]

theorem requestVisits_mem (options : AuditOptions) (visits : List Visit)
    (versionsByName : BTreeMap String (BTreeSet String)) (name version : String) :
    (∃ versions, (visits.foldl (requestVisit options) versionsByName)[name]? = some versions ∧
      version ∈ versions) ↔
    (∃ versions, versionsByName[name]? = some versions ∧ version ∈ versions) ∨
      (packageSelected options name = true ∧
        ∃ visit ∈ visits, visit.name = name ∧ visit.version = version) := by
  induction visits generalizing versionsByName with
  | nil => simp
  | cons visit visits ih =>
      rw [List.foldl_cons, ih, requestVisit_mem, or_assoc, ← and_or_left]
      simp only [List.mem_cons, exists_eq_or_imp]

/-- The request asks about the selected packages that an unskipped root reaches. -/
theorem requests_iff (lockfile : Lockfile) (devRootNames : BTreeSet String) (options : AuditOptions)
    (name version : String) :
    Requests (buildAuditRequest lockfile devRootNames options) name version ↔
      packageSelected options name = true ∧
        ∃ rootName, ¬ RootSkipped devRootNames options rootName ∧
          RootReaches lockfile rootName name version := by
  have hfold := requestVisits_mem options (walkAuditedPackages lockfile devRootNames options) ∅
    name version
  rw [mem_walkAuditedPackages_iff] at hfold
  rw [Requests, buildAuditRequest]
  simp only [Std.ExtTreeMap.getElem?_map, Option.map_eq_some_iff]
  constructor
  · intro h
    obtain ⟨listed, ⟨versions, hversions, rfl⟩, hmem⟩ := h
    cases hfold.mp ⟨versions, hversions, Std.ExtTreeSet.mem_toList.mp hmem⟩ with
    | inl hempty => simp at hempty
    | inr hreach => exact hreach
  · intro h
    obtain ⟨versions, hversions, hmem⟩ := hfold.mpr (.inr h)
    exact ⟨versions.toList, ⟨versions, hversions, rfl⟩, Std.ExtTreeSet.mem_toList.mpr hmem⟩

theorem mem_devRootNames_iff (target : AuditTarget) (rootName : String) :
    rootName ∈ target.devRootNames ↔ DeclaresDev target rootName := by
  cases target with
  | project project =>
      simp [AuditTarget.devRootNames, DeclaresDev, AuditTarget.members, Std.ExtTreeSet.mem_ofList]
  | workspace workspace =>
      simp [AuditTarget.devRootNames, workspaceDevRootNames, DeclaresDev, AuditTarget.members,
        Std.ExtTreeSet.mem_ofList]

/-- A production audit asks about everything a production dependency reaches. -/
def ProductionComplete (target : AuditTarget) (lockfile : Lockfile) (options : AuditOptions) :
    Prop :=
  ∀ rootName name version, DeclaresProduction target rootName →
    RootReaches lockfile rootName name version →
      Requests (buildAuditRequest lockfile target.devRootNames options) name version

/-- No other option narrows the audit to less than its production packages. -/
def UnfilteredAudit (target : AuditTarget) (lockfile : Lockfile) (options : AuditOptions) : Prop :=
  ∀ rootName name version, DeclaresProduction target rootName →
    RootReaches lockfile rootName name version →
      options.devOnly = false ∧ packageSelected options name = true

/-- What a production dependency with the name of a `devDependencies` entry
reaches is also reached from a root whose name is in no `devDependencies`. -/
def SharedCovered (target : AuditTarget) (lockfile : Lockfile) : Prop :=
  ∀ rootName name version, DeclaresProduction target rootName → DeclaresDev target rootName →
    RootReaches lockfile rootName name version →
      ∃ other, ¬ DeclaresDev target other ∧ RootReaches lockfile other name version

theorem production_complete_iff (target : AuditTarget) (lockfile : Lockfile)
    (options : AuditOptions) :
    options.productionOnly = true →
      (ProductionComplete target lockfile options ↔
        UnfilteredAudit target lockfile options ∧ SharedCovered target lockfile) := by
  intro hprod
  have hskip : ∀ rootName, ¬ RootSkipped target.devRootNames options rootName ↔
      options.devOnly = false ∧ ¬ DeclaresDev target rootName := by
    intro rootName
    rw [RootSkipped, mem_devRootNames_iff]
    simp only [hprod, true_and, not_or, not_and, not_not]
    cases options.devOnly with
    | false => simp
    | true => simp
  constructor
  · intro h
    constructor
    · intro rootName name version hdeclared hreach
      obtain ⟨hselected, other, hother, -⟩ :=
        (requests_iff _ _ _ _ _).mp (h rootName name version hdeclared hreach)
      exact ⟨((hskip other).mp hother).1, hselected⟩
    · intro rootName name version hdeclared _ hreach
      obtain ⟨-, other, hother, hfound⟩ :=
        (requests_iff _ _ _ _ _).mp (h rootName name version hdeclared hreach)
      exact ⟨other, ((hskip other).mp hother).2, hfound⟩
  · intro h rootName name version hdeclared hreach
    obtain ⟨hdev, hselected⟩ := h.1 rootName name version hdeclared hreach
    apply (requests_iff _ _ _ _ _).mpr
    refine ⟨hselected, ?_⟩
    by_cases hshared : DeclaresDev target rootName
    · obtain ⟨other, hother, hfound⟩ := h.2 rootName name version hdeclared hshared hreach
      exact ⟨other, (hskip other).mpr ⟨hdev, hother⟩, hfound⟩
    · exact ⟨rootName, (hskip rootName).mpr ⟨hdev, hshared⟩, hreach⟩

def productionAudit : AuditOptions := ⟨true, false, []⟩

/-- Two members that need `a`, one for production and one as `others` says. -/
def twoMembers (others : Manifest) : AuditTarget :=
  .workspace
    { root := "/ws"
      projects :=
        [⟨"/ws/app", "/ws/app/package.json", { Manifest.empty with
            dependencies := BTreeMap.collect [("a", "^1.0.0")] }⟩,
          ⟨"/ws/tools", "/ws/tools/package.json", others⟩]
      config := ⟨∅, ∅, [], [], none, none⟩ }

def bothProduction : AuditTarget :=
  twoMembers { Manifest.empty with dependencies := BTreeMap.collect [("a", "^1.0.0")] }

def oneDev : AuditTarget :=
  twoMembers { Manifest.empty with devDependencies := BTreeMap.collect [("a", "^1.0.0")] }

/-- What an install of either workspace records. -/
def oneRootLockfile : Lockfile :=
  Lockfile.ofGraph
    ⟨⟨BTreeMap.collect [("a", ⟨"^1.0.0", pkgA⟩)]⟩,
      BTreeMap.collect [(pkgA, samplePackage pkgA "a.tgz" ∅)]⟩ ∅

theorem bothProduction_no_dev (name : String) : ¬ DeclaresDev bothProduction name := by
  intro h
  obtain ⟨member, hmember, hdev⟩ := h
  simp only [bothProduction, twoMembers, AuditTarget.members, List.mem_cons, List.not_mem_nil,
    or_false] at hmember
  cases hmember with
  | inl heq => simp [heq, Manifest.empty] at hdev
  | inr heq => simp [heq, Manifest.empty] at hdev

theorem production_complete_when_undisputed :
    ProductionComplete bothProduction oneRootLockfile productionAudit :=
  (production_complete_iff bothProduction oneRootLockfile productionAudit rfl).mpr
    ⟨fun _ _ _ _ _ => ⟨rfl, rfl⟩,
      fun _ _ _ _ hdev _ => absurd hdev (bothProduction_no_dev _)⟩

/-- The version that one member needs for production is not asked about, since
the other member declares the same name for development. -/
theorem shared_name_not_audited :
    ¬ ProductionComplete oneDev oneRootLockfile productionAudit := by
  intro h
  have hdeclared : DeclaresProduction oneDev "a" :=
    ⟨_, List.mem_cons_self, .inl (by decide +kernel)⟩
  have hreach : RootReaches oneRootLockfile "a" "a" "1.0.0" :=
    ⟨⟨"^1.0.0", none, some "1.0.0", false⟩, by decide +kernel, "1.0.0", rfl, "a@1.0.0", .refl,
      Lockfile.lockPackage (samplePackage pkgA "a.tgz" ∅), by decide +kernel, rfl, rfl⟩
  obtain ⟨versions, hversions, -⟩ := h "a" "a" "1.0.0" hdeclared hreach
  have hnone : (buildAuditRequest oneRootLockfile oneDev.devRootNames productionAudit).packages["a"]? =
      none := by decide +kernel
  rw [hnone] at hversions
  cases hversions

end Snpm.Audit
