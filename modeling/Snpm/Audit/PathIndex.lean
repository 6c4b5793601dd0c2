import Mathlib
import Snpm.Audit.Request

/-!
The path index of the audit: for every vulnerable package version, how it is
reached and whether only development or optional dependencies reach it. Also what
the request lists as a whole, and how many packages it counts.
-/
namespace Snpm.Audit

open TrailWalk

def maxPathsPerFinding : Nat := 100

structure PathInfo where
  paths : List String
  dev : Bool
  optional : Bool
deriving DecidableEq

abbrev AuditPathIndex := BTreeMap String (BTreeMap String PathInfo)

/-- The flags are taken back and the path is added. -/
def PathInfo.record (info : PathInfo) (visit : Visit) : PathInfo where
  paths :=
    if maxPathsPerFinding ≤ info.paths.length ∨ info.paths.any (· = visit.path) then info.paths
    else info.paths ++ [visit.path]
  dev := info.dev && visit.isDev
  optional := info.optional && visit.isOptional

def pathVisit (vulnerableNames : BTreeSet String) (paths : AuditPathIndex) (visit : Visit) :
    AuditPathIndex :=
  if visit.name ∈ vulnerableNames then
    let byVersion := paths.getD visit.name ∅
    let info := byVersion.getD visit.version ⟨[], visit.isDev, visit.isOptional⟩
    paths.insert visit.name (byVersion.insert visit.version (info.record visit))
  else paths

def buildAuditPathIndex (lockfile : Lockfile) (devRootNames : BTreeSet String)
    (options : AuditOptions) (vulnerableNames : BTreeSet String) : AuditPathIndex :=
  if vulnerableNames.isEmpty then ∅
  else (walkAuditedPackages lockfile devRootNames options).foldl (pathVisit vulnerableNames) ∅

/-- The entry of a package version. -/
def AuditPathIndex.info (paths : AuditPathIndex) (name version : String) : Option PathInfo :=
  (paths[name]?).bind fun byVersion => byVersion[version]?

/-- What a request asks about, as pairs. -/
def AuditRequestData.pairs (data : AuditRequestData) : List (String × String) :=
  data.packages.toList.flatMap fun entry => entry.2.map fun version => (entry.1, version)

section Request

theorem mem_pairs_iff (data : AuditRequestData) (name version : String) :
    (name, version) ∈ data.pairs ↔ Requests data name version := by
  rw [AuditRequestData.pairs, List.mem_flatMap, Requests]
  constructor
  · intro h
    obtain ⟨entry, hentry, hmem⟩ := h
    obtain ⟨found, hfound, heq⟩ := List.mem_map.mp hmem
    rw [Prod.mk.injEq] at heq
    refine ⟨entry.2, ?_, heq.2 ▸ hfound⟩
    rw [← heq.1]
    exact Std.ExtTreeMap.mem_toList_iff_getElem?_eq_some.mp hentry
  · intro h
    obtain ⟨versions, hversions, hmem⟩ := h
    exact ⟨(name, versions), Std.ExtTreeMap.mem_toList_iff_getElem?_eq_some.mpr hversions,
      List.mem_map.mpr ⟨version, hmem, rfl⟩⟩

theorem nodup_pairs (versionsByName : BTreeMap String (BTreeSet String)) (total : Nat) :
    (AuditRequestData.pairs
      ⟨versionsByName.map fun _ versions => versions.toList, total⟩).Nodup := by
  rw [AuditRequestData.pairs, List.nodup_flatMap]
  constructor
  · intro entry hentry
    rw [Std.ExtTreeMap.mem_toList_iff_getElem?_eq_some, Std.ExtTreeMap.getElem?_map,
      Option.map_eq_some_iff] at hentry
    obtain ⟨versions, -, hversions⟩ := hentry
    rw [← hversions]
    have hnodup : versions.toList.Nodup := Std.ExtTreeSet.distinct_toList.imp fun hne heq =>
      hne (Std.LawfulEqCmp.compare_eq_iff_eq.mpr heq)
    exact List.Nodup.map (fun _ _ h => (Prod.mk.inj h).2) hnodup
  · refine Std.ExtTreeMap.distinct_keys_toList.imp fun hne => ?_
    intro pair hleft hright
    obtain ⟨_, -, rfl⟩ := List.mem_map.mp hleft
    obtain ⟨_, -, heq⟩ := List.mem_map.mp hright
    exact hne (Std.LawfulEqCmp.compare_eq_iff_eq.mpr (Prod.mk.inj heq).1.symm)

theorem length_pairs (versionsByName : BTreeMap String (BTreeSet String)) (total : Nat) :
    (AuditRequestData.pairs
      ⟨versionsByName.map fun _ versions => versions.toList, total⟩).length =
      (versionsByName.values.map (·.size)).sum := by
  rw [AuditRequestData.pairs, Std.ExtTreeMap.toList_map, List.length_flatMap, List.map_map,
    BTreeMap.values_eq_map_snd_toList, List.map_map]
  refine congrArg List.sum (List.map_congr_left fun entry _ => ?_)
  simp

/-- The request counts the pairs it lists. -/
theorem totalPackages_eq (lockfile : Lockfile) (devRootNames : BTreeSet String)
    (options : AuditOptions) :
    (buildAuditRequest lockfile devRootNames options).totalPackages =
      (buildAuditRequest lockfile devRootNames options).pairs.length :=
  (length_pairs _ _).symm

end Request

section Flags

/-- What the walk reports of a visit, with the root that it started from. -/
theorem mem_walkAuditedPackages_flags (lockfile : Lockfile) (devRootNames : BTreeSet String)
    (options : AuditOptions) (name version : String) (isDev isOptional : Bool) :
    (∃ visit ∈ walkAuditedPackages lockfile devRootNames options, visit.name = name ∧
      visit.version = version ∧ visit.isDev = isDev ∧ visit.isOptional = isOptional) ↔
    ∃ rootName dep, lockfile.root.dependencies[rootName]? = some dep ∧
      ¬ RootSkipped devRootNames options rootName ∧ RootReaches lockfile rootName name version ∧
      devRootNames.contains rootName = isDev ∧ dep.optional = isOptional := by
  have hflags : ∀ rootName dep, ∀ visit ∈ walkAuditedRoot lockfile devRootNames options rootName dep,
      visit.isDev = devRootNames.contains rootName ∧ visit.isOptional = dep.optional := by
    intro rootName dep visit hvisit
    unfold walkAuditedRoot at hvisit
    dsimp only at hvisit
    split at hvisit
    · cases hvisit
    · split at hvisit
      · cases hvisit
      · split at hvisit
        · cases hvisit
        · obtain ⟨entry, -, rfl⟩ := List.mem_map.mp hvisit
          exact ⟨rfl, rfl⟩
  constructor
  · intro h
    obtain ⟨visit, hvisit, hname, hversion, rfl, rfl⟩ := h
    obtain ⟨⟨rootName, dep⟩, hroot, hin⟩ := List.mem_flatMap.mp hvisit
    obtain ⟨hdev, hoptional⟩ := hflags rootName dep visit hin
    obtain ⟨hskip, hreach⟩ := (mem_walkAuditedRoot_iff lockfile devRootNames options rootName name
      version dep).mp ⟨visit, hin, hname, hversion⟩
    have hget := Std.ExtTreeMap.mem_toList_iff_getElem?_eq_some.mp hroot
    exact ⟨rootName, dep, hget, hskip, ⟨dep, hget, hreach⟩, hdev.symm, hoptional.symm⟩
  · intro h
    obtain ⟨rootName, dep, hget, hskip, ⟨dep', hget', hreach⟩, rfl, rfl⟩ := h
    rw [hget, Option.some.injEq] at hget'
    subst hget'
    obtain ⟨visit, hin, hname, hversion⟩ := (mem_walkAuditedRoot_iff lockfile devRootNames options
      rootName name version dep).mpr ⟨hskip, hreach⟩
    obtain ⟨hdev, hoptional⟩ := hflags rootName dep visit hin
    exact ⟨visit, List.mem_flatMap.mpr
      ⟨(rootName, dep), Std.ExtTreeMap.mem_toList_iff_getElem?_eq_some.mpr hget, hin⟩,
      hname, hversion, hdev, hoptional⟩

theorem info_insert (paths : AuditPathIndex) (name : String) (byVersion : BTreeMap String PathInfo)
    (other version : String) : AuditPathIndex.info (paths.insert name byVersion) other version =
      if name = other then byVersion[version]? else paths.info other version := by
  rw [AuditPathIndex.info, BTreeMap.getElem?_insert_self_or]
  split
  · rfl
  · rfl

theorem info_getD (paths : AuditPathIndex) (name version : String) :
    (paths.getD name ∅)[version]? = paths.info name version := by
  rw [AuditPathIndex.info, Std.ExtTreeMap.getD_eq_getD_getElem?]
  cases paths[name]? with
  | none => exact Std.ExtTreeMap.getElem?_empty
  | some byVersion => rfl

/-- A visit changes the entry of its own package version only. -/
theorem info_pathVisit (vulnerableNames : BTreeSet String) (paths : AuditPathIndex) (visit : Visit)
    (name version : String) :
    AuditPathIndex.info (pathVisit vulnerableNames paths visit) name version =
      if visit.name ∈ vulnerableNames ∧ visit.name = name ∧ visit.version = version then
        some (((paths.info name version).getD ⟨[], visit.isDev, visit.isOptional⟩).record visit)
      else paths.info name version := by
  rw [pathVisit]
  by_cases hvulnerable : visit.name ∈ vulnerableNames
  · rw [if_pos hvulnerable, info_insert]
    by_cases hname : visit.name = name
    · subst hname
      rw [if_pos rfl, BTreeMap.getElem?_insert_self_or, Std.ExtTreeMap.getD_eq_getD_getElem?,
        info_getD, info_getD]
      by_cases hversion : visit.version = version
      · subst hversion
        rw [if_pos rfl, if_pos ⟨hvulnerable, rfl, rfl⟩]
      · rw [if_neg hversion, if_neg fun h => hversion h.2.2]
    · rw [if_neg hname, if_neg fun h => hname h.2.1]
  · rw [if_neg hvulnerable, if_neg fun h => hvulnerable h.1]

/-- The visits of one package version. -/
def Visit.Of (visit : Visit) (name version : String) : Prop :=
  visit.name = name ∧ visit.version = version

/-- After all visits a flag is set when it was not taken back before and every
visit of the package version has it. -/
theorem info_foldl {vulnerableNames : BTreeSet String} {name version : String}
    (hname : name ∈ vulnerableNames) (visits : List Visit) (paths : AuditPathIndex) {info : PathInfo}
    (h : AuditPathIndex.info (visits.foldl (pathVisit vulnerableNames) paths) name version =
      some info) :
    (info.dev = true ↔ (∀ before, paths.info name version = some before → before.dev = true) ∧
      ∀ visit ∈ visits, visit.Of name version → visit.isDev = true) ∧
    (info.optional = true ↔
      (∀ before, paths.info name version = some before → before.optional = true) ∧
      ∀ visit ∈ visits, visit.Of name version → visit.isOptional = true) := by
  induction visits generalizing paths with
  | nil =>
      rw [List.foldl_nil] at h
      simp [h]
  | cons visit visits ih =>
      rw [List.foldl_cons] at h
      obtain ⟨hdev, hoptional⟩ := ih _ h
      rw [hdev, hoptional, info_pathVisit]
      by_cases hof : visit.Of name version
      · have hvisit : visit.name ∈ vulnerableNames ∧ visit.name = name ∧ visit.version = version :=
          ⟨hof.1 ▸ hname, hof⟩
        rw [if_pos hvisit]
        cases hbefore : paths.info name version with
        | none => simp [PathInfo.record, hof]
        | some before => simp [PathInfo.record, hof, and_assoc]
      · have hvisit : ¬ (visit.name ∈ vulnerableNames ∧ visit.name = name ∧ visit.version = version) :=
          fun h => hof h.2
        rw [if_neg hvisit]
        simp [hof]

theorem info_none_of_not_vulnerable {vulnerableNames : BTreeSet String} {name version : String}
    (hname : name ∉ vulnerableNames) (visits : List Visit) (paths : AuditPathIndex) :
    AuditPathIndex.info (visits.foldl (pathVisit vulnerableNames) paths) name version =
      paths.info name version := by
  induction visits generalizing paths with
  | nil => rfl
  | cons visit visits ih =>
      rw [List.foldl_cons, ih, info_pathVisit, if_neg]
      intro h
      exact hname (h.2.1 ▸ h.1)

theorem info_foldl_isSome_iff {vulnerableNames : BTreeSet String} {name version : String}
    (hname : name ∈ vulnerableNames) (visits : List Visit) (paths : AuditPathIndex) :
    (AuditPathIndex.info (visits.foldl (pathVisit vulnerableNames) paths) name version).isSome ↔
      (paths.info name version).isSome ∨ ∃ visit ∈ visits, visit.Of name version := by
  induction visits generalizing paths with
  | nil => simp
  | cons visit visits ih =>
      rw [List.foldl_cons, ih, info_pathVisit]
      by_cases hof : visit.Of name version
      · have hvisit : visit.name ∈ vulnerableNames ∧ visit.name = name ∧ visit.version = version :=
          ⟨hof.1 ▸ hname, hof⟩
        rw [if_pos hvisit]
        simp [hof]
      · rw [if_neg fun h => hof h.2]
        simp [hof]

end Flags

/-- A root that the options keep and that reaches the package version. -/
def SelectedRoot (lockfile : Lockfile) (devRootNames : BTreeSet String) (options : AuditOptions)
    (name version rootName : String) : Prop :=
  ¬ RootSkipped devRootNames options rootName ∧ RootReaches lockfile rootName name version

/-- What one audit asks about and records. -/
structure AuditExact (lockfile : Lockfile) (devRootNames : BTreeSet String) (options : AuditOptions)
    (vulnerableNames : BTreeSet String) : Prop where
  terminates : ∀ packageKey label isDev isOptional, ∃ entries,
    Walked (lookupPackage lockfile) packageEdges [] [] (label, packageKey) entries ∧
      walkPackage lockfile packageKey label isDev isOptional = entries.map fun entry =>
        ⟨entry.2.name, entry.2.version, ">".intercalate entry.1, isDev, isOptional⟩
  lists : ∀ name version,
    (name, version) ∈ (buildAuditRequest lockfile devRootNames options).pairs ↔
      packageSelected options name = true ∧
        ∃ rootName, SelectedRoot lockfile devRootNames options name version rootName
  once : (buildAuditRequest lockfile devRootNames options).pairs.Nodup
  counts : (buildAuditRequest lockfile devRootNames options).totalPackages =
    (buildAuditRequest lockfile devRootNames options).pairs.length
  entries : ∀ name version,
    ((buildAuditPathIndex lockfile devRootNames options vulnerableNames).info name version).isSome ↔
      name ∈ vulnerableNames ∧
        ∃ rootName, SelectedRoot lockfile devRootNames options name version rootName
  dev : ∀ name version info,
    (buildAuditPathIndex lockfile devRootNames options vulnerableNames).info name version = some info →
      (info.dev = true ↔ ∀ rootName,
        SelectedRoot lockfile devRootNames options name version rootName → rootName ∈ devRootNames)
  optional : ∀ name version info,
    (buildAuditPathIndex lockfile devRootNames options vulnerableNames).info name version = some info →
      (info.optional = true ↔ ∀ (rootName : String) dep,
        SelectedRoot lockfile devRootNames options name version rootName →
          lockfile.root.dependencies[rootName]? = some dep → dep.optional = true)

section Index

variable {lockfile : Lockfile} {devRootNames vulnerableNames : BTreeSet String}
  {options : AuditOptions} {name version : String}

theorem buildAuditPathIndex_info (hname : name ∈ vulnerableNames) :
    (buildAuditPathIndex lockfile devRootNames options vulnerableNames).info name version =
      AuditPathIndex.info ((walkAuditedPackages lockfile devRootNames options).foldl
        (pathVisit vulnerableNames) ∅) name version := by
  have hempty : vulnerableNames.isEmpty = false := by
    refine Std.ExtTreeSet.isEmpty_eq_false_iff.mpr fun hnone => ?_
    rw [hnone] at hname
    exact Std.ExtTreeSet.not_mem_empty hname
  simp only [buildAuditPathIndex, hempty, Bool.false_eq_true, if_false]

theorem info_empty : AuditPathIndex.info ∅ name version = none := by
  simp [AuditPathIndex.info]

theorem buildAuditPathIndex_info_none (hname : name ∉ vulnerableNames) :
    (buildAuditPathIndex lockfile devRootNames options vulnerableNames).info name version = none := by
  rw [buildAuditPathIndex]
  split
  · exact info_empty
  · rw [info_none_of_not_vulnerable hname, info_empty]

theorem name_mem_of_info {info : PathInfo}
    (h : (buildAuditPathIndex lockfile devRootNames options vulnerableNames).info name version =
      some info) : name ∈ vulnerableNames := by
  by_contra hname
  rw [buildAuditPathIndex_info_none hname] at h
  cases h

theorem exists_visit_of_iff :
    (∃ visit ∈ walkAuditedPackages lockfile devRootNames options, visit.Of name version) ↔
      ∃ rootName, SelectedRoot lockfile devRootNames options name version rootName :=
  mem_walkAuditedPackages_iff lockfile devRootNames options name version

theorem buildAuditPathIndex_dev {info : PathInfo}
    (h : (buildAuditPathIndex lockfile devRootNames options vulnerableNames).info name version =
      some info) : info.dev = true ↔ ∀ rootName,
        SelectedRoot lockfile devRootNames options name version rootName → rootName ∈ devRootNames := by
  have hname := name_mem_of_info h
  rw [buildAuditPathIndex_info hname] at h
  rw [(info_foldl hname _ _ h).1, info_empty]
  have hflags := mem_walkAuditedPackages_flags lockfile devRootNames options name version
  constructor
  · intro hall rootName hroot
    obtain ⟨dep, hdep, -⟩ := hroot.2
    obtain ⟨visit, hvisit, hvisitName, hvisitVersion, hdev, -⟩ := (hflags _ _).mpr
      ⟨rootName, dep, hdep, hroot.1, hroot.2, rfl, rfl⟩
    have htrue := hall.2 visit hvisit ⟨hvisitName, hvisitVersion⟩
    rw [hdev] at htrue
    exact Std.ExtTreeSet.contains_iff_mem.mp htrue
  · intro hall
    refine ⟨fun before hbefore => (by cases hbefore), fun visit hvisit hof => ?_⟩
    obtain ⟨rootName, dep, hdep, hskip, hreach, hdev, -⟩ := (hflags _ _).mp
      ⟨visit, hvisit, hof.1, hof.2, rfl, rfl⟩
    rw [← hdev]
    exact Std.ExtTreeSet.contains_iff_mem.mpr (hall rootName ⟨hskip, hreach⟩)

theorem buildAuditPathIndex_optional {info : PathInfo}
    (h : (buildAuditPathIndex lockfile devRootNames options vulnerableNames).info name version =
      some info) : info.optional = true ↔ ∀ (rootName : String) dep,
        SelectedRoot lockfile devRootNames options name version rootName →
          lockfile.root.dependencies[rootName]? = some dep → dep.optional = true := by
  have hname := name_mem_of_info h
  rw [buildAuditPathIndex_info hname] at h
  rw [(info_foldl hname _ _ h).2, info_empty]
  have hflags := mem_walkAuditedPackages_flags lockfile devRootNames options name version
  constructor
  · intro hall rootName dep hroot hdep
    obtain ⟨visit, hvisit, hvisitName, hvisitVersion, -, hoptional⟩ := (hflags _ _).mpr
      ⟨rootName, dep, hdep, hroot.1, hroot.2, rfl, rfl⟩
    rw [← hoptional]
    exact hall.2 visit hvisit ⟨hvisitName, hvisitVersion⟩
  · intro hall
    refine ⟨fun before hbefore => (by cases hbefore), fun visit hvisit hof => ?_⟩
    obtain ⟨rootName, dep, hdep, hskip, hreach, -, hoptional⟩ := (hflags _ _).mp
      ⟨visit, hvisit, hof.1, hof.2, rfl, rfl⟩
    rw [← hoptional]
    exact hall rootName dep ⟨hskip, hreach⟩ hdep

end Index

theorem walkPackage_terminates (lockfile : Lockfile) (packageKey label : String)
    (isDev isOptional : Bool) : ∃ entries,
      Walked (lookupPackage lockfile) packageEdges [] [] (label, packageKey) entries ∧
        walkPackage lockfile packageKey label isDev isOptional = entries.map fun entry =>
          ⟨entry.2.name, entry.2.version, ">".intercalate entry.1, isDev, isOptional⟩ := by
  refine ⟨_, walked_walk (lookupPackage_mem_keys lockfile) ?_, rfl⟩
  apply Nat.lt_succ_of_le
  rw [← Std.ExtTreeMap.length_keys]
  exact List.length_filter_le _ _

theorem audit_exact (lockfile : Lockfile) (devRootNames : BTreeSet String) (options : AuditOptions)
    (vulnerableNames : BTreeSet String) :
    AuditExact lockfile devRootNames options vulnerableNames where
  terminates := walkPackage_terminates lockfile
  lists name version := by
    rw [mem_pairs_iff, requests_iff]
    rfl
  once := nodup_pairs _ _
  counts := totalPackages_eq lockfile devRootNames options
  entries name version := by
    by_cases hname : name ∈ vulnerableNames
    · rw [buildAuditPathIndex_info hname, info_foldl_isSome_iff hname, info_empty,
        exists_visit_of_iff]
      simp [hname]
    · rw [buildAuditPathIndex_info_none hname]
      simp [hname]
  dev _ _ _ h := buildAuditPathIndex_dev h
  optional _ _ _ h := buildAuditPathIndex_optional h

end Snpm.Audit
