import Mathlib
import Snpm.Resolve.Types
import Snpm.Semver

/-!
Registry metadata, and the choice of a version for a range. A distribution tag
wins over a range of the same text; otherwise the highest published version
that matches and is old enough is taken.
-/
namespace Snpm

structure PeerDependencyMeta where
  optional : Bool
deriving DecidableEq

structure RegistryDist where
  tarball : String
  integrity : Option String
deriving DecidableEq

/-- The JSON value of `bin`, as far as it is looked at. -/
inductive BinValue where
  | null
  | field (bin : BinField)
  | other
deriving DecidableEq

structure RegistryVersion where
  version : String
  dependencies : BTreeMap String String
  optionalDependencies : BTreeMap String String
  peerDependencies : BTreeMap String String
  peerDependenciesMeta : BTreeMap String PeerDependencyMeta
  bundledDependencies : Option BundledDependencies
  bundleDependencies : Option BundledDependencies
  dist : RegistryDist
  os : List String
  cpu : List String
  libc : List String
  bin : Option BinValue
deriving DecidableEq

structure RegistryPackage where
  versions : BTreeMap String RegistryVersion
  time : BTreeMap String String
  distTags : BTreeMap String String
deriving DecidableEq

def BundledDependencies.toSet (bundled : BundledDependencies) (allDeps : BTreeMap String String) :
    BTreeSet String :=
  match bundled with
  | .list names => .ofList names compare
  | .all true => .ofList allDeps.keys compare
  | .all false => ∅

namespace RegistryVersion

def getBundledDependencies (info : RegistryVersion) : Option BundledDependencies :=
  info.bundledDependencies.or info.bundleDependencies

def hasBin (info : RegistryVersion) : Bool :=
  match info.bin with
  | none | some .null => false
  | some _ => true

def binDefinition (info : RegistryVersion) : Option BinField :=
  match info.bin with
  | some (.field bin) => some bin
  | _ => none

def bundledDependencyNames (info : RegistryVersion) : BTreeSet String :=
  (info.getBundledDependencies.map (·.toSet info.dependencies)).getD ∅

end RegistryVersion

section Select

variable (S : SemverCrate) (ageOf : String → Option Int)

/-- `ageOf` reads a publication time and gives the whole days since. -/
def versionAgeDays (package : RegistryPackage) (version : String) : Option Int :=
  (package.time[version]?).bind ageOf

/-- The age of a version that is younger than the configured minimum. -/
def tooYoung (package : RegistryPackage) (version : String) (minAgeDays : Option Nat)
    (force : Bool) : Option (Int × Nat) := do
  let minDays ← minAgeDays
  let age ← versionAgeDays ageOf package version
  if !force && age < minDays then some (age, minDays) else none

/-- What the scan over the published versions has found so far. -/
structure Scan where
  selected : Option (S.Version × RegistryVersion)
  latestRejected : Option (S.Version × String × Int)

def exceeds (version : S.Version) : Option S.Version → Bool
  | none => true
  | some best => S.cmp version best = .gt

def scanVersion (ranges : RangeSet S) (package : RegistryPackage) (minAgeDays : Option Nat)
    (force : Bool) (scan : Scan S) (entry : String × RegistryVersion) : Scan S :=
  match parseVersion S entry.1 with
  | .error _ => scan
  | .ok version =>
      if !ranges.contains version then scan
      else
        match tooYoung ageOf package entry.1 minAgeDays force with
        | some (age, _) =>
            if exceeds S version (scan.latestRejected.map (·.1)) then
              { scan with latestRejected := some (version, entry.1, age) }
            else scan
        | none =>
            if exceeds S version (scan.selected.map (·.1)) then
              { scan with selected := some (version, entry.2) }
            else scan

/-- The newest versions, for a message. -/
def availableVersionsHint (package : RegistryPackage) : String :=
  let versions := package.versions.keys.filterMap fun version => (parseVersion S version).toOption
  if versions.isEmpty then "The package has no published versions."
  else
    let sorted := (versions.mergeSort fun a b => S.cmp a b ≠ .gt).reverse
    let shown := (sorted.take 5).map S.display
    "Available versions include: " ++ ", ".intercalate shown ++
      (if shown.length < versions.length then
        ", … (" ++ toString versions.length ++ " total)"
      else "") ++
      ((package.distTags["latest"]?).map fun latest => " (latest: " ++ latest ++ ")").getD "" ++ "."

def scanVersions (ranges : RangeSet S) (package : RegistryPackage) (minAgeDays : Option Nat)
    (force : Bool) : Scan S :=
  package.versions.toList.foldl (scanVersion S ageOf ranges package minAgeDays force) ⟨none, none⟩

/-- The version that the range names as a tag. -/
def taggedVersion (range : String) (package : RegistryPackage) : Option RegistryVersion :=
  (package.distTags[Text.trim range]?).bind (package.versions[·]?)

/-- The error of a scan that selected nothing. -/
def noMatchReason (package : RegistryPackage) (scan : Scan S) (minAgeDays : Option Nat)
    (force : Bool) : String :=
  match scan.latestRejected, minAgeDays, force with
  | some (_, version, age), some minDays, false =>
      "latest matching version " ++ version ++ " is only " ++ toString age ++
        " days old, which is less than the configured minimum of " ++ toString minDays ++ " days"
  | _, _, _ => "no published version matches this range. " ++ availableVersionsHint S package

def scanResult (name range : String) (package : RegistryPackage) (minAgeDays : Option Nat)
    (force : Bool) (scan : Scan S) : Result RegistryVersion :=
  match scan.selected with
  | some (_, info) => .ok info
  | none => .error (.resolutionFailed name range
      (noMatchReason S package scan minAgeDays force))

def selectMatching (name range : String) (package : RegistryPackage) (minAgeDays : Option Nat)
    (force : Bool) : Result RegistryVersion := do
  let ranges ← parseRangeSet S name range
  scanResult S name range package minAgeDays force
    (scanVersions S ageOf ranges package minAgeDays force)

def selectVersion (name range : String) (package : RegistryPackage) (minAgeDays : Option Nat)
    (force : Bool) : Result RegistryVersion :=
  match taggedVersion range package with
  | some info =>
      match tooYoung ageOf package info.version minAgeDays force with
      | some (age, minDays) => .error (.resolutionFailed name range
          ("dist-tag " ++ range ++ " points to version " ++ info.version ++ " which is only " ++
            toString age ++ " days old, less than the configured minimum of " ++
            toString minDays ++ " days"))
      | none => .ok info
  | none => selectMatching S ageOf name range package minAgeDays force

end Select

/-- Every version is published under its own text. -/
def RegistryPackage.Keyed (package : RegistryPackage) : Prop :=
  ∀ (key : String) info, package.versions[key]? = some info → info.version = key

section Spec

variable {S : SemverCrate} {ageOf : String → Option Int}

/-- A selected entry of the scan is a published version in the range. -/
def Scan.Sound (ranges : RangeSet S) (package : RegistryPackage) (scan : Scan S) : Prop :=
  ∀ version info, scan.selected = some (version, info) → ∃ key : String,
    package.versions[key]? = some info ∧ parseVersion S key = .ok version ∧
      ranges.contains version = true

theorem Scan.Sound.scanVersion {ranges : RangeSet S} {package : RegistryPackage} {scan : Scan S}
    (h : scan.Sound ranges package) {minAgeDays : Option Nat} {force : Bool}
    {entry : String × RegistryVersion} (hentry : package.versions[entry.1]? = some entry.2) :
    (scanVersion S ageOf ranges package minAgeDays force scan entry).Sound ranges package := by
  unfold Snpm.scanVersion
  cases hversion : parseVersion S entry.1 with
  | error e => exact h
  | ok version =>
      simp only
      split
      next => exact h
      next hmatch =>
          split
          next =>
              split
              next => exact h
              next => exact h
          next =>
              split
              next =>
                  intro v info hselected
                  cases hselected
                  exact ⟨entry.1, hentry, hversion, by simpa using hmatch⟩
              next => exact h

theorem scanVersions_sound (ranges : RangeSet S) (package : RegistryPackage)
    (minAgeDays : Option Nat) (force : Bool) :
    (scanVersions S ageOf ranges package minAgeDays force).Sound ranges package := by
  have hfold : ∀ (entries : List (String × RegistryVersion)) (scan : Scan S),
      (∀ entry ∈ entries, package.versions[entry.1]? = some entry.2) →
        scan.Sound ranges package →
          (entries.foldl (scanVersion S ageOf ranges package minAgeDays force) scan).Sound
            ranges package := by
    intro entries
    induction entries with
    | nil => exact fun scan _ hscan => hscan
    | cons entry entries ih =>
        intro scan hentries hscan
        exact ih _ (fun e he => hentries e (List.mem_cons_of_mem _ he))
          (hscan.scanVersion (hentries entry List.mem_cons_self))
  apply hfold
  · exact fun entry hentry => Std.ExtTreeMap.mem_toList_iff_getElem?_eq_some.mp hentry
  · intro version info hselected
    cases hselected

theorem parse_of_parseRangeSet {name range : String} {ranges : RangeSet S}
    (h : parseRangeSet S name range = .ok ranges) : RangeSet.parse S range = .ok ranges := by
  unfold parseRangeSet at h
  split at h
  next set hset =>
      cases h
      exact hset
  next => cases h

theorem selected_of_scanResult {name range : String} {package : RegistryPackage}
    {minAgeDays : Option Nat} {force : Bool} {scan : Scan S} {info : RegistryVersion}
    (h : scanResult S name range package minAgeDays force scan = .ok info) :
    ∃ version, scan.selected = some (version, info) := by
  unfold scanResult at h
  split at h
  next version found hselected =>
      cases h
      exact ⟨version, hselected⟩
  next => cases h

theorem selectMatching_ok {name range : String} {package : RegistryPackage}
    {minAgeDays : Option Nat} {force : Bool} {info : RegistryVersion}
    (h : selectMatching S ageOf name range package minAgeDays force = .ok info) :
    ∃ (ranges : RangeSet S) (key : String) (version : S.Version),
      RangeSet.parse S range = .ok ranges ∧ package.versions[key]? = some info ∧
      parseVersion S key = .ok version ∧ ranges.contains version = true := by
  unfold selectMatching at h
  obtain ⟨ranges, hranges, h⟩ := Result.bind_eq_ok h
  obtain ⟨version, hselected⟩ := selected_of_scanResult h
  obtain ⟨key, hkey, hversion, hcontains⟩ :=
    scanVersions_sound ranges package minAgeDays force version info hselected
  exact ⟨ranges, key, version, parse_of_parseRangeSet hranges, hkey, hversion, hcontains⟩

/-- A selected version is the one its tag names, or is in the range. -/
theorem selectVersion_ok {name range : String} {package : RegistryPackage}
    {minAgeDays : Option Nat} {force : Bool} {info : RegistryVersion}
    (h : selectVersion S ageOf name range package minAgeDays force = .ok info) :
    taggedVersion range package = some info ∨
      ∃ (ranges : RangeSet S) (key : String) (version : S.Version),
        RangeSet.parse S range = .ok ranges ∧ package.versions[key]? = some info ∧
        parseVersion S key = .ok version ∧ ranges.contains version = true := by
  unfold selectVersion at h
  split at h
  next tagged htagged =>
      split at h
      next => cases h
      next =>
          cases h
          exact .inl htagged
  next => exact .inr (selectMatching_ok h)

end Spec

end Snpm
