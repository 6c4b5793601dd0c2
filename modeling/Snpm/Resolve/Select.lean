import Mathlib
import Snpm.Library.FirstGreatest
import Snpm.Resolve.Registry

/-!
What the choice of a version returns. The crate's comparison is assumed to be a
total preorder; nothing else is assumed of it.
-/
namespace Snpm

section Age

variable (ageOf : String → Option Int)

/-- The age rule is off, or no age is known, or the minimum is reached. -/
def OldEnough (package : RegistryPackage) (version : String) (minAgeDays : Option Nat)
    (force : Bool) : Prop :=
  force = true ∨ ∀ minDays ∈ minAgeDays, ∀ time ∈ package.time[version]?, ∀ age ∈ ageOf time,
    (minDays : Int) ≤ age

variable {ageOf}

theorem tooYoung_none_iff {package : RegistryPackage} {version : String} {minAgeDays : Option Nat}
    {force : Bool} :
    tooYoung ageOf package version minAgeDays force = none ↔
      OldEnough ageOf package version minAgeDays force := by
  unfold tooYoung OldEnough versionAgeDays
  cases minAgeDays with
  | none => simp
  | some minDays =>
      cases package.time[version]? with
      | none => simp
      | some time =>
          cases hage : ageOf time with
          | none => simp [hage]
          | some age =>
              cases force with
              | true => simp [hage]
              | false => simp [hage]

end Age

section Candidates

variable (S : SemverCrate) (ageOf : String → Option Int)

/-- A published version that parses, is in the range and is old enough. -/
structure Qualifies (ranges : RangeSet S) (package : RegistryPackage) (minAgeDays : Option Nat)
    (force : Bool) (key : String) (version : S.Version) (info : RegistryVersion) : Prop where
  published : package.versions[key]? = some info
  parsed : parseVersion S key = .ok version
  inRange : ranges.contains version = true
  oldEnough : OldEnough ageOf package key minAgeDays force

/-- What the scan keeps of a candidate. -/
def kept (c : S.Version × String × RegistryVersion) : S.Version × RegistryVersion := (c.1, c.2.2)

/-- The entry of the scan, if it qualifies. -/
def candidate (ranges : RangeSet S) (package : RegistryPackage) (minAgeDays : Option Nat)
    (force : Bool) (entry : String × RegistryVersion) :
    Option (S.Version × String × RegistryVersion) :=
  match parseVersion S entry.1 with
  | .error _ => none
  | .ok version =>
      if ranges.contains version ∧ tooYoung ageOf package entry.1 minAgeDays force = none then
        some (version, entry)
      else none

def candidates (ranges : RangeSet S) (package : RegistryPackage) (minAgeDays : Option Nat)
    (force : Bool) : List (S.Version × String × RegistryVersion) :=
  package.versions.toList.filterMap (candidate S ageOf ranges package minAgeDays force)

variable {S ageOf}
variable {ranges : RangeSet S} {package : RegistryPackage} {minAgeDays : Option Nat} {force : Bool}

theorem candidate_eq_some_iff {entry : String × RegistryVersion}
    {c : S.Version × String × RegistryVersion} :
    candidate S ageOf ranges package minAgeDays force entry = some c ↔
      c.2 = entry ∧ parseVersion S entry.1 = .ok c.1 ∧ ranges.contains c.1 = true ∧
        OldEnough ageOf package entry.1 minAgeDays force := by
  unfold candidate
  rw [← tooYoung_none_iff]
  cases hparse : parseVersion S entry.1 with
  | error e => simp
  | ok version =>
      dsimp only
      constructor
      · intro h
        split at h
        next hboth =>
            cases h
            exact ⟨rfl, rfl, hboth⟩
        next => cases h
      · intro h
        obtain ⟨hentry, hversion, hboth⟩ := h
        cases hversion
        rw [if_pos hboth, ← hentry]

theorem mem_candidates_iff {c : S.Version × String × RegistryVersion} :
    c ∈ candidates S ageOf ranges package minAgeDays force ↔
      Qualifies S ageOf ranges package minAgeDays force c.2.1 c.1 c.2.2 := by
  unfold candidates
  rw [List.mem_filterMap]
  constructor
  · intro h
    obtain ⟨entry, hentry, hc⟩ := h
    obtain ⟨heq, hparsed, hin, hold⟩ := candidate_eq_some_iff.mp hc
    rw [← heq] at hentry hparsed hold
    exact ⟨Std.ExtTreeMap.mem_toList_iff_getElem?_eq_some.mp hentry, hparsed, hin, hold⟩
  · intro h
    refine ⟨c.2, Std.ExtTreeMap.mem_toList_iff_getElem?_eq_some.mpr h.published, ?_⟩
    exact candidate_eq_some_iff.mpr ⟨rfl, h.parsed, h.inRange, h.oldEnough⟩

/-- The candidates stand in the order of their texts. -/
theorem candidates_ordered :
    (candidates S ageOf ranges package minAgeDays force).Pairwise
      fun a b => compare a.2.1 b.2.1 = .lt := by
  unfold candidates
  rw [List.pairwise_filterMap]
  refine package.versions.ordered_keys_toList.imp ?_
  intro a b hlt c hc d hd
  rw [(candidate_eq_some_iff.mp hc).1, (candidate_eq_some_iff.mp hd).1]
  exact hlt

/-- One step of the scan keeps the better of two candidates. -/
theorem scanVersion_selected {scan : Scan S} {best : Option (S.Version × String × RegistryVersion)}
    (h : scan.selected = best.map (kept S)) (entry : String × RegistryVersion) :
    (scanVersion S ageOf ranges package minAgeDays force scan entry).selected =
      ((match candidate S ageOf ranges package minAgeDays force entry with
        | none => best
        | some c => FirstGreatest.keepGreater S.cmp (·.1) best c).map (kept S)) := by
  unfold scanVersion candidate
  cases hparse : parseVersion S entry.1 with
  | error e => exact h
  | ok version =>
      dsimp only
      cases hin : ranges.contains version with
      | false => simpa using h
      | true =>
          cases hyoung : tooYoung ageOf package entry.1 minAgeDays force with
          | some young =>
              simp only [Bool.not_true, Bool.false_eq_true, if_false, reduceCtorEq, and_false]
              split
              · exact h
              · exact h
          | none =>
              simp only [Bool.not_true, Bool.false_eq_true, if_false, and_self, if_true]
              rw [h]
              cases best with
              | none => rfl
              | some b =>
                  simp only [Option.map_some, exceeds, decide_eq_true_eq,
                    FirstGreatest.keepGreater]
                  have hkept : (kept S b).1 = b.1 := rfl
                  rw [hkept]
                  by_cases hgt : S.cmp version b.1 = .gt
                  · rw [if_pos hgt, if_pos hgt]
                    rfl
                  · rw [if_neg hgt, if_neg hgt]
                    exact h

theorem scanVersions_selected :
    (scanVersions S ageOf ranges package minAgeDays force).selected =
      (FirstGreatest.scan S.cmp (·.1) (candidates S ageOf ranges package minAgeDays force)).map
        (kept S) := by
  have hfold : ∀ (entries : List (String × RegistryVersion)) (scan : Scan S)
      (best : Option (S.Version × String × RegistryVersion)),
      scan.selected = best.map (kept S) →
        (entries.foldl (scanVersion S ageOf ranges package minAgeDays force) scan).selected =
          (((entries.filterMap (candidate S ageOf ranges package minAgeDays force)).foldl
            (FirstGreatest.keepGreater S.cmp (·.1)) best).map (kept S)) := by
    intro entries
    induction entries with
    | nil => exact fun _ _ h => h
    | cons entry entries ih =>
        intro scan best h
        have hstep : (scanVersion S ageOf ranges package minAgeDays force scan entry).selected = _ :=
          scanVersion_selected h entry
        rw [List.foldl_cons, ih _ _ hstep, List.filterMap_cons]
        cases candidate S ageOf ranges package minAgeDays force entry with
        | none => rfl
        | some c => rfl
  exact hfold package.versions.toList ⟨none, none⟩ none rfl

end Candidates

section Greatest

variable (S : SemverCrate) (ageOf : String → Option Int)

/-- No other version that qualifies is greater, and one that is equal has a later
text. -/
structure Greatest (ranges : RangeSet S) (package : RegistryPackage) (minAgeDays : Option Nat)
    (force : Bool) (key : String) (version : S.Version) (info : RegistryVersion) : Prop where
  qualifies : Qualifies S ageOf ranges package minAgeDays force key version info
  greatest : ∀ key' version' info',
    Qualifies S ageOf ranges package minAgeDays force key' version' info' →
      S.cmp version' version = .lt ∨ (S.cmp version' version = .eq ∧ compare key' key ≠ .lt)

variable {S ageOf}
variable {ranges : RangeSet S} {package : RegistryPackage} {minAgeDays : Option Nat} {force : Bool}

theorem Greatest.info_unique [Std.TransCmp S.cmp] {key key' : String} {version version' : S.Version}
    {info info' : RegistryVersion}
    (h : Greatest S ageOf ranges package minAgeDays force key version info)
    (h' : Greatest S ageOf ranges package minAgeDays force key' version' info') : info = info' := by
  have hright := h.greatest key' version' info' h'.qualifies
  have hleft := h'.greatest key version info h.qualifies
  have hswap : S.cmp version' version = (S.cmp version version').swap := Std.OrientedCmp.eq_swap
  have hkeys : compare key' key ≠ .lt ∧ compare key key' ≠ .lt := by
    cases hright with
    | inl hlt =>
        rw [hlt] at hswap
        cases hleft with
        | inl hlt' =>
            rw [hlt'] at hswap
            cases hswap
        | inr heq =>
            rw [heq.1] at hswap
            cases hswap
    | inr heq =>
        rw [heq.1] at hswap
        cases hleft with
        | inl hlt =>
            rw [hlt] at hswap
            cases hswap
        | inr heq' => exact ⟨heq.2, heq'.2⟩
  have hkey : key = key' := by
    apply Std.LawfulEqOrd.eq_of_compare
    cases hcmp : compare key key' with
    | lt => exact absurd hcmp hkeys.2
    | eq => rfl
    | gt => exact absurd (Std.OrientedCmp.lt_of_gt hcmp) hkeys.1
  have hinfo := h.qualifies.published
  rw [hkey, h'.qualifies.published] at hinfo
  exact (Option.some.inj hinfo).symm

/-- The first greatest candidate is the greatest version that qualifies. -/
theorem greatest_of_scan [Std.TransCmp S.cmp] {c : S.Version × String × RegistryVersion}
    (h : FirstGreatest.scan S.cmp (·.1) (candidates S ageOf ranges package minAgeDays force) =
      some c) :
    Greatest S ageOf ranges package minAgeDays force c.2.1 c.1 c.2.2 := by
  have hfirst := FirstGreatest.isFirstGreatest_of_scan h
  refine ⟨mem_candidates_iff.mp hfirst.mem, ?_⟩
  intro key' version' info' hother
  have hmem : (version', key', info') ∈ candidates S ageOf ranges package minAgeDays force :=
    mem_candidates_iff.mpr hother
  cases hfirst.of_pairwise candidates_ordered hmem with
  | inl heq =>
      have hself : compare key' key' = .eq := Std.ReflCmp.compare_self
      rw [← heq]
      right
      refine ⟨Std.ReflCmp.compare_self, ?_⟩
      rw [hself]
      exact Ordering.noConfusion
  | inr hrest =>
      cases hrest with
      | inl hlt => exact .inl hlt
      | inr heq =>
          right
          refine ⟨heq.1, ?_⟩
          rw [Std.OrientedCmp.gt_of_lt heq.2]
          exact Ordering.noConfusion

theorem selectMatching_ok_iff [Std.TransCmp S.cmp] {name range : String} {info : RegistryVersion} :
    selectMatching S ageOf name range package minAgeDays force = .ok info ↔
      ∃ (ranges : RangeSet S) (key : String) (version : S.Version),
        RangeSet.parse S range = .ok ranges ∧
          Greatest S ageOf ranges package minAgeDays force key version info := by
  unfold selectMatching parseRangeSet
  cases hparse : RangeSet.parse S range with
  | error reason =>
      constructor
      · exact fun h => nomatch h
      · intro h
        obtain ⟨ranges, key, version, hranges, _⟩ := h
        cases hranges
  | ok ranges =>
      have hselected : (scanVersions S ageOf ranges package minAgeDays force).selected = _ :=
        scanVersions_selected
      change scanResult S name range package minAgeDays force
        (scanVersions S ageOf ranges package minAgeDays force) = .ok info ↔ _
      unfold scanResult
      rw [hselected]
      cases hscan : FirstGreatest.scan S.cmp (·.1)
          (candidates S ageOf ranges package minAgeDays force) with
      | none =>
          constructor
          · exact fun h => nomatch h
          · intro h
            obtain ⟨other, key, version, hranges, hgreatest⟩ := h
            cases hranges
            have hmem : (version, key, info) ∈ candidates S ageOf ranges package minAgeDays force :=
              mem_candidates_iff.mpr hgreatest.qualifies
            rw [FirstGreatest.scan_eq_none_iff.mp hscan] at hmem
            exact absurd hmem List.not_mem_nil
      | some c =>
          have hgreatest := greatest_of_scan hscan
          constructor
          · intro h
            cases h
            exact ⟨ranges, c.2.1, c.1, rfl, hgreatest⟩
          · intro h
            obtain ⟨other, key, version, hranges, hother⟩ := h
            cases hranges
            exact congrArg Except.ok (hgreatest.info_unique hother)

/-- Something qualifies exactly if a greatest one does. -/
theorem exists_greatest_iff [Std.TransCmp S.cmp] :
    (∃ key version info, Qualifies S ageOf ranges package minAgeDays force key version info) ↔
      ∃ key version info, Greatest S ageOf ranges package minAgeDays force key version info := by
  constructor
  · intro h
    obtain ⟨key, version, info, h⟩ := h
    cases hscan : FirstGreatest.scan S.cmp (·.1)
        (candidates S ageOf ranges package minAgeDays force) with
    | none =>
        have hmem : (version, key, info) ∈ candidates S ageOf ranges package minAgeDays force :=
          mem_candidates_iff.mpr h
        rw [FirstGreatest.scan_eq_none_iff.mp hscan] at hmem
        exact absurd hmem List.not_mem_nil
    | some c => exact ⟨c.2.1, c.1, c.2.2, greatest_of_scan hscan⟩
  · intro h
    obtain ⟨key, version, info, h⟩ := h
    exact ⟨key, version, info, h.qualifies⟩

/-- A tag whose version exists decides alone. -/
theorem selectVersion_of_tagged {name range : String} {info : RegistryVersion}
    (htagged : taggedVersion range package = some info) :
    (OldEnough ageOf package info.version minAgeDays force →
        selectVersion S ageOf name range package minAgeDays force = .ok info) ∧
      (¬ OldEnough ageOf package info.version minAgeDays force →
        ∃ e, selectVersion S ageOf name range package minAgeDays force = .error e) := by
  unfold selectVersion
  rw [htagged, ← tooYoung_none_iff]
  dsimp only
  cases hyoung : tooYoung ageOf package info.version minAgeDays force with
  | none => exact ⟨fun _ => rfl, fun h => absurd rfl h⟩
  | some young => exact ⟨(fun h => nomatch h), fun _ => ⟨_, rfl⟩⟩

end Greatest

section Selected

variable {S : SemverCrate} {ageOf : String → Option Int}

/-- A tag whose version exists gives this version, or fails if it is too young.
Any other range gives the greatest version that qualifies, and fails exactly if
none does. -/
theorem selectVersion_selects [Std.TransCmp S.cmp] (name range : String) (package : RegistryPackage)
    (minAgeDays : Option Nat) (force : Bool) :
    (∀ info ∈ taggedVersion range package,
      (OldEnough ageOf package info.version minAgeDays force →
        selectVersion S ageOf name range package minAgeDays force = .ok info) ∧
      (¬ OldEnough ageOf package info.version minAgeDays force →
        ∃ e, selectVersion S ageOf name range package minAgeDays force = .error e)) ∧
    (taggedVersion range package = none →
      (∀ info, selectVersion S ageOf name range package minAgeDays force = .ok info ↔
        ∃ (ranges : RangeSet S) (key : String) (version : S.Version),
          RangeSet.parse S range = .ok ranges ∧
            Greatest S ageOf ranges package minAgeDays force key version info) ∧
      ((∃ e, selectVersion S ageOf name range package minAgeDays force = .error e) ↔
        ¬ ∃ (ranges : RangeSet S) (key : String) (version : S.Version) (info : RegistryVersion),
          RangeSet.parse S range = .ok ranges ∧
            Qualifies S ageOf ranges package minAgeDays force key version info)) := by
  refine ⟨fun info htagged => selectVersion_of_tagged htagged, ?_⟩
  intro hnone
  have hselect : selectVersion S ageOf name range package minAgeDays force =
      selectMatching S ageOf name range package minAgeDays force := by
    unfold selectVersion
    rw [hnone]
  rw [hselect]
  refine ⟨fun info => selectMatching_ok_iff, ?_⟩
  constructor
  · intro herror hqualifies
    obtain ⟨e, herror⟩ := herror
    obtain ⟨ranges, key, version, info, hparse, hqualifies⟩ := hqualifies
    obtain ⟨key', version', info', hgreatest⟩ :=
      exists_greatest_iff.mp ⟨key, version, info, hqualifies⟩
    have hok : selectMatching S ageOf name range package minAgeDays force = .ok info' :=
      selectMatching_ok_iff.mpr ⟨ranges, key', version', hparse, hgreatest⟩
    rw [herror] at hok
    cases hok
  · intro hnever
    cases hresult : selectMatching S ageOf name range package minAgeDays force with
    | error e => exact ⟨e, rfl⟩
    | ok info =>
        obtain ⟨ranges, key, version, hparse, hgreatest⟩ := selectMatching_ok_iff.mp hresult
        exact absurd ⟨ranges, key, version, info, hparse, hgreatest.qualifies⟩ hnever

instance : Std.TransCmp releaseCrate.cmp :=
  inferInstanceAs (Std.TransCmp (compareLex (compareOn ReleaseCrate.Version.major)
    (compareLex (compareOn ReleaseCrate.Version.minor) (compareOn ReleaseCrate.Version.patch))))

def publishedVersion (version : String) : RegistryVersion where
  version := version
  dependencies := ∅
  optionalDependencies := ∅
  peerDependencies := ∅
  peerDependenciesMeta := ∅
  bundledDependencies := none
  bundleDependencies := none
  dist := ⟨"pkg.tgz", none⟩
  os := []
  cpu := []
  libc := []
  bin := none

/-- Two releases; the one that is tagged as the latest is young. -/
def youngLatest : RegistryPackage where
  versions := BTreeMap.collect
    [("1.0.0", publishedVersion "1.0.0"), ("2.0.0", publishedVersion "2.0.0")]
  time := BTreeMap.collect [("1.0.0", "old"), ("2.0.0", "young")]
  distTags := BTreeMap.collect [("latest", "2.0.0"), ("stable", "1.0.0")]

def youngLatestAge (time : String) : Option Int := if time = "old" then some 30 else some 1

theorem stable_tag_selected :
    selectVersion releaseCrate youngLatestAge "pkg" "stable" youngLatest (some 7) false =
      .ok (publishedVersion "1.0.0") :=
  ((selectVersion_selects "pkg" "stable" youngLatest (some 7) false).1 (publishedVersion "1.0.0")
    (by rfl)).1 (tooYoung_none_iff.mp (by rfl))

theorem young_tag_refused :
    (∃ (ranges : RangeSet releaseCrate) (key : String) (version : releaseCrate.Version)
        (info : RegistryVersion),
      RangeSet.parse releaseCrate "latest" = .ok ranges ∧
        Qualifies releaseCrate youngLatestAge ranges youngLatest (some 7) false key version info) ∧
      ∃ e, selectVersion releaseCrate youngLatestAge "pkg" "latest" youngLatest (some 7) false =
        .error e := by
  refine ⟨⟨⟨"latest", [[]]⟩, "1.0.0", ⟨1, 0, 0⟩, publishedVersion "1.0.0", by rfl, ?_⟩, ⟨_, by rfl⟩⟩
  exact ⟨by rfl, by rfl, by rfl, tooYoung_none_iff.mp (by rfl)⟩

end Selected

end Snpm
