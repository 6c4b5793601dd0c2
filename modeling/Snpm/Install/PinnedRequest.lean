import Mathlib
import Snpm.Install.FrozenProject
import Snpm.Install.ProtocolAgreement
import Snpm.Install.UpdateEntry
import Snpm.Install.WorkspacePlan
import Snpm.Resolve.Registry
import Snpm.Semver.Pinned

/-!
Fix mode puts the locked version in the place of a root spec. The version is a
bare text: the name it stands beside and the protocol handed on decide which
package it is asked of.
-/
namespace Snpm.Install

open Resolve
open Semver (AdmitsOnly FullVersion ReadAsDocumented)

section Version

variable (w : FullVersion)

theorem version_startsWith {word : String} {c : Char} (hword : word.toList.head? = some c)
    (hdigit : Text.isAsciiDigit c = false) : Text.startsWith w.text word = false := by
  refine Semver.startsWith_head hword ?_
  intro hhead
  obtain ⟨d, ds, hlist, hd⟩ := w.exists_head
  rw [hlist, List.head?_cons, Option.some.injEq] at hhead
  rw [← hhead, hd] at hdigit
  cases hdigit

theorem version_trim : Text.trim w.text = w.text := w.toPartial.text_tight.trim_eq

theorem version_not_hosted : looksLikeHostedGitUrl w.text = false := by
  have hhost : ∀ host : String, host.toList.head? = some 'h' →
      matchesHostedGitUrl w.text host = false := by
    intro host hhead
    rw [matchesHostedGitUrl, version_trim, Text.stripPrefix,
      version_startsWith w hhead (by decide), if_neg Bool.false_ne_true]
  rw [looksLikeHostedGitUrl, hhost _ (by decide), hhost _ (by decide), hhost _ (by decide)]
  rfl

theorem version_not_shorthand : looksLikeHostedGitShorthand w.text = false := by
  have hhash : beforeHash w.text = w.text := by
    rw [beforeHash, Text.splitOnce_eq_none_iff.mpr (w.not_mem_text (by decide))]
    rfl
  have hsplit : Text.split w.text (· = '/') = [w.text] :=
    (Text.split_eq_singleton (w.not_mem_text (by decide)))
  simp only [looksLikeHostedGitShorthand, version_trim, hhash, isHostedRepository, hsplit]
  split
  · rfl
  · rfl

/-- A version text names no protocol in a manifest. -/
theorem detectManifestProtocol_version : detectManifestProtocol w.text = none := by
  simp only [detectManifestProtocol, isGitSpec, List.any_cons, List.any_nil,
    version_startsWith w (show "npm:".toList.head? = some 'n' by decide) (by decide),
    version_startsWith w (show "file:".toList.head? = some 'f' by decide) (by decide),
    version_startsWith w (show "link:".toList.head? = some 'l' by decide) (by decide),
    version_startsWith w (show "portal:".toList.head? = some 'p' by decide) (by decide),
    version_startsWith w (show "patch:".toList.head? = some 'p' by decide) (by decide),
    version_startsWith w (show "jsr:".toList.head? = some 'j' by decide) (by decide),
    version_startsWith w (show "git:".toList.head? = some 'g' by decide) (by decide),
    version_startsWith w (show "git+".toList.head? = some 'g' by decide) (by decide),
    version_startsWith w (show "github:".toList.head? = some 'g' by decide) (by decide),
    version_startsWith w (show "gitlab:".toList.head? = some 'g' by decide) (by decide),
    version_startsWith w (show "bitbucket:".toList.head? = some 'b' by decide) (by decide),
    version_not_hosted, version_not_shorthand]
  rfl

/-- A version text is asked of the name it stands beside; under git it is taken
for the repository. -/
theorem requestOf_version (name : String) (protocol : RegistryProtocol)
    (sources : Option (BTreeMap String String)) :
    requestOf name w.text protocol sources =
      if protocol.name = "git" then ⟨w.text, "latest", protocol⟩
      else ⟨name, w.text, protocol⟩ := by
  have hstarts : Text.startsWith w.text "workspace:" = false :=
    version_startsWith w (c := 'w') (by decide) (by decide)
  have hnone : specProtocol w.text = none :=
    specProtocol_no_scheme (Text.splitOnce_eq_none_iff.mpr (w.not_mem_text (by decide)))
      (version_not_hosted w)
  rw [specProtocol, Option.or_eq_none_iff, Option.map_eq_none_iff, Option.map_eq_none_iff] at hnone
  simp only [requestOf, resolveLocalWorkspaceSource, splitWorkspaceSpec, Text.stripPrefix, hstarts,
    hnone.1, hnone.2, Bool.false_eq_true, if_false, Option.map_none]

end Version

section Pin

variable {S : SemverCrate} {view : S.Version → Semver.Version} {w : FullVersion}
  {name spec : String} {protocol handed : RegistryProtocol}
  {overrides sources : Option (BTreeMap String String)}

/-- A spec asks for the package it stands beside, under the protocol handed to the
resolver with the pin. -/
def NamesItself (name spec : String) (protocol handed : RegistryProtocol)
    (sources : Option (BTreeMap String String)) : Prop :=
  match resolveLocalWorkspaceSource name spec sources with
  | some source => source = name ∧ handed = .file
  | none =>
  match splitWorkspaceSpec spec with
  | some _ => handed = .npm
  | none =>
  match splitPackageLessRegistrySpec spec with
  | some (own, _) => own = handed
  | none =>
  match splitProtocolSpec spec with
  | some request => request.source = name ∧ request.protocol = handed
  | none => protocol = handed

theorem namesItself_iff (hgit : handed.name ≠ "git") :
    ((requestOf name spec protocol sources).source = name ∧
      (requestOf name spec protocol sources).protocol = handed) ↔
      NamesItself name spec protocol handed sources := by
  unfold requestOf NamesItself
  cases resolveLocalWorkspaceSource name spec sources with
  | some source => exact and_congr_right fun _ => eq_comm
  | none =>
      cases splitWorkspaceSpec spec with
      | some range => exact (and_iff_right rfl).trans eq_comm
      | none =>
          cases splitPackageLessRegistrySpec spec with
          | some own => exact and_iff_right rfl
          | none =>
              cases splitProtocolSpec spec with
              | some request => exact Iff.rfl
              | none =>
                  dsimp only
                  split
                  · next hname =>
                      refine iff_of_false (fun h => hgit (h.2 ▸ hname)) (fun h => hgit (h ▸ hname))
                  · exact and_iff_right rfl

/-- The request of the pin has the protocol and the source of the one it replaces,
and its range admits the locked version and no other. -/
structure PinSound (S : SemverCrate) (view : S.Version → Semver.Version) (w : FullVersion)
    (before after : DepRequest) : Prop where
  protocol : after.protocol = before.protocol
  source : after.source = before.source
  only : AdmitsOnly S view w after.range

/-- No override applies to the pin and the spec names its own package, or the
override that applies is sound itself. -/
def PinKept (S : SemverCrate) (view : S.Version → Semver.Version) (w : FullVersion)
    (name spec : String) (protocol handed : RegistryProtocol)
    (overrides sources : Option (BTreeMap String String)) : Prop :=
  match selectOverride name w.text handed overrides with
  | none => handed.name ≠ "git" ∧
      NamesItself name (overriddenRange name spec protocol overrides) protocol handed sources
  | some override => PinSound S view w
      (requestOf name (overriddenRange name spec protocol overrides) protocol sources)
      (requestOf name override handed sources)

/-- The range of a repository admits every release. -/
theorem latest_not_admitsOnly
    (newVersion : Fin (2 ^ 64) → Fin (2 ^ 64) → Fin (2 ^ 64) → S.Version)
    (hnew : ∀ i j k, view (newVersion i j k) = ⟨i, j, k, none⟩) {before : String → String → Bool}
    (hstar : ReadAsDocumented S view before "*") : ¬ AdmitsOnly S view w "latest" := by
  intro honly
  obtain ⟨set, hset, honly⟩ := honly
  have hread : Semver.readRequirement "*" = some [] := by decide +kernel
  have hparsed : ∃ set, RangeSet.parse S "latest" = .ok set ∧
      ∀ v, set.contains v = Semver.requirementMatches before [] (view v) :=
    Semver.parse_of_read (by decide) hstar hread
  obtain ⟨found, hfound, hcontains⟩ := hparsed
  cases hset.symm.trans hfound
  have hadmits : ∀ i : Fin (2 ^ 64), (⟨i, 0, 0, none⟩ : Semver.Version) = w.version := by
    intro i
    rw [← hnew, ← honly, hcontains, hnew]
    rfl
  have hsame := (hadmits 0).trans (hadmits 1).symm
  rw [Semver.Version.mk.injEq] at hsame
  exact absurd hsame.1 (by decide)

theorem pinSound_iff (newVersion : Fin (2 ^ 64) → Fin (2 ^ 64) → Fin (2 ^ 64) → S.Version)
    (hnew : ∀ i j k, view (newVersion i j k) = ⟨i, j, k, none⟩) {before : String → String → Bool}
    (hexact : ReadAsDocumented S view before ("=" ++ w.text))
    (hstar : ReadAsDocumented S view before "*") :
    PinSound S view w (buildDepRequest name spec protocol overrides sources)
        (buildDepRequest name w.text handed overrides sources) ↔
      PinKept S view w name spec protocol handed overrides sources := by
  rw [PinKept, buildDepRequest, buildDepRequest]
  generalize hspec : overriddenRange name spec protocol overrides = wanted
  rw [overriddenRange]
  cases selectOverride name w.text handed overrides with
  | some override => exact Iff.rfl
  | none =>
      dsimp only
      rw [Option.getD_none, requestOf_version]
      by_cases hgit : handed.name = "git"
      · rw [if_pos hgit]
        refine iff_of_false ?_ (fun h => h.1 hgit)
        intro h
        exact latest_not_admitsOnly newVersion hnew hstar h.only
      · rw [if_neg hgit, and_iff_right hgit, ← namesItself_iff hgit]
        constructor
        · intro h
          exact ⟨h.source.symm, h.protocol.symm⟩
        · intro h
          exact ⟨h.2.symm, h.1.symm, Semver.text_admitsOnly hexact⟩

/-- Of a package without a tag of this name, only the locked version is selected. -/
theorem selectVersion_locked {ageOf : String → Option Int} {range : String}
    (honly : AdmitsOnly S view w range) {package : RegistryPackage} {minAgeDays : Option Nat}
    {force : Bool} {info : RegistryVersion} (htag : taggedVersion range package = none)
    (h : selectVersion S ageOf name range package minAgeDays force = .ok info) :
    ∃ (key : String) (version : S.Version), package.versions[key]? = some info ∧
      parseVersion S key = .ok version ∧ view version = w.version := by
  unfold selectVersion at h
  rw [htag] at h
  obtain ⟨ranges, key, version, hranges, hpublished, hparsed, hin⟩ := selectMatching_ok h
  obtain ⟨set, hset, hcontains⟩ := honly
  cases hset.symm.trans hranges
  exact ⟨key, version, hpublished, hparsed, (hcontains version).mp hin⟩

end Pin

section Fix

variable {specs : RootSpecSet} {existing : Lockfile} {name spec : String} {w : FullVersion}

/-- The lockfile's root entry was written for the root spec, with a version. -/
def LockedFor (specs : RootSpecSet) (existing : Lockfile) (name spec : String)
    (w : FullVersion) : Prop :=
  ∃ dep, existing.root.dependencies[name]? = some dep ∧ dep.requested = spec ∧
    dep.version = some w.text ∧
      (specs.optional[name]? = some spec ∨ (specs.required[name]? = some spec ∧ dep.optional = false))

theorem pinRequired_locked {dep : LockRootDependency} {pin other : String}
    (hdep : existing.root.dependencies[name]? = some dep) (hversion : dep.version = some w.text)
    (h : pinRequired existing name other = some pin) : pin = w.text := by
  simp only [pinRequired, hdep, Option.bind_some] at h
  split at h
  · cases h
  · exact (Option.some.inj (hversion.symm.trans h)).symm

theorem pinOptional_locked {dep : LockRootDependency} {pin other : String}
    (hdep : existing.root.dependencies[name]? = some dep) (hversion : dep.version = some w.text)
    (h : pinOptional existing name other = some pin) : pin = w.text := by
  simp only [pinOptional, hdep, Option.bind_some] at h
  split at h
  · cases h
  · exact (Option.some.inj (hversion.symm.trans h)).symm

/-- Fix mode puts the locked version in the place of the spec. -/
theorem pinRoots_locked (h : LockedFor specs existing name spec w)
    (roots : BTreeMap String String) : (pinRoots specs roots existing)[name]? = some w.text := by
  obtain ⟨dep, hdep, hrequested, hversion, hkind⟩ := h
  have hsome : specs.optional[name]?.bind (pinOptional existing name) = some w.text ∨
      specs.required[name]?.bind (pinRequired existing name) = some w.text := by
    cases hkind with
    | inl hoptional =>
        left
        simp [hoptional, pinOptional, hdep, hrequested, hversion]
    | inr hrequired =>
        right
        simp [hrequired.1, hrequired.2, pinRequired, hdep, hrequested, hversion]
  unfold pinRoots
  rw [Std.ExtTreeMap.getElem?_union, Std.ExtTreeMap.getElem?_filterMap',
    Std.ExtTreeMap.getElem?_union, Std.ExtTreeMap.getElem?_filterMap']
  cases hfound : specs.optional[name]?.bind (pinOptional existing name) with
  | some pin =>
      obtain ⟨other, _, hpin⟩ := Option.bind_eq_some_iff.mp hfound
      exact congrArg some (pinOptional_locked hdep hversion hpin)
  | none =>
      cases hsome with
      | inl hpin => cases hfound.symm.trans hpin
      | inr hpin =>
          rw [hpin]
          rfl

end Fix

section Claim

variable {S : SemverCrate} {view : S.Version → Semver.Version} {before : String → String → Bool}

/-- In a project a pin goes with the protocol of the spec it replaces, in a
workspace with the one of its own text. It is sound exactly if no override applies
and the spec names its own package under that protocol, or the override that
applies is sound. -/
theorem pinned_request_sound_iff
    (newVersion : Fin (2 ^ 64) → Fin (2 ^ 64) → Fin (2 ^ 64) → S.Version)
    (hnew : ∀ i j k, view (newVersion i j k) = ⟨i, j, k, none⟩) {w : FullVersion}
    (hexact : ReadAsDocumented S view before ("=" ++ w.text))
    (hstar : ReadAsDocumented S view before "*") (name spec : String)
    (overrides sources : Option (BTreeMap String String)) :
    (∀ (files : FileView) (plan : ProjectInstall.ProjectInstallPlan) (existing : Lockfile)
      (options : InstallOptions), options.frozenLockfile = .fix →
      ProjectInstall.readLockfileForFix files plan = .ok existing →
      LockedFor plan.rootSpecs existing name spec w →
        (ProjectInstall.plannedRootDependencies files plan options)[name]? = some w.text ∧
        ∀ protocol, (plan.rootProtocols[name]?).getD .npm = protocol →
          (PinSound S view w (buildDepRequest name spec protocol overrides sources)
              (buildDepRequest name w.text protocol overrides sources) ↔
            PinKept S view w name spec protocol protocol overrides sources)) ∧
    (∀ (input : LayoutInput) (setup pinned : WorkspaceInstallSetup) (existing : Lockfile),
      readWorkspaceLockfileForFix input setup = some existing →
      pinned = pinSetup setup .fix (some existing) →
      LockedFor setup.rootSpecs existing name spec w →
        pinned.rootDependencies[name]? = some w.text ∧
        pinned.rootProtocols[name]? = some .npm ∧
        ∀ protocol, (setup.rootProtocols[name]?).getD .npm = protocol →
          (PinSound S view w (buildDepRequest name spec protocol overrides sources)
              (buildDepRequest name w.text .npm overrides sources) ↔
            PinKept S view w name spec protocol .npm overrides sources)) ∧
    ∀ {asked pin : DepRequest}, PinSound S view w asked pin →
      ∀ (ageOf : String → Option Int) (package : RegistryPackage) (minAgeDays : Option Nat)
        (force : Bool) (info : RegistryVersion), taggedVersion pin.range package = none →
        selectVersion S ageOf pin.source pin.range package minAgeDays force = .ok info →
        ∃ (key : String) (version : S.Version), package.versions[key]? = some info ∧
          parseVersion S key = .ok version ∧ view version = w.version := by
  refine ⟨?_, ?_, ?_⟩
  · intro files plan existing options hfix hread hlocked
    refine ⟨?_, fun protocol _ => pinSound_iff newVersion hnew hexact hstar⟩
    rw [ProjectInstall.plannedRootDependencies, if_pos hfix,
      ProjectInstall.pinnedRootDependenciesForFix, hread]
    exact pinRoots_locked hlocked plan.rootDependencies
  · intro input setup pinned existing hread hpinned hlocked
    have hroot : pinned.rootDependencies[name]? = some w.text := by
      rw [hpinned]
      exact pinRoots_locked hlocked setup.rootDependencies
    refine ⟨hroot, ?_, fun protocol _ => pinSound_iff newVersion hnew hexact hstar⟩
    have hprotocols : pinned.rootProtocols = buildRootProtocols pinned.rootDependencies := by
      rw [hpinned]
      rfl
    rw [hprotocols, buildRootProtocols, Std.ExtTreeMap.getElem?_map, hroot, Option.map_some,
      detectManifestProtocol_version, Option.getD_none]
  · intro asked pin hsound ageOf package minAgeDays force info htag hselect
    exact selectVersion_locked hsound.only htag hselect

end Claim

section Examples

def fixProject (spec : String) : Project :=
  ⟨"/app", "/app/package.json", { Manifest.empty with
    dependencies := BTreeMap.collect [("a", spec)] }⟩

/-- A lockfile written for one root: the name, its spec and the package behind it. -/
def fixLockfile (spec package : String) : Lockfile :=
  Lockfile.ofGraph (ProjectInstall.rootPackages
    ⟨BTreeMap.collect [("a", ⟨spec, ⟨package, "1.2.3"⟩⟩)]⟩) ∅

def fixView (spec package : String) : FileView :=
  { emptyView with
    isFile := fun path => path = "/app/snpm-lock.yaml"
    lockfile := fun _ => .ok (fixLockfile spec package) }

def fixInstall : InstallOptions := ⟨[], false, true, .fix, false, false⟩

def fixPlan (spec package : String) : ProjectInstall.ProjectInstallPlan :=
  ProjectInstall.planOf (fixView spec package) (fixProject spec) [] none none ∅
    (manifestProtocols (BTreeMap.collect [("a", spec)]))
    ⟨BTreeMap.collect [("a", spec)], ∅⟩

theorem prepare_fix {spec package : String}
    (hspec : applySpecs (Semver.documentedCrate Semver.textBefore) none none (BTreeMap.collect [("a", spec)]) =
      .ok (BTreeMap.collect [("a", spec)])) :
    ProjectInstall.prepareInstallPlan (Semver.documentedCrate Semver.textBefore)
      (fixView spec package) (fixProject spec) fixInstall = .ok (fixPlan spec package) := by
  have hempty : applySpecs (Semver.documentedCrate Semver.textBefore) none none ∅ = .ok ∅ := by
    decide +kernel
  have hprotocols : manifestProtocols (BTreeMap.collect [("a", spec)]) ∪ manifestProtocols ∅ ∪
      manifestProtocols ∅ = manifestProtocols (BTreeMap.collect [("a", spec)]) := by
    have hnothing : manifestProtocols ∅ = (∅ : BTreeMap String RegistryProtocol) := by
      decide +kernel
    refine Std.ExtTreeMap.ext_getElem? fun name => ?_
    simp [hnothing, Std.ExtTreeMap.getElem?_union]
  have hmanifest : ProjectInstall.resolveManifestSpecs
      (Semver.documentedCrate Semver.textBefore) (fixProject spec) none none = .ok ⟨BTreeMap.collect [("a", spec)], ∅, ∅,
        manifestProtocols (BTreeMap.collect [("a", spec)])⟩ := by
    refine Result.bind_eq_ok_iff.mpr ⟨_, hspec, ?_⟩
    refine Result.bind_eq_ok_iff.mpr ⟨∅, hempty, ?_⟩
    refine Result.bind_eq_ok_iff.mpr ⟨∅, hempty, ?_⟩
    rw [hprotocols]
  refine Result.bind_eq_ok_iff.mpr ⟨none, rfl, ?_⟩
  refine Result.bind_eq_ok_iff.mpr ⟨none, rfl, ?_⟩
  refine Result.bind_eq_ok_iff.mpr ⟨∅, rfl, ?_⟩
  refine Result.bind_eq_ok_iff.mpr ⟨_, hmanifest, ?_⟩
  have hroots : buildProjectRootSpecs (BTreeMap.collect [("a", spec)]) ∅ ∅ true =
      ⟨BTreeMap.collect [("a", spec)], ∅⟩ := by
    rw [buildProjectRootSpecs, if_pos rfl, RootSpecSet.mk.injEq]
    refine ⟨Std.ExtTreeMap.ext_getElem? fun name => ?_, rfl⟩
    simp [Std.ExtTreeMap.getElem?_union, Std.ExtTreeMap.getElem?_diff]
  exact Result.bind_eq_ok_iff.mpr ⟨_, congrArg Except.ok hroots, rfl⟩

theorem read_fix (spec package : String) :
    ProjectInstall.readLockfileForFix (fixView spec package) (fixPlan spec package) =
      .ok (fixLockfile spec package) := by
  have hfile : (fixView spec package).isFile (fixPlan spec package).lockfilePath = true := by
    have hpath : PathBuf.join "/app" "snpm-lock.yaml" = "/app/snpm-lock.yaml" := by decide +kernel
    simp only [fixView, decide_eq_true_eq, fixPlan, ProjectInstall.planOf_lockfilePath]
    exact hpath
  exact readExistingLockfile_of_isFile hfile

/-- A range of the package's own name is pinned in a project and in a workspace. -/
theorem pinned_request_caret :
    (ProjectInstall.plannedRootDependencies (fixView "^1.0.0" "a") (fixPlan "^1.0.0" "a")
        fixInstall)["a"]? = some wantedVersion.text ∧
      PinSound (Semver.documentedCrate Semver.textBefore) id wantedVersion
        (buildDepRequest "a" "^1.0.0" .npm (some ∅) none)
        (buildDepRequest "a" wantedVersion.text .npm (some ∅) none) := by
  have hclaim := (@pinned_request_sound_iff (Semver.documentedCrate Semver.textBefore) id
    Semver.textBefore (⟨·, ·, ·, none⟩) (fun _ _ _ => rfl) wantedVersion
    (Semver.documentedCrate_reads Semver.textBefore ("=" ++ wantedVersion.text))
    (Semver.documentedCrate_reads Semver.textBefore "*") "a" "^1.0.0" (some ∅) none).1
  have hlocked : LockedFor (fixPlan "^1.0.0" "a").rootSpecs (fixLockfile "^1.0.0" "a") "a"
      "^1.0.0" wantedVersion := by
    refine ⟨⟨"^1.0.0", none, some "1.2.3", false⟩, ?_, rfl, ?_, .inr ⟨?_, rfl⟩⟩
    · decide +kernel
    · decide +kernel
    · decide +kernel
  obtain ⟨hpinned, hsound⟩ := hclaim (fixView "^1.0.0" "a") (fixPlan "^1.0.0" "a")
    (fixLockfile "^1.0.0" "a") fixInstall rfl (read_fix "^1.0.0" "a") hlocked
  refine ⟨hpinned, (hsound .npm (by decide +kernel)).mpr ?_⟩
  have hoverride : selectOverride "a" wantedVersion.text .npm (some ∅) = none := by
    decide +kernel
  have hown : NamesItself "a" (overriddenRange "a" "^1.0.0" .npm (some ∅)) .npm .npm none := by
    rw [← namesItself_iff (by decide)]
    decide +kernel
  unfold PinKept
  rw [hoverride]
  exact ⟨by decide, hown⟩

/-- Behind an alias, the pin asks for the package that has the alias as its name. -/
theorem alias_pin_asks_other :
    ProjectInstall.prepareInstallPlan (Semver.documentedCrate Semver.textBefore)
        (fixView "npm:b@^1.0.0" "b") (fixProject "npm:b@^1.0.0") fixInstall =
      .ok (fixPlan "npm:b@^1.0.0" "b") ∧
    ProjectInstall.readLockfileForFix (fixView "npm:b@^1.0.0" "b") (fixPlan "npm:b@^1.0.0" "b") =
      .ok (fixLockfile "npm:b@^1.0.0" "b") ∧
    LockedFor (fixPlan "npm:b@^1.0.0" "b").rootSpecs (fixLockfile "npm:b@^1.0.0" "b") "a"
      "npm:b@^1.0.0" wantedVersion ∧
    (ProjectInstall.plannedRootDependencies (fixView "npm:b@^1.0.0" "b")
      (fixPlan "npm:b@^1.0.0" "b") fixInstall)["a"]? = some wantedVersion.text ∧
    ((fixPlan "npm:b@^1.0.0" "b").rootProtocols["a"]?).getD .npm = .npm ∧
    ¬ PinSound (Semver.documentedCrate Semver.textBefore) id wantedVersion
        (buildDepRequest "a" "npm:b@^1.0.0" .npm (some ∅) none)
        (buildDepRequest "a" wantedVersion.text .npm (some ∅) none) := by
  have hlocked : LockedFor (fixPlan "npm:b@^1.0.0" "b").rootSpecs (fixLockfile "npm:b@^1.0.0" "b")
      "a" "npm:b@^1.0.0" wantedVersion := by
    refine ⟨⟨"npm:b@^1.0.0", some "b", some "1.2.3", false⟩, ?_, rfl, ?_, .inr ⟨?_, rfl⟩⟩
    · decide +kernel
    · decide +kernel
    · decide +kernel
  refine ⟨prepare_fix (by decide +kernel), read_fix _ _, hlocked, ?_, by decide +kernel, ?_⟩
  · have hfix : fixInstall.frozenLockfile = .fix := rfl
    rw [ProjectInstall.plannedRootDependencies, if_pos hfix,
      ProjectInstall.pinnedRootDependenciesForFix, read_fix]
    exact pinRoots_locked hlocked _
  · intro hsound
    have hasked : (buildDepRequest "a" "npm:b@^1.0.0" .npm (some ∅) none).source = "b" := by
      decide +kernel
    have hpinned : (buildDepRequest "a" wantedVersion.text .npm (some ∅) none).source = "a" := by
      decide +kernel
    have hsource := hsound.source
    rw [hasked, hpinned] at hsource
    exact absurd hsource (by decide)

end Examples

end Snpm.Install
