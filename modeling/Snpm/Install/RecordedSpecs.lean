import Mathlib
import Snpm.Install.HotSoundness
import Snpm.Install.ProjectInstall
import Snpm.Install.RootSpecs

/-!
The root specs an install records and those the next run compares them with.
The record has the sections of the manifest as they are written; the plan has
catalog references resolved and, inside a workspace, the roots of all members.
-/
namespace Snpm.Install
namespace ProjectInstall

variable {H : Digest.Hash} {S : SemverCrate}

/-- The next plan asks for what the manifest says literally. Outside a
workspace, no root is a catalog reference that stands for another text, and
an install without development dependencies left no root out. -/
def SpecsAsWritten (S : SemverCrate) (files : FileView) (plan : ProjectInstallPlan)
    (project : Project) (includeDev : Bool) : Prop :=
  match plan.workspace with
  | some workspace =>
      collectWorkspaceRootSpecsWithOverrides S files workspace true plan.overrides =
        .ok (recordedRootSpecs project includeDev)
  | none =>
      (∀ (name spec : String), (recordedRootSpecs project true).required[name]? = some spec ∨
          (recordedRootSpecs project true).optional[name]? = some spec →
        catalogResolved none plan.catalog name spec = .ok spec) ∧
      (includeDev = false → ∀ name ∈ project.manifest.devDependencies,
        name ∈ project.manifest.dependencies ∨ name ∈ project.manifest.optionalDependencies)

section Sections

variable {catalog : Option CatalogConfig} {specs resolved : BTreeMap String String}

/-- Outside a workspace every spec of a section stays, with its catalog
reference resolved. -/
theorem getElem?_applySpecs (h : applySpecs S none catalog specs = .ok resolved) (name : String) :
    (specs[name]? = none → resolved[name]? = none) ∧
      ∀ spec, specs[name]? = some spec → ∃ range,
        catalogResolved none catalog name spec = .ok range ∧ resolved[name]? = some range := by
  obtain ⟨hother, hown⟩ := BTreeMap.filterMapM_ok h name
  refine ⟨hother, fun spec hspec => ?_⟩
  obtain ⟨range, hrange, hresult⟩ := Result.bind_eq_ok (hown spec hspec)
  exact ⟨range, hrange, (Except.ok.inj hresult).symm⟩

theorem mem_applySpecs (h : applySpecs S none catalog specs = .ok resolved) (name : String) :
    name ∈ resolved ↔ name ∈ specs := by
  obtain ⟨hother, hown⟩ := getElem?_applySpecs h name
  rw [Std.ExtTreeMap.mem_iff_isSome_getElem?, Std.ExtTreeMap.mem_iff_isSome_getElem?]
  cases hspec : specs[name]? with
  | none => rw [hother hspec]
  | some spec =>
      obtain ⟨range, -, hrange⟩ := hown spec hspec
      rw [hrange]
      simp

/-- A section is left as it is when each of its specs is. -/
theorem getElem?_applySpecs_eq_iff (h : applySpecs S none catalog specs = .ok resolved)
    (name : String) : resolved[name]? = specs[name]? ↔
      ∀ spec, specs[name]? = some spec → catalogResolved none catalog name spec = .ok spec := by
  obtain ⟨hother, hown⟩ := getElem?_applySpecs h name
  cases hspec : specs[name]? with
  | none => simp [hother hspec]
  | some spec =>
      obtain ⟨range, hrange, hresolved⟩ := hown spec hspec
      simp only [hresolved, Option.some.injEq, forall_eq', hrange, Except.ok.injEq]

end Sections

section Roots

theorem RootSpecSet.ext_getElem? {a b : RootSpecSet} :
    a = b ↔ (∀ name : String, a.required[name]? = b.required[name]?) ∧
      ∀ name : String, a.optional[name]? = b.optional[name]? := by
  constructor
  · rintro rfl
    exact ⟨fun _ => rfl, fun _ => rfl⟩
  · intro h
    cases a
    cases b
    simp only [RootSpecSet.mk.injEq]
    exact ⟨Std.ExtTreeMap.ext_getElem? h.1, Std.ExtTreeMap.ext_getElem? h.2⟩

variable {dependencies development optional : BTreeMap String String}

/-- Leaving development dependencies out changes nothing when each of them is
in another section. -/
theorem rootSpecs_without_dev_iff :
    buildProjectRootSpecs dependencies development optional true =
        buildProjectRootSpecs dependencies development optional false ↔
      ∀ name ∈ development, name ∈ dependencies ∨ name ∈ optional := by
  rw [RootSpecSet.ext_getElem?]
  simp only [getElem?_required]
  constructor
  · intro h name hname
    by_contra hout
    rw [not_or] at hout
    have hboth := h.1 name
    rw [if_neg hout.2, if_neg hout.2, Std.ExtTreeMap.getElem?_eq_none hout.1] at hboth
    rw [Std.ExtTreeMap.mem_iff_isSome_getElem?, Option.isSome_iff_exists] at hname
    obtain ⟨spec, hspec⟩ := hname
    simp [hspec] at hboth
  · intro h
    refine ⟨fun name => ?_, fun name => rfl⟩
    by_cases hoptional : name ∈ optional
    · rw [if_pos hoptional, if_pos hoptional]
    · rw [if_neg hoptional, if_neg hoptional]
      cases hname : dependencies[name]? with
      | some spec => rfl
      | none =>
          have hdevelopment : name ∉ development := by
            intro hmem
            rcases h name hmem with hdep | hopt
            · rw [Std.ExtTreeMap.mem_iff_isSome_getElem?, hname] at hdep
              cases hdep
            · exact hoptional hopt
          simp [Std.ExtTreeMap.getElem?_eq_none hdevelopment]

variable {catalog : Option CatalogConfig} {dependencies' development' optional' :
  BTreeMap String String}
  (hdependencies : applySpecs S none catalog dependencies = .ok dependencies')
  (hdevelopment : applySpecs S none catalog development = .ok development')
  (hoptional : applySpecs S none catalog optional = .ok optional')
include hdependencies hdevelopment hoptional

theorem getElem?_resolvedRequired_eq_iff (name : String) :
    (buildProjectRootSpecs dependencies' development' optional' true).required[name]? =
        (buildProjectRootSpecs dependencies development optional true).required[name]? ↔
      ∀ spec, (buildProjectRootSpecs dependencies development optional true).required[name]? =
        some spec → catalogResolved none catalog name spec = .ok spec := by
  simp only [getElem?_required, mem_applySpecs hoptional, if_true]
  by_cases hmem : name ∈ optional
  · simp [hmem]
  · simp only [if_neg hmem]
    cases hspec : dependencies[name]? with
    | some spec =>
        obtain ⟨range, -, hrange⟩ := (getElem?_applySpecs hdependencies name).2 spec hspec
        have hiff := getElem?_applySpecs_eq_iff hdependencies name
        rw [hspec, hrange] at hiff
        rw [hrange, Option.some_or, Option.some_or]
        exact hiff
    | none =>
        rw [(getElem?_applySpecs hdependencies name).1 hspec, Option.none_or, Option.none_or]
        exact getElem?_applySpecs_eq_iff hdevelopment name

/-- The resolved roots are the written ones when each written root stands for
itself. -/
theorem resolvedRoots_eq_iff :
    buildProjectRootSpecs dependencies' development' optional' true =
        buildProjectRootSpecs dependencies development optional true ↔
      ∀ (name spec : String),
        (buildProjectRootSpecs dependencies development optional true).required[name]? =
            some spec ∨
          (buildProjectRootSpecs dependencies development optional true).optional[name]? =
            some spec →
        catalogResolved none catalog name spec = .ok spec := by
  rw [RootSpecSet.ext_getElem?]
  simp only [getElem?_resolvedRequired_eq_iff hdependencies hdevelopment hoptional]
  constructor
  · rintro ⟨hreq, hopt⟩ name spec (hspec | hspec)
    · exact hreq name spec hspec
    · exact (getElem?_applySpecs_eq_iff hoptional name).mp (hopt name) spec hspec
  · intro h
    refine ⟨fun name spec hspec => h name spec (.inl hspec), fun name => ?_⟩
    exact (getElem?_applySpecs_eq_iff hoptional name).mpr fun spec hspec =>
      h name spec (.inr hspec)

/-- Roots have the same names before and after they are resolved. -/
theorem mem_resolvedRequired (name : String) :
    name ∈ (buildProjectRootSpecs dependencies' development' optional' true).required ↔
      name ∉ optional ∧ (name ∈ dependencies ∨ name ∈ development) := by
  rw [Std.ExtTreeMap.mem_iff_isSome_getElem?, getElem?_required]
  simp only [mem_applySpecs hoptional]
  by_cases hmem : name ∈ optional
  · simp [hmem]
  · simp only [hmem, if_false, if_true, Option.isSome_or, Bool.or_eq_true,
      ← Std.ExtTreeMap.mem_iff_isSome_getElem?, mem_applySpecs hdependencies,
      mem_applySpecs hdevelopment, not_false_eq_true, true_and]

/-- The resolved roots are the recorded ones when each root stands for itself
and none was left out of the record. -/
theorem resolvedRoots_eq_recorded_iff (includeDev : Bool) :
    buildProjectRootSpecs dependencies' development' optional' true =
        buildProjectRootSpecs dependencies development optional includeDev ↔
      (∀ (name spec : String),
        (buildProjectRootSpecs dependencies development optional true).required[name]? =
            some spec ∨
          (buildProjectRootSpecs dependencies development optional true).optional[name]? =
            some spec →
        catalogResolved none catalog name spec = .ok spec) ∧
      (includeDev = false → ∀ name ∈ development, name ∈ dependencies ∨ name ∈ optional) := by
  rw [← resolvedRoots_eq_iff hdependencies hdevelopment hoptional]
  cases includeDev with
  | true => simp
  | false =>
      rw [← rootSpecs_without_dev_iff]
      constructor
      · intro h
        have hall : ∀ name ∈ development, name ∈ dependencies ∨ name ∈ optional := by
          intro name hname
          by_contra hout
          rw [not_or] at hout
          have hmem := (mem_resolvedRequired hdependencies hdevelopment hoptional name).mpr
            ⟨hout.2, .inr hname⟩
          rw [h, Std.ExtTreeMap.mem_iff_isSome_getElem?, getElem?_required, if_neg hout.2,
            Std.ExtTreeMap.getElem?_eq_none hout.1] at hmem
          cases hmem
        have hsame := rootSpecs_without_dev_iff.mpr hall
        exact ⟨h.trans hsame.symm, fun _ => hsame⟩
      · rintro ⟨h, hsame⟩
        exact h.trans (hsame rfl)

end Roots

section Match

variable {files : FileView} {plan : ProjectInstallPlan} {project : Project}
  {options : InstallOptions} {includeDev : Bool}

/-- The plan of the next full run has the recorded root specs exactly when the
manifest says literally what the plan asks for. -/
theorem planSpecs_eq_recorded_iff (hplan : prepareInstallPlan S files project options = .ok plan)
    (hdev : options.includeDev = true) :
    plan.rootSpecs = recordedRootSpecs project includeDev ↔
      SpecsAsWritten S files plan project includeDev := by
  obtain ⟨manifest, -, -, -, hmanifest, hspecs, -⟩ := prepareInstallPlan_ok hplan
  rw [hdev] at hspecs
  unfold SpecsAsWritten
  cases hworkspace : plan.workspace with
  | some workspace =>
      rw [hworkspace] at hspecs
      have hcollect : collectWorkspaceRootSpecsWithOverrides S files workspace true
          plan.overrides = .ok plan.rootSpecs := hspecs
      simp only [hcollect, Except.ok.injEq]
  | none =>
      rw [hworkspace] at hspecs hmanifest
      have hbuilt := Except.ok.inj hspecs
      unfold resolveManifestSpecs at hmanifest
      obtain ⟨dependencies, hdependencies, h⟩ := Result.bind_eq_ok hmanifest
      obtain ⟨development, hdevelopment, h⟩ := Result.bind_eq_ok h
      obtain ⟨optional, hoptional, h⟩ := Result.bind_eq_ok h
      cases h
      rw [← hbuilt]
      exact resolvedRoots_eq_recorded_iff hdependencies hdevelopment hoptional includeDev

theorem manifestRoot_eq (hplan : prepareInstallPlan S files project options = .ok plan) :
    plan.manifestRoot = plan.rootSpecs.required := by
  obtain ⟨manifest, -, -, -, -, -, heq⟩ := prepareInstallPlan_ok hplan
  rw [heq]
  rfl

end Match

/-- The record loads for the plan, and its root specs match. -/
def RecordMatches (H : Digest.Hash) (S : SemverCrate) (config : SnpmConfig) (files : FileView)
    (project : Project) (plan : ProjectInstallPlan) : Prop :=
  ∃ cached, loadProjectInstallState H S ⟨config, plan.workspace, files⟩ project
      (plan.lockfileSourcePath files) plan.manifestRoot plan.rootSpecs.optional true =
        some cached ∧ cached.rootSpecsMatches = true

/-- After an install that recorded its state, the next full run on an unchanged
lockfile finds the recorded root specs matching when the manifest says literally
what the plan asks for; and only then, as long as no name or range contains the
separator of the digest. -/
theorem recorded_specs_match_iff {world : World} {config : SnpmConfig} {files next : FileView}
    {project : Project} {options nextOptions : InstallOptions} {outcome : InstallOutcome}
    {state : InstallStateFile} {plan : ProjectInstallPlan}
    (hinstall : install H S world config files project options = .ok outcome)
    (hrecorded : outcome.installState = some state)
    (hnext : prepareInstallPlan S next outcome.project nextOptions = .ok plan)
    (hdev : nextOptions.includeDev = true)
    (hdisk : next.installState (installStatePath outcome.project.root) = some state)
    (hsource : SnapshotSource.capture next (plan.lockfileSourcePath next) = some state.source) :
    (SpecsAsWritten S next plan outcome.project options.includeDev →
        RecordMatches H S config next outcome.project plan) ∧
      (NulFree plan.rootSpecs.required → NulFree plan.rootSpecs.optional →
        NulFree (recordedRootSpecs outcome.project options.includeDev).required →
        NulFree (recordedRootSpecs outcome.project options.includeDev).optional →
        RecordMatches H S config next outcome.project plan →
          SpecsAsWritten S next plan outcome.project options.includeDev) := by
  obtain ⟨-, -, -, -, hrecord⟩ := install_ok hinstall
  rw [hrecorded] at hrecord
  obtain ⟨hversion, -, hhash, -⟩ := recordInstall_some hrecord
  have hvalid : readValidInstallState next outcome.project.root (plan.lockfileSourcePath next) =
      some state := by
    unfold readValidInstallState
    rw [hdisk, hsource]
    simp [hversion]
  rw [← planSpecs_eq_recorded_iff hnext hdev]
  constructor
  · intro hsame
    obtain ⟨cached, hcached⟩ : ∃ cached, loadProjectInstallState H S
        ⟨config, plan.workspace, next⟩ outcome.project (plan.lockfileSourcePath next)
        plan.manifestRoot plan.rootSpecs.optional true = some cached :=
      exists_loadInstallState hvalid
    obtain ⟨found, hfound, -, hmatches⟩ := loadInstallState_some hcached
    rw [hvalid] at hfound
    cases hfound
    refine ⟨cached, hcached, hmatches.mpr ?_⟩
    rw [hhash, manifestRoot_eq hnext, hsame]
  · rintro hr ho hr' ho' ⟨cached, hcached, hmatches⟩
    obtain ⟨found, hfound, -, hiff⟩ := loadInstallState_some hcached
    rw [hvalid] at hfound
    cases hfound
    have hequal := hiff.mp hmatches
    rw [hhash, manifestRoot_eq hnext] at hequal
    obtain ⟨hrequired, hoptional⟩ := (rootSpecsHash_eq_iff H hr ho hr' ho').mp hequal
    refine RootSpecSet.ext_getElem?.mpr ⟨fun name => ?_, fun name => ?_⟩
    · rw [hrequired]
    · rw [hoptional]

section Examples

/-- A project that asks for `a`, beside a catalog that has it. -/
def catalogProject (spec : String) : Project :=
  ⟨"/app", "/app/package.json", { Manifest.empty with
    dependencies := BTreeMap.collect [("a", spec)] }⟩

def catalogOfA : CatalogConfig := ⟨onlySpec, ∅⟩

def catalogView (state : Option InstallStateFile) : FileView :=
  { emptyView with
    isFile := fun path => path = "/app/snpm-lock.yaml"
    metadata := fun _ => some ⟨100, 1, 0⟩
    catalogConfig := fun _ => .ok (some catalogOfA)
    installState := fun _ => state }

/-- A full install that does not look at the lockfile. -/
def freshInstall : InstallOptions := ⟨[], false, true, .no, false, false⟩

def catalogPlan (state : Option InstallStateFile) (spec : String) : ProjectInstallPlan :=
  planOf (catalogView state) (catalogProject spec) [] none (some catalogOfA) ∅ ∅ ⟨onlySpec, ∅⟩

theorem prepare_catalog (state : Option InstallStateFile) {spec : String}
    (hspec : applySpecs releaseCrate none (some catalogOfA)
      (catalogProject spec).manifest.dependencies = .ok onlySpec) :
    prepareInstallPlan releaseCrate (catalogView state) (catalogProject spec) freshInstall =
      .ok (catalogPlan state spec) := by
  have hempty : applySpecs releaseCrate none (some catalogOfA) ∅ = .ok ∅ := by
    decide +kernel
  have hmanifest : resolveManifestSpecs releaseCrate (catalogProject spec) none
      (some catalogOfA) = .ok ⟨onlySpec, ∅, ∅, ∅⟩ := by
    refine Result.bind_eq_ok_iff.mpr ⟨onlySpec, hspec, ?_⟩
    refine Result.bind_eq_ok_iff.mpr ⟨∅, hempty, ?_⟩
    refine Result.bind_eq_ok_iff.mpr ⟨∅, hempty, ?_⟩
    have hprotocols : manifestProtocols onlySpec ∪ manifestProtocols ∅ ∪ manifestProtocols ∅ =
        (∅ : BTreeMap String RegistryProtocol) := by
      decide +kernel
    rw [hprotocols]
  have hroots : buildProjectRootSpecs onlySpec ∅ ∅ true = ⟨onlySpec, ∅⟩ := by
    decide +kernel
  refine Result.bind_eq_ok_iff.mpr ⟨none, rfl, ?_⟩
  refine Result.bind_eq_ok_iff.mpr ⟨some catalogOfA, rfl, ?_⟩
  refine Result.bind_eq_ok_iff.mpr ⟨∅, ?_, ?_⟩
  · rfl
  refine Result.bind_eq_ok_iff.mpr ⟨_, hmanifest, ?_⟩
  refine Result.bind_eq_ok_iff.mpr ⟨_, congrArg Except.ok hroots, rfl⟩

theorem catalogView_isFile (state : Option InstallStateFile) (spec : String) :
    (catalogView state).isFile (catalogPlan state spec).lockfilePath = true := by
  have hpath : (catalogPlan state spec).lockfilePath = PathBuf.join "/app" "snpm-lock.yaml" :=
    planOf_lockfilePath _ _
  have hjoin : PathBuf.join "/app" "snpm-lock.yaml" = "/app/snpm-lock.yaml" := by
    decide +kernel
  exact decide_eq_true (hpath.trans hjoin)

theorem sourcePath_catalog (state : Option InstallStateFile) (spec : String) :
    (catalogPlan state spec).lockfileSourcePath (catalogView state) =
      (catalogPlan state spec).lockfilePath := by
  rw [ProjectInstallPlan.lockfileSourcePath, lockfileSourcePath_of_isFile (catalogView_isFile state spec)]
  rfl

theorem layout_catalog {spec : String}
    (hlayout : (projectLayoutEntries releaseCrate ⟨plainConfig, none, catalogView none⟩
      (catalogProject spec) onePackage true).toOption.isSome = true) :
    ∃ layoutHash, buildProjectLayoutHash Digest.unaryHash releaseCrate
      ⟨plainConfig, none, catalogView none⟩ (catalogProject spec) onePackage true =
        .ok layoutHash := by
  obtain ⟨entries, hentries⟩ := Option.isSome_iff_exists.mp hlayout
  exact ⟨_, Result.bind_eq_ok_iff.mpr ⟨entries, toOption_eq_some hentries, rfl⟩⟩

/-- The install of a spec that stands for `1.0.0`, and what it records. -/
theorem install_catalog {spec : String}
    (hspec : applySpecs releaseCrate none (some catalogOfA)
      (catalogProject spec).manifest.dependencies = .ok onlySpec)
    (hlayout : (projectLayoutEntries releaseCrate ⟨plainConfig, none, catalogView none⟩
      (catalogProject spec) onePackage true).toOption.isSome = true) :
    ∃ outcome state,
      install Digest.unaryHash releaseCrate (quietWorld onePackage (catalogView none)) plainConfig
          (catalogView none) (catalogProject spec) freshInstall = .ok outcome ∧
        outcome.installState = some state ∧ outcome.project = catalogProject spec ∧
        state.source = ⟨(catalogPlan none spec).lockfilePath, 100, 1, 0⟩ := by
  obtain ⟨layoutHash, hhash⟩ := layout_catalog hlayout
  exact ⟨_, _, install_quiet (prepare_catalog none hspec) rfl rfl rfl rfl
    (catalogView_isFile none spec) rfl hhash, rfl, rfl, rfl⟩

theorem recorded_specs_match_plain :
    ∃ outcome state,
      install Digest.unaryHash releaseCrate (quietWorld onePackage (catalogView none)) plainConfig
          (catalogView none) (catalogProject "1.0.0") freshInstall = .ok outcome ∧
        outcome.installState = some state ∧
        RecordMatches Digest.unaryHash releaseCrate plainConfig (catalogView (some state))
          outcome.project (catalogPlan (some state) "1.0.0") := by
  have hspec : applySpecs releaseCrate none (some catalogOfA)
      (catalogProject "1.0.0").manifest.dependencies = .ok onlySpec := by
    decide +kernel
  obtain ⟨outcome, state, hinstall, hstate, hproject, hsource⟩ :=
    install_catalog hspec (by decide +kernel)
  refine ⟨outcome, state, hinstall, hstate, ?_⟩
  refine (recorded_specs_match_iff hinstall hstate
    (hproject ▸ prepare_catalog (some state) hspec) rfl rfl ?_).1 ?_
  · rw [sourcePath_catalog, hsource]
    rfl
  rw [hproject]
  refine ⟨fun name spec h => ?_, fun h => ?_⟩
  · have hnone : (recordedRootSpecs (catalogProject "1.0.0") true).optional = ∅ := rfl
    have hrequired : (recordedRootSpecs (catalogProject "1.0.0") true).required = onlySpec := by
      decide +kernel
    rw [hnone, hrequired, Std.ExtTreeMap.getElem?_empty] at h
    rcases h with h | h
    · have hmem := BTreeMap.mem_of_getElem?_collect h
      simp only [List.mem_singleton, Prod.mk.injEq] at hmem
      obtain ⟨rfl, rfl⟩ := hmem
      rfl
    · cases h
  · cases h

/-- The record has the reference, and the next plan has what it stands for. -/
theorem catalog_reference_not_matched :
    ∃ outcome state,
      install Digest.unaryHash releaseCrate (quietWorld onePackage (catalogView none)) plainConfig
          (catalogView none) (catalogProject "catalog:") freshInstall = .ok outcome ∧
        outcome.installState = some state ∧
        prepareInstallPlan releaseCrate (catalogView (some state)) outcome.project freshInstall =
          .ok (catalogPlan (some state) "catalog:") ∧
        SnapshotSource.capture (catalogView (some state))
          ((catalogPlan (some state) "catalog:").lockfileSourcePath (catalogView (some state))) =
            some state.source ∧
        ¬RecordMatches Digest.unaryHash releaseCrate plainConfig (catalogView (some state))
          outcome.project (catalogPlan (some state) "catalog:") := by
  have hspec : applySpecs releaseCrate none (some catalogOfA)
      (catalogProject "catalog:").manifest.dependencies = .ok onlySpec := by
    decide +kernel
  obtain ⟨outcome, state, hinstall, hstate, hproject, hsource⟩ :=
    install_catalog hspec (by decide +kernel)
  obtain ⟨-, -, -, -, hrecord⟩ := install_ok hinstall
  rw [hstate, hproject] at hrecord
  obtain ⟨-, -, hhash, -⟩ := recordInstall_some hrecord
  refine ⟨outcome, state, hinstall, hstate, hproject ▸ prepare_catalog (some state) hspec, ?_, ?_⟩
  · rw [sourcePath_catalog, hsource]
    rfl
  · rintro ⟨cached, hcached, hmatches⟩
    obtain ⟨found, hfound, -, hiff⟩ := loadInstallState_some hcached
    have hsame : some state = some found := (readValidInstallState_some hfound).1
    cases hsame
    have hequal := hiff.mp hmatches
    rw [hhash] at hequal
    have hspecs := (rootSpecsHash_eq_iff Digest.unaryHash nulFree_onlySpec nulFree_empty
      (nulFree_of_toList (by decide +kernel)) nulFree_empty).mp hequal
    exact absurd hspecs.1 (by decide +kernel)

end Examples

end ProjectInstall
end Snpm.Install
