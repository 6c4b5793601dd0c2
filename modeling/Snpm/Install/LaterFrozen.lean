import Mathlib
import Snpm.Install.FrozenProject
import Snpm.Install.RecordedSpecs

/-!
The lockfile of one install and the frozen check of a later one. The lockfile has
the roots as they were resolved, all sections together; the check compares it with
the roots the later install asks for, which may leave development dependencies out.
-/
namespace Snpm.Install

section Flags

variable {required optional : BTreeMap String String} {graph : ResolutionGraph}

/-- In a lockfile that was written from a graph exactly the optional roots are
marked. -/
theorem optional_ofGraph {name : String} {dep : LockRootDependency}
    (h : (Lockfile.ofGraph graph optional).root.dependencies[name]? = some dep) :
    dep.optional = optional.contains name := by
  rw [Lockfile.ofGraph, Lockfile.getElem?_buildRootDependencies] at h
  cases hroot : graph.root.dependencies[name]? with
  | some root =>
      rw [hroot] at h
      cases h
      rfl
  | none =>
      rw [hroot, Option.map_none, Option.none_or] at h
      obtain ⟨spec, hspec, hdep⟩ := Option.map_eq_some_iff.mp h
      cases hdep
      exact (Std.ExtTreeMap.mem_iff_contains.mp (BTreeMap.mem_iff_exists.mpr ⟨spec, hspec⟩)).symm

theorem sectioned_of_match
    (h : (Lockfile.ofGraph graph optional).rootSpecsMatch required optional = true) :
    Sectioned required optional := by
  intro name hname hoptional
  obtain ⟨spec, hspec⟩ := BTreeMap.mem_iff_exists.mp hname
  rw [Lockfile.rootSpecsMatch, Bool.and_eq_true, Bool.and_eq_true, all_toList_iff] at h
  obtain ⟨dep, hdep, -, -, hflag⟩ := requiredMatches_some (h.1.2 name spec hspec)
  rw [optional_ofGraph hdep, Std.ExtTreeMap.mem_iff_contains.mp hoptional] at hflag
  cases hflag

/-- A lockfile that matches the roots it was written for matches other roots when
these only moved between the sections. -/
theorem rootSpecsMatch_moved_iff
    (h : (Lockfile.ofGraph graph optional).rootSpecsMatch required optional = true)
    (required' optional' : BTreeMap String String) :
    (Lockfile.ofGraph graph optional).rootSpecsMatch required' optional' = true ↔
      OnlyMoved required optional required' optional' := by
  have hsections := sectioned_of_match h
  have hrequested := requested_of_rootSpecsMatch hsections h
  have hrequired := ((rootSpecsMatch_iff_of_sectioned hsections).mp h).2.1
  have hsize : (Lockfile.ofGraph graph optional).root.dependencies.size =
      (required ∪ optional).size := by
    rw [Std.ExtTreeMap.size_union_of_not_mem hsections]
    rw [Lockfile.rootSpecsMatch, Bool.and_eq_true, Bool.and_eq_true, beq_iff_eq] at h
    exact h.1.1
  have hrequiredIff : ∀ (name spec : String),
      Lockfile.requiredMatches (Lockfile.ofGraph graph optional) (name, spec) = true ↔
        required[name]? = some spec ∧ name ∉ optional := by
    intro name spec
    constructor
    · intro hmatch
      obtain ⟨dep, hdep, hspec, -, hflag⟩ := requiredMatches_some hmatch
      rw [optional_ofGraph hdep, ← Bool.not_eq_true, ← Std.ExtTreeMap.mem_iff_contains] at hflag
      have hname := hrequested name
      rw [hdep, Option.map_some, hspec, Std.ExtTreeMap.getElem?_union,
        Std.ExtTreeMap.getElem?_eq_none hflag, Option.none_or] at hname
      exact ⟨hname, hflag⟩
    · exact fun hspec => hrequired name spec hspec.1
  have hoptionalIff : ∀ (name spec : String),
      Lockfile.optionalMatches (Lockfile.ofGraph graph optional) (name, spec) = true ↔
        (required ∪ optional)[name]? = some spec := by
    intro name spec
    rw [hrequested name, Option.map_eq_some_iff]
    constructor
    · exact fun hmatch => optionalMatches_some hmatch
    · intro hfound
      obtain ⟨dep, hdep, hspec⟩ := hfound
      rw [Lockfile.optionalMatches, hdep]
      exact beq_iff_eq.mpr hspec
  rw [Lockfile.rootSpecsMatch, Bool.and_eq_true, Bool.and_eq_true, beq_iff_eq, hsize,
    all_toList_iff, all_toList_iff]
  simp only [hrequiredIff, hoptionalIff]
  exact ⟨fun h => ⟨h.1.2, h.2, h.1.1⟩, fun h => ⟨⟨h.count, h.required_kept⟩, h.optional_kept⟩⟩

end Flags

namespace ProjectInstall

variable {H : Digest.Hash} {S : SemverCrate}

section Later

variable (S : SemverCrate) (files : FileView) (project : Project) (plan : ProjectInstallPlan)

/-- The root specs of a run with the configuration of the plan. -/
def rootSpecsOf (includeDev : Bool) : Result RootSpecSet := do
  let resolvedManifest ← resolveManifestSpecs S project plan.workspace plan.catalog
  buildRootSpecs S files plan.workspace resolvedManifest includeDev plan.overrides

/-- What a later install finds: the lockfile, and the configuration of before. -/
structure LockedView (files next : FileView) (path : PathBuf) (lockfile : Lockfile) : Prop where
  discover : next.discover = files.discover
  catalogs : next.catalogConfig = files.catalogConfig
  overrides : next.overridesConfig = files.overridesConfig
  canonicalize : next.canonicalize = files.canonicalize
  present : next.isFile path = true
  read : next.lockfile path = .ok lockfile

/-- Later frozen installs of the same manifest accept the lockfile, with development
dependencies and without. -/
def PassesFrozen (lockfile : Lockfile) : Prop :=
  ∀ (next : FileView) (options : InstallOptions) (later : ProjectInstallPlan),
    LockedView files next plan.lockfilePath lockfile → options.requested = [] →
    options.frozenLockfile = .frozen → prepareInstallPlan S next project options = .ok later →
    validateFrozenLockfile next options later = .ok ()

end Later

section Prepare

variable {files next : FileView} {project : Project} {plan later : ProjectInstallPlan}
  {options options' : InstallOptions} {lockfile : Lockfile}

theorem collectWorkspaceRootSpecs_canonicalize (h : next.canonicalize = files.canonicalize) :
    collectWorkspaceRootSpecsWithOverrides S next = collectWorkspaceRootSpecsWithOverrides S files := by
  have hrange : resolveWorkspaceRange next = resolveWorkspaceRange files := by
    funext name range memberRoot
    simp only [resolveWorkspaceRange, h]
  have hinsert : insertWorkspaceRootDep S next = insertWorkspaceRootDep S files := by
    funext workspaceRoot memberRoot combined dep
    simp only [insertWorkspaceRootDep, hrange]
  have hoptional : insertOptionalRoot S next = insertOptionalRoot S files := by
    funext workspaceRoot memberRoot specs dep
    simp only [insertOptionalRoot, hinsert]
  have hmember : collectMember S next = collectMember S files := by
    funext workspace includeDev overrides specs member
    simp only [collectMember, hinsert, hoptional]
  funext workspace includeDev overrides
  simp only [collectWorkspaceRootSpecsWithOverrides, hmember]

theorem buildRootSpecs_canonicalize (h : next.canonicalize = files.canonicalize) :
    buildRootSpecs S next = buildRootSpecs S files := by
  funext workspace resolvedManifest includeDev overrides
  simp only [buildRootSpecs, collectWorkspaceRootSpecs_canonicalize h]

theorem rootSpecsOf_self (hplan : prepareInstallPlan S files project options = .ok plan) :
    rootSpecsOf S files project plan options.includeDev = .ok plan.rootSpecs := by
  obtain ⟨resolvedManifest, -, -, -, hmanifest, hspecs, -⟩ := prepareInstallPlan_ok hplan
  exact Result.bind_eq_ok_iff.mpr ⟨resolvedManifest, hmanifest, hspecs⟩

theorem loadCatalog_congr (h : next.catalogConfig = files.catalogConfig) :
    loadCatalog next project = loadCatalog files project := by
  funext workspace
  simp only [loadCatalog, h]

theorem loadOverrides_congr (h : next.overridesConfig = files.overridesConfig) :
    loadOverrides next project = loadOverrides files project := by
  funext workspace
  simp only [loadOverrides, h]

/-- A later plan of the same configuration. -/
theorem later_plan (hplan : prepareInstallPlan S files project options = .ok plan)
    (hview : LockedView files next plan.lockfilePath lockfile)
    (hlater : prepareInstallPlan S next project options' = .ok later) :
    rootSpecsOf S files project plan options'.includeDev = .ok later.rootSpecs ∧
      later.lockfilePath = plan.lockfilePath ∧ later.manifestRoot = later.rootSpecs.required ∧
      later.additions = (collectAdditions options'.requested).1 := by
  obtain ⟨_, hdiscover, hcatalog, hoverrides, -, -, hown⟩ := prepareInstallPlan_ok hplan
  obtain ⟨resolvedManifest, hdiscover', hcatalog', hoverrides', hmanifest, hspecs, hlater⟩ :=
    prepareInstallPlan_ok hlater
  rw [hview.discover, hdiscover] at hdiscover'
  have hworkspace := Except.ok.inj hdiscover'
  rw [← hworkspace] at hcatalog' hoverrides' hmanifest hspecs
  rw [loadCatalog_congr hview.catalogs, hcatalog] at hcatalog'
  rw [loadOverrides_congr hview.overrides, hoverrides] at hoverrides'
  rw [← Except.ok.inj hcatalog'] at hmanifest
  rw [← Except.ok.inj hoverrides', buildRootSpecs_canonicalize hview.canonicalize] at hspecs
  refine ⟨Result.bind_eq_ok_iff.mpr ⟨resolvedManifest, hmanifest, hspecs⟩, ?_, ?_, ?_⟩
  · have hpath := congrArg ProjectInstallPlan.lockfilePath hlater
    rw [planOf_lockfilePath, ← hworkspace] at hpath
    exact hpath.trans (congrArg ProjectInstallPlan.lockfilePath hown).symm
  · rw [hlater]
    rfl
  · rw [hlater]
    rfl

/-- The plan of a later run for which the root specs can be collected. -/
theorem exists_later (hplan : prepareInstallPlan S files project options = .ok plan)
    (hview : LockedView files next plan.lockfilePath lockfile) {specs : RootSpecSet}
    (hspecs : rootSpecsOf S files project plan options'.includeDev = .ok specs) :
    ∃ later, prepareInstallPlan S next project options' = .ok later := by
  obtain ⟨_, hdiscover, hcatalog, hoverrides, -, -, -⟩ := prepareInstallPlan_ok hplan
  obtain ⟨resolvedManifest, hmanifest, hbuilt⟩ := Result.bind_eq_ok hspecs
  rw [← buildRootSpecs_canonicalize hview.canonicalize] at hbuilt
  exact ⟨_, Result.bind_eq_ok_iff.mpr ⟨plan.workspace, hview.discover ▸ hdiscover,
    Result.bind_eq_ok_iff.mpr ⟨plan.catalog, (loadCatalog_congr hview.catalogs) ▸ hcatalog,
    Result.bind_eq_ok_iff.mpr ⟨plan.overrides, (loadOverrides_congr hview.overrides) ▸ hoverrides,
    Result.bind_eq_ok_iff.mpr ⟨resolvedManifest, hmanifest,
    Result.bind_eq_ok_iff.mpr ⟨specs, hbuilt, rfl⟩⟩⟩⟩⟩⟩

end Prepare

section Passes

variable {files : FileView} {project : Project} {plan : ProjectInstallPlan}
  {options : InstallOptions} {lockfile : Lockfile}

/-- A frozen run with an own lockfile and without requests passes when the lockfile
matches. -/
theorem validate_own_iff {next : FileView} {options' : InstallOptions}
    {later : ProjectInstallPlan} (hfrozen : options'.frozenLockfile = .frozen)
    (hfile : next.isFile later.lockfilePath = true)
    (hread : next.lockfile later.lockfilePath = .ok lockfile)
    (hadditions : later.additions.isEmpty = true) :
    validateFrozenLockfile next options' later = .ok () ↔
      lockfile.rootSpecsMatch later.manifestRoot later.rootSpecs.optional = true := by
  unfold validateFrozenLockfile
  rw [readExistingLockfile_of_isFile hfile, hread]
  simp [hfrozen, hfile, hadditions]

theorem passesFrozen_iff (hplan : prepareInstallPlan S files project options = .ok plan) :
    PassesFrozen S files project plan lockfile ↔
      ∀ (includeDev : Bool) (specs : RootSpecSet),
        rootSpecsOf S files project plan includeDev = .ok specs →
        lockfile.rootSpecsMatch specs.required specs.optional = true := by
  constructor
  · intro hpasses includeDev specs hspecs
    have hview : LockedView files { files with
        isFile := fun _ => true
        lockfile := fun _ => .ok lockfile } plan.lockfilePath lockfile :=
      ⟨rfl, rfl, rfl, rfl, rfl, rfl⟩
    have hexists : ∃ later, prepareInstallPlan S { files with
        isFile := fun _ => true
        lockfile := fun _ => .ok lockfile } project ⟨[], false, includeDev, .frozen, true, false⟩ =
          .ok later :=
      exists_later hplan hview hspecs
    obtain ⟨later, hlater⟩ := hexists
    obtain ⟨hlaterSpecs, hpath, hmanifest, hadditions⟩ := later_plan hplan hview hlater
    cases hspecs.symm.trans hlaterSpecs
    rw [← hmanifest]
    refine (validate_own_iff rfl rfl rfl ?_).mp (hpasses _ _ later hview rfl rfl hlater)
    rw [hadditions]
    rfl
  · intro hmatch next options' later hview hrequested hfrozen hlater
    obtain ⟨hspecs, hpath, hmanifest, hadditions⟩ := later_plan hplan hview hlater
    refine (validate_own_iff hfrozen (hpath ▸ hview.present) (hpath ▸ hview.read) ?_).mpr ?_
    · rw [hadditions, hrequested]
      rfl
    · rw [hmanifest]
      exact hmatch _ _ hspecs

/-- Leaving development dependencies out only moves roots between the sections. -/
def NothingLost (S : SemverCrate) (files : FileView) (project : Project)
    (plan : ProjectInstallPlan) : Prop :=
  ∀ specs, rootSpecsOf S files project plan false = .ok specs →
    OnlyMoved plan.rootSpecs.required plan.rootSpecs.optional specs.required specs.optional

/-- A lockfile that was written for the roots of a full run passes when it matches
them and none of them is lost without development dependencies. -/
theorem passesFrozen_ofGraph_iff {graph : ResolutionGraph}
    (hplan : prepareInstallPlan S files project options = .ok plan)
    (hfull : options.includeDev = true) :
    PassesFrozen S files project plan (Lockfile.ofGraph graph plan.rootSpecs.optional) ↔
      (Lockfile.ofGraph graph plan.rootSpecs.optional).rootSpecsMatch plan.rootSpecs.required
          plan.rootSpecs.optional = true ∧
        NothingLost S files project plan := by
  have hself := rootSpecsOf_self hplan
  rw [hfull] at hself
  rw [passesFrozen_iff hplan]
  constructor
  · intro h
    have hmatch := h true _ hself
    exact ⟨hmatch, fun specs hspecs =>
      (rootSpecsMatch_moved_iff hmatch _ _).mp (h false specs hspecs)⟩
  · rintro ⟨hmatch, hlost⟩ includeDev specs hspecs
    cases includeDev with
    | true =>
        cases hself.symm.trans hspecs
        exact hmatch
    | false => exact (rootSpecsMatch_moved_iff hmatch _ _).mpr (hlost specs hspecs)

theorem sectioned_build (dependencies development optional : BTreeMap String String)
    (includeDev : Bool) :
    Sectioned (buildProjectRootSpecs dependencies development optional includeDev).required
      optional := by
  intro name hname hoptional
  rw [Std.ExtTreeMap.mem_iff_isSome_getElem?, getElem?_required, if_pos hoptional] at hname
  cases hname

/-- The roots of a project only move when each development dependency is in another
section. -/
theorem onlyMoved_without_dev_iff {dependencies development optional : BTreeMap String String} :
    OnlyMoved (buildProjectRootSpecs dependencies development optional true).required optional
        (buildProjectRootSpecs dependencies development optional false).required optional ↔
      ∀ name ∈ development, name ∈ dependencies ∨ name ∈ optional := by
  constructor
  · intro hmoved name hname
    by_contra hout
    rw [not_or] at hout
    have hsize : ((buildProjectRootSpecs dependencies development optional true).required ∪
        optional).size =
        ((buildProjectRootSpecs dependencies development optional false).required ∪
          optional).size := by
      rw [hmoved.count, Std.ExtTreeMap.size_union_of_not_mem (sectioned_build _ _ _ false)]
    have hsub : ∀ other : String,
        other ∈ (buildProjectRootSpecs dependencies development optional false).required ∪
            optional →
          other ∈ (buildProjectRootSpecs dependencies development optional true).required ∪
            optional := by
      intro other hother
      rw [Std.ExtTreeMap.mem_union_iff] at hother ⊢
      cases hother with
      | inl hrequired =>
          obtain ⟨spec, hspec⟩ := BTreeMap.mem_iff_exists.mp hrequired
          exact .inl (BTreeMap.mem_iff_exists.mpr ⟨spec, (hmoved.required_kept other spec hspec).1⟩)
      | inr hoptional => exact .inr hoptional
    have hroot : name ∈ (buildProjectRootSpecs dependencies development optional true).required ∪
        optional := by
      rw [Std.ExtTreeMap.mem_union_iff, Std.ExtTreeMap.mem_iff_isSome_getElem?, getElem?_required,
        if_neg hout.2, Std.ExtTreeMap.getElem?_eq_none hout.1]
      rw [Std.ExtTreeMap.mem_iff_isSome_getElem?] at hname
      exact .inl (by simpa using hname)
    have hkept := BTreeMap.mem_of_size_le hsub hsize.le hroot
    rw [Std.ExtTreeMap.mem_union_iff, Std.ExtTreeMap.mem_iff_isSome_getElem?, getElem?_required,
      if_neg hout.2, Std.ExtTreeMap.getElem?_eq_none hout.1] at hkept
    cases hkept with
    | inl hnone => cases hnone
    | inr hoptional => exact hout.2 hoptional
  · intro h
    rw [← rootSpecs_without_dev_iff.mpr h]
    exact onlyMoved_self.mpr (sectioned_build _ _ _ true)

/-- Outside a workspace no root is lost when each development dependency is in
another section. -/
theorem nothingLost_iff (hplan : prepareInstallPlan S files project options = .ok plan)
    (hfull : options.includeDev = true) (halone : plan.workspace = none) :
    NothingLost S files project plan ↔
      ∀ name ∈ project.manifest.devDependencies,
        name ∈ project.manifest.dependencies ∨ name ∈ project.manifest.optionalDependencies := by
  obtain ⟨resolvedManifest, -, -, -, hmanifest, hspecs, -⟩ := prepareInstallPlan_ok hplan
  rw [halone, hfull] at hspecs
  have hlater : rootSpecsOf S files project plan false = .ok (buildProjectRootSpecs
      resolvedManifest.dependencies resolvedManifest.developmentDependencies
      resolvedManifest.optionalDependencies false) :=
    Result.bind_eq_ok_iff.mpr ⟨resolvedManifest, hmanifest, by rw [halone]; rfl⟩
  have hown : plan.rootSpecs = buildProjectRootSpecs resolvedManifest.dependencies
      resolvedManifest.developmentDependencies resolvedManifest.optionalDependencies true :=
    (Except.ok.inj hspecs).symm
  rw [halone] at hmanifest
  obtain ⟨dependencies, hdependencies, h⟩ := Result.bind_eq_ok hmanifest
  obtain ⟨development, hdevelopment, h⟩ := Result.bind_eq_ok h
  obtain ⟨optional, hoptional, h⟩ := Result.bind_eq_ok h
  cases h
  have hmoved : OnlyMoved (buildProjectRootSpecs dependencies development optional true).required
      optional (buildProjectRootSpecs dependencies development optional false).required optional ↔
        NothingLost S files project plan := by
    unfold NothingLost
    rw [hlater, hown]
    constructor
    · intro h specs hspecs
      cases hspecs
      exact h
    · exact fun h => h _ rfl
  rw [← hmoved, onlyMoved_without_dev_iff]
  simp only [mem_applySpecs hdependencies, mem_applySpecs hdevelopment, mem_applySpecs hoptional]

end Passes

section Runs

variable {world : World} {config : SnpmConfig} {files : FileView} {project : Project}
  {plan : ProjectInstallPlan} {options : InstallOptions} {lockfile : Lockfile}

/-- The lockfile an install has written is that of its graph, which was resolved
afresh or imported. -/
theorem wroteLockfile_some {resolved : ResolvedInstall}
    (h : resolveInstallState H S world config files project plan options = .ok resolved)
    (hwrote : resolved.wroteLockfile = some lockfile) :
    lockfile = Lockfile.ofGraph resolved.graph plan.rootSpecs.optional ∧
      ((scenarioOf H S config files project plan options).scenario = .cold →
        ∃ seed storePaths, world.resolve plan (plannedRootDependencies files plan options)
          options.force seed = .ok (resolved.graph, storePaths)) ∧
      ((scenarioOf H S config files project plan options).scenario ≠ .cold →
        Imports files plan options ∧
          (scenarioOf H S config files project plan options).graph = some resolved.graph) := by
  obtain ⟨hscenario, hcold, hwarm⟩ := resolveInstallState_ok h
  rw [← hscenario]
  by_cases hfresh : resolved.scenario = .cold
  · obtain ⟨⟨storePaths, hanswer⟩, hwritten⟩ := hcold hfresh
    rw [hwrote] at hwritten
    refine ⟨?_, fun _ => ⟨_, storePaths, hanswer⟩, fun h => absurd hfresh h⟩
    split at hwritten
    next => exact Option.some.inj hwritten
    next => cases hwritten
  · obtain ⟨hgraph, hwritten⟩ := hwarm hfresh
    rw [hwrote] at hwritten
    cases hwritten with
    | inl hnone => cases hnone.1
    | inr himports =>
        exact ⟨Option.some.inj himports.2, fun h => absurd h hfresh,
          fun _ => ⟨himports.1, hgraph⟩⟩

/-- An install whose plan is prepared and valid succeeds in a quiet world. -/
theorem exists_install_quiet (hplan : prepareInstallPlan S files project options = .ok plan)
    (hvalid : validateFrozenLockfile files options plan = .ok ())
    (hadditions : plan.additions.isEmpty = true) (graph : ResolutionGraph) :
    ∃ outcome, install H S (quietWorld graph emptyView) config files project options =
        .ok outcome ∧
      resolveInstallState H S (quietWorld graph emptyView) config files project plan options =
        .ok outcome.resolved := by
  have hresolves : ∃ resolved, resolveInstallState H S (quietWorld graph emptyView) config files
      project plan options = .ok resolved :=
    exists_resolved_quiet graph emptyView
  obtain ⟨resolved, hresolved⟩ := hresolves
  have hmanifest : writeManifest (quietWorld graph emptyView) project resolved.graph plan.additions
      options.dev plan.workspace plan.catalog config.effectiveSavePrefix = .ok project :=
    if_pos hadditions
  have hfinalize : finalizeInstall (quietWorld graph emptyView) resolved = .ok () := by
    unfold finalizeInstall
    split <;> rfl
  have hrecord : recordInstall H S (quietWorld graph emptyView) config project plan resolved
      options.includeDev = .ok none := by
    simp [recordInstall, quietWorld, emptyView]
  refine ⟨⟨plan, resolved, project, none⟩, ?_, hresolved⟩
  refine Result.bind_eq_ok_iff.mpr ⟨plan, hplan, ?_⟩
  refine Result.bind_eq_ok_iff.mpr ⟨(), hvalid, ?_⟩
  refine Result.bind_eq_ok_iff.mpr ⟨resolved, hresolved, ?_⟩
  refine Result.bind_eq_ok_iff.mpr ⟨project, hmanifest, ?_⟩
  refine Result.bind_eq_ok_iff.mpr ⟨(), hfinalize, ?_⟩
  refine Result.bind_eq_ok_iff.mpr ⟨(), rfl, ?_⟩
  exact Result.bind_eq_ok_iff.mpr ⟨none, hrecord, rfl⟩

theorem rootDependencies_eq (hplan : prepareInstallPlan S files project options = .ok plan)
    (hrequested : options.requested = []) :
    plan.rootDependencies = plan.rootSpecs.required ∪ plan.rootSpecs.optional ∧
      plan.additions.isEmpty = true := by
  obtain ⟨_, -, -, -, -, -, hown⟩ := prepareInstallPlan_ok hplan
  rw [hrequested] at hown
  refine ⟨?_, ?_⟩
  · have hroots : plan.rootDependencies = plan.rootSpecs.required ∪ plan.rootSpecs.optional ∪
        (∅ : BTreeMap String String) :=
      congrArg ProjectInstallPlan.rootDependencies hown
    rw [hroots]
    apply Std.ExtTreeMap.ext_getElem?
    intro name
    rw [Std.ExtTreeMap.getElem?_union, Std.ExtTreeMap.getElem?_empty, Option.none_or]
  · have hadditions : plan.additions = (∅ : BTreeMap String String) :=
      congrArg ProjectInstallPlan.additions hown
    rw [hadditions]
    rfl

theorem optionalRootNames_eq (hplan : prepareInstallPlan S files project options = .ok plan) :
    plan.optionalRootNames = .ofList plan.rootSpecs.optional.keys compare := by
  obtain ⟨_, -, -, -, -, -, hown⟩ := prepareInstallPlan_ok hplan
  exact congrArg ProjectInstallPlan.optionalRootNames hown

/-- Pins are for roots that are there. -/
theorem mem_planned {name : String} (h : name ∈ plan.rootDependencies) :
    name ∈ plannedRootDependencies files plan options := by
  unfold plannedRootDependencies
  split
  next =>
      unfold pinnedRootDependenciesForFix
      split
      next => exact h
      next =>
          unfold pinRoots
          rw [Std.ExtTreeMap.mem_union_iff, Std.ExtTreeMap.mem_union_iff]
          exact .inl (.inl h)
  next => exact h

/-- A fresh resolution is written with the planned ranges, so it matches the roots
in every world when these are the ranges of the manifest and no root is in both
sections. -/
theorem match_of_answer {graph : ResolutionGraph}
    (hplan : prepareInstallPlan S files project options = .ok plan)
    (hsame : plannedRootDependencies files plan options =
      plan.rootSpecs.required ∪ plan.rootSpecs.optional)
    (hsections : Sectioned plan.rootSpecs.required plan.rootSpecs.optional)
    (hanswers : Answers plan (plannedRootDependencies files plan options) graph) :
    (Lockfile.ofGraph graph plan.rootSpecs.optional).rootSpecsMatch plan.rootSpecs.required
      plan.rootSpecs.optional = true := by
  have hroots := hanswers.roots
  rw [hsame, optionalRootNames_eq hplan] at hroots
  exact (rootSpecsMatch_iff hroots _ _).mpr (onlyMoved_self.mpr hsections)

/-- A graph that has every planned root with its planned range only matches when
these are the ranges of the manifest. -/
theorem planned_of_match {graph : ResolutionGraph}
    (hplan : prepareInstallPlan S files project options = .ok plan)
    (hrequested : options.requested = [])
    (hroots : ∀ (name range : String),
      (plannedRootDependencies files plan options)[name]? = some range →
        ∃ id, graph.root.dependencies[name]? = some ⟨range, id⟩)
    (hmatch : (Lockfile.ofGraph graph plan.rootSpecs.optional).rootSpecsMatch
      plan.rootSpecs.required plan.rootSpecs.optional = true) :
    plannedRootDependencies files plan options =
      plan.rootSpecs.required ∪ plan.rootSpecs.optional := by
  apply Std.ExtTreeMap.ext_getElem?
  intro name
  cases hname : (plannedRootDependencies files plan options)[name]? with
  | some range =>
      obtain ⟨id, hid⟩ := hroots name range hname
      rw [requested_of_rootSpecsMatch (sectioned_of_match hmatch) hmatch, Lockfile.ofGraph,
        Lockfile.getElem?_buildRootDependencies, hid]
      rfl
  | none =>
      rw [← (rootDependencies_eq hplan hrequested).1, eq_comm, Std.ExtTreeMap.getElem?_eq_none]
      intro hmem
      have hplanned : name ∈ plannedRootDependencies files plan options := mem_planned hmem
      rw [Std.ExtTreeMap.mem_iff_isSome_getElem?, hname] at hplanned
      cases hplanned

/-- What the lockfile of a full install needs to match the roots again: fresh roots
are resolved with their own ranges and are in one section each, and a graph that is
imported as it is has the roots. -/
def RootsWritten (H : Digest.Hash) (S : SemverCrate) (config : SnpmConfig) (files : FileView)
    (project : Project) (plan : ProjectInstallPlan) (options : InstallOptions) : Prop :=
  if (scenarioOf H S config files project plan options).scenario = .cold then
    plannedRootDependencies files plan options =
        plan.rootSpecs.required ∪ plan.rootSpecs.optional ∧
      Sectioned plan.rootSpecs.required plan.rootSpecs.optional
  else ∀ graph, (scenarioOf H S config files project plan options).graph = some graph →
    (Lockfile.ofGraph graph plan.rootSpecs.optional).rootSpecsMatch plan.rootSpecs.required
      plan.rootSpecs.optional = true

/-- Whether a full install writes the lockfile: after a fresh resolution, or when it
takes over a foreign one. -/
def Writes (H : Digest.Hash) (S : SemverCrate) (config : SnpmConfig) (files : FileView)
    (project : Project) (plan : ProjectInstallPlan) (options : InstallOptions) : Prop :=
  (scenarioOf H S config files project plan options).scenario = .cold ∨
    Imports files plan options

theorem exists_wrote {resolved : ResolvedInstall}
    (h : resolveInstallState H S world config files project plan options = .ok resolved)
    (hfull : options.includeDev = true)
    (hwrites : Writes H S config files project plan options) :
    ∃ lockfile, resolved.wroteLockfile = some lockfile := by
  obtain ⟨hscenario, hcold, hwarm⟩ := resolveInstallState_ok h
  by_cases hfresh : resolved.scenario = .cold
  · rw [(hcold hfresh).2, if_pos hfull]
    exact ⟨_, rfl⟩
  · cases hwrites with
    | inl h => exact absurd (hscenario.trans h) hfresh
    | inr himports =>
        cases (hwarm hfresh).2 with
        | inl hnone => exact absurd himports hnone.2
        | inr hsome => exact ⟨_, hsome.2⟩

/-- The lockfile that a full install writes, whatever a resolution answers, is accepted
by later frozen installs of the same manifest exactly when it matches the roots again
and no root is lost without development dependencies. -/
theorem later_frozen_iff (hplan : prepareInstallPlan S files project options = .ok plan)
    (hvalid : validateFrozenLockfile files options plan = .ok ())
    (hfull : options.includeDev = true) (hrequested : options.requested = []) :
    (∀ (world : World) (outcome : InstallOutcome) (lockfile : Lockfile),
        world.Resolves plan (plannedRootDependencies files plan options) →
        install H S world config files project options = .ok outcome →
        outcome.resolved.wroteLockfile = some lockfile →
          PassesFrozen S files project plan lockfile) ↔
      (Writes H S config files project plan options →
        RootsWritten H S config files project plan options ∧
          NothingLost S files project plan) := by
  constructor
  · intro hpasses hwrites
    obtain ⟨graph, hanswers, hroots⟩ := exists_answer plan
      (plannedRootDependencies files plan options) fun name => ⟨name, "0.0.0"⟩
    have hworld : (quietWorld graph emptyView).Resolves plan
        (plannedRootDependencies files plan options) := by
      intro force seed answer storePaths hresolve
      cases hresolve
      exact hanswers
    have hinstalls : ∃ outcome, install H S (quietWorld graph emptyView) config files project
          options = .ok outcome ∧
        resolveInstallState H S (quietWorld graph emptyView) config files project plan options =
          .ok outcome.resolved :=
      exists_install_quiet hplan hvalid (rootDependencies_eq hplan hrequested).2 graph
    obtain ⟨outcome, hinstall, hresolved⟩ := hinstalls
    obtain ⟨lockfile, hwrote⟩ := exists_wrote hresolved hfull hwrites
    have hpass := hpasses _ outcome lockfile hworld hinstall hwrote
    obtain ⟨rfl, hcold, hwarm⟩ := wroteLockfile_some hresolved hwrote
    obtain ⟨hmatch, hlost⟩ := (passesFrozen_ofGraph_iff hplan hfull).mp hpass
    refine ⟨?_, hlost⟩
    unfold RootsWritten
    split
    next hfresh =>
        obtain ⟨seed, storePaths, hanswer⟩ := hcold hfresh
        have hgraph : outcome.resolved.graph = graph :=
          (congrArg Prod.fst (Except.ok.inj hanswer)).symm
        rw [hgraph] at hmatch
        exact ⟨planned_of_match hplan hrequested
          (fun name range hrange => ⟨_, hroots name range hrange⟩) hmatch,
          sectioned_of_match hmatch⟩
    next hfresh =>
        intro found hfound
        rw [(hwarm hfresh).2, Option.some.injEq] at hfound
        exact hfound ▸ hmatch
  · intro hcond world outcome lockfile hworld hinstall hwrote
    obtain ⟨hplan', -, hresolved, -⟩ := install_ok hinstall
    cases hplan.symm.trans hplan'
    obtain ⟨rfl, hcold, hwarm⟩ := wroteLockfile_some hresolved hwrote
    rw [passesFrozen_ofGraph_iff hplan hfull]
    by_cases hfresh : (scenarioOf H S config files project outcome.plan options).scenario = .cold
    · obtain ⟨hwritten, hlost⟩ := hcond (.inl hfresh)
      unfold RootsWritten at hwritten
      rw [if_pos hfresh] at hwritten
      obtain ⟨seed, storePaths, hanswer⟩ := hcold hfresh
      exact ⟨match_of_answer hplan hwritten.1 hwritten.2 (hworld _ _ _ _ hanswer), hlost⟩
    · obtain ⟨himports, hgraph⟩ := hwarm hfresh
      obtain ⟨hwritten, hlost⟩ := hcond (.inr himports)
      unfold RootsWritten at hwritten
      rw [if_neg hfresh] at hwritten
      exact ⟨hwritten _ hgraph, hlost⟩

end Runs

section Examples

/-- A project with one dependency, which only development needs. -/
def devProject : Project :=
  ⟨"/app", "/app/package.json", { Manifest.empty with devDependencies := caretSpec }⟩

def soloPlan (project : Project) : ProjectInstallPlan :=
  planOf emptyView project [] none none ∅ ∅ ⟨caretSpec, ∅⟩

theorem prepare_solo (dependencies development : BTreeMap String String) {project : Project}
    (hmanifest : project.manifest =
      { Manifest.empty with dependencies := dependencies, devDependencies := development })
    (hspecs : applySpecs releaseCrate none none dependencies = .ok dependencies ∧
      applySpecs releaseCrate none none development = .ok development)
    (hprotocols : manifestProtocols dependencies ∪ manifestProtocols development ∪
      manifestProtocols ∅ = (∅ : BTreeMap String RegistryProtocol))
    (hroots : buildProjectRootSpecs dependencies development ∅ true = ⟨caretSpec, ∅⟩) :
    prepareInstallPlan releaseCrate emptyView project freshInstall = .ok (soloPlan project) := by
  have hempty : applySpecs releaseCrate none none ∅ = .ok ∅ := by
    decide +kernel
  have hresolved : resolveManifestSpecs releaseCrate project none none =
      .ok ⟨dependencies, development, ∅, ∅⟩ := by
    unfold resolveManifestSpecs
    rw [hmanifest]
    refine Result.bind_eq_ok_iff.mpr ⟨dependencies, hspecs.1, ?_⟩
    refine Result.bind_eq_ok_iff.mpr ⟨development, hspecs.2, ?_⟩
    refine Result.bind_eq_ok_iff.mpr ⟨∅, hempty, ?_⟩
    rw [hprotocols]
  have hoverrides : loadOverrides emptyView project none = .ok ∅ := by
    unfold loadOverrides mergeManifestOverrides
    rw [hmanifest]
    rfl
  refine Result.bind_eq_ok_iff.mpr ⟨none, rfl, ?_⟩
  refine Result.bind_eq_ok_iff.mpr ⟨none, rfl, ?_⟩
  refine Result.bind_eq_ok_iff.mpr ⟨∅, hoverrides, ?_⟩
  refine Result.bind_eq_ok_iff.mpr ⟨_, hresolved, ?_⟩
  exact Result.bind_eq_ok_iff.mpr ⟨_, congrArg Except.ok hroots, rfl⟩

theorem prepare_caretProject :
    prepareInstallPlan releaseCrate emptyView caretProject freshInstall =
      .ok (soloPlan caretProject) :=
  prepare_solo caretSpec ∅ rfl (by decide +kernel) (by decide +kernel) (by decide +kernel)

theorem prepare_devProject :
    prepareInstallPlan releaseCrate emptyView devProject freshInstall =
      .ok (soloPlan devProject) :=
  prepare_solo ∅ caretSpec rfl (by decide +kernel) (by decide +kernel) (by decide +kernel)

/-- The lockfile of a project without development dependencies is accepted later. -/
theorem later_frozen_caret :
    prepareInstallPlan releaseCrate emptyView caretProject freshInstall =
        .ok (soloPlan caretProject) ∧
      ∀ (world : World) (outcome : InstallOutcome) (lockfile : Lockfile),
        world.Resolves (soloPlan caretProject)
          (plannedRootDependencies emptyView (soloPlan caretProject) freshInstall) →
        install Digest.unaryHash releaseCrate world plainConfig emptyView caretProject
          freshInstall = .ok outcome →
        outcome.resolved.wroteLockfile = some lockfile →
        PassesFrozen releaseCrate emptyView caretProject (soloPlan caretProject) lockfile := by
  refine ⟨prepare_caretProject,
    (later_frozen_iff prepare_caretProject rfl rfl rfl).mpr fun _ => ⟨⟨?_, ?_⟩, ?_⟩⟩
  · exact (rootDependencies_eq prepare_caretProject rfl).1
  · intro name _ hoptional
    exact absurd hoptional Std.ExtTreeMap.not_mem_empty
  · refine (nothingLost_iff prepare_caretProject rfl rfl).mpr fun name hname => ?_
    exact absurd hname Std.ExtTreeMap.not_mem_empty

/-- A development dependency is in the lockfile and missing from the roots of an
install without development dependencies. -/
theorem later_frozen_without_dev :
    ¬ ∀ (world : World) (files : FileView) (project : Project) (plan : ProjectInstallPlan)
        (options : InstallOptions) (outcome : InstallOutcome) (lockfile : Lockfile),
        prepareInstallPlan releaseCrate files project options = .ok plan →
        options.includeDev = true → options.requested = [] →
        world.Resolves plan (plannedRootDependencies files plan options) →
        install Digest.unaryHash releaseCrate world plainConfig files project options =
          .ok outcome →
        outcome.resolved.wroteLockfile = some lockfile →
        PassesFrozen releaseCrate files project plan lockfile := by
  intro hclaim
  obtain ⟨graph, hanswers, -⟩ := exists_answer (soloPlan devProject)
    (plannedRootDependencies emptyView (soloPlan devProject) freshInstall)
    fun name => ⟨name, "1.0.0"⟩
  have hworld : (quietWorld graph emptyView).Resolves (soloPlan devProject)
      (plannedRootDependencies emptyView (soloPlan devProject) freshInstall) := by
    intro force seed answer storePaths hresolve
    cases hresolve
    exact hanswers
  have hinstalls : ∃ outcome, install Digest.unaryHash releaseCrate (quietWorld graph emptyView)
        plainConfig emptyView devProject freshInstall = .ok outcome ∧
      resolveInstallState Digest.unaryHash releaseCrate (quietWorld graph emptyView) plainConfig
        emptyView devProject (soloPlan devProject) freshInstall = .ok outcome.resolved :=
    exists_install_quiet prepare_devProject rfl rfl graph
  obtain ⟨outcome, hinstall, hresolved⟩ := hinstalls
  obtain ⟨lockfile, hwrote⟩ := exists_wrote hresolved rfl (.inl rfl)
  have hpasses := hclaim _ _ _ _ _ _ _ prepare_devProject rfl rfl hworld hinstall hwrote
  obtain ⟨rfl, -, -⟩ := wroteLockfile_some hresolved hwrote
  have hlost := ((passesFrozen_ofGraph_iff prepare_devProject rfl).mp hpasses).2
  have hname : "a" ∈ devProject.manifest.devDependencies := by decide +kernel
  cases (nothingLost_iff prepare_devProject rfl rfl).mp hlost "a" hname with
  | inl h => exact absurd h Std.ExtTreeMap.not_mem_empty
  | inr h => exact absurd h Std.ExtTreeMap.not_mem_empty

end Examples

end ProjectInstall
end Snpm.Install
