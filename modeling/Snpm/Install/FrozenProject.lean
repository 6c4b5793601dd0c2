import Mathlib
import Snpm.Install.HotSoundness
import Snpm.Install.RecordSteps

/-!
Frozen project installs. A frozen install is meant to take the graph of the
lockfile. It does so when the scenario says that work can be saved and the record
that is read in place of the lockfile has the lockfile's graph; in the cold scenario
the roots are resolved afresh, whatever the lockfile says.
-/
namespace Snpm.Install
namespace ProjectInstall

variable {H : Digest.Hash} {S : SemverCrate}

/-- A resolution of the roots: every root is a package, and every package is
reached from a root. -/
structure Answers (plan : ProjectInstallPlan) (roots : BTreeMap String String)
    (graph : ResolutionGraph) : Prop where
  roots : RootsOf roots plan.optionalRootNames graph
  rooted : Rooted graph
  reached : ∀ id ∈ graph.packages, ∃ (name : String) (dep : RootDependency),
    graph.root.dependencies[name]? = some dep ∧
      Relation.ReflTransGen (fun id next => ∃ (package : ResolvedPackage) (edge : String),
        graph.packages[id]? = some package ∧ package.dependencies[edge]? = some next)
        dep.resolved id

/-- In this world a resolution is one of the roots that were asked for. -/
def World.Resolves (world : World) (plan : ProjectInstallPlan)
    (roots : BTreeMap String String) : Prop :=
  ∀ force seed graph storePaths,
    world.resolve plan roots force seed = .ok (graph, storePaths) → Answers plan roots graph

/-- Nothing in the graph that the other one lacks. -/
structure PartOf (graph whole : ResolutionGraph) : Prop where
  roots : ∀ (name : String) (dep : RootDependency), graph.root.dependencies[name]? = some dep →
    whole.root.dependencies[name]? = some dep
  packages : ∀ (id : PackageId) (package : ResolvedPackage), graph.packages[id]? = some package →
    whole.packages[id]? = some package

/-- The install takes the graph of the lockfile, a part of it when development
dependencies are left out, and does not write to the lockfile. -/
structure LockfileUsed (files : FileView) (plan : ProjectInstallPlan) (options : InstallOptions)
    (lockfile : Lockfile) (resolved : ResolvedInstall) : Prop where
  whole : options.includeDev = true → resolved.graph = lockfile.toGraph
  part : PartOf resolved.graph lockfile.toGraph
  kept : files.isFile plan.lockfilePath = true → resolved.wroteLockfile = none

section Record

/-- The graph that stands for the lockfile, whether it is one of the present
roots, and what is known of the layout. -/
structure SourceRecord where
  graph : ResolutionGraph
  current : Bool
  layoutValid : Option Bool

variable (H S) (config : SnpmConfig) (files : FileView) (project : Project)
  (plan : ProjectInstallPlan)

/-- The record of a former install comes before the lockfile. -/
def sourceRecord (lockfile : Lockfile) : SourceRecord :=
  match loadProjectInstallState H S ⟨config, plan.workspace, files⟩ project
      (plan.lockfileSourcePath files) plan.manifestRoot plan.rootSpecs.optional true with
  | some state => ⟨state.graph, state.rootSpecsMatches, some state.layoutValid⟩
  | none =>
      match loadGraphSnapshot files project.root (plan.lockfileSourcePath files) with
      | some snapshot =>
          ⟨snapshot.graph, snapshot.matchesRootSpecs H plan.manifestRoot plan.rootSpecs.optional,
            none⟩
      | none => ⟨lockfile.toGraph, true, none⟩

/-- What a graph needs for its install to save work: an integrity state, and a
layout that is up to date or packages that are stored or can be fetched. -/
def Servable (force : Bool) (graph : ResolutionGraph) (layoutValid : Option Bool) : Prop :=
  ∃ state, buildProjectIntegrityState H files project graph = .ok state ∧
    (force = false ∧ checkIntegrityPath files project.root state = true ∧
        layoutValid.getD (checkProjectLayoutState H S ⟨config, plan.workspace, files⟩ project graph
          true) = true ∨
      ∀ package ∈ graph.packages.values, cacheLookup config files package.id = none →
        package.tarball ≠ "")

variable {H S config files project plan}

theorem classify_warm_iff {input : LayoutInput} {graph : ResolutionGraph}
    {state : IntegrityState} {hot current : Bool} :
    (classify input graph state hot current).scenario ≠ .cold ↔
      hot = true ∨ ∀ package ∈ graph.packages.values,
        cacheLookup input.config input.files package.id = none → package.tarball ≠ "" := by
  have hany : (checkStoreCache input.config input.files graph).missing.any (·.tarball = "") = true ↔
      ¬ ∀ package ∈ graph.packages.values,
        cacheLookup input.config input.files package.id = none → package.tarball ≠ "" := by
    simp [checkStoreCache]
  unfold classify
  cases hot with
  | true => simp
  | false =>
      simp only [Bool.false_eq_true, if_false, false_or]
      by_cases hmissing : (checkStoreCache input.config input.files graph).missing.any
          (·.tarball = "") = true
      · rw [if_pos hmissing]
        exact ⟨fun h => absurd rfl h, fun h => absurd h (hany.mp hmissing)⟩
      · rw [if_neg hmissing]
        refine ⟨fun _ => not_not.mp fun h => hmissing (hany.mpr h), fun _ => ?_⟩
        split <;> simp

theorem classify_graph {input : LayoutInput} {graph : ResolutionGraph}
    {state : IntegrityState} {hot current : Bool}
    (h : (classify input graph state hot current).scenario ≠ .cold) :
    (classify input graph state hot current).graph = some graph := by
  unfold classify at h ⊢
  split
  next => rfl
  next hcold =>
      rw [if_neg hcold] at h
      dsimp only at h ⊢
      split
      next hmissing =>
          rw [if_pos hmissing] at h
          exact absurd rfl h
      next => split <;> rfl

/-- A graph that can be served is not resolved again, and only such a graph. -/
theorem detectFromGraph_warm_iff {graph : ResolutionGraph} {force : Bool}
    {layoutValid : Option Bool} :
    (detectFromGraph H S ⟨config, plan.workspace, files⟩ project graph force
        layoutValid).scenario ≠ .cold ↔
      Servable H S config files project plan force graph layoutValid := by
  unfold detectFromGraph Servable
  cases hstate : buildProjectIntegrityState H files project graph with
  | error error => simp [ScenarioResult.cold]
  | ok state =>
      simp only [classify_warm_iff, Bool.and_eq_true, Bool.not_eq_true', Except.ok.injEq,
        exists_eq_left', and_assoc]

theorem detectFromGraph_graph {input : LayoutInput} {graph : ResolutionGraph} {force : Bool}
    {layoutValid : Option Bool}
    (h : (detectFromGraph H S input project graph force layoutValid).scenario ≠ .cold) :
    (detectFromGraph H S input project graph force layoutValid).graph = some graph := by
  unfold detectFromGraph at h ⊢
  split
  next herror =>
      rw [herror] at h
      exact absurd rfl h
  next state hstate =>
      rw [hstate] at h
      exact classify_graph h

end Record

section Frozen

variable {config : SnpmConfig} {files : FileView} {project : Project} {plan : ProjectInstallPlan}
  {options : InstallOptions} {lockfile : Lockfile}

/-- The lockfile a frozen install has read, own or foreign, and accepted. -/
structure Accepted (files : FileView) (plan : ProjectInstallPlan) (options : InstallOptions)
    (lockfile : Lockfile) : Prop where
  frozen : options.frozenLockfile = .frozen
  read : readExistingLockfile files plan.lockfilePath plan.compatibleLockfile
    "frozen-lockfile requested but no lockfile was found" = .ok lockfile
  valid : validateFrozenLockfile files options plan = .ok ()

theorem Accepted.present (h : Accepted files plan options lockfile) :
    files.isFile plan.lockfilePath = true ∨ plan.compatibleLockfile.isNone = false := by
  have hread := h.read
  unfold readExistingLockfile at hread
  cases hfile : files.isFile plan.lockfilePath with
  | true => exact .inl rfl
  | false =>
      rw [hfile] at hread
      cases hcompatible : plan.compatibleLockfile with
      | none =>
          rw [hcompatible] at hread
          cases hread
      | some source => exact .inr rfl

theorem Accepted.sound (h : Accepted files plan options lockfile) :
    plan.additions.isEmpty = true ∧
      lockfile.rootSpecsMatch plan.manifestRoot plan.rootSpecs.optional = true := by
  have hvalid := h.valid
  unfold validateFrozenLockfile at hvalid
  rw [if_neg (not_not.mpr h.frozen)] at hvalid
  split at hvalid
  next hmissing =>
      simp only [Bool.and_eq_true, Bool.not_eq_true'] at hmissing
      cases h.present with
      | inl hfile =>
          rw [hmissing.1.2] at hfile
          cases hfile
      | inr hcompatible =>
          rw [hmissing.2] at hcompatible
          cases hcompatible
  next =>
      split at hvalid
      next => cases hvalid
      next hadditions =>
          rw [h.read] at hvalid
          dsimp only at hvalid
          split at hvalid
          next hmatch => exact ⟨by simpa using hadditions, hmatch⟩
          next => cases hvalid

theorem Accepted.read_any (h : Accepted files plan options lockfile) (missing : String) :
    readExistingLockfile files plan.lockfilePath plan.compatibleLockfile missing =
      .ok lockfile := by
  have hread := h.read
  unfold readExistingLockfile at hread ⊢
  split
  next hfile =>
      rw [if_pos hfile] at hread
      exact hread
  next hfile =>
      rw [if_neg hfile] at hread
      cases hcompatible : plan.compatibleLockfile with
      | some source =>
          rw [hcompatible] at hread
          exact hread
      | none =>
          rw [hcompatible] at hread
          cases hread

theorem Accepted.source (h : Accepted files plan options lockfile) :
    Install.lockfileSourcePath files plan.lockfilePath plan.compatibleLockfile =
      some (plan.lockfileSourcePath files) := by
  unfold ProjectInstallPlan.lockfileSourcePath Install.lockfileSourcePath
  cases hfile : files.isFile plan.lockfilePath with
  | true => simp
  | false =>
      cases hcompatible : plan.compatibleLockfile with
      | some source => simp
      | none =>
          have hpresent := h.present
          simp [hfile, hcompatible] at hpresent

/-- The scenario of an accepted lockfile is decided from its record. -/
theorem Accepted.scenarioOf_eq (h : Accepted files plan options lockfile)
    (hfull : options.includeDev = true) :
    scenarioOf H S config files project plan options =
      if (sourceRecord H S config files project plan lockfile).current then
        detectFromGraph H S ⟨config, plan.workspace, files⟩ project
          (sourceRecord H S config files project plan lockfile).graph options.force
          (sourceRecord H S config files project plan lockfile).layoutValid
      else coldWithGraph (sourceRecord H S config files project plan lockfile).graph := by
  obtain ⟨hadditions, hmatch⟩ := h.sound
  have hscenario : scenarioOf H S config files project plan options =
      detectFromRecords H S ⟨config, plan.workspace, files⟩ project plan.lockfilePath
        (plan.lockfileSourcePath files) plan.manifestRoot plan.rootSpecs.optional options.force
        plan.compatibleLockfile := by
    unfold scenarioOf detectInstallScenario
    simp [hfull, hadditions, h.frozen, h.source]
  rw [hscenario]
  unfold detectFromRecords sourceRecord
  dsimp only
  cases loadProjectInstallState H S ⟨config, plan.workspace, files⟩ project
      (plan.lockfileSourcePath files) plan.manifestRoot plan.rootSpecs.optional true with
  | some state => rfl
  | none =>
      dsimp only
      cases loadGraphSnapshot files project.root (plan.lockfileSourcePath files) with
      | some snapshot => rfl
      | none => simp [detectFromLockfile, h.read_any, hmatch]

/-- Nothing is resolved afresh: all dependencies are installed, the record is one
of the present roots, and its graph can be served. -/
structure Warm (H : Digest.Hash) (S : SemverCrate) (config : SnpmConfig) (files : FileView)
    (project : Project) (plan : ProjectInstallPlan) (options : InstallOptions)
    (lockfile : Lockfile) : Prop where
  full : options.includeDev = true
  current : (sourceRecord H S config files project plan lockfile).current = true
  servable : Servable H S config files project plan options.force
    (sourceRecord H S config files project plan lockfile).graph
    (sourceRecord H S config files project plan lockfile).layoutValid

theorem Accepted.warm_iff (h : Accepted files plan options lockfile) :
    (scenarioOf H S config files project plan options).scenario ≠ .cold ↔
      Warm H S config files project plan options lockfile := by
  constructor
  · intro hwarm
    have hfull := (scenarioOf_warm hwarm).1
    rw [h.scenarioOf_eq hfull] at hwarm
    split at hwarm
    next hcurrent => exact ⟨hfull, hcurrent, detectFromGraph_warm_iff.mp hwarm⟩
    next => exact absurd rfl hwarm
  · intro hwarm
    rw [h.scenarioOf_eq hwarm.full, if_pos hwarm.current]
    exact detectFromGraph_warm_iff.mpr hwarm.servable

theorem Accepted.graph_of_warm (h : Accepted files plan options lockfile)
    (hwarm : Warm H S config files project plan options lockfile) :
    (scenarioOf H S config files project plan options).graph =
      some (sourceRecord H S config files project plan lockfile).graph := by
  rw [h.scenarioOf_eq hwarm.full, if_pos hwarm.current]
  exact detectFromGraph_graph (detectFromGraph_warm_iff.mpr hwarm.servable)

end Frozen

section Answer

variable {plan : ProjectInstallPlan} {roots : BTreeMap String String}

/-- Without roots there is nothing to install. -/
theorem Answers.eq_nothing {graph : ResolutionGraph} (h : Answers plan ∅ graph) :
    graph = nothingInstalled := by
  obtain ⟨resolvePackage, hroots⟩ := h.roots
  have hnone : ∀ name : String, graph.root.dependencies[name]? = none := fun name =>
    (Resolve.root_of_resolveRootDependencies hroots name).1 Std.ExtTreeMap.getElem?_empty
  have hpackages : ∀ id : PackageId, graph.packages[id]? = none := by
    intro id
    rw [Std.ExtTreeMap.getElem?_eq_none]
    intro hid
    obtain ⟨name, dep, hdep, -⟩ := h.reached id hid
    rw [hnone name] at hdep
    cases hdep
  obtain ⟨⟨dependencies⟩, packages⟩ := graph
  have hdependencies : dependencies = ∅ :=
    Std.ExtTreeMap.ext_getElem? fun name =>
      (hnone name).trans Std.ExtTreeMap.getElem?_empty.symm
  have hempty : packages = ∅ :=
    Std.ExtTreeMap.ext_getElem? fun id => (hpackages id).trans Std.ExtTreeMap.getElem?_empty.symm
  rw [hdependencies, hempty]
  rfl

theorem foldlM_total {α β ε : Type} {f : β → α → Except ε β} (h : ∀ b a, ∃ c, f b a = .ok c)
    (l : List α) (b : β) : ∃ c, l.foldlM f b = .ok c := by
  induction l generalizing b with
  | nil => exact ⟨b, rfl⟩
  | cons a l ih =>
      obtain ⟨next, hnext⟩ := h b a
      rw [List.foldlM_cons, hnext]
      exact ih next

/-- Roots that can all be resolved give a root section. -/
theorem resolveRootDependencies_total (roots : BTreeMap String String)
    (optionalRootNames : BTreeSet String) (idOf : String → PackageId) :
    ∃ root, Resolve.resolveRootDependencies roots optionalRootNames (fun name _ => .ok (idOf name)) =
      .ok root := by
  obtain ⟨dependencies, hvisit⟩ : ∃ dependencies, BTreeMap.filterMapM (fun name range =>
      Resolve.rootResult (optionalRootNames.contains name) range (.ok (idOf name))) roots =
        .ok dependencies := by
    refine foldlM_total (fun acc entry => ⟨acc.insert entry.1 ⟨entry.2, idOf entry.1⟩, ?_⟩) _ _
    simp [BTreeMap.filterMapStep, Resolve.rootResult]
  exact ⟨⟨dependencies⟩, Result.bind_eq_ok_iff.mpr ⟨dependencies, hvisit, rfl⟩⟩

/-- The packages of the roots, with nothing below them. -/
def rootPackages (root : ResolutionRoot) : ResolutionGraph where
  root := root
  packages := BTreeMap.collect (root.dependencies.values.map fun dep =>
    (dep.resolved, samplePackage dep.resolved (dep.resolved.name ++ ".tgz") ∅))

theorem rootPackages_answers {root : ResolutionRoot}
    (h : RootsOf roots plan.optionalRootNames (rootPackages root)) :
    Answers plan roots (rootPackages root) := by
  refine ⟨h, fun name dep hdep => ?_, fun id hid => ?_⟩
  · have hvalue : dep ∈ root.dependencies.values := BTreeMap.mem_values_iff.mpr ⟨name, hdep⟩
    refine BTreeMap.mem_iff_exists.mpr ⟨_,
      (BTreeMap.getElem?_collect ?_ _ _).mpr (List.mem_map.mpr ⟨dep, hvalue, rfl⟩)⟩
    intro p hp q hq hkey
    obtain ⟨left, -, rfl⟩ := List.mem_map.mp hp
    obtain ⟨right, -, rfl⟩ := List.mem_map.mp hq
    exact congrArg (fun id => samplePackage id (id.name ++ ".tgz") ∅) hkey
  · obtain ⟨package, hpackage⟩ := BTreeMap.mem_iff_exists.mp hid
    obtain ⟨dep, hdep, hpair⟩ := List.mem_map.mp (BTreeMap.mem_of_getElem?_collect hpackage)
    obtain ⟨name, hname⟩ := BTreeMap.mem_values_iff.mp hdep
    cases hpair
    exact ⟨name, dep, hname, .refl⟩

/-- A version that is not the one of the root. -/
def otherVersion (whole : ResolutionGraph) (name : String) : PackageId :=
  ⟨name, ((whole.root.dependencies[name]?).map (·.resolved.version)).getD "" ++ "0"⟩

theorem otherVersion_ne {whole : ResolutionGraph} {name : String} {dep : RootDependency}
    (hdep : whole.root.dependencies[name]? = some dep) :
    dep.resolved ≠ otherVersion whole name := by
  intro h
  have hversion := congrArg (fun id : PackageId => id.version.length) h
  simp only [otherVersion, hdep, Option.map_some, Option.getD_some, String.length_append] at hversion
  have hone : "0".length = 1 := by decide +kernel
  omega

/-- Some resolution finds every root. -/
theorem exists_answer (plan : ProjectInstallPlan) (roots : BTreeMap String String)
    (idOf : String → PackageId) :
    ∃ graph, Answers plan roots graph ∧ ∀ (name range : String), roots[name]? = some range →
      graph.root.dependencies[name]? = some ⟨range, idOf name⟩ := by
  obtain ⟨root, hroot⟩ := resolveRootDependencies_total roots plan.optionalRootNames idOf
  refine ⟨rootPackages root, rootPackages_answers ⟨_, hroot⟩, fun name range hrange => ?_⟩
  cases (Resolve.root_of_resolveRootDependencies hroot name).2 range hrange with
  | inl hfound =>
      obtain ⟨id, hid, hdep⟩ := hfound
      cases hid
      exact hdep
  | inr hmissing =>
      obtain ⟨dependencies, hvisit, hown⟩ := Result.bind_eq_ok hroot
      cases hown
      have hentry := (BTreeMap.filterMapM_ok hvisit name).2 range hrange
      rw [Resolve.rootResult, hmissing.2] at hentry
      cases hentry

/-- Roots can be resolved to packages that a given graph lacks. -/
theorem exists_stranger (plan : ProjectInstallPlan) (roots : BTreeMap String String)
    (whole : ResolutionGraph) :
    ∃ graph, Answers plan roots graph ∧ (roots ≠ ∅ → ¬PartOf graph whole) := by
  obtain ⟨graph, hanswers, hroots⟩ := exists_answer plan roots (otherVersion whole)
  refine ⟨graph, hanswers, fun hne hpart => ?_⟩
  obtain ⟨name, hname⟩ : ∃ name : String, name ∈ roots := by
    by_contra hnone
    refine hne (Std.ExtTreeMap.ext_getElem? fun name => ?_)
    rw [Std.ExtTreeMap.getElem?_empty]
    exact Std.ExtTreeMap.getElem?_eq_none fun hname => hnone ⟨name, hname⟩
  obtain ⟨range, hrange⟩ := BTreeMap.mem_iff_exists.mp hname
  exact otherVersion_ne (hpart.roots name _ (hroots name range hrange)) rfl

end Answer

section Used

variable {config : SnpmConfig} {files after : FileView} {project : Project}
  {plan : ProjectInstallPlan} {options : InstallOptions} {lockfile : Lockfile}
  {graph : ResolutionGraph}

/-- What a scenario brings for the work it saves. -/
structure ScenarioResult.Complete (result : ScenarioResult) : Prop where
  graph : result.scenario ≠ .cold → result.graph.isSome = true
  cache : result.scenario = .warmLinkOnly ∨ result.scenario = .warmPartialCache →
    result.cacheCheck.isSome = true

theorem classify_complete {input : LayoutInput} {state : IntegrityState} {hot current : Bool} :
    ScenarioResult.Complete (classify input graph state hot current) := by
  unfold classify
  split
  next => exact ⟨fun _ => rfl, by simp⟩
  next =>
      dsimp only
      split
      next => exact ⟨fun h => absurd rfl h, by simp [ScenarioResult.cold]⟩
      next => split <;> exact ⟨fun _ => rfl, fun _ => rfl⟩

theorem detectFromGraph_complete {input : LayoutInput} {force : Bool}
    {layoutValid : Option Bool} :
    ScenarioResult.Complete (detectFromGraph H S input project graph force layoutValid) := by
  unfold detectFromGraph
  split
  next => exact ⟨fun h => absurd rfl h, by simp [ScenarioResult.cold]⟩
  next => exact classify_complete

theorem cold_complete {graph : Option ResolutionGraph} {current : Bool} :
    ScenarioResult.Complete ⟨.cold, none, graph, none, current⟩ :=
  ⟨fun h => absurd rfl h, by simp⟩

theorem scenarioOf_complete :
    ScenarioResult.Complete (scenarioOf H S config files project plan options) := by
  unfold scenarioOf
  split
  next =>
      unfold detectInstallScenario
      split
      next => exact cold_complete
      next =>
          split
          next => exact cold_complete
          next =>
              unfold detectFromRecords detectFromLockfile
              split
              next => split <;> first | exact detectFromGraph_complete | exact cold_complete
              next =>
                  split
                  next => split <;> first | exact detectFromGraph_complete | exact cold_complete
                  next =>
                      split
                      next => exact cold_complete
                      next => split <;> first | exact detectFromGraph_complete | exact cold_complete
  next => exact cold_complete

theorem loadGraph_quiet {result : ScenarioResult} (h : ScenarioResult.Complete result) :
    ∃ loaded, loadGraph (quietWorld graph after) files project plan options result = .ok loaded := by
  unfold loadGraph
  cases hscenario : result.scenario with
  | hot =>
      obtain ⟨found, hfound⟩ := Option.isSome_iff_exists.mp (h.graph (by simp [hscenario]))
      rw [hfound]
      exact ⟨_, rfl⟩
  | warmLinkOnly =>
      obtain ⟨found, hfound⟩ := Option.isSome_iff_exists.mp (h.graph (by simp [hscenario]))
      obtain ⟨cache, hcache⟩ := Option.isSome_iff_exists.mp (h.cache (.inl hscenario))
      rw [hfound, hcache]
      exact ⟨_, rfl⟩
  | warmPartialCache =>
      obtain ⟨found, hfound⟩ := Option.isSome_iff_exists.mp (h.graph (by simp [hscenario]))
      obtain ⟨cache, hcache⟩ := Option.isSome_iff_exists.mp (h.cache (.inr hscenario))
      rw [hfound, hcache]
      exact ⟨_, rfl⟩
  | cold =>
      cases hfull : options.includeDev with
      | true => simp [resolveCold, writeLockfile, quietWorld, hfull, bind, Except.bind]
      | false => simp [resolveCold, quietWorld, hfull, bind, Except.bind]

/-- In a quiet world every install finds its graph. -/
theorem exists_resolved_quiet (graph : ResolutionGraph) (after : FileView) :
    ∃ resolved, resolveInstallState H S (quietWorld graph after) config files project plan options =
      .ok resolved := by
  have hload : ∃ loaded, loadGraph (quietWorld graph after) files project plan options
      (scenarioOf H S config files project plan options) = .ok loaded :=
    loadGraph_quiet scenarioOf_complete
  obtain ⟨loaded, hloaded⟩ := hload
  have hclient : registryClient (quietWorld graph after) config
      (scenarioOf H S config files project plan options).scenario = .ok () := by
    unfold registryClient
    split <;> rfl
  have hages : ∀ found, validateAges (quietWorld graph after) config options found = .ok () := by
    intro found
    unfold validateAges
    split
    next => split <;> rfl
    next => rfl
  have himport : ∃ loaded', importLockfile (quietWorld graph after) files plan options loaded =
      .ok loaded' := by
    unfold importLockfile
    split <;> exact ⟨_, rfl⟩
  obtain ⟨loaded', himported⟩ := himport
  refine ⟨⟨(scenarioOf H S config files project plan options).scenario, loaded'.graph,
    loaded'.storePaths, (scenarioOf H S config files project plan options).integrityState,
    loaded'.wroteLockfile,
    (scenarioOf H S config files project plan options).hotInstallStateCurrent⟩, ?_⟩
  unfold resolveInstallState
  refine Result.bind_eq_ok_iff.mpr ⟨(), hclient, ?_⟩
  refine Result.bind_eq_ok_iff.mpr ⟨(), hages _, ?_⟩
  refine Result.bind_eq_ok_iff.mpr ⟨(), hages _, ?_⟩
  refine Result.bind_eq_ok_iff.mpr ⟨loaded, hloaded, ?_⟩
  exact Result.bind_eq_ok_iff.mpr ⟨loaded', himported, rfl⟩

theorem Accepted.planned (h : Accepted files plan options lockfile) :
    plannedRootDependencies files plan options = plan.rootDependencies := by
  unfold plannedRootDependencies
  rw [h.frozen, if_neg (by decide)]

theorem PartOf.refl (graph : ResolutionGraph) : PartOf graph graph :=
  ⟨fun _ _ h => h, fun _ _ h => h⟩

theorem PartOf.nothing (whole : ResolutionGraph) : PartOf nothingInstalled whole := by
  refine ⟨fun name dep h => ?_, fun id package h => ?_⟩
  · simp [nothingInstalled] at h
  · simp [nothingInstalled] at h

/-- Either nothing is resolved afresh and the record has the graph of the lockfile,
or there is nothing to resolve. -/
def GraphKept (H : Digest.Hash) (S : SemverCrate) (config : SnpmConfig) (files : FileView)
    (project : Project) (plan : ProjectInstallPlan) (options : InstallOptions)
    (lockfile : Lockfile) : Prop :=
  (Warm H S config files project plan options lockfile ∧
      (sourceRecord H S config files project plan lockfile).graph = lockfile.toGraph) ∨
    (¬Warm H S config files project plan options lockfile ∧ plan.rootDependencies = ∅ ∧
      (options.includeDev = false ∨
        files.isFile plan.lockfilePath = false ∧ lockfile.toGraph = nothingInstalled))

/-- Without a fresh resolution the record is installed, and no own lockfile is
written. -/
theorem Accepted.resolved_of_warm {world : World} {resolved : ResolvedInstall}
    (h : Accepted files plan options lockfile)
    (hwarm : Warm H S config files project plan options lockfile)
    (hresolved : resolveInstallState H S world config files project plan options = .ok resolved) :
    resolved.graph = (sourceRecord H S config files project plan lockfile).graph ∧
      (files.isFile plan.lockfilePath = true → resolved.wroteLockfile = none) := by
  obtain ⟨hscenario, -, hrest⟩ := resolveInstallState_ok hresolved
  obtain ⟨hgraph, hwrote⟩ := hrest (hscenario ▸ h.warm_iff.mpr hwarm)
  rw [h.graph_of_warm hwarm, Option.some.injEq] at hgraph
  refine ⟨hgraph.symm, fun hfile => ?_⟩
  cases hwrote with
  | inl hnone => exact hnone.1
  | inr himports =>
      rw [himports.1.missing] at hfile
      cases hfile

/-- In the cold scenario the answer of the resolution is installed, and a full
install writes it to the lockfile. -/
theorem Accepted.resolved_of_cold {world : World} {resolved : ResolvedInstall}
    (h : Accepted files plan options lockfile)
    (hcold : ¬Warm H S config files project plan options lockfile)
    (hresolved : resolveInstallState H S world config files project plan options = .ok resolved) :
    (∃ seed storePaths, world.resolve plan plan.rootDependencies options.force seed =
        .ok (resolved.graph, storePaths)) ∧
      resolved.wroteLockfile = if options.includeDev then
        some (Lockfile.ofGraph resolved.graph plan.rootSpecs.optional) else none := by
  obtain ⟨hscenario, hrest, -⟩ := resolveInstallState_ok hresolved
  have hresolve := hrest (hscenario.trans (not_not.mp (mt h.warm_iff.mp hcold)))
  rw [h.planned] at hresolve
  obtain ⟨⟨storePaths, hanswer⟩, hwrote⟩ := hresolve
  exact ⟨⟨_, storePaths, hanswer⟩, hwrote⟩

/-- A frozen install with an accepted lockfile takes the lockfile's graph and leaves
the lockfile alone, whatever a resolution would answer, exactly when it resolves
nothing and the record it reads in place of the lockfile has the same graph (or there
is nothing to resolve). -/
theorem frozen_graph_kept_iff (h : Accepted files plan options lockfile) :
    (∀ (world : World) (resolved : ResolvedInstall),
        world.Resolves plan plan.rootDependencies →
        resolveInstallState H S world config files project plan options = .ok resolved →
          LockfileUsed files plan options lockfile resolved) ↔
      GraphKept H S config files project plan options lockfile := by
  constructor
  · intro hused
    obtain ⟨stranger, hanswers, hforeign⟩ :=
      exists_stranger plan plan.rootDependencies lockfile.toGraph
    have hquiet : (quietWorld stranger emptyView).Resolves plan plan.rootDependencies := by
      intro force seed graph storePaths hresolve
      cases hresolve
      exact hanswers
    have hinstalls : ∃ resolved, resolveInstallState H S (quietWorld stranger emptyView) config
        files project plan options = .ok resolved :=
      exists_resolved_quiet stranger emptyView
    obtain ⟨resolved, hresolved⟩ := hinstalls
    have hsame := hused _ resolved hquiet hresolved
    by_cases hwarm : Warm H S config files project plan options lockfile
    · exact .inl ⟨hwarm,
        (h.resolved_of_warm hwarm hresolved).1.symm.trans (hsame.whole hwarm.full)⟩
    · obtain ⟨⟨seed, storePaths, hanswer⟩, hwrote⟩ := h.resolved_of_cold hwarm hresolved
      cases hanswer
      have hroots : plan.rootDependencies = ∅ := by
        by_contra hne
        exact hforeign hne hsame.part
      refine .inr ⟨hwarm, hroots, ?_⟩
      cases hfull : options.includeDev with
      | false => exact .inl rfl
      | true =>
          rw [hfull, if_pos rfl] at hwrote
          refine .inr ⟨?_, ?_⟩
          · cases hfile : files.isFile plan.lockfilePath with
            | false => rfl
            | true =>
                have hnone := hsame.kept hfile
                rw [hwrote] at hnone
                cases hnone
          · rw [hroots] at hanswers
            exact (hsame.whole hfull).symm.trans hanswers.eq_nothing
  · intro hkept world resolved hworld hresolved
    cases hkept with
    | inl hwarm =>
        obtain ⟨hgraph, hwrote⟩ := h.resolved_of_warm hwarm.1 hresolved
        have hsame := hgraph.trans hwarm.2
        exact ⟨fun _ => hsame, hsame ▸ PartOf.refl _, hwrote⟩
    | inr hcold =>
        obtain ⟨hwarm, hroots, hrest⟩ := hcold
        obtain ⟨⟨seed, storePaths, hanswer⟩, hwrote⟩ := h.resolved_of_cold hwarm hresolved
        have hanswers := hworld _ _ _ _ hanswer
        rw [hroots] at hanswers
        have hnothing := hanswers.eq_nothing
        refine ⟨fun hfull => ?_, hnothing ▸ PartOf.nothing _, fun hfile => ?_⟩
        · cases hrest with
          | inl hpart =>
              rw [hpart] at hfull
              cases hfull
          | inr hempty => exact hnothing.trans hempty.2.symm
        · cases hrest with
          | inl hpart =>
              rw [hwrote, hpart]
              rfl
          | inr hempty =>
              rw [hempty.1] at hfile
              cases hfile

end Used

section Examples

def caretSpec : BTreeMap String String := BTreeMap.collect [("a", "^1.0.0")]

/-- The package `a` in one of its versions. -/
def caretGraph (version : String) : ResolutionGraph :=
  rootPackages ⟨BTreeMap.collect [("a", ⟨"^1.0.0", ⟨"a", version⟩⟩)]⟩

def caretProject : Project :=
  ⟨"/app", "/app/package.json", { Manifest.empty with dependencies := caretSpec }⟩

/-- A project whose lockfile has `a` in version 1.0.0. -/
def lockedView : FileView :=
  { emptyView with
    isFile := fun path => path = "/app/snpm-lock.yaml"
    lockfile := fun _ => .ok (Lockfile.ofGraph (caretGraph "1.0.0") ∅) }

def frozenInstall (includeDev : Bool) : InstallOptions := ⟨[], false, includeDev, .frozen, true, false⟩

def caretPlan : ProjectInstallPlan :=
  planOf lockedView caretProject [] none none ∅ ∅ ⟨caretSpec, ∅⟩

theorem prepare_caret (includeDev : Bool) :
    prepareInstallPlan releaseCrate lockedView caretProject (frozenInstall includeDev) =
      .ok caretPlan := by
  have hempty : applySpecs releaseCrate none none ∅ = .ok ∅ := by
    decide +kernel
  have hmanifest : resolveManifestSpecs releaseCrate caretProject none none =
      .ok ⟨caretSpec, ∅, ∅, ∅⟩ := by
    refine Result.bind_eq_ok_iff.mpr ⟨caretSpec, by decide +kernel, ?_⟩
    refine Result.bind_eq_ok_iff.mpr ⟨∅, hempty, ?_⟩
    refine Result.bind_eq_ok_iff.mpr ⟨∅, hempty, ?_⟩
    have hprotocols : manifestProtocols caretSpec ∪ manifestProtocols ∅ ∪ manifestProtocols ∅ =
        (∅ : BTreeMap String RegistryProtocol) := by
      decide +kernel
    rw [hprotocols]
  have hroots : ∀ includeDev, buildProjectRootSpecs caretSpec ∅ ∅ includeDev =
      ⟨caretSpec, ∅⟩ := by
    decide +kernel
  refine Result.bind_eq_ok_iff.mpr ⟨none, rfl, ?_⟩
  refine Result.bind_eq_ok_iff.mpr ⟨none, rfl, ?_⟩
  refine Result.bind_eq_ok_iff.mpr ⟨∅, rfl, ?_⟩
  refine Result.bind_eq_ok_iff.mpr ⟨_, hmanifest, ?_⟩
  exact Result.bind_eq_ok_iff.mpr ⟨_, congrArg Except.ok (hroots includeDev), rfl⟩

theorem accepted_caret (includeDev : Bool) :
    Accepted lockedView caretPlan (frozenInstall includeDev)
      (Lockfile.ofGraph (caretGraph "1.0.0") ∅) := by
  have hfile : lockedView.isFile caretPlan.lockfilePath = true := by
    decide +kernel
  refine ⟨rfl, ?_, ?_⟩
  · rw [readExistingLockfile_of_isFile hfile]
    rfl
  · have hmatch : (Lockfile.ofGraph (caretGraph "1.0.0") ∅).rootSpecsMatch caretPlan.manifestRoot
        caretPlan.rootSpecs.optional = true := by
      decide +kernel
    have hadditions : caretPlan.additions.isEmpty = true := by
      decide +kernel
    unfold validateFrozenLockfile
    rw [readExistingLockfile_of_isFile hfile]
    simp [frozenInstall, hadditions, lockedView, hmatch]

/-- A full frozen install of a project that was never installed uses the lockfile. -/
theorem frozen_graph_kept_caret :
    Accepted lockedView caretPlan (frozenInstall true)
        (Lockfile.ofGraph (caretGraph "1.0.0") ∅) ∧
      ∀ (world : World) (resolved : ResolvedInstall),
        world.Resolves caretPlan caretPlan.rootDependencies →
        resolveInstallState Digest.unaryHash releaseCrate world plainConfig lockedView caretProject
          caretPlan (frozenInstall true) = .ok resolved →
        LockfileUsed lockedView caretPlan (frozenInstall true)
          (Lockfile.ofGraph (caretGraph "1.0.0") ∅) resolved := by
  refine ⟨accepted_caret true, (frozen_graph_kept_iff (accepted_caret true)).mpr (.inl ⟨?_, rfl⟩)⟩
  have hpatches : (Linker.getPatchedDependencies caretProject).isEmpty = true := by decide +kernel
  refine ⟨rfl, rfl, ?_, ?_, .inr ?_⟩
  · exact ⟨computeLockfileHash Digest.unaryHash
      (Lockfile.ofGraph (caretGraph "1.0.0") ∅).toGraph, noPatchHash⟩
  · simp only [buildProjectIntegrityState, computeProjectPatchHash, hpatches, if_true, bind,
      Except.bind]
    rfl
  · have htarballs : ∀ package ∈
        (Lockfile.ofGraph (caretGraph "1.0.0") ∅).toGraph.packages.values,
        package.tarball ≠ "" := by
      decide +kernel
    exact fun package hpackage _ => htarballs package hpackage

/-- Without development dependencies, a frozen install takes the version published
last and not the one of the lockfile. -/
theorem frozen_resolves_without_dev :
    ¬ ∀ (world : World) (files : FileView) (project : Project) (plan : ProjectInstallPlan)
        (options : InstallOptions) (lockfile : Lockfile) (resolved : ResolvedInstall),
        prepareInstallPlan releaseCrate files project options = .ok plan →
        Accepted files plan options lockfile → world.Resolves plan plan.rootDependencies →
        resolveInstallState Digest.unaryHash releaseCrate world plainConfig files project plan
          options = .ok resolved →
        LockfileUsed files plan options lockfile resolved := by
  intro hclaim
  have hworld : (quietWorld (caretGraph "1.1.0") emptyView).Resolves caretPlan
      caretPlan.rootDependencies := by
    intro force seed graph storePaths hresolve
    cases hresolve
    refine rootPackages_answers ⟨fun name _ => .ok ⟨name, "1.1.0"⟩, ?_⟩
    decide +kernel
  have hinstalls : ∃ resolved, resolveInstallState Digest.unaryHash releaseCrate
      (quietWorld (caretGraph "1.1.0") emptyView) plainConfig lockedView caretProject caretPlan
      (frozenInstall false) = .ok resolved :=
    exists_resolved_quiet _ _
  obtain ⟨resolved, hresolved⟩ := hinstalls
  have hused := hclaim _ _ _ _ _ _ resolved (prepare_caret false) (accepted_caret false) hworld
    hresolved
  have hcold : ¬Warm Digest.unaryHash releaseCrate plainConfig lockedView caretProject caretPlan
      (frozenInstall false) (Lockfile.ofGraph (caretGraph "1.0.0") ∅) := by
    intro hwarm
    cases hwarm.full
  obtain ⟨⟨seed, storePaths, hanswer⟩, -⟩ := (accepted_caret false).resolved_of_cold hcold hresolved
  have hgraph : resolved.graph = caretGraph "1.1.0" :=
    (congrArg Prod.fst (Except.ok.inj hanswer)).symm
  have hpart := hused.part
  rw [hgraph] at hpart
  have hroot := hpart.roots "a" ⟨"^1.0.0", ⟨"a", "1.1.0"⟩⟩ (by decide +kernel)
  exact absurd hroot (by decide +kernel)

end Examples

end ProjectInstall
end Snpm.Install
