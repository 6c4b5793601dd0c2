import Mathlib
import Snpm.Resolve.Tasks
import Snpm.Resolve.Complete

/-!
What a call returns and what its request denotes. A call that goes to the
registry returns a version of the source that the request names, in the range
that the request asks for. A call that keeps an edge of the earlier graph has
compared its version with the range as it was written: overrides and aliases do
not take part in that comparison.
-/
namespace Snpm.Resolve

variable {S : SemverCrate} {ctx : ResolverContext} {call : Call}

/-- The version is in the range of the request, or is the one that the range
names as a tag. -/
def InRange (S : SemverCrate) (ctx : ResolverContext) (request : DepRequest) (version : String) :
    Prop :=
  rangeAdmits S request.range version = true ∨ ∃ package info,
    ctx.fetch request.protocol request.source = .ok package ∧
      taggedVersion request.range package = some info ∧ info.version = version

/-- The identity is one that the call asks for, after overrides and aliases. -/
structure Denotes (S : SemverCrate) (ctx : ResolverContext) (call : Call) (id : PackageId) : Prop
    where
  name : id.name = resolvedName call.name (requestFor ctx call)
  version : InRange S ctx (requestFor ctx call) id.version

/-- The call, started anywhere while any other tasks run, returns the identity. -/
def Returns (S : SemverCrate) (ctx : ResolverContext) (call : Call) (id : PackageId) : Prop :=
  ∃ (path : TaskPath) (first last : State) (events : List Event),
    first.tasks path = some ⟨call, .start⟩ ∧ Run S ctx first events last ∧
      last.tasks path = some ⟨call, .done (.ok id)⟩

/-- An edge of the earlier graph whose version is in the range as it is written
and below which nothing is missing. -/
structure Kept (S : SemverCrate) (graph : ResolutionGraph) (call : Call) (id : PackageId) : Prop
    where
  edge : seedEdge graph call = some id
  admitted : rangeAdmits S call.range id.version = true
  complete : ∀ below, StackWalk.Reaches (dependencyIds graph) id below → below ∈ graph.packages

/-- An edge that would be kept has the name and is in the range that the
request has after overrides and aliases. -/
def SeedFits (S : SemverCrate) (ctx : ResolverContext) (call : Call) : Prop :=
  ∀ graph id, ctx.existingGraph = some graph → Kept S graph call id →
    id.name = resolvedName call.name (requestFor ctx call) ∧
      InRange S ctx (requestFor ctx call) id.version

theorem rangeAdmits_iff {range version : String} : rangeAdmits S range version = true ↔
    ∃ set v, RangeSet.parse S range = .ok set ∧ parseVersion S version = .ok v ∧
      set.contains v = true := by
  unfold rangeAdmits
  split
  next set v hset hv =>
      constructor
      · exact fun h => ⟨set, v, hset, hv, h⟩
      · rintro ⟨set', v', hset', hv', h⟩
        rw [hset] at hset'
        rw [hv] at hv'
        cases hset'
        cases hv'
        exact h
  next hnone =>
      constructor
      · exact fun h => absurd h Bool.false_ne_true
      · rintro ⟨set, v, hset, hv, -⟩
        exact absurd hv (hnone set v hset)

theorem seededDependencyId_eq_some_iff {graph : ResolutionGraph} {id : PackageId} :
    seededDependencyId S graph call = some id ↔
      seedEdge graph call = some id ∧ rangeAdmits S call.range id.version = true := by
  constructor
  · intro h
    obtain ⟨seed, hseed, h⟩ := Option.bind_eq_some_iff.mp h
    obtain ⟨ranges, hranges, h⟩ := Option.bind_eq_some_iff.mp h
    obtain ⟨version, hversion, h⟩ := Option.bind_eq_some_iff.mp h
    split at h
    next hcontains =>
        cases h
        refine ⟨hseed, rangeAdmits_iff.mpr ⟨ranges, version, ?_, ?_, hcontains⟩⟩
        · exact parse_of_parseRangeSet (toOption_eq_some hranges)
        · exact toOption_eq_some hversion
    next => cases h
  · rintro ⟨hedge, hadmits⟩
    obtain ⟨set, v, hset, hv, hcontains⟩ := rangeAdmits_iff.mp hadmits
    have hranges : parseRangeSet S call.name call.range = .ok set := by
      unfold parseRangeSet
      rw [hset]
    refine Option.bind_eq_some_iff.mpr ⟨id, hedge, ?_⟩
    rw [hranges, hv]
    exact if_pos hcontains

theorem seedOf_eq_some_iff {id : PackageId} : seedOf S ctx call = some id ↔
    ∃ graph, ctx.existingGraph = some graph ∧ Kept S graph call id := by
  constructor
  · intro h
    obtain ⟨graph, hgraph, h⟩ := Option.bind_eq_some_iff.mp h
    obtain ⟨seed, hseed, h⟩ := Option.bind_eq_some_iff.mp h
    split at h
    next hcomplete =>
        cases h
        obtain ⟨hedge, hadmits⟩ := seededDependencyId_eq_some_iff.mp hseed
        exact ⟨graph, hgraph, hedge, hadmits, (seededSubgraphComplete_iff graph id).mp hcomplete⟩
    next => cases h
  · rintro ⟨graph, hgraph, hkept⟩
    have hseed := seededDependencyId_eq_some_iff.mpr ⟨hkept.edge, hkept.admitted⟩
    have hcomplete := (seededSubgraphComplete_iff graph id).mpr hkept.complete
    simp only [seedOf, hgraph, hseed, Option.bind_eq_bind, Option.bind_some, if_pos hcomplete]

section Answers

variable {old phase : Phase} {event : Event} {packages after : PackageMap}
  {children : String → Option Task}

/-- A task answers with the edge it keeps or with the registry's version. -/
def Phase.Answers (S : SemverCrate) (ctx : ResolverContext) (call : Call) : Phase → Prop
  | .importing seed _ _ => seedOf S ctx call = some seed
  | .found id info | .publishing id info | .waiting id info | .failing id info _
  | .filling id info _ => resolveRequest S ctx call = .ok (id, info)
  | .done (.ok id) =>
      seedOf S ctx call = some id ∨ ∃ info, resolveRequest S ctx call = .ok (id, info)
  | _ => True

theorem Phase.Answers.moves (h : old.Answers S ctx call)
    (hmoves : Moves S ctx packages children call old event after phase) :
    phase.Answers S ctx call := by
  cases hmoves with
  | seeded hseed => exact hseed
  | importDone => exact .inl h
  | importSeen | importPresent | importNew => exact h
  | requested hrequest => exact hrequest
  | adopted | overtaken | filled => exact .inr ⟨_, h⟩
  | absent | published | collected | failed => exact h
  | _ => trivial

theorem answers_of_run {first last : State} {events : List Event} {path : TaskPath}
    (hfirst : ∀ task, first.tasks path = some task → task.phase.Answers S ctx task.call)
    (hrun : Run S ctx first events last) {task : Task} (htask : last.tasks path = some task) :
    task.phase.Answers S ctx task.call := by
  induction hrun generalizing task with
  | nil => exact hfirst task htask
  | step choice hrun hstep ih =>
      obtain ⟨⟨moved, old⟩, phase, hmoved, hmoves, htasks⟩ := moves_of_advance hstep
      rw [htasks] at htask
      rcases setTask_cases htask with ⟨hpath, rfl⟩ | ⟨name, new, -, -, rfl⟩ | ⟨-, hold⟩
      · subst hpath
        exact (ih hmoved).moves hmoves
      · trivial
      · exact ih hold

end Answers

/-- The registry's answer is what the request denotes. -/
theorem denotes_of_resolveRequest
    (hkeyed : ∀ protocol source package, ctx.fetch protocol source = .ok package → package.Keyed)
    {id : PackageId} {info : RegistryVersion} (h : resolveRequest S ctx call = .ok (id, info)) :
    Denotes S ctx call id := by
  unfold resolveRequest at h
  obtain ⟨package, hpackage, h⟩ := Result.bind_eq_ok h
  obtain ⟨selected, hselected, h⟩ := Result.bind_eq_ok h
  obtain ⟨-, -, h⟩ := Result.bind_eq_ok h
  cases h
  refine ⟨rfl, ?_⟩
  rcases selectVersion_ok hselected with htagged | ⟨ranges, key, version, hparse, hkey, hversion, hin⟩
  · exact .inr ⟨package, info, hpackage, htagged, rfl⟩
  · refine .inl (rangeAdmits_iff.mpr ⟨ranges, version, hparse, ?_, hin⟩)
    rw [hkeyed _ _ package hpackage key info hkey]
    exact hversion

section Import

variable {state : State} {path : TaskPath} {seed : PackageId}

theorem advance_of_taskStep {task : Task} (htask : state.tasks path = some task)
    {event : Event} {packages : PackageMap} {phase : Phase}
    (hstep : taskStep S ctx none state.packages (fun name => state.tasks (name :: path)) task =
      some (event, packages, phase)) :
    ∃ next, advance S ctx state ⟨path, none⟩ = some (event, next) ∧
      next.tasks path = some ⟨task.call, phase⟩ := by
  refine ⟨⟨packages, setTask state.tasks path ⟨task.call, phase⟩ (spawned event phase)⟩, ?_,
    setTask_self⟩
  unfold advance
  rw [htask, Option.bind_eq_bind, Option.bind_some, hstep]
  rfl

/-- A chain import pops what the completeness check has popped, so it ends with
its seed. -/
theorem import_run {graph : ResolutionGraph} (hgraph : ctx.existingGraph = some graph) {fuel : Nat}
    {stack seen : List PackageId}
    (hwalk : StackWalk.walk (dependencyIds graph) fuel stack seen = true)
    (htask : state.tasks path = some ⟨call, .importing seed stack seen⟩) :
    ∃ events last, Run S ctx state events last ∧
      last.tasks path = some ⟨call, .done (.ok seed)⟩ := by
  induction fuel generalizing state stack seen with
  | zero => cases hwalk
  | succ fuel ih =>
      have hcontinue : ∀ {event packages rest more},
          StackWalk.walk (dependencyIds graph) fuel rest more = true →
          importStep ctx state.packages seed stack seen =
            (event, packages, .importing seed rest more) →
          ∃ events last, Run S ctx state events last ∧
            last.tasks path = some ⟨call, .done (.ok seed)⟩ := by
        intro event packages rest more hwalk hstep
        obtain ⟨next, hadvance, hnext⟩ := advance_of_taskStep htask (congrArg some hstep)
        obtain ⟨events, last, hrun, hlast⟩ := ih hwalk hnext
        exact ⟨event :: events, last, hrun.cons hadvance, hlast⟩
      cases stack with
      | nil =>
          have hstep : taskStep S ctx none state.packages (fun name => state.tasks (name :: path))
              ⟨call, .importing seed [] seen⟩ = some (.internal, state.packages, .done (.ok seed)) :=
            rfl
          obtain ⟨next, hadvance, hnext⟩ := advance_of_taskStep htask hstep
          exact ⟨_, next, .step _ (.nil state) hadvance, hnext⟩
      | cons current stack =>
          rw [StackWalk.walk] at hwalk
          by_cases hseen : current ∈ seen
          · rw [if_pos hseen] at hwalk
            exact hcontinue hwalk (if_pos hseen)
          · rw [if_neg hseen] at hwalk
            cases hpackage : graph.packages[current]? with
            | none =>
                rw [dependencyIds, hpackage] at hwalk
                cases hwalk
            | some package =>
                rw [dependencyIds, hpackage] at hwalk
                have hstep : importStep ctx state.packages seed (current :: stack) seen =
                    (if state.packages.contains package.id then .internal else .imported package.id,
                      insertIfMissing state.packages package, .importing seed
                        (package.dependencies.values.reverse ++ stack) (current :: seen)) := by
                  rw [importStep, if_neg hseen, hgraph, Option.bind_some, hpackage]
                exact hcontinue hwalk hstep

/-- A call returns the edge it keeps. -/
theorem returns_of_seedOf (h : seedOf S ctx call = some seed) : Returns S ctx call seed := by
  obtain ⟨graph, hgraph, hkept⟩ := seedOf_eq_some_iff.mp h
  let first : State := ⟨∅, fun path => if path = [call.name] then some ⟨call, .start⟩ else none⟩
  have hfirst : first.tasks [call.name] = some ⟨call, .start⟩ := if_pos rfl
  have hstep : taskStep S ctx none first.packages (fun name => first.tasks (name :: [call.name]))
      ⟨call, .start⟩ = some (.internal, first.packages, .importing seed [seed] []) := by
    unfold taskStep
    simp only [h]
  obtain ⟨next, hadvance, hnext⟩ := advance_of_taskStep hfirst hstep
  obtain ⟨events, last, hrun, hlast⟩ := import_run hgraph
    ((seededSubgraphComplete_iff graph seed).mpr hkept.complete) hnext
  exact ⟨[call.name], first, last, _, hfirst, hrun.cons hadvance, hlast⟩

end Import

/-- A registry with two versions of `lodash`, the earlier one of which is in
the graph; the override asks for the later one. -/
def overriddenLodash (override : Option String) : ResolverContext where
  minAgeDays := none
  force := false
  overrides := override.map fun spec => BTreeMap.collect [("lodash", spec)]
  workspaceSources := none
  existingGraph := some ⟨⟨BTreeMap.collect [("lodash", ⟨"^4.17.0", ⟨"lodash", "4.17.20"⟩⟩)]⟩,
    BTreeMap.collect [(⟨"lodash", "4.17.20"⟩,
      buildPlaceholder ⟨"lodash", "4.17.20"⟩ { sampleVersion [] with version := "4.17.20" })]⟩
  platform := ⟨"linux", "x64", "glibc"⟩
  ageOf _ := none
  fetch _ source :=
    if source = "lodash" then
      .ok ⟨BTreeMap.collect [("4.17.20", { sampleVersion [] with version := "4.17.20" }),
        ("4.17.21", { sampleVersion [] with version := "4.17.21" })], ∅, ∅⟩
    else .error (.resolutionFailed source "" "not found")

def lodashCall : Call := ⟨"lodash", "^4.17.0", .npm, none⟩

theorem overriddenLodash_keyed (override : Option String) : ∀ protocol source package,
    (overriddenLodash override).fetch protocol source = .ok package → package.Keyed := by
  intro protocol source package hpackage key info hkey
  unfold overriddenLodash at hpackage
  simp only at hpackage
  split at hpackage
  next =>
      cases hpackage
      have hmem := BTreeMap.mem_of_getElem?_collect hkey
      simp only [List.mem_cons, Prod.mk.injEq, List.not_mem_nil, or_false] at hmem
      rcases hmem with ⟨rfl, rfl⟩ | ⟨rfl, rfl⟩
      · rfl
      · rfl
  next => cases hpackage

end Snpm.Resolve
