import Mathlib
import Snpm.Resolve.Package
import Snpm.Resolve.Root

/-!
The tasks of a resolution as a state machine. Every call of `resolve_package`
is a task, the calls for the dependencies of a package are its children, and
all of them share the package map behind one lock. A step is one critical
section of one task, or the work it does between two of them, and any task that
is not blocked may take the next step; a task can find that its fetch failed
at any time. A package waits for all of its children, whatever their results.
-/
namespace Snpm.Resolve

abbrev PackageMap := BTreeMap PackageId ResolvedPackage

/-- Where a task is. The stack and the set of a chain import are its own. -/
inductive Phase where
  | start
  | importing (seed : PackageId) (stack seen : List PackageId)
  | requesting
  | found (id : PackageId) (info : RegistryVersion)
  | publishing (id : PackageId) (info : RegistryVersion)
  | waiting (id : PackageId) (info : RegistryVersion)
  | failing (id : PackageId) (info : RegistryVersion) (error : SnpmError)
  | filling (id : PackageId) (info : RegistryVersion) (dependencies : BTreeMap String PackageId)
  | done (result : Result PackageId)

structure Task where
  call : Call
  phase : Phase

/-- The names on the way from a root dependency down to a call, last one first. -/
abbrev TaskPath := List String

structure State where
  packages : PackageMap
  tasks : TaskPath → Option Task

/-- What a step does to the package map. -/
inductive Event where
  | internal
  | imported (id : PackageId)
  | published (id : PackageId)
  | filled (id : PackageId)
  | removed (id : PackageId)
deriving DecidableEq

def insertIfMissing (packages : PackageMap) (package : ResolvedPackage) : PackageMap :=
  if packages.contains package.id then packages else packages.insert package.id package

def setDependencies (dependencies : BTreeMap String PackageId) (package : ResolvedPackage) :
    ResolvedPackage :=
  { package with dependencies := dependencies }

def updateDependencies (packages : PackageMap) (id : PackageId)
    (dependencies : BTreeMap String PackageId) : PackageMap :=
  packages.modify id (setDependencies dependencies)

/-- The result of a task that is done. -/
def Task.result? (task : Task) : Option (Result PackageId) :=
  match task.phase with
  | .done result => some result
  | _ => none

/-- The calls that a package makes, by the name of the dependency. -/
def childCalls (id : PackageId) (info : RegistryVersion) : BTreeMap String Call :=
  requiredCalls id info ∪ optionalCalls id info

section Step

variable (S : SemverCrate) (ctx : ResolverContext)

/-- One pop of the chain import. -/
def importStep (packages : PackageMap) (seed : PackageId) (stack seen : List PackageId) :
    Event × PackageMap × Phase :=
  match stack with
  | [] => (.internal, packages, .done (.ok seed))
  | current :: stack =>
      if current ∈ seen then (.internal, packages, .importing seed stack seen)
      else
        match ctx.existingGraph.bind (·.packages[current]?) with
        | none => (.internal, packages, .requesting)
        | some package =>
            (if packages.contains package.id then .internal else .imported package.id,
              insertIfMissing packages package,
              .importing seed (package.dependencies.values.reverse ++ stack) (current :: seen))

def requestStep (call : Call) (fetchError : Option SnpmError) : Phase :=
  match fetchError with
  | some error => .done (.error error)
  | none =>
      match resolveRequest S ctx call with
      | .error error => .done (.error error)
      | .ok (id, info) => .found id info

/-- The results of the children, when all of them are done. -/
def childResults (children : String → Option Task) (calls : BTreeMap String Call) :
    Option (String → Result PackageId) :=
  if calls.keys.all fun name => ((children name).bind Task.result?).isSome then
    some fun name => (((children name).bind Task.result?).getD
      (.error (.internal "dependency task has no result")))
  else none

/-- What a task does next, given the package map and its children. -/
def taskStep (fetchError : Option SnpmError) (packages : PackageMap)
    (children : String → Option Task) (task : Task) : Option (Event × PackageMap × Phase) :=
  match task.phase with
  | .start =>
      some (.internal, packages,
        match seedOf S ctx task.call with
        | some seed => .importing seed [seed] []
        | none => .requesting)
  | .importing seed stack seen => some (importStep ctx packages seed stack seen)
  | .requesting => some (.internal, packages, requestStep S ctx task.call fetchError)
  | .found id info =>
      some (.internal, packages,
        if packages.contains id then .done (.ok id) else .publishing id info)
  | .publishing id info =>
      if packages.contains id then some (.internal, packages, .done (.ok id))
      else some (.published id, packages.insert id (buildPlaceholder id info), .waiting id info)
  | .waiting id info =>
      (childResults children (childCalls id info)).map fun results =>
        (.internal, packages,
          match collectDependencies id info results with
          | .ok dependencies => .filling id info dependencies
          | .error error => .failing id info error)
  | .failing id _ error => some (.removed id, packages.erase id, .done (.error error))
  | .filling id _ dependencies =>
      some (.filled id, updateDependencies packages id dependencies, .done (.ok id))
  | .done _ => none

/-- The children that a phase has just spawned. -/
def spawned : Event → Phase → BTreeMap String Call
  | .published _, .waiting id info => childCalls id info
  | _, _ => ∅

def setTask (tasks : TaskPath → Option Task) (path : TaskPath) (task : Task)
    (children : BTreeMap String Call) : TaskPath → Option Task :=
  fun other =>
    if other = path then some task
    else
      match other with
      | [] => none
      | name :: parent =>
          if parent = path then
            match children[name]? with
            | some call => some ⟨call, .start⟩
            | none => tasks other
          else tasks other

/-- A task takes a step; `fetchError` makes its fetch fail. -/
structure Choice where
  path : TaskPath
  fetchError : Option SnpmError

def advance (state : State) (choice : Choice) : Option (Event × State) := do
  let task ← state.tasks choice.path
  let (event, packages, phase) ← taskStep S ctx choice.fetchError state.packages
    (fun name => state.tasks (name :: choice.path)) task
  some (event, ⟨packages,
    setTask state.tasks choice.path ⟨task.call, phase⟩ (spawned event phase)⟩)

/-- A run: the steps that were taken, and what each did. -/
inductive Run : State → List Event → State → Prop where
  | nil (state : State) : Run state [] state
  | step {first last next : State} {events : List Event} {event : Event} (choice : Choice) :
      Run first events last → advance S ctx last choice = some (event, next) →
        Run first (events ++ [event]) next

end Step

section Schedule

variable (S : SemverCrate) (ctx : ResolverContext)

/-- Take the steps of a schedule, when all of them are possible. -/
def runSchedule (state : State) : List Choice → Option (List Event × State)
  | [] => some ([], state)
  | choice :: choices => do
      let (event, next) ← advance S ctx state choice
      let (events, last) ← runSchedule next choices
      some (event :: events, last)

variable {S ctx}

theorem Run.cons {first next last : State} {event : Event} {events : List Event} {choice : Choice}
    (hstep : advance S ctx first choice = some (event, next)) (hrun : Run S ctx next events last) :
    Run S ctx first (event :: events) last := by
  induction hrun with
  | nil => exact .step choice (.nil first) hstep
  | step choice _ hlast ih => exact .step choice ih hlast

theorem run_of_runSchedule {state last : State} {choices : List Choice} {events : List Event}
    (h : runSchedule S ctx state choices = some (events, last)) : Run S ctx state events last := by
  induction choices generalizing state events with
  | nil =>
      cases h
      exact .nil _
  | cons choice choices ih =>
      obtain ⟨⟨event, next⟩, hstep, h⟩ := Option.bind_eq_some_iff.mp h
      obtain ⟨⟨rest, end'⟩, hrest, h⟩ := Option.bind_eq_some_iff.mp h
      cases h
      exact (ih hrest).cons hstep

end Schedule

/-- All root tasks, and nothing resolved yet. -/
def initial (rootDeps : BTreeMap String String) (rootProtocols : BTreeMap String RegistryProtocol) :
    State where
  packages := ∅
  tasks path :=
    match path with
    | [name] => (rootDeps[name]?).map fun range =>
        ⟨⟨name, range, (rootProtocols[name]?).getD .npm, none⟩, .start⟩
    | _ => none

/-- The result of a root task that is done. -/
def State.rootResult (state : State) (name : String) : Option (Result PackageId) :=
  (state.tasks [name]).bind Task.result?

/-- All root tasks are done, the roots could be collected, and this is the
graph. The events are what the tasks did to the package map. -/
def Resolves (S : SemverCrate) (ctx : ResolverContext) (rootDeps : BTreeMap String String)
    (rootProtocols : BTreeMap String RegistryProtocol) (optionalRootNames : BTreeSet String)
    (events : List Event) (graph : ResolutionGraph) : Prop :=
  ∃ (state : State) (result : String → Result PackageId),
    Run S ctx (initial rootDeps rootProtocols) events state ∧
    (∀ name ∈ rootDeps, state.rootResult name = some (result name)) ∧
    resolveRootDependencies rootDeps optionalRootNames (fun name _ => result name) =
      .ok graph.root ∧
    graph.packages = state.packages

section Moves

variable {S : SemverCrate} {ctx : ResolverContext}

/-- The moves of a task, one for each way through its step. -/
inductive Moves (S : SemverCrate) (ctx : ResolverContext) (packages : PackageMap)
    (children : String → Option Task) (call : Call) :
    Phase → Event → PackageMap → Phase → Prop where
  | seeded {seed : PackageId} (h : seedOf S ctx call = some seed) :
      Moves S ctx packages children call .start .internal packages (.importing seed [seed] [])
  | unseeded : Moves S ctx packages children call .start .internal packages .requesting
  | importDone {seed : PackageId} {seen : List PackageId} :
      Moves S ctx packages children call (.importing seed [] seen) .internal packages
        (.done (.ok seed))
  | importSeen {seed current : PackageId} {stack seen : List PackageId} (h : current ∈ seen) :
      Moves S ctx packages children call (.importing seed (current :: stack) seen) .internal packages
        (.importing seed stack seen)
  | importMissing {seed current : PackageId} {stack seen : List PackageId}
      (h : ctx.existingGraph.bind (·.packages[current]?) = none) :
      Moves S ctx packages children call (.importing seed (current :: stack) seen) .internal packages
        .requesting
  | importPresent {seed current : PackageId} {stack seen : List PackageId} {graph : ResolutionGraph}
      {package : ResolvedPackage} (hgraph : ctx.existingGraph = some graph)
      (hpackage : graph.packages[current]? = some package) (h : package.id ∈ packages) :
      Moves S ctx packages children call (.importing seed (current :: stack) seen) .internal packages
        (.importing seed (package.dependencies.values.reverse ++ stack) (current :: seen))
  | importNew {seed current : PackageId} {stack seen : List PackageId} {graph : ResolutionGraph}
      {package : ResolvedPackage} (hgraph : ctx.existingGraph = some graph)
      (hpackage : graph.packages[current]? = some package) (h : package.id ∉ packages) :
      Moves S ctx packages children call (.importing seed (current :: stack) seen)
        (.imported package.id) (packages.insert package.id package)
        (.importing seed (package.dependencies.values.reverse ++ stack) (current :: seen))
  | requestFailed (error : SnpmError) :
      Moves S ctx packages children call .requesting .internal packages (.done (.error error))
  | requested {id : PackageId} {info : RegistryVersion}
      (h : resolveRequest S ctx call = .ok (id, info)) :
      Moves S ctx packages children call .requesting .internal packages (.found id info)
  | adopted {id : PackageId} {info : RegistryVersion} (h : id ∈ packages) :
      Moves S ctx packages children call (.found id info) .internal packages (.done (.ok id))
  | absent {id : PackageId} {info : RegistryVersion} :
      Moves S ctx packages children call (.found id info) .internal packages (.publishing id info)
  | overtaken {id : PackageId} {info : RegistryVersion} (h : id ∈ packages) :
      Moves S ctx packages children call (.publishing id info) .internal packages (.done (.ok id))
  | published {id : PackageId} {info : RegistryVersion} (h : id ∉ packages) :
      Moves S ctx packages children call (.publishing id info) (.published id)
        (packages.insert id (buildPlaceholder id info)) (.waiting id info)
  | collected {id : PackageId} {info : RegistryVersion} {results : String → Result PackageId}
      {dependencies : BTreeMap String PackageId}
      (hresults : childResults children (childCalls id info) = some results)
      (h : collectDependencies id info results = .ok dependencies) :
      Moves S ctx packages children call (.waiting id info) .internal packages
        (.filling id info dependencies)
  | failed {id : PackageId} {info : RegistryVersion} {results : String → Result PackageId}
      {error : SnpmError} (hresults : childResults children (childCalls id info) = some results) :
      Moves S ctx packages children call (.waiting id info) .internal packages
        (.failing id info error)
  | removed {id : PackageId} {info : RegistryVersion} {error : SnpmError} :
      Moves S ctx packages children call (.failing id info error) (.removed id)
        (packages.erase id) (.done (.error error))
  | filled {id : PackageId} {info : RegistryVersion} {dependencies : BTreeMap String PackageId} :
      Moves S ctx packages children call (.filling id info dependencies) (.filled id)
        (updateDependencies packages id dependencies) (.done (.ok id))

theorem moves_of_importStep {packages after : PackageMap} {children : String → Option Task}
    {call : Call} {seed : PackageId} {stack seen : List PackageId} {event : Event} {phase : Phase}
    (h : importStep ctx packages seed stack seen = (event, after, phase)) :
    Moves S ctx packages children call (.importing seed stack seen) event after phase := by
  cases stack with
  | nil =>
      cases h
      exact .importDone
  | cons current stack =>
      rw [importStep] at h
      by_cases hseen : current ∈ seen
      · rw [if_pos hseen] at h
        cases h
        exact .importSeen hseen
      · rw [if_neg hseen] at h
        cases hlookup : ctx.existingGraph.bind (·.packages[current]?) with
        | none =>
            rw [hlookup] at h
            cases h
            exact .importMissing hlookup
        | some package =>
            rw [hlookup] at h
            obtain ⟨graph, hgraph, hpackage⟩ := Option.bind_eq_some_iff.mp hlookup
            by_cases hmem : package.id ∈ packages
            · simp only [insertIfMissing, Std.ExtTreeMap.contains_iff_mem, if_pos hmem] at h
              cases h
              exact .importPresent hgraph hpackage hmem
            · simp only [insertIfMissing, Std.ExtTreeMap.contains_iff_mem, if_neg hmem] at h
              cases h
              exact .importNew hgraph hpackage hmem

theorem moves_of_taskStep {fetchError : Option SnpmError} {packages after : PackageMap}
    {children : String → Option Task} {task : Task} {event : Event} {phase : Phase}
    (h : taskStep S ctx fetchError packages children task = some (event, after, phase)) :
    Moves S ctx packages children task.call task.phase event after phase := by
  obtain ⟨call, old⟩ := task
  cases old with
  | start =>
      simp only [taskStep, Option.some.injEq, Prod.mk.injEq] at h
      obtain ⟨rfl, rfl, rfl⟩ := h
      cases hseed : seedOf S ctx call with
      | some seed => exact .seeded hseed
      | none => exact .unseeded
  | importing seed stack seen => exact moves_of_importStep (Option.some.inj h)
  | requesting =>
      simp only [taskStep, Option.some.injEq, Prod.mk.injEq] at h
      obtain ⟨rfl, rfl, rfl⟩ := h
      cases fetchError with
      | some error => exact .requestFailed error
      | none =>
          rw [requestStep]
          cases hrequest : resolveRequest S ctx call with
          | error error => exact .requestFailed error
          | ok found => exact .requested hrequest
  | found id info =>
      simp only [taskStep, Option.some.injEq, Prod.mk.injEq] at h
      obtain ⟨rfl, rfl, rfl⟩ := h
      by_cases hmem : id ∈ packages
      · rw [if_pos (Std.ExtTreeMap.contains_iff_mem.mpr hmem)]
        exact .adopted hmem
      · rw [if_neg (by rw [Std.ExtTreeMap.contains_iff_mem]; exact hmem)]
        exact .absent
  | publishing id info =>
      simp only [taskStep] at h
      by_cases hmem : id ∈ packages
      · rw [if_pos (Std.ExtTreeMap.contains_iff_mem.mpr hmem)] at h
        cases h
        exact .overtaken hmem
      · rw [if_neg (by rw [Std.ExtTreeMap.contains_iff_mem]; exact hmem)] at h
        cases h
        exact .published hmem
  | waiting id info =>
      obtain ⟨results, hresults, heq⟩ := Option.map_eq_some_iff.mp h
      simp only [Prod.mk.injEq] at heq
      obtain ⟨rfl, rfl, rfl⟩ := heq
      cases hcollect : collectDependencies id info results with
      | ok dependencies => exact .collected hresults hcollect
      | error error => exact .failed hresults
  | failing id info error =>
      cases h
      exact .removed
  | filling id info dependencies =>
      cases h
      exact .filled
  | done result => cases h

theorem moves_of_advance {state next : State} {choice : Choice} {event : Event}
    (h : advance S ctx state choice = some (event, next)) :
    ∃ task phase, state.tasks choice.path = some task ∧
      Moves S ctx state.packages (fun name => state.tasks (name :: choice.path)) task.call
        task.phase event next.packages phase ∧
      next.tasks = setTask state.tasks choice.path ⟨task.call, phase⟩ (spawned event phase) := by
  obtain ⟨task, htask, h⟩ := Option.bind_eq_some_iff.mp h
  obtain ⟨⟨event', after, phase⟩, hstep, h⟩ := Option.bind_eq_some_iff.mp h
  cases h
  exact ⟨task, phase, htask, moves_of_taskStep hstep, rfl⟩

end Moves

end Snpm.Resolve
