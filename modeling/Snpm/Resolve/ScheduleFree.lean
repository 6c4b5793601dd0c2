import Mathlib
import Snpm.Resolve.Asked

/-!
The graph does not depend on the order of the tasks. A resolution without an
earlier graph whose fetches succeed records, for each identity that is answered
to a request, the metadata of the answer with an edge for every dependency that
is answered itself. Two things can break this: one identity with two sets of
metadata, and a package that is removed because a dependency of it failed.
-/
namespace Snpm.Resolve

variable {S : SemverCrate} {ctx : ResolverContext} {rootDeps : BTreeMap String String}
  {rootProtocols : BTreeMap String RegistryProtocol}

section Steady

variable (S : SemverCrate) (ctx : ResolverContext)

/-- A run in which no fetch fails on the way to the registry. -/
inductive SteadyRun : State → List Event → State → Prop where
  | nil (state : State) : SteadyRun state [] state
  | step {first last next : State} {events : List Event} {event : Event} (path : TaskPath) :
      SteadyRun first events last → advance S ctx last ⟨path, none⟩ = some (event, next) →
        SteadyRun first (events ++ [event]) next

variable (rootDeps : BTreeMap String String) (rootProtocols : BTreeMap String RegistryProtocol)

def ResolvesSteadily (optionalRootNames : BTreeSet String) (events : List Event)
    (graph : ResolutionGraph) : Prop :=
  ∃ (state : State) (result : String → Result PackageId),
    SteadyRun S ctx (initial rootDeps rootProtocols) events state ∧
    (∀ name ∈ rootDeps, state.rootResult name = some (result name)) ∧
    resolveRootDependencies rootDeps optionalRootNames (fun name _ => result name) =
      .ok graph.root ∧
    graph.packages = state.packages

/-- No two answers give one identity different metadata. -/
def OneMetadata : Prop :=
  ∀ id info info', Answered S ctx rootDeps rootProtocols id info →
    Answered S ctx rootDeps rootProtocols id info' → info = info'

/-- What the request of a task resolves to. -/
def answerOf (call : Call) : Result PackageId :=
  (resolveRequest S ctx call).map (·.1)

def RequiredAnswered (id : PackageId) (info : RegistryVersion) : Prop :=
  ∀ (name : String) call, (requiredCalls id info)[name]? = some call →
    ∃ target, answerOf S ctx call = .ok target

/-- The edges to the dependencies that are answered. -/
def edgesOf (id : PackageId) (info : RegistryVersion) : BTreeMap String PackageId :=
  (childCalls id info).filterMap fun _ call => (answerOf S ctx call).toOption

def recordOf (id : PackageId) (info : RegistryVersion) : ResolvedPackage :=
  setDependencies (edgesOf S ctx id info) (buildPlaceholder id info)

end Steady

theorem SteadyRun.run {first last : State} {events : List Event}
    (h : SteadyRun S ctx first events last) : Run S ctx first events last := by
  induction h with
  | nil => exact .nil _
  | step path _ hstep ih => exact .step ⟨path, none⟩ ih hstep

section Collect

variable {id : PackageId} {info : RegistryVersion} {result : String → Result PackageId}

/-- A dependency that is required is not declared optional as well. -/
theorem optionalCalls_required {name : String} {call : Call}
    (h : (requiredCalls id info)[name]? = some call) : (optionalCalls id info)[name]? = none := by
  rw [requiredCalls, Std.ExtTreeMap.getElem?_map, requiredDependencies,
    Std.ExtTreeMap.getElem?_filter'] at h
  obtain ⟨range, hrange, -⟩ := Option.map_eq_some_iff.mp h
  have hboth := (Option.filter_eq_some_iff.mp hrange).2
  simp only [Bool.and_eq_true, Bool.not_eq_true'] at hboth
  rw [optionalCalls, Std.ExtTreeMap.getElem?_map, optionalDependencies,
    Std.ExtTreeMap.getElem?_filter',
    Std.ExtTreeMap.getElem?_eq_none_of_contains_eq_false hboth.2]
  rfl

theorem childCalls_required {name : String} {call : Call}
    (h : (requiredCalls id info)[name]? = some call) :
    (childCalls id info)[name]? = some call := by
  rw [childCalls, Std.ExtTreeMap.getElem?_union, optionalCalls_required h, h]
  rfl

/-- The required dependencies all have results, and the edges are the results
there are. -/
theorem collectDependencies_exact {dependencies : BTreeMap String PackageId}
    (h : collectDependencies id info result = .ok dependencies) :
    (∀ name ∈ requiredCalls id info, ∃ target, result name = .ok target) ∧
      dependencies = (childCalls id info).filterMap fun name _ => (result name).toOption := by
  obtain ⟨required, hrequired, h⟩ := Result.bind_eq_ok h
  cases h
  have hvisit := BTreeMap.filterMapM_ok hrequired
  have hresult : ∀ (name : String) (call : Call), (requiredCalls id info)[name]? = some call →
      ∃ target, result name = .ok target ∧ required[name]? = some target := by
    intro name call hcall
    have hname := (hvisit name).2 call hcall
    cases htarget : result name with
    | error error =>
        rw [htarget] at hname
        cases hname
    | ok target =>
        rw [htarget] at hname
        exact ⟨target, rfl, (Except.ok.inj hname).symm⟩
  constructor
  · intro name hname
    obtain ⟨call, hcall⟩ := BTreeMap.mem_iff_exists.mp hname
    obtain ⟨target, htarget, -⟩ := hresult name call hcall
    exact ⟨target, htarget⟩
  · apply Std.ExtTreeMap.ext_getElem?
    intro name
    rw [Std.ExtTreeMap.getElem?_filterMap', childCalls, Std.ExtTreeMap.getElem?_union,
      Std.ExtTreeMap.getElem?_union, Std.ExtTreeMap.getElem?_filterMap']
    cases hcall : (requiredCalls id info)[name]? with
    | none =>
        rw [(hvisit name).1 hcall, Option.or_none, Option.or_none]
    | some call =>
        obtain ⟨target, htarget, hkept⟩ := hresult name call hcall
        rw [optionalCalls_required hcall, hkept, Option.bind_none, Option.none_or, Option.none_or,
          Option.bind_some, htarget]
        rfl

/-- A visit succeeds when each of its entries does. -/
theorem filterMapM_total {V W : Type} {visit : String → V → Result (Option W)}
    {m : BTreeMap String V} (h : ∀ (k : String) v, m[k]? = some v → ∃ w, visit k v = .ok w) :
    ∃ r, BTreeMap.filterMapM visit m = .ok r := by
  have hfold : ∀ (l : List (String × V)) (acc : BTreeMap String W),
      (∀ p ∈ l, ∃ w, visit p.1 p.2 = .ok w) →
        ∃ r, l.foldlM (BTreeMap.filterMapStep visit) acc = .ok r := by
    intro l
    induction l with
    | nil => exact fun acc _ => ⟨acc, rfl⟩
    | cons p l ih =>
        intro acc hall
        obtain ⟨w, hw⟩ := hall p List.mem_cons_self
        obtain ⟨next, hnext⟩ : ∃ next, BTreeMap.filterMapStep visit acc p = .ok next := by
          rw [BTreeMap.filterMapStep, hw]
          cases w with
          | none => exact ⟨acc, rfl⟩
          | some w => exact ⟨acc.insert p.1 w, rfl⟩
        rw [List.foldlM_cons, hnext]
        exact ih next fun q hq => hall q (List.mem_cons_of_mem _ hq)
  exact hfold m.toList ∅ fun p hp => h p.1 p.2 (Std.ExtTreeMap.mem_toList_iff_getElem?_eq_some.mp hp)

/-- Only a required dependency without a result makes the collection fail. -/
theorem collectDependencies_total
    (h : ∀ name ∈ requiredCalls id info, ∃ target, result name = .ok target) :
    ∃ dependencies, collectDependencies id info result = .ok dependencies := by
  have hvisit : ∀ (name : String) call, (requiredCalls id info)[name]? = some call →
      ∃ kept, (fun name (_ : Call) => (result name).map some) name call = .ok kept := by
    intro name call hcall
    obtain ⟨target, htarget⟩ := h name (BTreeMap.mem_iff_exists.mpr ⟨call, hcall⟩)
    exact ⟨some target, congrArg (Except.map some) htarget⟩
  obtain ⟨required, hrequired⟩ := filterMapM_total hvisit
  exact ⟨_, Result.bind_eq_ok_iff.mpr ⟨required, hrequired, rfl⟩⟩

end Collect

section Settled

variable (S : SemverCrate) (ctx : ResolverContext) (rootDeps : BTreeMap String String)
  (rootProtocols : BTreeMap String RegistryProtocol)

/-- What a phase says about the answers, before any package was removed. -/
def Phase.Settled (call : Call) : Phase → Prop
  | .importing _ _ _ => False
  | .filling id info dependencies =>
      RequiredAnswered S ctx id info ∧ dependencies = edgesOf S ctx id info
  | .done result => result = answerOf S ctx call
  | _ => True

structure Settled (state : State) : Prop where
  tasks : ∀ path task, state.tasks path = some task → task.phase.Settled S ctx task.call
  records : ∀ (id : PackageId) package, state.packages[id]? = some package →
    (∃ path task info, state.tasks path = some task ∧ task.phase.owned = some (id, info)) ∨
      ∃ info, Answered S ctx rootDeps rootProtocols id info ∧ RequiredAnswered S ctx id info ∧
        package = recordOf S ctx id info

variable {S ctx rootDeps rootProtocols}

theorem answerOf_ok {call : Call} {id : PackageId} {info : RegistryVersion}
    (h : resolveRequest S ctx call = .ok (id, info)) : answerOf S ctx call = .ok id := by
  rw [answerOf, h]
  rfl

variable {state : State} {path : TaskPath} {call : Call} {old phase : Phase} {event : Event}
  {after : PackageMap}

/-- The results of the children of a waiting task are the answers to their calls. -/
theorem Settled.results (hspawned : Spawned S ctx rootDeps rootProtocols state)
    (h : Settled S ctx rootDeps rootProtocols state) {id : PackageId} {info : RegistryVersion}
    (htask : state.tasks path = some ⟨call, .waiting id info⟩)
    {results : String → Result PackageId}
    (hresults : childResults (fun name => state.tasks (name :: path)) (childCalls id info) =
      some results) {name : String} {child : Call} (hchild : (childCalls id info)[name]? = some child) :
    results name = answerOf S ctx child := by
  obtain ⟨task, htaskChild, hdone⟩ :=
    childResults_some hresults (BTreeMap.mem_iff_exists.mpr ⟨child, hchild⟩)
  obtain ⟨found, hfound⟩ := hspawned.children path call id info htask name child hchild
  rw [hfound] at htaskChild
  cases htaskChild
  have hsettled := h.tasks (name :: path) _ hfound
  cases found with
  | done result =>
      cases hdone
      exact hsettled
  | _ => cases hdone

/-- What collecting the results gives. -/
theorem Settled.collected (hspawned : Spawned S ctx rootDeps rootProtocols state)
    (h : Settled S ctx rootDeps rootProtocols state) {id : PackageId} {info : RegistryVersion}
    (htask : state.tasks path = some ⟨call, .waiting id info⟩)
    {results : String → Result PackageId}
    (hresults : childResults (fun name => state.tasks (name :: path)) (childCalls id info) =
      some results) {dependencies : BTreeMap String PackageId}
    (hcollect : collectDependencies id info results = .ok dependencies) :
    RequiredAnswered S ctx id info ∧ dependencies = edgesOf S ctx id info := by
  obtain ⟨hrequired, hedges⟩ := collectDependencies_exact hcollect
  constructor
  · intro name child hchild
    obtain ⟨target, htarget⟩ := hrequired name (BTreeMap.mem_iff_exists.mpr ⟨child, hchild⟩)
    rw [h.results hspawned htask hresults (childCalls_required hchild)] at htarget
    exact ⟨target, htarget⟩
  · rw [hedges, edgesOf]
    apply Std.ExtTreeMap.ext_getElem?
    intro name
    rw [Std.ExtTreeMap.getElem?_filterMap', Std.ExtTreeMap.getElem?_filterMap']
    cases hchild : (childCalls id info)[name]? with
    | none => rfl
    | some child =>
        rw [Option.bind_some, Option.bind_some, h.results hspawned htask hresults hchild]

/-- A failing request leaves the error of the registry, when the fetch is steady. -/
theorem request_settled {packages : PackageMap} {children : String → Option Task}
    (h : taskStep S ctx none packages children ⟨call, .requesting⟩ = some (event, after, phase)) :
    phase.Settled S ctx call := by
  simp only [taskStep, requestStep, Option.some.injEq, Prod.mk.injEq] at h
  obtain ⟨-, -, hphase⟩ := h
  rw [← hphase]
  cases hrequest : resolveRequest S ctx call with
  | error error =>
      simp only [Phase.Settled, answerOf, hrequest]
      rfl
  | ok answer => trivial

variable (hfresh : ctx.existingGraph = none) (hinv : Inv S ctx state)
  (hspawned : Spawned S ctx rootDeps rootProtocols state)
  (h : Settled S ctx rootDeps rootProtocols state)
  (htask : state.tasks path = some ⟨call, old⟩)
  (hstep : taskStep S ctx none state.packages (fun name => state.tasks (name :: path))
    ⟨call, old⟩ = some (event, after, phase))
  (hkept : ∀ id, event ≠ .removed id)
include hfresh hspawned h htask hstep hkept

theorem Settled.mover : phase.Settled S ctx call := by
  have hold := h.tasks path _ htask
  have hanswered := fun answer => hspawned.answered path ⟨call, old⟩ answer htask
  have hmoves : Moves S ctx state.packages (fun name => state.tasks (name :: path)) call old event
      after phase := moves_of_taskStep hstep
  cases hmoves with
  | seeded hseed =>
      rw [seedOf, hfresh] at hseed
      cases hseed
  | requestFailed => exact request_settled hstep
  | requested => trivial
  | adopted hmem => exact (answerOf_ok (hanswered _ rfl)).symm
  | overtaken hmem => exact (answerOf_ok (hanswered _ rfl)).symm
  | collected hresults hcollect => exact h.collected hspawned htask hresults hcollect
  | @removed id => exact absurd rfl (hkept id)
  | filled => exact (answerOf_ok (hanswered _ rfl)).symm
  | importDone => exact hold.elim
  | importSeen => exact hold.elim
  | importMissing => exact hold.elim
  | importPresent => exact hold.elim
  | importNew => exact hold.elim
  | _ => trivial

omit hfresh in
include hinv in
theorem Settled.records_step {id : PackageId} {package : ResolvedPackage}
    (hid : after[id]? = some package) :
    (∃ other task info,
      setTask state.tasks path ⟨call, phase⟩ (spawned event phase) other = some task ∧
        task.phase.owned = some (id, info)) ∨
      ∃ info, Answered S ctx rootDeps rootProtocols id info ∧ RequiredAnswered S ctx id info ∧
        package = recordOf S ctx id info := by
  have hmoves : Moves S ctx state.packages (fun name => state.tasks (name :: path)) call old event
      after phase := moves_of_taskStep hstep
  -- an owner other than the task that moves stays one
  have hbefore : ∀ {found : ResolvedPackage}, state.packages[id]? = some found →
      (old.owned = phase.owned ∨ ∀ info, old.owned ≠ some (id, info)) →
      (∃ other task info,
        setTask state.tasks path ⟨call, phase⟩ (spawned event phase) other = some task ∧
          task.phase.owned = some (id, info)) ∨
        ∃ info, Answered S ctx rootDeps rootProtocols id info ∧ RequiredAnswered S ctx id info ∧
          found = recordOf S ctx id info := by
    intro found hfound hkeep
    rcases h.records id found hfound with ⟨other, task, info, hother, howned⟩ | hrecord
    · refine .inl ?_
      by_cases hpath : other = path
      · subst hpath
        rw [htask] at hother
        cases hother
        rcases hkeep with hsame | hforeign
        · exact ⟨other, _, info, setTask_self, hsame ▸ howned⟩
        · exact absurd howned (hforeign info)
      · exact ⟨other, task, info, hinv.frame htask hmoves hpath hother, howned⟩
    · exact .inr hrecord
  have hold : old.Settled S ctx call := h.tasks path _ htask
  clear hstep
  cases hmoves with
  | importNew => exact False.elim hold
  | @published own info hmem =>
      rw [BTreeMap.getElem?_insert_self_or] at hid
      split at hid
      next heq =>
          subst heq
          exact .inl ⟨path, _, info, setTask_self, rfl⟩
      next => exact hbefore hid (.inr fun info => (Option.some_ne_none _).symm)
  | @removed own => exact absurd rfl (hkept own)
  | @filled own info dependencies =>
      rw [getElem?_updateDependencies] at hid
      split at hid
      next heq =>
          subst heq
          rw [hinv.placeholder path _ own info htask rfl, Option.map_some, Option.some.injEq] at hid
          obtain ⟨hrequired, hedges⟩ := hold
          have hanswered : Answered S ctx rootDeps rootProtocols own info :=
            ⟨call, hspawned.asked path _ htask,
              hspawned.answered path ⟨call, .filling own info dependencies⟩ (own, info) htask rfl⟩
          have hrecord : package = recordOf S ctx own info := by
            rw [recordOf, ← hedges]
            exact hid.symm
          exact .inr ⟨info, hanswered, hrequired, hrecord⟩
      next hne =>
          refine hbefore hid (.inr fun info' howned => hne ?_)
          cases howned
          rfl
  | _ => exact hbefore hid (.inl rfl)

end Settled

section Runs

variable {events : List Event} {state : State}

theorem Settled.initial : Settled S ctx rootDeps rootProtocols
    (initial rootDeps rootProtocols) := by
  constructor
  · intro path task htask
    obtain ⟨name, -, hphase⟩ := initial_tasks htask
    rw [hphase]
    trivial
  · intro id package hid
    rw [Resolve.initial, Std.ExtTreeMap.getElem?_empty] at hid
    cases hid

theorem Settled.step (hfresh : ctx.existingGraph = none) {next : State} {path : TaskPath}
    {event : Event} (hinv : Inv S ctx state) (hspawned : Spawned S ctx rootDeps rootProtocols state)
    (h : Settled S ctx rootDeps rootProtocols state)
    (hstep : advance S ctx state ⟨path, none⟩ = some (event, next))
    (hkept : ∀ id, event ≠ .removed id) : Settled S ctx rootDeps rootProtocols next := by
  obtain ⟨⟨call, old⟩, after, phase, htask, htaskStep, hnext⟩ := taskStep_of_advance hstep
  subst hnext
  constructor
  · intro other task hfound
    rcases setTask_cases hfound with ⟨-, hmoved⟩ | ⟨name, new, -, -, hmoved⟩ | ⟨-, hold⟩
    · subst hmoved
      exact h.mover hfresh hspawned htask htaskStep hkept
    · subst hmoved
      trivial
    · exact h.tasks other task hold
  · exact fun id package hid => h.records_step hinv hspawned htask htaskStep hkept hid

/-- As long as nothing was removed, the map holds placeholders and answers. -/
theorem Settled.run (hfresh : ctx.existingGraph = none)
    (hrun : SteadyRun S ctx (Resolve.initial rootDeps rootProtocols) events state)
    (hkept : ∀ id, .removed id ∉ events) : Settled S ctx rootDeps rootProtocols state := by
  generalize hfirst : Resolve.initial rootDeps rootProtocols = first at hrun
  induction hrun with
  | nil =>
      subst hfirst
      exact Settled.initial
  | @step last next events event path hrun hstep ih =>
      subst hfirst
      refine (ih fun id hid => hkept id (List.mem_append_left _ hid)).step hfresh
        ((Inv.initial rootDeps rootProtocols).run hrun.run) (Spawned.run hrun.run) hstep ?_
      intro id hid
      exact hkept id (List.mem_append_right _ (hid ▸ List.mem_singleton_self event))

/-- A task only fails for a required dependency that is not answered. -/
theorem not_failing_of_answered (hanswered : ∀ id info,
      Answered S ctx rootDeps rootProtocols id info → RequiredAnswered S ctx id info)
    (hspawned : Spawned S ctx rootDeps rootProtocols state)
    (h : Settled S ctx rootDeps rootProtocols state) {path : TaskPath} {call : Call}
    {id : PackageId} {info : RegistryVersion}
    (htask : state.tasks path = some ⟨call, .waiting id info⟩) {event : Event} {after : PackageMap}
    {phase : Phase}
    (hstep : taskStep S ctx none state.packages (fun name => state.tasks (name :: path))
      ⟨call, .waiting id info⟩ = some (event, after, phase)) :
    ∃ dependencies, phase = .filling id info dependencies := by
  obtain ⟨results, hresults, heq⟩ := Option.map_eq_some_iff.mp hstep
  have hanswer : Answered S ctx rootDeps rootProtocols id info :=
    ⟨call, hspawned.asked path _ htask,
      hspawned.answered path ⟨call, .waiting id info⟩ (id, info) htask rfl⟩
  obtain ⟨dependencies, hcollect⟩ : ∃ dependencies,
      collectDependencies id info results = .ok dependencies := by
    apply collectDependencies_total
    intro name hname
    obtain ⟨child, hchild⟩ := BTreeMap.mem_iff_exists.mp hname
    obtain ⟨target, htarget⟩ := hanswered id info hanswer name child hchild
    exact ⟨target, (h.results hspawned htask hresults (childCalls_required hchild)).trans htarget⟩
  simp only [hcollect, Prod.mk.injEq] at heq
  exact ⟨dependencies, heq.2.2.symm⟩

/-- When every required dependency is answered, nothing is ever removed. -/
theorem kept_of_answered (hfresh : ctx.existingGraph = none) (hanswered : ∀ id info,
      Answered S ctx rootDeps rootProtocols id info → RequiredAnswered S ctx id info)
    (hrun : SteadyRun S ctx (Resolve.initial rootDeps rootProtocols) events state) :
    (∀ id, .removed id ∉ events) ∧ ∀ path call id info error,
      state.tasks path ≠ some ⟨call, .failing id info error⟩ := by
  generalize hfirst : Resolve.initial rootDeps rootProtocols = first at hrun
  induction hrun with
  | nil =>
      subst hfirst
      refine ⟨fun id => List.not_mem_nil, fun path call id info error htask => ?_⟩
      obtain ⟨name, -, hphase⟩ := initial_tasks htask
      cases hphase
  | @step last next events event path hrun hstep ih =>
      subst hfirst
      obtain ⟨hkept, hrunning⟩ := ih
      have hspawned : Spawned S ctx rootDeps rootProtocols last := Spawned.run hrun.run
      have hsettled : Settled S ctx rootDeps rootProtocols last := Settled.run hfresh hrun hkept
      obtain ⟨⟨call, old⟩, after, phase, htask, htaskStep, hnext⟩ := taskStep_of_advance hstep
      have hmoves := moves_of_taskStep htaskStep
      have hphase : ∀ id info error, phase ≠ .failing id info error := by
        intro id info error hfailing
        subst hfailing
        cases hmoves with
        | failed hresults =>
            obtain ⟨dependencies, hfilling⟩ :=
              not_failing_of_answered hanswered hspawned hsettled htask htaskStep
            cases hfilling
      constructor
      · intro id hmem
        rcases List.mem_append.mp hmem with hmem | hmem
        · exact hkept id hmem
        · cases List.mem_singleton.mp hmem
          cases hmoves with
          | removed => exact hrunning path call _ _ _ htask
      · intro other found id info error hfound
        subst hnext
        rcases setTask_cases hfound with ⟨-, hmoved⟩ | ⟨_, _, -, -, hmoved⟩ | ⟨-, hold⟩
        · cases hmoved
          exact hphase id info error rfl
        · cases hmoved
        · exact hrunning other found id info error hold

/-- Root tasks keep their calls. -/
theorem root_call_of_run (hrun : Run S ctx (Resolve.initial rootDeps rootProtocols) events state)
    {name : String} {task : Task} (htask : state.tasks [name] = some task) :
    ∃ range, rootDeps[name]? = some range ∧ task.call = rootCall rootProtocols name range := by
  generalize hfirst : Resolve.initial rootDeps rootProtocols = first at hrun
  induction hrun generalizing task with
  | nil =>
      subst hfirst
      obtain ⟨range, hrange, htask⟩ := Option.map_eq_some_iff.mp htask
      exact ⟨range, hrange, by rw [← htask]; rfl⟩
  | step choice hrun hstep ih =>
      subst hfirst
      obtain ⟨moved, phase, hmoved, -, htasks⟩ := moves_of_advance hstep
      rw [htasks] at htask
      rcases setTask_cases htask with ⟨hpath, htask⟩ | ⟨child, call, hpath, -, -⟩ | ⟨-, hold⟩
      · subst htask
        exact @ih moved (hpath ▸ hmoved)
      · have hnil : choice.path = [] := (List.cons.inj hpath).2.symm
        rw [hnil, ((Inv.initial rootDeps rootProtocols).run hrun).noRoot] at hmoved
        cases hmoved
      · exact ih hold

end Runs

section Graphs

variable {optionalRootNames : BTreeSet String} {events : List Event} {graph : ResolutionGraph}

theorem seedKeyed_of_fresh (hfresh : ctx.existingGraph = none) : SeedKeyed ctx := by
  intro graph hgraph
  rw [hfresh] at hgraph
  cases hgraph

/-- The roots are the results there are. -/
theorem root_exact {result : String → Result PackageId} {root : ResolutionRoot}
    (h : resolveRootDependencies rootDeps optionalRootNames (fun name _ => result name) = .ok root)
    (name : String) :
    root.dependencies[name]? = (rootDeps[name]?).bind fun range =>
      (result name).toOption.map fun id => ⟨range, id⟩ := by
  obtain ⟨dependencies, hvisit, hroot⟩ := Result.bind_eq_ok h
  cases hroot
  obtain ⟨hother, hown⟩ := BTreeMap.filterMapM_ok hvisit name
  cases hrange : rootDeps[name]? with
  | none => exact hother hrange
  | some range =>
      have hresult : rootResult (optionalRootNames.contains name) range (result name) =
          .ok dependencies[name]? := hown range hrange
      cases hid : result name with
      | ok id =>
          rw [hid, rootResult, Except.ok.injEq] at hresult
          exact hresult.symm
      | error error =>
          rw [hid, rootResult] at hresult
          split at hresult
          next => exact (Except.ok.inj hresult).symm
          next => cases hresult

/-- Every package of the graph records an answer. -/
theorem record_of_resolves (hfresh : ctx.existingGraph = none)
    (h : ResolvesSteadily S ctx rootDeps rootProtocols optionalRootNames events graph)
    (hkept : ∀ id, .removed id ∉ events) {id : PackageId} {package : ResolvedPackage}
    (hid : graph.packages[id]? = some package) :
    ∃ info, Answered S ctx rootDeps rootProtocols id info ∧ RequiredAnswered S ctx id info ∧
      package = recordOf S ctx id info := by
  obtain ⟨state, result, hrun, hroots, -, hpackages⟩ := h
  rw [hpackages] at hid
  have hsettled : Settled S ctx rootDeps rootProtocols state := Settled.run hfresh hrun hkept
  rcases hsettled.records id package hid with ⟨path, task, info, htask, howned⟩ | hrecord
  · obtain ⟨call, phase⟩ := task
    have hdone := Resolves.all_done hrun.run hroots htask
    cases phase with
    | done => cases howned
    | _ => exact absurd rfl hdone
  · exact hrecord

/-- A root task ends with the answer to the call for the root. -/
theorem root_result (hfresh : ctx.existingGraph = none) {state : State}
    {result : String → Result PackageId}
    (hrun : SteadyRun S ctx (initial rootDeps rootProtocols) events state)
    (hkept : ∀ id, .removed id ∉ events) {name range : String} (hrange : rootDeps[name]? = some range)
    (hresult : state.rootResult name = some (result name)) :
    result name = answerOf S ctx (rootCall rootProtocols name range) ∧
      ∀ id, result name = .ok id → id ∈ state.packages := by
  obtain ⟨task, htask, hdone⟩ := Option.bind_eq_some_iff.mp hresult
  obtain ⟨range', hrange', hcall⟩ := root_call_of_run hrun.run htask
  rw [hrange, Option.some.injEq] at hrange'
  subst hrange'
  have hsettled : Settled S ctx rootDeps rootProtocols state := Settled.run hfresh hrun hkept
  have hlinked : Linked ctx events state := Linked.run (seedKeyed_of_fresh hfresh) hrun.run
  have hphase := hsettled.tasks [name] task htask
  have hknown := hlinked.tasks [name] task htask
  obtain ⟨call, phase⟩ := task
  cases phase with
  | done found =>
      cases hdone
      refine ⟨hcall ▸ hphase, fun id hid => ?_⟩
      rw [hid] at hknown
      exact hknown.resolve_right (hkept id)
  | _ => cases hdone

variable (hfresh : ctx.existingGraph = none)
  (honce : OneMetadata S ctx rootDeps rootProtocols)
  (h : ResolvesSteadily S ctx rootDeps rootProtocols optionalRootNames events graph)
  (hkept : ∀ id, .removed id ∉ events)
include hfresh honce h hkept

/-- Every answer to a request is a package of the graph. -/
theorem answer_mem {call : Call} (hcall : Asked S ctx rootDeps rootProtocols call) :
    ∀ {id : PackageId} {info : RegistryVersion}, resolveRequest S ctx call = .ok (id, info) →
      id ∈ graph.packages := by
  have hboth := h
  obtain ⟨state, result, hrun, hroots, hroot, hpackages⟩ := hboth
  induction hcall with
  | @root name range hrange =>
      intro id info hanswer
      obtain ⟨hresult, hmem⟩ := root_result hfresh hrun hkept hrange
        (hroots name (BTreeMap.mem_iff_exists.mpr ⟨range, hrange⟩))
      rw [hpackages]
      exact hmem id (hresult.trans (answerOf_ok hanswer))
  | @dependency call child parent parentInfo name hparent hparentAnswer hchild ih =>
      intro id info hanswer
      obtain ⟨package, hpackage⟩ := BTreeMap.mem_iff_exists.mp (ih hparentAnswer)
      obtain ⟨info', hanswered, -, hrecord⟩ := record_of_resolves hfresh h hkept hpackage
      have hinfo : info' = parentInfo :=
        honce parent info' parentInfo hanswered ⟨call, hparent, hparentAnswer⟩
      have hedge : package.dependencies[name]? = some id := by
        rw [hrecord, hinfo, recordOf, setDependencies, edgesOf, Std.ExtTreeMap.getElem?_filterMap',
          hchild, Option.bind_some, answerOf_ok hanswer]
        rfl
      have hlinked : Linked ctx events state := Linked.run (seedKeyed_of_fresh hfresh) hrun.run
      rw [hpackages] at hpackage ⊢
      exact (hlinked.edges_known (fun path task => Resolves.all_done hrun.run hroots) hpackage
        hedge).resolve_right (hkept id)

theorem required_of_answered {id : PackageId} {info : RegistryVersion}
    (hanswered : Answered S ctx rootDeps rootProtocols id info) : RequiredAnswered S ctx id info := by
  have hboth := hanswered
  obtain ⟨call, hcall, hanswer⟩ := hboth
  obtain ⟨package, hpackage⟩ :=
    BTreeMap.mem_iff_exists.mp (answer_mem hfresh honce h hkept hcall hanswer)
  obtain ⟨info', hanswered', hrequired, -⟩ := record_of_resolves hfresh h hkept hpackage
  exact honce id info' info hanswered' hanswered ▸ hrequired

/-- The packages are the answers to the requests. -/
theorem packages_iff (id : PackageId) (package : ResolvedPackage) :
    graph.packages[id]? = some package ↔
      ∃ info, Answered S ctx rootDeps rootProtocols id info ∧ package = recordOf S ctx id info := by
  constructor
  · intro hid
    obtain ⟨info, hanswered, -, hrecord⟩ := record_of_resolves hfresh h hkept hid
    exact ⟨info, hanswered, hrecord⟩
  · rintro ⟨info, ⟨call, hcall, hanswer⟩, hrecord⟩
    obtain ⟨found, hfound⟩ :=
      BTreeMap.mem_iff_exists.mp (answer_mem hfresh honce h hkept hcall hanswer)
    obtain ⟨info', hanswered', -, hrecord'⟩ := record_of_resolves hfresh h hkept hfound
    rw [hfound, hrecord, hrecord', honce id info' info hanswered' ⟨call, hcall, hanswer⟩]

omit honce in
/-- The roots are the answers to the calls for them. -/
theorem root_eq (name : String) :
    graph.root.dependencies[name]? = (rootDeps[name]?).bind fun range =>
      (answerOf S ctx (rootCall rootProtocols name range)).toOption.map fun id => ⟨range, id⟩ := by
  obtain ⟨state, result, hrun, hroots, hroot, hpackages⟩ := h
  rw [root_exact hroot name]
  cases hrange : rootDeps[name]? with
  | none => rfl
  | some range =>
      obtain ⟨hresult, -⟩ := root_result hfresh hrun hkept hrange
        (hroots name (BTreeMap.mem_iff_exists.mpr ⟨range, hrange⟩))
      rw [Option.bind_some, Option.bind_some, hresult]

end Graphs

/-- When no identity has two sets of metadata, a resolution that removes
nothing fixes the graph: however its tasks had been ordered, nothing would have
been removed and the same graph would have come out. -/
theorem graph_schedule_free {optionalRootNames : BTreeSet String} {events events' : List Event}
    {graph graph' : ResolutionGraph} (hfresh : ctx.existingGraph = none)
    (honce : OneMetadata S ctx rootDeps rootProtocols)
    (h : ResolvesSteadily S ctx rootDeps rootProtocols optionalRootNames events graph)
    (hkept : ∀ id, .removed id ∉ events)
    (h' : ResolvesSteadily S ctx rootDeps rootProtocols optionalRootNames events' graph') :
    (∀ id, .removed id ∉ events') ∧ graph' = graph := by
  have hanswered : ∀ id info, Answered S ctx rootDeps rootProtocols id info →
      RequiredAnswered S ctx id info :=
    fun id info hid => required_of_answered hfresh honce h hkept hid
  have hkept' : ∀ id, .removed id ∉ events' := by
    obtain ⟨state, result, hrun, -, -, -⟩ := h'
    exact (kept_of_answered hfresh hanswered hrun).1
  refine ⟨hkept', ?_⟩
  have hroots : graph'.root.dependencies = graph.root.dependencies := by
    apply Std.ExtTreeMap.ext_getElem?
    intro name
    rw [root_eq hfresh h' hkept' name, root_eq hfresh h hkept name]
  have hpackages : graph'.packages = graph.packages := by
    apply Std.ExtTreeMap.ext_getElem?
    intro id
    apply Option.ext
    intro package
    rw [packages_iff hfresh honce h' hkept', packages_iff hfresh honce h hkept]
  obtain ⟨⟨roots⟩, packages⟩ := graph
  obtain ⟨⟨roots'⟩, packages'⟩ := graph'
  simp only at hroots hpackages
  rw [hroots, hpackages]

section Order

variable (S : SemverCrate) (ctx : ResolverContext) (rootDeps : BTreeMap String String)
  (rootProtocols : BTreeMap String RegistryProtocol) (optionalRootNames : BTreeSet String)

/-- The resolution whose tasks move in this order, when it is one. -/
def resolveInOrder (order : List TaskPath) : Option (List Event × ResolutionGraph) := do
  let (events, state) ← runSchedule S ctx (initial rootDeps rootProtocols)
    (order.map fun path => ⟨path, none⟩)
  if rootDeps.keys.all fun name => (state.rootResult name).isSome then
    match resolveRootDependencies rootDeps optionalRootNames fun name _ =>
        (state.rootResult name).getD (.error (.internal "dependency task has no result")) with
    | .ok root => some (events, ⟨root, state.packages⟩)
    | .error _ => none
  else none

variable {S ctx rootDeps rootProtocols optionalRootNames}

theorem SteadyRun.cons {first next last : State} {event : Event} {events : List Event}
    {path : TaskPath} (hstep : advance S ctx first ⟨path, none⟩ = some (event, next))
    (hrun : SteadyRun S ctx next events last) : SteadyRun S ctx first (event :: events) last := by
  induction hrun with
  | nil => exact .step path (.nil first) hstep
  | step path _ hlast ih => exact .step path ih hlast

theorem steadyRun_of_runSchedule {state last : State} {order : List TaskPath}
    {events : List Event}
    (h : runSchedule S ctx state (order.map fun path => ⟨path, none⟩) = some (events, last)) :
    SteadyRun S ctx state events last := by
  induction order generalizing state events with
  | nil =>
      cases h
      exact .nil _
  | cons path order ih =>
      obtain ⟨⟨event, next⟩, hstep, h⟩ := Option.bind_eq_some_iff.mp h
      obtain ⟨⟨rest, end'⟩, hrest, h⟩ := Option.bind_eq_some_iff.mp h
      cases h
      exact (ih hrest).cons hstep

theorem resolvesSteadily_of_order {order : List TaskPath} {events : List Event}
    {graph : ResolutionGraph}
    (h : resolveInOrder S ctx rootDeps rootProtocols optionalRootNames order = some (events, graph)) :
    ResolvesSteadily S ctx rootDeps rootProtocols optionalRootNames events graph := by
  obtain ⟨⟨events', state⟩, hrun, h⟩ := Option.bind_eq_some_iff.mp h
  simp only at h
  split at h
  next hall =>
      split at h
      next root hroot =>
          cases h
          refine ⟨state, _, steadyRun_of_runSchedule hrun, fun name hname => ?_, hroot, rfl⟩
          obtain ⟨result, hresult⟩ := Option.isSome_iff_exists.mp
            (List.all_eq_true.mp hall name (Std.ExtTreeMap.mem_keys.mpr hname))
          rw [hresult, Option.getD_some]
      next => cases h
  next => cases h

end Order

def Event.isRemoval : Event → Bool
  | .removed _ => true
  | _ => false

/-- A registry where `x` and `y` need `z`, and `z` needs `x`. -/
def sharedRegistry : ResolverContext :=
  { brokenCycle with
    fetch := fun _ source =>
      if source = "x" ∨ source = "y" then
        .ok ⟨BTreeMap.collect [("1.0.0", sampleVersion ["z"])], ∅, ∅⟩
      else .ok ⟨BTreeMap.collect [("1.0.0", sampleVersion ["x"])], ∅, ∅⟩ }

def sharedRoots : BTreeMap String String := BTreeMap.collect [("x", "^1.0.0"), ("y", "^1.0.0")]

def sharedCalls : List Call :=
  [⟨"x", "^1.0.0", .npm, none⟩, ⟨"y", "^1.0.0", .npm, none⟩,
    ⟨"z", "^1.0.0", .npm, some ⟨"x", "1.0.0"⟩⟩, ⟨"z", "^1.0.0", .npm, some ⟨"y", "1.0.0"⟩⟩,
    ⟨"x", "^1.0.0", .npm, some ⟨"z", "1.0.0"⟩⟩]

/-- `x` publishes `z` before `y` starts. -/
def orderByX : List TaskPath :=
  [["x"], ["x"], ["x"], ["x"], ["z", "x"], ["z", "x"], ["z", "x"], ["z", "x"], ["x", "z", "x"],
    ["x", "z", "x"], ["x", "z", "x"], ["z", "x"], ["z", "x"], ["x"], ["x"], ["y"], ["y"], ["y"],
    ["y"], ["z", "y"], ["z", "y"], ["z", "y"], ["y"], ["y"]]

/-- `y` publishes `z`, and `z` publishes `x`, before `x` starts. -/
def orderByY : List TaskPath :=
  [["y"], ["y"], ["y"], ["y"], ["z", "y"], ["z", "y"], ["z", "y"], ["z", "y"], ["x", "z", "y"],
    ["x", "z", "y"], ["x", "z", "y"], ["x", "z", "y"], ["x"], ["x"], ["x"], ["z", "x", "z", "y"],
    ["z", "x", "z", "y"], ["z", "x", "z", "y"], ["x", "z", "y"], ["x", "z", "y"], ["z", "y"],
    ["z", "y"], ["y"], ["y"]]

theorem graph_schedule_free_shared :
    ∃ events events' graph, events ≠ events' ∧
      resolveInOrder releaseCrate sharedRegistry sharedRoots ∅ ∅ orderByX = some (events, graph) ∧
      resolveInOrder releaseCrate sharedRegistry sharedRoots ∅ ∅ orderByY =
        some (events', graph) := by
  have hshown : ((resolveInOrder releaseCrate sharedRegistry sharedRoots ∅ ∅ orderByX).bind fun r =>
      (resolveInOrder releaseCrate sharedRegistry sharedRoots ∅ ∅ orderByY).map fun r' =>
        (decide (r.1 = r'.1), r.1.all fun event => !event.isRemoval)) =
          some (false, true) := by
    decide +kernel
  obtain ⟨⟨events, graph⟩, hx, hshown⟩ := Option.bind_eq_some_iff.mp hshown
  obtain ⟨⟨events', graph'⟩, hy, hshown⟩ := Option.map_eq_some_iff.mp hshown
  simp only [Prod.mk.injEq, decide_eq_false_iff_not] at hshown
  have hkept : ∀ id, .removed id ∉ events := by
    intro id hid
    have hevent := List.all_eq_true.mp hshown.2 _ hid
    cases hevent
  have hclosed : closedUnder releaseCrate sharedRegistry sharedCalls = true := by decide +kernel
  have hlisted : ((answersTo releaseCrate sharedRegistry sharedCalls).all fun answer =>
      (answersTo releaseCrate sharedRegistry sharedCalls).all fun other =>
        decide (answer.1 = other.1 → answer.2 = other.2)) = true := by
    decide +kernel
  have honce : OneMetadata releaseCrate sharedRegistry sharedRoots ∅ := by
    intro id info info' h h'
    have hboth := List.all_eq_true.mp (List.all_eq_true.mp hlisted _
      (answered_mem (by decide +kernel) hclosed h)) _ (answered_mem (by decide +kernel) hclosed h')
    exact of_decide_eq_true hboth rfl
  obtain ⟨-, hsame⟩ := graph_schedule_free rfl honce (resolvesSteadily_of_order hx) hkept
    (resolvesSteadily_of_order hy)
  exact ⟨events, events', graph, hshown.1, hx, hsame ▸ hy⟩

end Snpm.Resolve
