import Mathlib
import Snpm.Resolve.Closed

/-!
The requests a resolution makes. They start at the root dependencies, and a
request that the registry answers leads to the requests for the dependencies of
the answer. Every task of a run works on one of them, whatever the order; the
task of a published package has a task for each of its dependencies.
-/
namespace Snpm.Resolve

/-- The call for a root dependency. -/
def rootCall (rootProtocols : BTreeMap String RegistryProtocol) (name range : String) : Call :=
  ⟨name, range, (rootProtocols[name]?).getD .npm, none⟩

section Requests

variable (S : SemverCrate) (ctx : ResolverContext) (rootDeps : BTreeMap String String)
  (rootProtocols : BTreeMap String RegistryProtocol)

inductive Asked : Call → Prop where
  | root {name range : String} (h : rootDeps[name]? = some range) :
      Asked (rootCall rootProtocols name range)
  | dependency {call child : Call} {id : PackageId} {info : RegistryVersion} {name : String}
      (hcall : Asked call) (hanswer : resolveRequest S ctx call = .ok (id, info))
      (hchild : (childCalls id info)[name]? = some child) : Asked child

/-- The registry gives this answer to one of the requests. -/
def Answered (id : PackageId) (info : RegistryVersion) : Prop :=
  ∃ call, Asked S ctx rootDeps rootProtocols call ∧ resolveRequest S ctx call = .ok (id, info)

/-- The answer a phase works with. -/
def Phase.answer? : Phase → Option (PackageId × RegistryVersion)
  | .found id info | .publishing id info | .waiting id info | .failing id info _
  | .filling id info _ => some (id, info)
  | _ => none

structure Spawned (state : State) : Prop where
  asked : ∀ path task, state.tasks path = some task →
    Asked S ctx rootDeps rootProtocols task.call
  answered : ∀ path task answer, state.tasks path = some task →
    task.phase.answer? = some answer → resolveRequest S ctx task.call = .ok answer
  children : ∀ path call id info, state.tasks path = some ⟨call, .waiting id info⟩ →
    ∀ (name : String) child, (childCalls id info)[name]? = some child →
      ∃ phase, state.tasks (name :: path) = some ⟨child, phase⟩
  finite : {path | state.tasks path ≠ none}.Finite

end Requests

section Steps

variable {S : SemverCrate} {ctx : ResolverContext} {rootDeps : BTreeMap String String}
  {rootProtocols : BTreeMap String RegistryProtocol}

theorem taskStep_of_advance {state next : State} {choice : Choice} {event : Event}
    (h : advance S ctx state choice = some (event, next)) :
    ∃ task after phase, state.tasks choice.path = some task ∧
      taskStep S ctx choice.fetchError state.packages (fun name => state.tasks (name :: choice.path))
        task = some (event, after, phase) ∧
      next = ⟨after,
        setTask state.tasks choice.path ⟨task.call, phase⟩ (spawned event phase)⟩ := by
  obtain ⟨task, htask, h⟩ := Option.bind_eq_some_iff.mp h
  obtain ⟨⟨event', after, phase⟩, hstep, h⟩ := Option.bind_eq_some_iff.mp h
  cases h
  exact ⟨task, after, phase, htask, hstep, rfl⟩

theorem answer_of_owned {phase : Phase} {owned : PackageId × RegistryVersion}
    (h : phase.owned = some owned) : phase.answer? = some owned := by
  cases phase with
  | waiting => exact h
  | failing => exact h
  | filling => exact h
  | _ => cases h

/-- A move keeps the answer, or has just got it. -/
theorem answer_of_moves {packages after : PackageMap} {children : String → Option Task}
    {call : Call} {old phase : Phase} {event : Event}
    (hmoves : Moves S ctx packages children call old event after phase)
    {answer : PackageId × RegistryVersion} (h : phase.answer? = some answer) :
    resolveRequest S ctx call = .ok answer ∨ old.answer? = some answer := by
  cases hmoves with
  | requested hrequest =>
      cases h
      exact .inl hrequest
  | absent => exact .inr h
  | published => exact .inr h
  | collected => exact .inr h
  | failed => exact .inr h
  | _ => cases h

variable {state : State} {path : TaskPath} {call : Call} {old phase : Phase} {event : Event}
  {after : PackageMap}
  (hinv : Inv S ctx state) (h : Spawned S ctx rootDeps rootProtocols state)
  (htask : state.tasks path = some ⟨call, old⟩)
  (hmoves : Moves S ctx state.packages (fun name => state.tasks (name :: path)) call old event
    after phase)
include h htask hmoves

/-- New tasks are for the dependencies of an answer. -/
theorem Spawned.new_asked {name : String} {child : Call}
    (hchild : (spawned event phase)[name]? = some child) :
    Asked S ctx rootDeps rootProtocols child := by
  rcases spawned_eq_empty hmoves with hempty | ⟨id, info, hold, hphase, hevent, -, -⟩
  · rw [hempty, Std.ExtTreeMap.getElem?_empty] at hchild
    cases hchild
  · subst hold hphase hevent
    exact .dependency (h.asked path _ htask) (h.answered path _ _ htask rfl) hchild

theorem Spawned.asked_step {other : TaskPath} {found : Task}
    (hfound : setTask state.tasks path ⟨call, phase⟩ (spawned event phase) other = some found) :
    Asked S ctx rootDeps rootProtocols found.call := by
  rcases setTask_cases hfound with ⟨-, rfl⟩ | ⟨name, child, -, hchild, rfl⟩ | ⟨-, hold⟩
  · exact h.asked path ⟨call, old⟩ htask
  · exact h.new_asked htask hmoves hchild
  · exact h.asked other found hold

theorem Spawned.answered_step {other : TaskPath} {found : Task}
    {answer : PackageId × RegistryVersion}
    (hfound : setTask state.tasks path ⟨call, phase⟩ (spawned event phase) other = some found)
    (hanswer : found.phase.answer? = some answer) :
    resolveRequest S ctx found.call = .ok answer := by
  rcases setTask_cases hfound with ⟨-, rfl⟩ | ⟨name, child, -, -, rfl⟩ | ⟨-, hold⟩
  · rcases answer_of_moves hmoves hanswer with hnew | hbefore
    · exact hnew
    · exact h.answered path ⟨call, old⟩ answer htask hbefore
  · cases hanswer
  · exact h.answered other found answer hold hanswer

include hinv in
theorem Spawned.children_step {other : TaskPath} {otherCall : Call} {id : PackageId}
    {info : RegistryVersion}
    (hfound : setTask state.tasks path ⟨call, phase⟩ (spawned event phase) other =
      some ⟨otherCall, .waiting id info⟩)
    {name : String} {child : Call} (hchild : (childCalls id info)[name]? = some child) :
    ∃ found, setTask state.tasks path ⟨call, phase⟩ (spawned event phase) (name :: other) =
      some ⟨child, found⟩ := by
  rcases setTask_cases hfound with ⟨hpath, htask'⟩ | ⟨_, _, -, -, htask'⟩ | ⟨hne, hold⟩
  · -- only a publication makes a task wait
    cases htask'
    cases hmoves with
    | published hmem =>
        refine ⟨.start, ?_⟩
        subst hpath
        unfold setTask
        rw [if_neg (List.cons_ne_self name other)]
        simp only [if_true]
        rw [spawned, hchild]
  · cases htask'
  · obtain ⟨found, hfound'⟩ := h.children other otherCall id info hold name child hchild
    by_cases hpath : name :: other = path
    · subst hpath
      rw [htask] at hfound'
      cases hfound'
      exact ⟨phase, setTask_self⟩
    · exact ⟨found, hinv.frame htask hmoves hpath hfound'⟩

omit htask hmoves in
theorem Spawned.finite_step (children : BTreeMap String Call) :
    {other | setTask state.tasks path ⟨call, phase⟩ children other ≠ none}.Finite := by
  refine ((h.finite.union (Set.finite_singleton path)).union
    ((children.keys.finite_toSet).image fun name => name :: path)).subset ?_
  intro other hother
  obtain ⟨found, hfound⟩ := Option.ne_none_iff_exists'.mp hother
  rcases setTask_cases hfound with ⟨hpath, -⟩ | ⟨name, child, hpath, hchild, -⟩ | ⟨-, hold⟩
  · exact .inl (.inr hpath)
  · refine .inr ⟨name, ?_, hpath.symm⟩
    exact BTreeMap.mem_keys_iff.mpr ⟨child, hchild⟩
  · refine .inl (.inl ?_)
    exact fun hnone => Option.some_ne_none found (hold.symm.trans hnone)

end Steps

section Runs

variable {S : SemverCrate} {ctx : ResolverContext} {rootDeps : BTreeMap String String}
  {rootProtocols : BTreeMap String RegistryProtocol}

theorem Spawned.step {state next : State} {choice : Choice} {event : Event}
    (hinv : Inv S ctx state) (h : Spawned S ctx rootDeps rootProtocols state)
    (hstep : advance S ctx state choice = some (event, next)) :
    Spawned S ctx rootDeps rootProtocols next := by
  obtain ⟨⟨call, old⟩, phase, htask, hmoves, htasks⟩ := moves_of_advance hstep
  constructor
  · rw [htasks]
    exact fun path task hfound => h.asked_step htask hmoves hfound
  · rw [htasks]
    exact fun path task answer hfound hanswer => h.answered_step htask hmoves hfound hanswer
  · rw [htasks]
    exact fun path call id info hfound name child hchild =>
      h.children_step hinv htask hmoves hfound hchild
  · rw [htasks]
    exact h.finite_step _

theorem Spawned.initial : Spawned S ctx rootDeps rootProtocols
    (initial rootDeps rootProtocols) := by
  constructor
  · intro path task htask
    obtain ⟨name, hpath, -⟩ := initial_tasks htask
    subst hpath
    obtain ⟨range, hrange, htask⟩ := Option.map_eq_some_iff.mp htask
    rw [← htask]
    exact .root hrange
  · intro path task answer htask hanswer
    obtain ⟨name, -, hphase⟩ := initial_tasks htask
    rw [hphase] at hanswer
    cases hanswer
  · intro path call id info htask
    obtain ⟨name, -, hphase⟩ := initial_tasks htask
    cases hphase
  · refine ((rootDeps.keys.finite_toSet).image fun name => [name]).subset ?_
    intro path hpath
    obtain ⟨task, htask⟩ := Option.ne_none_iff_exists'.mp hpath
    obtain ⟨name, hpath, -⟩ := initial_tasks htask
    subst hpath
    obtain ⟨range, hrange, -⟩ := Option.map_eq_some_iff.mp htask
    exact ⟨name, BTreeMap.mem_keys_iff.mpr ⟨range, hrange⟩, rfl⟩

theorem Spawned.run {events : List Event} {state : State}
    (hrun : Run S ctx (Resolve.initial rootDeps rootProtocols) events state) :
    Spawned S ctx rootDeps rootProtocols state := by
  generalize hfirst : Resolve.initial rootDeps rootProtocols = first at hrun
  induction hrun with
  | nil =>
      subst hfirst
      exact Spawned.initial
  | step choice hrun hstep ih =>
      subst hfirst
      exact ih.step ((Inv.initial rootDeps rootProtocols).run hrun) hstep

end Runs

section Listed

variable (S : SemverCrate) (ctx : ResolverContext)

/-- The answers to these calls ask for nothing but these calls. -/
def closedUnder (calls : List Call) : Bool :=
  calls.all fun call =>
    match resolveRequest S ctx call with
    | .ok answer => (childCalls answer.1 answer.2).values.all calls.contains
    | .error _ => true

def answersTo (calls : List Call) : List (PackageId × RegistryVersion) :=
  calls.filterMap fun call => (resolveRequest S ctx call).toOption

variable {S ctx} {rootDeps : BTreeMap String String}
  {rootProtocols : BTreeMap String RegistryProtocol} {calls : List Call}

/-- A list of calls that is closed and has the roots has all requests. -/
theorem asked_mem (hroots : (rootDeps.toList.all fun root =>
      calls.contains (rootCall rootProtocols root.1 root.2)) = true)
    (hclosed : closedUnder S ctx calls = true) {call : Call}
    (h : Asked S ctx rootDeps rootProtocols call) : call ∈ calls := by
  induction h with
  | root hrange =>
      have hmem := List.all_eq_true.mp hroots _
        (Std.ExtTreeMap.mem_toList_iff_getElem?_eq_some.mpr hrange)
      exact List.contains_iff_mem.mp hmem
  | @dependency call child id info name hcall hanswer hchild ih =>
      have hall := List.all_eq_true.mp hclosed call ih
      simp only [hanswer] at hall
      exact List.contains_iff_mem.mp
        (List.all_eq_true.mp hall child (BTreeMap.mem_values_iff.mpr ⟨name, hchild⟩))

theorem answered_mem (hroots : (rootDeps.toList.all fun root =>
      calls.contains (rootCall rootProtocols root.1 root.2)) = true)
    (hclosed : closedUnder S ctx calls = true) {id : PackageId} {info : RegistryVersion}
    (h : Answered S ctx rootDeps rootProtocols id info) : (id, info) ∈ answersTo S ctx calls := by
  obtain ⟨call, hcall, hanswer⟩ := h
  refine List.mem_filterMap.mpr ⟨call, asked_mem hroots hclosed hcall, ?_⟩
  rw [hanswer]
  rfl

end Listed

end Snpm.Resolve
