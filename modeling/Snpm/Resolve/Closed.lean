import Mathlib
import Snpm.Lockfile.RoundTrip
import Snpm.Resolve.Complete

/-!
Where the edges of a resolved graph lead. A task takes an edge to a package as
soon as it is published, and a package is removed again when its own
dependencies fail; so an edge leads to a package of the graph or to one that
was removed while the resolution ran. Without removals the graph is closed.
-/
namespace Snpm.Resolve

variable {S : SemverCrate} {ctx : ResolverContext}

/-- Every root and every edge names a package of the graph, or one that the
predicate excuses. -/
structure ClosedUpTo (excused : PackageId → Prop) (graph : ResolutionGraph) : Prop where
  roots : ∀ (name : String) dep, graph.root.dependencies[name]? = some dep →
    dep.resolved ∈ graph.packages ∨ excused dep.resolved
  edges : ∀ (id : PackageId) package, graph.packages[id]? = some package →
    ∀ (name : String) target, package.dependencies[name]? = some target →
      target ∈ graph.packages ∨ excused target

/-- The earlier graph is keyed by identity. -/
def SeedKeyed (ctx : ResolverContext) : Prop :=
  ∀ graph, ctx.existingGraph = some graph →
    ∀ (key : PackageId) package, graph.packages[key]? = some package → package.id = key

/-- The package is there, or was and has been removed. -/
def Known (events : List Event) (packages : PackageMap) (id : PackageId) : Prop :=
  id ∈ packages ∨ .removed id ∈ events

/-- A chain import walks below its seed in an earlier graph that is complete
there, and what it has seen is in the map. -/
structure ImportSound (ctx : ResolverContext) (events : List Event) (packages : PackageMap)
    (seed : PackageId) (stack seen : List PackageId) : Prop where
  complete : ∃ graph, ctx.existingGraph = some graph ∧
    seededSubgraphComplete graph seed = true ∧
    ∀ id ∈ stack, StackWalk.Reaches (dependencyIds graph) seed id
  seed_known : Known events packages seed ∨ seed ∈ stack
  seen_known : ∀ id ∈ seen, Known events packages id

/-- What the phases of the tasks know about other packages. -/
def Phase.Linked (ctx : ResolverContext) (events : List Event) (packages : PackageMap) :
    Phase → Prop
  | .importing seed stack seen => ImportSound ctx events packages seed stack seen
  | .filling _ _ dependencies =>
      ∀ (name : String) target, dependencies[name]? = some target → Known events packages target
  | .done (.ok id) => Known events packages id
  | _ => True

/-- The package is known, or a chain import is about to look at it. -/
def Awaited (events : List Event) (state : State) (id : PackageId) : Prop :=
  Known events state.packages id ∨ ∃ path call seed stack seen,
    state.tasks path = some ⟨call, .importing seed stack seen⟩ ∧ id ∈ stack

structure Linked (ctx : ResolverContext) (events : List Event) (state : State) : Prop where
  tasks : ∀ path task, state.tasks path = some task →
    task.phase.Linked ctx events state.packages
  edges : ∀ (id : PackageId) package, state.packages[id]? = some package →
    ∀ (name : String) target, package.dependencies[name]? = some target →
      Awaited events state target

section Moves

variable {packages after : PackageMap} {children : String → Option Task} {call : Call}
  {old phase : Phase} {event : Event} {events : List Event}

theorem mem_updateDependencies {id other : PackageId} {dependencies : BTreeMap String PackageId}
    (h : other ∈ packages) : other ∈ updateDependencies packages id dependencies := by
  rw [Std.ExtTreeMap.mem_iff_isSome_getElem?] at h ⊢
  rw [getElem?_updateDependencies]
  split
  next =>
      rw [Option.isSome_map]
      exact h
  next => exact h

/-- Only a removal makes a package disappear, and it is recorded. -/
theorem Known.moves (hmoves : Moves S ctx packages children call old event after phase)
    {id : PackageId} (h : Known events packages id) : Known (events ++ [event]) after id := by
  rcases h with hmem | hremoved
  · cases hmoves with
    | importNew hgraph hpackage hnew => exact .inl (Std.ExtTreeMap.mem_insert.mpr (.inr hmem))
    | published hnew => exact .inl (Std.ExtTreeMap.mem_insert.mpr (.inr hmem))
    | @removed own =>
        by_cases hown : own = id
        · subst hown
          exact .inr (List.mem_append_right _ (List.mem_singleton_self _))
        · refine .inl (Std.ExtTreeMap.mem_erase.mpr ⟨?_, hmem⟩)
          exact fun heq => hown (Std.LawfulEqCmp.compare_eq_iff_eq.mp heq)
    | filled => exact .inl (mem_updateDependencies hmem)
    | _ => exact .inl hmem
  · exact .inr (List.mem_append_left _ hremoved)

theorem Phase.Linked.moves_other
    (hmoves : Moves S ctx packages children call old event after phase) {other : Phase}
    (h : other.Linked ctx events packages) : other.Linked ctx (events ++ [event]) after := by
  cases other with
  | importing seed stack seen =>
      exact ⟨h.complete, h.seed_known.imp_left fun hknown => hknown.moves hmoves,
        fun id hid => (h.seen_known id hid).moves hmoves⟩
  | filling id info dependencies =>
      exact fun name target htarget => (h name target htarget).moves hmoves
  | done result =>
      cases result with
      | ok id => exact Known.moves hmoves h
      | error error => trivial
  | _ => trivial

/-- An edge after a move was there before, leads to a package that a chain import
is going to look at, or is one that a task has collected. -/
theorem edge_of_moves (hmoves : Moves S ctx packages children call old event after phase)
    {id : PackageId} {package : ResolvedPackage} (hid : after[id]? = some package)
    {name : String} {target : PackageId} (htarget : package.dependencies[name]? = some target) :
    (∃ before, packages[id]? = some before ∧ before.dependencies[name]? = some target) ∨
      (∃ seed stack seen, phase = .importing seed stack seen ∧ target ∈ stack) ∨
      ∃ own info dependencies, old = .filling own info dependencies ∧
        dependencies[name]? = some target := by
  cases hmoves with
  | importNew hgraph hpackage hnew =>
      rw [BTreeMap.getElem?_insert_self_or] at hid
      split at hid
      next =>
          cases hid
          refine .inr (.inl ⟨_, _, _, rfl, List.mem_append_left _ ?_⟩)
          exact List.mem_reverse.mpr (BTreeMap.mem_values_iff.mpr ⟨name, htarget⟩)
      next => exact .inl ⟨package, hid, htarget⟩
  | published hnew =>
      rw [BTreeMap.getElem?_insert_self_or] at hid
      split at hid
      next =>
          cases hid
          rw [buildPlaceholder, Std.ExtTreeMap.getElem?_empty] at htarget
          cases htarget
      next => exact .inl ⟨package, hid, htarget⟩
  | removed =>
      rw [Std.ExtTreeMap.getElem?_erase] at hid
      split at hid
      next => cases hid
      next => exact .inl ⟨package, hid, htarget⟩
  | filled =>
      rw [getElem?_updateDependencies] at hid
      split at hid
      next =>
          obtain ⟨placeholder, -, rfl⟩ := Option.map_eq_some_iff.mp hid
          exact .inr (.inr ⟨_, _, _, rfl, htarget⟩)
      next => exact .inl ⟨package, hid, htarget⟩
  | _ => exact .inl ⟨package, hid, htarget⟩

end Moves

section Import

variable {packages : PackageMap} {events : List Event} {seed current : PackageId}
  {stack seen : List PackageId}

theorem ImportSound.skip (h : ImportSound ctx events packages seed (current :: stack) seen)
    (hseen : current ∈ seen) : ImportSound ctx events packages seed stack seen := by
  obtain ⟨graph, hgraph, hcomplete, hreach⟩ := h.complete
  refine ⟨⟨graph, hgraph, hcomplete, fun id hid => hreach id (List.mem_cons_of_mem _ hid)⟩, ?_,
    h.seen_known⟩
  rcases h.seed_known with hknown | hmem
  · exact .inl hknown
  · cases List.mem_cons.mp hmem with
    | inl heq => exact .inl (h.seen_known seed (heq ▸ hseen))
    | inr hmem => exact .inr hmem

theorem ImportSound.visit (h : ImportSound ctx events packages seed (current :: stack) seen)
    {graph : ResolutionGraph} {package : ResolvedPackage} (hgraph : ctx.existingGraph = some graph)
    (hpackage : graph.packages[current]? = some package) (hcurrent : Known events packages current) :
    ImportSound ctx events packages seed (package.dependencies.values.reverse ++ stack)
      (current :: seen) := by
  obtain ⟨graph', hgraph', hcomplete, hreach⟩ := h.complete
  rw [hgraph] at hgraph'
  cases hgraph'
  refine ⟨⟨graph, hgraph, hcomplete, fun id hid => ?_⟩, ?_, fun id hid => ?_⟩
  · cases List.mem_append.mp hid with
    | inl hid =>
        have hedge : StackWalk.Edge (dependencyIds graph) current id := by
          refine ⟨package.dependencies.values, ?_, List.mem_reverse.mp hid⟩
          rw [dependencyIds, hpackage]
          rfl
        exact (hreach current List.mem_cons_self).tail hedge
    | inr hid => exact hreach id (List.mem_cons_of_mem _ hid)
  · rcases h.seed_known with hknown | hmem
    · exact .inl hknown
    · cases List.mem_cons.mp hmem with
      | inl heq => exact .inl (heq ▸ hcurrent)
      | inr hmem => exact .inr (List.mem_append_right _ hmem)
  · cases List.mem_cons.mp hid with
    | inl heq => exact heq ▸ hcurrent
    | inr hid => exact h.seen_known id hid

/-- The import of a complete chain meets no missing package. -/
theorem ImportSound.not_missing (h : ImportSound ctx events packages seed (current :: stack) seen) :
    ctx.existingGraph.bind (·.packages[current]?) ≠ none := by
  obtain ⟨graph, hgraph, hcomplete, hreach⟩ := h.complete
  have hmem := (seededSubgraphComplete_iff graph seed).mp hcomplete current
    (hreach current List.mem_cons_self)
  rw [Std.ExtTreeMap.mem_iff_isSome_getElem?, Option.isSome_iff_exists] at hmem
  obtain ⟨package, hpackage⟩ := hmem
  rw [hgraph, Option.bind_some, hpackage]
  exact Option.some_ne_none _

theorem importSound_seed {call : Call} (h : seedOf S ctx call = some seed) :
    ImportSound ctx events packages seed [seed] [] := by
  obtain ⟨graph, hgraph, h⟩ := Option.bind_eq_some_iff.mp h
  obtain ⟨id, -, h⟩ := Option.bind_eq_some_iff.mp h
  split at h
  next hcomplete =>
      cases h
      refine ⟨⟨graph, hgraph, hcomplete, fun id hid => ?_⟩, .inr (List.mem_singleton_self _),
        fun id hid => absurd hid List.not_mem_nil⟩
      rw [List.mem_singleton.mp hid]
  next => cases h

end Import

section Step

variable {state next : State} {path : TaskPath} {call : Call} {old phase : Phase} {event : Event}
  {events : List Event} (hkeyed : SeedKeyed ctx) (hinv : Inv S ctx state)
  (h : Linked ctx events state) (htask : state.tasks path = some ⟨call, old⟩)
  (hmoves : Moves S ctx state.packages (fun name => state.tasks (name :: path)) call old event
    next.packages phase)

include hkeyed hinv h htask hmoves in
/-- What the task that moves knows afterwards. -/
theorem Linked.mover : phase.Linked ctx (events ++ [event]) next.packages := by
  have hold := h.tasks path _ htask
  have hkept := hold.moves_other hmoves
  obtain ⟨after, tasks'⟩ := next
  cases hmoves with
  | seeded hseed => exact importSound_seed hseed
  | importDone =>
      rcases hkept.seed_known with hknown | hmem
      · exact hknown
      · cases hmem
  | importSeen hseen => exact hkept.skip hseen
  | importPresent hgraph hpackage hmem =>
      refine hkept.visit hgraph hpackage (.inl ?_)
      exact hkeyed _ hgraph _ _ hpackage ▸ hmem
  | importNew hgraph hpackage hnew =>
      refine hkept.visit hgraph hpackage (.inl ?_)
      exact hkeyed _ hgraph _ _ hpackage ▸ Std.ExtTreeMap.mem_insert_self
  | adopted hmem => exact .inl hmem
  | overtaken hmem => exact .inl hmem
  | collected hresults hcollect =>
      intro name target htarget
      obtain ⟨hresult, hcall⟩ := (collectDependencies_ok hcollect).2 name target htarget
      obtain ⟨⟨childCall, childPhase⟩, hchild, hdone⟩ := childResults_some hresults
        (Std.ExtTreeMap.mem_union_iff.mpr hcall)
      rw [hresult] at hdone
      cases childPhase with
      | done result =>
          cases hdone
          have hknown : Known events state.packages target := h.tasks _ _ hchild
          exact hknown.imp_right (List.mem_append_left _)
      | _ => cases hdone
  | @filled id info dependencies =>
      have hentry := hinv.placeholder path _ id info htask rfl
      exact .inl (mem_updateDependencies (Std.ExtTreeMap.mem_iff_isSome_getElem?.mpr
        (Option.isSome_iff_exists.mpr ⟨_, hentry⟩)))
  | _ => trivial

include hkeyed hinv h htask hmoves in
/-- A package that is awaited stays so or becomes known. -/
theorem Awaited.step (htasks : next.tasks = setTask state.tasks path ⟨call, phase⟩
      (spawned event phase)) {id : PackageId} (hid : Awaited events state id) :
    Awaited (events ++ [event]) next id := by
  rcases hid with hknown | ⟨other, otherCall, seed, stack, seen, hother, hmem⟩
  · exact .inl (hknown.moves hmoves)
  · by_cases hpath : other = path
    · subst hpath
      rw [htask] at hother
      cases hother
      have hphase : next.tasks other = some ⟨call, phase⟩ := by
        rw [htasks]
        exact setTask_self
      have hold := h.tasks other _ htask
      have hmover := h.mover hkeyed hinv htask hmoves
      obtain ⟨after, tasks'⟩ := next
      cases hmoves with
      | importDone => cases hmem
      | importSeen hseen =>
          cases List.mem_cons.mp hmem with
          | inl heq => exact .inl (hmover.seen_known id (heq ▸ hseen))
          | inr hmem => exact .inr ⟨other, call, _, _, _, hphase, hmem⟩
      | importMissing hmissing => exact absurd hmissing hold.not_missing
      | importPresent hgraph hpackage hpresent =>
          cases List.mem_cons.mp hmem with
          | inl heq => exact .inl (hmover.seen_known id (heq ▸ List.mem_cons_self))
          | inr hmem =>
              exact .inr ⟨other, call, _, _, _, hphase, List.mem_append_right _ hmem⟩
      | importNew hgraph hpackage hnew =>
          cases List.mem_cons.mp hmem with
          | inl heq => exact .inl (hmover.seen_known id (heq ▸ List.mem_cons_self))
          | inr hmem =>
              exact .inr ⟨other, call, _, _, _, hphase, List.mem_append_right _ hmem⟩
    · refine .inr ⟨other, otherCall, seed, stack, seen, ?_, hmem⟩
      rw [htasks]
      exact hinv.frame htask hmoves hpath hother

include hkeyed hinv h htask hmoves in
theorem Linked.edges_step (htasks : next.tasks = setTask state.tasks path ⟨call, phase⟩
      (spawned event phase)) {id : PackageId} {package : ResolvedPackage}
    (hid : next.packages[id]? = some package) {name : String} {target : PackageId}
    (htarget : package.dependencies[name]? = some target) :
    Awaited (events ++ [event]) next target := by
  rcases edge_of_moves hmoves hid htarget with ⟨before, hbefore, hedge⟩ |
    ⟨seed, stack, seen, hphase, hmem⟩ | ⟨own, info, dependencies, hold, hedge⟩
  · exact (h.edges id before hbefore name target hedge).step hkeyed hinv h htask hmoves htasks
  · refine .inr ⟨path, call, seed, stack, seen, ?_, hmem⟩
    rw [htasks, hphase]
    exact setTask_self
  · subst hold
    have hknown : Known events state.packages target := h.tasks path _ htask name target hedge
    exact .inl (hknown.moves hmoves)

end Step

theorem Linked.step {state next : State} {choice : Choice} {event : Event} {events : List Event}
    (hkeyed : SeedKeyed ctx) (hinv : Inv S ctx state) (h : Linked ctx events state)
    (hstep : advance S ctx state choice = some (event, next)) :
    Linked ctx (events ++ [event]) next := by
  obtain ⟨⟨call, old⟩, phase, htask, hmoves, htasks⟩ := moves_of_advance hstep
  constructor
  · intro path task hfound
    rw [htasks] at hfound
    rcases setTask_cases hfound with ⟨-, rfl⟩ | ⟨name, new, -, -, rfl⟩ | ⟨-, hold⟩
    · exact h.mover hkeyed hinv htask hmoves
    · trivial
    · exact (h.tasks path task hold).moves_other hmoves
  · exact fun id package hid name target htarget =>
      h.edges_step hkeyed hinv htask hmoves htasks hid htarget

theorem Linked.initial (rootDeps : BTreeMap String String)
    (rootProtocols : BTreeMap String RegistryProtocol) :
    Linked ctx [] (initial rootDeps rootProtocols) := by
  constructor
  · intro path task htask
    obtain ⟨root, -, hphase⟩ := initial_tasks htask
    rw [hphase]
    trivial
  · intro id package hid
    rw [Resolve.initial, Std.ExtTreeMap.getElem?_empty] at hid
    cases hid

theorem Linked.run {rootDeps : BTreeMap String String}
    {rootProtocols : BTreeMap String RegistryProtocol} {events : List Event} {state : State}
    (hkeyed : SeedKeyed ctx)
    (hrun : Run S ctx (Resolve.initial rootDeps rootProtocols) events state) :
    Linked ctx events state := by
  generalize hfirst : Resolve.initial rootDeps rootProtocols = first at hrun
  induction hrun with
  | nil =>
      subst hfirst
      exact Linked.initial rootDeps rootProtocols
  | step choice hrun hstep ih =>
      subst hfirst
      exact ih.step hkeyed ((Inv.initial rootDeps rootProtocols).run hrun) hstep

/-- When nothing waits for an import any more, every edge leads to a known
package. -/
theorem Linked.edges_known {state : State} {events : List Event} (h : Linked ctx events state)
    (hdone : ∀ path task, state.tasks path = some task → task.result? ≠ none)
    {id : PackageId} {package : ResolvedPackage} (hid : state.packages[id]? = some package)
    {name : String} {target : PackageId} (htarget : package.dependencies[name]? = some target) :
    Known events state.packages target := by
  rcases h.edges id package hid name target htarget with
    hknown | ⟨path, call, seed, stack, seen, htask, -⟩
  · exact hknown
  · exact absurd rfl (hdone path _ htask)

/-- A lockfile's graph is keyed by identity, so the seeds of an install are. -/
theorem seedKeyed_of_toGraph {lockfile : Option Lockfile}
    (hseed : ctx.existingGraph = lockfile.map Lockfile.toGraph) : SeedKeyed ctx := by
  intro graph hgraph key package hpackage
  rw [hseed] at hgraph
  obtain ⟨lockfile, -, rfl⟩ := Option.map_eq_some_iff.mp hgraph
  exact Lockfile.toGraph_keyed hpackage

/-- When a resolution succeeds, in whatever order its tasks ran and whichever
fetches failed, every root and every edge leads to a package of the graph or to
one whose entry was removed because its own dependencies had failed; if none
was removed, the graph is closed. -/
theorem closed_up_to_removed {rootDeps : BTreeMap String String}
    {rootProtocols : BTreeMap String RegistryProtocol} {optionalRootNames : BTreeSet String}
    {events : List Event} {graph : ResolutionGraph} (hkeyed : SeedKeyed ctx)
    (h : Resolves S ctx rootDeps rootProtocols optionalRootNames events graph) :
    ClosedUpTo (fun id => .removed id ∈ events) graph ∧
      ((∀ id, .removed id ∉ events) → ClosedUpTo (fun _ => False) graph) := by
  obtain ⟨state, result, hrun, hroots, hroot, hpackages⟩ := h
  have hlinked : Linked ctx events state := Linked.run hkeyed hrun
  have hclosed : ClosedUpTo (fun id => .removed id ∈ events) graph := by
    constructor
    · intro name dep hdep
      rw [hpackages]
      obtain ⟨hother, hown⟩ := root_of_resolveRootDependencies hroot name
      cases hrange : rootDeps[name]? with
      | none =>
          rw [hother hrange] at hdep
          cases hdep
      | some range =>
          rcases hown range hrange with ⟨id, hid, hfound⟩ | ⟨-, hnone⟩
          · rw [hfound] at hdep
            cases hdep
            have hresult := hroots name (Std.ExtTreeMap.mem_iff_isSome_getElem?.mpr
              (Option.isSome_iff_exists.mpr ⟨range, hrange⟩))
            obtain ⟨⟨call, phase⟩, htask, hdone⟩ := Option.bind_eq_some_iff.mp hresult
            cases phase with
            | done =>
                cases hdone
                have hphase := hlinked.tasks [name] _ htask
                rw [hid] at hphase
                exact hphase
            | _ => cases hdone
          · rw [hnone] at hdep
            cases hdep
    · intro id package hid name target htarget
      rw [hpackages] at hid ⊢
      exact hlinked.edges_known (fun path task => Resolves.all_done hrun hroots) hid htarget
  refine ⟨hclosed, fun hnone => ⟨fun name dep hdep => ?_, fun id package hid name target ht => ?_⟩⟩
  · exact .inl ((hclosed.roots name dep hdep).resolve_right (hnone _))
  · exact .inl ((hclosed.edges id package hid name target ht).resolve_right (hnone _))

theorem closed_up_to_removed_brokenCycle :
    SeedKeyed brokenCycle ∧
      ClosedUpTo (fun id => .removed id ∈ brokenEvents) brokenGraph :=
  have hkeyed : SeedKeyed brokenCycle := @seedKeyed_of_toGraph brokenCycle none rfl
  ⟨hkeyed, (closed_up_to_removed hkeyed brokenCycle_resolves).1⟩

/-- `y` keeps its edge to `x`, which was removed. -/
theorem brokenCycle_dangles :
    ∃ events, Resolves releaseCrate brokenCycle brokenRoots ∅ (.ofList ["x"] compare) events
      brokenGraph ∧ ¬ClosedUpTo (fun _ => False) brokenGraph := by
  refine ⟨brokenEvents, brokenCycle_resolves, fun h => ?_⟩
  have hedge := h.edges ⟨"y", "1.0.0"⟩ (setDependencies (BTreeMap.collect [("x", ⟨"x", "1.0.0"⟩)])
      (buildPlaceholder ⟨"y", "1.0.0"⟩ (sampleVersion ["x"]))) (by decide +kernel) "x"
    ⟨"x", "1.0.0"⟩ (by decide +kernel)
  rcases hedge with hmem | hfalse
  · have habsent : brokenGraph.packages.contains ⟨"x", "1.0.0"⟩ = false := by decide +kernel
    rw [Std.ExtTreeMap.contains_iff_mem.mpr hmem] at habsent
    cases habsent
  · exact hfalse

end Snpm.Resolve
