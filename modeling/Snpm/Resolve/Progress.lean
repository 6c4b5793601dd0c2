import Mathlib
import Snpm.Library.Spawning
import Snpm.Resolve.Asked

/-!
A resolution comes to an end. No order of the tasks blocks it, since a task only
waits for tasks below it, and none goes on forever: a task below another one
cannot publish the package that the other one owns, so the tasks are nested no
deeper than there are packages to publish, and each of them takes finitely many
steps.
-/
namespace Snpm.Resolve

variable {S : SemverCrate} {ctx : ResolverContext} {rootDeps : BTreeMap String String}
  {rootProtocols : BTreeMap String RegistryProtocol}

section Movable

theorem advance_of_stepped {state : State} {choice : Choice} {task : Task} {event : Event}
    {after : PackageMap} {phase : Phase} (htask : state.tasks choice.path = some task)
    (hstep : taskStep S ctx choice.fetchError state.packages
      (fun name => state.tasks (name :: choice.path)) task = some (event, after, phase)) :
    advance S ctx state choice = some (event, ⟨after,
      setTask state.tasks choice.path ⟨task.call, phase⟩ (spawned event phase)⟩) :=
  Option.bind_eq_some_iff.mpr ⟨task, htask, Option.bind_eq_some_iff.mpr ⟨_, hstep, rfl⟩⟩

/-- A task that is not done can move, unless it waits for another one. -/
theorem taskStep_isSome {fetchError : Option SnpmError} {packages : PackageMap}
    {children : String → Option Task} {task : Task} (hopen : task.result? = none) :
    (∃ result, taskStep S ctx fetchError packages children task = some result) ∨
      ∃ id info, task.phase = .waiting id info ∧ ∃ name ∈ childCalls id info,
        ∀ child, children name = some child → child.result? = none := by
  obtain ⟨call, phase⟩ := task
  cases phase with
  | start => exact .inl ⟨_, rfl⟩
  | importing seed stack seen => exact .inl ⟨_, rfl⟩
  | requesting => exact .inl ⟨_, rfl⟩
  | found id info => exact .inl ⟨_, rfl⟩
  | publishing id info =>
      cases hmem : packages.contains id with
      | true => exact .inl ⟨(.internal, packages, .done (.ok id)), by simp only [taskStep, hmem]; rfl⟩
      | false =>
          exact .inl ⟨(.published id, packages.insert id (buildPlaceholder id info),
            .waiting id info), by simp only [taskStep, hmem]; rfl⟩
  | waiting id info =>
      cases hresults : childResults children (childCalls id info) with
      | some results =>
          refine .inl ?_
          simp only [taskStep, hresults, Option.map_some]
          exact ⟨_, rfl⟩
      | none =>
          refine .inr ⟨id, info, rfl, ?_⟩
          unfold childResults at hresults
          split at hresults
          next => cases hresults
          next hall =>
              simp only [List.all_eq_true, not_forall] at hall
              obtain ⟨name, hname, hnone⟩ := hall
              refine ⟨name, Std.ExtTreeMap.mem_keys.mp hname, fun child hchild => ?_⟩
              simpa [hchild] using hnone
  | failing id info error => exact .inl ⟨_, rfl⟩
  | filling id info dependencies => exact .inl ⟨_, rfl⟩
  | done result => cases hopen

/-- The task that is not done, or one below it, can move. -/
theorem movable_below {state : State} (h : Spawned S ctx rootDeps rootProtocols state) {bound : Nat}
    (hbound : ∀ path task, state.tasks path = some task → path.length ≤ bound)
    {path : TaskPath} {task : Task} (htask : state.tasks path = some task)
    (hopen : task.result? = none) :
    ∃ below event next, path <:+ below ∧
      advance S ctx state ⟨below, none⟩ = some (event, next) := by
  -- the task that is waited for lies one step deeper, which ends at the bound
  induction hroom : bound - path.length using Nat.strong_induction_on generalizing path task with
  | _ room ih =>
      rcases @taskStep_isSome S ctx none state.packages (fun name => state.tasks (name :: path)) task
        hopen with ⟨⟨event, after, phase⟩, hstep⟩ | ⟨id, info, hphase, name, hname, hwaits⟩
      · exact ⟨path, event, _, List.suffix_refl _,
          @advance_of_stepped S ctx state ⟨path, none⟩ _ _ _ _ htask hstep⟩
      · obtain ⟨child, hchild⟩ := BTreeMap.mem_iff_exists.mp hname
        obtain ⟨call, phase⟩ := task
        cases hphase
        obtain ⟨found, hfound⟩ := h.children path call id info htask name child hchild
        have hdeep : path.length + 1 ≤ bound := hbound (name :: path) _ hfound
        obtain ⟨below, event, next, hsuffix, hadvance⟩ :=
          ih (bound - (path.length + 1)) (by omega) hfound (hwaits _ hfound) rfl
        exact ⟨below, event, next, (List.suffix_cons name path).trans hsuffix, hadvance⟩

theorem Spawned.bounded {state : State} (h : Spawned S ctx rootDeps rootProtocols state) :
    ∃ bound, ∀ path task, state.tasks path = some task → path.length ≤ bound := by
  obtain ⟨bound, hbound⟩ := (h.finite.image List.length).bddAbove
  refine ⟨bound, fun path task htask => hbound ⟨path, ?_, rfl⟩⟩
  exact fun hnone => Option.some_ne_none task (htask.symm.trans hnone)

/-- In every state that a resolution can reach, each task that is not done can
move itself or waits for one below it that can. -/
theorem open_task_moves {events : List Event} {state : State}
    (hrun : Run S ctx (initial rootDeps rootProtocols) events state) {path : TaskPath} {task : Task}
    (htask : state.tasks path = some task) (hopen : task.result? = none) :
    ∃ below event next, path <:+ below ∧
      advance S ctx state ⟨below, none⟩ = some (event, next) := by
  have hspawned : Spawned S ctx rootDeps rootProtocols state := Spawned.run hrun
  obtain ⟨bound, hbound⟩ := hspawned.bounded
  exact movable_below hspawned hbound htask hopen

theorem open_task_moves_brokenCycle :
    ∃ below event next, ["x"] <:+ below ∧
      advance releaseCrate brokenCycle (initial brokenRoots ∅) ⟨below, none⟩ =
        some (event, next) := by
  have hstart : ∃ task, (initial brokenRoots ∅).tasks ["x"] = some task := by
    obtain ⟨range, hrange⟩ : ∃ range, brokenRoots["x"]? = some range :=
      ⟨"^1.0.0", by decide +kernel⟩
    have hcall : (brokenRoots["x"]?).map (fun range => Task.mk (rootCall ∅ "x" range) .start) =
        some ⟨rootCall ∅ "x" range, .start⟩ := by
      rw [hrange]
      rfl
    exact ⟨_, hcall⟩
  obtain ⟨task, htask⟩ := hstart
  obtain ⟨name, -, hphase⟩ := initial_tasks htask
  exact open_task_moves (.nil _) htask (by rw [Task.result?, hphase])

end Movable

section Rank

variable (S : SemverCrate) (ctx : ResolverContext)

/-- The pops that a chain import can still take. -/
def importRoom (stack seen : List PackageId) : Nat :=
  match ctx.existingGraph with
  | some graph => StackWalk.work (dependencyIds graph) graph.packages.keys seen stack
  | none => stack.length

/-- A bound on the steps that a task itself can still take. -/
def Task.rank (task : Task) : Nat :=
  match task.phase with
  | .start => (match seedOf S ctx task.call with
      | some seed => importRoom ctx [seed] []
      | none => 0) + 9
  | .importing _ stack seen => importRoom ctx stack seen + 8
  | .requesting => 7
  | .found _ _ => 6
  | .publishing _ _ => 5
  | .waiting _ _ => 4
  | .failing _ _ _ | .filling _ _ _ => 3
  | .done _ => 0

variable {S ctx}

theorem importRoom_pop (current : PackageId) (stack seen : List PackageId) :
    importRoom ctx (current :: stack) seen = importRoom ctx stack seen + 1 := by
  unfold importRoom
  cases ctx.existingGraph with
  | none => rfl
  | some graph =>
      simp only [StackWalk.work, List.length_cons]
      omega

theorem importRoom_visit {graph : ResolutionGraph} (hgraph : ctx.existingGraph = some graph)
    {current : PackageId} {package : ResolvedPackage}
    (hpackage : graph.packages[current]? = some package) {stack seen : List PackageId}
    (hseen : current ∉ seen) :
    importRoom ctx (package.dependencies.values.reverse ++ stack) (current :: seen) + 1 =
      importRoom ctx (current :: stack) seen := by
  simp only [importRoom, hgraph]
  refine StackWalk.work_visit Std.ExtTreeMap.nodup_keys ?_ hseen ?_
  · exact BTreeMap.mem_keys_iff.mpr ⟨package, hpackage⟩
  · rw [dependencyIds, hpackage, Option.map_some]

/-- Each step of a task lowers its rank. -/
theorem rank_of_taskStep {fetchError : Option SnpmError} {packages after : PackageMap}
    {children : String → Option Task} {task : Task} {event : Event} {phase : Phase}
    (h : taskStep S ctx fetchError packages children task = some (event, after, phase)) :
    Task.rank S ctx ⟨task.call, phase⟩ < task.rank S ctx := by
  obtain ⟨call, old⟩ := task
  have hmoves : Moves S ctx packages children call old event after phase := moves_of_taskStep h
  cases old with
  | importing seed stack seen =>
      simp only [taskStep, Option.some.injEq] at h
      cases stack with
      | nil =>
          cases h
          simp only [Task.rank]
          omega
      | cons current stack =>
          have hpop := @importRoom_pop ctx current stack seen
          rw [importStep] at h
          by_cases hseen : current ∈ seen
          · rw [if_pos hseen] at h
            cases h
            simp only [Task.rank]
            omega
          · rw [if_neg hseen] at h
            cases hlookup : ctx.existingGraph.bind (·.packages[current]?) with
            | none =>
                rw [hlookup] at h
                cases h
                simp only [Task.rank]
                omega
            | some package =>
                rw [hlookup] at h
                cases h
                obtain ⟨graph, hgraph, hpackage⟩ := Option.bind_eq_some_iff.mp hlookup
                have hvisit := @importRoom_visit ctx graph hgraph current package hpackage stack seen hseen
                simp only [Task.rank]
                omega
  | start =>
      cases hmoves with
      | seeded hseed =>
          simp only [Task.rank, hseed]
          omega
      | unseeded =>
          simp only [Task.rank]
          omega
  | _ =>
      cases hmoves with
      | _ =>
          simp only [Task.rank]
          omega

end Rank

section Depth

theorem open_of_waiting {task : Task} {id : PackageId} {info : RegistryVersion}
    (h : task.phase = .waiting id info) : task.result? = none := by
  rw [Task.result?, h]

/-- The tasks above one that is not done wait, and each owns another package. -/
theorem owned_above {state : State} (hinv : Inv S ctx state) {name : String} {path : TaskPath}
    {task : Task} (htask : state.tasks (name :: path) = some task) (hopen : task.result? = none) :
    ∃ ids : List PackageId, ids.Nodup ∧ ids.length = path.length ∧
      ∀ id ∈ ids, ∃ above owner info, above <:+ path ∧ state.tasks above = some owner ∧
        owner.phase.owned = some (id, info) := by
  induction path generalizing name task with
  | nil => exact ⟨[], List.nodup_nil, rfl, fun id hid => absurd hid List.not_mem_nil⟩
  | cons parent path ih =>
      obtain ⟨owner, howner, hphase⟩ := hinv.parents name (parent :: path) task
        (List.cons_ne_nil parent path) htask
      rcases hphase with ⟨id, info, hwaits, -⟩ | ⟨-, hdone⟩
      · obtain ⟨ids, hnodup, hlength, hids⟩ := ih howner (open_of_waiting hwaits)
        have howned : owner.phase.owned = some (id, info) := by rw [hwaits]; rfl
        refine ⟨id :: ids, List.nodup_cons.mpr ⟨fun hmem => ?_, hnodup⟩, ?_, ?_⟩
        · -- a task further up owns another package
          obtain ⟨above, other, info', hsuffix, hother, howned'⟩ := hids id hmem
          have hsame := hinv.owner (parent :: path) owner above other id info info' howner howned
            hother howned'
          have hlonger := hsuffix.length_le
          rw [← hsame, List.length_cons] at hlonger
          omega
        · rw [List.length_cons, List.length_cons, hlength]
        · intro other hother
          rcases List.mem_cons.mp hother with heq | hmem
          · subst heq
            exact ⟨parent :: path, owner, info, List.suffix_refl _, howner, howned⟩
          · obtain ⟨above, found, info', hsuffix, hfound, howned'⟩ := hids other hmem
            exact ⟨above, found, info', hsuffix.trans (List.suffix_cons parent path), hfound,
              howned'⟩
      · exact absurd hopen hdone

/-- Tasks are nested no deeper than there are packages to publish. -/
theorem depth_le {events : List Event} {state : State}
    (hrun : Run S ctx (initial rootDeps rootProtocols) events state)
    {packages : Finset PackageId}
    (hpackages : ∀ id info, Answered S ctx rootDeps rootProtocols id info → id ∈ packages)
    {path : TaskPath} {task : Task} (htask : state.tasks path = some task)
    (hopen : task.result? = none) : path.length ≤ packages.card + 1 := by
  have hinv : Inv S ctx state := (Inv.initial rootDeps rootProtocols).run hrun
  have hspawned : Spawned S ctx rootDeps rootProtocols state := Spawned.run hrun
  cases path with
  | nil => exact absurd rfl (hinv.path_ne_nil htask)
  | cons name path =>
      obtain ⟨ids, hnodup, hlength, hids⟩ := owned_above hinv htask hopen
      have hsubset : ids.toFinset ⊆ packages := by
        intro id hid
        obtain ⟨above, owner, info, -, howner, howned⟩ := hids id (List.mem_toFinset.mp hid)
        exact hpackages id info ⟨owner.call, hspawned.asked above owner howner,
          hspawned.answered above owner (id, info) howner (answer_of_owned howned)⟩
      have hcard := Finset.card_le_card hsubset
      rw [List.toFinset_card_of_nodup hnodup, hlength] at hcard
      rw [List.length_cons]
      omega

end Depth

section Termination

/-- The states that a resolution can reach. -/
def Reached (S : SemverCrate) (ctx : ResolverContext) (rootDeps : BTreeMap String String)
    (rootProtocols : BTreeMap String RegistryProtocol) : Type :=
  {state : State // ∃ events, Run S ctx (initial rootDeps rootProtocols) events state}

namespace Reached

theorem inv (state : Reached S ctx rootDeps rootProtocols) : Inv S ctx state.val :=
  (Inv.initial rootDeps rootProtocols).run state.property.choose_spec

theorem spawned (state : Reached S ctx rootDeps rootProtocols) :
    Spawned S ctx rootDeps rootProtocols state.val :=
  Spawned.run state.property.choose_spec

noncomputable def live (state : Reached S ctx rootDeps rootProtocols) : Finset TaskPath :=
  state.spawned.finite.toFinset

theorem mem_live {state : Reached S ctx rootDeps rootProtocols} {path : TaskPath} :
    path ∈ state.live ↔ ∃ task, state.val.tasks path = some task := by
  rw [live, Set.Finite.mem_toFinset]
  exact Option.ne_none_iff_exists'

/-- First how many levels can still lie below a task, then its own steps. -/
def measure (bound : Nat) (state : Reached S ctx rootDeps rootProtocols) (path : TaskPath) :
    Nat ×ₗ Nat :=
  toLex (bound - path.length, ((state.val.tasks path).map (Task.rank S ctx)).getD 0)

/-- A step of a resolution moves one task down and adds lower ones. -/
theorem spawns_of_advance {packages : Finset PackageId}
    (hpackages : ∀ id info, Answered S ctx rootDeps rootProtocols id info → id ∈ packages)
    {before after : Reached S ctx rootDeps rootProtocols} {choice : Choice} {event : Event}
    (h : advance S ctx before.val choice = some (event, after.val)) :
    ∃ mover added, Spawning.Spawns live (measure (packages.card + 2)) before after mover added := by
  obtain ⟨⟨call, old⟩, packagesAfter, phase, htask, hstep, hnext⟩ := taskStep_of_advance h
  have hmoves := moves_of_taskStep hstep
  have hinv : Inv S ctx before.val := before.inv
  have hopen : Task.result? ⟨call, old⟩ = none := by
    cases old with
    | done result => cases hstep
    | _ => rfl
  have hdepth : choice.path.length ≤ packages.card + 1 :=
    depth_le before.property.choose_spec hpackages htask hopen
  have hafter : after.val.tasks =
      setTask before.val.tasks choice.path ⟨call, phase⟩ (Resolve.spawned event phase) := by
    rw [hnext]
  have hself : after.val.tasks choice.path = some ⟨call, phase⟩ := by
    rw [hafter]
    exact setTask_self
  refine ⟨choice.path, (Resolve.spawned event phase).keys.toFinset.image (· :: choice.path), ?_⟩
  have hadded : ∀ path, path ∈ (Resolve.spawned event phase).keys.toFinset.image (· :: choice.path) →
      ∃ name child, path = name :: choice.path ∧ (Resolve.spawned event phase)[name]? = some child ∧
        after.val.tasks path = some ⟨child, .start⟩ := by
    intro path hpath
    obtain ⟨name, hname, hcons⟩ := Finset.mem_image.mp hpath
    obtain ⟨child, hchild⟩ := BTreeMap.mem_keys_iff.mp (List.mem_toFinset.mp hname)
    refine ⟨name, child, hcons.symm, hchild, ?_⟩
    rw [hafter, ← hcons]
    unfold setTask
    rw [if_neg (List.cons_ne_self name choice.path)]
    simp only [if_true, hchild]
  constructor
  · exact mem_live.mpr ⟨_, htask⟩
  · rw [Finset.disjoint_right]
    intro path hpath hlive
    obtain ⟨name, child, hcons, hchild, -⟩ := hadded path hpath
    obtain ⟨found, hfound⟩ := mem_live.mp hlive
    rcases spawned_eq_empty hmoves with hempty | ⟨id, info, hold, -, -, -, -⟩
    · rw [hempty, Std.ExtTreeMap.getElem?_empty] at hchild
      cases hchild
    · obtain ⟨parent, hparent, hphase⟩ := hinv.parents name choice.path found
        (hinv.path_ne_nil htask) (hcons ▸ hfound)
      rw [htask] at hparent
      cases hparent
      subst hold
      rcases hphase with ⟨_, _, hwaits, -⟩ | ⟨hpast, -⟩
      · cases hwaits
      · cases hpast
  · intro path
    rw [mem_live, mem_live]
    constructor
    · rintro ⟨found, hfound⟩
      rw [hafter] at hfound
      rcases setTask_cases hfound with ⟨hpath, -⟩ | ⟨name, child, hpath, hchild, -⟩ | ⟨-, hold⟩
      · subst hpath
        exact .inl ⟨_, htask⟩
      · refine .inr (Finset.mem_image.mpr ⟨name, ?_, hpath.symm⟩)
        exact List.mem_toFinset.mpr (BTreeMap.mem_keys_iff.mpr ⟨child, hchild⟩)
      · exact .inl ⟨found, hold⟩
    · rintro (⟨found, hfound⟩ | hpath)
      · by_cases hmover : path = choice.path
        · subst hmover
          exact ⟨_, hself⟩
        · refine ⟨found, ?_⟩
          rw [hafter]
          exact hinv.frame htask hmoves hmover hfound
      · obtain ⟨name, child, -, -, hfound⟩ := hadded path hpath
        exact ⟨_, hfound⟩
  · intro path hlive hmover
    obtain ⟨found, hfound⟩ := mem_live.mp hlive
    have hkept : after.val.tasks path = some found := by
      rw [hafter]
      exact hinv.frame htask hmoves hmover hfound
    simp only [measure, hfound, hkept]
  · simp only [measure, hself, htask, Option.map_some, Option.getD_some]
    exact Prod.Lex.toLex_lt_toLex.mpr (.inr ⟨rfl, rank_of_taskStep hstep⟩)
  · intro path hpath
    obtain ⟨name, child, hcons, -, -⟩ := hadded path hpath
    refine Prod.Lex.toLex_lt_toLex.mpr (.inl ?_)
    simp only [hcons, List.length_cons]
    omega

theorem wellFounded {packages : Finset PackageId}
    (hpackages : ∀ id info, Answered S ctx rootDeps rootProtocols id info → id ∈ packages) :
    WellFounded fun after before : Reached S ctx rootDeps rootProtocols =>
      ∃ choice event, advance S ctx before.val choice = some (event, after.val) :=
  Spawning.wellFounded fun _ _ ⟨_, _, h⟩ => spawns_of_advance hpackages h

theorem next {state : Reached S ctx rootDeps rootProtocols} {choice : Choice} {event : Event}
    {after : State} (h : advance S ctx state.val choice = some (event, after)) :
    ∃ events, Run S ctx (initial rootDeps rootProtocols) events after := by
  obtain ⟨events, hrun⟩ := state.property
  exact ⟨_, .step choice hrun h⟩

/-- A resolution can always be brought to its end. -/
theorem completes {packages : Finset PackageId}
    (hpackages : ∀ id info, Answered S ctx rootDeps rootProtocols id info → id ∈ packages)
    (state : Reached S ctx rootDeps rootProtocols) :
    ∃ events last, Run S ctx state.val events last ∧
      ∀ path task, last.tasks path = some task → task.result? ≠ none := by
  induction state using (wellFounded hpackages).induction with
  | _ state ih =>
      by_cases hdone : ∀ path task, state.val.tasks path = some task → task.result? ≠ none
      · exact ⟨[], state.val, .nil _, hdone⟩
      · simp only [not_forall, not_not] at hdone
        obtain ⟨path, task, htask, hopen⟩ := hdone
        obtain ⟨below, event, after, -, hstep⟩ := open_task_moves state.property.choose_spec htask hopen
        obtain ⟨events, last, hrun, hlast⟩ := ih ⟨after, next hstep⟩ ⟨_, event, hstep⟩
        exact ⟨event :: events, last, hrun.cons hstep, hlast⟩

end Reached

/-- What is requested from the registry of the broken cycle. -/
def brokenCalls : List Call :=
  [⟨"x", "^1.0.0", .npm, none⟩, ⟨"y", "^1.0.0", .npm, some ⟨"x", "1.0.0"⟩⟩,
    ⟨"z", "^1.0.0", .npm, some ⟨"x", "1.0.0"⟩⟩, ⟨"x", "^1.0.0", .npm, some ⟨"y", "1.0.0"⟩⟩]

/-- When the requests have finitely many answers, no order of the tasks and no
failing fetch keeps a resolution from ending: a run cannot go on forever, and
whatever was done so far, all tasks can still be brought to their results. -/
theorem resolution_ends {packages : Finset PackageId}
    (hpackages : ∀ id info, Answered S ctx rootDeps rootProtocols id info → id ∈ packages)
    {events : List Event} {state : State}
    (hrun : Run S ctx (initial rootDeps rootProtocols) events state) :
    (¬∃ states : Nat → State, states 0 = state ∧
      ∀ n, ∃ choice event, advance S ctx (states n) choice = some (event, states (n + 1))) ∧
    ∃ rest last, Run S ctx state rest last ∧
      ∀ path task, last.tasks path = some task → task.result? ≠ none := by
  constructor
  · rintro ⟨states, hfirst, hsteps⟩
    have hreached : ∀ n, ∃ events, Run S ctx (initial rootDeps rootProtocols) events (states n) := by
      intro n
      induction n with
      | zero => exact ⟨events, hfirst ▸ hrun⟩
      | succ n ih =>
          obtain ⟨before, hbefore⟩ := ih
          obtain ⟨choice, event, hstep⟩ := hsteps n
          exact ⟨_, .step choice hbefore hstep⟩
    refine (wellFounded_iff_isEmpty_descending_chain.mp (Reached.wellFounded hpackages)).false
      ⟨fun n => ⟨states n, hreached n⟩, hsteps⟩
  · exact Reached.completes hpackages ⟨state, events, hrun⟩

theorem resolution_ends_brokenCycle :
    (¬∃ states : Nat → State, states 0 = initial brokenRoots ∅ ∧ ∀ n, ∃ choice event,
      advance releaseCrate brokenCycle (states n) choice = some (event, states (n + 1))) ∧
    ∃ rest last, Run releaseCrate brokenCycle (initial brokenRoots ∅) rest last ∧
      ∀ path task, last.tasks path = some task → task.result? ≠ none := by
  have hclosed : closedUnder releaseCrate brokenCycle brokenCalls = true := by decide +kernel
  have hpackages : ∀ id info, Answered releaseCrate brokenCycle brokenRoots ∅ id info →
      id ∈ ((answersTo releaseCrate brokenCycle brokenCalls).map (·.1)).toFinset := by
    intro id info h
    exact List.mem_toFinset.mpr
      (List.mem_map.mpr ⟨(id, info), answered_mem (by decide +kernel) hclosed h, rfl⟩)
  exact resolution_ends hpackages (.nil _)

end Termination

end Snpm.Resolve
