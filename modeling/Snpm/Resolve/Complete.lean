import Mathlib
import Snpm.Resolve.Tasks

/-!
Placeholders are filled or removed. A package is published before its
dependencies are resolved, and the task that published it owns the entry until
it has filled or removed it; no other task touches it meanwhile. When all root
tasks are done no task owns an entry any more, so every package of the map was
filled, or comes from the earlier graph.
-/
namespace Snpm.Resolve

variable {S : SemverCrate} {ctx : ResolverContext}

section SetTask

variable {tasks : TaskPath → Option Task} {path : TaskPath} {task : Task}
  {children : BTreeMap String Call}

theorem setTask_self : setTask tasks path task children path = some task := by
  exact if_pos rfl

/-- A task after a step is the one that moved, a new child of it, or was there
before. -/
theorem setTask_cases {other : TaskPath} {found : Task}
    (h : setTask tasks path task children other = some found) :
    (other = path ∧ found = task) ∨
      (∃ name call, other = name :: path ∧ children[name]? = some call ∧ found = ⟨call, .start⟩) ∨
      (other ≠ path ∧ tasks other = some found) := by
  unfold setTask at h
  by_cases hother : other = path
  · rw [if_pos hother] at h
    exact .inl ⟨hother, (Option.some.inj h).symm⟩
  · rw [if_neg hother] at h
    cases other with
    | nil => cases h
    | cons name parent =>
        simp only at h
        by_cases hparent : parent = path
        · rw [if_pos hparent] at h
          cases hcall : children[name]? with
          | some call =>
              rw [hcall] at h
              exact .inr (.inl ⟨name, call, by rw [hparent], hcall, (Option.some.inj h).symm⟩)
          | none =>
              rw [hcall] at h
              exact .inr (.inr ⟨hother, h⟩)
        · rw [if_neg hparent] at h
          exact .inr (.inr ⟨hother, h⟩)

theorem setTask_other {other : TaskPath} {found : Task} (hother : other ≠ path)
    (hfresh : ∀ name, other = name :: path → children[name]? = none) (hnil : tasks [] = none)
    (h : tasks other = some found) : setTask tasks path task children other = some found := by
  unfold setTask
  rw [if_neg hother]
  cases other with
  | nil =>
      rw [hnil] at h
      cases h
  | cons name parent =>
      simp only
      by_cases hparent : parent = path
      · rw [if_pos hparent, hfresh name (by rw [hparent])]
        exact h
      · rw [if_neg hparent]
        exact h

end SetTask

/-- The package whose entry a task is responsible for. -/
def Phase.owned : Phase → Option (PackageId × RegistryVersion)
  | .waiting id info | .failing id info _ | .filling id info _ => some (id, info)
  | _ => none

/-- A phase in which no child is waited for any more. -/
def Phase.past : Phase → Bool
  | .failing _ _ _ | .filling _ _ _ | .done _ => true
  | _ => false

/-- The registry has this metadata under this identity. -/
def Offers (S : SemverCrate) (ctx : ResolverContext) (id : PackageId) (info : RegistryVersion) :
    Prop :=
  ∃ call, resolveRequest S ctx call = .ok (id, info)

/-- The record comes from the registry's metadata and has an edge for every
dependency that is neither bundled nor optional. -/
def Filled (S : SemverCrate) (ctx : ResolverContext) (id : PackageId) (package : ResolvedPackage) :
    Prop :=
  ∃ info, Offers S ctx id info ∧
    package = setDependencies package.dependencies (buildPlaceholder id info) ∧
    ∀ name ∈ requiredDependencies info, name ∈ package.dependencies

/-- The record is one of the earlier graph, as it stands there. -/
def FromSeed (ctx : ResolverContext) (package : ResolvedPackage) : Prop :=
  ∃ graph key, ctx.existingGraph = some graph ∧ graph.packages[(key : PackageId)]? = some package

/-- What every phase may rely on. -/
def Phase.Sound (S : SemverCrate) (ctx : ResolverContext) : Phase → Prop
  | .found id info | .publishing id info | .waiting id info | .failing id info _ =>
      Offers S ctx id info
  | .filling id info dependencies =>
      Offers S ctx id info ∧ ∀ name ∈ requiredDependencies info, name ∈ dependencies
  | _ => True

structure Inv (S : SemverCrate) (ctx : ResolverContext) (state : State) : Prop where
  noRoot : state.tasks [] = none
  parents : ∀ name path child, path ≠ [] → state.tasks (name :: path) = some child →
    ∃ task, state.tasks path = some task ∧
      ((∃ id info, task.phase = .waiting id info ∧ name ∈ childCalls id info) ∨
        (task.phase.past = true ∧ child.result? ≠ none))
  sound : ∀ path task, state.tasks path = some task → task.phase.Sound S ctx
  placeholder : ∀ path task id info, state.tasks path = some task →
    task.phase.owned = some (id, info) → state.packages[id]? = some (buildPlaceholder id info)
  owner : ∀ path task path' task' id info info', state.tasks path = some task →
    task.phase.owned = some (id, info) → state.tasks path' = some task' →
    task'.phase.owned = some (id, info') → path = path'
  settled : ∀ (id : PackageId) package, state.packages[id]? = some package →
    (∃ path task info, state.tasks path = some task ∧ task.phase.owned = some (id, info)) ∨
      FromSeed ctx package ∨ Filled S ctx id package

theorem spawned_eq_empty {packages after : PackageMap} {children : String → Option Task}
    {call : Call} {old phase : Phase} {event : Event}
    (h : Moves S ctx packages children call old event after phase) :
    spawned event phase = ∅ ∨
      ∃ id info, old = .publishing id info ∧ phase = .waiting id info ∧
        event = .published id ∧ after = packages.insert id (buildPlaceholder id info) ∧
        id ∉ packages := by
  cases h with
  | published hmem => exact .inr ⟨_, _, rfl, rfl, rfl, rfl, hmem⟩
  | _ => exact .inl rfl

section Preservation

variable {state : State} {path : TaskPath} {call : Call} {old phase : Phase} {event : Event}
  {after : PackageMap}

theorem Inv.path_ne_nil (h : Inv S ctx state) {task : Task} (htask : state.tasks path = some task) :
    path ≠ [] := by
  intro hnil
  rw [hnil, h.noRoot] at htask
  cases htask

/-- Everything but the task that moves stays. -/
theorem Inv.frame (h : Inv S ctx state) (htask : state.tasks path = some ⟨call, old⟩)
    (hmoves : Moves S ctx state.packages (fun name => state.tasks (name :: path)) call old event
      after phase)
    {other : TaskPath} {found : Task} (hother : other ≠ path)
    (hfound : state.tasks other = some found) :
    setTask state.tasks path ⟨call, phase⟩ (spawned event phase) other = some found := by
  refine setTask_other hother (fun name heq => ?_) h.noRoot hfound
  rcases spawned_eq_empty hmoves with hempty | ⟨id, info, rfl, -, -, -, -⟩
  · rw [hempty]
    exact Std.ExtTreeMap.getElem?_empty
  · -- a task that still has to publish has no children
    obtain ⟨parent, hparent, hphase⟩ := h.parents name path found (h.path_ne_nil htask)
      (heq ▸ hfound)
    rw [htask] at hparent
    cases hparent
    rcases hphase with ⟨id, info, hphase, -⟩ | ⟨hpast, -⟩
    · cases hphase
    · cases hpast


/-- A move keeps what the phase relies on. -/
theorem Phase.Sound.moves {packages : PackageMap} {children : String → Option Task}
    (h : old.Sound S ctx)
    (hmoves : Moves S ctx packages children call old event after phase) :
    phase.Sound S ctx := by
  cases hmoves with
  | requested hrequest => exact ⟨call, hrequest⟩
  | absent => exact h
  | published => exact h
  | collected hresults hcollect => exact ⟨h, (collectDependencies_ok hcollect).1⟩
  | failed hresults => exact h
  | _ => trivial

/-- A move that leaves the map alone keeps what the task owns. -/
theorem owned_of_moves {packages : PackageMap} {children : String → Option Task}
    (hmoves : Moves S ctx packages children call old event after phase) :
    (phase.owned = old.owned ∧ (after = packages ∨ ∃ package, FromSeed ctx package ∧
        package.id ∉ packages ∧ after = packages.insert package.id package)) ∨
      (∃ id info, old.owned = none ∧ phase.owned = some (id, info) ∧ id ∉ packages ∧
        after = packages.insert id (buildPlaceholder id info)) ∨
      ∃ id info, old.owned = some (id, info) ∧ phase.owned = none ∧
        (after = packages.erase id ∨ ∃ dependencies, old = .filling id info dependencies ∧
          after = updateDependencies packages id dependencies) := by
  cases hmoves with
  | importNew hgraph hpackage hmem =>
      exact .inl ⟨rfl, .inr ⟨_, ⟨_, _, hgraph, hpackage⟩, hmem, rfl⟩⟩
  | published hmem => exact .inr (.inl ⟨_, _, rfl, rfl, hmem, rfl⟩)
  | removed => exact .inr (.inr ⟨_, _, rfl, rfl, .inl rfl⟩)
  | filled => exact .inr (.inr ⟨_, _, rfl, rfl, .inr ⟨_, rfl, rfl⟩⟩)
  | _ => exact .inl ⟨rfl, .inl rfl⟩

theorem getElem?_updateDependencies (packages : PackageMap) (id other : PackageId)
    (dependencies : BTreeMap String PackageId) :
    (updateDependencies packages id dependencies)[other]? =
      if id = other then (packages[other]?).map (setDependencies dependencies)
      else packages[other]? := by
  rw [updateDependencies, Std.ExtTreeMap.getElem?_modify]
  simp only [Std.LawfulEqCmp.compare_eq_iff_eq]
  split
  next heq => rw [heq]
  next => rfl

/-- Entries of other tasks are not touched by a move. -/
theorem entry_kept {packages : PackageMap} {children : String → Option Task}
    (hmoves : Moves S ctx packages children call old event after phase)
    {id : PackageId} {package : ResolvedPackage} (hid : packages[id]? = some package)
    (hforeign : ∀ info, old.owned ≠ some (id, info)) : after[id]? = some package := by
  have hmem : id ∈ packages :=
    Std.ExtTreeMap.mem_iff_isSome_getElem?.mpr (Option.isSome_iff_exists.mpr ⟨package, hid⟩)
  rcases owned_of_moves hmoves with ⟨-, hsame | ⟨new, -, hnew, hinsert⟩⟩ |
    ⟨new, info, -, -, hnew, hinsert⟩ | ⟨own, info, howned, -, herase | ⟨dependencies, -, hupdate⟩⟩
  · rw [hsame]
    exact hid
  · rw [hinsert, BTreeMap.getElem?_insert_self_or, if_neg]
    · exact hid
    · exact fun heq => hnew (heq ▸ hmem)
  · rw [hinsert, BTreeMap.getElem?_insert_self_or, if_neg]
    · exact hid
    · exact fun heq => hnew (heq ▸ hmem)
  · rw [herase, Std.ExtTreeMap.getElem?_erase]
    simp only [Std.LawfulEqCmp.compare_eq_iff_eq]
    rw [if_neg]
    · exact hid
    · exact fun heq => hforeign info (heq ▸ howned)
  · rw [hupdate, getElem?_updateDependencies, if_neg]
    · exact hid
    · exact fun heq => hforeign info (heq ▸ howned)

theorem childResults_some {children : String → Option Task} {calls : BTreeMap String Call}
    {results : String → Result PackageId} (h : childResults children calls = some results)
    {name : String} (hname : name ∈ calls) :
    ∃ child, children name = some child ∧ child.result? = some (results name) := by
  unfold childResults at h
  split at h
  next hall =>
      have hsome := List.all_eq_true.mp hall name (Std.ExtTreeMap.mem_keys.mpr hname)
      obtain ⟨result, hresult⟩ := Option.isSome_iff_exists.mp hsome
      obtain ⟨child, hchild, hdone⟩ := Option.bind_eq_some_iff.mp hresult
      cases h
      refine ⟨child, hchild, ?_⟩
      simp only [hresult, Option.getD_some]
      exact hdone
  next => cases h

theorem Inv.noRoot_step (h : Inv S ctx state) (htask : state.tasks path = some ⟨call, old⟩)
    (children : BTreeMap String Call) :
    setTask state.tasks path ⟨call, phase⟩ children [] = none := by
  unfold setTask
  rw [if_neg fun hnil => h.path_ne_nil htask hnil.symm]

variable (h : Inv S ctx state) (htask : state.tasks path = some ⟨call, old⟩)
  (hmoves : Moves S ctx state.packages (fun name => state.tasks (name :: path)) call old event
    after phase)
include h htask hmoves

theorem Inv.sound_step {other : TaskPath} {found : Task}
    (hfound : setTask state.tasks path ⟨call, phase⟩ (spawned event phase) other = some found) :
    found.phase.Sound S ctx := by
  rcases setTask_cases hfound with ⟨-, rfl⟩ | ⟨name, call, -, -, rfl⟩ | ⟨-, hold⟩
  · exact (h.sound path _ htask).moves hmoves
  · trivial
  · exact h.sound other found hold

/-- A task leaves its children behind only when all of them are done. -/
theorem Inv.parents_step {name : String} {parent : TaskPath} {child : Task} (hparent : parent ≠ [])
    (hchild : setTask state.tasks path ⟨call, phase⟩ (spawned event phase) (name :: parent) =
      some child) :
    ∃ found, setTask state.tasks path ⟨call, phase⟩ (spawned event phase) parent = some found ∧
      ((∃ id info, found.phase = .waiting id info ∧ name ∈ childCalls id info) ∨
        (found.phase.past = true ∧ child.result? ≠ none)) := by
  rcases setTask_cases hchild with ⟨hpath, rfl⟩ | ⟨new, newCall, heq, hspawned, rfl⟩ | ⟨hne, hold⟩
  · -- the child moves, so it had no result and its parent is waiting
    obtain ⟨found, hfound, hphase⟩ := h.parents name parent _ hparent (hpath ▸ htask)
    have hother : parent ≠ path := by
      rw [← hpath]
      exact (List.cons_ne_self name parent).symm
    refine ⟨found, h.frame htask hmoves hother hfound, .inl ?_⟩
    rcases hphase with hwaits | ⟨-, hresult⟩
    · exact hwaits
    · cases hmoves with
      | _ => exact absurd rfl hresult
  · -- the child is new
    cases heq
    refine ⟨_, setTask_self, .inl ?_⟩
    rcases spawned_eq_empty hmoves with hempty | ⟨id, info, -, rfl, rfl, -, -⟩
    · rw [hempty, Std.ExtTreeMap.getElem?_empty] at hspawned
      cases hspawned
    · exact ⟨id, info, rfl, Std.ExtTreeMap.mem_iff_isSome_getElem?.mpr
        (Option.isSome_iff_exists.mpr ⟨newCall, hspawned⟩)⟩
  · obtain ⟨found, hfound, hphase⟩ := h.parents name parent child hparent hold
    by_cases hpath : parent = path
    · subst hpath
      rw [htask] at hfound
      cases hfound
      refine ⟨_, setTask_self, .inr ?_⟩
      rcases hphase with ⟨id, info, hwaits, hname⟩ | ⟨hpast, hresult⟩
      · cases hwaits
        cases hmoves with
        | collected hresults hcollect =>
            obtain ⟨done, hdone, hresult⟩ := childResults_some hresults hname
            rw [hold] at hdone
            cases hdone
            exact ⟨rfl, by rw [hresult]; exact Option.some_ne_none _⟩
        | failed hresults =>
            obtain ⟨done, hdone, hresult⟩ := childResults_some hresults hname
            rw [hold] at hdone
            cases hdone
            exact ⟨rfl, by rw [hresult]; exact Option.some_ne_none _⟩
      · cases hmoves with
        | removed => exact ⟨rfl, hresult⟩
        | filled => exact ⟨rfl, hresult⟩
        | _ => cases hpast
    · exact ⟨found, h.frame htask hmoves hpath hfound, hphase⟩

/-- Owners after a move: the task that moved, or one that was an owner. -/
theorem Inv.owner_cases {other : TaskPath} {found : Task} {id : PackageId} {info : RegistryVersion}
    (hfound : setTask state.tasks path ⟨call, phase⟩ (spawned event phase) other = some found)
    (howned : found.phase.owned = some (id, info)) :
    (other = path ∧ phase.owned = some (id, info) ∧
      (old.owned = some (id, info) ∧ after[id]? = some (buildPlaceholder id info) ∨
        id ∉ state.packages ∧ after[id]? = some (buildPlaceholder id info))) ∨
      (other ≠ path ∧ state.tasks other = some found ∧ ∀ info', old.owned ≠ some (id, info')) := by
  rcases setTask_cases hfound with ⟨hpath, rfl⟩ | ⟨name, new, -, -, rfl⟩ | ⟨hne, hold⟩
  · refine .inl ⟨hpath, howned, ?_⟩
    rcases owned_of_moves hmoves with ⟨hsame, hkept⟩ | ⟨own, ownInfo, -, hnew, habsent, hinsert⟩ |
      ⟨_, _, -, hnone, -⟩
    · have hbefore : old.owned = some (id, info) := hsame ▸ howned
      have hentry := h.placeholder path _ id info htask hbefore
      refine .inl ⟨hbefore, ?_⟩
      rcases hkept with hpackages | ⟨new, -, habsent, hinsert⟩
      · rw [hpackages]
        exact hentry
      · rw [hinsert, BTreeMap.getElem?_insert_self_or, if_neg]
        · exact hentry
        · exact fun heq => habsent (heq ▸ Std.ExtTreeMap.mem_iff_isSome_getElem?.mpr
            (Option.isSome_iff_exists.mpr ⟨_, hentry⟩))
    · rw [hnew] at howned
      cases howned
      refine .inr ⟨habsent, ?_⟩
      rw [hinsert, BTreeMap.getElem?_insert_self_or, if_pos rfl]
    · rw [hnone] at howned
      cases howned
  · cases howned
  · refine .inr ⟨hne, hold, fun info' howned' => ?_⟩
    exact hne (h.owner other found path _ id info info' hold howned htask howned')

theorem Inv.placeholder_step {other : TaskPath} {found : Task} {id : PackageId}
    {info : RegistryVersion}
    (hfound : setTask state.tasks path ⟨call, phase⟩ (spawned event phase) other = some found)
    (howned : found.phase.owned = some (id, info)) :
    after[id]? = some (buildPlaceholder id info) := by
  rcases h.owner_cases htask hmoves hfound howned with
    ⟨-, -, ⟨-, hentry⟩ | ⟨-, hentry⟩⟩ | ⟨-, hold, hforeign⟩
  · exact hentry
  · exact hentry
  · exact entry_kept hmoves (h.placeholder other found id info hold howned) hforeign

theorem Inv.owner_step {a b : TaskPath} {ta tb : Task} {id : PackageId}
    {info info' : RegistryVersion}
    (ha : setTask state.tasks path ⟨call, phase⟩ (spawned event phase) a = some ta)
    (hoa : ta.phase.owned = some (id, info))
    (hb : setTask state.tasks path ⟨call, phase⟩ (spawned event phase) b = some tb)
    (hob : tb.phase.owned = some (id, info')) : a = b := by
  rcases h.owner_cases htask hmoves ha hoa with ⟨hpa, -, hentrya⟩ | ⟨-, hold, hforeign⟩
  · rcases h.owner_cases htask hmoves hb hob with ⟨hpb, -, -⟩ | ⟨-, hold, hforeign⟩
    · rw [hpa, hpb]
    · rcases hentrya with ⟨hbefore, -⟩ | ⟨habsent, -⟩
      · exact absurd hbefore (hforeign info)
      · exact absurd (Std.ExtTreeMap.mem_iff_isSome_getElem?.mpr (Option.isSome_iff_exists.mpr
          ⟨_, h.placeholder b tb id info' hold hob⟩)) habsent
  · rcases h.owner_cases htask hmoves hb hob with ⟨-, -, hentryb⟩ | ⟨-, hold', -⟩
    · rcases hentryb with ⟨hbefore, -⟩ | ⟨habsent, -⟩
      · exact absurd hbefore (hforeign info')
      · exact absurd (Std.ExtTreeMap.mem_iff_isSome_getElem?.mpr (Option.isSome_iff_exists.mpr
          ⟨_, h.placeholder a ta id info hold hoa⟩)) habsent
    · exact h.owner a ta b tb id info info' hold hoa hold' hob

/-- An entry that was there and stays has an owner or is settled. -/
theorem Inv.settled_before {id : PackageId} {package : ResolvedPackage}
    (hid : state.packages[id]? = some package) (hkeep : old.owned = phase.owned ∨
      ∀ info, old.owned ≠ some (id, info)) :
    (∃ other task info, setTask state.tasks path ⟨call, phase⟩ (spawned event phase) other =
        some task ∧ task.phase.owned = some (id, info)) ∨
      FromSeed ctx package ∨ Filled S ctx id package := by
  rcases h.settled id package hid with ⟨other, task, info, hother, howned⟩ | hsettled
  · refine .inl ?_
    by_cases hpath : other = path
    · subst hpath
      rw [htask] at hother
      cases hother
      rcases hkeep with hsame | hforeign
      · exact ⟨other, _, info, setTask_self, hsame ▸ howned⟩
      · exact absurd howned (hforeign info)
    · exact ⟨other, task, info, h.frame htask hmoves hpath hother, howned⟩
  · exact .inr hsettled

theorem Inv.settled_step {id : PackageId} {package : ResolvedPackage}
    (hid : after[id]? = some package) :
    (∃ other task info, setTask state.tasks path ⟨call, phase⟩ (spawned event phase) other =
        some task ∧ task.phase.owned = some (id, info)) ∨
      FromSeed ctx package ∨ Filled S ctx id package := by
  rcases owned_of_moves hmoves with ⟨hsame, hpackages | ⟨new, hseed, -, hinsert⟩⟩ |
    ⟨new, info, hnone, hnew, -, hinsert⟩ |
    ⟨own, info, howned, -, herase | ⟨dependencies, hold, hupdate⟩⟩
  · rw [hpackages] at hid
    exact h.settled_before htask hmoves hid (.inl hsame.symm)
  · rw [hinsert, BTreeMap.getElem?_insert_self_or] at hid
    split at hid
    next =>
        cases hid
        exact .inr (.inl hseed)
    next => exact h.settled_before htask hmoves hid (.inl hsame.symm)
  · rw [hinsert, BTreeMap.getElem?_insert_self_or] at hid
    split at hid
    next heq =>
        subst heq
        exact .inl ⟨path, _, info, setTask_self, hnew⟩
    next =>
        refine h.settled_before htask hmoves hid (.inr fun info => ?_)
        rw [hnone]
        exact (Option.some_ne_none _).symm
  · rw [herase, Std.ExtTreeMap.getElem?_erase] at hid
    simp only [Std.LawfulEqCmp.compare_eq_iff_eq] at hid
    split at hid
    next => cases hid
    next hne =>
        refine h.settled_before htask hmoves hid (.inr fun info' howned' => hne ?_)
        rw [howned] at howned'
        cases howned'
        rfl
  · rw [hupdate, getElem?_updateDependencies] at hid
    split at hid
    next heq =>
        subst heq
        rw [h.placeholder path _ own info htask howned, Option.map_some, Option.some.injEq] at hid
        subst hold
        obtain ⟨hoffers, hcovers⟩ := h.sound path _ htask
        subst hid
        exact .inr (.inr ⟨info, hoffers, rfl, hcovers⟩)
    next hne =>
        refine h.settled_before htask hmoves hid (.inr fun info' howned' => hne ?_)
        rw [howned] at howned'
        cases howned'
        rfl

end Preservation

theorem Inv.step {state next : State} {choice : Choice} {event : Event} (h : Inv S ctx state)
    (hstep : advance S ctx state choice = some (event, next)) : Inv S ctx next := by
  obtain ⟨⟨call, old⟩, phase, htask, hmoves, htasks⟩ := moves_of_advance hstep
  constructor
  · rw [htasks]
    exact h.noRoot_step htask _
  · rw [htasks]
    exact fun name path child hpath hchild => h.parents_step htask hmoves hpath hchild
  · rw [htasks]
    exact fun path task hfound => h.sound_step htask hmoves hfound
  · rw [htasks]
    exact fun path task id info hfound howned => h.placeholder_step htask hmoves hfound howned
  · rw [htasks]
    exact fun a ta b tb id info info' ha hoa hb hob => h.owner_step htask hmoves ha hoa hb hob
  · rw [htasks]
    exact fun id package hid => h.settled_step htask hmoves hid

theorem initial_tasks {rootDeps : BTreeMap String String}
    {rootProtocols : BTreeMap String RegistryProtocol} {path : TaskPath} {task : Task}
    (h : (initial rootDeps rootProtocols).tasks path = some task) :
    ∃ name, path = [name] ∧ task.phase = .start := by
  match path with
  | [] => cases h
  | [name] =>
      obtain ⟨range, -, rfl⟩ := Option.map_eq_some_iff.mp h
      exact ⟨name, rfl, rfl⟩
  | _ :: _ :: _ => cases h

theorem Inv.initial (rootDeps : BTreeMap String String)
    (rootProtocols : BTreeMap String RegistryProtocol) :
    Inv S ctx (initial rootDeps rootProtocols) := by
  constructor
  · rfl
  · intro name path child hpath hchild
    obtain ⟨root, heq, -⟩ := initial_tasks hchild
    exact absurd (List.cons.inj heq).2 hpath
  · intro path task htask
    obtain ⟨root, -, hphase⟩ := initial_tasks htask
    rw [hphase]
    trivial
  · intro path task id info htask howned
    obtain ⟨root, -, hphase⟩ := initial_tasks htask
    rw [hphase] at howned
    cases howned
  · intro path task path' task' id info info' htask howned
    obtain ⟨root, -, hphase⟩ := initial_tasks htask
    rw [hphase] at howned
    cases howned
  · intro id package hid
    rw [Resolve.initial, Std.ExtTreeMap.getElem?_empty] at hid
    cases hid

theorem Inv.run {first last : State} {events : List Event} (h : Inv S ctx first)
    (hrun : Run S ctx first events last) : Inv S ctx last := by
  induction hrun with
  | nil => exact h
  | step choice _ hstep ih => exact ih.step hstep

/-- When the root tasks are done, all tasks are. -/
theorem Inv.all_done {state : State} (h : Inv S ctx state)
    (hroots : ∀ name task, state.tasks [name] = some task → task.result? ≠ none)
    {path : TaskPath} {task : Task} (htask : state.tasks path = some task) :
    task.result? ≠ none := by
  induction path generalizing task with
  | nil =>
      rw [h.noRoot] at htask
      cases htask
  | cons name parent ih =>
      by_cases hparent : parent = []
      · subst hparent
        exact hroots name task htask
      · obtain ⟨found, hfound, hphase⟩ := h.parents name parent task hparent htask
        rcases hphase with ⟨id, info, hwaits, -⟩ | ⟨-, hresult⟩
        · exact absurd (by rw [Task.result?, hwaits]) (ih hfound)
        · exact hresult

/-- The root tasks are those of the root dependencies, throughout a run. -/
theorem root_task_of_run {rootDeps : BTreeMap String String}
    {rootProtocols : BTreeMap String RegistryProtocol} {events : List Event} {state : State}
    (hrun : Run S ctx (Resolve.initial rootDeps rootProtocols) events state) {name : String}
    {task : Task} (htask : state.tasks [name] = some task) : name ∈ rootDeps := by
  generalize hfirst : Resolve.initial rootDeps rootProtocols = first at hrun
  induction hrun generalizing task with
  | nil =>
      subst hfirst
      obtain ⟨range, hrange, -⟩ := Option.map_eq_some_iff.mp htask
      exact Std.ExtTreeMap.mem_iff_isSome_getElem?.mpr (Option.isSome_iff_exists.mpr ⟨range, hrange⟩)
  | step choice hrun hstep ih =>
      subst hfirst
      obtain ⟨moved, phase, hmoved, hmoves, htasks⟩ := moves_of_advance hstep
      rw [htasks] at htask
      rcases setTask_cases htask with ⟨hpath, -⟩ | ⟨child, call, heq, -, -⟩ | ⟨-, hold⟩
      · exact ih (hpath ▸ hmoved)
      · have hnil : choice.path = [] := (List.cons.inj heq).2.symm
        rw [hnil, ((Inv.initial rootDeps rootProtocols).run hrun).noRoot] at hmoved
        cases hmoved
      · exact ih hold

theorem Resolves.all_done {rootDeps : BTreeMap String String}
    {rootProtocols : BTreeMap String RegistryProtocol} {events : List Event} {state : State}
    {result : String → Result PackageId}
    (hrun : Run S ctx (Resolve.initial rootDeps rootProtocols) events state)
    (hroots : ∀ name ∈ rootDeps, state.rootResult name = some (result name))
    {path : TaskPath} {task : Task} (htask : state.tasks path = some task) :
    task.result? ≠ none := by
  refine ((Inv.initial rootDeps rootProtocols).run hrun).all_done (fun name found hfound => ?_) htask
  have hresult := hroots name (root_task_of_run hrun hfound)
  rw [State.rootResult, hfound, Option.bind_some] at hresult
  rw [hresult]
  exact Option.some_ne_none _

/-- When a resolution succeeds, in whatever order its tasks ran and whichever
fetches failed, every package of the graph comes from the earlier graph as it
was or has an edge for each of its required dependencies. -/
theorem packages_filled {rootDeps : BTreeMap String String}
    {rootProtocols : BTreeMap String RegistryProtocol} {optionalRootNames : BTreeSet String}
    {events : List Event} {graph : ResolutionGraph}
    (h : Resolves S ctx rootDeps rootProtocols optionalRootNames events graph) :
    ∀ (id : PackageId) package, graph.packages[id]? = some package →
      FromSeed ctx package ∨ Filled S ctx id package := by
  obtain ⟨state, result, hrun, hroots, -, hpackages⟩ := h
  intro id package hid
  rw [hpackages] at hid
  have hinv : Inv S ctx state := (Inv.initial rootDeps rootProtocols).run hrun
  rcases hinv.settled id package hid with ⟨path, task, info, htask, howned⟩ | hsettled
  · obtain ⟨call, phase⟩ := task
    have hdone := Resolves.all_done hrun hroots htask
    cases phase with
    | done => cases howned
    | _ => exact absurd rfl hdone
  · exact hsettled

/-- A published version that depends on others by name. -/
def sampleVersion (dependencies : List String) : RegistryVersion where
  version := "1.0.0"
  dependencies := BTreeMap.collect (dependencies.map fun name => (name, "^1.0.0"))
  optionalDependencies := ∅
  peerDependencies := ∅
  peerDependenciesMeta := ∅
  bundledDependencies := none
  bundleDependencies := none
  dist := ⟨"pkg.tgz", none⟩
  os := []
  cpu := []
  libc := []
  bin := none

/-- A registry where `x` needs `y` and `z`, `y` needs `x`, and `z` is not
published. -/
def brokenCycle : ResolverContext where
  minAgeDays := none
  force := false
  overrides := none
  workspaceSources := none
  existingGraph := none
  platform := ⟨"linux", "x64", "glibc"⟩
  ageOf _ := none
  fetch _ source :=
    if source = "x" then
      .ok ⟨BTreeMap.collect [("1.0.0", sampleVersion ["y", "z"])], ∅, ∅⟩
    else if source = "y" then .ok ⟨BTreeMap.collect [("1.0.0", sampleVersion ["x"])], ∅, ∅⟩
    else .error (.resolutionFailed source "^1.0.0" "not found")

def brokenRoots : BTreeMap String String := BTreeMap.collect [("x", "^1.0.0")]

/-- `y` adopts the placeholder of `x` and is filled; then `x` fails. -/
def brokenSchedule : List Choice :=
  ([["x"], ["x"], ["x"], ["x"], ["y", "x"], ["y", "x"], ["y", "x"], ["y", "x"],
    ["x", "y", "x"], ["x", "y", "x"], ["x", "y", "x"], ["y", "x"], ["y", "x"],
    ["z", "x"], ["z", "x"], ["x"], ["x"]] : List TaskPath).map fun path => ⟨path, none⟩

/-- What is left: `y` alone, with its edge to `x`. -/
def brokenGraph : ResolutionGraph where
  root := ⟨∅⟩
  packages := BTreeMap.collect [(⟨"y", "1.0.0"⟩,
    setDependencies (BTreeMap.collect [("x", ⟨"x", "1.0.0"⟩)])
      (buildPlaceholder ⟨"y", "1.0.0"⟩ (sampleVersion ["x"])))]

def brokenEvents : List Event :=
  [.internal, .internal, .internal, .published ⟨"x", "1.0.0"⟩, .internal, .internal, .internal,
    .published ⟨"y", "1.0.0"⟩, .internal, .internal, .internal, .internal,
    .filled ⟨"y", "1.0.0"⟩, .internal, .internal, .internal, .removed ⟨"x", "1.0.0"⟩]

def brokenError : SnpmError := .resolutionFailed "z" "^1.0.0" "not found"

theorem brokenCycle_resolves :
    Resolves releaseCrate brokenCycle brokenRoots ∅ (.ofList ["x"] compare) brokenEvents
      brokenGraph := by
  have hschedule : (runSchedule releaseCrate brokenCycle (initial brokenRoots ∅)
      brokenSchedule).map (fun r => (r.1, r.2.packages, r.2.rootResult "x")) =
        some (brokenEvents, brokenGraph.packages, some (.error brokenError)) := by
    decide +kernel
  obtain ⟨⟨events, state⟩, hrun, heq⟩ := Option.map_eq_some_iff.mp hschedule
  simp only [Prod.mk.injEq] at heq
  obtain ⟨hevents, hpackages, hresult⟩ := heq
  refine ⟨state, fun _ => .error brokenError, hevents ▸ run_of_runSchedule hrun, ?_, ?_,
    hpackages.symm⟩
  · have hnames : ∀ name ∈ brokenRoots.keys, name = "x" := by decide +kernel
    intro name hname
    rw [hnames name (Std.ExtTreeMap.mem_keys.mpr hname)]
    exact hresult
  · decide +kernel

theorem packages_filled_brokenCycle :
    brokenGraph.packages.size = 1 ∧
      ∀ (id : PackageId) package, brokenGraph.packages[id]? = some package →
        FromSeed brokenCycle package ∨ Filled releaseCrate brokenCycle id package :=
  ⟨by decide +kernel, packages_filled brokenCycle_resolves⟩

end Snpm.Resolve
