import Mathlib
import Snpm.Resolve.SingleFlightSafe

/-!
Whole runs of the shared fetch. What was stored is what the cache has and what
the tasks return, and no fetch of a key starts once its package is stored. Every
task has a bounded number of steps ahead, and some open task can always take one.
-/
namespace Snpm.Resolve.SingleFlight

variable {capacity : Nat} {state next : State} {key : String} {old phase : Phase} {event : Event}
  {events : List Event}

section Stored

theorem Run.inv (hrun : Run capacity initial events state) : Inv capacity state := by
  induction hrun with
  | nil => exact .initial
  | step choice _ hstep ih => exact ih.step hstep

/-- A step that stores fills an empty place of the cache. -/
theorem cache_of_event (hinv : Inv capacity state) {choice : Choice}
    (hstep : advance capacity state choice = some (event, next)) (key : String)
    (package : RegistryPackage) :
    (event = .stored key package → state.cache[key]? = none) ∧
    (next.cache[key]? = some package ↔
      state.cache[key]? = some package ∨ event = .stored key package) := by
  rcases advance_cases hstep with ⟨asked, -, hevent, hnext⟩ | ⟨index, task, after, phase,
    htask, hmoves, hnext⟩
  · subst hevent hnext
    simp
  · have hok := hinv.tasks index task htask
    obtain ⟨asked, old⟩ := task
    subst hnext
    clear hstep
    simp only [setPhase]
    cases hmoves with
    | @stored lock found =>
        have hnone : state.cache[asked]? = none := hok.unset rfl
        refine ⟨?_, ?_⟩
        · intro heq
          cases heq
          exact hnone
        · simp only [BTreeMap.getElem?_insert_self_or]
          by_cases heq : asked = key
          · subst heq
            simp [hnone]
          · simp [heq]
    | _ => simp

theorem Run.stored_iff (hrun : Run capacity initial events state) (key : String)
    (package : RegistryPackage) :
    .stored key package ∈ events ↔ state.cache[key]? = some package := by
  induction hrun with
  | nil => simp [initial]
  | step choice hbefore hstep ih =>
      rw [(cache_of_event (Run.inv hbefore) hstep key package).2, List.mem_append,
        List.mem_singleton, ih, eq_comm (a := Event.stored key package)]

/-- A fetch starts when the cache has no package of the key. -/
theorem unset_of_started {choice : Choice}
    (hstep : advance capacity state choice = some (.started key, next)) :
    state.cache[key]? = none := by
  rcases advance_cases hstep with ⟨asked, -, hevent, -⟩ | ⟨index, task, after, phase, -, hmoves,
    -⟩
  · cases hevent
  · obtain ⟨asked, old⟩ := task
    clear hstep
    cases hmoves with
    | begun hnone => exact hnone

/-- What follows a store in a run neither fetches nor stores for the key. -/
theorem Run.quiet_after (hrun : Run capacity initial events state)
    {before after : List Event} {package : RegistryPackage}
    (hevents : events = before ++ .stored key package :: after) :
    .started key ∉ after ∧ ∀ other, .stored key other ∉ after := by
  induction hrun generalizing after with
  | nil => simp at hevents
  | @step last next events event choice hbefore hstep ih =>
      rcases List.eq_nil_or_concat after with hnil | ⟨front, final, hconcat⟩
      · simp [hnil]
      · subst hconcat
        rw [List.concat_eq_append, ← List.cons_append, ← List.append_assoc] at hevents
        obtain ⟨hfront, hfinal⟩ := List.append_inj' hevents rfl
        have hcache : last.cache[key]? = some package :=
          (Run.stored_iff hbefore key package).mp (by simp [hfront])
        have hquiet := ih hfront
        rw [List.singleton_inj] at hfinal
        subst hfinal
        rw [List.concat_eq_append]
        refine ⟨?_, ?_⟩
        · intro hmem
          rcases List.mem_append.mp hmem with hold | hlast
          · exact hquiet.1 hold
          · rw [← List.mem_singleton.mp hlast] at hstep
            rw [unset_of_started hstep] at hcache
            cases hcache
        · intro other hmem
          rcases List.mem_append.mp hmem with hold | hlast
          · exact hquiet.2 other hold
          · have hnone := (cache_of_event (Run.inv hbefore) hstep key other).1
              (List.mem_singleton.mp hlast).symm
            rw [hnone] at hcache
            cases hcache

end Stored

def advanceAll (capacity : Nat) (state : State) : List Choice → Option State
  | [] => some state
  | choice :: rest =>
      (advance capacity state choice).bind fun (_, next) => advanceAll capacity next rest

theorem run_of_advanceAll {first : State} {choices : List Choice}
    (hrun : Run capacity first events state)
    (h : advanceAll capacity state choices = some next) :
    ∃ later, Run capacity first later next := by
  induction choices generalizing state events with
  | nil =>
      cases h
      exact ⟨events, hrun⟩
  | cons choice rest ih =>
      obtain ⟨⟨event, middle⟩, hstep, hrest⟩ := Option.bind_eq_some_iff.mp h
      exact ih (.step choice hrun hstep) hrest

/-- Tasks that ask for a key at the same time share one fetch: only one of them
fetches, what it stores is what every task that succeeds returns, and no fetch of
the key starts after that. The fetches under way are never more than the permits. -/
theorem single_flight (hrun : Run capacity initial events state) :
    (∀ (i j : Nat) a b, state.tasks[i]? = some a → state.tasks[j]? = some b → a.key = b.key →
      a.phase.isPending = true → b.phase.isPending = true → i = j) ∧
    (∀ (i : Nat) task package, state.tasks[i]? = some task →
      task.phase = .done (some (.ok package)) → .stored task.key package ∈ events) ∧
    (∀ before after key package, events = before ++ .stored key package :: after →
      .started key ∉ after ∧ ∀ other, .stored key other ∉ after) ∧
    state.tasks.countP (·.phase.isPending) ≤ capacity := by
  have hinv := Run.inv hrun
  refine ⟨?_, ?_, fun _ _ _ _ hevents => Run.quiet_after hrun hevents, ?_⟩
  · intro i j a b ha hb hkey hpending hpending'
    obtain ⟨lock, hguard⟩ := guard_of_pending hpending
    obtain ⟨lock', hguard'⟩ := guard_of_pending hpending'
    have hentry := (hinv.tasks i a ha).entry lock (lock_of_guard hguard).2
    have hentry' := (hinv.tasks j b hb).entry lock' (lock_of_guard hguard').2
    rw [hkey, hentry', Option.some.injEq] at hentry
    subst hentry
    exact hinv.exclusive i j a b lock' ha hb hguard hguard'
  · intro i task package htask hdone
    refine (Run.stored_iff hrun task.key package).mpr ?_
    exact (hinv.tasks i task htask).answer package (by rw [hdone]; rfl)
  · refine Nat.le_trans (List.countP_mono_left fun task _ hpending => ?_) hinv.permits
    cases hphase : task.phase with
    | fetching => rfl
    | storing => rfl
    | _ =>
        rw [hphase] at hpending
        cases hpending

def samplePackage : RegistryPackage := ⟨∅, ∅, BTreeMap.collect [("latest", "1.3.0")]⟩

/-- Two tasks ask before either has the package; the second gets the lock last. -/
def twoAsk : List Choice :=
  [.call "left-pad", .call "left-pad"] ++
    [0, 1, 0, 1, 0, 0, 0, 0, 0, 0, 0, 1, 0, 0, 1, 1, 1, 1].map fun index =>
      .move index (.ok samplePackage)

def returned (package : RegistryPackage) (task : Task) : Bool :=
  match task.phase with
  | .done (some (.ok found)) => found = package
  | _ => false

theorem single_flight_twoAsk : ∃ events state, Run 1 initial events state ∧
    state.tasks.map (·.key) = ["left-pad", "left-pad"] ∧
    state.tasks.all (returned samplePackage) = true ∧
    ∀ before after key package, events = before ++ .stored key package :: after →
      .started key ∉ after ∧ ∀ other, .stored key other ∉ after := by
  have hserved : ((advanceAll 1 initial twoAsk).any fun state =>
      state.tasks.map (·.key) = ["left-pad", "left-pad"] ∧
        state.tasks.all (returned samplePackage)) = true := by decide +kernel
  obtain ⟨state, hstate, hanswers⟩ := (Option.any_eq_true _ _).mp hserved
  obtain ⟨hkeys, hall⟩ := of_decide_eq_true hanswers
  obtain ⟨events, hrun⟩ := run_of_advanceAll (.nil initial) hstate
  exact ⟨events, state, hrun, hkeys, hall, (single_flight hrun).2.2.1⟩

section Ends

/-- The steps a task has ahead at most. -/
def Phase.ahead : Phase → Nat
  | .asking => 12
  | .locking => 11
  | .queued _ => 10
  | .holding _ => 9
  | .waiting _ => 8
  | .permitted _ => 7
  | .fetching _ => 6
  | .storing _ _ => 5
  | .finished _ _ _ => 4
  | .failing _ _ | .cleaning _ _ => 3
  | .leaving _ _ => 1
  | .done _ => 0

def State.ahead (state : State) : Nat :=
  (state.tasks.map (·.phase.ahead)).sum

def Choice.isCall : Choice → Bool
  | .call _ => true
  | _ => false

theorem ahead_of_moves (h : Moves capacity state key old event next phase) :
    phase.ahead < old.ahead := by
  cases h with
  | dropped hlock hstays =>
      cases old with
      | leaving lock outcome =>
          cases hlock
          exact absurd rfl (hstays outcome)
      | asking => cases hlock
      | locking => cases hlock
      | done => cases hlock
      | _ => simp [Phase.ahead]
  | droppedEarly hlock hopen =>
      cases old with
      | asking => simp [Phase.ahead]
      | locking => simp [Phase.ahead]
      | done outcome => exact absurd rfl (hopen outcome)
      | _ => cases hlock
  | _ => simp [Phase.ahead]

theorem ahead_set {tasks : List Task} {index : Nat} {task new : Task}
    (htask : tasks[index]? = some task) (hless : new.phase.ahead < task.phase.ahead) :
    ((tasks.set index new).map (·.phase.ahead)).sum < (tasks.map (·.phase.ahead)).sum := by
  induction tasks generalizing index with
  | nil => cases htask
  | cons first tasks ih =>
      cases index with
      | zero =>
          cases htask
          simpa using hless
      | succ index => simpa using ih htask

theorem ahead_step {choice : Choice} (hcall : choice.isCall = false)
    (h : advance capacity state choice = some (event, next)) : next.ahead < state.ahead := by
  rcases advance_cases h with ⟨asked, hchoice, -, -⟩ | ⟨index, task, after, phase, htask, hmoves,
    hnext⟩
  · rw [hchoice] at hcall
    cases hcall
  · subst hnext
    rw [State.ahead, setPhase, tasks_of_moves hmoves]
    exact ahead_set htask (ahead_of_moves hmoves)

theorem ahead_run {choices : List Choice} (hcalls : ∀ choice ∈ choices, choice.isCall = false)
    (h : advanceAll capacity state choices = some next) :
    choices.length + next.ahead ≤ state.ahead := by
  induction choices generalizing state with
  | nil =>
      cases h
      simp
  | cons choice rest ih =>
      obtain ⟨⟨event, middle⟩, hstep, hrest⟩ := Option.bind_eq_some_iff.mp h
      have hless := ahead_step (hcalls choice List.mem_cons_self) hstep
      have hbound := ih (fun other hmem => hcalls other (List.mem_cons_of_mem _ hmem)) hrest
      rw [List.length_cons]
      omega

theorem ahead_le : state.ahead ≤ 12 * state.tasks.length := by
  rw [State.ahead]
  induction state.tasks with
  | nil => simp
  | cons task tasks ih =>
      have hphase : task.phase.ahead ≤ 12 := by
        cases task.phase <;> simp [Phase.ahead]
      rw [List.map_cons, List.sum_cons, List.length_cons]
      omega

/-- A task that neither waits for a lock nor for a permit has a step. -/
theorem canMove_of_ready {index : Nat} {task : Task} (htask : state.tasks[index]? = some task)
    (hqueued : ∀ lock, task.phase = .queued lock → state.isFree lock = true)
    (hwaiting : ∀ lock, task.phase = .waiting lock → state.permitsUsed < capacity)
    (hdone : ∀ outcome, task.phase ≠ .done outcome) (answer : Result RegistryPackage) :
    (advance capacity state (.move index answer)).isSome = true := by
  have hstep : (fetchStep capacity state task.key answer task.phase).isSome = true := by
    cases hphase : task.phase with
    | asking =>
        rw [fetchStep]
        split <;> rfl
    | queued lock => rw [fetchStep, if_pos (hqueued lock hphase)]; rfl
    | holding lock =>
        rw [fetchStep]
        split <;> rfl
    | waiting lock => rw [fetchStep, if_pos (hwaiting lock hphase)]; rfl
    | permitted lock =>
        rw [fetchStep]
        split <;> rfl
    | fetching lock => cases answer <;> rfl
    | done outcome => exact absurd hphase (hdone outcome)
    | _ => rfl
  obtain ⟨⟨event, next, phase⟩, hmove⟩ := Option.isSome_iff_exists.mp hstep
  simp [advance, htask, hmove]

/-- A task with a permit has a step. -/
theorem ready_of_permit {index : Nat} {task : Task} (htask : state.tasks[index]? = some task)
    (hpermit : task.phase.hasPermit = true) (answer : Result RegistryPackage) :
    (advance capacity state (.move index answer)).isSome = true := by
  refine canMove_of_ready htask ?_ ?_ ?_ answer
  · intro lock hphase
    rw [hphase] at hpermit
    cases hpermit
  · intro lock hphase
    rw [hphase] at hpermit
    cases hpermit
  · intro outcome hphase
    rw [hphase] at hpermit
    cases hpermit

/-- With a permit to give, a task that waits for one has a step or another task has. -/
theorem canMove_of_waiting (hcapacity : 0 < capacity) {index : Nat} {task : Task}
    (htask : state.tasks[index]? = some task) {lock : LockId} (hphase : task.phase = .waiting lock) :
    ∃ other, ∀ answer, (advance capacity state (.move other answer)).isSome = true := by
  by_cases hroom : state.permitsUsed < capacity
  · refine ⟨index, canMove_of_ready htask ?_ ?_ ?_⟩
    · intro lock hqueued
      rw [hphase] at hqueued
      cases hqueued
    · exact fun _ _ => hroom
    · intro outcome hdone
      rw [hphase] at hdone
      cases hdone
  · have hused : 0 < state.permitsUsed := by omega
    obtain ⟨holder, hmem, hpermit⟩ := List.countP_pos_iff.mp hused
    obtain ⟨other, hother⟩ := List.getElem?_of_mem hmem
    exact ⟨other, ready_of_permit hother hpermit⟩

/-- A task that has a guard moves, or waits for a permit. -/
theorem canMove_of_guard (hcapacity : 0 < capacity) {index : Nat} {task : Task}
    (htask : state.tasks[index]? = some task) {lock : LockId}
    (hguard : task.phase.guard? = some lock) :
    ∃ other, ∀ answer, (advance capacity state (.move other answer)).isSome = true := by
  cases hphase : task.phase with
  | waiting lock => exact canMove_of_waiting hcapacity htask hphase
  | _ =>
      refine ⟨index, canMove_of_ready htask ?_ ?_ ?_⟩ <;> simp_all [Phase.guard?]

end Ends

end Snpm.Resolve.SingleFlight
