import Mathlib
import Snpm.Resolve.Registry

/-!
Fetching the metadata of a package once. Tasks that want the metadata of one
cache key share a cache and take turns behind a lock of the key; each looks into
the cache again when it gets the lock, and once more when it gets a permit. The
lock of a key is made on demand and dropped when the task that leaves is the last
one with a reference to it. A step is what one task does between two points where
another may run, and the future of a task can be dropped while it waits.
-/
namespace Snpm.Resolve.SingleFlight

/-- The identity of a lock: two references are equal when the pointers are. -/
abbrev LockId := Nat

/-- Where a task is. The lock is the one its reference leads to. -/
inductive Phase where
  | asking
  | locking
  | queued (lock : LockId)
  | holding (lock : LockId)
  | waiting (lock : LockId)
  | permitted (lock : LockId)
  | fetching (lock : LockId)
  | storing (lock : LockId) (package : RegistryPackage)
  | failing (lock : LockId) (error : SnpmError)
  | finished (lock : LockId) (permit : Bool) (package : RegistryPackage)
  | cleaning (lock : LockId) (package : RegistryPackage)
  | leaving (lock : LockId) (outcome : Option (Result RegistryPackage))
  | done (outcome : Option (Result RegistryPackage))

structure Task where
  key : String
  phase : Phase

structure State where
  cache : BTreeMap String RegistryPackage
  locks : BTreeMap String LockId
  next : LockId
  tasks : List Task

inductive Event where
  | internal
  | started (key : String)
  | stored (key : String) (package : RegistryPackage)

namespace Phase

/-- The lock that the task has a reference to. -/
def lock? : Phase → Option LockId
  | queued lock | holding lock | waiting lock | permitted lock | fetching lock | storing lock _
  | failing lock _ | finished lock _ _ | cleaning lock _ | leaving lock _ => some lock
  | _ => none

/-- The lock whose guard the task has. -/
def guard? : Phase → Option LockId
  | holding lock | waiting lock | permitted lock | fetching lock | storing lock _ | failing lock _
  | finished lock _ _ => some lock
  | _ => none

def hasPermit : Phase → Bool
  | permitted _ | fetching _ | storing _ _ | failing _ _ => true
  | finished _ permit _ => permit
  | _ => false

end Phase

/-- A mutex is free when no task has its guard. -/
def State.isFree (state : State) (lock : LockId) : Bool :=
  state.tasks.all fun task => task.phase.guard? != some lock

def State.permitsUsed (state : State) : Nat :=
  state.tasks.countP (·.phase.hasPermit)

/-- The references to a lock, in the map and in the tasks. -/
def State.strongCount (state : State) (lock : LockId) : Nat :=
  state.locks.values.count lock + state.tasks.countP (·.phase.lock? == some lock)

/-- The lock of a key, made when there is none. -/
def packageFetchLock (state : State) (key : String) : State × LockId :=
  match state.locks[key]? with
  | some lock => (state, lock)
  | none => ({ state with locks := state.locks.insert key state.next, next := state.next + 1 },
      state.next)

/-- The entry goes when only the map and this task refer to the lock. -/
def cleanupPackageFetchLock (state : State) (key : String) (lock : LockId) : State :=
  match state.locks[key]? with
  | some existing =>
      if existing = lock ∧ state.strongCount existing = 2 then
        { state with locks := state.locks.erase key }
      else state
  | none => state

/-- What `fetch_registry_package_cached` does next. The answer is the registry's,
when a fetch ends. -/
def fetchStep (capacity : Nat) (state : State) (key : String) (answer : Result RegistryPackage) :
    Phase → Option (Event × State × Phase)
  | .asking =>
      match state.cache[key]? with
      | some package => some (.internal, state, .done (some (.ok package)))
      | none => some (.internal, state, .locking)
  | .locking =>
      some (.internal, (packageFetchLock state key).1, .queued (packageFetchLock state key).2)
  | .queued lock => if state.isFree lock then some (.internal, state, .holding lock) else none
  | .holding lock =>
      match state.cache[key]? with
      | some package => some (.internal, state, .finished lock false package)
      | none => some (.internal, state, .waiting lock)
  | .waiting lock =>
      if state.permitsUsed < capacity then some (.internal, state, .permitted lock) else none
  | .permitted lock =>
      match state.cache[key]? with
      | some package => some (.internal, state, .finished lock true package)
      | none => some (.started key, state, .fetching lock)
  | .fetching lock =>
      match answer with
      | .ok package => some (.internal, state, .storing lock package)
      | .error error => some (.internal, state, .failing lock error)
  | .storing lock package =>
      some (.stored key package, { state with cache := state.cache.insert key package },
        .finished lock true package)
  | .failing lock error => some (.internal, state, .leaving lock (some (.error error)))
  | .finished lock _ package => some (.internal, state, .cleaning lock package)
  | .cleaning lock package =>
      some (.internal, cleanupPackageFetchLock state key lock, .leaving lock (some (.ok package)))
  | .leaving _ outcome => some (.internal, state, .done outcome)
  | .done _ => none

/-- Dropping the future gives up the permit and the guard, then the reference. -/
def cancelled : Phase → Option Phase
  | .leaving _ _ | .done _ => none
  | phase =>
      match phase.lock? with
      | some lock => some (.leaving lock none)
      | none => some (.done none)

inductive Choice where
  | call (key : String)
  | move (index : Nat) (answer : Result RegistryPackage)
  | cancel (index : Nat)

def setPhase (state : State) (index : Nat) (task : Task) (phase : Phase) : State :=
  { state with tasks := state.tasks.set index ⟨task.key, phase⟩ }

def advance (capacity : Nat) (state : State) : Choice → Option (Event × State)
  | .call key => some (.internal, { state with tasks := state.tasks ++ [⟨key, .asking⟩] })
  | .move index answer => do
      let task ← state.tasks[index]?
      let (event, next, phase) ← fetchStep capacity state task.key answer task.phase
      some (event, setPhase next index task phase)
  | .cancel index => do
      let task ← state.tasks[index]?
      let phase ← cancelled task.phase
      some (.internal, setPhase state index task phase)

inductive Run (capacity : Nat) : State → List Event → State → Prop where
  | nil (state : State) : Run capacity state [] state
  | step {first last next : State} {events : List Event} {event : Event} (choice : Choice) :
      Run capacity first events last → advance capacity last choice = some (event, next) →
        Run capacity first (events ++ [event]) next

def initial : State := ⟨∅, ∅, 0, []⟩

section Moves

variable {capacity : Nat} {state next : State} {key : String} {old phase : Phase} {event : Event}

/-- The moves of a task, one for each way through its step. -/
inductive Moves (capacity : Nat) (state : State) (key : String) :
    Phase → Event → State → Phase → Prop where
  | hit {package : RegistryPackage} (h : state.cache[key]? = some package) :
      Moves capacity state key .asking .internal state (.done (some (.ok package)))
  | miss : Moves capacity state key .asking .internal state .locking
  | found {lock : LockId} (h : state.locks[key]? = some lock) :
      Moves capacity state key .locking .internal state (.queued lock)
  | made (h : state.locks[key]? = none) :
      Moves capacity state key .locking .internal
        { state with locks := state.locks.insert key state.next, next := state.next + 1 }
        (.queued state.next)
  | locked {lock : LockId} (h : state.isFree lock = true) :
      Moves capacity state key (.queued lock) .internal state (.holding lock)
  | secondHit {lock : LockId} {package : RegistryPackage} (h : state.cache[key]? = some package) :
      Moves capacity state key (.holding lock) .internal state (.finished lock false package)
  | secondMiss {lock : LockId} :
      Moves capacity state key (.holding lock) .internal state (.waiting lock)
  | admitted {lock : LockId} (h : state.permitsUsed < capacity) :
      Moves capacity state key (.waiting lock) .internal state (.permitted lock)
  | thirdHit {lock : LockId} {package : RegistryPackage} (h : state.cache[key]? = some package) :
      Moves capacity state key (.permitted lock) .internal state (.finished lock true package)
  | begun {lock : LockId} (h : state.cache[key]? = none) :
      Moves capacity state key (.permitted lock) (.started key) state (.fetching lock)
  | answered {lock : LockId} {package : RegistryPackage} :
      Moves capacity state key (.fetching lock) .internal state (.storing lock package)
  | refused {lock : LockId} {error : SnpmError} :
      Moves capacity state key (.fetching lock) .internal state (.failing lock error)
  | stored {lock : LockId} {package : RegistryPackage} :
      Moves capacity state key (.storing lock package) (.stored key package)
        { state with cache := state.cache.insert key package } (.finished lock true package)
  | failed {lock : LockId} {error : SnpmError} :
      Moves capacity state key (.failing lock error) .internal state
        (.leaving lock (some (.error error)))
  | released {lock : LockId} {permit : Bool} {package : RegistryPackage} :
      Moves capacity state key (.finished lock permit package) .internal state
        (.cleaning lock package)
  | cleaned {lock : LockId} {package : RegistryPackage} (h : state.locks[key]? = some lock)
      (hcount : state.strongCount lock = 2) :
      Moves capacity state key (.cleaning lock package) .internal
        { state with locks := state.locks.erase key } (.leaving lock (some (.ok package)))
  | spared {lock : LockId} {package : RegistryPackage} :
      Moves capacity state key (.cleaning lock package) .internal state
        (.leaving lock (some (.ok package)))
  | left {lock : LockId} {outcome : Option (Result RegistryPackage)} :
      Moves capacity state key (.leaving lock outcome) .internal state (.done outcome)
  | dropped {phase : Phase} {lock : LockId} (h : phase.lock? = some lock)
      (hstays : ∀ outcome, phase ≠ .leaving lock outcome) :
      Moves capacity state key phase .internal state (.leaving lock none)
  | droppedEarly {phase : Phase} (h : phase.lock? = none)
      (hopen : ∀ outcome, phase ≠ .done outcome) :
      Moves capacity state key phase .internal state (.done none)

theorem moves_of_fetchStep {answer : Result RegistryPackage}
    (h : fetchStep capacity state key answer old = some (event, next, phase)) :
    Moves capacity state key old event next phase := by
  cases old with
  | asking =>
      simp only [fetchStep] at h
      cases hcache : state.cache[key]? with
      | some package =>
          rw [hcache] at h
          cases h
          exact .hit hcache
      | none =>
          rw [hcache] at h
          cases h
          exact .miss
  | locking =>
      simp only [fetchStep, packageFetchLock] at h
      cases hlock : state.locks[key]? with
      | some lock =>
          rw [hlock] at h
          cases h
          exact .found hlock
      | none =>
          rw [hlock] at h
          cases h
          exact .made hlock
  | queued lock =>
      simp only [fetchStep] at h
      split at h
      next hfree =>
          cases h
          exact .locked hfree
      next => cases h
  | holding lock =>
      simp only [fetchStep] at h
      cases hcache : state.cache[key]? with
      | some package =>
          rw [hcache] at h
          cases h
          exact .secondHit hcache
      | none =>
          rw [hcache] at h
          cases h
          exact .secondMiss
  | waiting lock =>
      simp only [fetchStep] at h
      split at h
      next hroom =>
          cases h
          exact .admitted hroom
      next => cases h
  | permitted lock =>
      simp only [fetchStep] at h
      cases hcache : state.cache[key]? with
      | some package =>
          rw [hcache] at h
          cases h
          exact .thirdHit hcache
      | none =>
          rw [hcache] at h
          cases h
          exact .begun hcache
  | fetching lock =>
      cases answer with
      | ok package =>
          cases h
          exact .answered
      | error error =>
          cases h
          exact .refused
  | storing lock package =>
      cases h
      exact .stored
  | failing lock error =>
      cases h
      exact .failed
  | finished lock permit package =>
      cases h
      exact .released
  | cleaning lock package =>
      simp only [fetchStep, cleanupPackageFetchLock] at h
      cases hlock : state.locks[key]? with
      | some existing =>
          rw [hlock] at h
          simp only at h
          split at h
          next hlast =>
              cases h
              exact .cleaned (hlast.1 ▸ hlock) (hlast.1 ▸ hlast.2)
          next =>
              cases h
              exact .spared
      | none =>
          rw [hlock] at h
          cases h
          exact .spared
  | leaving lock outcome =>
      cases h
      exact .left
  | done outcome => cases h

theorem moves_of_cancelled (h : cancelled old = some phase) :
    Moves capacity state key old .internal state phase := by
  cases old with
  | asking =>
      cases h
      exact .droppedEarly rfl (by simp)
  | locking =>
      cases h
      exact .droppedEarly rfl (by simp)
  | leaving => cases h
  | done => cases h
  | _ =>
      cases h
      exact .dropped rfl (by simp)

theorem tasks_of_moves (h : Moves capacity state key old event next phase) :
    next.tasks = state.tasks := by
  cases h with
  | _ => rfl

/-- A step adds a task or moves one. -/
theorem advance_cases {choice : Choice} {after : State}
    (h : advance capacity state choice = some (event, after)) :
    (∃ key, choice = .call key ∧ event = .internal ∧
      after = { state with tasks := state.tasks ++ [⟨key, .asking⟩] }) ∨
    ∃ index task next phase, state.tasks[index]? = some task ∧
      Moves capacity state task.key task.phase event next phase ∧
      after = setPhase next index task phase := by
  cases choice with
  | call key =>
      cases h
      exact .inl ⟨key, rfl, rfl, rfl⟩
  | move index answer =>
      obtain ⟨task, htask, h⟩ := Option.bind_eq_some_iff.mp h
      obtain ⟨⟨event', next, phase⟩, hstep, h⟩ := Option.bind_eq_some_iff.mp h
      cases h
      exact .inr ⟨index, task, next, phase, htask, moves_of_fetchStep hstep, rfl⟩
  | cancel index =>
      obtain ⟨task, htask, h⟩ := Option.bind_eq_some_iff.mp h
      obtain ⟨phase, hcancel, h⟩ := Option.bind_eq_some_iff.mp h
      cases h
      exact .inr ⟨index, task, state, phase, htask, moves_of_cancelled hcancel, rfl⟩

end Moves

end Snpm.Resolve.SingleFlight
