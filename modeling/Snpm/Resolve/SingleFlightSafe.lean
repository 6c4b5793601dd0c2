import Mathlib
import Snpm.Library.Counting
import Snpm.Resolve.SingleFlight

/-!
What the shared fetch guarantees in every interleaving. A lock stays in the map
as long as a task works with it, so the tasks of one key work with one lock and
take turns; a fetch that succeeds is the last one of its key, and all tasks of
the key that succeed return its package.
-/
namespace Snpm.Resolve.SingleFlight

variable {capacity : Nat} {state next : State} {key : String} {old phase : Phase} {event : Event}

namespace Phase

/-- The lock that the map still has for the key of the task. -/
def entry? : Phase → Option LockId
  | leaving _ _ => none
  | phase => phase.lock?

/-- A fetch is under way, or its package is not stored yet. -/
def isPending : Phase → Bool
  | fetching _ | storing _ _ => true
  | _ => false

/-- The package that the task is going to return. -/
def answer? : Phase → Option RegistryPackage
  | finished _ _ package | cleaning _ package | leaving _ (some (.ok package))
  | done (some (.ok package)) => some package
  | _ => none

end Phase

/-- What a task relies on. -/
structure Task.Ok (state : State) (task : Task) : Prop where
  fresh : ∀ lock, task.phase.lock? = some lock → lock < state.next
  own : ∀ lock key, task.phase.lock? = some lock → state.locks[key]? = some lock → key = task.key
  entry : ∀ lock, task.phase.entry? = some lock → state.locks[task.key]? = some lock
  unset : task.phase.isPending = true → state.cache[task.key]? = none
  answer : ∀ package, task.phase.answer? = some package →
    state.cache[task.key]? = some package

structure Inv (capacity : Nat) (state : State) : Prop where
  fresh : ∀ (key : String) lock, state.locks[key]? = some lock → lock < state.next
  distinct : ∀ (key key' : String) lock, state.locks[key]? = some lock →
    state.locks[key']? = some lock → key = key'
  tasks : ∀ (index : Nat) task, state.tasks[index]? = some task → task.Ok state
  own : ∀ (i j : Nat) a b lock, state.tasks[i]? = some a → state.tasks[j]? = some b →
    a.phase.lock? = some lock → b.phase.lock? = some lock → a.key = b.key
  exclusive : ∀ (i j : Nat) a b lock, state.tasks[i]? = some a → state.tasks[j]? = some b →
    a.phase.guard? = some lock → b.phase.guard? = some lock → i = j
  permits : state.permitsUsed ≤ capacity

section Phases

theorem lock_of_guard {lock : LockId} (h : phase.guard? = some lock) :
    phase.lock? = some lock ∧ phase.entry? = some lock := by
  cases phase with
  | holding => exact ⟨h, h⟩
  | waiting => exact ⟨h, h⟩
  | permitted => exact ⟨h, h⟩
  | fetching => exact ⟨h, h⟩
  | storing => exact ⟨h, h⟩
  | failing => exact ⟨h, h⟩
  | finished => exact ⟨h, h⟩
  | _ => cases h

theorem lock_of_entry {lock : LockId} (h : phase.entry? = some lock) :
    phase.lock? = some lock := by
  cases phase with
  | leaving => cases h
  | _ => exact h

theorem guard_of_pending (h : phase.isPending = true) : ∃ lock, phase.guard? = some lock := by
  cases phase with
  | fetching lock => exact ⟨lock, rfl⟩
  | storing lock package => exact ⟨lock, rfl⟩
  | _ => cases h

/-- A move gets the lock of the key, keeps the one it had or gives it up. -/
theorem lock_of_moves (h : Moves capacity state key old event next phase) {lock : LockId}
    (hlock : phase.lock? = some lock) :
    old.lock? = some lock ∨
      next.locks[key]? = some lock ∧ (state.locks[key]? = some lock ∨ lock = state.next) := by
  cases h with
  | found hfound =>
      cases hlock
      exact .inr ⟨hfound, .inl hfound⟩
  | made hnone =>
      cases hlock
      exact .inr ⟨by rw [BTreeMap.getElem?_insert_self_or, if_pos rfl], .inr rfl⟩
  | dropped hold =>
      cases hlock
      exact .inl hold
  | hit => cases hlock
  | miss => cases hlock
  | left => cases hlock
  | droppedEarly => cases hlock
  | _ => exact .inl hlock

/-- A guard is taken when no task has it. -/
theorem guard_of_moves (h : Moves capacity state key old event next phase) {lock : LockId}
    (hguard : phase.guard? = some lock) :
    old.guard? = some lock ∨ state.isFree lock = true := by
  cases h with
  | locked hfree =>
      cases hguard
      exact .inr hfree
  | hit => cases hguard
  | miss => cases hguard
  | found => cases hguard
  | made => cases hguard
  | failed => cases hguard
  | released => cases hguard
  | cleaned => cases hguard
  | spared => cases hguard
  | left => cases hguard
  | dropped => cases hguard
  | droppedEarly => cases hguard
  | _ => exact .inl hguard

theorem not_free_of_guard {index : Nat} {task : Task} (htask : state.tasks[index]? = some task)
    {lock : LockId} (hguard : task.phase.guard? = some lock) : state.isFree lock = false := by
  rw [State.isFree, List.all_eq_false]
  exact ⟨task, List.mem_of_getElem? htask, by simp [hguard]⟩

end Phases

section Counting

/-- The last reference besides the map's is the only one. -/
theorem sole_reference {index other : Nat} {task found : Task}
    (htask : state.tasks[index]? = some task) (hfound : state.tasks[other]? = some found)
    {lock : LockId} (hlock : task.phase.lock? = some lock)
    (hmap : state.locks[key]? = some lock) (hcount : state.strongCount lock = 2)
    (hother : found.phase.lock? = some lock) : other = index := by
  by_contra hne
  have htwo : 2 ≤ state.tasks.countP (·.phase.lock? == some lock) :=
    Counting.two_le_countP hfound htask hne (by simp [hother]) (by simp [hlock])
  have hone : 1 ≤ state.locks.values.count lock :=
    List.count_pos_iff.mpr (BTreeMap.mem_values_iff.mpr ⟨key, hmap⟩)
  rw [State.strongCount] at hcount
  omega

end Counting

section Step

variable {index : Nat} {task : Task} (hinv : Inv capacity state)
  (htask : state.tasks[index]? = some task)
  (hmoves : Moves capacity state task.key task.phase event next phase)

theorem setPhase_cases {other : Nat} {found : Task}
    (h : (setPhase next index task phase).tasks[other]? = some found) :
    (other = index ∧ found = ⟨task.key, phase⟩) ∨
      (other ≠ index ∧ next.tasks[other]? = some found) := by
  simp only [setPhase, List.getElem?_set] at h
  by_cases hother : index = other
  · rw [if_pos hother] at h
    split at h
    next =>
        cases h
        exact .inl ⟨hother.symm, rfl⟩
    next => cases h
  · rw [if_neg hother] at h
    exact .inr ⟨Ne.symm hother, h⟩

include hmoves

theorem next_le : state.next ≤ next.next := by
  obtain ⟨key, old⟩ := task
  cases hmoves with
  | made => exact Nat.le_succ _
  | _ => exact Nat.le_refl _

/-- A lock of the map was there before, or is new. -/
theorem locks_of_moves {other : String} {lock : LockId} (h : next.locks[other]? = some lock) :
    state.locks[other]? = some lock ∨
      (other = task.key ∧ lock = state.next ∧ next.next = state.next + 1) := by
  obtain ⟨key, old⟩ := task
  cases hmoves with
  | made hnone =>
      rw [BTreeMap.getElem?_insert_self_or] at h
      split at h
      next heq =>
          cases h
          exact .inr ⟨heq.symm, rfl, rfl⟩
      next => exact .inl h
  | cleaned =>
      rw [Std.ExtTreeMap.getElem?_erase] at h
      split at h
      next => cases h
      next => exact .inl h
  | _ => exact .inl h

/-- The lock of a task is that of no other key, after the step as before. -/
theorem own_step {found : Task} (hok : found.Ok state) {lock : LockId} {other : String}
    (hlock : found.phase.lock? = some lock) (h : next.locks[other]? = some lock) :
    other = found.key := by
  rcases locks_of_moves hmoves h with hold | ⟨-, hnew, -⟩
  · exact hok.own lock other hlock hold
  · exact absurd (hok.fresh lock hlock) (Nat.not_lt.mpr (Nat.le_of_eq hnew.symm))

include hinv

theorem Inv.fresh_step {other : String} {lock : LockId} (h : next.locks[other]? = some lock) :
    lock < next.next := by
  rcases locks_of_moves hmoves h with hold | ⟨-, hlock, hnext⟩
  · exact Nat.lt_of_lt_of_le (hinv.fresh other lock hold) (next_le hmoves)
  · rw [hlock, hnext]
    exact Nat.lt_succ_self _

theorem Inv.distinct_step {left right : String} {lock : LockId}
    (hleft : next.locks[left]? = some lock) (hright : next.locks[right]? = some lock) :
    left = right := by
  rcases locks_of_moves hmoves hleft with hold | ⟨hkey, hlock, -⟩
  · rcases locks_of_moves hmoves hright with hold' | ⟨-, hlock, -⟩
    · exact hinv.distinct left right lock hold hold'
    · exact absurd (hinv.fresh left lock hold) (Nat.not_lt.mpr (Nat.le_of_eq hlock.symm))
  · rcases locks_of_moves hmoves hright with hold' | ⟨hkey', -, -⟩
    · exact absurd (hinv.fresh right lock hold') (Nat.not_lt.mpr (Nat.le_of_eq hlock.symm))
    · rw [hkey, hkey']

include htask

/-- The cache only changes for a task that stores, and it has the only guard. -/
theorem cache_of_moves {other : String} :
    next.cache[other]? = state.cache[other]? ∨
      ∃ lock package, task.phase = .storing lock package ∧ other = task.key ∧
        state.cache[other]? = none ∧ next.cache[other]? = some package := by
  have hok := hinv.tasks index task htask
  obtain ⟨key, old⟩ := task
  cases hmoves with
  | @stored lock package =>
      by_cases heq : other = key
      · subst heq
        refine .inr ⟨lock, package, rfl, rfl, hok.unset rfl, ?_⟩
        rw [BTreeMap.getElem?_insert_self_or, if_pos rfl]
      · refine .inl ?_
        rw [BTreeMap.getElem?_insert_self_or, if_neg (Ne.symm heq)]
  | _ => exact .inl rfl

theorem Inv.other_step {other : Nat} {found : Task} (hother : other ≠ index)
    (hfound : state.tasks[other]? = some found) : found.Ok next := by
  have hok := hinv.tasks other found hfound
  have hmover := hinv.tasks index task htask
  constructor
  · exact fun lock hlock => Nat.lt_of_lt_of_le (hok.fresh lock hlock) (next_le hmoves)
  · exact fun lock key hlock hkey => own_step hmoves hok hlock hkey
  · intro lock hentry
    have hold := hok.entry lock hentry
    obtain ⟨key, old⟩ := task
    cases hmoves with
    | made hnone =>
        rw [BTreeMap.getElem?_insert_self_or, if_neg]
        · exact hold
        · intro heq
          simp only at heq
          rw [heq, hold] at hnone
          cases hnone
    | @cleaned lock' package hmap hcount =>
        rw [Std.ExtTreeMap.getElem?_erase, if_neg]
        · exact hold
        · -- the entry goes only when no other task refers to the lock
          intro heq
          have hkey : key = found.key := Std.LawfulEqCmp.compare_eq_iff_eq.mp heq
          subst hkey
          rw [hold, Option.some.injEq] at hmap
          subst hmap
          exact hother (sole_reference htask hfound rfl hold hcount (lock_of_entry hentry))
    | _ => exact hold
  · intro hpending
    rcases cache_of_moves hinv htask hmoves with hsame | ⟨lock, package, hphase, hkey, -, -⟩
    · rw [hsame]
      exact hok.unset hpending
    · -- two tasks of a key cannot both have a guard
      obtain ⟨lock', hguard⟩ := guard_of_pending hpending
      have hmine : task.phase.guard? = some lock := by rw [hphase]; rfl
      have hentry := hmover.entry lock (lock_of_guard hmine).2
      have hentry' := hok.entry lock' (lock_of_guard hguard).2
      rw [hkey, hentry, Option.some.injEq] at hentry'
      subst hentry'
      exact absurd (hinv.exclusive other index found task lock hfound htask hguard hmine) hother
  · intro package hanswer
    rcases cache_of_moves hinv htask hmoves with hsame | ⟨lock, new, -, -, hnone, -⟩
    · rw [hsame]
      exact hok.answer package hanswer
    · rw [hok.answer package hanswer] at hnone
      cases hnone

theorem Inv.mover_step : Task.Ok next ⟨task.key, phase⟩ := by
  have hok := hinv.tasks index task htask
  constructor
  · intro lock hlock
    rcases lock_of_moves hmoves hlock with hold | ⟨hmap, -⟩
    · exact Nat.lt_of_lt_of_le (hok.fresh lock hold) (next_le hmoves)
    · exact hinv.fresh_step hmoves hmap
  · intro lock key hlock hkey
    rcases lock_of_moves hmoves hlock with hold | ⟨hmap, -⟩
    · exact own_step hmoves hok hold hkey
    · exact hinv.distinct_step hmoves hkey hmap
  · intro lock hentry
    obtain ⟨key, old⟩ := task
    cases hmoves with
    | found hfound =>
        cases hentry
        exact hfound
    | made hnone =>
        cases hentry
        rw [BTreeMap.getElem?_insert_self_or, if_pos rfl]
    | hit => cases hentry
    | miss => cases hentry
    | failed => cases hentry
    | cleaned => cases hentry
    | spared => cases hentry
    | left => cases hentry
    | dropped => cases hentry
    | droppedEarly => cases hentry
    | _ => exact hok.entry lock hentry
  · intro hpending
    obtain ⟨key, old⟩ := task
    cases hmoves with
    | begun hnone => exact hnone
    | answered => exact hok.unset rfl
    | _ => cases hpending
  · intro package hanswer
    obtain ⟨key, old⟩ := task
    cases hmoves with
    | hit hcache =>
        cases hanswer
        exact hcache
    | secondHit hcache =>
        cases hanswer
        exact hcache
    | thirdHit hcache =>
        cases hanswer
        exact hcache
    | stored =>
        cases hanswer
        rw [BTreeMap.getElem?_insert_self_or, if_pos rfl]
    | released =>
        cases hanswer
        exact hok.answer _ rfl
    | cleaned =>
        cases hanswer
        exact hok.answer _ rfl
    | spared =>
        cases hanswer
        exact hok.answer _ rfl
    | @left lock outcome =>
        cases outcome with
        | none => cases hanswer
        | some result =>
            cases result with
            | error error => cases hanswer
            | ok answer =>
                cases hanswer
                exact hok.answer _ rfl
    | _ => cases hanswer

theorem Inv.permits_step : (setPhase next index task phase).permitsUsed ≤ capacity := by
  have hcount := Counting.countP_set (p := fun task : Task => task.phase.hasPermit)
    (b := ⟨task.key, phase⟩) htask
  have hbefore := hinv.permits
  have hused : (setPhase next index task phase).permitsUsed =
      (state.tasks.set index ⟨task.key, phase⟩).countP fun task => task.phase.hasPermit := by
    rw [State.permitsUsed, setPhase, tasks_of_moves hmoves]
  have hgain : phase.hasPermit = true →
      task.phase.hasPermit = true ∨ state.permitsUsed < capacity := by
    intro hpermit
    obtain ⟨key, old⟩ := task
    cases hmoves with
    | admitted hroom => exact .inr hroom
    | thirdHit => exact .inl rfl
    | begun => exact .inl rfl
    | answered => exact .inl rfl
    | refused => exact .inl rfl
    | stored => exact .inl rfl
    | _ => cases hpermit
  rw [hused]
  rw [State.permitsUsed] at hbefore hgain
  simp only at hcount
  cases hnew : phase.hasPermit with
  | false =>
      rw [hnew] at hcount
      simp only [Bool.false_eq_true, if_false] at hcount
      omega
  | true =>
      rw [hnew] at hcount
      simp only [if_true] at hcount
      rcases hgain hnew with hold | hroom
      · rw [hold, if_pos rfl] at hcount
        omega
      · omega

/-- Tasks with one lock have one key, after the step as before. -/
theorem Inv.own_mover {other : Nat} {found : Task} (hfound : state.tasks[other]? = some found)
    {lock : LockId} (hmine : phase.lock? = some lock) (htheirs : found.phase.lock? = some lock) :
    task.key = found.key := by
  rcases lock_of_moves hmoves hmine with hold | ⟨hmap, -⟩
  · exact hinv.own index other task found lock htask hfound hold htheirs
  · exact own_step hmoves (hinv.tasks other found hfound) htheirs hmap

theorem Inv.exclusive_mover {other : Nat} {found : Task} (hother : other ≠ index)
    (hfound : state.tasks[other]? = some found) {lock : LockId}
    (hmine : phase.guard? = some lock) (htheirs : found.phase.guard? = some lock) : False := by
  rcases guard_of_moves hmoves hmine with hold | hfree
  · exact hother (hinv.exclusive other index found task lock hfound htask htheirs hold)
  · rw [not_free_of_guard hfound htheirs] at hfree
    cases hfree

theorem Inv.moved : Inv capacity (setPhase next index task phase) := by
  have htasks : next.tasks = state.tasks := tasks_of_moves hmoves
  constructor
  · exact fun key lock h => hinv.fresh_step hmoves h
  · exact fun key key' lock h h' => hinv.distinct_step hmoves h h'
  · intro other found hfound
    rcases setPhase_cases hfound with ⟨-, heq⟩ | ⟨hother, hold⟩
    · subst heq
      have hok := hinv.mover_step htask hmoves
      exact ⟨hok.fresh, hok.own, hok.entry, hok.unset, hok.answer⟩
    · rw [htasks] at hold
      have hok := hinv.other_step htask hmoves hother hold
      exact ⟨hok.fresh, hok.own, hok.entry, hok.unset, hok.answer⟩
  · intro i j a b lock ha hb hlocka hlockb
    rcases setPhase_cases ha with ⟨-, heqa⟩ | ⟨-, holda⟩
    · rcases setPhase_cases hb with ⟨-, heqb⟩ | ⟨-, holdb⟩
      · rw [heqa, heqb]
      · subst heqa
        exact hinv.own_mover htask hmoves (htasks ▸ holdb) hlocka hlockb
    · rcases setPhase_cases hb with ⟨-, heqb⟩ | ⟨-, holdb⟩
      · subst heqb
        exact (hinv.own_mover htask hmoves (htasks ▸ holda) hlockb hlocka).symm
      · exact hinv.own i j a b lock (htasks ▸ holda) (htasks ▸ holdb) hlocka hlockb
  · intro i j a b lock ha hb hguarda hguardb
    rcases setPhase_cases ha with ⟨hi, heqa⟩ | ⟨hi, holda⟩
    · rcases setPhase_cases hb with ⟨hj, -⟩ | ⟨hj, holdb⟩
      · rw [hi, hj]
      · subst heqa
        exact (hinv.exclusive_mover htask hmoves hj (htasks ▸ holdb) hguarda hguardb).elim
    · rcases setPhase_cases hb with ⟨-, heqb⟩ | ⟨-, holdb⟩
      · subst heqb
        exact (hinv.exclusive_mover htask hmoves hi (htasks ▸ holda) hguardb hguarda).elim
      · exact hinv.exclusive i j a b lock (htasks ▸ holda) (htasks ▸ holdb) hguarda hguardb
  · exact hinv.permits_step htask hmoves

end Step

section Calls

theorem call_cases {tasks : List Task} {index : Nat} {found : Task}
    (h : (tasks ++ [⟨key, .asking⟩])[index]? = some found) :
    tasks[index]? = some found ∨ found = ⟨key, .asking⟩ := by
  rw [List.getElem?_append] at h
  split at h
  next => exact .inl h
  next =>
      refine .inr ?_
      have hmem := List.mem_of_getElem? h
      exact List.mem_singleton.mp hmem

theorem Inv.called (hinv : Inv capacity state) :
    Inv capacity { state with tasks := state.tasks ++ [⟨key, .asking⟩] } := by
  constructor
  · exact hinv.fresh
  · exact hinv.distinct
  · intro index found hfound
    rcases call_cases hfound with hold | hnew
    · have hok := hinv.tasks index found hold
      exact ⟨hok.fresh, hok.own, hok.entry, hok.unset, hok.answer⟩
    · subst hnew
      constructor <;> simp [Phase.lock?, Phase.entry?, Phase.isPending, Phase.answer?]
  · intro i j a b lock ha hb hlocka hlockb
    rcases call_cases ha with holda | hnew
    · rcases call_cases hb with holdb | hnew
      · exact hinv.own i j a b lock holda holdb hlocka hlockb
      · subst hnew
        cases hlockb
    · subst hnew
      cases hlocka
  · intro i j a b lock ha hb hguarda hguardb
    rcases call_cases ha with holda | hnew
    · rcases call_cases hb with holdb | hnew
      · exact hinv.exclusive i j a b lock holda holdb hguarda hguardb
      · subst hnew
        cases hguardb
    · subst hnew
      cases hguarda
  · have hbefore := hinv.permits
    simp only [State.permitsUsed, List.countP_append] at hbefore ⊢
    simpa [Phase.hasPermit] using hbefore

end Calls

theorem Inv.step (hinv : Inv capacity state) {choice : Choice}
    (h : advance capacity state choice = some (event, next)) : Inv capacity next := by
  rcases advance_cases h with ⟨key, -, -, hnext⟩ | ⟨index, task, after, phase, htask, hmoves, hnext⟩
  · rw [hnext]
    exact hinv.called
  · rw [hnext]
    exact hinv.moved htask hmoves

theorem Inv.initial : Inv capacity initial := by
  constructor <;> simp [SingleFlight.initial, State.permitsUsed]

end Snpm.Resolve.SingleFlight
