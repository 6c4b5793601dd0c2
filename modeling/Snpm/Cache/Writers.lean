import Mathlib
import Snpm.Cache.Metadata

/-!
Writes to the metadata cache from several threads and processes. The threads of a
process take turns behind one lock for all shards; processes do not know of each
other. A step of a write is one operation on a file, or its failure. The new shard
is written beside the old file and renamed over it; where that fails the old file
is removed first.
-/
namespace Snpm.Cache.Writers

/-- How far a write is. A read that failed leaves the write with an empty shard. -/
inductive Phase (Bytes : Type) where
  | waiting
  | reading
  | writing (blank : Bool) (now : Nat) (shard : MetadataShard)
  | placing (blank : Bool) (now : Nat) (bytes : Bytes)
  | unlinking (blank : Bool) (now : Nat) (bytes : Bytes)
  | retrying (blank : Bool) (now : Nat) (bytes : Bytes) (removed : Bool)
  | done (saved : Bool)

structure Writer (Bytes : Type) where
  process : Nat
  name : String
  update : Update
  phase : Phase Bytes

structure State (Bytes : Type) where
  disk : Disk Bytes
  writers : List (Writer Bytes)

inductive Event where
  | internal
  | saved (writer : Nat) (name : String) (update : Update) (blank : Bool) (now : Nat)
  | lost (file : String)

variable {Bytes : Type}

/-- A thread between `lock` and the end of the write has the guard of its process. -/
def Phase.hasGuard : Phase Bytes → Bool
  | .waiting | .done _ => false
  | _ => true

/-- A write that has removed the old file and not placed its own. -/
def Phase.hides : Phase Bytes → Bool
  | .retrying _ _ _ true => true
  | _ => false

def State.isFree (state : State Bytes) (process : Nat) : Bool :=
  state.writers.all fun writer => !(writer.process = process && writer.phase.hasGuard)

/-- What a write finds that reads, or fails to read, the shard of the name. -/
def found (disk : Disk Bytes) (name : String) (blank : Bool) : Disk Bytes :=
  if blank then withoutShard disk (metadataShardFile name) else disk

section Step

variable (codec : Bincode Bytes)

/-- The next operation of `write_record_update`, done or failed. -/
def writeStep (state : State Bytes) (index : Nat) (writer : Writer Bytes) (fails : Bool)
    (now : Nat) : Option (Event × Disk Bytes × Phase Bytes) :=
  let disk := state.disk
  let file := metadataShardFile writer.name
  match writer.phase with
  | .waiting =>
      if fails then some (.internal, disk, .done false)
      else if state.isFree writer.process then some (.internal, disk, .reading)
      else none
  | .reading =>
      some (.internal, disk, .writing fails now
        (updatedShard codec (found disk writer.name fails) writer.name writer.update now))
  | .writing blank now shard =>
      match codec.serialize shard with
      | some bytes =>
          some (.internal, disk, if fails then .done false else .placing blank now bytes)
      | none => some (.internal, disk, .done false)
  | .placing blank now bytes =>
      if !fails then
        some (.saved index writer.name writer.update blank now, withShard disk file bytes,
          .done true)
      else if disk.shards.contains file then some (.internal, disk, .unlinking blank now bytes)
      else some (.internal, disk, .done false)
  | .unlinking blank now bytes =>
      if fails then some (.internal, disk, .retrying blank now bytes false)
      else some (.internal, withoutShard disk file, .retrying blank now bytes true)
  | .retrying blank now bytes removed =>
      if !fails then
        some (.saved index writer.name writer.update blank now, withShard disk file bytes,
          .done true)
      else some (if removed then .lost file else .internal, disk, .done false)
  | .done _ => none

inductive Choice where
  | call (process : Nat) (name : String) (update : Update)
  | move (index : Nat) (fails : Bool) (now : Nat)

def setPhase (state : State Bytes) (disk : Disk Bytes) (index : Nat) (writer : Writer Bytes)
    (phase : Phase Bytes) : State Bytes :=
  ⟨disk, state.writers.set index { writer with phase := phase }⟩

def advance (state : State Bytes) : Choice → Option (Event × State Bytes)
  | .call process name update =>
      some (.internal, { state with writers := state.writers ++ [⟨process, name, update, .waiting⟩] })
  | .move index fails now => do
      let writer ← state.writers[index]?
      let (event, disk, phase) ← writeStep codec state index writer fails now
      some (event, setPhase state disk index writer phase)

inductive Run : State Bytes → List Event → State Bytes → Prop where
  | nil (state : State Bytes) : Run state [] state
  | step {first last next : State Bytes} {events : List Event} {event : Event} (choice : Choice) :
      Run first events last → advance codec last choice = some (event, next) →
        Run first (events ++ [event]) next

end Step

section Moves

variable {codec : Bincode Bytes} {state next : State Bytes} {index : Nat} {name : String}
  {update : Update} {process : Nat} {old phase : Phase Bytes} {event : Event} {disk : Disk Bytes}

/-- The moves of a write, one for each way through its step. -/
inductive Moves (codec : Bincode Bytes) (state : State Bytes) (index process : Nat) (name : String)
    (update : Update) : Phase Bytes → Event → Disk Bytes → Phase Bytes → Prop where
  | unmade : Moves codec state index process name update .waiting .internal state.disk (.done false)
  | locked (h : state.isFree process = true) :
      Moves codec state index process name update .waiting .internal state.disk .reading
  | read (blank : Bool) (now : Nat) :
      Moves codec state index process name update .reading .internal state.disk
        (.writing blank now (updatedShard codec (found state.disk name blank) name update now))
  | written {blank : Bool} {now : Nat} {shard : MetadataShard} {bytes : Bytes}
      (h : codec.serialize shard = some bytes) :
      Moves codec state index process name update (.writing blank now shard) .internal state.disk
        (.placing blank now bytes)
  | unwritten {blank : Bool} {now : Nat} {shard : MetadataShard} :
      Moves codec state index process name update (.writing blank now shard) .internal state.disk
        (.done false)
  | placed {blank : Bool} {now : Nat} {bytes : Bytes} :
      Moves codec state index process name update (.placing blank now bytes)
        (.saved index name update blank now) (withShard state.disk (metadataShardFile name) bytes)
        (.done true)
  | blocked {blank : Bool} {now : Nat} {bytes : Bytes} :
      Moves codec state index process name update (.placing blank now bytes) .internal state.disk
        (.unlinking blank now bytes)
  | unplaced {blank : Bool} {now : Nat} {bytes : Bytes} :
      Moves codec state index process name update (.placing blank now bytes) .internal state.disk
        (.done false)
  | unlinked {blank : Bool} {now : Nat} {bytes : Bytes} :
      Moves codec state index process name update (.unlinking blank now bytes) .internal
        (withoutShard state.disk (metadataShardFile name)) (.retrying blank now bytes true)
  | kept {blank : Bool} {now : Nat} {bytes : Bytes} :
      Moves codec state index process name update (.unlinking blank now bytes) .internal state.disk
        (.retrying blank now bytes false)
  | retried {blank : Bool} {now : Nat} {bytes : Bytes} {removed : Bool} :
      Moves codec state index process name update (.retrying blank now bytes removed)
        (.saved index name update blank now) (withShard state.disk (metadataShardFile name) bytes)
        (.done true)
  | gone {blank : Bool} {now : Nat} {bytes : Bytes} :
      Moves codec state index process name update (.retrying blank now bytes true)
        (.lost (metadataShardFile name)) state.disk (.done false)
  | spared {blank : Bool} {now : Nat} {bytes : Bytes} :
      Moves codec state index process name update (.retrying blank now bytes false) .internal
        state.disk (.done false)

theorem moves_of_writeStep {fails : Bool} {now : Nat}
    (h : writeStep codec state index ⟨process, name, update, old⟩ fails now =
      some (event, disk, phase)) :
    Moves codec state index process name update old event disk phase := by
  cases old with
  | waiting =>
      simp only [writeStep] at h
      split at h
      next =>
          cases h
          exact .unmade
      next =>
          split at h
          next hfree =>
              cases h
              exact .locked hfree
          next => cases h
  | reading =>
      cases h
      exact .read fails now
  | writing blank now shard =>
      simp only [writeStep] at h
      cases hbytes : codec.serialize shard with
      | some bytes =>
          rw [hbytes] at h
          cases fails with
          | true =>
              cases h
              exact .unwritten
          | false =>
              cases h
              exact .written hbytes
      | none =>
          rw [hbytes] at h
          cases h
          exact .unwritten
  | placing blank now bytes =>
      simp only [writeStep] at h
      cases fails with
      | false =>
          cases h
          exact .placed
      | true =>
          simp only [Bool.not_true, Bool.false_eq_true, if_false] at h
          split at h
          next =>
              cases h
              exact .blocked
          next =>
              cases h
              exact .unplaced
  | unlinking blank now bytes =>
      cases fails with
      | false =>
          cases h
          exact .unlinked
      | true =>
          cases h
          exact .kept
  | retrying blank now bytes removed =>
      cases fails with
      | false =>
          cases h
          exact .retried
      | true =>
          cases removed with
          | false =>
              cases h
              exact .spared
          | true =>
              cases h
              exact .gone
  | done saved => cases h

/-- A step adds a write or moves one. -/
theorem advance_cases {choice : Choice} (h : advance codec state choice = some (event, next)) :
    (∃ process name update, event = .internal ∧
      next = { state with writers := state.writers ++ [⟨process, name, update, .waiting⟩] }) ∨
    ∃ index process name update old disk phase,
      state.writers[index]? = some ⟨process, name, update, old⟩ ∧
      Moves codec state index process name update old event disk phase ∧
      next = setPhase state disk index ⟨process, name, update, old⟩ phase := by
  cases choice with
  | call process name update =>
      cases h
      exact .inl ⟨process, name, update, rfl, rfl⟩
  | move index fails now =>
      obtain ⟨⟨process, name, update, old⟩, hwriter, h⟩ := Option.bind_eq_some_iff.mp h
      obtain ⟨⟨event', disk, phase⟩, hstep, h⟩ := Option.bind_eq_some_iff.mp h
      cases h
      exact .inr ⟨index, process, name, update, old, disk, phase, hwriter,
        moves_of_writeStep hstep, rfl⟩

end Moves

end Snpm.Cache.Writers
