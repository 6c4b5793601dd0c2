import Mathlib
import Snpm.Cache.Writers

/-!
What whole runs of cache writes leave on disk. With any number of processes, a
record holds what was written for its name or was there at the start. With one
process, the disk is what the saved writes give one after another, in the order
of their renames.
-/
namespace Snpm.Cache.Writers

variable {Bytes : Type} {codec : Bincode Bytes} {state next : State Bytes} {index process : Nat}
  {name : String} {update : Update} {old phase : Phase Bytes} {event : Event}
  {disk first : Disk Bytes} {events : List Event}

section Genuine

/-- The names and changes of all writes that were asked for. -/
def State.calls (state : State Bytes) : List (String × Update) :=
  state.writers.map fun writer => (writer.name, writer.update)

/-- A part of a record was written for the name, or was in the shard at the start. -/
def Said {α : Type} (codec : Bincode Bytes) (first : Disk Bytes) (calls : List (String × Update))
    (part : CachedPackageEntry → Option α) (change : Update → Option α) (file name : String)
    (value : α) : Prop :=
  (∃ update, (name, update) ∈ calls ∧ change update = some value) ∨
  ∃ shard entry, readShard codec first file = some shard ∧ shard.packages[name]? = some entry ∧
    part entry = some value

def GenuineShard (codec : Bincode Bytes) (first : Disk Bytes) (calls : List (String × Update))
    (file : String) (shard : MetadataShard) : Prop :=
  ∀ name entry, shard.packages[name]? = some entry →
    (∀ package, entry.package = some package →
      Said codec first calls (·.package) Update.package? file name package) ∧
    ∀ headers, entry.headers = some headers →
      Said codec first calls (·.headers) Update.headers? file name headers

/-- The shard that a write is about to put in place is genuine. -/
def Phase.Genuine (codec : Bincode Bytes) (first : Disk Bytes) (calls : List (String × Update))
    (file : String) : Phase Bytes → Prop
  | .writing _ _ shard => GenuineShard codec first calls file shard
  | .placing _ _ bytes | .unlinking _ _ bytes | .retrying _ _ bytes _ =>
      ∃ shard, codec.serialize shard = some bytes ∧ GenuineShard codec first calls file shard
  | _ => True

structure Genuine (codec : Bincode Bytes) (first : Disk Bytes) (state : State Bytes) : Prop where
  disk : ∀ file shard, readShard codec state.disk file = some shard →
    GenuineShard codec first state.calls file shard
  writers : ∀ writer ∈ state.writers,
    writer.phase.Genuine codec first state.calls (metadataShardFile writer.name)
  legacy : state.disk.legacyPackages = first.legacyPackages ∧
    state.disk.legacyHeaders = first.legacyHeaders

variable {calls more : List (String × Update)} {file : String} {shard : MetadataShard}

theorem Said.mono {α : Type} {part : CachedPackageEntry → Option α} {change : Update → Option α}
    {value : α} (hmore : calls ⊆ more)
    (h : Said codec first calls part change file name value) :
    Said codec first more part change file name value := by
  rcases h with ⟨update, hmem, hvalue⟩ | hbefore
  · exact .inl ⟨update, hmore hmem, hvalue⟩
  · exact .inr hbefore

theorem GenuineShard.mono (hmore : calls ⊆ more) (h : GenuineShard codec first calls file shard) :
    GenuineShard codec first more file shard := by
  intro name entry hentry
  obtain ⟨hpackage, hheaders⟩ := h name entry hentry
  exact ⟨fun package hp => (hpackage package hp).mono hmore,
    fun headers hh => (hheaders headers hh).mono hmore⟩

theorem Phase.Genuine.mono (hmore : calls ⊆ more)
    (h : phase.Genuine codec first calls file) : phase.Genuine codec first more file := by
  cases phase with
  | writing => exact GenuineShard.mono hmore h
  | placing =>
      obtain ⟨shard, hbytes, hshard⟩ := h
      exact ⟨shard, hbytes, hshard.mono hmore⟩
  | unlinking =>
      obtain ⟨shard, hbytes, hshard⟩ := h
      exact ⟨shard, hbytes, hshard.mono hmore⟩
  | retrying =>
      obtain ⟨shard, hbytes, hshard⟩ := h
      exact ⟨shard, hbytes, hshard.mono hmore⟩
  | _ => trivial

/-- The changed shard is genuine when the one on disk is. -/
theorem GenuineShard.updated {now : Nat} (hmem : (name, update) ∈ calls)
    (hdisk : ∀ shard, readShard codec disk (metadataShardFile name) = some shard →
      GenuineShard codec first calls (metadataShardFile name) shard) :
    GenuineShard codec first calls (metadataShardFile name)
      (updatedShard codec disk name update now) := by
  intro other entry hentry
  rcases mem_updatedShard hentry with ⟨hname, hnew⟩ | ⟨shard, hread, hold⟩
  · subst hname hnew
    have hbefore : ∀ old, old = (((readShard codec disk (metadataShardFile other)).getD
        .default).packages[other]?.getD .default) →
        (∀ package, old.package = some package →
          Said codec first calls (·.package) Update.package? (metadataShardFile other) other
            package) ∧
        ∀ headers, old.headers = some headers →
          Said codec first calls (·.headers) Update.headers? (metadataShardFile other) other
            headers := by
      intro old hold
      cases hread : readShard codec disk (metadataShardFile other) with
      | none => simp [hold, hread, MetadataShard.default, CachedPackageEntry.default]
      | some shard =>
          cases hentry : shard.packages[other]? with
          | none => simp [hold, hread, hentry, CachedPackageEntry.default]
          | some entry =>
              simp only [hread, Option.getD_some, hentry] at hold
              subst hold
              exact hdisk shard hread other old hentry
    refine ⟨fun package h => ?_, fun headers h => ?_⟩
    · rcases Update.package_apply h with hnew | hold
      · exact .inl ⟨update, hmem, hnew⟩
      · exact (hbefore _ rfl).1 package hold
    · rcases Update.headers_apply h with hnew | hold
      · exact .inl ⟨update, hmem, hnew⟩
      · exact (hbefore _ rfl).2 headers hold
  · exact hdisk shard hread other entry hold

theorem calls_setPhase (hwriter : state.writers[index]? = some ⟨process, name, update, old⟩) :
    (setPhase state disk index ⟨process, name, update, old⟩ phase).calls = state.calls := by
  simp only [State.calls, setPhase, List.map_set]
  apply List.ext_getElem?
  intro i
  rw [List.getElem?_set]
  split
  next heq =>
      subst heq
      split
      next => simp [hwriter]
      next hlong => simp [List.getElem?_eq_none (Nat.not_lt.mp hlong)]
  next => rfl

theorem mem_calls (hwriter : state.writers[index]? = some ⟨process, name, update, old⟩) :
    (name, update) ∈ state.calls :=
  List.mem_map.mpr ⟨_, List.mem_of_getElem? hwriter, rfl⟩

theorem mem_setPhase {writer found : Writer Bytes}
    (h : found ∈ (setPhase state disk index writer phase).writers) :
    found = { writer with phase := phase } ∨ found ∈ state.writers := by
  rcases List.mem_or_eq_of_mem_set h with hold | hnew
  · exact .inr hold
  · exact .inl hnew

section Step

variable (hcodec : codec.Lawful) (hgenuine : Genuine codec first state)
  (hwriter : state.writers[index]? = some ⟨process, name, update, old⟩)
  (hmoves : Moves codec state index process name update old event disk phase)

include hgenuine

theorem Genuine.found {blank : Bool} {file : String} {shard : MetadataShard}
    (h : readShard codec (found state.disk name blank) file = some shard) :
    GenuineShard codec first state.calls file shard := by
  cases blank with
  | false => exact hgenuine.disk file shard h
  | true => exact hgenuine.disk file shard (readShard_withoutShard h)

include hwriter hmoves

theorem Genuine.phase_step :
    phase.Genuine codec first state.calls (metadataShardFile name) := by
  have hmine := hgenuine.writers _ (List.mem_of_getElem? hwriter)
  cases hmoves with
  | read => exact .updated (mem_calls hwriter) fun shard h => hgenuine.found h
  | written hbytes => exact ⟨_, hbytes, hmine⟩
  | blocked => exact hmine
  | unlinked => exact hmine
  | kept => exact hmine
  | _ => trivial

include hcodec

theorem Genuine.disk_step {file : String} {shard : MetadataShard}
    (h : readShard codec disk file = some shard) :
    GenuineShard codec first state.calls file shard := by
  have hmine := hgenuine.writers _ (List.mem_of_getElem? hwriter)
  cases hmoves with
  | placed =>
      obtain ⟨written, hbytes, hwritten⟩ := hmine
      rcases readShard_withShard hcodec hbytes h with ⟨hfile, hshard⟩ | hold
      · exact hfile ▸ hshard ▸ hwritten
      · exact hgenuine.disk file shard hold
  | retried =>
      obtain ⟨written, hbytes, hwritten⟩ := hmine
      rcases readShard_withShard hcodec hbytes h with ⟨hfile, hshard⟩ | hold
      · exact hfile ▸ hshard ▸ hwritten
      · exact hgenuine.disk file shard hold
  | unlinked => exact hgenuine.disk file shard (readShard_withoutShard h)
  | _ => exact hgenuine.disk file shard h

theorem Genuine.moved :
    Genuine codec first (setPhase state disk index ⟨process, name, update, old⟩ phase) := by
  have hcalls : (setPhase state disk index ⟨process, name, update, old⟩ phase).calls =
      state.calls := calls_setPhase hwriter
  constructor
  · intro file shard h
    rw [hcalls]
    exact hgenuine.disk_step hcodec hwriter hmoves h
  · intro found hfound
    rw [hcalls]
    rcases mem_setPhase hfound with hnew | hold
    · subst hnew
      exact hgenuine.phase_step hwriter hmoves
    · exact hgenuine.writers found hold
  · have hlegacy := hgenuine.legacy
    cases hmoves with
    | _ => exact hlegacy

end Step

theorem Genuine.step (hcodec : codec.Lawful) (hgenuine : Genuine codec first state)
    {choice : Choice} (h : advance codec state choice = some (event, next)) :
    Genuine codec first next := by
  rcases advance_cases h with ⟨process, name, update, -, hnext⟩ | ⟨index, process, name, update,
    old, disk, phase, hwriter, hmoves, hnext⟩
  · have hmore : state.calls ⊆ next.calls := by
      rw [hnext]
      simp [State.calls]
    subst hnext
    constructor
    · exact fun file shard hread => (hgenuine.disk file shard hread).mono hmore
    · intro writer hmem
      rcases List.mem_append.mp hmem with hold | hnew
      · exact (hgenuine.writers writer hold).mono hmore
      · rw [List.mem_singleton.mp hnew]
        trivial
    · exact hgenuine.legacy
  · subst hnext
    exact hgenuine.moved hcodec hwriter hmoves

theorem Genuine.run (hcodec : codec.Lawful) (hrun : Run codec ⟨first, []⟩ events state) :
    Genuine codec first state := by
  induction hrun with
  | nil =>
      refine ⟨fun file shard hread name entry hentry => ?_, by simp, rfl, rfl⟩
      exact ⟨fun package h => .inr ⟨shard, entry, hread, hentry, h⟩,
        fun headers h => .inr ⟨shard, entry, hread, hentry, h⟩⟩
  | step choice _ hstep ih => exact ih.step hcodec hstep

/-- A part of a record that was said about a name was written for it or was read for
it at the start. -/
theorem Said.source {α : Type} {part : CachedPackageEntry → Option α}
    {change : Update → Option α} {value : α}
    (hpart : ∀ entry value, part entry = some value → entry.package ≠ none ∨ entry.headers ≠ none)
    (h : Said codec first state.calls part change (metadataShardFile name) name value) :
    (∃ writer ∈ state.writers, writer.name = name ∧ change writer.update = some value) ∨
      ∃ before, readShardRecord codec first name = some before ∧ part before = some value := by
  rcases h with ⟨update, hmem, hchange⟩ | ⟨shard, entry, hread, hentry, hvalue⟩
  · obtain ⟨writer, hwriter, heq⟩ := List.mem_map.mp hmem
    cases heq
    exact .inl ⟨writer, hwriter, rfl, hchange⟩
  · refine .inr ⟨entry, ?_, hvalue⟩
    have hsome : ¬(entry.package = none ∧ entry.headers = none) := by
      intro hnone
      rcases hpart entry value hvalue with hp | hh
      · exact hp hnone.1
      · exact hh hnone.2
    simp [readShardRecord, hread, hentry, hsome]

def advanceAll (codec : Bincode Bytes) (state : State Bytes) : List Choice → Option (State Bytes)
  | [] => some state
  | choice :: rest =>
      (advance codec state choice).bind fun (_, next) => advanceAll codec next rest

theorem run_of_advanceAll {start : State Bytes} {choices : List Choice}
    (hrun : Run codec start events state) (h : advanceAll codec state choices = some next) :
    ∃ later, Run codec start later next := by
  induction choices generalizing state events with
  | nil =>
      cases h
      exact ⟨events, hrun⟩
  | cons choice rest ih =>
      obtain ⟨⟨event, middle⟩, hstep, hrest⟩ := Option.bind_eq_some_iff.mp h
      exact ih (.step choice hrun hstep) hrest

def samplePackage : RegistryPackage := ⟨∅, ∅, BTreeMap.collect [("latest", "1.3.0")]⟩

/-- Two threads write; the second waits, and its first rename fails. -/
def twoWrite : List Choice :=
  [.call 1 "left-pad" (.setPackage samplePackage),
    .call 1 "left-pad" (.setHeaders ⟨some "abc", none⟩), .move 0 false 5, .move 0 false 6,
    .move 0 false 7, .move 0 false 8, .move 1 false 9, .move 1 false 10, .move 1 false 11,
    .move 1 true 12, .move 1 false 13, .move 1 false 14]

def servedBoth (state : State MetadataShard) : Bool :=
  state.writers.all (fun writer => writer.process = 1 && !writer.phase.hides) &&
    readCachedPackageRecord plainCodec state.disk "left-pad" =
      some ⟨some samplePackage, some ⟨some "abc", none⟩, 10⟩

theorem twoWrite_served : (advanceAll plainCodec ⟨emptyDisk, []⟩ twoWrite).any servedBoth = true := by
  decide +kernel

/-- Whatever threads and processes write, and however their steps interleave and
fail, what a read gives for a name was written for that name, or could be read for
it at the start. -/
theorem record_genuine (hcodec : codec.Lawful) (hrun : Run codec ⟨first, []⟩ events state)
    {entry : CachedPackageEntry} (h : readCachedPackageRecord codec state.disk name = some entry) :
    (∀ package, entry.package = some package →
      (∃ writer ∈ state.writers, writer.name = name ∧ writer.update.package? = some package) ∨
      ∃ before, (readShardRecord codec first name = some before ∨
        readLegacyRecord first name = some before) ∧ before.package = some package) ∧
    ∀ headers, entry.headers = some headers →
      (∃ writer ∈ state.writers, writer.name = name ∧ writer.update.headers? = some headers) ∨
      ∃ before, (readShardRecord codec first name = some before ∨
        readLegacyRecord first name = some before) ∧ before.headers = some headers := by
  have hgenuine := Genuine.run hcodec hrun
  rcases Option.or_eq_some_iff.mp h with hshard | ⟨-, hlegacy⟩
  · obtain ⟨shard, hread, hentry⟩ := readShardRecord_eq_some hshard
    obtain ⟨hpackage, hheaders⟩ := hgenuine.disk _ shard hread name entry hentry
    refine ⟨fun package hp => ?_, fun headers hh => ?_⟩
    · rcases (hpackage package hp).source (by simp_all) with hwritten | ⟨before, hbefore, hvalue⟩
      · exact .inl hwritten
      · exact .inr ⟨before, .inl hbefore, hvalue⟩
    · rcases (hheaders headers hh).source (by simp_all) with hwritten | ⟨before, hbefore, hvalue⟩
      · exact .inl hwritten
      · exact .inr ⟨before, .inl hbefore, hvalue⟩
  · have hsame : readLegacyRecord first name = some entry := by
      simp only [readLegacyRecord, hgenuine.legacy.1, hgenuine.legacy.2] at hlegacy
      exact hlegacy
    exact ⟨fun package hp => .inr ⟨entry, .inr hsame, hp⟩,
      fun headers hh => .inr ⟨entry, .inr hsame, hh⟩⟩

theorem record_genuine_twoWrite : ∃ events state, Run plainCodec ⟨emptyDisk, []⟩ events state ∧
    ((∃ writer ∈ state.writers, writer.name = "left-pad" ∧
      writer.update.package? = some samplePackage) ∨
      ∃ before, (readShardRecord plainCodec emptyDisk "left-pad" = some before ∨
        readLegacyRecord emptyDisk "left-pad" = some before) ∧
        before.package = some samplePackage) := by
  obtain ⟨state, hstate, hserved⟩ := (Option.any_eq_true _ _).mp twoWrite_served
  obtain ⟨-, hrecord⟩ := (Bool.and_eq_true _ _).mp hserved
  obtain ⟨events, hrun⟩ := run_of_advanceAll (.nil _) hstate
  exact ⟨events, state, hrun,
    (record_genuine plainCodec_lawful hrun (of_decide_eq_true hrecord)).1 samplePackage rfl⟩

end Genuine

section Serial

/-- The disk after an event, when nothing else goes on. -/
def replayEvent (codec : Bincode Bytes) (disk : Disk Bytes) : Event → Disk Bytes
  | .internal => disk
  | .saved _ name update blank now =>
      writeRecordUpdate codec (found disk name blank) name update now
  | .lost file => withoutShard disk file

def replay (codec : Bincode Bytes) (first : Disk Bytes) (events : List Event) : Disk Bytes :=
  events.foldl (replayEvent codec) first

theorem replay_concat : replay codec first (events ++ [event]) =
    replayEvent codec (replay codec first events) event := by
  rw [replay, List.foldl_append]
  rfl

/-- What a write has made of the disk that it read. -/
def Phase.Holds (codec : Bincode Bytes) (disk : Disk Bytes) (name : String) (update : Update) :
    Phase Bytes → Prop
  | .writing blank now shard => shard = updatedShard codec (found disk name blank) name update now
  | .placing blank now bytes | .unlinking blank now bytes | .retrying blank now bytes _ =>
      codec.serialize (updatedShard codec (found disk name blank) name update now) = some bytes
  | _ => True

structure Serial (codec : Bincode Bytes) (first : Disk Bytes) (events : List Event)
    (state : State Bytes) : Prop where
  exclusive : ∀ (i j : Nat) a b, state.writers[i]? = some a → state.writers[j]? = some b →
    a.phase.hasGuard = true → b.phase.hasGuard = true → i = j
  holds : ∀ writer ∈ state.writers,
    writer.phase.Holds codec (replay codec first events) writer.name writer.update
  visible : (∀ writer ∈ state.writers, writer.phase.hides = false) →
    state.disk = replay codec first events
  hidden : ∀ writer ∈ state.writers, writer.phase.hides = true →
    state.disk = withoutShard (replay codec first events) (metadataShardFile writer.name)

theorem holds_of_not_guard {writer : Writer Bytes} (h : writer.phase.hasGuard = false) :
    writer.phase.Holds codec disk writer.name writer.update := by
  cases hphase : writer.phase with
  | waiting => trivial
  | done => trivial
  | _ =>
      rw [hphase] at h
      cases h

theorem guard_of_hides (h : phase.hides = true) : phase.hasGuard = true := by
  cases phase with
  | retrying => rfl
  | _ => cases h

theorem withShard_found {blank : Bool} {bytes : Bytes} :
    withShard (found disk name blank) (metadataShardFile name) bytes =
      withShard disk (metadataShardFile name) bytes := by
  cases blank with
  | false => simp only [found, Bool.false_eq_true, if_false]
  | true =>
      simp only [found, if_true]
      exact withShard_withoutShard

/-- A saved write has replaced its shard by the one it made. -/
theorem replayEvent_saved {blank : Bool} {now : Nat} {bytes : Bytes}
    (h : codec.serialize (updatedShard codec (found disk name blank) name update now) =
      some bytes) :
    replayEvent codec disk (.saved index name update blank now) =
      withShard disk (metadataShardFile name) bytes := by
  simp only [replayEvent, writeRecordUpdate, h]
  exact withShard_found

section Step

variable (hserial : Serial codec first events state)
  (hwriter : state.writers[index]? = some ⟨process, name, update, old⟩)

include hserial hwriter

/-- A thread with the guard sees the disk that the saved writes give. -/
theorem Serial.disk_of_guard (hguard : old.hasGuard = true) :
    state.disk = (if old.hides then
      withoutShard (replay codec first events) (metadataShardFile name)
      else replay codec first events) := by
  split
  next hhides => exact hserial.hidden ⟨process, name, update, old⟩ (List.mem_of_getElem? hwriter) hhides
  next hshows =>
      refine hserial.visible fun writer hmem => ?_
      cases hhides : writer.phase.hides with
      | false => rfl
      | true =>
          obtain ⟨other, hother⟩ := List.getElem?_of_mem hmem
          have heq := hserial.exclusive other index writer ⟨process, name, update, old⟩ hother
            hwriter (guard_of_hides hhides) hguard
          subst heq
          rw [hwriter, Option.some.injEq] at hother
          subst hother
          exact absurd hhides hshows

/-- The others are idle while a thread has the guard. -/
theorem Serial.idle_of_guard (hguard : old.hasGuard = true) {other : Nat} {writer : Writer Bytes}
    (hne : other ≠ index) (hother : state.writers[other]? = some writer) :
    writer.phase.hasGuard = false := by
  cases hbusy : writer.phase.hasGuard with
  | false => rfl
  | true => exact absurd (hserial.exclusive other index writer ⟨process, name, update, old⟩ hother
      hwriter hbusy hguard) hne

/-- A move with the guard keeps to the disk that the saved writes give. -/
theorem Serial.disk_step (hguard : old.hasGuard = true)
    (hmoves : Moves codec state index process name update old event disk phase) :
    phase.Holds codec (replay codec first (events ++ [event])) name update ∧
    disk = (if phase.hides then
      withoutShard (replay codec first (events ++ [event])) (metadataShardFile name)
      else replay codec first (events ++ [event])) := by
  have hdisk := hserial.disk_of_guard hwriter hguard
  have hmine := hserial.holds ⟨process, name, update, old⟩ (List.mem_of_getElem? hwriter)
  rw [replay_concat]
  generalize replay codec first events = shown at hdisk hmine
  cases hmoves with
  | unmade => cases hguard
  | locked => cases hguard
  | read blank now => exact ⟨by rw [hdisk]; rfl, hdisk⟩
  | written hbytes =>
      simp only [Phase.Holds] at hmine
      subst hmine
      exact ⟨hbytes, hdisk⟩
  | unwritten => exact ⟨trivial, hdisk⟩
  | placed =>
      refine ⟨trivial, ?_⟩
      rw [replayEvent_saved hmine, hdisk]
      rfl
  | blocked => exact ⟨hmine, hdisk⟩
  | unplaced => exact ⟨trivial, hdisk⟩
  | unlinked => exact ⟨hmine, by rw [hdisk]; rfl⟩
  | kept => exact ⟨hmine, hdisk⟩
  | @retried blank now bytes removed =>
      refine ⟨trivial, ?_⟩
      rw [replayEvent_saved hmine, hdisk]
      cases removed with
      | false => rfl
      | true => exact withShard_withoutShard
  | gone => exact ⟨trivial, hdisk⟩
  | spared => exact ⟨trivial, hdisk⟩

end Step

/-- A write that has no guard yet changes nothing. -/
theorem idle_step (hguard : old.hasGuard = false)
    (hmoves : Moves codec state index process name update old event disk phase) :
    event = .internal ∧ disk = state.disk ∧ phase.hides = false ∧ old.hides = false ∧
      (phase.hasGuard = true → state.isFree process = true) ∧
      ∀ shown : Disk Bytes, phase.Holds codec shown name update := by
  cases hmoves with
  | unmade => exact ⟨rfl, rfl, rfl, rfl, by simp [Phase.hasGuard], fun _ => trivial⟩
  | locked hfree => exact ⟨rfl, rfl, rfl, rfl, fun _ => hfree, fun _ => trivial⟩
  | _ => cases hguard

theorem setPhase_cases {writer found : Writer Bytes} {other : Nat}
    (h : (setPhase state disk index writer phase).writers[other]? = some found) :
    (other = index ∧ found = { writer with phase := phase }) ∨
      (other ≠ index ∧ state.writers[other]? = some found) := by
  simp only [setPhase, List.getElem?_set] at h
  by_cases hother : index = other
  · rw [if_pos hother] at h
    split at h
    next =>
        cases h
        exact .inl ⟨hother.symm, rfl⟩
    next => cases h
  · rw [if_neg hother] at h
    exact .inr ⟨Ne.symm hother, h⟩

section Moved

variable (hserial : Serial codec first events state)
  (hsame : ∀ writer ∈ state.writers, writer.process = process)
  (hwriter : state.writers[index]? = some ⟨process, name, update, old⟩)
  (hmoves : Moves codec state index process name update old event disk phase)

include hserial hsame hwriter hmoves

/-- Where the mover has the guard after its move, no other write has. -/
theorem Serial.idle_after {other : Nat} {writer : Writer Bytes} (hne : other ≠ index)
    (hother : state.writers[other]? = some writer) (hguard : phase.hasGuard = true) :
    writer.phase.hasGuard = false := by
  cases hold : old.hasGuard with
  | true => exact hserial.idle_of_guard hwriter hold hne hother
  | false =>
      have hfree := (idle_step hold hmoves).2.2.2.2.1 hguard
      have hmem := List.mem_of_getElem? hother
      have hidle := List.all_eq_true.mp hfree writer hmem
      simpa [hsame writer hmem] using hidle

theorem Serial.exclusive_step {i j : Nat} {a b : Writer Bytes}
    (ha : (setPhase state disk index ⟨process, name, update, old⟩ phase).writers[i]? = some a)
    (hb : (setPhase state disk index ⟨process, name, update, old⟩ phase).writers[j]? = some b)
    (hguarda : a.phase.hasGuard = true) (hguardb : b.phase.hasGuard = true) : i = j := by
  rcases setPhase_cases ha with ⟨hi, heqa⟩ | ⟨hi, holda⟩
  · rcases setPhase_cases hb with ⟨hj, -⟩ | ⟨hj, holdb⟩
    · rw [hi, hj]
    · subst heqa
      rw [hserial.idle_after hsame hwriter hmoves hj holdb hguarda] at hguardb
      cases hguardb
  · rcases setPhase_cases hb with ⟨-, heqb⟩ | ⟨-, holdb⟩
    · subst heqb
      rw [hserial.idle_after hsame hwriter hmoves hi holda hguardb] at hguarda
      cases hguarda
    · exact hserial.exclusive i j a b holda holdb hguarda hguardb

theorem Serial.moved :
    Serial codec first (events ++ [event])
      (setPhase state disk index ⟨process, name, update, old⟩ phase) := by
  have hexclusive := fun i j a b => @Serial.exclusive_step Bytes codec state index process name
    update old phase event disk first events hserial hsame hwriter hmoves i j a b
  have hnew : ⟨process, name, update, phase⟩ ∈
      (setPhase state disk index ⟨process, name, update, old⟩ phase).writers :=
    List.mem_set (List.getElem?_eq_some_iff.mp hwriter).1 _
  cases hold : old.hasGuard with
  | true =>
      obtain ⟨hholds, hdisk⟩ := hserial.disk_step hwriter hold hmoves
      refine ⟨hexclusive, ?_, ?_, ?_⟩
      · intro writer hmem
        obtain ⟨other, hother⟩ := List.getElem?_of_mem hmem
        rcases setPhase_cases hother with ⟨-, heq⟩ | ⟨hne, hbefore⟩
        · subst heq
          exact hholds
        · exact holds_of_not_guard (hserial.idle_of_guard hwriter hold hne hbefore)
      · intro hshown
        have hmine := hshown _ hnew
        simp only at hmine
        rw [hmine] at hdisk
        exact hdisk
      · intro writer hmem hhides
        obtain ⟨other, hother⟩ := List.getElem?_of_mem hmem
        rcases setPhase_cases hother with ⟨-, heq⟩ | ⟨hne, hbefore⟩
        · subst heq
          simp only at hhides
          rw [hhides] at hdisk
          exact hdisk
        · have hidle := hserial.idle_of_guard hwriter hold hne hbefore
          rw [guard_of_hides hhides] at hidle
          cases hidle
  | false =>
      obtain ⟨hevent, hdisk, hshows, hshown, -, hholds⟩ := idle_step hold hmoves
      subst hevent hdisk
      refine ⟨hexclusive, ?_, ?_, ?_⟩
      · intro writer hmem
        rw [replay_concat]
        rcases mem_setPhase hmem with heq | hbefore
        · subst heq
          exact hholds _
        · exact hserial.holds writer hbefore
      · intro hall
        rw [replay_concat]
        refine hserial.visible fun writer hmem => ?_
        obtain ⟨other, hother⟩ := List.getElem?_of_mem hmem
        by_cases hne : other = index
        · subst hne
          rw [hwriter, Option.some.injEq] at hother
          subst hother
          exact hshown
        · refine hall writer (List.mem_of_getElem? (i := other) ?_)
          exact (List.getElem?_set_ne (Ne.symm hne)).trans hother
      · intro writer hmem hhides
        rw [replay_concat]
        rcases mem_setPhase hmem with heq | hbefore
        · subst heq
          simp only at hhides
          rw [hshows] at hhides
          cases hhides
        · exact hserial.hidden writer hbefore hhides

end Moved

theorem Serial.called (hserial : Serial codec first events state) :
    Serial codec first (events ++ [.internal])
      { state with writers := state.writers ++ [⟨process, name, update, .waiting⟩] } := by
  have hcases : ∀ {i : Nat} {writer : Writer Bytes},
      (state.writers ++ [⟨process, name, update, .waiting⟩])[i]? = some writer →
      writer.phase.hasGuard = true → state.writers[i]? = some writer := by
    intro i writer hi hguard
    rw [List.getElem?_append] at hi
    split at hi
    next => exact hi
    next =>
        rw [List.mem_singleton.mp (List.mem_of_getElem? hi)] at hguard
        cases hguard
  refine ⟨?_, ?_, ?_, ?_⟩
  · intro i j a b ha hb hguarda hguardb
    exact hserial.exclusive i j a b (hcases ha hguarda) (hcases hb hguardb) hguarda hguardb
  · intro writer hmem
    rw [replay_concat]
    rcases List.mem_append.mp hmem with hold | hnew
    · exact hserial.holds writer hold
    · rw [List.mem_singleton.mp hnew]
      trivial
  · intro hall
    rw [replay_concat]
    exact hserial.visible fun writer hmem => hall writer (List.mem_append_left _ hmem)
  · intro writer hmem hhides
    rw [replay_concat]
    rcases List.mem_append.mp hmem with hold | hnew
    · exact hserial.hidden writer hold hhides
    · rw [List.mem_singleton.mp hnew] at hhides
      cases hhides

theorem Serial.run (hrun : Run codec ⟨first, []⟩ events state)
    (hsame : ∀ writer ∈ state.writers, writer.process = process) :
    Serial codec first events state := by
  induction hrun with
  | nil => exact ⟨by simp, by simp, fun _ => rfl, by simp⟩
  | @step last next events event choice _ hstep ih =>
      rcases advance_cases hstep with ⟨other, name, update, hevent, hnext⟩ | ⟨index, other, name,
        update, old, disk, phase, hwriter, hmoves, hnext⟩
      · subst hevent hnext
        exact (ih fun writer hmem => hsame writer (List.mem_append_left _ hmem)).called
      · subst hnext
        have hmine : other = process :=
          hsame _ (List.mem_set (List.getElem?_eq_some_iff.mp hwriter).1 _)
        subst hmine
        have hbefore : ∀ writer ∈ last.writers, writer.process = other := by
          intro writer hmem
          obtain ⟨i, hi⟩ := List.getElem?_of_mem hmem
          by_cases hne : i = index
          · subst hne
            rw [hwriter, Option.some.injEq] at hi
            rw [← hi]
          · exact hsame writer (List.mem_of_getElem? (i := i)
              ((List.getElem?_set_ne (Ne.symm hne)).trans hi))
        exact (ih hbefore).moved hbefore hwriter hmoves

end Serial

section Once

def Event.writer? : Event → Option Nat
  | .saved writer _ _ _ _ => some writer
  | _ => none

/-- The writes that ended by placing their shard are those that the run tells of. -/
structure Marked (events : List Event) (state : State Bytes) : Prop where
  told : ∀ (index : Nat) writer, state.writers[index]? = some writer →
    writer.phase = .done true → ∃ blank now,
      .saved index writer.name writer.update blank now ∈ events
  ended : ∀ index name update blank now, .saved index name update blank now ∈ events →
    ∃ writer, state.writers[index]? = some writer ∧ writer.name = name ∧
      writer.update = update ∧ writer.phase = .done true
  once : (events.filterMap Event.writer?).Nodup

/-- A move saves and ends, or does neither, and only a write that has not ended moves. -/
theorem saved_of_moves (hmoves : Moves codec state index process name update old event disk phase) :
    old ≠ .done true ∧
      ((∃ blank now, event = .saved index name update blank now ∧ phase = .done true) ∨
        event.writer? = none ∧ phase ≠ .done true) := by
  cases hmoves with
  | placed => exact ⟨by simp, .inl ⟨_, _, rfl, rfl⟩⟩
  | retried => exact ⟨by simp, .inl ⟨_, _, rfl, rfl⟩⟩
  | _ => exact ⟨by simp, .inr ⟨rfl, by simp⟩⟩

theorem Marked.moved (hmarked : Marked events state)
    (hwriter : state.writers[index]? = some ⟨process, name, update, old⟩)
    (hmoves : Moves codec state index process name update old event disk phase) :
    Marked (events ++ [event])
      (setPhase state disk index ⟨process, name, update, old⟩ phase) := by
  obtain ⟨hopen, hevent⟩ := saved_of_moves hmoves
  have hmine : (setPhase state disk index ⟨process, name, update, old⟩ phase).writers[index]? =
      some ⟨process, name, update, phase⟩ := by
    simp only [setPhase]
    exact List.getElem?_set_self (List.getElem?_eq_some_iff.mp hwriter).1
  have hkept : ∀ {other : Nat} {writer : Writer Bytes}, other ≠ index →
      state.writers[other]? = some writer →
      (setPhase state disk index ⟨process, name, update, old⟩ phase).writers[other]? =
        some writer :=
    fun hne hother => (List.getElem?_set_ne (Ne.symm hne)).trans hother
  have hfresh : index ∉ events.filterMap Event.writer? := by
    intro hmem
    obtain ⟨before, hbefore, hindex⟩ := List.mem_filterMap.mp hmem
    cases before with
    | saved other name' update' blank now =>
        cases hindex
        obtain ⟨writer, hfound, -, -, hdone⟩ := hmarked.ended _ _ _ _ _ hbefore
        rw [hwriter, Option.some.injEq] at hfound
        subst hfound
        exact hopen hdone
    | internal => cases hindex
    | lost => cases hindex
  refine ⟨?_, ?_, ?_⟩
  · intro other writer hother hdone
    rcases setPhase_cases hother with ⟨hindex, heq⟩ | ⟨hne, hbefore⟩
    · subst heq hindex
      rcases hevent with ⟨blank, now, hsaved, -⟩ | ⟨-, hrest⟩
      · exact ⟨blank, now, by simp [hsaved]⟩
      · exact absurd hdone hrest
    · obtain ⟨blank, now, hmem⟩ := hmarked.told other writer hbefore hdone
      exact ⟨blank, now, List.mem_append_left _ hmem⟩
  · intro other name' update' blank now hmem
    rcases List.mem_append.mp hmem with hold | hnew
    · obtain ⟨writer, hfound, hrest⟩ := hmarked.ended other name' update' blank now hold
      by_cases hne : other = index
      · subst hne
        exact (hfresh (List.mem_filterMap.mpr ⟨_, hold, rfl⟩)).elim
      · exact ⟨writer, hkept hne hfound, hrest⟩
    · have heq := List.mem_singleton.mp hnew
      rcases hevent with ⟨blank', now', hsaved, hdone⟩ | ⟨hnone, -⟩
      · rw [hsaved] at heq
        cases heq
        exact ⟨_, hmine, rfl, rfl, hdone⟩
      · rw [← heq] at hnone
        cases hnone
  · rw [List.filterMap_append]
    rcases hevent with ⟨blank, now, hsaved, -⟩ | ⟨hnone, -⟩
    · subst hsaved
      refine List.Nodup.append hmarked.once (by simp [Event.writer?]) ?_
      intro other hother hlast
      simp only [List.filterMap_cons, Event.writer?, List.filterMap_nil,
        List.mem_singleton] at hlast
      exact hfresh (hlast ▸ hother)
    · simpa [List.filterMap_cons, hnone] using hmarked.once

theorem Marked.run (hrun : Run codec ⟨first, []⟩ events state) : Marked events state := by
  induction hrun with
  | nil => exact ⟨by simp, by simp, by simp⟩
  | step choice _ hstep ih =>
      rcases advance_cases hstep with ⟨process, name, update, hevent, hnext⟩ | ⟨index, process,
        name, update, old, disk, phase, hwriter, hmoves, hnext⟩
      · subst hevent hnext
        refine ⟨?_, ?_, ?_⟩
        · intro index writer hindex hdone
          rw [List.getElem?_append] at hindex
          split at hindex
          next =>
              obtain ⟨blank, now, hmem⟩ := ih.told index writer hindex hdone
              exact ⟨blank, now, List.mem_append_left _ hmem⟩
          next =>
              rw [List.mem_singleton.mp (List.mem_of_getElem? hindex)] at hdone
              cases hdone
        · intro index name' update' blank now hmem
          rcases List.mem_append.mp hmem with hold | hnew
          · obtain ⟨writer, hfound, hrest⟩ := ih.ended index name' update' blank now hold
            refine ⟨writer, ?_, hrest⟩
            simp only
            rw [List.getElem?_append_left (List.getElem?_eq_some_iff.mp hfound).1]
            exact hfound
          · cases List.mem_singleton.mp hnew
        · rw [List.filterMap_append]
          simpa [List.filterMap_cons, Event.writer?] using ih.once
      · subst hnext
        exact ih.moved hwriter hmoves

end Once

end Snpm.Cache.Writers
