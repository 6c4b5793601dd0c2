import Mathlib
import Snpm.Library.Counting
import Snpm.Lifecycle.ChunkOrder

/-!
Running the jobs of the chunks. The jobs of a chunk run on the threads of a pool, in
any order; the next chunk begins when they have all succeeded, and a failed job ends
the run once the jobs that have started are done. Which jobs of its chunk a failure
still leaves unstarted is not determined.
-/
namespace Snpm.Lifecycle

open LevelWalk (Downstream)

inductive JobStatus where
  | pending
  | running
  | finished (ok : Bool)
deriving DecidableEq

structure RunState where
  earlier : List (List DepScriptJob)
  current : List (DepScriptJob × JobStatus)
  later : List (List DepScriptJob)
  failed : Bool

inductive RunEvent where
  | started (job : DepScriptJob)
  | finished (job : DepScriptJob) (ok : Bool)
  | nextChunk
  | stopped
deriving DecidableEq

def RunState.runningCount (state : RunState) : Nat :=
  state.current.countP fun entry => entry.2 = .running

def startChunk (chunk : List DepScriptJob) : List (DepScriptJob × JobStatus) :=
  chunk.map fun job => (job, .pending)

/-- `run_jobs` before its first chunk. -/
def startJobs (chunks : List (List DepScriptJob)) : RunState := ⟨[], [], chunks, false⟩

inductive RunChoice where
  | start (index : Nat)
  | finish (index : Nat) (ok : Bool)
  | next
  | stop

def runStep (concurrency : Nat) (state : RunState) : RunChoice → Option (RunEvent × RunState)
  | .start index =>
      match state.current[index]? with
      | some (job, .pending) =>
          if !state.failed && state.runningCount < concurrency then
            some (.started job, { state with current := state.current.set index (job, .running) })
          else none
      | _ => none
  | .finish index ok =>
      match state.current[index]? with
      | some (job, .running) =>
          some (.finished job ok,
            { state with current := state.current.set index (job, .finished ok) })
      | _ => none
  | .next =>
      match state.later with
      | chunk :: later =>
          if !state.failed && state.current.all (fun entry => entry.2 = .finished true) then
            some (.nextChunk, ⟨state.earlier ++ [state.current.map (·.1)], startChunk chunk, later,
              false⟩)
          else none
      | [] => none
  | .stop =>
      if !state.failed && state.current.any (fun entry => entry.2 = .finished false) &&
          state.runningCount = 0 then
        some (.stopped, { state with failed := true })
      else none

inductive JobRun (concurrency : Nat) : RunState → List RunEvent → RunState → Prop where
  | nil (state : RunState) : JobRun concurrency state [] state
  | step {first last next : RunState} {events : List RunEvent} {event : RunEvent}
      (choice : RunChoice) :
      JobRun concurrency first events last → runStep concurrency last choice = some (event, next) →
        JobRun concurrency first (events ++ [event]) next

section Invariant

variable {concurrency : Nat} {state next : RunState} {event : RunEvent} {events : List RunEvent}
  {chunks : List (List DepScriptJob)} {choice : RunChoice}

/-- What a run has done, told by where it is: before the first chunk the current one
is empty. -/
structure Progressed (chunks : List (List DepScriptJob)) (events : List RunEvent)
    (state : RunState) : Prop where
  split : state.earlier ++ state.current.map (·.1) :: state.later = [] :: chunks
  passed : ∀ job ∈ state.earlier.flatten, .finished job true ∈ events
  told : ∀ job ok, (job, .finished ok) ∈ state.current → .finished job ok ∈ events
  finished : ∀ job ok, .finished job ok ∈ events →
    job ∈ state.earlier.flatten ∧ ok = true ∨ (job, .finished ok) ∈ state.current
  started : ∀ job, .started job ∈ events →
    job ∈ state.earlier.flatten ∨ ∃ status, (job, status) ∈ state.current ∧ status ≠ .pending

/-- What a start of a job follows on: the chunks before that of the job have passed,
only jobs of its own chunk have failed, and it has not started before. -/
def Justified (chunks : List (List DepScriptJob)) (before : List RunEvent) (job : DepScriptJob) :
    Prop :=
  ∃ front chunk back, chunks = front ++ chunk :: back ∧ job ∈ chunk ∧
    (∀ other ∈ front.flatten, .finished other true ∈ before) ∧
    (∀ other, .finished other false ∈ before → other ∈ chunk) ∧ .started job ∉ before

theorem Progressed.initial : Progressed chunks [] (startJobs chunks) := by
  constructor <;> simp [startJobs]

/-- The ways in which a run goes on. -/
inductive RunMoves (concurrency : Nat) (state : RunState) : RunEvent → RunState → Prop where
  | started {index : Nat} {job : DepScriptJob} (h : state.current[index]? = some (job, .pending))
      (hroom : state.runningCount < concurrency) :
      RunMoves concurrency state (.started job)
        { state with current := state.current.set index (job, .running) }
  | finished {index : Nat} {job : DepScriptJob} {ok : Bool}
      (h : state.current[index]? = some (job, .running)) :
      RunMoves concurrency state (.finished job ok)
        { state with current := state.current.set index (job, .finished ok) }
  | nextChunk {chunk : List DepScriptJob} {later : List (List DepScriptJob)}
      (h : state.later = chunk :: later)
      (hpassed : ∀ entry ∈ state.current, entry.2 = .finished true) :
      RunMoves concurrency state .nextChunk
        ⟨state.earlier ++ [state.current.map (·.1)], startChunk chunk, later, false⟩
  | stopped : RunMoves concurrency state .stopped { state with failed := true }

theorem runMoves_of_runStep (h : runStep concurrency state choice = some (event, next)) :
    RunMoves concurrency state event next := by
  cases choice with
  | start index =>
      simp only [runStep] at h
      split at h
      next job hjob =>
          split at h
          next hroom =>
              cases h
              simp only [Bool.and_eq_true, decide_eq_true_eq] at hroom
              exact .started hjob hroom.2
          next => cases h
      next => cases h
  | finish index ok =>
      simp only [runStep] at h
      split at h
      next job hjob =>
          cases h
          exact .finished hjob
      next => cases h
  | next =>
      simp only [runStep] at h
      split at h
      next chunk later hlater =>
          split at h
          next hpassed =>
              cases h
              simp only [Bool.and_eq_true, List.all_eq_true, decide_eq_true_eq] at hpassed
              exact .nextChunk hlater hpassed.2
          next => cases h
      next => cases h
  | stop =>
      simp only [runStep] at h
      split at h
      next =>
          cases h
          exact .stopped
      next => cases h

theorem map_set_current {index : Nat} {job : DepScriptJob} {status new : JobStatus}
    (h : state.current[index]? = some (job, status)) :
    (state.current.set index (job, new)).map (·.1) = state.current.map (·.1) := by
  apply List.ext_getElem?
  intro i
  rw [List.map_set, List.getElem?_set]
  split
  next heq =>
      subst heq
      split
      next => simp [h]
      next hlong => simp [List.getElem?_eq_none (Nat.not_lt.mp hlong)]
  next => rfl

/-- What changing the status of a job keeps, for jobs that are all different. -/
theorem mem_set_current {index : Nat} {job other : DepScriptJob} {status new found : JobStatus}
    (hnodup : (state.current.map (·.1)).Nodup) (h : state.current[index]? = some (job, status)) :
    (other, found) ∈ state.current.set index (job, new) ↔
      (other = job ∧ found = new) ∨ (other ≠ job ∧ (other, found) ∈ state.current) := by
  have hlt := (List.getElem?_eq_some_iff.mp h).1
  have hsame : ∀ {i : Nat} {x : JobStatus}, state.current[i]? = some (job, x) → i = index := by
    intro i x hi
    have hmap : (state.current.map (·.1))[i]? = (state.current.map (·.1))[index]? := by
      simp [hi, h]
    exact (List.getElem?_inj (by simpa using (List.getElem?_eq_some_iff.mp hi).1) hnodup).mp hmap
  constructor
  · intro hmem
    obtain ⟨i, hi⟩ := List.getElem?_of_mem hmem
    rw [List.getElem?_set] at hi
    split at hi
    next =>
        cases hi
        exact .inl ⟨rfl, rfl⟩
    next hne =>
        refine .inr ⟨?_, List.mem_of_getElem? hi⟩
        intro heq
        subst heq
        exact hne (hsame hi).symm
  · rintro (⟨hother, hfound⟩ | ⟨hother, hmem⟩)
    · rw [hother, hfound]
      exact List.mem_set hlt _
    · obtain ⟨i, hi⟩ := List.getElem?_of_mem hmem
      refine List.mem_of_getElem? (i := i) ?_
      rw [List.getElem?_set_ne]
      · exact hi
      · intro heq
        subst heq
        rw [h] at hi
        cases hi
        exact hother rfl

theorem current_nodup (hnodup : chunks.flatten.Nodup)
    (hsplit : state.earlier ++ state.current.map (·.1) :: state.later = [] :: chunks) :
    (state.current.map (·.1)).Nodup ∧
      ∀ job ∈ state.current.map (·.1), job ∉ state.earlier.flatten := by
  have hflat : (state.earlier.flatten ++ (state.current.map (·.1) ++ state.later.flatten)).Nodup := by
    have hsame := congrArg List.flatten hsplit
    simp only [List.flatten_append, List.flatten_cons, List.nil_append] at hsame
    rw [hsame]
    exact hnodup
  obtain ⟨-, hrest, hapart⟩ := List.nodup_append.mp hflat
  refine ⟨(List.nodup_append.mp hrest).1, fun job hjob hearlier => ?_⟩
  exact hapart job hearlier job (List.mem_append_left _ hjob) rfl

/-- A job starts in its chunk's turn. -/
theorem Progressed.justified (h : Progressed chunks events state) (hnodup : chunks.flatten.Nodup)
    {job : DepScriptJob} (hmoves : RunMoves concurrency state (.started job) next) :
    Justified chunks events job := by
  obtain ⟨honce, happart⟩ := current_nodup hnodup h.split
  cases hmoves with
  | started hindex hroom =>
      have hmem := List.mem_of_getElem? hindex
      have hcurrent : job ∈ state.current.map (·.1) := List.mem_map.mpr ⟨_, hmem, rfl⟩
      have hsplit := h.split
      cases hearlier : state.earlier with
      | nil =>
          rw [hearlier, List.nil_append, List.cons.injEq] at hsplit
          rw [hsplit.1] at hcurrent
          cases hcurrent
      | cons first front =>
          rw [hearlier, List.cons_append, List.cons.injEq] at hsplit
          have hflat : state.earlier.flatten = front.flatten := by
            rw [hearlier, hsplit.1]
            rfl
          refine ⟨front, state.current.map (·.1), state.later, hsplit.2.symm, hcurrent, ?_, ?_, ?_⟩
          · exact fun other hother => h.passed other (hflat ▸ hother)
          · intro other hfailed
            rcases h.finished other false hfailed with ⟨-, hfalse⟩ | hstatus
            · cases hfalse
            · exact List.mem_map.mpr ⟨_, hstatus, rfl⟩
          · intro hstarted
            rcases h.started job hstarted with hbefore | ⟨status, hstatus, hnot⟩
            · exact happart job hcurrent hbefore
            · have heq := List.inj_on_of_nodup_map honce hmem hstatus rfl
              rw [Prod.mk.injEq] at heq
              exact hnot heq.2.symm

theorem Progressed.step (h : Progressed chunks events state) (hnodup : chunks.flatten.Nodup)
    (hmoves : RunMoves concurrency state event next) :
    Progressed chunks (events ++ [event]) next := by
  obtain ⟨honce, -⟩ := current_nodup hnodup h.split
  cases hmoves with
  | @started index job hindex hroom =>
      refine ⟨?_, ?_, ?_, ?_, ?_⟩
      · simp only [map_set_current hindex]
        exact h.split
      · exact fun other hother => List.mem_append_left _ (h.passed other hother)
      · intro other ok hmem
        rcases (mem_set_current honce hindex).mp hmem with ⟨-, hstatus⟩ | ⟨-, hold⟩
        · cases hstatus
        · exact List.mem_append_left _ (h.told other ok hold)
      · intro other ok hmem
        rcases List.mem_append.mp hmem with hold | hnew
        · rcases h.finished other ok hold with hearlier | hstatus
          · exact .inl hearlier
          · refine .inr ((mem_set_current honce hindex).mpr (.inr ⟨?_, hstatus⟩))
            intro heq
            subst heq
            have hsame := List.inj_on_of_nodup_map honce (List.mem_of_getElem? hindex) hstatus rfl
            rw [Prod.mk.injEq] at hsame
            cases hsame.2
        · cases List.mem_singleton.mp hnew
      · intro other hmem
        rcases List.mem_append.mp hmem with hold | hnew
        · rcases h.started other hold with hearlier | ⟨status, hstatus, hnot⟩
          · exact .inl hearlier
          · by_cases heq : other = job
            · exact .inr ⟨.running, (mem_set_current honce hindex).mpr (.inl ⟨heq, rfl⟩), by simp⟩
            · exact .inr ⟨status, (mem_set_current honce hindex).mpr (.inr ⟨heq, hstatus⟩), hnot⟩
        · cases List.mem_singleton.mp hnew
          exact .inr ⟨.running, (mem_set_current honce hindex).mpr (.inl ⟨rfl, rfl⟩), by simp⟩
  | @finished index job done hindex =>
      refine ⟨?_, ?_, ?_, ?_, ?_⟩
      · simp only [map_set_current hindex]
        exact h.split
      · exact fun other hother => List.mem_append_left _ (h.passed other hother)
      · intro other ok hmem
        rcases (mem_set_current honce hindex).mp hmem with ⟨hother, hstatus⟩ | ⟨-, hold⟩
        · cases hstatus
          rw [hother]
          exact List.mem_append_right _ (List.mem_singleton.mpr rfl)
        · exact List.mem_append_left _ (h.told other ok hold)
      · intro other ok hmem
        rcases List.mem_append.mp hmem with hold | hnew
        · rcases h.finished other ok hold with hearlier | hstatus
          · exact .inl hearlier
          · refine .inr ((mem_set_current honce hindex).mpr (.inr ⟨?_, hstatus⟩))
            intro heq
            subst heq
            have hsame := List.inj_on_of_nodup_map honce (List.mem_of_getElem? hindex) hstatus rfl
            rw [Prod.mk.injEq] at hsame
            cases hsame.2
        · cases List.mem_singleton.mp hnew
          exact .inr ((mem_set_current honce hindex).mpr (.inl ⟨rfl, rfl⟩))
      · intro other hmem
        rcases List.mem_append.mp hmem with hold | hnew
        · rcases h.started other hold with hearlier | ⟨status, hstatus, hnot⟩
          · exact .inl hearlier
          · by_cases heq : other = job
            · exact .inr ⟨.finished done, (mem_set_current honce hindex).mpr (.inl ⟨heq, rfl⟩),
                by simp⟩
            · exact .inr ⟨status, (mem_set_current honce hindex).mpr (.inr ⟨heq, hstatus⟩), hnot⟩
        · cases List.mem_singleton.mp hnew
  | @nextChunk chunk later hlater hpassed =>
      have hflat : ∀ job, job ∈ (state.earlier ++ [state.current.map (·.1)]).flatten ↔
          job ∈ state.earlier.flatten ∨ job ∈ state.current.map (·.1) := by
        intro job
        simp
      have hdone : ∀ job ∈ state.current.map (·.1), (job, .finished true) ∈ state.current := by
        intro job hjob
        obtain ⟨⟨other, status⟩, hentry, heq⟩ := List.mem_map.mp hjob
        have hstatus := hpassed _ hentry
        simp only at heq hstatus
        rw [← heq, ← hstatus]
        exact hentry
      refine ⟨?_, ?_, ?_, ?_, ?_⟩
      · have hsplit := h.split
        rw [hlater] at hsplit
        simpa [startChunk, Function.comp_def] using hsplit
      · intro job hjob
        refine List.mem_append_left _ ?_
        rcases (hflat job).mp hjob with hold | hnew
        · exact h.passed job hold
        · exact h.told job true (hdone job hnew)
      · intro job ok hmem
        obtain ⟨other, -, heq⟩ := List.mem_map.mp hmem
        cases heq
      · intro job ok hmem
        rcases List.mem_append.mp hmem with hold | hnew
        · refine .inl ?_
          rcases h.finished job ok hold with ⟨hearlier, hok⟩ | hstatus
          · exact ⟨(hflat job).mpr (.inl hearlier), hok⟩
          · have hok := hpassed _ hstatus
            simp only [JobStatus.finished.injEq] at hok
            exact ⟨(hflat job).mpr (.inr (List.mem_map.mpr ⟨_, hstatus, rfl⟩)), hok⟩
        · cases List.mem_singleton.mp hnew
      · intro job hmem
        rcases List.mem_append.mp hmem with hold | hnew
        · refine .inl ((hflat job).mpr ?_)
          rcases h.started job hold with hearlier | ⟨status, hstatus, -⟩
          · exact .inl hearlier
          · exact .inr (List.mem_map.mpr ⟨_, hstatus, rfl⟩)
        · cases List.mem_singleton.mp hnew
  | stopped =>
      refine ⟨h.split, ?_, ?_, ?_, ?_⟩
      · exact fun other hother => List.mem_append_left _ (h.passed other hother)
      · exact fun other ok hmem => List.mem_append_left _ (h.told other ok hmem)
      · intro other ok hmem
        rcases List.mem_append.mp hmem with hold | hnew
        · exact h.finished other ok hold
        · cases List.mem_singleton.mp hnew
      · intro other hmem
        rcases List.mem_append.mp hmem with hold | hnew
        · exact h.started other hold
        · cases List.mem_singleton.mp hnew

theorem within_step (hwithin : state.runningCount ≤ concurrency)
    (hmoves : RunMoves concurrency state event next) : next.runningCount ≤ concurrency := by
  cases hmoves with
  | @started index job hindex hroom =>
      have hcount := Counting.countP_set (p := fun entry : DepScriptJob × JobStatus =>
        entry.2 = .running) (b := (job, .running)) hindex
      simp only [RunState.runningCount, decide_true, if_true, decide_eq_true_eq, reduceCtorEq,
        if_false] at hcount hroom ⊢
      omega
  | @finished index job ok hindex =>
      have hcount := Counting.countP_set (p := fun entry : DepScriptJob × JobStatus =>
        entry.2 = .running) (b := (job, .finished ok)) hindex
      simp only [RunState.runningCount, decide_true, if_true, decide_eq_true_eq, reduceCtorEq,
        if_false] at hcount hwithin ⊢
      omega
  | @nextChunk chunk later =>
      have hnone : (startChunk chunk).countP (fun entry => entry.2 = .running) = 0 := by
        simp [startChunk, List.countP_eq_zero]
      simp only [RunState.runningCount, hnone]
      exact Nat.zero_le _
  | stopped => exact hwithin

theorem JobRun.spec (hnodup : chunks.flatten.Nodup)
    (hrun : JobRun concurrency (startJobs chunks) events state) :
    Progressed chunks events state ∧ state.runningCount ≤ concurrency ∧
    ∀ before job after, events = before ++ .started job :: after →
      Justified chunks before job := by
  induction hrun with
  | nil => exact ⟨.initial, by simp [startJobs, RunState.runningCount], by simp⟩
  | step choice _ hstep ih =>
      obtain ⟨hprogress, hwithin, hstarts⟩ := ih
      have hmoves := runMoves_of_runStep hstep
      refine ⟨hprogress.step hnodup hmoves, within_step hwithin hmoves, ?_⟩
      intro before job after hevents
      rcases List.eq_nil_or_concat after with hnil | ⟨front, final, hconcat⟩
      · subst hnil
        obtain ⟨hbefore, hlast⟩ := List.append_inj' hevents rfl
        rw [List.singleton_inj] at hlast
        rw [← hbefore]
        exact hprogress.justified hnodup (hlast ▸ hmoves)
      · rw [hconcat, List.concat_eq_append, ← List.cons_append, ← List.append_assoc] at hevents
        exact hstarts before job front (List.append_inj' hevents rfl).1

end Invariant

section Order

variable {concurrency : Nat} {state : RunState} {events : List RunEvent}
  {jobs : List DepScriptJob}

/-- In every order in which the threads of the pool take the jobs, never more run than
there are threads, no job starts twice, and after a failure only jobs of the same
chunk still start. When the jobs have names of their own, a job that is not
downstream of a cycle starts when the jobs it depends on have succeeded. -/
theorem jobs_in_order (jobOrder degreeOrder cycleOrder : HashOrder)
    (hrun : JobRun concurrency
      (startJobs (topologicalChunks jobOrder degreeOrder cycleOrder jobs)) events state) :
    state.runningCount ≤ concurrency ∧
    ∀ before job after, events = before ++ .started job :: after →
      job ∈ jobs ∧ .started job ∉ before ∧
      (∀ other, .finished other false ∈ before →
        ∃ chunk ∈ topologicalChunks jobOrder degreeOrder cycleOrder jobs,
          job ∈ chunk ∧ other ∈ chunk) ∧
      ((jobs.map DepScriptJob.name).Nodup → ¬Downstream (DependsOn jobs) job →
        ∀ other, DependsOn jobs job other → .finished other true ∈ before) := by
  obtain ⟨names, tail, h⟩ := topologicalChunks_names jobOrder degreeOrder cycleOrder jobs
  generalize topologicalChunks jobOrder degreeOrder cycleOrder jobs = chunks at h hrun
  have hflat : chunks.flatten.Nodup := by
    apply List.Nodup.of_map DepScriptJob.name
    rw [chunks_flatten_names h]
    exact h.nodup
  obtain ⟨-, hwithin, hstarts⟩ := JobRun.spec hflat hrun
  refine ⟨hwithin, fun before job after hevents => ?_⟩
  obtain ⟨front, chunk, back, hchunks, hjob, hpassed, hfailed, hfresh⟩ :=
    hstarts before job after hevents
  have hchunk : chunks[front.length]? = some chunk := by simp [hchunks]
  obtain ⟨level, -, hlevel⟩ := chunk_names h hchunk
  have hmem : job ∈ jobs := (mem_jobsOf (hlevel ▸ hjob)).2
  refine ⟨hmem, hfresh, ?_, ?_⟩
  · intro other hother
    exact ⟨chunk, by simp [hchunks], hjob, hfailed other hother⟩
  · intro hnodup hcycle other hdepends
    -- the job that is depended on is in some chunk, which comes before
    have hother : other ∈ chunks.flatten := by
      rw [h.chunks, jobsOf_flatten]
      have hfound := jobsByName_of_mem hnodup hdepends.2.1
      refine List.mem_filterMap.mpr ⟨other.name, ?_, hfound⟩
      exact (h.mem_iff other.name).mpr (BTreeMap.mem_iff_exists.mpr ⟨other, hfound⟩)
    obtain ⟨bs, hbs, hin⟩ := List.mem_flatten.mp hother
    obtain ⟨k, hk⟩ := List.getElem?_of_mem hbs
    have hlt := later_of_names hnodup h hdepends hcycle hchunk hjob hk hin
    rw [hchunks, List.getElem?_append_left hlt] at hk
    exact hpassed other (List.mem_flatten.mpr ⟨bs, List.mem_of_getElem? hk, hin⟩)

theorem levels_of_ready {seq : Sequencer} {ready : List String} (h : ready ≠ []) :
    levels seq ready =
      (if (runRound seq ready).chunk = [] then
          (levels (runRound seq ready).toSequencer (runRound seq ready).nextReady).1
        else (runRound seq ready).chunk ::
          (levels (runRound seq ready).toSequencer (runRound seq ready).nextReady).1,
        (levels (runRound seq ready).toSequencer (runRound seq ready).nextReady).2) := by
  rw [levels, if_neg h]

theorem levels_of_none {seq : Sequencer} {ready : List String} (h : ready = []) :
    levels seq ready = ([], seq.byName) := by
  rw [levels, if_pos h]

def keyOrder : HashOrder := ⟨id, fun _ => .refl _⟩

def builderJob : DepScriptJob := ⟨"builder", none, "store/builder", []⟩

def consumerJob : DepScriptJob := ⟨"consumer", none, "store/consumer", ["builder"]⟩

theorem two_chunks : topologicalChunks keyOrder keyOrder keyOrder [consumerJob, builderJob] =
    [[builderJob], [consumerJob]] := by
  simp only [topologicalChunks]
  rw [levels_of_ready (by decide +kernel), levels_of_ready (by decide +kernel),
    levels_of_none (by decide +kernel)]
  decide +kernel

/-- The producer runs, then its consumer starts. -/
def builderFirst : List RunChoice := [.next, .start 0, .finish 0 true, .next, .start 0]

def runAll (concurrency : Nat) (state : RunState) :
    List RunChoice → Option (List RunEvent × RunState)
  | [] => some ([], state)
  | choice :: rest => do
      let (event, next) ← runStep concurrency state choice
      let (events, last) ← runAll concurrency next rest
      some (event :: events, last)

theorem jobRun_of_runAll {first last : RunState} {choices : List RunChoice}
    {later : List RunEvent} (hrun : JobRun concurrency first events state)
    (h : runAll concurrency state choices = some (later, last)) :
    JobRun concurrency first (events ++ later) last := by
  induction choices generalizing state events later with
  | nil =>
      cases h
      simpa using hrun
  | cons choice rest ih =>
      obtain ⟨⟨event, middle⟩, hstep, h⟩ := Option.bind_eq_some_iff.mp h
      obtain ⟨⟨more, final⟩, hrest, h⟩ := Option.bind_eq_some_iff.mp h
      cases h
      simpa using ih (.step choice hrun hstep) hrest

theorem jobs_in_order_builder : ∃ events state,
    JobRun 1 (startJobs (topologicalChunks keyOrder keyOrder keyOrder [consumerJob, builderJob]))
      events state ∧
    ∀ before job after, events = before ++ .started job :: after →
      job ∈ [consumerJob, builderJob] ∧ .started job ∉ before := by
  have hshown : (runAll 1 (startJobs [[builderJob], [consumerJob]]) builderFirst).isSome = true := by
    decide +kernel
  obtain ⟨⟨events, state⟩, hrun⟩ := Option.isSome_iff_exists.mp hshown
  rw [← two_chunks] at hrun
  have hjobs := jobRun_of_runAll (.nil _) hrun
  refine ⟨_, state, hjobs, fun before job after hevents => ?_⟩
  obtain ⟨hmem, hfresh, -⟩ :=
    (jobs_in_order keyOrder keyOrder keyOrder hjobs).2 before job after hevents
  exact ⟨hmem, hfresh⟩

end Order

end Snpm.Lifecycle
