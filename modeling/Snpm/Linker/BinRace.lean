import Mathlib
import Snpm.Error
import Snpm.Library.Counting

/-!
Packages that claim one launcher name at the same time. Each writer looks at the
entry of the name, removes it and makes its link; when another link is there again
it tries once more, and last it copies its file to the name. A step is one operation
on the directory; a copy to a name that is a link goes to the file behind the link.
-/
namespace Snpm.Linker.BinRace

inductive Entry where
  | dir
  | file (content : String)
  | link (target : PathBuf)
deriving DecidableEq

/-- What the removal of the entry goes before. -/
inductive Round where
  | firstLink
  | secondLink
  | copy
deriving DecidableEq

inductive Phase where
  | checking
  | looking (round : Round)
  | removing (round : Round)
  | linking (again : Bool)
  | copying
  | failed
  | correct
  | placed
deriving DecidableEq

structure Writer where
  target : PathBuf
  phase : Phase
deriving DecidableEq

/-- The entry of the name, and the files that the packages bring. -/
structure State where
  slot : Option Entry
  contents : PathBuf → String
  writers : List Writer

def Round.next : Round → Phase
  | firstLink => .linking false
  | secondLink => .linking true
  | copy => .copying

/-- The files after one is copied over another: the destination is emptied before the
source is read, so that a file copied over itself is empty. -/
def copyOver (contents : PathBuf → String) (source destination : PathBuf) : PathBuf → String :=
  Function.update contents destination
    (if destination = source then "" else contents source)

/-- The next operation of a writer. A link that is refused for another reason than an
entry in the way is not tried again. -/
def writeStep (state : State) (target : PathBuf) (refused : Bool) : Phase → Option (State × Phase)
  | .checking =>
      if state.slot = some (.link target) then some (state, .correct)
      else some (state, .looking .firstLink)
  | .looking round =>
      match state.slot with
      | none => some (state, round.next)
      | some _ => some (state, .removing round)
  | .removing round =>
      match state.slot with
      | none => some (state, .failed)
      | some _ => some ({ state with slot := none }, round.next)
  | .linking again =>
      if refused then some (state, .looking .copy)
      else
        match state.slot with
        | none => some ({ state with slot := some (.link target) }, .placed)
        | some _ => some (state, .looking (if again then .copy else .secondLink))
  | .copying =>
      match state.slot with
      | none | some (.file _) =>
          some ({ state with slot := some (.file (state.contents target)) }, .placed)
      | some (.link other) =>
          some ({ state with contents := copyOver state.contents target other }, .placed)
      | some .dir => some (state, .failed)
  | .failed | .correct | .placed => none

structure Choice where
  index : Nat
  refused : Bool

def setPhase (state : State) (index : Nat) (target : PathBuf) (phase : Phase) : State :=
  { state with writers := state.writers.set index ⟨target, phase⟩ }

def advance (state : State) (choice : Choice) : Option State := do
  let writer ← state.writers[choice.index]?
  let (next, phase) ← writeStep state writer.target choice.refused writer.phase
  some (setPhase next choice.index writer.target phase)

inductive Run : State → List Choice → State → Prop where
  | nil (state : State) : Run state [] state
  | step {first last next : State} {choices : List Choice} (choice : Choice) :
      Run first choices last → advance last choice = some next →
        Run first (choices ++ [choice]) next

/-- All writers begin, with some entry or none at the name. -/
def start (slot : Option Entry) (contents : PathBuf → String) (targets : List PathBuf) : State :=
  ⟨slot, contents, targets.map fun target => ⟨target, .checking⟩⟩

def Phase.ended : Phase → Bool
  | .failed | .correct | .placed => true
  | _ => false

section Race

variable {slot : Option Entry} {contents : PathBuf → String} {targets : List PathBuf}
  {state next last : State} {target : PathBuf} {refused : Bool} {phase after : Phase}
  {choice : Choice} {choices : List Choice} {writer : Writer}

/-- The operations of a writer. -/
inductive WriteMoves (state : State) (target : PathBuf) (refused : Bool) :
    Phase → State → Phase → Prop where
  | found (h : state.slot = some (.link target)) :
      WriteMoves state target refused .checking state .correct
  | look : WriteMoves state target refused .checking state (.looking .firstLink)
  | clear (round : Round) (h : state.slot = none) :
      WriteMoves state target refused (.looking round) state round.next
  | occupied {entry : Entry} (round : Round) (h : state.slot = some entry) :
      WriteMoves state target refused (.looking round) state (.removing round)
  | gone (round : Round) (h : state.slot = none) :
      WriteMoves state target refused (.removing round) state .failed
  | removed {entry : Entry} (round : Round) (h : state.slot = some entry) :
      WriteMoves state target refused (.removing round) { state with slot := none } round.next
  | refused (again : Bool) (h : refused = true) :
      WriteMoves state target refused (.linking again) state (.looking .copy)
  | linked (again : Bool) (h : state.slot = none) :
      WriteMoves state target refused (.linking again)
        { state with slot := some (.link target) } .placed
  | lost {entry : Entry} (again : Bool) (h : state.slot = some entry) :
      WriteMoves state target refused (.linking again) state
        (.looking (if again then .copy else .secondLink))
  | copied : WriteMoves state target refused .copying
      { state with slot := some (.file (state.contents target)) } .placed
  | through {other : PathBuf} (h : state.slot = some (.link other)) :
      WriteMoves state target refused .copying
        { state with contents := copyOver state.contents target other } .placed
  | blocked (h : state.slot = some .dir) :
      WriteMoves state target refused .copying state .failed

theorem writeMoves_of_writeStep (h : writeStep state target refused phase = some (next, after)) :
    WriteMoves state target refused phase next after := by
  cases phase with
  | checking =>
      simp only [writeStep] at h
      split at h
      next hslot =>
          cases h
          exact .found hslot
      next =>
          cases h
          exact .look
  | looking round =>
      simp only [writeStep] at h
      split at h
      next hslot =>
          cases h
          exact .clear round hslot
      next entry hslot =>
          cases h
          exact .occupied round hslot
  | removing round =>
      simp only [writeStep] at h
      split at h
      next hslot =>
          cases h
          exact .gone round hslot
      next entry hslot =>
          cases h
          exact .removed round hslot
  | linking again =>
      simp only [writeStep] at h
      split at h
      next hrefused =>
          cases h
          exact .refused again hrefused
      next =>
          split at h
          next hslot =>
              cases h
              exact .linked again hslot
          next entry hslot =>
              cases h
              exact .lost again hslot
  | copying =>
      simp only [writeStep] at h
      split at h
      next =>
          cases h
          exact .copied
      next =>
          cases h
          exact .copied
      next other hslot =>
          cases h
          exact .through hslot
      next hslot =>
          cases h
          exact .blocked hslot
  | failed => cases h
  | correct => cases h
  | placed => cases h

theorem advance_cases (h : advance state choice = some next) :
    ∃ writer moved after, state.writers[choice.index]? = some writer ∧
      WriteMoves state writer.target choice.refused writer.phase moved after ∧
      next = setPhase moved choice.index writer.target after := by
  simp only [advance, Option.bind_eq_bind, Option.bind_eq_some_iff] at h
  obtain ⟨writer, hwriter, ⟨moved, after⟩, hstep, heq⟩ := h
  exact ⟨writer, moved, after, hwriter, writeMoves_of_writeStep hstep, (Option.some.inj heq).symm⟩

theorem WriteMoves.writers_eq (h : WriteMoves state target refused phase next after) :
    next.writers = state.writers := by
  cases h <;> rfl

theorem writers_advance {moved : State} {index : Nat}
    (hmove : WriteMoves state target refused phase moved after)
    (hother : writer ∈ (setPhase moved index target after).writers) :
    writer ∈ state.writers ∨ writer = ⟨target, after⟩ := by
  have hset := List.mem_or_eq_of_mem_set hother
  rw [hmove.writers_eq] at hset
  exact hset

/-- A text that is the file of a package, or what is left of it. -/
def Written (contents : PathBuf → String) (targets : List PathBuf) (content : String) : Prop :=
  content = "" ∨ ∃ target ∈ targets, content = contents target

/-- An entry that one of the writers has made. -/
inductive Claim (contents : PathBuf → String) (targets : List PathBuf) : Entry → Prop where
  | link {target : PathBuf} (h : target ∈ targets) : Claim contents targets (.link target)
  | copy {content : String} (h : Written contents targets content) :
      Claim contents targets (.file content)

/-- A writer that has not cleared the name yet. -/
def Phase.early : Phase → Bool
  | .checking | .looking .firstLink | .removing .firstLink => true
  | _ => false

/-- A writer that does not leave a free name free. -/
def Phase.owing : Phase → Bool
  | .checking | .looking _ | .linking _ | .copying => true
  | _ => false

theorem Round.owing_next (round : Round) : round.next.owing = true := by
  cases round <;> rfl

/-- What holds however the writers take turns. -/
structure Raced (contents : PathBuf → String) (targets : List PathBuf) (state : State) : Prop where
  targets_eq : state.writers.map (·.target) = targets
  vacant : state.slot = none → targets ≠ [] → ∃ writer ∈ state.writers, writer.phase.owing = true
  entry : ∀ entry, state.slot = some entry →
    Claim contents targets entry ∨ ∀ writer ∈ state.writers, writer.phase.early = true
  written : ∀ target ∈ targets, Written contents targets (state.contents target)

theorem Raced.start : Raced contents targets (start slot contents targets) where
  targets_eq := by simp [BinRace.start, Function.comp_def]
  vacant := by
    intro hslot hsome
    obtain ⟨target, htarget⟩ := List.exists_mem_of_ne_nil targets hsome
    exact ⟨⟨target, .checking⟩, List.mem_map_of_mem htarget, rfl⟩
  entry := by
    intro entry hslot
    refine .inr fun writer hwriter => ?_
    obtain ⟨target, htarget, heq⟩ := List.mem_map.mp hwriter
    subst heq
    rfl
  written := fun target htarget => .inr ⟨target, htarget, rfl⟩

/-- A name is left free by a writer that still claims it. -/
theorem WriteMoves.vacant (h : WriteMoves state target refused phase next after)
    (hslot : next.slot = none) :
    after.owing = true ∨ (state.slot = none ∧ phase.owing = false) := by
  cases h with
  | found hfound => exact absurd hslot (by simp [hfound])
  | look => exact .inl rfl
  | clear round hclear => exact .inl round.owing_next
  | occupied round hsome => exact absurd hslot (by simp [hsome])
  | gone round hnone => exact .inr ⟨hnone, rfl⟩
  | removed round hsome => exact .inl round.owing_next
  | refused again hrefused => exact .inl rfl
  | linked again hnone => cases hslot
  | lost again hsome => exact absurd hslot (by simp [hsome])
  | copied => cases hslot
  | through hsome => exact absurd hslot (by simp [hsome])
  | blocked hsome => exact absurd hslot (by simp [hsome])

theorem WriteMoves.entry {entry : Entry} (h : WriteMoves state target refused phase next after)
    (hslot : next.slot = some entry) :
    (state.slot = some entry ∧ (phase.early = true → after.early = true ∨ entry = .link target)) ∨
      entry = .link target ∨ entry = .file (state.contents target) := by
  cases h with
  | found hfound =>
      rw [hfound] at hslot
      exact .inr (.inl (Option.some.inj hslot).symm)
  | look => exact .inl ⟨hslot, fun _ => .inl rfl⟩
  | clear round hclear => exact absurd hslot (by simp [hclear])
  | occupied round hsome => exact .inl ⟨hslot, fun hearly => .inl (by cases round <;> exact hearly)⟩
  | gone round hnone => exact absurd hslot (by simp [hnone])
  | removed round hsome => cases hslot
  | refused again hrefused => exact .inl ⟨hslot, by simp [Phase.early]⟩
  | linked again hnone => exact .inr (.inl (Option.some.inj hslot).symm)
  | lost again hsome => exact .inl ⟨hslot, by simp [Phase.early]⟩
  | copied => exact .inr (.inr (Option.some.inj hslot).symm)
  | through hsome => exact .inl ⟨hslot, by simp [Phase.early]⟩
  | blocked hsome => exact .inl ⟨hslot, by simp [Phase.early]⟩

/-- The files of the packages change only by a copy through a link. -/
theorem WriteMoves.contents_eq (h : WriteMoves state target refused phase next after) :
    next.contents = state.contents ∨ phase = .copying ∧ after = .placed ∧
      ∃ other, state.slot = some (.link other) ∧
        next.contents = copyOver state.contents target other := by
  cases h with
  | @through other hsome => exact .inr ⟨rfl, rfl, other, hsome, rfl⟩
  | _ => exact .inl rfl

theorem Raced.copyOver {source destination : PathBuf} (hsource : source ∈ targets)
    (h : ∀ target ∈ targets, Written contents targets (state.contents target)) :
    ∀ target ∈ targets,
      Written contents targets (copyOver state.contents source destination target) := by
  intro target htarget
  simp only [BinRace.copyOver, Function.update_apply]
  split
  next =>
      split
      next => exact .inl rfl
      next => exact h source hsource
  next => exact h target htarget

theorem Raced.advance (hraced : Raced contents targets state)
    (h : advance state choice = some next) : Raced contents targets next := by
  obtain ⟨writer, moved, after, hwriter, hmove, heq⟩ := advance_cases h
  subst heq
  have hmem := List.mem_of_getElem? hwriter
  have htarget : writer.target ∈ targets := by
    rw [← hraced.targets_eq]
    exact List.mem_map_of_mem hmem
  have hlt := (List.getElem?_eq_some_iff.mp hwriter).1
  refine ⟨?_, ?_, ?_, ?_⟩
  · simp only [setPhase, hmove.writers_eq]
    have hmapped : choice.index < (state.writers.map (·.target)).length := by simpa using hlt
    have hat : (state.writers.map (·.target))[choice.index] = writer.target := by
      simp [(List.getElem?_eq_some_iff.mp hwriter).2]
    rw [List.map_set, ← hat, List.set_getElem_self, hraced.targets_eq]
  · intro hslot hsome
    simp only [setPhase, hmove.writers_eq]
    cases hmove.vacant hslot with
    | inl howing => exact ⟨⟨writer.target, after⟩, List.mem_set hlt _, howing⟩
    | inr hnone =>
        obtain ⟨other, hother, howing⟩ := hraced.vacant hnone.1 hsome
        obtain ⟨j, hj⟩ := List.getElem?_of_mem hother
        refine ⟨other, List.mem_of_getElem? (i := j) ?_, howing⟩
        rw [List.getElem?_set_ne, hj]
        intro hsame
        rw [hsame, hj] at hwriter
        cases hwriter
        simp [hnone.2] at howing
  · intro entry hslot
    cases hmove.entry hslot with
    | inl hkept =>
        cases hraced.entry entry hkept.1 with
        | inl hclaim => exact .inl hclaim
        | inr hearly =>
            cases hkept.2 (hearly writer hmem) with
            | inl hstill =>
                refine .inr fun other hother => ?_
                cases writers_advance hmove hother with
                | inl hold => exact hearly other hold
                | inr hnew =>
                    subst hnew
                    exact hstill
            | inr hlink =>
                subst hlink
                exact .inl (.link htarget)
    | inr hmade =>
        refine .inl ?_
        cases hmade with
        | inl hlink =>
            subst hlink
            exact .link htarget
        | inr hfile =>
            subst hfile
            exact .copy (hraced.written _ htarget)
  · cases hmove.contents_eq with
    | inl hkept =>
        simp only [setPhase, hkept]
        exact hraced.written
    | inr hthrough =>
        obtain ⟨_, _, other, _, hcontents⟩ := hthrough
        simp only [setPhase, hcontents]
        exact Raced.copyOver htarget hraced.written

theorem Raced.run (hrun : Run state choices last) (hraced : Raced contents targets state) :
    Raced contents targets last := by
  induction hrun with
  | nil => exact hraced
  | step choice hbefore hstep ih => exact ih.advance hstep

/-- How many entries of other writers a writer has found in its way. -/
def Phase.lost : Phase → Nat
  | .looking .secondLink | .removing .secondLink | .linking true => 1
  | .looking .copy | .removing .copy | .copying => 2
  | _ => 0

/-- A writer that has seen the name free. -/
def Phase.cleared : Phase → Bool
  | .linking _ | .copying => true
  | _ => false

def State.placedCount (state : State) : Nat :=
  state.writers.countP fun writer => writer.phase = .placed

/-- A writer loses the name only to others that have placed their entry. -/
structure Outrun (state : State) : Prop where
  lost : ∀ writer ∈ state.writers, writer.phase.lost ≤ state.placedCount
  taken : ∀ writer ∈ state.writers, writer.phase.cleared = true → state.slot ≠ none →
    writer.phase.lost < state.placedCount

theorem Outrun.start : Outrun (start slot contents targets) := by
  refine ⟨fun writer hwriter => ?_, fun writer hwriter hcleared => ?_⟩
  · obtain ⟨target, htarget, heq⟩ := List.mem_map.mp hwriter
    subst heq
    exact Nat.zero_le _
  · obtain ⟨target, htarget, heq⟩ := List.mem_map.mp hwriter
    subst heq
    cases hcleared

theorem Round.lost_next (round : Round) : round.next.lost = (Phase.looking round).lost := by
  cases round <;> rfl

theorem WriteMoves.lost_le (h : WriteMoves state target false phase next after) :
    after.lost ≤ phase.lost ∨
      phase.cleared = true ∧ state.slot ≠ none ∧ after.lost ≤ phase.lost + 1 := by
  cases h with
  | found hfound => exact .inl le_rfl
  | look => exact .inl le_rfl
  | clear round hclear => exact .inl round.lost_next.le
  | occupied round hsome => exact .inl (by cases round <;> exact le_rfl)
  | gone round hnone => exact .inl (Nat.zero_le _)
  | removed round hsome => exact .inl (by cases round <;> exact le_rfl)
  | refused again hrefused => cases hrefused
  | linked again hnone => exact .inl (Nat.zero_le _)
  | lost again hsome => exact .inr ⟨rfl, by simp [hsome], by cases again <;> exact le_rfl⟩
  | copied => exact .inl (Nat.zero_le _)
  | through hsome => exact .inl (Nat.zero_le _)
  | blocked hsome => exact .inl (Nat.zero_le _)

/-- A name is filled by the placing of an entry. -/
theorem WriteMoves.filled (h : WriteMoves state target refused phase next after)
    (hfilled : next.slot ≠ none) : after = .placed ∨ state.slot ≠ none := by
  cases h with
  | linked again hnone => exact .inl rfl
  | copied => exact .inl rfl
  | removed round hsome => exact absurd rfl hfilled
  | _ => exact .inr hfilled

theorem WriteMoves.cleared (h : WriteMoves state target refused phase next after)
    (hcleared : after.cleared = true) : next.slot = none := by
  cases h with
  | clear round hclear => exact hclear
  | removed round hsome => rfl
  | _ => cases hcleared

theorem WriteMoves.not_placed (h : WriteMoves state target refused phase next after) :
    phase ≠ .placed := by
  cases h <;> simp

/-- Only a placing step counts. -/
theorem placedCount_advance {moved : State} {index : Nat}
    (hwriter : state.writers[index]? = some writer)
    (hmove : WriteMoves state writer.target refused writer.phase moved after) :
    (setPhase moved index writer.target after).placedCount =
      state.placedCount + if after = .placed then 1 else 0 := by
  have hcount := Counting.countP_set (p := fun writer : Writer => decide (writer.phase = .placed))
    (b := ⟨writer.target, after⟩) hwriter
  simp only [decide_eq_true_eq, if_neg hmove.not_placed] at hcount
  simp only [State.placedCount, setPhase, hmove.writers_eq]
  exact hcount

theorem Outrun.advance (houtrun : Outrun state) (hlinks : choice.refused = false)
    (h : advance state choice = some next) : Outrun next := by
  obtain ⟨writer, moved, after, hwriter, hmove, heq⟩ := advance_cases h
  subst heq
  rw [hlinks] at hmove
  have hmem := List.mem_of_getElem? hwriter
  have hcount := placedCount_advance hwriter hmove
  have hmine : after.lost ≤ state.placedCount := by
    have hbefore := houtrun.lost writer hmem
    cases hmove.lost_le with
    | inl hle => omega
    | inr hmore =>
        have htaken := houtrun.taken writer hmem hmore.1 hmore.2.1
        omega
  refine ⟨fun other hother => ?_, fun other hother hcleared hfilled => ?_⟩
  · cases writers_advance hmove hother with
    | inl hold =>
        have hbefore := houtrun.lost other hold
        omega
    | inr hnew =>
        subst hnew
        simp only
        omega
  · cases writers_advance hmove hother with
    | inl hold =>
        have hbefore := houtrun.lost other hold
        cases hmove.filled hfilled with
        | inl hplaced =>
            rw [if_pos hplaced] at hcount
            omega
        | inr hsome =>
            have htaken := houtrun.taken other hold hcleared hsome
            omega
    | inr hnew =>
        subst hnew
        exact absurd (hmove.cleared hcleared) hfilled

/-- A copy through a link has three placed entries before it. -/
theorem Outrun.contents_advance (houtrun : Outrun state) (hfew : state.writers.length ≤ 3)
    (h : BinRace.advance state choice = some next) : next.contents = state.contents := by
  obtain ⟨writer, moved, after, hwriter, hmove, heq⟩ := advance_cases h
  subst heq
  cases hmove.contents_eq with
  | inl hkept => exact hkept
  | inr hthrough =>
      obtain ⟨hphase, hplaced, other, hslot, hcontents⟩ := hthrough
      have htaken := houtrun.taken writer (List.mem_of_getElem? hwriter) (by rw [hphase]; rfl)
        (by simp [hslot])
      have hcount := placedCount_advance hwriter hmove
      have hlength : (setPhase moved choice.index writer.target after).placedCount ≤
          state.writers.length := by
        refine List.countP_le_length.trans ?_
        simp [setPhase, hmove.writers_eq]
      rw [hphase] at htaken
      rw [if_pos hplaced] at hcount
      simp only [Phase.lost] at htaken
      omega

theorem writers_length_advance (h : advance state choice = some next) :
    next.writers.length = state.writers.length := by
  obtain ⟨writer, moved, after, hwriter, hmove, heq⟩ := advance_cases h
  subst heq
  simp [setPhase, hmove.writers_eq]

theorem Outrun.run (hrun : Run state choices last) (houtrun : Outrun state)
    (hfew : state.writers.length ≤ 3) (hlinks : ∀ choice ∈ choices, choice.refused = false) :
    Outrun last ∧ last.writers.length ≤ 3 ∧ last.contents = state.contents := by
  induction hrun with
  | nil => exact ⟨houtrun, hfew, rfl⟩
  | step choice hbefore hstep ih =>
      have hold := ih (fun other hother => hlinks other (by simp [hother]))
      have hlink := hlinks choice (by simp)
      refine ⟨hold.1.advance hlink hstep, ?_, ?_⟩
      · rw [writers_length_advance hstep]
        exact hold.2.1
      · exact (hold.1.contents_advance hold.2.1 hstep).trans hold.2.2

theorem run_of_foldlM {first : State} {before : List Choice} (hrun : Run first before state)
    (h : choices.foldlM advance state = some last) : Run first (before ++ choices) last := by
  induction choices generalizing before state with
  | nil =>
      cases h
      simpa using hrun
  | cons choice choices ih =>
      simp only [List.foldlM_cons, Option.bind_eq_bind, Option.bind_eq_some_iff] at h
      obtain ⟨moved, hmoved, hrest⟩ := h
      simpa using ih (.step choice hrun hmoved) hrest

end Race

def inTurn (indices : List Nat) : List Choice :=
  indices.map fun index => ⟨index, false⟩

def sampleFiles : PathBuf → String
  | "a/cli.js" => "a"
  | "b/cli.js" => "b"
  | _ => ""

/-- Four writers are too many: the first finds the links of the others in its way twice,
and copies its file through the link of the last. -/
example : ((inTurn [0, 0, 1, 1, 1, 0, 0, 0, 2, 2, 2, 0, 0, 0, 3, 3, 3, 0]).foldlM advance
    (start none sampleFiles ["a/cli.js", "c/cli.js", "d/cli.js", "b/cli.js"])).map
      (fun last => (last.slot, last.contents "b/cli.js")) =
    some (some (.link "b/cli.js"), "a") := by rfl

end Snpm.Linker.BinRace
