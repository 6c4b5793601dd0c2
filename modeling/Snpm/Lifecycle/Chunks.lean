import Mathlib
import Snpm.Library.LevelWalk
import Snpm.Library.OrderedMap

/-!
The order in which lifecycle scripts of dependencies run: chunks of jobs, each
after the jobs it depends on. Jobs are kept by package name, so two versions of
a package are one job. Hash maps are iterated in any order.
-/
namespace Snpm.Lifecycle

open LevelWalk (waiting)

structure DepScriptJob where
  name : String
  version : Option String
  pkgRoot : String
  depNames : List String
deriving DecidableEq

/-- The order in which a hash map with these keys is iterated. -/
structure HashOrder where
  visit : List String → List String
  perm : ∀ names, (visit names).Perm names

section Chunks

def jobsByName (jobs : List DepScriptJob) : BTreeMap String DepScriptJob :=
  BTreeMap.collect (jobs.map fun job => (job.name, job))

/-- The dependencies that have a job of their own. -/
def inSetDeps (byName : BTreeMap String DepScriptJob) (name : String) : List String :=
  match byName[name]? with
  | some job => job.depNames.filter fun dep => dep ≠ name && byName.contains dep
  | none => []

def addConsumer (name : String) (dependents : BTreeMap String (List String)) (dep : String) :
    BTreeMap String (List String) :=
  dependents.insert dep ((dependents[dep]?).getD [] ++ [name])

def dependentsOf (byName : BTreeMap String DepScriptJob) (names : List String) :
    BTreeMap String (List String) :=
  names.foldl (fun dependents name => (inSetDeps byName name).foldl (addConsumer name) dependents) ∅

def inDegrees (byName : BTreeMap String DepScriptJob) : BTreeMap String Nat :=
  byName.map fun name _ => (inSetDeps byName name).length

structure Sequencer where
  byName : BTreeMap String DepScriptJob
  dependents : BTreeMap String (List String)
  inDegree : BTreeMap String Nat

/-- The state of a pass over the ready names, with the jobs taken and the names
that got ready. -/
structure Round extends Sequencer where
  chunk : List DepScriptJob
  nextReady : List String

def releaseConsumer (state : BTreeMap String Nat × List String) (consumer : String) :
    BTreeMap String Nat × List String :=
  match state.1[consumer]? with
  | none => state
  | some degree =>
      (state.1.insert consumer (degree - 1),
        if degree - 1 = 0 then state.2 ++ [consumer] else state.2)

def visitReady (round : Round) (name : String) : Round :=
  let released := ((round.dependents[name]?).getD []).foldl releaseConsumer
    (round.inDegree, round.nextReady)
  { byName := round.byName.erase name
    dependents := round.dependents.erase name
    inDegree := released.1
    chunk := round.chunk ++ (round.byName[name]?).toList
    nextReady := released.2 }

def runRound (seq : Sequencer) (ready : List String) : Round :=
  ready.foldl visitReady { seq with chunk := [], nextReady := [] }

/-- A name gets ready only through an entry that is taken out. -/
theorem visitReady_dependents (n : Nat) {round : Round} (name : String)
    (h : round.dependents.size ≤ n ∧ (round.nextReady = [] ∨ round.dependents.size < n)) :
    (visitReady round name).dependents.size ≤ n ∧
      ((visitReady round name).nextReady = [] ∨ (visitReady round name).dependents.size < n) := by
  have hsize : (visitReady round name).dependents.size =
      if name ∈ round.dependents then round.dependents.size - 1 else round.dependents.size :=
    Std.ExtTreeMap.size_erase
  by_cases hmem : name ∈ round.dependents
  · have hpos : 0 < round.dependents.size := by
      rw [Nat.pos_iff_ne_zero]
      intro hzero
      rw [Std.ExtTreeMap.eq_empty_iff_size_eq_zero.mpr hzero] at hmem
      exact absurd hmem Std.ExtTreeMap.not_mem_empty
    rw [if_pos hmem] at hsize
    refine ⟨by omega, .inr (by omega)⟩
  · have hnone : round.dependents[name]? = none := Std.ExtTreeMap.getElem?_eq_none hmem
    have hnext : (visitReady round name).nextReady = round.nextReady := by
      unfold visitReady
      rw [hnone]
      rfl
    rw [if_neg hmem] at hsize
    rw [hsize, hnext]
    exact h

theorem runRound_dependents (seq : Sequencer) (ready : List String)
    (h : (runRound seq ready).nextReady ≠ []) :
    (runRound seq ready).dependents.size < seq.dependents.size := by
  have hfold : ∀ (names : List String) (round : Round),
      (round.dependents.size ≤ seq.dependents.size ∧
        (round.nextReady = [] ∨ round.dependents.size < seq.dependents.size)) →
      (names.foldl visitReady round).dependents.size ≤ seq.dependents.size ∧
        ((names.foldl visitReady round).nextReady = [] ∨
          (names.foldl visitReady round).dependents.size < seq.dependents.size) := by
    intro names
    induction names with
    | nil => exact fun _ hround => hround
    | cons name names ih => exact fun round hround => ih _ (visitReady_dependents _ name hround)
  exact (hfold ready _ ⟨Nat.le_refl _, .inl rfl⟩).2.resolve_left h

/-- The levels, and the jobs that never get ready. -/
def levels (seq : Sequencer) (ready : List String) :
    List (List DepScriptJob) × BTreeMap String DepScriptJob :=
  if ready = [] then ([], seq.byName)
  else
    let round := runRound seq ready
    let rest := levels round.toSequencer round.nextReady
    (if round.chunk = [] then rest.1 else round.chunk :: rest.1, rest.2)
termination_by if ready = [] then 0 else seq.dependents.size + 1
decreasing_by
  rename_i hready
  rw [if_neg hready]
  split
  · omega
  · rename_i hnext
    have hlt := runRound_dependents seq ready hnext
    omega

/-- The three orders are those of the pass over the jobs, of the search for the
first ready names, and of the jobs of a cycle. -/
def topologicalChunks (jobOrder degreeOrder cycleOrder : HashOrder) (jobs : List DepScriptJob) :
    List (List DepScriptJob) :=
  let byName := jobsByName jobs
  let inDegree := inDegrees byName
  let seq := ⟨byName, dependentsOf byName (jobOrder.visit byName.keys), inDegree⟩
  let ready := (degreeOrder.visit inDegree.keys).filter fun name => inDegree[name]? = some 0
  let result := levels seq ready
  if result.2.isEmpty then result.1
  else result.1 ++ [(cycleOrder.visit result.2.keys).filterMap (result.2[·]?)]

end Chunks

end Snpm.Lifecycle
