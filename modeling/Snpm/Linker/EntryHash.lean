import Mathlib
import Snpm.Library.Framing
import Snpm.Library.Digest
import Snpm.Library.MemoWalk
import Snpm.Resolve.Types
import Snpm.Linker.Peers

/-!
Entry hashes of the global virtual store. A package shared between projects
lives in a directory named by a hash of its tarball, its integrity and,
recursively, everything it is wired to. The recursion is memoised and cut at
packages that are still being hashed.

Hashed bytes are modelled as text, and the digest with its truncation is a
collision-free hash.
-/
namespace Snpm.Linker

abbrev HashState := MemoWalk.State PackageId String

def hashPackageId (hasher : String) (id : PackageId) : String :=
  hasher ++ id.name ++ "\x00" ++ id.version ++ "\x00"

/-- The loop over one kind of edges; peers are marked, dependencies are not. -/
def hashEdges (compute : PackageId → HashState → Option (String × HashState)) (marker : String) :
    List (String × PackageId) → String → HashState → Option (String × HashState)
  | [], hasher, s => some (hasher, s)
  | edge :: rest, hasher, s =>
      let hasher := hashPackageId (hasher ++ marker ++ edge.1 ++ "\x00") edge.2
      (compute edge.2 s).bind fun r =>
        hashEdges compute marker rest (hasher ++ r.1 ++ "\x00") r.2

section Compute

variable (H : Digest.Hash) (graph : ResolutionGraph)
  (resolvedPeers : BTreeMap PackageId (BTreeMap String PackageId))

/-- The fuel bounds the depth of the recursion. -/
def computeGlobalVirtualStoreEntryHash :
    Nat → PackageId → HashState → Option (String × HashState)
  | 0, _, _ => none
  | fuel + 1, id, s =>
      match s.done[id]? with
      | some hash => some (hash, s)
      | none =>
          let hasher := hashPackageId "snpm-global-virtual-store-v2" id
          if id ∈ s.visiting then some (H.hex (hasher ++ "cycle"), s)
          else
            let compute := computeGlobalVirtualStoreEntryHash fuel
            let s := ⟨s.done, s.visiting.insert id⟩
            let hashed := match graph.packages[id]? with
              | none => some (hasher, s)
              | some package =>
                  let hasher := hasher ++ package.tarball ++ "\x00" ++
                    package.integrity.getD "" ++ "\x00"
                  (hashEdges compute "" package.dependencies.toList hasher s).bind fun r =>
                    match resolvedPeers[id]? with
                    | none => some r
                    | some peers => hashEdges compute "peer\x00" peers.toList r.1 r.2
            hashed.map fun r =>
              (H.hex r.1, ⟨r.2.done.insert id (H.hex r.1), r.2.visiting.erase id⟩)

def computeAllEntryHashes (fuel : Nat) : List PackageId → HashState → Option HashState
  | [], s => some s
  | id :: ids, s =>
      (computeGlobalVirtualStoreEntryHash H graph resolvedPeers fuel id s).bind fun r =>
        computeAllEntryHashes fuel ids r.2

end Compute

variable (H : Digest.Hash) (S : SemverCrate)

def entryHashRun (graph : ResolutionGraph) : Option HashState :=
  computeAllEntryHashes H graph (resolveUniquePeers S graph) (graph.packages.size + 1)
    graph.packages.keys ⟨∅, ∅⟩

def globalVirtualStoreEntryHashes (graph : ResolutionGraph) : BTreeMap PackageId String :=
  match entryHashRun H S graph with
  | some s => s.done
  | none => ∅

inductive EdgeKind where
  | dependency
  | peer
deriving DecidableEq

def EdgeKind.marker : EdgeKind → String
  | .dependency => ""
  | .peer => "peer\x00"

/-- A wired neighbour of a package: the name it is linked under and its id. -/
structure Edge where
  kind : EdgeKind
  name : String
  target : PackageId
deriving DecidableEq

def edges (graph : ResolutionGraph) (id : PackageId) : List Edge :=
  match graph.packages[id]? with
  | none => []
  | some package =>
      package.dependencies.toList.map (fun e => ⟨.dependency, e.1, e.2⟩) ++
        (peersOf S graph id).map fun e => ⟨.peer, e.1, e.2⟩

def startText (graph : ResolutionGraph) (id : PackageId) : String :=
  let hasher := hashPackageId "snpm-global-virtual-store-v2" id
  match graph.packages[id]? with
  | none => hasher
  | some package =>
      hasher ++ package.tarball ++ "\x00" ++ package.integrity.getD "" ++ "\x00"

def hashEdge (hasher : String) (edge : Edge) (hash : String) : String :=
  hashPackageId (hasher ++ edge.kind.marker ++ edge.name ++ "\x00") edge.target ++ hash ++ "\x00"

def cutText (id : PackageId) : String :=
  hashPackageId "snpm-global-virtual-store-v2" id ++ "cycle"

/-- The hash computation as a memoised walk over the wired graph. -/
def entryWalk (graph : ResolutionGraph) : MemoWalk.Walk PackageId Edge String String where
  edges := edges S graph
  target := Edge.target
  start := startText graph
  feed := hashEdge
  finish := H.hex
  cut id := H.hex (cutText id)

variable {H S}

theorem mem_keys_of_mem_edges {graph : ResolutionGraph} {id : PackageId} {edge : Edge}
    (h : edge ∈ edges S graph id) : id ∈ graph.packages.keys := by
  rw [BTreeMap.mem_keys_iff]
  cases hpackage : graph.packages[id]? with
  | none => simp [edges, hpackage] at h
  | some package => exact ⟨package, rfl⟩

theorem hashEdges_eq_visitEdges (graph : ResolutionGraph) (kind : EdgeKind)
    (compute : PackageId → HashState → Option (String × HashState))
    (es : List (String × PackageId)) (hasher : String) (s : HashState) :
    hashEdges compute kind.marker es hasher s =
      MemoWalk.visitEdges (entryWalk H S graph) compute
        (es.map fun e => ⟨kind, e.1, e.2⟩) hasher s := by
  induction es generalizing hasher s with
  | nil => rfl
  | cons e es ih =>
      simp only [hashEdges, ih, List.map_cons, MemoWalk.visitEdges]
      rfl

/-- What is hashed for one package is its start text followed by its edges. -/
theorem hashed_eq_visitEdges (graph : ResolutionGraph) (id : PackageId)
    (compute : PackageId → HashState → Option (String × HashState)) (s : HashState) :
    (match graph.packages[id]? with
      | none => some (hashPackageId "snpm-global-virtual-store-v2" id, s)
      | some package =>
          (hashEdges compute "" package.dependencies.toList
            (hashPackageId "snpm-global-virtual-store-v2" id ++ package.tarball ++ "\x00" ++
              package.integrity.getD "" ++ "\x00") s).bind fun r =>
            match (resolveUniquePeers S graph)[id]? with
            | none => some r
            | some peers => hashEdges compute "peer\x00" peers.toList r.1 r.2) =
      MemoWalk.visitEdges (entryWalk H S graph) compute ((entryWalk H S graph).edges id)
        ((entryWalk H S graph).start id) s := by
  cases hpackage : graph.packages[id]? with
  | none =>
      simp only [entryWalk, edges, startText, hpackage]
      rfl
  | some package =>
      have hedges : (entryWalk H S graph).edges id =
          package.dependencies.toList.map (fun e => ⟨.dependency, e.1, e.2⟩) ++
            (peersOf S graph id).map fun e => ⟨.peer, e.1, e.2⟩ := by
        simp only [entryWalk, edges, hpackage]
      have hstart : (entryWalk H S graph).start id =
          hashPackageId "snpm-global-virtual-store-v2" id ++ package.tarball ++ "\x00" ++
            package.integrity.getD "" ++ "\x00" := by
        simp only [entryWalk, startText, hpackage]
      rw [hedges, hstart, MemoWalk.visitEdges_append, ← hashEdges_eq_visitEdges graph .dependency]
      refine congrArg (Option.bind _) (funext fun r => ?_)
      rw [← hashEdges_eq_visitEdges graph .peer, peersOf]
      cases (resolveUniquePeers S graph)[id]? with
      | none => rfl
      | some peers => rfl

theorem compute_eq_visit (graph : ResolutionGraph) (fuel : Nat) :
    computeGlobalVirtualStoreEntryHash H graph (resolveUniquePeers S graph) fuel =
      MemoWalk.visit (entryWalk H S graph) fuel := by
  induction fuel with
  | zero => rfl
  | succ fuel ih =>
      funext id s
      simp only [computeGlobalVirtualStoreEntryHash, MemoWalk.visit, ih]
      cases hdone : s.done[id]? with
      | some hash => rfl
      | none =>
          by_cases hvisiting : id ∈ s.visiting
          · simp only [hvisiting, if_true]
            rfl
          · simp only [hvisiting, if_false]
            exact congrArg _ (hashed_eq_visitEdges graph id _ _)

theorem entryHashRun_eq (graph : ResolutionGraph) :
    entryHashRun H S graph = MemoWalk.visitAll (entryWalk H S graph) (graph.packages.size + 1)
      graph.packages.keys ⟨∅, ∅⟩ := by
  have h : ∀ ids s, computeAllEntryHashes H graph (resolveUniquePeers S graph)
      (graph.packages.size + 1) ids s =
        MemoWalk.visitAll (entryWalk H S graph) (graph.packages.size + 1) ids s := by
    intro ids
    induction ids with
    | nil => exact fun _ => rfl
    | cons id ids ih =>
        intro s
        simp only [computeAllEntryHashes, MemoWalk.visitAll, compute_eq_visit, ih]
  exact h _ _

/-- The recursion is no deeper than the graph is large. -/
theorem entryHashRun_isSome (graph : ResolutionGraph) : (entryHashRun H S graph).isSome := by
  classical
  rw [entryHashRun_eq]
  refine MemoWalk.visitAll_isSome graph.packages.keys.toFinset ?_ ?_
  · intro id hid
    obtain ⟨edge, hedge⟩ := List.exists_mem_of_ne_nil _ hid
    exact List.mem_toFinset.mpr (mem_keys_of_mem_edges hedge)
  · refine Nat.lt_succ_of_le ((Finset.card_filter_le _ _).trans ?_)
    exact (List.toFinset_card_le _).trans (by simp)

end Snpm.Linker
