import Mathlib
import Snpm.Library.MemoAcyclic
import Snpm.Linker.EntryIdentity
import Snpm.Linker.PeerChoice

/-!
Entry hashes of graphs without cycles. The memoised computation is the plain
recursion over a package's data and its neighbours, and what it yields for a
package does not depend on packages that are not behind it.
-/
namespace Snpm.Linker

open MemoWalk

variable (H : Digest.Hash) (S : SemverCrate)

/-- The plain recursion: the hash of the id, the tarball, the integrity and the
sorted edges with the hashes of their targets. -/
def IsEntryHash (graph : ResolutionGraph) (hash : PackageId → String) : Prop :=
  ∀ id, hash id = H.hex ((edges S graph id).foldl
    (fun hasher edge => hashEdge hasher edge (hash edge.target)) (startText graph id))

/-- One package is a dependency or a resolved peer of the other. -/
def Wired (graph : ResolutionGraph) (id neighbour : PackageId) : Prop :=
  ∃ edge ∈ edges S graph id, edge.target = neighbour

/-- The dependency and peer closure of a package. -/
def Behind (graph : ResolutionGraph) : PackageId → PackageId → Prop :=
  Relation.ReflTransGen (Wired S graph)

def WiredAcyclic (graph : ResolutionGraph) : Prop :=
  ∀ id, ¬ Relation.TransGen (Wired S graph) id id

variable {H S}

theorem entryWalk_acyclic {graph : ResolutionGraph} (h : WiredAcyclic S graph) :
    (entryWalk H S graph).Acyclic := h

/-- The computation in a given order, from scratch. -/
theorem computeAllEntryHashes_eq (graph : ResolutionGraph) (fuel : Nat) (ids : List PackageId)
    (s : HashState) :
    computeAllEntryHashes H graph (resolveUniquePeers S graph) fuel ids s =
      visitAll (entryWalk H S graph) fuel ids s := by
  induction ids generalizing s with
  | nil => rfl
  | cons id ids ih => simp only [computeAllEntryHashes, visitAll, compute_eq_visit, ih]

theorem computeAllEntryHashes_isSome (graph : ResolutionGraph) {fuel : Nat}
    (hfuel : graph.packages.size < fuel) (ids : List PackageId) :
    (computeAllEntryHashes H graph (resolveUniquePeers S graph) fuel ids ⟨∅, ∅⟩).isSome := by
  classical
  rw [computeAllEntryHashes_eq]
  refine visitAll_isSome graph.packages.keys.toFinset ?_ ?_
  · intro id hid
    obtain ⟨edge, hedge⟩ := List.exists_mem_of_ne_nil _ hid
    exact List.mem_toFinset.mpr (mem_keys_of_mem_edges hedge)
  · refine Nat.lt_of_le_of_lt ((Finset.card_filter_le _ _).trans ?_) hfuel
    exact (List.toFinset_card_le _).trans (by simp)

theorem solvesOn_of_isEntryHash {graph : ResolutionGraph} {hash : PackageId → String}
    (h : IsEntryHash H S graph hash) (R : Set PackageId) :
    (entryWalk H S graph).SolvesOn R hash := fun id _ => h id

/-- Without cycles the plain recursion has a solution. -/
theorem exists_isEntryHash {graph : ResolutionGraph} (h : WiredAcyclic S graph) :
    ∃ hash, IsEntryHash H S graph hash := by
  obtain ⟨hexp, hall⟩ := entryHashes_explained (H := H) (S := S) graph
  have hedges : ∀ id, (entryWalk H S graph).edges id ≠ [] →
      id ∈ globalVirtualStoreEntryHashes H S graph := by
    intro id hid
    obtain ⟨edge, hedge⟩ := List.exists_mem_of_ne_nil _ hid
    exact BTreeMap.mem_iff_exists.mpr (hall id (Std.ExtTreeMap.mem_keys.mp (mem_keys_of_mem_edges hedge)))
  exact ⟨_, fun id => hexp.solves (entryWalk_acyclic h) hedges id (Set.mem_univ id)⟩

/-- In any order of visits, what is remembered is the plain recursion. -/
theorem computeAllEntryHashes_plain {graph : ResolutionGraph} {hash : PackageId → String}
    (h : WiredAcyclic S graph) (hhash : IsEntryHash H S graph hash) {fuel : Nat}
    (hfuel : graph.packages.size < fuel) (ids : List PackageId) :
    ∃ s, computeAllEntryHashes H graph (resolveUniquePeers S graph) fuel ids ⟨∅, ∅⟩ = some s ∧
      (∀ id ∈ ids, s.done[id]? = some (hash id)) ∧
      ∀ id remembered, s.done[id]? = some remembered → remembered = hash id := by
  obtain ⟨s, hs⟩ := Option.isSome_iff_exists.mp
    (computeAllEntryHashes_isSome (H := H) (S := S) graph hfuel ids)
  have hrun := hs
  rw [computeAllEntryHashes_eq] at hrun
  obtain ⟨hexp, hall⟩ := visitAll_explained hrun (by simp) (explained_empty _)
  have heq : ∀ id remembered, s.done[id]? = some remembered → remembered = hash id := by
    intro id remembered hdone
    exact hexp.eq_solution (entryWalk_acyclic h) (fun _ _ _ _ => Set.mem_univ _)
      (solvesOn_of_isEntryHash hhash Set.univ) (Set.mem_univ id) hdone
  refine ⟨s, hs, fun id hid => ?_, heq⟩
  obtain ⟨remembered, hdone⟩ := hall id hid
  rw [hdone, heq id remembered hdone]

/-- The hashes of the store are the plain recursion on the packages. -/
theorem entryHashes_plain {graph : ResolutionGraph} {hash : PackageId → String}
    (h : WiredAcyclic S graph) (hhash : IsEntryHash H S graph hash) {id : PackageId}
    (hid : id ∈ graph.packages) :
    (globalVirtualStoreEntryHashes H S graph)[id]? = some (hash id) := by
  obtain ⟨s, hs, hall, -⟩ := computeAllEntryHashes_plain h hhash
    (Nat.lt_succ_self graph.packages.size) graph.packages.keys
  simp only [globalVirtualStoreEntryHashes, entryHashRun, hs]
  exact hall id (Std.ExtTreeMap.mem_keys.mpr hid)

section Locality

variable {small large : ResolutionGraph}

/-- One graph has more packages than the other, and nothing else differs. -/
structure Grows (small large : ResolutionGraph) : Prop where
  root : small.root = large.root
  packages : ∀ (id : PackageId) package, small.packages[id]? = some package →
    large.packages[id]? = some package

variable (S) in
/-- None of the added packages is behind this one. -/
def AddedElsewhere (small large : ResolutionGraph) (id : PackageId) : Prop :=
  ∀ added, added ∈ large.packages → added ∉ small.packages → ¬ Behind S large id added

theorem Grows.mem (h : Grows small large) {id : PackageId} (hid : id ∈ small.packages) :
    id ∈ large.packages := by
  obtain ⟨package, hpackage⟩ := BTreeMap.mem_iff_exists.mp hid
  exact BTreeMap.mem_iff_exists.mpr ⟨package, h.packages id package hpackage⟩

theorem Grows.provides (h : Grows small large) {name range : String} {id : PackageId}
    (hid : Provides S small name range id) : Provides S large name range id := by
  obtain ⟨hin, hrest⟩ := hid
  refine ⟨?_, hrest⟩
  cases hin with
  | inl hmem => exact .inl (h.mem hmem)
  | inr hroot => exact .inr (h.root ▸ hroot)

theorem Grows.rootProvides_iff (h : Grows small large) {name range : String} {id : PackageId} :
    RootProvides S small name range id ↔ RootProvides S large name range id := by
  rw [RootProvides, RootProvides, h.root]

theorem Grows.keys_sublist (h : Grows small large) :
    small.packages.keys.Sublist large.packages.keys := by
  have hantisymm : Std.Antisymm fun a b : PackageId => compare a b = .lt :=
    ⟨fun a b hab hba => by rw [Std.OrientedCmp.gt_of_lt hab] at hba; cases hba⟩
  refine List.sublist_of_subperm_of_pairwise
    (List.subperm_of_subset Std.ExtTreeMap.nodup_keys ?_) Std.ExtTreeMap.ordered_keys
    Std.ExtTreeMap.ordered_keys
  intro id hid
  exact Std.ExtTreeMap.mem_keys.mpr (h.mem (Std.ExtTreeMap.mem_keys.mp hid))

theorem nodup_candidates (graph : ResolutionGraph) (name : String) (set : RangeSet S) :
    ((idsByName graph name).filter (satisfies S set)).Nodup :=
  List.Nodup.filter _ (List.Nodup.filter _ Std.ExtTreeMap.nodup_keys)

/-- A provider that is there without the added packages is chosen without them. -/
theorem Grows.provider_eq [Std.TransCmp S.cmp] (h : Grows small large) {name range : String}
    {id : PackageId} (hid : provider S large name range = some id)
    (hold : id ∈ large.packages → id ∈ small.packages) :
    provider S small name range = some id := by
  cases hset : parseRangeSet S name range with
  | error e =>
      rw [provider_of_error hset] at hid
      cases hid
  | ok set =>
      rw [provider_of_ok hset] at hid ⊢
      by_cases hroot : ∃ other, RootProvides S large name range other
      · obtain ⟨other, hother⟩ := hroot
        rw [selectDominantPeer_of_root hset hother] at hid
        rw [selectDominantPeer_of_root hset (h.rootProvides_iff.mpr hother), hid]
      · rw [not_exists] at hroot
        have hroot' : ∀ other, ¬ RootProvides S small name range other :=
          fun other hother => hroot other (h.rootProvides_iff.mp hother)
        rw [selectDominantPeer_of_no_root hset hroot] at hid
        rw [selectDominantPeer_of_no_root hset hroot']
        have hgreatest := (LastGreatest.scan_eq_some_iff ordersOn_versions
          (parses_of_mem_candidates hset)).mp hid
        obtain ⟨hmem, hname, hversion⟩ := (mem_candidates_iff hset).mp hgreatest.mem
        apply (LastGreatest.scan_eq_some_iff ordersOn_versions (parses_of_mem_candidates hset)).mpr
        refine hgreatest.sublist ?_ (nodup_candidates large name set) ?_
        · exact (h.keys_sublist.filter _).filter _
        · exact (mem_candidates_iff hset).mpr ⟨hold hmem, hname, hversion⟩

theorem Grows.provider_none [Std.TransCmp S.cmp] (h : Grows small large) {name range : String}
    (hnone : provider S large name range = none) : provider S small name range = none := by
  cases hsmall : provider S small name range with
  | none => rfl
  | some id =>
      obtain ⟨provided, hprovided⟩ := (provider_isSome_iff small name range).mp ⟨id, hsmall⟩
      obtain ⟨other, hother⟩ := (provider_isSome_iff large name range).mpr
        ⟨provided, h.provides hprovided⟩
      rw [hnone] at hother
      cases hother

/-- A package whose peers were not added has the same peers in both graphs. -/
theorem Grows.peers_eq [Std.TransCmp S.cmp] (h : Grows small large) {package : ResolvedPackage}
    (hold : ∀ peers, resolvePackagePeers S large package = some peers → ∀ (name : String) id,
      peers[name]? = some id → id ∈ large.packages → id ∈ small.packages) :
    resolvePackagePeers S small package = resolvePackagePeers S large package := by
  cases hempty : package.peerDependencies.isEmpty with
  | true => simp only [resolvePackagePeers, hempty, if_true]
  | false =>
      cases hlarge : resolvePackagePeers S large package with
      | none =>
          cases hsmall : resolvePackagePeers S small package with
          | none => rfl
          | some peers =>
              have hall := (resolvePackagePeers_isSome_iff hempty).mp ⟨peers, hsmall⟩
              have hsome : ∃ peers, resolvePackagePeers S large package = some peers := by
                refine (resolvePackagePeers_isSome_iff hempty).mpr fun name range hneeds => ?_
                obtain ⟨id, hid⟩ := hall name range hneeds
                cases hprovider : provider S large name range with
                | none =>
                    rw [h.provider_none hprovider] at hid
                    cases hid
                | some other => exact ⟨other, rfl⟩
              obtain ⟨others, hothers⟩ := hsome
              rw [hlarge] at hothers
              cases hothers
      | some peers =>
          have hprovider : ∀ name range id, NeedsPeer package name range →
              provider S large name range = some id → provider S small name range = some id := by
            intro name range id hneeds hid
            refine h.provider_eq hid (hold peers hlarge name id ?_)
            exact (getElem?_resolvePackagePeers hlarge name id).mpr ⟨range, hneeds, hid⟩
          have hall := (resolvePackagePeers_isSome_iff hempty).mp ⟨peers, hlarge⟩
          have hsome : ∃ peers, resolvePackagePeers S small package = some peers := by
            refine (resolvePackagePeers_isSome_iff hempty).mpr fun name range hneeds => ?_
            obtain ⟨id, hid⟩ := hall name range hneeds
            exact ⟨id, hprovider name range id hneeds hid⟩
          obtain ⟨others, hothers⟩ := hsome
          rw [hothers, Option.some.injEq]
          apply Std.ExtTreeMap.ext_getElem?
          intro name
          apply Option.ext
          intro id
          rw [getElem?_resolvePackagePeers hothers, getElem?_resolvePackagePeers hlarge]
          constructor
          · intro hid
            obtain ⟨range, hneeds, hid⟩ := hid
            obtain ⟨other, hother⟩ := hall name range hneeds
            have hsame := hprovider name range other hneeds hother
            rw [hid, Option.some.injEq] at hsame
            exact ⟨range, hneeds, hsame ▸ hother⟩
          · intro hid
            obtain ⟨range, hneeds, hid⟩ := hid
            exact ⟨range, hneeds, hprovider name range id hneeds hid⟩

theorem Grows.package_eq (h : Grows small large) {id : PackageId}
    (hold : id ∈ large.packages → id ∈ small.packages) :
    small.packages[id]? = large.packages[id]? := by
  cases hsmall : small.packages[id]? with
  | some package => rw [h.packages id package hsmall]
  | none =>
      cases hlarge : large.packages[id]? with
      | none => rfl
      | some package =>
          have hmem := hold (BTreeMap.mem_iff_exists.mpr ⟨package, hlarge⟩)
          obtain ⟨other, hother⟩ := BTreeMap.mem_iff_exists.mp hmem
          rw [hsmall] at hother
          cases hother

theorem AddedElsewhere.old {id k : PackageId} (h : AddedElsewhere S small large id)
    (hk : Behind S large id k) : k ∈ large.packages → k ∈ small.packages := by
  intro hlarge
  by_contra hsmall
  exact h k hlarge hsmall hk

/-- Behind the package both graphs have the same data and the same edges. -/
theorem Grows.same_behind [Std.TransCmp S.cmp] (h : Grows small large) {id k : PackageId}
    (hadded : AddedElsewhere S small large id) (hk : Behind S large id k) :
    startText small k = startText large k ∧ edges S small k = edges S large k := by
  have hpackage := h.package_eq (hadded.old hk)
  have hpeers : peersOf S small k = peersOf S large k := by
    rw [peersOf, peersOf, getElem?_resolveUniquePeers, getElem?_resolveUniquePeers, hpackage]
    cases hlarge : large.packages[k]? with
    | none => rfl
    | some package =>
        have hsame : resolvePackagePeers S small package = resolvePackagePeers S large package := by
          refine h.peers_eq fun peers hpeers name peer hpeer => hadded.old (hk.tail ?_)
          refine ⟨⟨.peer, name, peer⟩, ?_, rfl⟩
          have hentry : (name, peer) ∈ peersOf S large k := by
            rw [peersOf, getElem?_resolveUniquePeers, hlarge, Option.bind_some, hpeers]
            exact Std.ExtTreeMap.mem_toList_iff_getElem?_eq_some.mpr hpeer
          rw [edges, hlarge]
          exact List.mem_append_right _ (List.mem_map_of_mem hentry)
        rw [Option.bind_some, Option.bind_some, hsame]
  constructor
  · rw [startText, startText, hpackage]
  · rw [edges, edges, hpackage, hpeers]

/-- Packages that are not behind a package do not change its hash. -/
theorem entryHash_grows [Std.TransCmp S.cmp] (h : Grows small large) (hsmall : WiredAcyclic S small)
    (hlarge : WiredAcyclic S large) {id : PackageId} (hid : id ∈ small.packages)
    (hadded : AddedElsewhere S small large id) :
    (globalVirtualStoreEntryHashes H S small)[id]? =
      (globalVirtualStoreEntryHashes H S large)[id]? := by
  obtain ⟨hash, hhash⟩ := exists_isEntryHash (H := H) hlarge
  obtain ⟨hexp, hall⟩ := entryHashes_explained (H := H) (S := S) small
  obtain ⟨remembered, hremembered⟩ := hall id hid
  have hclosed : (entryWalk H S small).ClosedUnder {k | Behind S large id k} := by
    intro k hk edge hedge
    have hlargeEdge : edge ∈ edges S large k := (h.same_behind hadded hk).2 ▸ hedge
    exact Relation.ReflTransGen.tail hk ⟨edge, hlargeEdge, rfl⟩
  have hsolves : (entryWalk H S small).SolvesOn {k | Behind S large id k} hash := by
    intro k hk
    obtain ⟨hstart, hedges⟩ := h.same_behind hadded hk
    rw [hhash k, ← hstart, ← hedges]
    rfl
  have heq := hexp.eq_solution (entryWalk_acyclic hsmall) hclosed hsolves
    (show id ∈ {k | Behind S large id k} from .refl) hremembered
  rw [entryHashes_plain hlarge hhash (h.mem hid), hremembered, heq]

end Locality

variable (H S) in
/-- The memoised computation is the plain recursion, and the plain recursion
looks only behind a package. -/
structure HashesPlain (graph : ResolutionGraph) (hash : PackageId → String) : Prop where
  plain : IsEntryHash H S graph hash
  unique : ∀ other, IsEntryHash H S graph other → other = hash
  anyOrder : ∀ fuel ids, graph.packages.size < fuel →
    ∃ s, computeAllEntryHashes H graph (resolveUniquePeers S graph) fuel ids ⟨∅, ∅⟩ = some s ∧
      (∀ id ∈ ids, s.done[id]? = some (hash id)) ∧
      ∀ id remembered, s.done[id]? = some remembered → remembered = hash id
  stored : ∀ id ∈ graph.packages, (globalVirtualStoreEntryHashes H S graph)[id]? = some (hash id)
  added : ∀ large id, WiredAcyclic S large → Grows graph large → id ∈ graph.packages →
    AddedElsewhere S graph large id →
      (globalVirtualStoreEntryHashes H S large)[id]? = some (hash id)
  removed : ∀ small id, WiredAcyclic S small → Grows small graph → id ∈ small.packages →
    AddedElsewhere S small graph id →
      (globalVirtualStoreEntryHashes H S small)[id]? = some (hash id)

theorem entryHashes_plain_recursion [Std.TransCmp S.cmp] (graph : ResolutionGraph)
    (h : WiredAcyclic S graph) : ∃ hash, HashesPlain H S graph hash := by
  obtain ⟨hash, hhash⟩ := exists_isEntryHash (H := H) h
  refine ⟨hash, hhash, ?_, ?_, ?_, ?_, ?_⟩
  · intro other hother
    funext id
    obtain ⟨s, hs, hall, -⟩ := computeAllEntryHashes_plain h hhash
      (Nat.lt_succ_self graph.packages.size) [id]
    obtain ⟨t, ht, -, heq⟩ := computeAllEntryHashes_plain h hother
      (Nat.lt_succ_self graph.packages.size) [id]
    rw [hs, Option.some.injEq] at ht
    subst ht
    exact (heq id _ (hall id List.mem_cons_self)).symm
  · exact fun fuel ids hfuel => computeAllEntryHashes_plain h hhash hfuel ids
  · exact fun id hid => entryHashes_plain h hhash hid
  · intro large id hlarge hgrows hid hadded
    rw [← entryHash_grows hgrows h hlarge hid hadded, entryHashes_plain h hhash hid]
  · intro small id hsmall hgrows hid hadded
    rw [entryHash_grows hgrows hsmall h hid hadded, entryHashes_plain h hhash (hgrows.mem hid)]

theorem twoReacts_wired {id neighbour : PackageId} (h : Wired releaseCrate twoReacts id neighbour) :
    id = reactPlugin.id ∧ neighbour = react17 := by
  obtain ⟨edge, hedge, rfl⟩ := h
  have hkeys : twoReacts.packages.keys = [reactPlugin.id, react17, react18] := by decide +kernel
  have hid : id ∈ twoReacts.packages.keys := mem_keys_of_mem_edges hedge
  have hplugin : edges releaseCrate twoReacts reactPlugin.id = [⟨.peer, "react", react17⟩] := by
    decide +kernel
  have h17 : edges releaseCrate twoReacts react17 = [] := by decide +kernel
  have h18 : edges releaseCrate twoReacts react18 = [] := by decide +kernel
  rw [hkeys] at hid
  simp only [List.mem_cons, List.not_mem_nil, or_false] at hid
  obtain rfl | rfl | rfl := hid
  · rw [hplugin, List.mem_singleton] at hedge
    rw [hedge]
    exact ⟨rfl, rfl⟩
  · rw [h17] at hedge
    cases hedge
  · rw [h18] at hedge
    cases hedge

theorem twoReacts_acyclic : WiredAcyclic releaseCrate twoReacts := by
  intro id hcycle
  obtain ⟨_, hfirst, -⟩ := Relation.TransGen.head'_iff.mp hcycle
  obtain ⟨_, -, hlast⟩ := Relation.TransGen.tail'_iff.mp hcycle
  have hsame := (twoReacts_wired hfirst).1.symm.trans (twoReacts_wired hlast).2
  exact absurd hsame (by decide)

theorem twoReacts_hashes_plain :
    ∃ hash, HashesPlain Digest.unaryHash releaseCrate twoReacts hash :=
  entryHashes_plain_recursion twoReacts twoReacts_acyclic

end Snpm.Linker
