import Mathlib
import Snpm.Linker.VirtualStore
import Snpm.Resolve.Closed

/-!
Which packages end up in the store that projects share. The closure loop ends
with the least set that holds the project-local packages and whatever is wired
to one of the set. In a closed graph a shared package is therefore wired to
shared packages only, and wiring never misses one.
-/
namespace Snpm.Linker

open LinkTree Resolve

variable {S : SemverCrate} {graph : ResolutionGraph}

/-- The least set that contains the seeds and every package with a dependency
or resolved peer in the set. -/
structure LeastLocal (S : SemverCrate) (graph : ResolutionGraph)
    (seeds locals : BTreeSet PackageId) : Prop where
  seeded : ∀ id ∈ seeds, id ∈ locals
  closed : LocalClosed S graph locals
  least : ∀ other : BTreeSet PackageId, (∀ id ∈ seeds, id ∈ other) →
    LocalClosed S graph other → ∀ id ∈ locals, id ∈ other

section Closure

/-- A package with a neighbour in a smaller set has one in a larger set. -/
theorem hasLocalNeighbour_mono {locals other : BTreeSet PackageId}
    (h : ∀ id ∈ locals, id ∈ other) {id : PackageId} {package : ResolvedPackage}
    (hneighbour : hasLocalNeighbour S graph locals id package = true) :
    hasLocalNeighbour S graph other id package = true := by
  simp only [hasLocalNeighbour, Bool.or_eq_true, List.any_eq_true,
    Std.ExtTreeSet.contains_iff_mem] at hneighbour ⊢
  cases hneighbour with
  | inl hdep =>
      obtain ⟨e, hmem, he⟩ := hdep
      exact .inl ⟨e, hmem, h e.2 he⟩
  | inr hpeer =>
      obtain ⟨e, hmem, he⟩ := hpeer
      exact .inr ⟨e, hmem, h e.2 he⟩

theorem localStep_subset {locals other : BTreeSet PackageId} (hclosed : LocalClosed S graph other)
    (h : ∀ id ∈ locals, id ∈ other) {p : PackageId × ResolvedPackage}
    (hp : p ∈ graph.packages.toList) : ∀ id ∈ localStep S graph locals p, id ∈ other := by
  intro id hid
  unfold localStep at hid
  split at hid
  · exact h id hid
  · split at hid
    · rename_i hneighbour
      cases Std.ExtTreeSet.mem_insert.mp hid with
      | inl heq =>
          rw [← Std.LawfulEqCmp.compare_eq_iff_eq.mp heq]
          exact hclosed p hp (hasLocalNeighbour_mono h hneighbour)
      | inr hmem => exact h id hmem
    · exact h id hid

/-- A pass stays inside every closed set that contains its start. -/
theorem localPass_subset {locals other : BTreeSet PackageId} (hclosed : LocalClosed S graph other)
    (h : ∀ id ∈ locals, id ∈ other) : ∀ id ∈ localPass S graph locals, id ∈ other := by
  have hfold : ∀ (ps : List (PackageId × ResolvedPackage)) (locals : BTreeSet PackageId),
      (∀ p ∈ ps, p ∈ graph.packages.toList) → (∀ id ∈ locals, id ∈ other) →
        ∀ id ∈ ps.foldl (localStep S graph) locals, id ∈ other := by
    intro ps
    induction ps with
    | nil => exact fun _ _ h => h
    | cons p ps ih =>
        intro locals hps h
        refine ih _ (fun q hq => hps q (List.mem_cons_of_mem _ hq)) ?_
        exact localStep_subset hclosed h (hps p List.mem_cons_self)
  exact hfold _ locals (fun _ hp => hp) h

theorem localPass_of_closed {locals : BTreeSet PackageId} (h : LocalClosed S graph locals) :
    localPass S graph locals = locals :=
  Std.ExtTreeSet.ext_mem fun {id} =>
    ⟨localPass_subset h (fun _ hid => hid) id, foldl_localStep_grows _ locals id⟩

theorem localClosure_subset {fuel : Nat} {locals other : BTreeSet PackageId}
    (hclosed : LocalClosed S graph other) (h : ∀ id ∈ locals, id ∈ other) :
    ∀ id ∈ localClosure S graph fuel locals, id ∈ other := by
  induction fuel generalizing locals with
  | zero => exact h
  | succ fuel ih =>
      simp only [localClosure]
      split
      · exact h
      · exact ih (localPass_subset hclosed h)

theorem localClosure_grows {fuel : Nat} {locals : BTreeSet PackageId} :
    ∀ id ∈ locals, id ∈ localClosure S graph fuel locals := by
  induction fuel generalizing locals with
  | zero => exact fun _ hid => hid
  | succ fuel ih =>
      simp only [localClosure]
      split
      · exact fun _ hid => hid
      · exact fun id hid => ih id (foldl_localStep_grows _ locals id hid)

/-- The loop has run some passes when it returns. -/
theorem localClosure_iterate (fuel : Nat) (locals : BTreeSet PackageId) :
    ∃ passes ≤ fuel, (localPass S graph)^[passes] locals = localClosure S graph fuel locals := by
  induction fuel generalizing locals with
  | zero => exact ⟨0, le_rfl, rfl⟩
  | succ fuel ih =>
      simp only [localClosure]
      split
      · exact ⟨0, Nat.zero_le _, rfl⟩
      · obtain ⟨passes, hle, hpasses⟩ := ih (localPass S graph locals)
        exact ⟨passes + 1, Nat.succ_le_succ hle, hpasses⟩

/-- From any seeds the loop ends, with the least closed set over them. -/
theorem localClosure_least (seeds : BTreeSet PackageId) :
    LeastLocal S graph seeds (localClosure S graph (graph.packages.size + 1) seeds) where
  seeded := localClosure_grows
  closed := localClosed_closure seeds
  least _ hseeds hclosed := localClosure_subset hclosed hseeds

end Closure

section Peers

theorem mem_of_maxBy {α : Type} {cmp : α → α → Ordering} {l : List α} {a : α}
    (h : maxBy cmp l = some a) : a ∈ l := by
  cases l with
  | nil => cases h
  | cons b rest =>
      simp only [maxBy, Option.some.injEq] at h
      rw [← h]
      have hfold : ∀ (l : List α) (best : α),
          l.foldl (fun best x => if cmp best x = .gt then best else x) best ∈ best :: l := by
        intro l
        induction l with
        | nil => exact fun best => List.mem_cons_self
        | cons x l ih =>
            intro best
            rw [List.foldl_cons]
            split
            · have hmem := ih best
              simp only [List.mem_cons] at hmem ⊢
              exact hmem.imp_right .inr
            · exact List.mem_cons_of_mem _ (ih x)
      exact hfold rest b

theorem selectDominantPeer_mem (hclosed : ClosedUpTo (fun _ => False) graph) {name : String}
    {range : RangeSet S} {peer : PackageId}
    (h : selectDominantPeer S name range graph = some peer) : peer ∈ graph.packages := by
  have hhighest : maxBy (compareVersionTexts S)
      ((idsByName graph name).filter (satisfies S range)) = some peer → peer ∈ graph.packages := by
    intro hmax
    have hmem := List.mem_of_mem_filter (mem_of_maxBy hmax)
    exact Std.ExtTreeMap.mem_keys.mp (List.mem_of_mem_filter hmem)
  unfold selectDominantPeer at h
  dsimp only at h
  split at h
  · rename_i rootDep hroot
    split at h
    · cases h
      exact (hclosed.roots _ _ hroot).resolve_right id
    · exact hhighest h
  · exact hhighest h

theorem resolvePackagePeers_mem (hclosed : ClosedUpTo (fun _ => False) graph)
    {package : ResolvedPackage} {peers : BTreeMap String PackageId}
    (h : resolvePackagePeers S graph package = some peers) {name : String} {peer : PackageId}
    (hpeer : peers[name]? = some peer) : peer ∈ graph.packages := by
  have hfold : ∀ (l : List (String × String)) (start : BTreeMap String PackageId),
      (∀ (name : String) peer, start[name]? = some peer → peer ∈ graph.packages) →
      ∀ result, l.foldlM (collectPeer S graph package.dependencies) start = some result →
        ∀ (name : String) peer, result[name]? = some peer → peer ∈ graph.packages := by
    intro l
    induction l with
    | nil =>
        intro start hstart result hresult
        cases hresult
        exact hstart
    | cons entry l ih =>
        intro start hstart result hresult
        rw [List.foldlM_cons, Option.bind_eq_bind, Option.bind_eq_some_iff] at hresult
        obtain ⟨next, hnext, hrest⟩ := hresult
        refine ih next ?_ result hrest
        unfold collectPeer at hnext
        split at hnext
        · cases hnext
          exact hstart
        · split at hnext
          · cases hnext
          · obtain ⟨chosen, hchosen, hinsert⟩ := Option.map_eq_some_iff.mp hnext
            subst hinsert
            intro name peer hget
            rw [BTreeMap.getElem?_insert_self_or] at hget
            split at hget
            · cases hget
              exact selectDominantPeer_mem hclosed hchosen
            · exact hstart name peer hget
  unfold resolvePackagePeers at h
  split at h
  · cases h
  · exact hfold _ ∅ (by simp) peers h name peer hpeer

/-- In a closed graph the resolved peers are packages of the graph. -/
theorem peersOf_mem (hclosed : ClosedUpTo (fun _ => False) graph) {id : PackageId}
    {e : String × PackageId} (h : e ∈ peersOf S graph id) : e.2 ∈ graph.packages := by
  unfold peersOf at h
  split at h
  · rename_i peers hpeers
    rw [getElem?_resolveUniquePeers, Option.bind_eq_some_iff] at hpeers
    obtain ⟨package, _, hresolve⟩ := hpeers
    exact resolvePackagePeers_mem hclosed hresolve
      (Std.ExtTreeMap.mem_toList_iff_getElem?_eq_some.mp h)
  · cases h

end Peers

section Wiring

variable (H : Digest.Hash) {input : PopulateInput}

theorem mem_sharedPackageIds {id : PackageId} :
    id ∈ sharedPackageIds S input ↔ id ∈ input.graph.packages ∧ id ∉ localIds S input := by
  simp [sharedPackageIds, List.mem_filter]

/-- A shared package is wired to shared packages only. -/
theorem wired_shared (hclosed : ClosedUpTo (fun _ => False) input.graph) {id : PackageId}
    {package : ResolvedPackage} (hid : id ∈ sharedPackageIds S input)
    (hpackage : input.graph.packages[id]? = some package) {e : String × PackageId}
    (he : e ∈ package.dependencies.toList ++ peersOf S input.graph id) :
    e.2 ∈ sharedPackageIds S input := by
  have hlocal := (mem_sharedPackageIds.mp hid).2
  have hkey : e.2 ∈ input.graph.packages := by
    cases List.mem_append.mp he with
    | inl hdep =>
        have hget := Std.ExtTreeMap.mem_toList_iff_getElem?_eq_some.mp hdep
        exact (hclosed.edges id package hpackage e.1 e.2 hget).resolve_right (fun h => h)
    | inr hpeer => exact peersOf_mem hclosed hpeer
  refine mem_sharedPackageIds.mpr ⟨hkey, fun hmem => hlocal ?_⟩
  have hentry : (id, package) ∈ input.graph.packages.toList :=
    Std.ExtTreeMap.mem_toList_iff_getElem?_eq_some.mpr hpackage
  apply localIds_closed input.locality input.graph _ hentry
  simp only [hasLocalNeighbour, Bool.or_eq_true, List.any_eq_true,
    Std.ExtTreeSet.contains_iff_mem]
  cases List.mem_append.mp he with
  | inl hdep => exact .inl ⟨e, hdep, hmem⟩
  | inr hpeer => exact .inr ⟨e, hpeer, hmem⟩

/-- The errors that come from files: a package that was never unpacked, and
directories or links that cannot be made. -/
inductive FileFailure (input : PopulateInput) : SnpmError → Prop
  | unpacked (id : PackageId) : FileFailure input (.storeMissing id.name id.version)
  | linked {loc : Loc} {error : SnpmError} {leftover : Option DirContent}
      (h : input.linkError loc = some (error, leftover)) : FileFailure input error
  | wired {loc : Loc} {error : SnpmError} (h : input.wireError loc = some error) :
      FileFailure input error
  | copied : FileFailure input (.io "" "copy source is not a directory")

theorem materializeOnePackage_error {disk : Disk} {id : PackageId} {loc : Loc} {error : SnpmError}
    (h : (materializeOnePackage input disk id loc).1 = .error error) :
    FileFailure input error := by
  unfold materializeOnePackage at h
  split at h
  · cases h
  · split at h
    · cases h
      exact .unpacked id
    · split at h
      · rename_i hlink
        cases h
        exact .linked hlink
      · cases h

theorem relink_error {disk : Disk} {target loc : Loc} {error : SnpmError}
    (h : (relink input disk target loc).1 = .error error) : FileFailure input error := by
  unfold relink linkOrCopy copyDir at h
  split at h
  · cases h
  · split at h
    · cases h
    · split at h
      · cases h
      · cases h
        exact .copied

/-- Wiring to packages that all have a location fails only on files. -/
theorem wireDepSymlinksInto_error {disk : Disk} {id : PackageId} {loc : Loc}
    {wired : BTreeMap String PackageId} {locations : PackageId → Option Loc}
    (hlocated : ∀ e ∈ wired.toList, (locations e.2).isSome = true) {error : SnpmError}
    (h : (wireDepSymlinksInto input disk id loc wired locations).1 = .error error) :
    FileFailure input error := by
  unfold wireDepSymlinksInto at h
  split at h
  · cases h
  · split at h
    · rename_i hfind
      have hnone := List.find?_some hfind
      have hsome := hlocated _ (List.mem_of_find?_eq_some hfind)
      simp [Option.isNone_iff_eq_none.mp hnone] at hsome
    · split at h
      · cases h
      · dsimp only at h
        split at h
        · rename_i hwire
          cases h
          exact .wired hwire
        · split at h
          · cases h
          · exact relink_error h

theorem populateSharedPackage_error (hclosed : ClosedUpTo (fun _ => False) input.graph)
    {disk : Disk} {id : PackageId} (hid : id ∈ sharedPackageIds S input) {error : SnpmError}
    (h : (populateSharedPackage H S input disk id).1 = .error error) :
    FileFailure input error := by
  obtain ⟨package, hpackage⟩ := BTreeMap.mem_iff_exists.mp (mem_sharedPackageIds.mp hid).1
  simp only [populateSharedPackage, hpackage] at h
  split at h
  · rename_i hmaterialized
    cases h
    exact materializeOnePackage_error hmaterialized
  · refine wireDepSymlinksInto_error ?_ h
    intro e he
    have hget := Std.ExtTreeMap.mem_toList_iff_getElem?_eq_some.mp he
    have hshared := wired_shared hclosed hid hpackage (BTreeMap.mem_of_getElem?_collect hget)
    simp [sharedPaths, hshared]

theorem populateShared_error (hclosed : ClosedUpTo (fun _ => False) input.graph) {disk : Disk}
    {error : SnpmError}
    (h : (populateSharedVirtualStoreForPackages H S input disk).1 = .error error) :
    FileFailure input error := by
  obtain ⟨id, hid, before, hbefore⟩ := runAll_error h
  exact populateSharedPackage_error H hclosed hid hbefore

/-- The loop over the packages of a graph ends, whatever it starts from, with the
least set over its start that is closed under being wired to the set. In a closed
graph every dependency and resolved peer of a shared package is therefore shared,
and bringing the shared packages up to date fails only on files. -/
theorem local_ids_least_and_shared_wired (H : Digest.Hash) (S : SemverCrate)
    (graph : ResolutionGraph) (hclosed : ClosedUpTo (fun _ => False) graph) :
    (∀ seeds : BTreeSet PackageId, ∃ passes locals,
      (localPass S graph)^[passes] seeds = locals ∧ localPass S graph locals = locals ∧
        LeastLocal S graph seeds locals) ∧
    ∀ input : PopulateInput, input.graph = graph →
      LeastLocal S graph (directlyLocal S input.locality graph) (localIds S input) ∧
      (∀ id ∈ sharedPackageIds S input, ∀ package, graph.packages[id]? = some package →
        ∀ e ∈ package.dependencies.toList ++ peersOf S graph id, e.2 ∈ sharedPackageIds S input) ∧
      ∀ disk error, (populateSharedVirtualStoreForPackages H S input disk).1 = .error error →
        FileFailure input error := by
  refine ⟨fun seeds => ?_, ?_⟩
  · obtain ⟨passes, _, hpasses⟩ := localClosure_iterate (S := S) (graph.packages.size + 1) seeds
    have hleast : LeastLocal S graph seeds _ := localClosure_least seeds
    exact ⟨passes, _, hpasses, localPass_of_closed hleast.closed, hleast⟩
  · intro input hgraph
    subst hgraph
    refine ⟨localClosure_least _, fun id hid package hpackage e he => ?_, fun disk error h => ?_⟩
    · exact wired_shared hclosed hid hpackage he
    · exact populateShared_error H hclosed h

/-- One package may run scripts, one depends on it, one has that one as a peer
and two have no part in it. -/
def wiredGraph : ResolutionGraph where
  root := ⟨BTreeMap.collect [("app", ⟨"1.0.0", ⟨"app", "1.0.0"⟩⟩)]⟩
  packages := BTreeMap.collect [
    (⟨"app", "1.0.0"⟩, samplePackage ⟨"app", "1.0.0"⟩ "app.tgz"
      (BTreeMap.collect [("native", ⟨"native", "1.0.0"⟩), ("util", ⟨"util", "1.0.0"⟩)])),
    (⟨"native", "1.0.0"⟩, samplePackage ⟨"native", "1.0.0"⟩ "native.tgz" ∅),
    (⟨"plugin", "1.0.0"⟩,
      { samplePackage ⟨"plugin", "1.0.0"⟩ "plugin.tgz" ∅ with
        peerDependencies := BTreeMap.collect [("app", "1.0.0")] }),
    (⟨"tool", "1.0.0"⟩, samplePackage ⟨"tool", "1.0.0"⟩ "tool.tgz"
      (BTreeMap.collect [("util", ⟨"util", "1.0.0"⟩)])),
    (⟨"util", "1.0.0"⟩, samplePackage ⟨"util", "1.0.0"⟩ "util.tgz" ∅)]

def wiredInput : PopulateInput where
  graph := wiredGraph
  locality := ⟨⟨.none, .ofList ["native"] compare, ∅, "/data", none, false, "^"⟩, none, [],
    fun _ => false⟩
  storePaths _ := some ⟨true, true, none⟩
  linkError _ := none
  wireError _ := none
  stateMatches _ := false
  symlinks := true

theorem wiredGraph_closed : ClosedUpTo (fun _ => False) wiredGraph where
  roots := by
    have hall : ∀ p ∈ wiredGraph.root.dependencies.toList, p.2.resolved ∈ wiredGraph.packages := by
      decide +kernel
    intro name dep h
    exact .inl (hall (name, dep) (Std.ExtTreeMap.mem_toList_iff_getElem?_eq_some.mpr h))
  edges := by
    have hall : ∀ p ∈ wiredGraph.packages.toList, ∀ e ∈ p.2.dependencies.toList,
        e.2 ∈ wiredGraph.packages := by decide +kernel
    intro id package hpackage name target h
    exact .inl (hall (id, package) (Std.ExtTreeMap.mem_toList_iff_getElem?_eq_some.mpr hpackage)
      (name, target) (Std.ExtTreeMap.mem_toList_iff_getElem?_eq_some.mpr h))

theorem local_ids_least_and_shared_wired_native :
    ClosedUpTo (fun _ => False) wiredGraph ∧
    (localIds releaseCrate wiredInput).toList =
      [⟨"app", "1.0.0"⟩, ⟨"native", "1.0.0"⟩, ⟨"plugin", "1.0.0"⟩] ∧
    sharedPackageIds releaseCrate wiredInput = [⟨"tool", "1.0.0"⟩, ⟨"util", "1.0.0"⟩] ∧
    LeastLocal releaseCrate wiredGraph (directlyLocal releaseCrate wiredInput.locality wiredGraph)
      (localIds releaseCrate wiredInput) :=
  ⟨wiredGraph_closed, by decide +kernel, by decide +kernel,
    ((local_ids_least_and_shared_wired Digest.unaryHash releaseCrate wiredGraph wiredGraph_closed).2
      wiredInput rfl).1⟩

end Wiring

end Snpm.Linker
