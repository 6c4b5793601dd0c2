import Mathlib
import Snpm.Library.LastGreatest
import Snpm.Linker.Peers
import Snpm.Resolve.Select

/-!
What the peers of a package are resolved to: which packages get an entry, which
peers the entry names, and which version of a peer is chosen.
-/
namespace Snpm.Linker

variable {S : SemverCrate}

/-- The graph has this package, or the root of the graph asks for it by its name. -/
def InGraph (graph : ResolutionGraph) (id : PackageId) : Prop :=
  id ∈ graph.packages ∨ ∃ rootDep, graph.root.dependencies[id.name]? = some rootDep ∧
    rootDep.resolved = id

/-- Every root dependency is a package of the graph. -/
def RootsInstalled (graph : ResolutionGraph) : Prop :=
  ∀ (name : String) rootDep, graph.root.dependencies[name]? = some rootDep →
    rootDep.resolved ∈ graph.packages

theorem inGraph_iff_mem {graph : ResolutionGraph} {id : PackageId} (hroots : RootsInstalled graph) :
    InGraph graph id ↔ id ∈ graph.packages := by
  constructor
  · intro h
    cases h with
    | inl hmem => exact hmem
    | inr hroot =>
        obtain ⟨rootDep, hget, rfl⟩ := hroot
        exact hroots _ _ hget
  · exact Or.inl

variable (S)

/-- A version that a range asks for. -/
def InRange (name range : String) (id : PackageId) (version : S.Version) : Prop :=
  ∃ set, parseRangeSet S name range = .ok set ∧ parseVersion S id.version = .ok version ∧
    set.contains version = true

/-- A satisfying version of the peer in the graph. -/
def Provides (graph : ResolutionGraph) (name range : String) (id : PackageId) : Prop :=
  InGraph graph id ∧ id.name = name ∧ ∃ version, InRange S name range id version

/-- The version that the root asks for, when it satisfies the range. -/
def RootProvides (graph : ResolutionGraph) (name range : String) (id : PackageId) : Prop :=
  (∃ rootDep, graph.root.dependencies[name]? = some rootDep ∧ rootDep.resolved = id) ∧
    id.name = name ∧ ∃ version, InRange S name range id version

/-- No satisfying version is greater. -/
def GreatestProvider (graph : ResolutionGraph) (name range : String) (id : PackageId) : Prop :=
  Provides S graph name range id ∧ ∀ version, parseVersion S id.version = .ok version →
    ∀ other otherVersion, Provides S graph name range other →
      parseVersion S other.version = .ok otherVersion → S.cmp otherVersion version ≠ .gt

/-- The root's version when that satisfies, otherwise the greatest. -/
def Chosen (graph : ResolutionGraph) (name range : String) (id : PackageId) : Prop :=
  RootProvides S graph name range id ∨
    ((∀ other, ¬ RootProvides S graph name range other) ∧ GreatestProvider S graph name range id)

/-- The peers that a package does not bring along as dependencies. -/
def NeedsPeer (package : ResolvedPackage) (name range : String) : Prop :=
  package.peerDependencies[name]? = some range ∧ name ∉ package.dependencies

/-- The provider of one declared peer. -/
def provider (graph : ResolutionGraph) (name range : String) : Option PackageId :=
  match parseRangeSet S name range with
  | .error _ => none
  | .ok set => selectDominantPeer S name set graph

variable {S}

theorem collectPeer_eq (graph : ResolutionGraph) (dependencies : BTreeMap String PackageId)
    (peerMap : BTreeMap String PackageId) (peer : String × String) :
    collectPeer S graph dependencies peerMap peer =
      if peer.1 ∈ dependencies then some peerMap
      else (provider S graph peer.1 peer.2).map fun id => peerMap.insert peer.1 id := by
  unfold collectPeer provider
  generalize parseRangeSet S peer.1 peer.2 = parsed
  simp only [Std.ExtTreeMap.contains_iff_mem]
  cases parsed with
  | error e => simp only [Option.map_none]
  | ok set => rfl

theorem satisfies_iff {name range : String} {set : RangeSet S} {id : PackageId}
    (hset : parseRangeSet S name range = .ok set) :
    satisfies S set id = true ↔ ∃ version, InRange S name range id version := by
  rw [satisfies]
  cases hversion : parseVersion S id.version with
  | error e => simp [InRange, hversion]
  | ok version => simp [InRange, hversion, hset]

/-- On versions that parse, candidates are ordered as their versions. -/
theorem ordersOn_versions [Std.TransCmp S.cmp] :
    LastGreatest.OrdersOn (compareVersionTexts S)
      fun id => ∃ version, parseVersion S id.version = .ok version := by
  constructor
  · intro a b ha hb
    obtain ⟨v, hv⟩ := ha
    obtain ⟨w, hw⟩ := hb
    simp only [compareVersionTexts, hv, hw]
    exact Std.OrientedCmp.eq_swap
  · intro a b c ha hb hc hab hbc
    obtain ⟨u, hu⟩ := ha
    obtain ⟨v, hv⟩ := hb
    obtain ⟨w, hw⟩ := hc
    simp only [compareVersionTexts, hu, hv, hw] at hab hbc ⊢
    exact Ordering.isLE_iff_ne_gt.mp
      (Std.TransCmp.isLE_trans (Ordering.isLE_iff_ne_gt.mpr hab) (Ordering.isLE_iff_ne_gt.mpr hbc))

theorem maxBy_eq_scan {α : Type} (cmp : α → α → Ordering) (l : List α) :
    maxBy cmp l = LastGreatest.scan cmp l := by
  cases l with
  | nil => rfl
  | cons a rest => rfl

theorem selectDominantPeer_of_root {graph : ResolutionGraph} {name range : String}
    {set : RangeSet S} {id : PackageId} (hset : parseRangeSet S name range = .ok set)
    (h : RootProvides S graph name range id) : selectDominantPeer S name set graph = some id := by
  obtain ⟨⟨rootDep, hroot, rfl⟩, hname, hversion⟩ := h
  simp only [selectDominantPeer, hroot]
  exact if_pos ⟨hname, (satisfies_iff hset).mpr hversion⟩

theorem selectDominantPeer_of_no_root {graph : ResolutionGraph} {name range : String}
    {set : RangeSet S} (hset : parseRangeSet S name range = .ok set)
    (h : ∀ id, ¬ RootProvides S graph name range id) : selectDominantPeer S name set graph =
      LastGreatest.scan (compareVersionTexts S)
        ((idsByName graph name).filter (satisfies S set)) := by
  rw [← maxBy_eq_scan]
  cases hroot : graph.root.dependencies[name]? with
  | none => simp only [selectDominantPeer, hroot]
  | some rootDep =>
      simp only [selectDominantPeer, hroot]
      apply if_neg
      intro hsatisfied
      exact h rootDep.resolved
        ⟨⟨rootDep, hroot, rfl⟩, hsatisfied.1, (satisfies_iff hset).mp hsatisfied.2⟩

theorem mem_candidates_iff {graph : ResolutionGraph} {name range : String} {set : RangeSet S}
    {id : PackageId} (hset : parseRangeSet S name range = .ok set) :
    id ∈ (idsByName graph name).filter (satisfies S set) ↔
      id ∈ graph.packages ∧ id.name = name ∧ ∃ version, InRange S name range id version := by
  rw [List.mem_filter, satisfies_iff hset, idsByName, List.mem_filter, decide_eq_true_eq,
    Std.ExtTreeMap.mem_keys, and_assoc]

theorem parses_of_mem_candidates {graph : ResolutionGraph} {name range : String} {set : RangeSet S}
    (hset : parseRangeSet S name range = .ok set) :
    ∀ id ∈ (idsByName graph name).filter (satisfies S set),
      ∃ version, parseVersion S id.version = .ok version := by
  intro id hid
  obtain ⟨-, -, version, _, -, hversion, -⟩ := (mem_candidates_iff hset).mp hid
  exact ⟨version, hversion⟩

/-- Without a choice of the root, the providers are the candidates. -/
theorem provides_iff_mem {graph : ResolutionGraph} {name range : String} {set : RangeSet S}
    {id : PackageId} (hset : parseRangeSet S name range = .ok set)
    (h : ∀ id, ¬ RootProvides S graph name range id) :
    Provides S graph name range id ↔ id ∈ (idsByName graph name).filter (satisfies S set) := by
  rw [mem_candidates_iff hset]
  constructor
  · intro hprovides
    obtain ⟨hin, hname, hversion⟩ := hprovides
    cases hin with
    | inl hmem => exact ⟨hmem, hname, hversion⟩
    | inr hroot =>
        rw [hname] at hroot
        exact absurd ⟨hroot, hname, hversion⟩ (h id)
  · intro hcandidate
    exact ⟨.inl hcandidate.1, hcandidate.2⟩

theorem RootProvides.provides {graph : ResolutionGraph} {name range : String} {id : PackageId}
    (h : RootProvides S graph name range id) : Provides S graph name range id := by
  obtain ⟨hroot, hname, hversion⟩ := h
  refine ⟨.inr ?_, hname, hversion⟩
  rw [hname]
  exact hroot

theorem provider_of_error {graph : ResolutionGraph} {name range : String} {e : SnpmError}
    (hset : parseRangeSet S name range = .error e) : provider S graph name range = none := by
  unfold provider
  rw [hset]

theorem provider_of_ok {graph : ResolutionGraph} {name range : String} {set : RangeSet S}
    (hset : parseRangeSet S name range = .ok set) :
    provider S graph name range = selectDominantPeer S name set graph := by
  unfold provider
  rw [hset]

theorem not_inRange_of_error {name range : String} {id : PackageId} {version : S.Version}
    {e : SnpmError} (hset : parseRangeSet S name range = .error e) :
    ¬ InRange S name range id version := by
  intro h
  obtain ⟨set, hok, -⟩ := h
  rw [hset] at hok
  cases hok

/-- A peer has a provider exactly when the graph has a satisfying version of it. -/
theorem provider_isSome_iff [Std.TransCmp S.cmp] (graph : ResolutionGraph) (name range : String) :
    (∃ id, provider S graph name range = some id) ↔ ∃ id, Provides S graph name range id := by
  cases hset : parseRangeSet S name range with
  | error e =>
      rw [provider_of_error hset]
      constructor
      · intro h
        obtain ⟨id, hid⟩ := h
        cases hid
      · intro h
        obtain ⟨id, -, -, version, hversion⟩ := h
        exact absurd hversion (not_inRange_of_error hset)
  | ok set =>
      rw [provider_of_ok hset]
      by_cases hroot : ∃ id, RootProvides S graph name range id
      · obtain ⟨id, hid⟩ := hroot
        exact ⟨fun _ => ⟨id, hid.provides⟩, fun _ => ⟨id, selectDominantPeer_of_root hset hid⟩⟩
      · rw [not_exists] at hroot
        simp only [selectDominantPeer_of_no_root hset hroot, provides_iff_mem hset hroot]
        cases LastGreatest.scan_spec (ordersOn_versions (S := S)) (parses_of_mem_candidates hset) with
        | inl hnone =>
            rw [hnone.1]
            simp [LastGreatest.scan]
        | inr hsome =>
            obtain ⟨id, hid, hgreatest⟩ := hsome
            exact ⟨fun _ => ⟨id, hgreatest.mem⟩, fun _ => ⟨id, hid⟩⟩

/-- The provider is the root's version or the greatest. -/
theorem chosen_of_provider [Std.TransCmp S.cmp] {graph : ResolutionGraph} {name range : String}
    {id : PackageId} (h : provider S graph name range = some id) :
    Chosen S graph name range id := by
  cases hset : parseRangeSet S name range with
  | error e =>
      rw [provider_of_error hset] at h
      cases h
  | ok set =>
      rw [provider_of_ok hset] at h
      by_cases hroot : ∃ other, RootProvides S graph name range other
      · obtain ⟨other, hother⟩ := hroot
        rw [selectDominantPeer_of_root hset hother, Option.some.injEq] at h
        rw [← h]
        exact .inl hother
      · rw [not_exists] at hroot
        rw [selectDominantPeer_of_no_root hset hroot] at h
        have hparses := @parses_of_mem_candidates S graph name range set hset
        have hgreatest := (LastGreatest.scan_eq_some_iff ordersOn_versions hparses).mp h
        refine .inr ⟨hroot, (provides_iff_mem hset hroot).mpr hgreatest.mem, ?_⟩
        intro version hversion other otherVersion hother hotherVersion
        have hle := hgreatest.le ordersOn_versions hparses ((provides_iff_mem hset hroot).mp hother)
        simpa only [compareVersionTexts, hversion, hotherVersion] using hle

/-- The loop over the declared peers succeeds when all that are needed have a provider. -/
theorem collectPeers_isSome_iff (graph : ResolutionGraph) (dependencies : BTreeMap String PackageId)
    (l : List (String × String)) (start : BTreeMap String PackageId) :
    (∃ peers, l.foldlM (collectPeer S graph dependencies) start = some peers) ↔
      ∀ peer ∈ l, peer.1 ∉ dependencies → ∃ id, provider S graph peer.1 peer.2 = some id := by
  induction l generalizing start with
  | nil => simp
  | cons peer l ih =>
      rw [List.foldlM_cons, collectPeer_eq]
      by_cases hdep : peer.1 ∈ dependencies
      · rw [if_pos hdep, Option.bind_eq_bind, Option.bind_some, ih]
        simp [hdep]
      · rw [if_neg hdep]
        cases hprovider : provider S graph peer.1 peer.2 with
        | none => simp [hdep, hprovider]
        | some id =>
            rw [Option.map_some, Option.bind_eq_bind, Option.bind_some, ih]
            simp [hdep, hprovider]

theorem getElem?_collectPeers {graph : ResolutionGraph} {dependencies : BTreeMap String PackageId}
    {l : List (String × String)} {start peers : BTreeMap String PackageId}
    (hnodup : (l.map (·.1)).Nodup)
    (h : l.foldlM (collectPeer S graph dependencies) start = some peers) (name : String)
    (id : PackageId) :
    peers[name]? = some id ↔
      (∃ range, (name, range) ∈ l ∧ name ∉ dependencies ∧ provider S graph name range = some id) ∨
        ((∀ range, (name, range) ∈ l → name ∈ dependencies) ∧ start[name]? = some id) := by
  induction l generalizing start with
  | nil =>
      cases h
      simp
  | cons peer l ih =>
      rw [List.map_cons, List.nodup_cons] at hnodup
      rw [List.foldlM_cons, collectPeer_eq, Option.bind_eq_bind] at h
      obtain ⟨peerName, peerRange⟩ := peer
      by_cases hdep : peerName ∈ dependencies
      · rw [if_pos hdep, Option.bind_some] at h
        rw [ih hnodup.2 h]
        by_cases hname : name = peerName
        · subst hname
          simp [hdep]
        · simp [hname]
      · rw [if_neg hdep] at h
        cases hprovider : provider S graph peerName peerRange with
        | none =>
            rw [hprovider] at h
            cases h
        | some chosen =>
            rw [hprovider, Option.map_some, Option.bind_some] at h
            rw [ih hnodup.2 h, BTreeMap.getElem?_insert_self_or]
            by_cases hname : name = peerName
            · subst hname
              have hout : ∀ range, (name, range) ∉ l := by
                intro range hmem
                exact hnodup.1 (List.mem_map.mpr ⟨(name, range), hmem, rfl⟩)
              simp [hdep, hprovider, hout]
            · have hother : peerName ≠ name := fun heq => hname heq.symm
              simp [hname, hother]

theorem needsPeer_iff_mem {package : ResolvedPackage} {name range : String} :
    NeedsPeer package name range ↔
      (name, range) ∈ package.peerDependencies.toList ∧ name ∉ package.dependencies := by
  rw [NeedsPeer, Std.ExtTreeMap.mem_toList_iff_getElem?_eq_some]

theorem resolvePackagePeers_isSome_iff {graph : ResolutionGraph} {package : ResolvedPackage}
    (h : package.peerDependencies.isEmpty = false) :
    (∃ peers, resolvePackagePeers S graph package = some peers) ↔
      ∀ name range, NeedsPeer package name range →
        ∃ id, provider S graph name range = some id := by
  simp only [resolvePackagePeers, h, Bool.false_eq_true, if_false, collectPeers_isSome_iff,
    needsPeer_iff_mem]
  constructor
  · intro hall name range hneeded
    exact hall (name, range) hneeded.1 hneeded.2
  · intro hall peer hmem hdep
    exact hall peer.1 peer.2 ⟨hmem, hdep⟩

theorem getElem?_resolvePackagePeers {graph : ResolutionGraph} {package : ResolvedPackage}
    {peers : BTreeMap String PackageId} (h : resolvePackagePeers S graph package = some peers)
    (name : String) (id : PackageId) : peers[name]? = some id ↔
      ∃ range, NeedsPeer package name range ∧ provider S graph name range = some id := by
  unfold resolvePackagePeers at h
  split at h
  · cases h
  · have hnodup : (package.peerDependencies.toList.map (·.1)).Nodup := by
      rw [Std.ExtTreeMap.map_fst_toList_eq_keys]
      exact Std.ExtTreeMap.nodup_keys
    rw [getElem?_collectPeers hnodup h]
    simp only [needsPeer_iff_mem, and_assoc]
    simp

variable (S) in
/-- What peer resolution records for a package with peers. -/
structure PeersExact (graph : ResolutionGraph) (package : ResolvedPackage)
    (entry : Option (BTreeMap String PackageId)) : Prop where
  recorded : entry.isSome ↔ ∀ name range, NeedsPeer package name range →
    ∃ id, Provides S graph name range id
  names : ∀ peers, entry = some peers → ∀ name : String,
    name ∈ peers ↔ ∃ range, NeedsPeer package name range
  chosen : ∀ peers, entry = some peers → ∀ (name : String) id range, peers[name]? = some id →
    package.peerDependencies[name]? = some range → Chosen S graph name range id
  disjoint : ∀ peers, entry = some peers → ∀ name ∈ peers, name ∉ package.dependencies
  installed : RootsInstalled graph → ∀ id, InGraph graph id ↔ id ∈ graph.packages

theorem resolveUniquePeers_exact [Std.TransCmp S.cmp] (graph : ResolutionGraph) (id : PackageId)
    (package : ResolvedPackage) (hpackage : graph.packages[id]? = some package)
    (hpeers : package.peerDependencies.isEmpty = false) :
    PeersExact S graph package (resolveUniquePeers S graph)[id]? := by
  have hentry : (resolveUniquePeers S graph)[id]? = resolvePackagePeers S graph package := by
    rw [getElem?_resolveUniquePeers, hpackage, Option.bind_some]
  rw [hentry]
  have hnames : ∀ peers, resolvePackagePeers S graph package = some peers → ∀ name : String,
      name ∈ peers ↔ ∃ range, NeedsPeer package name range := by
    intro peers hsome name
    have hall := (resolvePackagePeers_isSome_iff hpeers).mp ⟨peers, hsome⟩
    rw [BTreeMap.mem_iff_exists]
    simp only [getElem?_resolvePackagePeers hsome]
    constructor
    · intro h
      obtain ⟨_, range, hneeds, -⟩ := h
      exact ⟨range, hneeds⟩
    · intro h
      obtain ⟨range, hneeds⟩ := h
      obtain ⟨peer, hpeer⟩ := hall name range hneeds
      exact ⟨peer, range, hneeds, hpeer⟩
  constructor
  · rw [Option.isSome_iff_exists, resolvePackagePeers_isSome_iff hpeers]
    simp only [provider_isSome_iff]
  · exact hnames
  · intro peers hsome name peer range hget hrange
    obtain ⟨range', hneeds, hprovider⟩ := (getElem?_resolvePackagePeers hsome name peer).mp hget
    rw [hneeds.1, Option.some.injEq] at hrange
    rw [← hrange]
    exact chosen_of_provider hprovider
  · intro peers hsome name hmem
    obtain ⟨range, hneeds⟩ := (hnames peers hsome name).mp hmem
    exact hneeds.2
  · exact fun hroots _ => inGraph_iff_mem hroots

def react17 : PackageId := ⟨"react", "17.0.0"⟩

def react18 : PackageId := ⟨"react", "18.0.0"⟩

def reactPlugin : ResolvedPackage :=
  { samplePackage ⟨"plugin", "1.0.0"⟩ "plugin.tgz" ∅ with
    peerDependencies := BTreeMap.collect [("react", ">=17.0.0")] }

/-- Two versions of a peer, the lower one asked for by the root. -/
def twoReacts : ResolutionGraph where
  root := ⟨BTreeMap.collect [("react", ⟨"^17.0.0", react17⟩)]⟩
  packages := BTreeMap.collect
    [(react17, samplePackage react17 "react-17.tgz" ∅),
      (react18, samplePackage react18 "react-18.tgz" ∅), (reactPlugin.id, reactPlugin)]

example : (resolveUniquePeers releaseCrate twoReacts)[reactPlugin.id]? =
    some (BTreeMap.collect [("react", react17)]) := by decide +kernel

theorem reactPlugin_peers_exact : PeersExact releaseCrate twoReacts reactPlugin
    (resolveUniquePeers releaseCrate twoReacts)[reactPlugin.id]? :=
  resolveUniquePeers_exact twoReacts reactPlugin.id reactPlugin (by decide +kernel)
    (by decide +kernel)

end Snpm.Linker
