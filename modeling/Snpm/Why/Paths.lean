import Mathlib
import Snpm.Library.Neighbours
import Snpm.Library.TrailWalk
import Snpm.Why.Index

/-!
The dependency paths of `why`. From the target the walk follows reverse edges
over packages that are not on the path already, reports a path for every root
that asks for a package on the way, and cuts paths at the depth limit.
-/
namespace Snpm.Why

inductive WhyHop where
  | package (name version via : String)
  | root (name requested : String)
deriving DecidableEq, Ord

structure WhyPath where
  hops : List WhyHop
  truncated : Bool
deriving DecidableEq, Ord

structure WhyPackageMatch where
  name : String
  version : String
  paths : List WhyPath

def PackageParent.hop (p : PackageParent) : WhyHop := .package p.parent.name p.parent.version p.via

def RootParent.hop (root : RootParent) : WhyHop := .root root.name root.requested

def emitTruncatedOrRootPaths (index : ReverseIndex) (parent : PackageId)
    (parentHops : List WhyHop) : List WhyPath :=
  match index.rootParents[parent]? with
  | none => [⟨parentHops, true⟩]
  | some roots => roots.map fun root => ⟨parentHops ++ [root.hop], false⟩

/-- The loop over the parents, with what is reported for each. -/
def walkParents (walk : PackageParent → Option (List WhyPath)) :
    List PackageParent → Option (List WhyPath)
  | [] => some []
  | parent :: rest =>
      (walk parent).bind fun first => (walkParents walk rest).map fun others => first ++ others

/-- The fuel bounds the depth of the recursion; `none` only when it runs out. -/
def walkPaths (index : ReverseIndex) (maxDepth : Nat) :
    Nat → PackageId → List PackageId → List WhyHop → Nat → Option (List WhyPath)
  | 0, _, _, _, _ => none
  | fuel + 1, current, visited, hops, depth =>
      let rootParents := index.rootParents.getD current []
      let packageParents := (index.packageParents.getD current []).filter (·.parent ∉ visited)
      let rootPaths := rootParents.map fun root => WhyPath.mk (hops ++ [root.hop]) false
      let walk := fun parent : PackageParent =>
        if maxDepth ≤ depth + 1 then
          some (emitTruncatedOrRootPaths index parent.parent (hops ++ [parent.hop]))
        else
          walkPaths index maxDepth fuel parent.parent (parent.parent :: visited)
            (hops ++ [parent.hop]) (depth + 1)
      (walkParents walk packageParents).map fun below =>
        rootPaths ++ below ++
          if rootParents.isEmpty && packageParents.isEmpty then [⟨hops, false⟩] else []

def dedupePaths (paths : List WhyPath) : List WhyPath := Neighbours.sortDedup compare paths

/-- The packages that the index names as parents. -/
def ReverseIndex.parents (index : ReverseIndex) : List PackageId :=
  index.packageParents.values.flatten.map (·.parent)

def buildMatch (target : PackageId) (index : ReverseIndex) (maxDepth : Nat) :
    Option WhyPackageMatch :=
  (walkPaths index maxDepth (index.parents.length + 1) target [target] [] 0).map fun paths =>
    ⟨target.name, target.version, dedupePaths paths⟩

section Chains

variable (graph : ResolutionGraph)

/-- Reverse edges that lead from one package to the next. -/
def IsChain : PackageId → List PackageParent → Prop
  | _, [] => True
  | id, p :: rest => DependsOn graph p.parent p.via id ∧ IsChain p.parent rest

/-- No package of the chain was met before. -/
def Fresh : List PackageId → List PackageParent → Prop
  | _, [] => True
  | visited, p :: rest => p.parent ∉ visited ∧ Fresh (p.parent :: visited) rest

def chainEnd : PackageId → List PackageParent → PackageId
  | id, [] => id
  | _, p :: rest => chainEnd p.parent rest

def seenAfter : List PackageId → List PackageParent → List PackageId
  | visited, [] => visited
  | visited, p :: rest => seenAfter (p.parent :: visited) rest

def NotAsked (id : PackageId) : Prop := ∀ name requested, ¬ RootAsks graph name requested id

/-- No root asks for the package, and only packages that were seen depend on it. -/
def DeadEnd (seen : List PackageId) (id : PackageId) : Prop :=
  NotAsked graph id ∧ ∀ parent via, DependsOn graph parent via id → parent ∈ seen

/-- How a path can end that follows a chain. -/
inductive Ends (limit : Nat) (seen : List PackageId) (id : PackageId) (chain : List PackageParent) :
    List WhyHop → Bool → Prop
  | root {name requested : String} :
      chain.length ≤ limit → RootAsks graph name requested id →
        Ends limit seen id chain [.root name requested] false
  | cut : chain.length = limit → NotAsked graph id → Ends limit seen id chain [] true
  | dead : chain.length < limit → DeadEnd graph seen id → Ends limit seen id chain [] false

/-- The paths that a walk with so many hops left reports. -/
def Reports (limit : Nat) (visited : List PackageId) (current : PackageId) (hops : List WhyHop)
    (path : WhyPath) : Prop :=
  ∃ chain tail, IsChain graph current chain ∧ Fresh visited chain ∧
    Ends graph limit (seenAfter visited chain) (chainEnd current chain) chain tail path.truncated ∧
    path.hops = hops ++ chain.map PackageParent.hop ++ tail

end Chains

variable {graph : ResolutionGraph} {index : ReverseIndex} {limit : Nat} {visited : List PackageId}
  {current : PackageId} {hops : List WhyHop} {path : WhyPath}

theorem reports_zero_iff : Reports graph 0 visited current hops path ↔
    (∃ name requested, RootAsks graph name requested current ∧
      path = ⟨hops ++ [.root name requested], false⟩) ∨
    (NotAsked graph current ∧ path = ⟨hops, true⟩) := by
  obtain ⟨pathHops, truncated⟩ := path
  constructor
  · intro h
    obtain ⟨chain, tail, -, -, hends, hpath⟩ := h
    dsimp only at hends hpath
    cases hends with
    | root hlength hasks =>
        rw [Nat.le_zero, List.length_eq_zero_iff] at hlength
        subst hlength
        exact .inl ⟨_, _, hasks, by rw [hpath]; simp⟩
    | cut hlength hnot =>
        rw [List.length_eq_zero_iff] at hlength
        subst hlength
        exact .inr ⟨hnot, by rw [hpath]; simp⟩
    | dead hlength _ => exact absurd hlength (Nat.not_lt_zero _)
  · intro h
    cases h with
    | inl hroot =>
        obtain ⟨name, requested, hasks, heq⟩ := hroot
        rw [WhyPath.mk.injEq] at heq
        rw [heq.1, heq.2]
        exact ⟨[], _, trivial, trivial, .root (Nat.le_refl _) hasks, by simp⟩
    | inr hcut =>
        obtain ⟨hnot, heq⟩ := hcut
        rw [WhyPath.mk.injEq] at heq
        rw [heq.1, heq.2]
        exact ⟨[], _, trivial, trivial, .cut rfl hnot, by simp⟩

theorem reports_succ_iff : Reports graph (limit + 1) visited current hops path ↔
    (∃ name requested, RootAsks graph name requested current ∧
      path = ⟨hops ++ [.root name requested], false⟩) ∨
    (DeadEnd graph visited current ∧ path = ⟨hops, false⟩) ∨
    ∃ p : PackageParent, DependsOn graph p.parent p.via current ∧ p.parent ∉ visited ∧
      Reports graph limit (p.parent :: visited) p.parent (hops ++ [p.hop]) path := by
  obtain ⟨pathHops, truncated⟩ := path
  constructor
  · intro h
    obtain ⟨chain, tail, hchain, hfresh, hends, hpath⟩ := h
    dsimp only at hends hpath
    cases chain with
    | nil =>
        cases hends with
        | root hlength hasks => exact .inl ⟨_, _, hasks, by rw [hpath]; simp⟩
        | cut hlength hnot => cases hlength
        | dead hlength hdead => exact .inr (.inl ⟨hdead, by rw [hpath]; simp⟩)
    | cons p chain =>
        refine .inr (.inr ⟨p, hchain.1, hfresh.1, chain, tail, hchain.2, hfresh.2, ?_, ?_⟩)
        · cases hends with
          | root hlength hasks => exact .root (Nat.le_of_succ_le_succ hlength) hasks
          | cut hlength hnot => exact .cut (Nat.succ.inj hlength) hnot
          | dead hlength hdead => exact .dead (Nat.lt_of_succ_lt_succ hlength) hdead
        · rw [hpath]
          simp
  · intro h
    obtain hroot | hdead | hbelow := h
    · obtain ⟨name, requested, hasks, heq⟩ := hroot
      rw [WhyPath.mk.injEq] at heq
      rw [heq.1, heq.2]
      exact ⟨[], _, trivial, trivial, .root (Nat.zero_le _) hasks, by simp⟩
    · obtain ⟨hdead, heq⟩ := hdead
      rw [WhyPath.mk.injEq] at heq
      rw [heq.1, heq.2]
      exact ⟨[], _, trivial, trivial, .dead (Nat.succ_pos _) hdead, by simp⟩
    · obtain ⟨p, hedge, hnew, chain, tail, hchain, hfresh, hends, hpath⟩ := hbelow
      refine ⟨p :: chain, tail, ⟨hedge, hchain⟩, ⟨hnew, hfresh⟩, ?_, by rw [hpath]; simp⟩
      dsimp only at hends ⊢
      cases hends with
      | root hlength hasks => exact .root (Nat.succ_le_succ hlength) hasks
      | cut hlength hnot => exact .cut (congrArg Nat.succ hlength) hnot
      | dead hlength hdead => exact .dead (Nat.succ_lt_succ hlength) hdead

theorem mem_walkParents {walk : PackageParent → Option (List WhyPath)} {parents : List PackageParent}
    {out : List WhyPath} (h : walkParents walk parents = some out) :
    path ∈ out ↔ ∃ p ∈ parents, ∃ paths, walk p = some paths ∧ path ∈ paths := by
  induction parents generalizing out with
  | nil =>
      cases h
      simp
  | cons p parents ih =>
      obtain ⟨first, hfirst, hrest⟩ := Option.bind_eq_some_iff.mp h
      obtain ⟨others, hothers, rfl⟩ := Option.map_eq_some_iff.mp hrest
      rw [List.mem_append, ih hothers]
      simp only [List.mem_cons, exists_eq_or_imp, hfirst, Option.some.injEq, exists_eq_left']

theorem walkParents_some {walk : PackageParent → Option (List WhyPath)} {parents : List PackageParent}
    {out : List WhyPath} (h : walkParents walk parents = some out) :
    ∀ p ∈ parents, ∃ paths, walk p = some paths := by
  induction parents generalizing out with
  | nil => simp
  | cons p parents ih =>
      obtain ⟨first, hfirst, hrest⟩ := Option.bind_eq_some_iff.mp h
      obtain ⟨others, hothers, -⟩ := Option.map_eq_some_iff.mp hrest
      intro q hq
      cases List.mem_cons.mp hq with
      | inl heq => exact ⟨first, heq ▸ hfirst⟩
      | inr hmem => exact ih hothers q hmem

theorem walkParents_isSome {walk : PackageParent → Option (List WhyPath)}
    {parents : List PackageParent} (h : ∀ p ∈ parents, ∃ paths, walk p = some paths) :
    ∃ out, walkParents walk parents = some out := by
  induction parents with
  | nil => exact ⟨[], rfl⟩
  | cons p parents ih =>
      obtain ⟨first, hfirst⟩ := h p List.mem_cons_self
      obtain ⟨others, hothers⟩ := ih fun q hq => h q (List.mem_cons_of_mem p hq)
      exact ⟨first ++ others, by simp only [walkParents, hfirst, hothers, Option.bind_some,
        Option.map_some]⟩

theorem mem_rootPaths_iff (hindex : Indexes index graph) {roots : List RootParent} {id : PackageId}
    (hroots : index.rootParents.getD id [] = roots) :
    path ∈ roots.map (fun root => WhyPath.mk (hops ++ [root.hop]) false) ↔
      ∃ name requested, RootAsks graph name requested id ∧
        path = ⟨hops ++ [.root name requested], false⟩ := by
  subst hroots
  rw [List.mem_map]
  simp only [hindex.roots]
  constructor
  · intro h
    obtain ⟨root, hasks, rfl⟩ := h
    exact ⟨root.name, root.requested, hasks, rfl⟩
  · intro h
    obtain ⟨name, requested, hasks, rfl⟩ := h
    exact ⟨⟨name, requested⟩, hasks, rfl⟩

theorem notAsked_iff (hindex : Indexes index graph) {id : PackageId} :
    NotAsked graph id ↔ index.rootParents[id]? = none := by
  constructor
  · intro h
    cases hroots : index.rootParents[id]? with
    | none => rfl
    | some roots =>
        obtain ⟨root, hroot⟩ := List.exists_mem_of_ne_nil roots (hindex.listed id roots hroots)
        apply absurd ((hindex.roots id root).mp _) (h root.name root.requested)
        rw [Std.ExtTreeMap.getD_eq_getD_getElem?, hroots]
        exact hroot
  · intro h name requested hasks
    have hmem := (hindex.roots id ⟨name, requested⟩).mpr hasks
    rw [Std.ExtTreeMap.getD_eq_getD_getElem?, h] at hmem
    cases hmem

theorem mem_emitTruncatedOrRootPaths_iff (hindex : Indexes index graph) {id : PackageId} :
    path ∈ emitTruncatedOrRootPaths index id hops ↔ Reports graph 0 visited id hops path := by
  rw [reports_zero_iff, notAsked_iff hindex, emitTruncatedOrRootPaths]
  cases hroots : index.rootParents[id]? with
  | none =>
      have hnot := (notAsked_iff hindex).mpr hroots
      simp only [List.mem_singleton, true_and]
      constructor
      · exact Or.inr
      · intro h
        obtain ⟨name, requested, hasks, -⟩ | hcut := h
        · exact absurd hasks (hnot name requested)
        · exact hcut
  | some roots =>
      have hget : index.rootParents.getD id [] = roots := by
        rw [Std.ExtTreeMap.getD_eq_getD_getElem?, hroots, Option.getD_some]
      simp only [mem_rootPaths_iff hindex hget, reduceCtorEq, false_and, or_false]

theorem deadEnd_iff (hindex : Indexes index graph) : DeadEnd graph visited current ↔
    ((index.rootParents.getD current []).isEmpty &&
      ((index.packageParents.getD current []).filter (·.parent ∉ visited)).isEmpty) = true := by
  have hroots : NotAsked graph current ↔ index.rootParents.getD current [] = [] := by
    rw [List.eq_nil_iff_forall_not_mem]
    simp only [hindex.roots]
    exact ⟨fun h root => h root.name root.requested, fun h name requested => h ⟨name, requested⟩⟩
  have hparents : (∀ parent via, DependsOn graph parent via current → parent ∈ visited) ↔
      (index.packageParents.getD current []).filter (·.parent ∉ visited) = [] := by
    rw [List.filter_eq_nil_iff]
    simp only [hindex.parents, decide_eq_true_eq, not_not]
    exact ⟨fun h p => h p.parent p.via, fun h parent via => h ⟨parent, via⟩⟩
  rw [DeadEnd, hroots, hparents, Bool.and_eq_true, List.isEmpty_iff, List.isEmpty_iff]

/-- What a walk reports are the chains of fresh packages that end at a root, at
the limit or at a dead end. -/
theorem mem_walkPaths_iff (hindex : Indexes index graph) {maxDepth fuel depth : Nat}
    {out : List WhyPath} (hdepth : depth < maxDepth)
    (h : walkPaths index maxDepth fuel current visited hops depth = some out) :
    path ∈ out ↔ Reports graph (maxDepth - depth) visited current hops path := by
  induction fuel generalizing current visited hops depth out with
  | zero => cases h
  | succ fuel ih =>
      have hlimit : maxDepth - depth = maxDepth - (depth + 1) + 1 := by omega
      simp only [walkPaths] at h
      obtain ⟨below, hbelow, rfl⟩ := Option.map_eq_some_iff.mp h
      rw [hlimit, reports_succ_iff, List.mem_append, List.mem_append,
        mem_rootPaths_iff hindex rfl, mem_walkParents hbelow, deadEnd_iff hindex, or_assoc]
      apply or_congr_right
      rw [or_comm]
      apply or_congr
      · split
        next hdead =>
            rw [List.mem_singleton]
            exact ⟨fun heq => ⟨hdead, heq⟩, fun h => h.2⟩
        next hdead => exact ⟨fun hmem => absurd hmem List.not_mem_nil, fun h => absurd h.1 hdead⟩
      · constructor
        · intro hpath
          obtain ⟨p, hp, paths, hwalk, hmem⟩ := hpath
          obtain ⟨hparent, hnew⟩ := List.mem_filter.mp hp
          refine ⟨p, (hindex.parents current p).mp hparent, of_decide_eq_true hnew, ?_⟩
          split at hwalk
          next hbound =>
              cases hwalk
              have hzero : maxDepth - (depth + 1) = 0 := by omega
              rw [hzero]
              exact (mem_emitTruncatedOrRootPaths_iff hindex).mp hmem
          next hbound => exact (ih (Nat.lt_of_not_le hbound) hwalk).mp hmem
        · intro hpath
          obtain ⟨p, hparent, hnew, hreports⟩ := hpath
          have hp : p ∈ (index.packageParents.getD current []).filter (·.parent ∉ visited) :=
            List.mem_filter.mpr ⟨(hindex.parents current p).mpr hparent, decide_eq_true hnew⟩
          refine ⟨p, hp, ?_⟩
          split
          next hbound =>
              have hzero : maxDepth - (depth + 1) = 0 := by omega
              rw [hzero] at hreports
              exact ⟨_, rfl, (mem_emitTruncatedOrRootPaths_iff hindex).mpr hreports⟩
          next hbound =>
              obtain ⟨paths, hwalk⟩ := walkParents_some hbelow p hp
              rw [if_neg hbound] at hwalk
              exact ⟨paths, hwalk, (ih (Nat.lt_of_not_le hbound) hwalk).mpr hreports⟩

theorem mem_parents {id : PackageId} {p : PackageParent} (h : p ∈ index.packageParents.getD id []) :
    p.parent ∈ index.parents := by
  rw [Std.ExtTreeMap.getD_eq_getD_getElem?] at h
  cases hlist : index.packageParents[id]? with
  | none =>
      rw [hlist] at h
      cases h
  | some parents =>
      rw [hlist] at h
      exact List.mem_map_of_mem
        (List.mem_flatten_of_mem (BTreeMap.mem_values_iff.mpr ⟨id, hlist⟩) h)

/-- Every step adds a parent to the path, so the walk comes to its end. -/
theorem walkPaths_isSome (index : ReverseIndex) (maxDepth fuel : Nat) (current : PackageId)
    (visited : List PackageId) (hops : List WhyHop) (depth : Nat)
    (hfuel : TrailWalk.unvisited index.parents visited < fuel) :
    ∃ out, walkPaths index maxDepth fuel current visited hops depth = some out := by
  induction fuel generalizing current visited hops depth with
  | zero => exact absurd hfuel (Nat.not_lt_zero _)
  | succ fuel ih =>
      simp only [walkPaths, Option.map_eq_some_iff]
      have hparents : ∃ below, walkParents
          (fun parent : PackageParent =>
            if maxDepth ≤ depth + 1 then
              some (emitTruncatedOrRootPaths index parent.parent (hops ++ [parent.hop]))
            else
              walkPaths index maxDepth fuel parent.parent (parent.parent :: visited)
                (hops ++ [parent.hop]) (depth + 1))
          ((index.packageParents.getD current []).filter (·.parent ∉ visited)) = some below := by
        apply walkParents_isSome
        intro p hp
        obtain ⟨hparent, hnew⟩ := List.mem_filter.mp hp
        split
        next => exact ⟨_, rfl⟩
        next =>
            apply ih
            have hless := TrailWalk.unvisited_cons_lt (mem_parents hparent) (of_decide_eq_true hnew)
            omega
      obtain ⟨below, hbelow⟩ := hparents
      exact ⟨_, below, hbelow, rfl⟩

/-- A match always comes to its end, and reports what the walk does. -/
theorem buildMatch_reports (graph : ResolutionGraph) (target : PackageId) {maxDepth : Nat}
    (hdepth : 0 < maxDepth) :
    ∃ matched, buildMatch target (buildReverseIndex graph) maxDepth = some matched ∧
      ∀ path, path ∈ matched.paths ↔ Reports graph maxDepth [target] target [] path := by
  have hfuel : TrailWalk.unvisited (buildReverseIndex graph).parents [target] <
      (buildReverseIndex graph).parents.length + 1 :=
    Nat.lt_succ_of_le (List.length_filter_le _ _)
  obtain ⟨out, hout⟩ := walkPaths_isSome (buildReverseIndex graph) maxDepth _ target [target] [] 0
    hfuel
  refine ⟨_, by rw [buildMatch, hout, Option.map_some], fun path => ?_⟩
  rw [dedupePaths, Neighbours.mem_sortDedup_iff, mem_walkPaths_iff (buildReverseIndex_indexes graph) hdepth hout,
    Nat.sub_zero]

section Meaning

variable (graph) (target : PackageId)

/-- A chain of reverse edges from the target that meets no package twice. -/
def SimpleChain (chain : List PackageParent) : Prop :=
  IsChain graph target chain ∧ (target :: chain.map (·.parent)).Nodup

/-- The hops of a chain to a root. -/
def rootHops (chain : List PackageParent) (name requested : String) : List WhyHop :=
  chain.map PackageParent.hop ++ [.root name requested]

/-- A path that is not truncated ends in a root dependency. -/
def EndsAtRoots (paths : List WhyPath) : Prop :=
  ∀ path ∈ paths, path.truncated = false → ∃ chain name requested, SimpleChain graph target chain ∧
    RootAsks graph name requested (chainEnd target chain) ∧
    path.hops = rootHops chain name requested

/-- A path that is not truncated ends in a root dependency or at a dead end. -/
def EndsAtRootsOrDead (paths : List WhyPath) : Prop :=
  ∀ path ∈ paths, path.truncated = false → ∃ chain, SimpleChain graph target chain ∧
    ((∃ name requested, RootAsks graph name requested (chainEnd target chain) ∧
        path.hops = rootHops chain name requested) ∨
      (DeadEnd graph (target :: chain.map (·.parent)) (chainEnd target chain) ∧
        path.hops = chain.map PackageParent.hop))

def ShortChainsReported (maxDepth : Nat) (paths : List WhyPath) : Prop :=
  ∀ chain name requested, SimpleChain graph target chain →
    RootAsks graph name requested (chainEnd target chain) → chain.length ≤ maxDepth →
      ⟨rootHops chain name requested, false⟩ ∈ paths

/-- Some truncated path is a beginning of the chain. -/
def CutReported (paths : List WhyPath) (chain : List PackageParent) (name requested : String) : Prop :=
  ∃ path ∈ paths, path.truncated = true ∧ path.hops <+: rootHops chain name requested

def LongChainsCut (maxDepth : Nat) (paths : List WhyPath) : Prop :=
  ∀ chain name requested, SimpleChain graph target chain →
    RootAsks graph name requested (chainEnd target chain) → maxDepth < chain.length →
      CutReported paths chain name requested

/-- As before, for chains on which no root asks for the package at the limit. -/
def UnaskedLongChainsCut (maxDepth : Nat) (paths : List WhyPath) : Prop :=
  ∀ chain name requested, SimpleChain graph target chain →
    RootAsks graph name requested (chainEnd target chain) → maxDepth < chain.length →
      NotAsked graph (chainEnd target (chain.take maxDepth)) →
        CutReported paths chain name requested

end Meaning

theorem fresh_iff (visited : List PackageId) (chain : List PackageParent) :
    Fresh visited chain ↔ (chain.map (·.parent)).Nodup ∧ ∀ p ∈ chain, p.parent ∉ visited := by
  induction chain generalizing visited with
  | nil => simp [Fresh]
  | cons p chain ih =>
      rw [Fresh, ih, List.map_cons, List.nodup_cons]
      simp only [List.mem_cons, not_or, List.mem_map, forall_eq_or_imp]
      constructor
      · intro h
        obtain ⟨hnew, hnodup, hrest⟩ := h
        refine ⟨⟨?_, hnodup⟩, hnew, fun q hq => (hrest q hq).2⟩
        intro hmem
        obtain ⟨q, hq, heq⟩ := hmem
        exact (hrest q hq).1 heq
      · intro h
        obtain ⟨⟨hout, hnodup⟩, hnew, hrest⟩ := h
        exact ⟨hnew, hnodup, fun q hq => ⟨fun heq => hout ⟨q, hq, heq⟩, hrest q hq⟩⟩

theorem simpleChain_iff {target : PackageId} {chain : List PackageParent} :
    SimpleChain graph target chain ↔ IsChain graph target chain ∧ Fresh [target] chain := by
  rw [SimpleChain, fresh_iff, List.nodup_cons, List.mem_map]
  constructor
  · intro h
    obtain ⟨hchain, hout, hnodup⟩ := h
    refine ⟨hchain, hnodup, fun p hp heq => hout ⟨p, hp, List.mem_singleton.mp heq⟩⟩
  · intro h
    obtain ⟨hchain, hnodup, hnew⟩ := h
    refine ⟨hchain, ?_, hnodup⟩
    intro hmem
    obtain ⟨p, hp, heq⟩ := hmem
    exact hnew p hp (List.mem_singleton.mpr heq)

theorem mem_seenAfter_iff (visited : List PackageId) (chain : List PackageParent) (id : PackageId) :
    id ∈ seenAfter visited chain ↔ id ∈ visited ∨ id ∈ chain.map (·.parent) := by
  induction chain generalizing visited with
  | nil => simp [seenAfter]
  | cons p chain ih =>
      rw [seenAfter, ih, List.map_cons, List.mem_cons, List.mem_cons]
      tauto

theorem deadEnd_seenAfter {target id : PackageId} {chain : List PackageParent}
    (h : DeadEnd graph (seenAfter [target] chain) id) :
    DeadEnd graph (target :: chain.map (·.parent)) id := by
  refine ⟨h.1, fun parent via hedge => ?_⟩
  have hmem := (mem_seenAfter_iff [target] chain parent).mp (h.2 parent via hedge)
  rw [List.mem_singleton] at hmem
  exact List.mem_cons.mpr hmem

/-- The beginning of a simple chain is a simple chain. -/
theorem SimpleChain.take {target : PackageId} {chain : List PackageParent}
    (h : SimpleChain graph target chain) (n : Nat) : SimpleChain graph target (chain.take n) := by
  have hchain : ∀ (n : Nat) (id : PackageId) (chain : List PackageParent),
      IsChain graph id chain → IsChain graph id (chain.take n) := by
    intro n
    induction n with
    | zero => exact fun _ _ _ => trivial
    | succ n ih =>
        intro id chain hchain
        cases chain with
        | nil => trivial
        | cons p chain => exact ⟨hchain.1, ih p.parent chain hchain.2⟩
  refine ⟨hchain n target chain h.1, ?_⟩
  rw [List.map_take]
  exact List.Nodup.sublist ((List.take_sublist n _).cons_cons target) h.2

/-- What `why` reports of one target. -/
structure WhyExact (graph : ResolutionGraph) (target : PackageId) (maxDepth : Nat)
    (matched : WhyPackageMatch) : Prop where
  ends : EndsAtRootsOrDead graph target matched.paths
  short : ShortChainsReported graph target maxDepth matched.paths
  long : UnaskedLongChainsCut graph target maxDepth matched.paths

theorem buildMatch_exact (graph : ResolutionGraph) (target : PackageId) (maxDepth : Nat)
    (hdepth : 0 < maxDepth) :
    ∃ matched, buildMatch target (buildReverseIndex graph) maxDepth = some matched ∧
      WhyExact graph target maxDepth matched := by
  obtain ⟨matched, hmatched, hpaths⟩ := buildMatch_reports graph target hdepth
  refine ⟨matched, hmatched, ?_, ?_, ?_⟩
  · intro path hpath huncut
    obtain ⟨chain, tail, hchain, hfresh, hends, hhops⟩ := (hpaths path).mp hpath
    rw [List.nil_append] at hhops
    refine ⟨chain, simpleChain_iff.mpr ⟨hchain, hfresh⟩, ?_⟩
    rw [huncut] at hends
    cases hends with
    | root hlength hasks => exact .inl ⟨_, _, hasks, hhops⟩
    | dead hlength hdead => exact .inr ⟨deadEnd_seenAfter hdead, by rw [hhops, List.append_nil]⟩
  · intro chain name requested hsimple hasks hlength
    obtain ⟨hchain, hfresh⟩ := simpleChain_iff.mp hsimple
    exact (hpaths _).mpr ⟨chain, _, hchain, hfresh, .root hlength hasks, rfl⟩
  · intro chain name requested hsimple hasks hlength hunasked
    obtain ⟨hchain, hfresh⟩ := simpleChain_iff.mp (hsimple.take maxDepth)
    have htake : (chain.take maxDepth).length = maxDepth := by
      rw [List.length_take]
      omega
    refine ⟨⟨(chain.take maxDepth).map PackageParent.hop, true⟩, ?_, rfl, ?_⟩
    · exact (hpaths _).mpr ⟨_, [], hchain, hfresh, .cut htake hunasked, by simp⟩
    · rw [rootHops]
      exact (List.IsPrefix.map _ (List.take_prefix maxDepth chain)).trans (List.prefix_append _ _)

def pkgC : PackageId := ⟨"c", "1.0.0"⟩

/-- The root asks for `a` and `c`, `c` depends on `a`, and `a` and `b` depend on
each other. -/
def cyclicGraph : ResolutionGraph where
  root := ⟨BTreeMap.collect [("a", ⟨"1", pkgA⟩), ("c", ⟨"1", pkgC⟩)]⟩
  packages := BTreeMap.collect
    [(pkgA, samplePackage pkgA "a.tgz" (BTreeMap.collect [("b", pkgB)])),
      (pkgB, samplePackage pkgB "b.tgz" (BTreeMap.collect [("a", pkgA)])),
      (pkgC, samplePackage pkgC "c.tgz" (BTreeMap.collect [("a", pkgA)]))]

theorem cyclicGraph_dependsOn {parent id : PackageId} {via : String}
    (h : DependsOn cyclicGraph parent via id) :
    (parent = pkgA ∧ id = pkgB) ∨ (parent = pkgB ∧ id = pkgA) ∨ (parent = pkgC ∧ id = pkgA) := by
  obtain ⟨package, hpackage, rfl, hdep⟩ := h
  have hvalues : cyclicGraph.packages.values =
      [samplePackage pkgA "a.tgz" (BTreeMap.collect [("b", pkgB)]),
        samplePackage pkgB "b.tgz" (BTreeMap.collect [("a", pkgA)]),
        samplePackage pkgC "c.tgz" (BTreeMap.collect [("a", pkgA)])] := by decide +kernel
  rw [hvalues] at hpackage
  simp only [List.mem_cons, List.not_mem_nil, or_false] at hpackage
  have hone : ∀ {key : String} {dep : PackageId},
      (BTreeMap.collect [(key, dep)])[via]? = some id → id = dep := by
    intro key dep hget
    have hmem := BTreeMap.mem_of_getElem?_collect hget
    rw [List.mem_singleton, Prod.mk.injEq] at hmem
    exact hmem.2
  obtain rfl | rfl | rfl := hpackage
  · exact .inl ⟨rfl, hone hdep⟩
  · exact .inr (.inl ⟨rfl, hone hdep⟩)
  · exact .inr (.inr ⟨rfl, hone hdep⟩)

theorem cyclicGraph_asks {id : PackageId} {name requested : String}
    (h : RootAsks cyclicGraph name requested id) : id = pkgA ∨ id = pkgC := by
  obtain ⟨dep, hdep, -, rfl⟩ := h
  have hmem := BTreeMap.mem_of_getElem?_collect hdep
  simp only [List.mem_cons, Prod.mk.injEq, List.not_mem_nil, or_false] at hmem
  obtain ⟨-, rfl⟩ | ⟨-, rfl⟩ := hmem
  · exact .inl rfl
  · exact .inr rfl

theorem cyclicGraph_edges : DependsOn cyclicGraph pkgB "a" pkgA ∧ DependsOn cyclicGraph pkgA "b" pkgB ∧
    DependsOn cyclicGraph pkgC "a" pkgA ∧ RootAsks cyclicGraph "a" "1" pkgA ∧
    RootAsks cyclicGraph "c" "1" pkgC :=
  ⟨⟨samplePackage pkgB "b.tgz" (BTreeMap.collect [("a", pkgA)]), by decide +kernel, rfl,
      by decide +kernel⟩,
    ⟨samplePackage pkgA "a.tgz" (BTreeMap.collect [("b", pkgB)]), by decide +kernel, rfl,
      by decide +kernel⟩,
    ⟨samplePackage pkgC "c.tgz" (BTreeMap.collect [("a", pkgA)]), by decide +kernel, rfl,
      by decide +kernel⟩,
    ⟨⟨"1", pkgA⟩, by decide +kernel, rfl, rfl⟩, ⟨⟨"1", pkgC⟩, by decide +kernel, rfl, rfl⟩⟩

theorem cyclicGraph_exact :
    ∃ matched, buildMatch pkgA (buildReverseIndex cyclicGraph) 2 = some matched ∧
      WhyExact cyclicGraph pkgA 2 matched :=
  buildMatch_exact cyclicGraph pkgA 2 (by decide)

/-- The chain back to the target ends without a root, and at the limit a package
that the root asks for hides the longer chain behind it. -/
theorem dead_end_and_hidden_chain :
    (∃ matched, buildMatch pkgA (buildReverseIndex cyclicGraph) 2 = some matched ∧
      ¬ EndsAtRoots cyclicGraph pkgA matched.paths) ∧
    (∃ matched, buildMatch pkgB (buildReverseIndex cyclicGraph) 1 = some matched ∧
      ¬ LongChainsCut cyclicGraph pkgB 1 matched.paths) := by
  obtain ⟨hba, hab, hca, hrootA, hrootC⟩ := cyclicGraph_edges
  constructor
  · obtain ⟨matched, hmatched, hpaths⟩ := buildMatch_reports cyclicGraph pkgA (show 0 < 2 by decide)
    refine ⟨matched, hmatched, fun hends => ?_⟩
    have hdead : DeadEnd cyclicGraph (seenAfter [pkgA] [⟨pkgB, "a"⟩]) pkgB := by
      constructor
      · intro name requested hasks
        exact absurd (cyclicGraph_asks hasks) (by decide)
      · intro parent via hedge
        obtain ⟨rfl, -⟩ | ⟨-, hid⟩ | ⟨-, hid⟩ := cyclicGraph_dependsOn hedge
        · decide
        · exact absurd hid (by decide)
        · exact absurd hid (by decide)
    have hmem : WhyPath.mk [PackageParent.hop ⟨pkgB, "a"⟩] false ∈ matched.paths :=
      (hpaths _).mpr ⟨[⟨pkgB, "a"⟩], [], ⟨hba, trivial⟩, ⟨by decide, trivial⟩,
        .dead (by decide) hdead, rfl⟩
    obtain ⟨chain, name, requested, -, -, hhops⟩ := hends _ hmem rfl
    have hlast := congrArg List.getLast? hhops
    rw [rootHops, List.getLast?_concat] at hlast
    cases hlast
  · obtain ⟨matched, hmatched, hpaths⟩ := buildMatch_reports cyclicGraph pkgB (show 0 < 1 by decide)
    refine ⟨matched, hmatched, fun hcut => ?_⟩
    have hsimple : SimpleChain cyclicGraph pkgB [⟨pkgA, "b"⟩, ⟨pkgC, "a"⟩] :=
      ⟨⟨hab, hca, trivial⟩, by decide⟩
    obtain ⟨path, hpath, htruncated, -⟩ := hcut _ "c" "1" hsimple hrootC (by decide)
    obtain ⟨chain, tail, hchain, -, hends, -⟩ := (hpaths path).mp hpath
    rw [htruncated] at hends
    cases hends with
    | cut hlength hunasked =>
        obtain ⟨p, rfl⟩ := List.length_eq_one_iff.mp hlength
        obtain ⟨hparent, -⟩ | ⟨-, hid⟩ | ⟨-, hid⟩ := cyclicGraph_dependsOn hchain.1
        · rw [chainEnd, hparent] at hunasked
          exact hunasked "a" "1" hrootA
        · exact absurd hid (by decide)
        · exact absurd hid (by decide)

end Snpm.Why
