import Mathlib
import Snpm.Project
import Snpm.Linker.Peers

/-!
Which packages may not live in the store that projects share. A package is
project-local when it is patched, may run scripts, is excluded by
configuration, comes from a local directory or lacks a provider for a required
peer, and so is every package wired to a project-local one.
-/
namespace Snpm.Linker

variable (S : SemverCrate)

def isDepScriptAllowed (config : SnpmConfig) (workspace : Option Workspace) (name : String) :
    Bool :=
  let fromConfig := !config.allowScripts.isEmpty && config.allowScripts.contains name
  match workspace with
  | none => fromConfig
  | some ws =>
      if !ws.config.onlyBuiltDependencies.isEmpty then ws.config.onlyBuiltDependencies.contains name
      else if !ws.config.ignoredBuiltDependencies.isEmpty then
        !ws.config.ignoredBuiltDependencies.contains name
      else fromConfig

def packageDisablesGlobalVirtualStore (config : SnpmConfig) (workspace : Option Workspace)
    (packageName : String) : Bool :=
  match workspace.bind (·.config.disableGlobalVirtualStoreForPackages) with
  | some packages => packages.contains packageName
  | none => config.disableGlobalVirtualStoreForPackages.contains packageName

def parsePatchKey (key : String) : Option (String × String) :=
  match Text.rsplitOnce key (· = '@') with
  | some (name, version) => if name = "" then none else some (name, version)
  | none => none

def getPatchedDependencies (project : Project) : BTreeMap String String :=
  let pnpm := (project.manifest.pnpm.bind (·.patchedDependencies)).getD ∅
  let snpm := (project.manifest.snpm.bind (·.patchedDependencies)).getD ∅
  BTreeMap.collect (pnpm.toList ++ snpm.toList)

def patchedPackageIds (projects : List Project) : BTreeSet PackageId :=
  .ofList ((projects.flatMap fun project => (getPatchedDependencies project).keys).filterMap
    fun key => (parsePatchKey key).map fun (name, version) => ⟨name, version⟩) compare

/-- What the decision reads outside the graph: the configuration, the projects
and whether a path is a directory. -/
structure LocalityInput where
  config : SnpmConfig
  workspace : Option Workspace
  projects : List Project
  isDir : PathBuf → Bool

def packageHasProjectLocalSource (input : LocalityInput) (package : ResolvedPackage) : Bool :=
  match Text.stripPrefix package.tarball "file://" with
  | some path => input.isDir path
  | none => false

def packageIsProjectLocal (input : LocalityInput) (graph : ResolutionGraph) (id : PackageId)
    (package : ResolvedPackage) : Bool :=
  packageDisablesGlobalVirtualStore input.config input.workspace id.name ||
    (patchedPackageIds input.projects).contains id ||
    isDepScriptAllowed input.config input.workspace id.name ||
    packageHasProjectLocalSource input package ||
    (!package.peerDependencies.isEmpty && !(resolveUniquePeers S graph).contains id)

/-- Whether a dependency or a resolved peer is already known to be local. -/
def hasLocalNeighbour (graph : ResolutionGraph) (locals : BTreeSet PackageId) (id : PackageId)
    (package : ResolvedPackage) : Bool :=
  package.dependencies.toList.any (fun e => locals.contains e.2) ||
    (peersOf S graph id).any fun e => locals.contains e.2

def localStep (graph : ResolutionGraph) (locals : BTreeSet PackageId)
    (p : PackageId × ResolvedPackage) : BTreeSet PackageId :=
  if locals.contains p.1 then locals
  else if hasLocalNeighbour S graph locals p.1 p.2 then locals.insert p.1
  else locals

/-- One pass of the closure loop; later packages see earlier insertions. -/
def localPass (graph : ResolutionGraph) (locals : BTreeSet PackageId) : BTreeSet PackageId :=
  graph.packages.toList.foldl (localStep S graph) locals

/-- Repeat the pass until it changes nothing. -/
def localClosure (graph : ResolutionGraph) : Nat → BTreeSet PackageId → BTreeSet PackageId
  | 0, locals => locals
  | fuel + 1, locals =>
      let next := localPass S graph locals
      if next = locals then locals else localClosure graph fuel next

def directlyLocal (input : LocalityInput) (graph : ResolutionGraph) : BTreeSet PackageId :=
  .ofList ((graph.packages.toList.filter fun p =>
    packageIsProjectLocal S input graph p.1 p.2).map (·.1)) compare

def localGlobalVirtualStorePackageIds (input : LocalityInput) (graph : ResolutionGraph) :
    BTreeSet PackageId :=
  localClosure S graph (graph.packages.size + 1) (directlyLocal S input graph)

variable {S} {graph : ResolutionGraph}

theorem localStep_grows (locals : BTreeSet PackageId) (p : PackageId × ResolvedPackage) :
    ∀ id ∈ locals, id ∈ localStep S graph locals p := by
  intro id hid
  unfold localStep
  split
  · exact hid
  · split
    · exact Std.ExtTreeSet.mem_insert.mpr (.inr hid)
    · exact hid

theorem localStep_mem {locals : BTreeSet PackageId} {p : PackageId × ResolvedPackage}
    {id : PackageId} (h : id ∈ localStep S graph locals p) : id ∈ locals ∨ id = p.1 := by
  unfold localStep at h
  split at h
  · exact .inl h
  · split at h
    · cases Std.ExtTreeSet.mem_insert.mp h with
      | inl heq => exact .inr (Std.LawfulEqCmp.compare_eq_iff_eq.mp heq).symm
      | inr hmem => exact .inl hmem
    · exact .inl h

theorem foldl_localStep_grows (ps : List (PackageId × ResolvedPackage))
    (locals : BTreeSet PackageId) :
    ∀ id ∈ locals, id ∈ ps.foldl (localStep S graph) locals := by
  induction ps generalizing locals with
  | nil => exact fun _ hid => hid
  | cons p ps ih => exact fun id hid => ih _ id (localStep_grows locals p id hid)

theorem foldl_localStep_mem (ps : List (PackageId × ResolvedPackage))
    (locals : BTreeSet PackageId) (id : PackageId)
    (h : id ∈ ps.foldl (localStep S graph) locals) : id ∈ locals ∨ id ∈ ps.map (·.1) := by
  induction ps generalizing locals with
  | nil => exact .inl h
  | cons p ps ih =>
      cases ih _ h with
      | inl hstep =>
          cases localStep_mem hstep with
          | inl hmem => exact .inl hmem
          | inr heq => exact .inr (by simp [heq])
      | inr hmem => exact .inr (List.mem_cons_of_mem _ hmem)

/-- A pass that changes nothing has found no package with a local neighbour. -/
theorem foldl_localStep_fixed (ps : List (PackageId × ResolvedPackage))
    (locals : BTreeSet PackageId) (h : ps.foldl (localStep S graph) locals = locals) :
    ∀ p ∈ ps, localStep S graph locals p = locals := by
  induction ps with
  | nil => simp
  | cons p ps ih =>
      have hp : localStep S graph locals p = locals := by
        apply Std.ExtTreeSet.ext_mem
        intro id
        refine ⟨fun hid => ?_, localStep_grows locals p id⟩
        rw [← h]
        exact foldl_localStep_grows ps _ id hid
      rw [List.foldl_cons, hp] at h
      intro q hq
      cases List.mem_cons.mp hq with
      | inl heq => exact heq ▸ hp
      | inr hmem => exact ih h q hmem

/-- Closed under being wired to a local package. -/
def LocalClosed (S : SemverCrate) (graph : ResolutionGraph) (locals : BTreeSet PackageId) : Prop :=
  ∀ p ∈ graph.packages.toList, hasLocalNeighbour S graph locals p.1 p.2 = true → p.1 ∈ locals

theorem localClosed_of_pass_eq {locals : BTreeSet PackageId}
    (h : localPass S graph locals = locals) : LocalClosed S graph locals := by
  intro p hp hneighbour
  have hstep := foldl_localStep_fixed graph.packages.toList locals h p hp
  by_contra hmem
  have hcontains : ¬ locals.contains p.1 = true := by
    rwa [Std.ExtTreeSet.contains_iff_mem]
  simp only [localStep, if_neg hcontains, if_pos hneighbour] at hstep
  exact hmem (hstep ▸ Std.ExtTreeSet.mem_insert_self)

open Classical in
/-- Every pass that changes something adds a package, so the loop reaches its
fixed point within the given fuel. -/
theorem localClosed_localClosure {fuel : Nat} {locals : BTreeSet PackageId}
    (hfuel : (graph.packages.keys.toFinset.filter (· ∉ locals)).card < fuel) :
    LocalClosed S graph (localClosure S graph fuel locals) := by
  induction fuel generalizing locals with
  | zero => omega
  | succ fuel ih =>
      simp only [localClosure]
      split
      case isTrue heq => exact localClosed_of_pass_eq heq
      case isFalse hne =>
        refine ih (Nat.lt_of_lt_of_le (Finset.card_lt_card ?_) (Nat.lt_succ_iff.mp hfuel))
        have hgrows : ∀ id ∈ locals, id ∈ localPass S graph locals :=
          foldl_localStep_grows _ locals
        obtain ⟨id, hnew, hold⟩ : ∃ id ∈ localPass S graph locals, id ∉ locals := by
          by_contra hall
          refine hne (Std.ExtTreeSet.ext_mem fun {id} => ⟨fun hid => ?_, hgrows id⟩)
          by_contra hmem
          exact hall ⟨id, hid, hmem⟩
        rw [Finset.ssubset_iff_of_subset]
        · refine ⟨id, ?_, by simp [hnew]⟩
          cases foldl_localStep_mem _ locals id hnew with
          | inl hmem => exact absurd hmem hold
          | inr hmem =>
              rw [Std.ExtTreeMap.map_fst_toList_eq_keys] at hmem
              exact Finset.mem_filter.mpr ⟨List.mem_toFinset.mpr hmem, hold⟩
        · intro j hj
          simp only [Finset.mem_filter] at hj ⊢
          exact ⟨hj.1, fun hmem => hj.2 (hgrows j hmem)⟩

theorem localClosed_closure (seeds : BTreeSet PackageId) :
    LocalClosed S graph (localClosure S graph (graph.packages.size + 1) seeds) := by
  refine localClosed_localClosure (Nat.lt_succ_of_le ((Finset.card_filter_le _ _).trans ?_))
  exact (List.toFinset_card_le _).trans (by simp)

/-- Whatever is wired to a project-local package is project-local. -/
theorem localIds_closed (input : LocalityInput) (graph : ResolutionGraph) :
    LocalClosed S graph (localGlobalVirtualStorePackageIds S input graph) :=
  localClosed_closure _
end Snpm.Linker
