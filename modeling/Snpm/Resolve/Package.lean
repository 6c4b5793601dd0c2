import Mathlib
import Snpm.Library.StackWalk
import Snpm.Resolve.Registry
import Snpm.Resolve.Source

/-!
Resolving one package: the edge of an earlier graph that can be kept, the
registry's answer to the request, the record that is published before the
dependencies are known, and the requests the package makes itself.
-/
namespace Snpm.Resolve

/-- The platform packages are checked against. -/
structure Platform where
  os : String
  cpu : String
  libc : String
deriving DecidableEq

def checkPlatformList (list : List String) (current : String) : Bool :=
  if list = ["any"] || list = [] then true
  else if list.any fun entry => Text.stripPrefix entry "!" = some current then false
  else if !list.any fun entry => !Text.startsWith entry "!" then true
  else list.any fun entry => !Text.startsWith entry "!" && entry = current

def Platform.isCompatibleWithLibc (platform : Platform) (os cpu libc : List String) : Bool :=
  checkPlatformList os platform.os && checkPlatformList cpu platform.cpu &&
    (platform.libc = "unknown" || checkPlatformList libc platform.libc)

/-- What a resolution is given. `fetch` is the registry, `ageOf` the clock. -/
structure ResolverContext where
  minAgeDays : Option Nat
  force : Bool
  overrides : Option (BTreeMap String String)
  workspaceSources : Option (BTreeMap String String)
  existingGraph : Option ResolutionGraph
  platform : Platform
  ageOf : String → Option Int
  fetch : RegistryProtocol → String → Result RegistryPackage

/-- The arguments of `resolve_package`. -/
structure Call where
  name : String
  range : String
  protocol : RegistryProtocol
  parent : Option PackageId
deriving DecidableEq

section Seed

variable (S : SemverCrate) (graph : ResolutionGraph)

/-- The edge of the graph for the name, below the parent or at the root. -/
def seedEdge (call : Call) : Option PackageId :=
  match call.parent with
  | some parent => (graph.packages[parent]?).bind (·.dependencies[call.name]?)
  | none => (graph.root.dependencies[call.name]?).map (·.resolved)

def seededDependencyId (call : Call) : Option PackageId := do
  let seedId ← seedEdge graph call
  let ranges ← (parseRangeSet S call.name call.range).toOption
  let version ← (parseVersion S seedId.version).toOption
  if ranges.contains version then some seedId else none

def dependencyIds (id : PackageId) : Option (List PackageId) :=
  (graph.packages[id]?).map (·.dependencies.values)

/-- Every package below is in the graph. The fuel counts all edges. -/
def seededSubgraphComplete (id : PackageId) : Bool :=
  StackWalk.walk (dependencyIds graph)
    (StackWalk.work (dependencyIds graph) graph.packages.keys [] [id] + 1) [id] []

theorem seededSubgraphComplete_iff (id : PackageId) :
    seededSubgraphComplete graph id = true ↔
      ∀ below, StackWalk.Reaches (dependencyIds graph) id below → below ∈ graph.packages := by
  have hsome : ∀ id : PackageId, (dependencyIds graph id).isSome ↔ id ∈ graph.packages := by
    intro id
    rw [dependencyIds, Option.isSome_map, Std.ExtTreeMap.mem_iff_isSome_getElem?]
  rw [seededSubgraphComplete, StackWalk.walk_iff Std.ExtTreeMap.nodup_keys]
  · simp only [hsome]
  · intro x hx
    rw [Std.ExtTreeMap.mem_keys, ← hsome]
    exact hx

end Seed

/-- The earlier resolution that a call keeps. -/
def seedOf (S : SemverCrate) (ctx : ResolverContext) (call : Call) : Option PackageId := do
  let graph ← ctx.existingGraph
  let seedId ← seededDependencyId S graph call
  if seededSubgraphComplete graph seedId then some seedId else none

section Request

variable (S : SemverCrate) (ctx : ResolverContext)

def requestFor (call : Call) : DepRequest :=
  buildDepRequest call.name call.range call.protocol ctx.overrides ctx.workspaceSources

def ensurePlatformCompatible (platform : Platform) (name range : String) (info : RegistryVersion) :
    Result Unit :=
  if platform.isCompatibleWithLibc info.os info.cpu info.libc then .ok ()
  else .error (.resolutionFailed name range "package is not compatible with current OS/CPU/libc")

/-- An aliased package of a registry is identified by its own name; other
sources are addresses, and keep the name of the edge. -/
def resolvedName (name : String) (request : DepRequest) : String :=
  if (request.protocol.name = "npm" || request.protocol.name = "jsr") && request.source ≠ name then
    request.source
  else name

/-- The registry's answer to a call: an identity and its metadata. -/
def resolveRequest (call : Call) : Result (PackageId × RegistryVersion) := do
  let request := requestFor ctx call
  let package ← ctx.fetch request.protocol request.source
  let info ← selectVersion S ctx.ageOf request.source request.range package ctx.minAgeDays ctx.force
  ensurePlatformCompatible ctx.platform call.name call.range info
  .ok (⟨resolvedName call.name request, info.version⟩, info)

end Request

section Metadata

def requiredPeerDependencies (info : RegistryVersion) : BTreeMap String String :=
  info.peerDependencies.filter fun name _ =>
    !((info.peerDependenciesMeta[name]?).map (·.optional)).getD false

/-- The record of a package whose dependencies are still to be resolved. -/
def buildPlaceholder (id : PackageId) (info : RegistryVersion) : ResolvedPackage where
  id := id
  tarball := info.dist.tarball
  integrity := info.dist.integrity
  dependencies := ∅
  peerDependencies := requiredPeerDependencies info
  bundledDependencies := info.getBundledDependencies
  hasBin := info.hasBin
  bin := info.binDefinition

/-- The dependencies that have to be resolved: not bundled, and not declared
optional as well. -/
def requiredDependencies (info : RegistryVersion) : BTreeMap String String :=
  info.dependencies.filter fun name _ =>
    !info.bundledDependencyNames.contains name && !info.optionalDependencies.contains name

def optionalDependencies (info : RegistryVersion) : BTreeMap String String :=
  info.optionalDependencies.filter fun name _ => !info.bundledDependencyNames.contains name

def callFrom (id : PackageId) (name range : String) : Call :=
  ⟨name, range, protocolFromRange range, some id⟩

def requiredCalls (id : PackageId) (info : RegistryVersion) : BTreeMap String Call :=
  (requiredDependencies info).map fun name range =>
    callFrom id name (normalizeDependencyRange info.dist.tarball range)

def optionalCalls (id : PackageId) (info : RegistryVersion) : BTreeMap String Call :=
  (optionalDependencies info).map (callFrom id)

/-- The edges of a package: the first failed required dependency fails them
all, and an optional one that failed is left out. -/
def collectDependencies (id : PackageId) (info : RegistryVersion)
    (result : String → Result PackageId) : Result (BTreeMap String PackageId) := do
  let required ← BTreeMap.filterMapM (fun name _ => (result name).map some) (requiredCalls id info)
  .ok (required ∪ (optionalCalls id info).filterMap fun name _ => (result name).toOption)

theorem mem_requiredCalls (id : PackageId) (info : RegistryVersion) (name : String) :
    name ∈ requiredCalls id info ↔ name ∈ requiredDependencies info := by
  rw [requiredCalls]
  exact Std.ExtTreeMap.mem_map

/-- Collected edges cover the required dependencies and lead where the results
say. -/
theorem collectDependencies_ok {id : PackageId} {info : RegistryVersion}
    {result : String → Result PackageId} {dependencies : BTreeMap String PackageId}
    (h : collectDependencies id info result = .ok dependencies) :
    (∀ name ∈ requiredDependencies info, name ∈ dependencies) ∧
      ∀ (name : String) target, dependencies[name]? = some target →
        result name = .ok target ∧ (name ∈ requiredCalls id info ∨ name ∈ optionalCalls id info) := by
  obtain ⟨required, hrequired, h⟩ := Result.bind_eq_ok h
  cases h
  have hvisit := BTreeMap.filterMapM_ok hrequired
  have hresult : ∀ (name : String) (call : Call), (requiredCalls id info)[name]? = some call →
      ∃ target, result name = .ok target ∧ required[name]? = some target := by
    intro name call hcall
    have hname := (hvisit name).2 call hcall
    cases htarget : result name with
    | error e =>
        rw [htarget] at hname
        cases hname
    | ok target =>
        rw [htarget] at hname
        exact ⟨target, rfl, (Except.ok.inj hname).symm⟩
  constructor
  · intro name hname
    rw [← mem_requiredCalls id, Std.ExtTreeMap.mem_iff_isSome_getElem?,
      Option.isSome_iff_exists] at hname
    obtain ⟨call, hcall⟩ := hname
    obtain ⟨target, -, htarget⟩ := hresult name call hcall
    rw [Std.ExtTreeMap.mem_iff_isSome_getElem?, Std.ExtTreeMap.getElem?_union, htarget]
    simp
  · intro name target htarget
    rw [Std.ExtTreeMap.getElem?_union, Option.or_eq_some_iff] at htarget
    rcases htarget with hoptional | ⟨-, hrequiredTarget⟩
    · rw [Std.ExtTreeMap.getElem?_filterMap', Option.bind_eq_some_iff] at hoptional
      obtain ⟨call, hcall, htarget⟩ := hoptional
      constructor
      · cases hname : result name with
        | error e =>
            rw [hname] at htarget
            cases htarget
        | ok found =>
            rw [hname] at htarget
            cases htarget
            rfl
      · exact .inr (Std.ExtTreeMap.mem_iff_isSome_getElem?.mpr
          (Option.isSome_iff_exists.mpr ⟨call, hcall⟩))
    · cases hcall : (requiredCalls id info)[name]? with
      | none =>
          rw [(hvisit name).1 hcall] at hrequiredTarget
          cases hrequiredTarget
      | some call =>
          obtain ⟨found, hfound, hrequiredFound⟩ := hresult name call hcall
          rw [hrequiredFound] at hrequiredTarget
          cases hrequiredTarget
          exact ⟨hfound, .inl (Std.ExtTreeMap.mem_iff_isSome_getElem?.mpr
            (Option.isSome_iff_exists.mpr ⟨call, hcall⟩))⟩

end Metadata

end Snpm.Resolve
