import Mathlib
import Snpm.Resolve.Types
import Snpm.Semver

/-!
Peer resolution over a finished graph. Every package whose required peers all
have a satisfying provider gets a map from peer names to providers; the other
packages get none. The provider is the root's own choice when that satisfies,
and otherwise the highest satisfying version of the graph.
-/
namespace Snpm.Linker

variable (S : SemverCrate)

/-- `Iterator::max_by`: of several maximal elements the last one. -/
def maxBy {α : Type} (cmp : α → α → Ordering) : List α → Option α
  | [] => none
  | a :: rest => some (rest.foldl (fun best x => if cmp best x = .gt then best else x) a)

def idsByName (graph : ResolutionGraph) (name : String) : List PackageId :=
  graph.packages.keys.filter (·.name = name)

def satisfies (range : RangeSet S) (id : PackageId) : Bool :=
  match parseVersion S id.version with
  | .ok version => range.contains version
  | .error _ => false

/-- Candidate order: by version, or by text when one of the two is no version. -/
def compareVersionTexts (left right : PackageId) : Ordering :=
  match parseVersion S left.version, parseVersion S right.version with
  | .ok leftVersion, .ok rightVersion => S.cmp leftVersion rightVersion
  | _, _ => compare left.version right.version

def selectDominantPeer (peerName : String) (range : RangeSet S) (graph : ResolutionGraph) :
    Option PackageId :=
  let highest :=
    maxBy (compareVersionTexts S) ((idsByName graph peerName).filter (satisfies S range))
  match graph.root.dependencies[peerName]? with
  | some rootDep =>
      if rootDep.resolved.name = peerName ∧ satisfies S range rootDep.resolved then
        some rootDep.resolved
      else highest
  | none => highest

/-- One declared peer. A peer that is also a direct dependency is provided by
that edge; a peer without a provider gives up on the whole package. -/
def collectPeer (graph : ResolutionGraph) (dependencies : BTreeMap String PackageId)
    (peerMap : BTreeMap String PackageId) (peer : String × String) :
    Option (BTreeMap String PackageId) :=
  if dependencies.contains peer.1 then some peerMap
  else
    match parseRangeSet S peer.1 peer.2 with
    | .error _ => none
    | .ok range =>
        (selectDominantPeer S peer.1 range graph).map fun peerId => peerMap.insert peer.1 peerId

def resolvePackagePeers (graph : ResolutionGraph) (package : ResolvedPackage) :
    Option (BTreeMap String PackageId) :=
  if package.peerDependencies.isEmpty then none
  else
    package.peerDependencies.toList.foldlM (collectPeer S graph package.dependencies) ∅

def resolveUniquePeers (graph : ResolutionGraph) :
    BTreeMap PackageId (BTreeMap String PackageId) :=
  graph.packages.filterMap fun _ package => resolvePackagePeers S graph package

/-- The resolved peers of one package in iteration order. -/
def peersOf (graph : ResolutionGraph) (id : PackageId) : List (String × PackageId) :=
  match (resolveUniquePeers S graph)[id]? with
  | some peers => peers.toList
  | none => []

variable {S}

theorem selectDominantPeer_congr {G₁ G₂ : ResolutionGraph}
    (hroot : G₁.root = G₂.root) (hkeys : G₁.packages.keys = G₂.packages.keys)
    (peerName : String) (range : RangeSet S) :
    selectDominantPeer S peerName range G₁ = selectDominantPeer S peerName range G₂ := by
  simp only [selectDominantPeer, idsByName, hroot, hkeys]

/-- Peer resolution reads the ids of the graph, its root and the two
dependency maps of the package, and nothing else. -/
theorem resolvePackagePeers_congr {G₁ G₂ : ResolutionGraph} {p₁ p₂ : ResolvedPackage}
    (hroot : G₁.root = G₂.root) (hkeys : G₁.packages.keys = G₂.packages.keys)
    (hdeps : p₁.dependencies = p₂.dependencies)
    (hpeers : p₁.peerDependencies = p₂.peerDependencies) :
    resolvePackagePeers S G₁ p₁ = resolvePackagePeers S G₂ p₂ := by
  have hstep : collectPeer S G₁ p₁.dependencies = collectPeer S G₂ p₂.dependencies := by
    funext peerMap peer
    simp only [collectPeer, hdeps, selectDominantPeer_congr hroot hkeys]
  simp only [resolvePackagePeers, hpeers, hstep]

theorem getElem?_resolveUniquePeers (graph : ResolutionGraph) (id : PackageId) :
    (resolveUniquePeers S graph)[id]? =
      (graph.packages[id]?).bind fun package => resolvePackagePeers S graph package := by
  rw [resolveUniquePeers, Std.ExtTreeMap.getElem?_filterMap']

end Snpm.Linker
