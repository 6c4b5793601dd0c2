import Mathlib
import Snpm.Install.Scenario

/-!
What a hot classification says about the graph. An install leaves an integrity
record and a layout record for the graph it installed; a later graph that is
found hot agrees with these records. Neither record reads dependency edges,
tarballs or integrity values, so they agree for different graphs as soon as
the installed graph has a package.
-/
namespace Snpm.Install

open Linker

variable {H : Digest.Hash} {S : SemverCrate}

/-- Every root is resolved to a package of the graph. -/
def Rooted (graph : ResolutionGraph) : Prop :=
  ∀ (name : String) (dep : RootDependency), graph.root.dependencies[name]? = some dep →
    dep.resolved ∈ graph.packages

/-- The same ids, edges, tarballs, integrity values and root resolutions. -/
structure SameResolution (G₁ G₂ : ResolutionGraph) : Prop where
  ids : G₁.packages.keys = G₂.packages.keys
  packages : ∀ (id : PackageId) (p q : ResolvedPackage),
    G₁.packages[id]? = some p → G₂.packages[id]? = some q →
      p.dependencies = q.dependencies ∧ p.tarball = q.tarball ∧ p.integrity = q.integrity
  roots : ∀ name : String, (G₁.root.dependencies[name]?).map (·.resolved) =
    (G₂.root.dependencies[name]?).map (·.resolved)

/-- The two records that installing a graph leaves in a project. -/
structure Installed (H : Digest.Hash) (S : SemverCrate) (input : LayoutInput) (project : Project)
    (graph : ResolutionGraph) (checks : List LayoutCheck) : Prop where
  integrity : ∃ state, buildProjectIntegrityState H input.files project graph = .ok state ∧
    input.files.read (integrityPath project.root) = .ok (integrityContent state)
  layout : ∃ source required optional state,
    projectInstallState H S input project source required optional graph true checks = .ok state ∧
      input.files.installState (installStatePath project.root) = some state

theorem classify_scenario_hot {input : LayoutInput} {graph : ResolutionGraph}
    {state : IntegrityState} {hot current : Bool} :
    (classify input graph state hot current).scenario = .hot ↔ hot = true := by
  unfold classify
  cases hot with
  | true => simp
  | false =>
      simp only [Bool.false_eq_true, if_false, iff_false]
      split
      · simp [ScenarioResult.cold]
      · split <;> simp

/-- With both records in place, a graph is hot when they agree for it. -/
theorem detectFromGraph_hot_iff {input : LayoutInput} {project : Project}
    {G₁ G₂ : ResolutionGraph} {checks : List LayoutCheck} {force : Bool}
    (hfiles : Installed H S input project G₁ checks) :
    (detectFromGraph H S input project G₂ force none).scenario = .hot ↔
      force = false ∧ lockfileText G₁ = lockfileText G₂ ∧
        checks.all (LayoutCheck.validate input.files) = true ∧
        buildProjectLayoutHash H S input project G₂ true =
          buildProjectLayoutHash H S input project G₁ true := by
  obtain ⟨integrity, hintegrity, hread⟩ := hfiles.integrity
  obtain ⟨source, required, optional, state, hstate, hstored⟩ := hfiles.layout
  obtain ⟨patchHash, hpatch, hbuilt⟩ := Result.bind_eq_ok hintegrity
  obtain ⟨layoutHash, hlayout, hwritten⟩ := Result.bind_eq_ok hstate
  cases hbuilt
  cases hwritten
  have hstate₂ : buildProjectIntegrityState H input.files project G₂ =
      .ok ⟨computeLockfileHash H G₂, patchHash⟩ := by
    simp [buildProjectIntegrityState, hpatch, bind, Except.bind]
  have hcheck : checkProjectLayoutState H S input project G₂ true = true ↔
      checks.all (LayoutCheck.validate input.files) = true ∧
        buildProjectLayoutHash H S input project G₂ true = .ok layoutHash := by
    unfold checkProjectLayoutState checkLayout checkLayoutFromInstallState
    rw [hstored]
    cases hG₂ : buildProjectLayoutHash H S input project G₂ true with
    | error e =>
        simp only [Option.getD_none, checkLayoutState, layoutMatches]
        split <;> simp
    | ok hash =>
        simp only [if_true, Option.getD_some, layoutMatches_ok, Except.ok.injEq]
        exact And.comm
  rw [detectFromGraph, hstate₂, classify_scenario_hot, hlayout]
  simp only [Option.getD_none, Bool.and_eq_true, Bool.not_eq_true', hcheck]
  rw [computeLockfileHash, checkIntegrityPath_iff (s := lockfileText G₁) (u := patchHash) hread]
  constructor
  · rintro ⟨⟨hforce, htext, -⟩, hchecks, hhash⟩
    exact ⟨hforce, htext, hchecks, hhash⟩
  · rintro ⟨hforce, htext, hchecks, hhash⟩
    exact ⟨⟨hforce, htext, rfl⟩, hchecks, hhash⟩

section WithIntegrity

variable (f : Option String → Option String)

def setIntegrity (package : ResolvedPackage) : ResolvedPackage :=
  { package with integrity := f package.integrity }

/-- Replace every integrity value of a graph. -/
def withIntegrity (graph : ResolutionGraph) : ResolutionGraph where
  root := graph.root
  packages := graph.packages.map fun _ package => setIntegrity f package

variable (graph : ResolutionGraph)

theorem packages_withIntegrity : (withIntegrity f graph).packages =
    graph.packages.map fun _ package => setIntegrity f package := rfl

theorem keys_withIntegrity : (withIntegrity f graph).packages.keys = graph.packages.keys := by
  rw [packages_withIntegrity, Std.ExtTreeMap.keys_map]

theorem toList_withIntegrity : (withIntegrity f graph).packages.toList =
    graph.packages.toList.map fun p => (p.1, setIntegrity f p.2) := by
  rw [packages_withIntegrity, Std.ExtTreeMap.toList_map]

theorem lockfileText_withIntegrity : lockfileText (withIntegrity f graph) = lockfileText graph := by
  have hpackage : (packageText ∘ fun p => (p.1, setIntegrity f p.2)) = packageText := by
    funext p
    simp only [Function.comp_apply, packageText, setIntegrity]
  have hroot : (withIntegrity f graph).root = graph.root := rfl
  rw [lockfileText, lockfileText, toList_withIntegrity, List.map_map, hpackage, hroot]

theorem resolvePackagePeers_withIntegrity (package : ResolvedPackage) :
    resolvePackagePeers S (withIntegrity f graph) (setIntegrity f package) =
      resolvePackagePeers S graph package := by
  have hroot : (withIntegrity f graph).root = graph.root := rfl
  have hdeps : (setIntegrity f package).dependencies = package.dependencies := rfl
  have hpeers : (setIntegrity f package).peerDependencies = package.peerDependencies := rfl
  exact resolvePackagePeers_congr hroot (keys_withIntegrity f graph) hdeps hpeers

theorem resolveUniquePeers_withIntegrity :
    resolveUniquePeers S (withIntegrity f graph) = resolveUniquePeers S graph := by
  apply Std.ExtTreeMap.ext_getElem?
  intro id
  rw [getElem?_resolveUniquePeers, getElem?_resolveUniquePeers, packages_withIntegrity,
    Std.ExtTreeMap.getElem?_map]
  generalize graph.packages[id]? = entry
  cases entry with
  | none => rw [Option.map_none, Option.bind_none, Option.bind_none]
  | some package =>
      rw [Option.map_some, Option.bind_some, Option.bind_some, resolvePackagePeers_withIntegrity]

theorem peersOf_withIntegrity (id : PackageId) :
    peersOf S (withIntegrity f graph) id = peersOf S graph id := by
  rw [peersOf, peersOf, resolveUniquePeers_withIntegrity]

theorem localStep_withIntegrity (locals : BTreeSet PackageId) (p : PackageId × ResolvedPackage) :
    localStep S (withIntegrity f graph) locals (p.1, setIntegrity f p.2) =
      localStep S graph locals p := by
  have hneighbour : hasLocalNeighbour S (withIntegrity f graph) locals p.1 (setIntegrity f p.2) =
      hasLocalNeighbour S graph locals p.1 p.2 := by
    rw [hasLocalNeighbour, hasLocalNeighbour, peersOf_withIntegrity, setIntegrity]
  rw [localStep, localStep, hneighbour]

theorem localPass_withIntegrity (locals : BTreeSet PackageId) :
    localPass S (withIntegrity f graph) locals = localPass S graph locals := by
  have hstep : (fun locals p => localStep S (withIntegrity f graph) locals
      (Prod.fst p, setIntegrity f (Prod.snd p))) = localStep S graph := by
    funext locals p
    exact localStep_withIntegrity f graph locals p
  rw [localPass, localPass, toList_withIntegrity, List.foldl_map, hstep]

theorem localClosure_withIntegrity (fuel : Nat) (locals : BTreeSet PackageId) :
    localClosure S (withIntegrity f graph) fuel locals = localClosure S graph fuel locals := by
  induction fuel generalizing locals with
  | zero => rfl
  | succ fuel ih => simp only [localClosure, localPass_withIntegrity, ih]

theorem packageIsProjectLocal_withIntegrity (input : LocalityInput)
    (p : PackageId × ResolvedPackage) :
    packageIsProjectLocal S input (withIntegrity f graph) p.1 (setIntegrity f p.2) =
      packageIsProjectLocal S input graph p.1 p.2 := by
  have hsource : packageHasProjectLocalSource input (setIntegrity f p.2) =
      packageHasProjectLocalSource input p.2 := by
    rw [packageHasProjectLocalSource, packageHasProjectLocalSource, setIntegrity]
  have hpeers : (setIntegrity f p.2).peerDependencies = p.2.peerDependencies := rfl
  rw [packageIsProjectLocal, packageIsProjectLocal, hsource, hpeers,
    resolveUniquePeers_withIntegrity]

theorem directlyLocal_withIntegrity (input : LocalityInput) :
    directlyLocal S input (withIntegrity f graph) = directlyLocal S input graph := by
  have hlocal : (fun p : PackageId × ResolvedPackage =>
      packageIsProjectLocal S input (withIntegrity f graph) p.1 p.2) ∘
        (fun p : PackageId × ResolvedPackage => (p.1, setIntegrity f p.2)) =
      fun p => packageIsProjectLocal S input graph p.1 p.2 := by
    funext p
    exact packageIsProjectLocal_withIntegrity f graph input p
  have hfst : (fun p : PackageId × ResolvedPackage => p.1) ∘
      (fun p : PackageId × ResolvedPackage => (p.1, setIntegrity f p.2)) = fun p => p.1 := rfl
  rw [directlyLocal, directlyLocal, toList_withIntegrity, List.filter_map, hlocal, List.map_map,
    hfst]

theorem localIds_withIntegrity (input : LocalityInput) :
    localGlobalVirtualStorePackageIds S input (withIntegrity f graph) =
      localGlobalVirtualStorePackageIds S input graph := by
  have hsize : (withIntegrity f graph).packages.size = graph.packages.size := by
    rw [← Std.ExtTreeMap.length_keys, keys_withIntegrity, Std.ExtTreeMap.length_keys]
  rw [localGlobalVirtualStorePackageIds, localGlobalVirtualStorePackageIds,
    localClosure_withIntegrity, directlyLocal_withIntegrity, hsize]

theorem virtualStoreEntries_withIntegrity (input : LayoutInput) (projects : List Project) :
    virtualStoreEntries S input projects (withIntegrity f graph) =
      virtualStoreEntries S input projects graph := by
  have hentries : ∀ locals, packageEntries S (withIntegrity f graph) locals =
      packageEntries S graph locals := by
    intro locals
    funext id
    rw [packageEntries, packageEntries, peersOf_withIntegrity]
  rw [virtualStoreEntries, virtualStoreEntries, keys_withIntegrity, localIds_withIntegrity,
    hentries]

theorem hoistEntries_withIntegrity (mode : HoistingMode) :
    hoistEntries (withIntegrity f graph) mode = hoistEntries graph mode := by
  have hpick : hoistPick mode (withIntegrity f graph) = hoistPick mode graph := by
    funext name
    unfold hoistPick
    rw [idsByName, idsByName, keys_withIntegrity]
  rw [hoistEntries, hoistEntries, toHoist, toHoist, keys_withIntegrity, hpick]

theorem projectLinkEntries_withIntegrity (input : LayoutInput) (project : Project)
    (includeDev : Bool) :
    projectLinkEntries S input project (withIntegrity f graph) includeDev =
      projectLinkEntries S input project graph includeDev := by
  have hlink : ∀ title, linkEntry S input title (withIntegrity f graph) =
      linkEntry S input title graph := fun _ => rfl
  simp only [projectLinkEntries, devLinkEntries, manifestLinkEntries, hlink]

/-- The layout digest does not read integrity values. -/
theorem buildProjectLayoutHash_withIntegrity (input : LayoutInput) (project : Project)
    (includeDev : Bool) :
    buildProjectLayoutHash H S input project (withIntegrity f graph) includeDev =
      buildProjectLayoutHash H S input project graph includeDev := by
  rw [buildProjectLayoutHash, buildProjectLayoutHash, projectLayoutEntries, projectLayoutEntries,
    virtualStoreEntries_withIntegrity, hoistEntries_withIntegrity,
    projectLinkEntries_withIntegrity]

theorem rooted_withIntegrity (h : Rooted graph) : Rooted (withIntegrity f graph) := by
  intro name dep hdep
  rw [← Std.ExtTreeMap.mem_keys, keys_withIntegrity, Std.ExtTreeMap.mem_keys]
  exact h name dep hdep

end WithIntegrity

/-- Set where there was none, and none where there was one. -/
def flipIntegrity : Option String → Option String
  | none => some "sha512-0"
  | some _ => none

theorem flipIntegrity_ne (integrity : Option String) : integrity ≠ flipIntegrity integrity := by
  cases integrity <;> simp [flipIntegrity]

theorem not_same_flipIntegrity {graph : ResolutionGraph} (h : graph.packages ≠ ∅) :
    ¬ SameResolution graph (withIntegrity flipIntegrity graph) := by
  intro hsame
  obtain ⟨id, hid⟩ : ∃ id, id ∈ graph.packages := by
    by_contra hnone
    exact h (Std.ExtTreeMap.eq_empty_iff_forall_not_mem.mpr fun id hid => hnone ⟨id, hid⟩)
  obtain ⟨package, hpackage⟩ := Option.isSome_iff_exists.mp
    (Std.ExtTreeMap.mem_iff_isSome_getElem?.mp hid)
  have hflipped : (withIntegrity flipIntegrity graph).packages[id]? =
      some (setIntegrity flipIntegrity package) := by
    rw [packages_withIntegrity, Std.ExtTreeMap.getElem?_map, hpackage, Option.map_some]
  exact flipIntegrity_ne _ (hsame.packages id _ _ hpackage hflipped).2.2

section Empty

variable {input : LayoutInput} {project : Project} {graph : ResolutionGraph}

/-- Link lines begin with the name of a manifest section. -/
theorem linkEntry_head {title entry : String} {dep : String × String}
    (h : linkEntry S input title graph dep = .ok (some entry)) :
    ∃ rest, entry = title ++ rest := by
  have hexternal : ∀ entry, externalEntry title graph dep.1 = some entry →
      ∃ rest, entry = title ++ rest := by
    intro entry hentry
    obtain ⟨root, -, rfl⟩ := Option.map_eq_some_iff.mp hentry
    simp only [String.append_assoc]
    exact ⟨_, rfl⟩
  unfold linkEntry at h
  split at h
  · exact hexternal entry (Except.ok.inj h)
  · obtain ⟨isLocal, -, h⟩ := Result.bind_eq_ok h
    cases isLocal with
    | false => exact hexternal entry (Except.ok.inj h)
    | true =>
        simp only [if_true] at h
        split at h
        · cases h
        · cases h
          simp only [String.append_assoc]
          exact ⟨_, rfl⟩

theorem mapM_ok_mem {α β : Type} {f : α → Result β} {xs : List α} {ys : List β}
    (h : xs.mapM f = .ok ys) : ∀ y ∈ ys, ∃ x ∈ xs, f x = .ok y := by
  induction xs generalizing ys with
  | nil =>
      cases h
      simp
  | cons x xs ih =>
      rw [List.mapM_cons] at h
      obtain ⟨y, hy, h⟩ := Result.bind_eq_ok h
      obtain ⟨rest, hrest, h⟩ := Result.bind_eq_ok h
      cases h
      intro z hz
      cases List.mem_cons.mp hz with
      | inl heq => exact ⟨x, by simp, heq ▸ hy⟩
      | inr hmem =>
          obtain ⟨w, hw, hz⟩ := ih hrest z hmem
          exact ⟨w, by simp [hw], hz⟩

theorem manifestLinkEntries_head {title entry : String} {deps : BTreeMap String String}
    {entries : List String} (h : manifestLinkEntries S input title graph deps = .ok entries)
    (hentry : entry ∈ entries) : ∃ rest, entry = title ++ rest := by
  obtain ⟨found, hfound, h⟩ := Result.bind_eq_ok h
  cases h
  obtain ⟨dep, -, hdep⟩ := mapM_ok_mem hfound _ (List.reduceOption_mem_iff.mp hentry)
  exact linkEntry_head hdep

/-- No link line begins like a package line. -/
theorem projectLinkEntries_head {includeDev : Bool} {entries : List String}
    (h : projectLinkEntries S input project graph includeDev = .ok entries) :
    ∀ entry ∈ entries, ∃ c rest, entry.toList = c :: rest ∧ c ≠ 'p' := by
  have hsection : ∀ (entry title : String) (c : Char), (∃ rest, entry = title ++ rest) →
      title.toList.head? = some c → c ≠ 'p' →
        ∃ c rest, entry.toList = c :: rest ∧ c ≠ 'p' := by
    rintro _ title c ⟨rest, rfl⟩ htitle hne
    obtain ⟨more, hmore⟩ := List.head?_eq_some_iff.mp htitle
    exact ⟨c, more ++ rest.toList, by simp [hmore], hne⟩
  obtain ⟨deps, hdeps, h⟩ := Result.bind_eq_ok h
  obtain ⟨devDeps, hdev, h⟩ := Result.bind_eq_ok h
  obtain ⟨optionalDeps, hoptional, h⟩ := Result.bind_eq_ok h
  cases h
  intro entry hentry
  simp only [List.append_assoc, List.mem_append] at hentry
  rcases hentry with hmem | hmem | hmem
  · exact hsection entry _ 'd' (manifestLinkEntries_head hdeps hmem) (by decide) (by decide)
  · cases includeDev with
    | true =>
        exact hsection entry _ 'd' (manifestLinkEntries_head hdev hmem) (by decide) (by decide)
    | false =>
        cases hdev
        cases hmem
  · exact hsection entry _ 'o' (manifestLinkEntries_head hoptional hmem) (by decide) (by decide)

theorem linesText_append (xs ys : List String) :
    linesText (xs ++ ys) = linesText xs ++ linesText ys := by
  simp [linesText]

theorem head_linesText_cons {entry : String} {c : Char} {rest : List Char}
    (h : entry.toList = c :: rest) (entries : List String) :
    (linesText (entry :: entries)).toList.head? = some c := by
  simp [linesText, h]

/-- A graph without packages has no package, peer or hoist line. -/
theorem projectLayoutEntries_of_empty {includeDev : Bool} {links : List String}
    (hempty : graph.packages = ∅)
    (hlinks : projectLinkEntries S input project graph includeDev = .ok links) :
    projectLayoutEntries S input project graph includeDev =
      .ok (["kind=project", "hoisting=" ++ hoistingLabel (layoutMode input)] ++ links) := by
  have hstore : virtualStoreEntries S input [project] graph = [] := by
    rw [virtualStoreEntries, hempty]
    simp
  have hhoist : hoistEntries graph (layoutMode input) = [] := by
    rw [hoistEntries, toHoist, hempty]
    simp
  rw [projectLayoutEntries, hlinks, hstore, hhoist, List.append_nil]
  change Except.ok _ = _
  rw [List.append_nil]

/-- The layout lines of a graph without packages differ from those of every
graph with one, already in the first letter after the header. -/
theorem packages_empty_of_layoutHash_eq {G₁ G₂ : ResolutionGraph} {includeDev : Bool}
    {hash : String} (h₁ : buildProjectLayoutHash H S input project G₁ includeDev = .ok hash)
    (h₂ : buildProjectLayoutHash H S input project G₂ includeDev = .ok hash)
    (hempty : G₁.packages = ∅) : G₂.packages = ∅ := by
  obtain ⟨entries₁, he₁, h₁⟩ := Result.bind_eq_ok h₁
  obtain ⟨entries₂, he₂, h₂⟩ := Result.bind_eq_ok h₂
  obtain ⟨links₁, hl₁, -⟩ := Result.bind_eq_ok he₁
  obtain ⟨links₂, -, he₂⟩ := Result.bind_eq_ok he₂
  rw [projectLayoutEntries_of_empty hempty hl₁] at he₁
  cases he₁
  cases he₂
  have htext := H.injective ((Except.ok.inj h₁).trans (Except.ok.inj h₂).symm)
  by_contra hne
  obtain ⟨id, rest, hkeys⟩ : ∃ id rest, G₂.packages.keys = id :: rest := by
    cases hkeys : G₂.packages.keys with
    | nil =>
        refine absurd ?_ hne
        rw [Std.ExtTreeMap.eq_empty_iff_size_eq_zero, ← Std.ExtTreeMap.length_keys, hkeys]
        rfl
    | cons id rest => exact ⟨id, rest, rfl⟩
  have hstore : ∃ line lines, virtualStoreEntries S input [project] G₂ =
      ("package:" ++ line) :: lines := by
    rw [virtualStoreEntries, hkeys, List.flatMap_cons, packageEntries, List.cons_append]
    simp only [String.append_assoc]
    exact ⟨_, _, rfl⟩
  obtain ⟨line, lines, hstore⟩ := hstore
  rw [hstore, List.append_assoc, List.append_assoc, linesText_append, linesText_append] at htext
  have hlist := congrArg String.toList htext
  rw [String.toList_append, String.toList_append] at hlist
  have hhead := congrArg List.head? (List.append_cancel_left hlist)
  rw [List.cons_append, head_linesText_cons (c := 'p') (by simp; rfl)] at hhead
  cases links₁ with
  | nil => simp [linesText] at hhead
  | cons link links =>
      obtain ⟨c, more, hlink, hc⟩ := projectLinkEntries_head hl₁ link List.mem_cons_self
      rw [head_linesText_cons hlink] at hhead
      exact hc (Option.some.inj hhead)

end Empty

theorem root_empty_of_rooted {graph : ResolutionGraph} (h : Rooted graph)
    (hempty : graph.packages = ∅) (name : String) : graph.root.dependencies[name]? = none := by
  rw [Option.eq_none_iff_forall_ne_some]
  intro dep hdep
  have hmem := h name dep hdep
  rw [hempty] at hmem
  exact Std.ExtTreeMap.not_mem_empty hmem

/-- A hot graph is the installed one exactly when nothing can be hot, because
the install is forced or the layout is stale, or when nothing was installed. -/
theorem hot_same_resolution_iff {input : LayoutInput} {project : Project} {G₁ : ResolutionGraph}
    {checks : List LayoutCheck} {force : Bool} (hrooted : Rooted G₁)
    (hfiles : Installed H S input project G₁ checks) :
    (∀ G₂, Rooted G₂ → (detectFromGraph H S input project G₂ force none).scenario = .hot →
        SameResolution G₁ G₂) ↔
      force = true ∨ checks.all (LayoutCheck.validate input.files) = false ∨
        G₁.packages = ∅ := by
  constructor
  · intro hsound
    by_contra hcondition
    simp only [not_or, Bool.not_eq_true, Bool.not_eq_false] at hcondition
    obtain ⟨hforce, hchecks, hpackages⟩ := hcondition
    refine not_same_flipIntegrity hpackages (hsound (withIntegrity flipIntegrity G₁)
      (rooted_withIntegrity _ _ hrooted) ((detectFromGraph_hot_iff hfiles).mpr ?_))
    exact ⟨hforce, (lockfileText_withIntegrity _ _).symm, hchecks,
      buildProjectLayoutHash_withIntegrity _ _ _ _ _⟩
  · intro hcondition G₂ hrooted₂ hhot
    obtain ⟨hforce, -, hchecks, hlayout⟩ := (detectFromGraph_hot_iff hfiles).mp hhot
    rcases hcondition with hforced | hstale | hempty
    · rw [hforce] at hforced
      cases hforced
    · rw [hchecks] at hstale
      cases hstale
    · obtain ⟨_, _, _, state, hstate, -⟩ := hfiles.layout
      obtain ⟨hash, hhash, -⟩ := Result.bind_eq_ok hstate
      have hempty₂ := packages_empty_of_layoutHash_eq hhash (hlayout.trans hhash) hempty
      refine ⟨by rw [hempty, hempty₂], ?_, ?_⟩
      · intro id p q hp
        rw [hempty, Std.ExtTreeMap.getElem?_empty] at hp
        cases hp
      · intro name
        rw [root_empty_of_rooted hrooted hempty, root_empty_of_rooted hrooted₂ hempty₂]

section Examples

def appManifest : Manifest :=
  { Manifest.empty with dependencies := BTreeMap.collect [("a", "^1.0.0")] }

def appProject : Project := ⟨"/app", "/app/package.json", appManifest⟩

def plainConfig : SnpmConfig := ⟨.none, ∅, ∅, "/data", none, false, "^"⟩

/-- The disk after an install of a graph with the given layout lines. -/
def installedInput (H : Digest.Hash) (graph : ResolutionGraph) (lines : List String) :
    LayoutInput where
  config := plainConfig
  workspace := none
  files := { emptyView with
    read := fun path =>
      if path = integrityPath appProject.root then
        .ok (integrityContent ⟨computeLockfileHash H graph, noPatchHash⟩)
      else .error "No such file or directory (os error 2)"
    installState := fun _ => some ⟨installStateVersion, ⟨"/app/snpm-lock.yaml", 100, 1, 0⟩,
      rootSpecsHash H appManifest.dependencies ∅, graph, ⟨hashEntries H lines, []⟩⟩ }

theorem installed_installedInput {graph : ResolutionGraph} {lines : List String}
    (h : projectLayoutEntries S (installedInput H graph lines) appProject graph true = .ok lines) :
    Installed H S (installedInput H graph lines) appProject graph [] where
  integrity := by
    refine ⟨⟨computeLockfileHash H graph, noPatchHash⟩, ?_, by simp [installedInput]⟩
    have hpatches : (getPatchedDependencies appProject).isEmpty = true := by decide +kernel
    simp only [buildProjectIntegrityState, computeProjectPatchHash, hpatches, if_true, bind,
      Except.bind]
  layout := by
    refine ⟨⟨"/app/snpm-lock.yaml", 100, 1, 0⟩, appManifest.dependencies, ∅, _, ?_, rfl⟩
    simp only [projectInstallState, buildProjectLayoutHash, h, bind, Except.bind]

def nothingInstalled : ResolutionGraph := ⟨⟨∅⟩, ∅⟩

/-- After an install of nothing, only an empty graph is hot. -/
theorem hot_after_empty_install :
    Rooted nothingInstalled ∧
      ∀ G₂, Rooted G₂ →
        (detectFromGraph Digest.unaryHash releaseCrate
          (installedInput Digest.unaryHash nothingInstalled ["kind=project", "hoisting=none"])
          appProject G₂ false none).scenario = .hot →
          SameResolution nothingInstalled G₂ := by
  have hrooted : Rooted nothingInstalled := by
    intro name dep hdep
    simp [nothingInstalled] at hdep
  exact ⟨hrooted, (hot_same_resolution_iff hrooted
    (installed_installedInput (by decide +kernel))).mpr (.inr (.inr rfl))⟩

def changedIntegrity : ResolutionGraph := withIntegrity flipIntegrity onePackage

/-- The lockfile lost the integrity value of its package, and the install is
still reported as up to date. -/
theorem hot_for_changed_integrity :
    ¬ ∀ (input : LayoutInput) (project : Project) (G₁ G₂ : ResolutionGraph)
        (checks : List LayoutCheck), Rooted G₁ → Rooted G₂ →
        Installed Digest.unaryHash releaseCrate input project G₁ checks →
        (detectFromGraph Digest.unaryHash releaseCrate input project G₂ false none).scenario = .hot →
        SameResolution G₁ G₂ := by
  intro hclaim
  have hrooted : Rooted onePackage := by
    intro name dep hdep
    have hroots : ∀ r ∈ onePackage.root.dependencies.toList, r.2.resolved ∈ onePackage.packages := by
      decide +kernel
    exact hroots (name, dep) (Std.ExtTreeMap.mem_toList_iff_getElem?_eq_some.mpr hdep)
  have hfiles : Installed Digest.unaryHash releaseCrate
      (installedInput Digest.unaryHash onePackage ["kind=project", "hoisting=none",
        "package:shared:a@1.0.0", "dependencies:external:a=a@1.0.0"]) appProject onePackage [] :=
    installed_installedInput (by decide +kernel)
  refine not_same_flipIntegrity (by decide +kernel) (hclaim _ _ _ changedIntegrity _ hrooted
    (rooted_withIntegrity _ _ hrooted) hfiles ((detectFromGraph_hot_iff hfiles).mpr ?_))
  exact ⟨rfl, (lockfileText_withIntegrity _ _).symm, rfl,
    buildProjectLayoutHash_withIntegrity _ _ _ _ _⟩

end Examples

end Snpm.Install
