import Mathlib
import Snpm.Install.InstallState
import Snpm.Library.Framing
import Snpm.Lockfile.RoundTrip
import Snpm.Resolve.Root

/-!
Two tests of whether recorded root specs are still those of the manifest: the
lockfile is compared entry by entry, the install records by a digest of the two
sections. They differ on roots that change their section.
-/
namespace Snpm.Install

/-- No name or range of the map contains a NUL. -/
def NulFree (specs : BTreeMap String String) : Prop :=
  ∀ (name spec : String), specs[name]? = some spec → '\x00' ∉ name.toList ∧ '\x00' ∉ spec.toList

section Digest

/-- The NUL-terminated fields of a section. -/
def specFields (kind : String) (specs : List (String × String)) : List (List Char) :=
  specs.flatMap fun r => [kind.toList, r.1.toList, r.2.toList]

theorem specFields_cons (kind : String) (r : String × String) (specs : List (String × String)) :
    specFields kind (r :: specs) =
      kind.toList :: r.1.toList :: r.2.toList :: specFields kind specs := rfl

theorem toList_join_specText (kind : String) (specs : List (String × String)) :
    (String.join (specs.map (specText kind))).toList =
      Framing.frame '\x00' (specFields kind specs) := by
  induction specs with
  | nil => rfl
  | cons r specs ih =>
      rw [List.map_cons, String.join_cons, String.toList_append, ih, specFields_cons]
      simp [specText]

theorem specFields_free {kind : String} (hkind : '\x00' ∉ kind.toList)
    {specs : BTreeMap String String} (h : NulFree specs) :
    Framing.Free '\x00' (specFields kind specs.toList) := by
  intro field hfield
  obtain ⟨r, hr, hfield⟩ := List.mem_flatMap.mp hfield
  obtain ⟨hname, hspec⟩ := h r.1 r.2 (Std.ExtTreeMap.mem_toList_iff_getElem?_eq_some.mp hr)
  simp only [List.mem_cons, List.not_mem_nil, or_false] at hfield
  rcases hfield with rfl | rfl | rfl
  · exact hkind
  · exact hname
  · exact hspec

theorem specFields_injective {kind : String} {specs specs' : List (String × String)}
    (h : specFields kind specs = specFields kind specs') : specs = specs' := by
  induction specs generalizing specs' with
  | nil =>
      cases specs' with
      | nil => rfl
      | cons r' specs' => cases h
  | cons r specs ih =>
      cases specs' with
      | nil => cases h
      | cons r' specs' =>
          simp only [specFields_cons, List.cons.injEq, true_and, String.toList_inj] at h
          rw [ih h.2.2, Prod.ext h.1 h.2.1]

theorem specFields_kind_ne {kind kind' : String} (hkind : kind ≠ kind')
    (r : String × String) (a b : List (String × String)) (rest : List (List Char)) :
    specFields kind' b ≠ specFields kind (r :: a) ++ rest := by
  intro h
  cases b with
  | nil => cases h
  | cons r' b =>
      simp only [specFields_cons, List.cons_append, List.cons.injEq, String.toList_inj] at h
      exact hkind h.1.symm

/-- The tag of a field triple tells where the second section begins. -/
theorem sections_injective {kind kind' : String} (hkind : kind ≠ kind')
    {a b a' b' : List (String × String)}
    (h : specFields kind a ++ specFields kind' b = specFields kind a' ++ specFields kind' b') :
    a = a' ∧ b = b' := by
  induction a generalizing a' with
  | nil =>
      cases a' with
      | nil => exact ⟨rfl, specFields_injective h⟩
      | cons r' a' => exact absurd h (specFields_kind_ne hkind r' a' b _)
  | cons r a ih =>
      cases a' with
      | nil => exact absurd h.symm (specFields_kind_ne hkind r a b' _)
      | cons r' a' =>
          simp only [specFields_cons, List.cons_append, List.cons.injEq, true_and,
            String.toList_inj] at h
          obtain ⟨hname, hspec, hrest⟩ := h
          obtain ⟨ha, hb⟩ := ih hrest
          rw [ha, Prod.ext hname hspec]
          exact ⟨rfl, hb⟩

/-- The digest tells root specs apart when no text contains the separator. -/
theorem rootSpecsHash_eq_iff (H : Digest.Hash) {required optional required' optional' :
    BTreeMap String String} (hr : NulFree required) (ho : NulFree optional)
    (hr' : NulFree required') (ho' : NulFree optional') :
    rootSpecsHash H required' optional' = rootSpecsHash H required optional ↔
      required' = required ∧ optional' = optional := by
  constructor
  · intro h
    have htext := congrArg String.toList (H.injective h)
    rw [String.toList_append, String.toList_append, toList_join_specText, toList_join_specText,
      toList_join_specText, toList_join_specText, ← Framing.frame_append,
      ← Framing.frame_append] at htext
    have hfree : ∀ {r o : BTreeMap String String}, NulFree r → NulFree o →
        Framing.Free '\x00' (specFields "required" r.toList ++ specFields "optional" o.toList) := by
      intro r o hr ho
      rw [Framing.free_append]
      exact ⟨specFields_free (by decide) hr, specFields_free (by decide) ho⟩
    have hfields := Framing.frame_injective (hfree hr' ho') (hfree hr ho) htext
    obtain ⟨hreq, hopt⟩ := sections_injective (by decide) hfields
    exact ⟨Std.ExtTreeMap.toList_inj.mp hreq, Std.ExtTreeMap.toList_inj.mp hopt⟩
  · rintro ⟨rfl, rfl⟩
    rfl

end Digest

section Agreement

variable {required optional : BTreeMap String String} {graph : ResolutionGraph}

/-- The roots of the graph are what resolving the two sections gave; an
optional declaration takes the place of a required one. -/
def ResolvedFor (required optional : BTreeMap String String) (graph : ResolutionGraph) : Prop :=
  ∃ resolvePackage, Resolve.resolveRootDependencies (required ∪ optional)
    (.ofList optional.keys compare) resolvePackage = .ok graph.root

theorem contains_optionalNames (name : String) :
    (Std.ExtTreeSet.ofList optional.keys compare).contains name = true ↔ name ∈ optional := by
  rw [Std.ExtTreeSet.contains_ofList, List.contains_iff_mem, Std.ExtTreeMap.mem_keys]

/-- The entry of a declared root has the declared range; it is optional when
the root is, and only an optional one can lack its version. -/
theorem lockEntry_of_declared (hgraph : ResolvedFor required optional graph) {name spec : String}
    (hname : (required ∪ optional)[name]? = some spec) :
    ∃ dep, (Lockfile.ofGraph graph optional).root.dependencies[name]? = some dep ∧
      dep.requested = spec ∧ dep.optional = optional.contains name ∧
      (name ∉ optional → dep.version.isSome) := by
  obtain ⟨resolvePackage, hroot⟩ := hgraph
  rw [Lockfile.ofGraph, Lockfile.getElem?_buildRootDependencies]
  rcases (Resolve.root_of_resolveRootDependencies hroot name).2 spec hname with
    ⟨id, -, hroot⟩ | ⟨hoptional, hroot⟩
  · rw [hroot]
    exact ⟨_, rfl, rfl, rfl, fun _ => rfl⟩
  · rw [contains_optionalNames] at hoptional
    have hspec : optional[name]? = some spec := by
      rw [Std.ExtTreeMap.getElem?_union] at hname
      rw [Std.ExtTreeMap.mem_iff_isSome_getElem?, Option.isSome_iff_exists] at hoptional
      obtain ⟨spec', hspec'⟩ := hoptional
      rw [hspec', Option.some_or] at hname
      rw [hspec', hname]
    rw [hroot, hspec]
    exact ⟨_, rfl, rfl, (Std.ExtTreeMap.mem_iff_contains.mp hoptional).symm,
      fun h => absurd hoptional h⟩

theorem lockEntry_of_undeclared (hgraph : ResolvedFor required optional graph) {name : String}
    (hname : (required ∪ optional)[name]? = none) :
    (Lockfile.ofGraph graph optional).root.dependencies[name]? = none := by
  obtain ⟨resolvePackage, hroot⟩ := hgraph
  have hnone := (Resolve.root_of_resolveRootDependencies hroot name).1 hname
  rw [Std.ExtTreeMap.getElem?_union, Option.or_eq_none_iff] at hname
  rw [Lockfile.ofGraph, Lockfile.getElem?_buildRootDependencies, hnone, hname.1]
  rfl

theorem size_lockRoots (hgraph : ResolvedFor required optional graph) :
    (Lockfile.ofGraph graph optional).root.dependencies.size = (required ∪ optional).size := by
  apply BTreeMap.size_eq_of_mem_iff
  intro name
  rw [Std.ExtTreeMap.mem_iff_isSome_getElem?, Std.ExtTreeMap.mem_iff_isSome_getElem?]
  cases hname : (required ∪ optional)[name]? with
  | none => simp [lockEntry_of_undeclared hgraph hname]
  | some spec =>
      obtain ⟨dep, hdep, -⟩ := lockEntry_of_declared hgraph hname
      simp [hdep]

theorem requiredMatches_iff (hgraph : ResolvedFor required optional graph) (name spec : String) :
    Lockfile.requiredMatches (Lockfile.ofGraph graph optional) (name, spec) = true ↔
      required[name]? = some spec ∧ name ∉ optional := by
  rw [Lockfile.requiredMatches]
  cases hname : (required ∪ optional)[name]? with
  | none =>
      rw [lockEntry_of_undeclared hgraph hname]
      rw [Std.ExtTreeMap.getElem?_union, Option.or_eq_none_iff] at hname
      simp [hname.2]
  | some declared =>
      obtain ⟨dep, hdep, hrequested, hoptional, hversion⟩ := lockEntry_of_declared hgraph hname
      simp only [hdep, hrequested, hoptional, Bool.and_eq_true, Bool.not_eq_true',
        beq_iff_eq]
      rw [← Bool.not_eq_true, ← Std.ExtTreeMap.mem_iff_contains]
      constructor
      · rintro ⟨⟨rfl, -⟩, hnot⟩
        rw [Std.ExtTreeMap.getElem?_union, Std.ExtTreeMap.getElem?_eq_none hnot,
          Option.none_or] at hname
        exact ⟨hname, hnot⟩
      · rintro ⟨hspec, hnot⟩
        rw [Std.ExtTreeMap.getElem?_union, Std.ExtTreeMap.getElem?_eq_none hnot,
          Option.none_or, hspec, Option.some.injEq] at hname
        exact ⟨⟨hname.symm, hversion hnot⟩, hnot⟩

theorem optionalMatches_iff (hgraph : ResolvedFor required optional graph) (name spec : String) :
    Lockfile.optionalMatches (Lockfile.ofGraph graph optional) (name, spec) = true ↔
      (required ∪ optional)[name]? = some spec := by
  rw [Lockfile.optionalMatches]
  cases hname : (required ∪ optional)[name]? with
  | none =>
      rw [lockEntry_of_undeclared hgraph hname]
      simp
  | some declared =>
      obtain ⟨dep, hdep, hrequested, -⟩ := lockEntry_of_declared hgraph hname
      simp [hdep, hrequested]

/-- Every new required root was a required root with this range, every new
optional root was a root with this range, and there are as many as before: at
most, required roots have become optional. -/
structure OnlyMoved (required optional required' optional' : BTreeMap String String) : Prop where
  required_kept : ∀ (name spec : String), required'[name]? = some spec →
    required[name]? = some spec ∧ name ∉ optional
  optional_kept : ∀ (name spec : String), optional'[name]? = some spec →
    (required ∪ optional)[name]? = some spec
  count : (required ∪ optional).size = required'.size + optional'.size

theorem all_toList_iff {specs : BTreeMap String String} {p : String × String → Bool} :
    specs.toList.all p = true ↔ ∀ (name spec : String), specs[name]? = some spec →
      p (name, spec) = true := by
  rw [List.all_eq_true]
  constructor
  · exact fun h name spec hspec =>
      h _ (Std.ExtTreeMap.mem_toList_iff_getElem?_eq_some.mpr hspec)
  · exact fun h r hr => h r.1 r.2 (Std.ExtTreeMap.mem_toList_iff_getElem?_eq_some.mp hr)

/-- No root is in both sections. -/
def Sectioned (required optional : BTreeMap String String) : Prop :=
  ∀ name ∈ required, name ∉ optional

/-- A lockfile matches sections without a common name when its roots are theirs
and every entry matches. -/
theorem rootSpecsMatch_iff_of_sectioned {lockfile : Lockfile}
    (hsections : Sectioned required optional) :
    lockfile.rootSpecsMatch required optional = true ↔
      (∀ name ∈ lockfile.root.dependencies, name ∈ required ∪ optional) ∧
        (∀ (name spec : String), required[name]? = some spec →
          lockfile.requiredMatches (name, spec) = true) ∧
        ∀ (name spec : String), optional[name]? = some spec →
          lockfile.optionalMatches (name, spec) = true := by
  rw [Lockfile.rootSpecsMatch, Bool.and_eq_true, Bool.and_eq_true, beq_iff_eq, all_toList_iff,
    all_toList_iff, and_assoc, ← Std.ExtTreeMap.size_union_of_not_mem hsections]
  have hsub (hrequired : ∀ (name spec : String), required[name]? = some spec →
      lockfile.requiredMatches (name, spec) = true)
      (hoptional : ∀ (name spec : String), optional[name]? = some spec →
        lockfile.optionalMatches (name, spec) = true) :
      ∀ name ∈ required ∪ optional, name ∈ lockfile.root.dependencies := by
    intro name hname
    rw [Std.ExtTreeMap.mem_union_iff, BTreeMap.mem_iff_exists, BTreeMap.mem_iff_exists] at hname
    by_contra hnot
    have hnone := Std.ExtTreeMap.getElem?_eq_none hnot
    rcases hname with ⟨spec, hspec⟩ | ⟨spec, hspec⟩
    · have hmatch := hrequired name spec hspec
      rw [Lockfile.requiredMatches, hnone] at hmatch
      cases hmatch
    · have hmatch := hoptional name spec hspec
      rw [Lockfile.optionalMatches, hnone] at hmatch
      cases hmatch
  constructor
  · rintro ⟨hsize, hrequired, hoptional⟩
    exact ⟨fun name hname => BTreeMap.mem_of_size_le (hsub hrequired hoptional) hsize.le hname,
      hrequired, hoptional⟩
  · rintro ⟨hnames, hrequired, hoptional⟩
    exact ⟨BTreeMap.size_eq_of_mem_iff fun name =>
      ⟨hnames name, hsub hrequired hoptional name⟩, hrequired, hoptional⟩

theorem requiredMatches_some {lockfile : Lockfile} {name spec : String}
    (h : lockfile.requiredMatches (name, spec) = true) :
    ∃ dep, lockfile.root.dependencies[name]? = some dep ∧ dep.requested = spec ∧
      dep.version.isSome ∧ dep.optional = false := by
  unfold Lockfile.requiredMatches at h
  split at h
  next => cases h
  next dep hdep =>
      rw [Bool.and_eq_true, Bool.and_eq_true, beq_iff_eq, Bool.not_eq_true'] at h
      exact ⟨dep, hdep, h.1.1, h.1.2, h.2⟩

theorem optionalMatches_some {lockfile : Lockfile} {name spec : String}
    (h : lockfile.optionalMatches (name, spec) = true) :
    ∃ dep, lockfile.root.dependencies[name]? = some dep ∧ dep.requested = spec := by
  unfold Lockfile.optionalMatches at h
  split at h
  next => cases h
  next dep hdep => exact ⟨dep, hdep, beq_iff_eq.mp h⟩

/-- The names and ranges of the roots can be read off a lockfile that matches. -/
theorem requested_of_rootSpecsMatch {lockfile : Lockfile}
    (hsections : Sectioned required optional)
    (h : lockfile.rootSpecsMatch required optional = true) (name : String) :
    (required ∪ optional)[name]? = (lockfile.root.dependencies[name]?).map (·.requested) := by
  obtain ⟨hnames, hrequired, hoptional⟩ := (rootSpecsMatch_iff_of_sectioned hsections).mp h
  rw [Std.ExtTreeMap.getElem?_union]
  cases hspec : optional[name]? with
  | some spec =>
      obtain ⟨dep, hdep, hrequested⟩ := optionalMatches_some (hoptional name spec hspec)
      rw [hdep, Option.some_or, Option.map_some, hrequested]
  | none =>
      rw [Option.none_or]
      cases hspec' : required[name]? with
      | some spec =>
          obtain ⟨dep, hdep, hrequested, -⟩ := requiredMatches_some (hrequired name spec hspec')
          rw [hdep, Option.map_some, hrequested]
      | none =>
          cases hdep : lockfile.root.dependencies[name]? with
          | none => rfl
          | some dep =>
              have hname := hnames name (BTreeMap.mem_iff_exists.mpr ⟨dep, hdep⟩)
              rw [BTreeMap.mem_iff_exists, Std.ExtTreeMap.getElem?_union, hspec, hspec'] at hname
              obtain ⟨_, hname⟩ := hname
              cases hname

/-- A lockfile that matches goes on matching when it is written again from its
own graph. -/
theorem rootSpecsMatch_rewritten {lockfile : Lockfile} (hsections : Sectioned required optional)
    (h : lockfile.rootSpecsMatch required optional = true) :
    (Lockfile.ofGraph lockfile.toGraph optional).rootSpecsMatch required optional = true := by
  have hnames := ((rootSpecsMatch_iff_of_sectioned hsections).mp h).1
  obtain ⟨-, hrequired, hoptional⟩ := (rootSpecsMatch_iff_of_sectioned hsections).mp h
  refine (rootSpecsMatch_iff_of_sectioned hsections).mpr ⟨fun name hname => ?_,
    fun name spec hspec => ?_, fun name spec hspec => ?_⟩
  · rw [BTreeMap.mem_iff_exists, Lockfile.ofGraph, Lockfile.getElem?_buildRootDependencies,
      Lockfile.getElem?_root_toGraph] at hname
    cases hdep : lockfile.root.dependencies[name]? with
    | some dep => exact hnames name (BTreeMap.mem_iff_exists.mpr ⟨dep, hdep⟩)
    | none =>
        rw [hdep] at hname
        cases hspec : optional[name]? with
        | some spec =>
            rw [Std.ExtTreeMap.mem_union_iff]
            exact .inr (BTreeMap.mem_iff_exists.mpr ⟨spec, hspec⟩)
        | none =>
            rw [hspec] at hname
            obtain ⟨_, hname⟩ := hname
            cases hname
  · obtain ⟨dep, hdep, hrequested, hversion, -⟩ := requiredMatches_some (hrequired name spec hspec)
    obtain ⟨version, hversion⟩ := Option.isSome_iff_exists.mp hversion
    have hnot := hsections name (BTreeMap.mem_iff_exists.mpr ⟨spec, hspec⟩)
    rw [Std.ExtTreeMap.mem_iff_contains, Bool.not_eq_true] at hnot
    rw [Lockfile.requiredMatches, Lockfile.ofGraph, Lockfile.getElem?_buildRootDependencies,
      Lockfile.getElem?_root_toGraph, hdep, Option.bind_some, Lockfile.graphRoot, hversion]
    simp [Lockfile.resolvedRoot, hrequested, hnot]
  · obtain ⟨dep, hdep, hrequested⟩ := optionalMatches_some (hoptional name spec hspec)
    rw [Lockfile.optionalMatches, Lockfile.ofGraph, Lockfile.getElem?_buildRootDependencies,
      Lockfile.getElem?_root_toGraph, hdep, Option.bind_some, Lockfile.graphRoot, hspec]
    cases dep.version with
    | some version => simp [Lockfile.resolvedRoot, hrequested]
    | none => simp [Lockfile.skippedRoot]

theorem rootSpecsMatch_iff (hgraph : ResolvedFor required optional graph)
    (required' optional' : BTreeMap String String) :
    Lockfile.rootSpecsMatch (Lockfile.ofGraph graph optional) required' optional' = true ↔
      OnlyMoved required optional required' optional' := by
  rw [Lockfile.rootSpecsMatch, Bool.and_eq_true, Bool.and_eq_true, beq_iff_eq,
    size_lockRoots hgraph, all_toList_iff, all_toList_iff]
  simp only [requiredMatches_iff hgraph, optionalMatches_iff hgraph]
  exact ⟨fun h => ⟨h.1.2, h.2, h.1.1⟩, fun h => ⟨⟨h.count, h.required_kept⟩, h.optional_kept⟩⟩

theorem onlyMoved_self :
    OnlyMoved required optional required optional ↔ ∀ name ∈ required, name ∉ optional := by
  constructor
  · intro h name hname
    rw [Std.ExtTreeMap.mem_iff_isSome_getElem?, Option.isSome_iff_exists] at hname
    obtain ⟨spec, hspec⟩ := hname
    exact (h.required_kept name spec hspec).2
  · intro h
    constructor
    · intro name spec hspec
      refine ⟨hspec, h name ?_⟩
      rw [Std.ExtTreeMap.mem_iff_isSome_getElem?, hspec]
      rfl
    · intro name spec hspec
      rw [Std.ExtTreeMap.getElem?_union, hspec, Option.some_or]
    · exact Std.ExtTreeMap.size_union_of_not_mem h

/-- Unchanged specs have no name in both sections, and changed ones are changed
in more than the section of some required roots. -/
structure SectionsTold (required optional required' optional' : BTreeMap String String) :
    Prop where
  unchanged : required' = required ∧ optional' = optional → ∀ name ∈ required, name ∉ optional
  changed : ¬(required' = required ∧ optional' = optional) →
    ¬OnlyMoved required optional required' optional'

/-- The lockfile test and the digest test of the root specs agree exactly when
the specs are told apart by more than their sections. -/
theorem rootSpecsMatch_iff_hash (H : Digest.Hash) {required' optional' : BTreeMap String String}
    (hgraph : ResolvedFor required optional graph) (hr : NulFree required)
    (ho : NulFree optional) (hr' : NulFree required') (ho' : NulFree optional') :
    (Lockfile.rootSpecsMatch (Lockfile.ofGraph graph optional) required' optional' = true ↔
        rootSpecsHash H required' optional' = rootSpecsHash H required optional) ↔
      SectionsTold required optional required' optional' := by
  rw [rootSpecsMatch_iff hgraph, rootSpecsHash_eq_iff H hr ho hr' ho']
  constructor
  · intro h
    refine ⟨fun hsame => ?_, fun hchanged hmoved => hchanged (h.mp hmoved)⟩
    have hmoved := h.mpr hsame
    obtain ⟨rfl, rfl⟩ := hsame
    exact onlyMoved_self.mp hmoved
  · intro h
    constructor
    · intro hmoved
      by_contra hchanged
      exact h.changed hchanged hmoved
    · intro hsame
      have hdisjoint := h.unchanged hsame
      obtain ⟨rfl, rfl⟩ := hsame
      exact onlyMoved_self.mpr hdisjoint

end Agreement

def onlySpec : BTreeMap String String := BTreeMap.collect [("a", "1.0.0")]

theorem resolvedFor_onePackage : ResolvedFor onlySpec ∅ onePackage :=
  ⟨fun _ _ => .ok pkgA, by rfl⟩

theorem nulFree_of_toList {specs : BTreeMap String String}
    (h : ∀ r ∈ specs.toList, '\x00' ∉ r.1.toList ∧ '\x00' ∉ r.2.toList) : NulFree specs :=
  fun _ _ hspec => h _ (Std.ExtTreeMap.mem_toList_iff_getElem?_eq_some.mpr hspec)

theorem nulFree_onlySpec : NulFree onlySpec := nulFree_of_toList (by decide +kernel)

theorem nulFree_empty : NulFree ∅ := by
  intro name spec h
  rw [Std.ExtTreeMap.getElem?_empty] at h
  cases h

theorem rootSpecsMatch_iff_hash_unchanged :
    Lockfile.rootSpecsMatch (Lockfile.ofGraph onePackage ∅) onlySpec ∅ = true ↔
      rootSpecsHash Digest.unaryHash onlySpec ∅ = rootSpecsHash Digest.unaryHash onlySpec ∅ :=
  (rootSpecsMatch_iff_hash Digest.unaryHash resolvedFor_onePackage nulFree_onlySpec nulFree_empty
    nulFree_onlySpec nulFree_empty).mpr
      ⟨fun _ _ _ => Std.ExtTreeMap.not_mem_empty, fun h => absurd ⟨rfl, rfl⟩ h⟩

/-- A required root that is declared optional with its old range still matches
the lockfile, while the digest has changed. -/
theorem match_but_hash_differs :
    ResolvedFor onlySpec ∅ onePackage ∧
      ¬(Lockfile.rootSpecsMatch (Lockfile.ofGraph onePackage ∅) ∅ onlySpec = true ↔
        rootSpecsHash Digest.unaryHash ∅ onlySpec = rootSpecsHash Digest.unaryHash onlySpec ∅) := by
  refine ⟨resolvedFor_onePackage, fun h => ?_⟩
  have hmatch : Lockfile.rootSpecsMatch (Lockfile.ofGraph onePackage ∅) ∅ onlySpec = true := by
    decide +kernel
  have hsame := (rootSpecsHash_eq_iff Digest.unaryHash nulFree_onlySpec nulFree_empty
    nulFree_empty nulFree_onlySpec).mp (h.mp hmatch)
  have hne : ¬((∅ : BTreeMap String String) = onlySpec) := by
    decide +kernel
  exact hne hsame.1

end Snpm.Install
