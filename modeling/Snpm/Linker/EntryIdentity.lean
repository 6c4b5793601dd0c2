import Mathlib
import Snpm.Linker.EntryHash

/-!
What an entry hash says about an entry. Equal hashes in two graphs mean equal
hashed texts, and a hashed text can be read back into the package's data, its
edges and the hashes of the edges' targets. The reading breaks in two places:
a missing integrity is hashed like an empty one, and on a cycle through
several packages an edge carries the cut text of its target in place of the
target's hash. Both are shown to be reachable from every graph that has them.
-/
namespace Snpm.Linker

open MemoWalk

variable {H : Digest.Hash} {S : SemverCrate}

def EdgeKind.fields : EdgeKind → List String
  | .dependency => []
  | .peer => ["peer"]

def edgeFields (edge : Edge) (hash : String) : List String :=
  edge.kind.fields ++ [edge.name, edge.target.name, edge.target.version, hash]

def startFields (package : ResolvedPackage) (id : PackageId) : List String :=
  ["snpm-global-virtual-store-v2" ++ id.name, id.version, package.tarball,
    package.integrity.getD ""]

/-- Terminator-framed texts. -/
def frameText (fields : List String) : List Char :=
  Framing.frame '\x00' (fields.map String.toList)

theorem not_peer_lt_hash (H : Digest.Hash) (text : String) :
    compare "peer" (H.hex text) ≠ .lt := by
  intro h
  have hlt : "peer".toList < (H.hex text).toList :=
    String.lt_iff_toList_lt.mp (compare_lt_iff_lt.mp h)
  have hchars := H.alphabet text
  cases hhash : (H.hex text).toList with
  | nil => simp [hhash] at hlt
  | cons c cs =>
      have hc : c ∈ Digest.hexDigits := hchars c (by simp [hhash])
      rw [hhash, show "peer".toList = ['p', 'e', 'e', 'r'] from rfl,
        List.cons_lt_cons_iff] at hlt
      have hdigits : ∀ d ∈ Digest.hexDigits, d < 'p' := by simp [Digest.hexDigits]
      rcases hlt with hlt | ⟨heq, -⟩
      · exact lt_asymm hlt (hdigits c hc)
      · exact absurd heq (hdigits c hc).ne'

theorem hash_ne_peer (H : Digest.Hash) (text : String) : H.hex text ≠ "peer" := by
  intro h
  have hp : 'p' ∈ (H.hex text).toList := by simp [h]
  exact H.not_mem_of_not_digit text (by decide) hp

/-- Dependencies come first and in name order, then the peers. -/
def EdgeOrder (a b : Edge × String) : Prop :=
  (a.1.kind = .peer → b.1.kind = .peer) ∧
    (b.1.kind = .dependency → compare a.1.name b.1.name = .lt)

/-- A dependency cannot be read as the marker of a peer: the next field would
be a dependency name above the marker that is also a hash. -/
theorem not_dependency_eq_peer {a b : Edge × String} {as bs : List (Edge × String)}
    (ha : a.1.kind = .dependency) (hb : b.1.kind = .peer) (has : (a :: as).Pairwise EdgeOrder)
    (hhash : ∃ text, b.2 = H.hex text) :
    (a :: as).flatMap (fun p => edgeFields p.1 p.2) ≠
      (b :: bs).flatMap (fun p => edgeFields p.1 p.2) := by
  intro h
  obtain ⟨text, htext⟩ := hhash
  simp only [List.flatMap_cons, edgeFields, ha, hb, EdgeKind.fields, List.nil_append,
    List.cons_append, List.cons.injEq] at h
  obtain ⟨hname, -, -, -, hrest⟩ := h
  cases as with
  | nil => simp at hrest
  | cons c cs =>
      cases hc : c.1.kind with
      | dependency =>
          have hlt := (List.pairwise_cons.mp has).1 c (by simp)
          simp only [List.flatMap_cons, hc, List.nil_append, List.cons_append,
            List.cons.injEq] at hrest
          refine not_peer_lt_hash H text ?_
          rw [← hname, ← htext, ← hrest.1]
          exact hlt.2 hc
      | peer =>
          simp only [List.flatMap_cons, hc, List.cons_append, List.cons.injEq] at hrest
          exact hash_ne_peer H text (htext ▸ hrest.1.symm)

/-- The fields of ordered edges can be read back. -/
theorem edgeFields_injective {as bs : List (Edge × String)}
    (has : as.Pairwise EdgeOrder) (hbs : bs.Pairwise EdgeOrder)
    (hhas : ∀ p ∈ as, ∃ text, p.2 = H.hex text) (hhbs : ∀ p ∈ bs, ∃ text, p.2 = H.hex text)
    (h : as.flatMap (fun p => edgeFields p.1 p.2) = bs.flatMap fun p => edgeFields p.1 p.2) :
    as = bs := by
  induction as generalizing bs with
  | nil =>
      cases bs with
      | nil => rfl
      | cons b bs => simp [edgeFields] at h
  | cons a as ih =>
      cases bs with
      | nil => simp [edgeFields] at h
      | cons b bs =>
          obtain ⟨⟨ka, na, ⟨ta, va⟩⟩, ha⟩ := a
          obtain ⟨⟨kb, nb, ⟨tb, vb⟩⟩, hb⟩ := b
          cases ka with
          | dependency =>
              cases kb with
              | dependency =>
                  simp only [List.flatMap_cons, edgeFields, EdgeKind.fields, List.nil_append,
                    List.cons_append, List.cons.injEq] at h
                  obtain ⟨rfl, rfl, rfl, rfl, hrest⟩ := h
                  rw [ih has.of_cons hbs.of_cons (fun p hp => hhas p (by simp [hp]))
                    (fun p hp => hhbs p (by simp [hp])) hrest]
              | peer => exact absurd h (not_dependency_eq_peer rfl rfl has (hhbs _ (by simp)))
          | peer =>
              cases kb with
              | dependency =>
                  exact absurd h.symm (not_dependency_eq_peer rfl rfl hbs (hhas _ (by simp)))
              | peer =>
                  simp only [List.flatMap_cons, edgeFields, EdgeKind.fields,
                    List.cons_append, List.nil_append, List.cons.injEq, true_and] at h
                  obtain ⟨rfl, rfl, rfl, rfl, hrest⟩ := h
                  rw [ih has.of_cons hbs.of_cons (fun p hp => hhas p (by simp [hp]))
                    (fun p hp => hhbs p (by simp [hp])) hrest]

theorem edges_order (graph : ResolutionGraph) (id : PackageId) (vs : List String) :
    ((edges S graph id).zip vs).Pairwise EdgeOrder := by
  have hedges : (edges S graph id).Pairwise fun a b =>
      (a.kind = .peer → b.kind = .peer) ∧
        (b.kind = .dependency → compare a.name b.name = .lt) := by
    unfold edges
    split
    · exact .nil
    · rename_i package _
      refine List.pairwise_append.mpr ⟨?_, ?_, ?_⟩
      · refine List.pairwise_map.mpr (package.dependencies.ordered_keys_toList.imp ?_)
        intro a b hab
        exact ⟨nofun, fun _ => hab⟩
      · exact List.pairwise_map.mpr (List.pairwise_of_forall fun _ _ => ⟨fun _ => rfl, nofun⟩)
      · intro a ha b hb
        obtain ⟨_, -, rfl⟩ := List.mem_map.mp ha
        obtain ⟨_, -, rfl⟩ := List.mem_map.mp hb
        exact ⟨nofun, nofun⟩
  generalize edges S graph id = es at hedges
  induction es generalizing vs with
  | nil => simp
  | cons e es ih =>
      cases vs with
      | nil => simp
      | cons v vs =>
          obtain ⟨he, hes⟩ := List.pairwise_cons.mp hedges
          refine List.pairwise_cons.mpr ⟨?_, ih vs hes⟩
          intro p hp
          exact he p.1 (List.of_mem_zip hp).1

@[simp] theorem frameText_nil : frameText [] = [] := rfl

@[simp] theorem frameText_cons (field : String) (fields : List String) :
    frameText (field :: fields) = field.toList ++ '\x00' :: frameText fields := by
  simp [frameText]

@[simp] theorem frameText_append (left right : List String) :
    frameText (left ++ right) = frameText left ++ frameText right := by
  simp [frameText]

theorem gather_toList (graph : ResolutionGraph) (acc : String) (es : List Edge)
    (vs : List String) :
    ((entryWalk H S graph).gather acc es vs).toList =
      acc.toList ++ frameText ((es.zip vs).flatMap fun p => edgeFields p.1 p.2) := by
  simp only [Walk.gather]
  induction es.zip vs generalizing acc with
  | nil => simp
  | cons p ps ih =>
      rw [List.foldl_cons, ih, List.flatMap_cons, frameText_append, ← List.append_assoc]
      congr 1
      obtain ⟨⟨kind, name, target⟩, hash⟩ := p
      cases kind <;>
        simp [entryWalk, hashEdge, hashPackageId, edgeFields, EdgeKind.marker, EdgeKind.fields]

def NulFree (text : String) : Prop := '\x00' ∉ text.toList

theorem frameText_injective {fields fields' : List String} {tail tail' : List Char}
    (hfields : ∀ field ∈ fields, NulFree field) (hfields' : ∀ field ∈ fields', NulFree field)
    (htail : '\x00' ∉ tail) (htail' : '\x00' ∉ tail')
    (h : frameText fields ++ tail = frameText fields' ++ tail') :
    fields = fields' ∧ tail = tail' := by
  have hfree : ∀ {texts : List String}, (∀ field ∈ texts, NulFree field) →
      Framing.Free '\x00' (texts.map String.toList) := by
    intro texts htexts chars hchars
    obtain ⟨field, hfield, rfl⟩ := List.mem_map.mp hchars
    exact htexts field hfield
  obtain ⟨heq, rfl⟩ :=
    Framing.frame_tail_injective (hfree hfields) (hfree hfields') htail htail' h
  exact ⟨List.map_injective_iff.mpr (fun _ _ => String.toList_inj.mp) heq, rfl⟩

/-- A graph the linker can lay out: every edge ends in the graph, and no text
that is hashed contains the terminator. Names and versions are parts of
directory names, where that character cannot occur. -/
structure WellFormed (S : SemverCrate) (graph : ResolutionGraph) : Prop where
  closed : ∀ id, ∀ edge ∈ edges S graph id, edge.target ∈ graph.packages
  ids : ∀ id ∈ graph.packages, NulFree id.name ∧ NulFree id.version
  packages : ∀ (id : PackageId) (package : ResolvedPackage),
    graph.packages[id]? = some package →
      NulFree package.tarball ∧ NulFree (package.integrity.getD "")
  names : ∀ id, ∀ edge ∈ edges S graph id, NulFree edge.name

theorem wellFormed_iff (S : SemverCrate) (graph : ResolutionGraph) :
    WellFormed S graph ↔
      (∀ p ∈ graph.packages.toList, (NulFree p.1.name ∧ NulFree p.1.version) ∧
        NulFree p.2.tarball ∧ NulFree (p.2.integrity.getD "")) ∧
      ∀ id ∈ graph.packages.keys, ∀ edge ∈ edges S graph id,
        edge.target ∈ graph.packages ∧ NulFree edge.name := by
  constructor
  · intro h
    constructor
    · rintro ⟨id, package⟩ hp
      have hpackage := Std.ExtTreeMap.mem_toList_iff_getElem?_eq_some.mp hp
      exact ⟨h.ids id (Std.ExtTreeMap.mem_iff_isSome_getElem?.mpr (by simp [hpackage])),
        h.packages id package hpackage⟩
    · exact fun id _ edge hedge => ⟨h.closed id edge hedge, h.names id edge hedge⟩
  · rintro ⟨hpackages, hedges⟩
    constructor
    · exact fun id edge hedge => (hedges id (mem_keys_of_mem_edges hedge) edge hedge).1
    · intro id hid
      obtain ⟨package, hpackage⟩ := Option.isSome_iff_exists.mp
        (Std.ExtTreeMap.mem_iff_isSome_getElem?.mp hid)
      exact (hpackages (id, package)
        (Std.ExtTreeMap.mem_toList_iff_getElem?_eq_some.mpr hpackage)).1
    · intro id package hpackage
      exact (hpackages (id, package)
        (Std.ExtTreeMap.mem_toList_iff_getElem?_eq_some.mpr hpackage)).2
    · exact fun id edge hedge => (hedges id (mem_keys_of_mem_edges hedge) edge hedge).2

instance (text : String) : Decidable (NulFree text) :=
  inferInstanceAs (Decidable ('\x00' ∉ text.toList))

instance (S : SemverCrate) (graph : ResolutionGraph) : Decidable (WellFormed S graph) :=
  decidable_of_iff _ (wellFormed_iff S graph).symm

/-- Two graphs want the directory of a package wired alike. -/
structure SameWiring (H : Digest.Hash) (S : SemverCrate) (G₁ G₂ : ResolutionGraph)
    (id : PackageId) : Prop where
  tarball : (G₁.packages[id]?).map (·.tarball) = (G₂.packages[id]?).map (·.tarball)
  integrity : (G₁.packages[id]?).map (·.integrity) = (G₂.packages[id]?).map (·.integrity)
  dependencies :
    (G₁.packages[id]?).map (·.dependencies) = (G₂.packages[id]?).map (·.dependencies)
  peers : peersOf S G₁ id = peersOf S G₂ id
  targets : ∀ edge ∈ edges S G₁ id,
    (globalVirtualStoreEntryHashes H S G₁)[edge.target]? =
      (globalVirtualStoreEntryHashes H S G₂)[edge.target]?

/-- Every remembered hash is explained, and every package has one. -/
theorem entryHashes_explained (graph : ResolutionGraph) :
    Explained (entryWalk H S graph) (globalVirtualStoreEntryHashes H S graph) ∧
      ∀ id ∈ graph.packages, ∃ hash,
        (globalVirtualStoreEntryHashes H S graph)[id]? = some hash := by
  obtain ⟨s, hs⟩ := Option.isSome_iff_exists.mp (entryHashRun_isSome (H := H) (S := S) graph)
  have hrun := hs
  rw [entryHashRun_eq] at hrun
  obtain ⟨hexp, hkeys⟩ := visitAll_explained hrun (by simp) (explained_empty _)
  simp only [globalVirtualStoreEntryHashes, hs]
  exact ⟨hexp, fun id hid => hkeys id (Std.ExtTreeMap.mem_keys.mpr hid)⟩

/-- The text behind the remembered hash of a package. -/
theorem entryHash_text {graph : ResolutionGraph} {id : PackageId} {package : ResolvedPackage}
    {hash : String} (hpackage : graph.packages[id]? = some package)
    (hhash : (globalVirtualStoreEntryHashes H S graph)[id]? = some hash) :
    ∃ vs text, List.Forall₂
        (Token (entryWalk H S graph) (globalVirtualStoreEntryHashes H S graph) id)
        (edges S graph id) vs ∧
      hash = H.hex text ∧
      text.toList = frameText (startFields package id ++
        ((edges S graph id).zip vs).flatMap fun p => edgeFields p.1 p.2) := by
  obtain ⟨vs, hvs, rfl⟩ := (entryHashes_explained graph).1 id hash hhash
  refine ⟨vs, _, hvs, rfl, ?_⟩
  have hstart : ((entryWalk H S graph).start id).toList = frameText (startFields package id) := by
    simp [entryWalk, startText, hpackage, hashPackageId, startFields]
  rw [gather_toList, hstart, frameText_append]
  rfl

/-- Every token is some hash. -/
theorem token_hex {graph : ResolutionGraph} {id : PackageId} {edge : Edge} {hash : String}
    (h : Token (entryWalk H S graph) (globalVirtualStoreEntryHashes H S graph) id edge hash) :
    ∃ text, hash = H.hex text := by
  rcases h with h | ⟨rfl, -⟩
  · obtain ⟨vs, -, rfl⟩ := (entryHashes_explained graph).1 _ _ h
    exact ⟨_, rfl⟩
  · exact ⟨_, rfl⟩

theorem NulFree.append {left right : String} (hl : NulFree left) (hr : NulFree right) :
    NulFree (left ++ right) := by
  simp only [NulFree, String.toList_append, List.mem_append, not_or]
  exact ⟨hl, hr⟩

theorem WellFormed.nulFree_fields {graph : ResolutionGraph} (hwf : WellFormed S graph)
    {id : PackageId} {package : ResolvedPackage} (hpackage : graph.packages[id]? = some package)
    {vs : List String} (hvs : List.Forall₂
      (Token (entryWalk H S graph) (globalVirtualStoreEntryHashes H S graph) id)
      (edges S graph id) vs) :
    ∀ field ∈ startFields package id ++
      ((edges S graph id).zip vs).flatMap (fun p => edgeFields p.1 p.2), NulFree field := by
  have hid := hwf.ids id (Std.ExtTreeMap.mem_iff_isSome_getElem?.mpr (by simp [hpackage]))
  have hdata := hwf.packages id package hpackage
  intro field hfield
  rcases List.mem_append.mp hfield with hstart | hedge
  · simp only [startFields, List.mem_cons, List.not_mem_nil, or_false] at hstart
    rcases hstart with rfl | rfl | rfl | rfl
    · exact NulFree.append (by simp [NulFree]) hid.1
    · exact hid.2
    · exact hdata.1
    · exact hdata.2
  · obtain ⟨⟨edge, hash⟩, hp, hfield⟩ := List.mem_flatMap.mp hedge
    have hmem := (List.of_mem_zip hp).1
    have htarget := hwf.ids _ (hwf.closed id edge hmem)
    obtain ⟨text, htext⟩ := token_hex ((List.forall₂_iff_zip.mp hvs).2 hp)
    simp only [edgeFields, List.mem_append, List.mem_cons, List.not_mem_nil, or_false] at hfield
    rcases hfield with hmarker | rfl | rfl | rfl | rfl
    · cases hkind : edge.kind <;> simp [hkind, EdgeKind.fields] at hmarker
      simp [NulFree, hmarker]
    · exact hwf.names id edge hmem
    · exact htarget.1
    · exact htarget.2
    · rw [NulFree, htext]
      exact H.not_mem_of_not_digit text (by decide)

/-- The text of a finished package is never the cut text of a package. -/
theorem entryHash_ne_cut {graph : ResolutionGraph} (hwf : WellFormed S graph)
    {id : PackageId} {hash : String} (hid : id ∈ graph.packages)
    (hhash : (globalVirtualStoreEntryHashes H S graph)[id]? = some hash) :
    hash ≠ H.hex (cutText id) := by
  intro heq
  obtain ⟨package, hpackage⟩ := Option.isSome_iff_exists.mp
    (Std.ExtTreeMap.mem_iff_isSome_getElem?.mp hid)
  obtain ⟨vs, text, hvs, rfl, htext⟩ := entryHash_text hpackage hhash
  have hsame := congrArg String.toList (H.injective heq)
  have hcut : (cutText id).toList =
      frameText ["snpm-global-virtual-store-v2" ++ id.name, id.version] ++ "cycle".toList := by
    simp [cutText, hashPackageId]
  rw [htext, hcut, ← List.append_nil (frameText _)] at hsame
  have hids := hwf.ids id hid
  have hfields : ∀ field ∈ ["snpm-global-virtual-store-v2" ++ id.name, id.version],
      NulFree field := by
    intro field hfield
    simp only [List.mem_cons, List.not_mem_nil, or_false] at hfield
    rcases hfield with rfl | rfl
    · exact NulFree.append (by simp [NulFree]) hids.1
    · exact hids.2
  have htail := (frameText_injective (hwf.nulFree_fields hpackage hvs) hfields
    (by simp) (by simp) hsame).2
  simp at htail

/-- Equal hashes of a package mean equal data, edges and tokens. -/
theorem same_of_entryHash_eq {G₁ G₂ : ResolutionGraph} (h₁ : WellFormed S G₁)
    (h₂ : WellFormed S G₂) {id : PackageId} {p₁ p₂ : ResolvedPackage}
    (hp₁ : G₁.packages[id]? = some p₁) (hp₂ : G₂.packages[id]? = some p₂)
    (heq : (globalVirtualStoreEntryHashes H S G₁)[id]? =
      (globalVirtualStoreEntryHashes H S G₂)[id]?) :
    p₁.tarball = p₂.tarball ∧ p₁.integrity.getD "" = p₂.integrity.getD "" ∧
      edges S G₁ id = edges S G₂ id ∧ ∀ edge ∈ edges S G₁ id, ∃ hash,
        Token (entryWalk H S G₁) (globalVirtualStoreEntryHashes H S G₁) id edge hash ∧
        Token (entryWalk H S G₂) (globalVirtualStoreEntryHashes H S G₂) id edge hash := by
  have hmem : id ∈ G₁.packages := Std.ExtTreeMap.mem_iff_isSome_getElem?.mpr (by simp [hp₁])
  obtain ⟨hash, hhash⟩ := (entryHashes_explained (H := H) (S := S) G₁).2 id hmem
  obtain ⟨vs₁, text₁, hvs₁, rfl, htext₁⟩ := entryHash_text hp₁ hhash
  obtain ⟨vs₂, text₂, hvs₂, hhex, htext₂⟩ := entryHash_text hp₂ (heq ▸ hhash)
  have hsame : text₁.toList = text₂.toList := congrArg String.toList (H.injective hhex)
  rw [htext₁, htext₂] at hsame
  have hfields := (frameText_injective (h₁.nulFree_fields hp₁ hvs₁) (h₂.nulFree_fields hp₂ hvs₂)
    List.not_mem_nil List.not_mem_nil (congrArg (· ++ []) hsame)).1
  simp only [startFields, List.cons_append, List.nil_append, List.cons.injEq, true_and] at hfields
  obtain ⟨htarball, hintegrity, hedges⟩ := hfields
  have hzip := edgeFields_injective (H := H) (edges_order G₁ id vs₁) (edges_order G₂ id vs₂)
    (fun p hp => token_hex ((List.forall₂_iff_zip.mp hvs₁).2 hp))
    (fun p hp => token_hex ((List.forall₂_iff_zip.mp hvs₂).2 hp)) hedges
  have hfst₁ : ((edges S G₁ id).zip vs₁).map Prod.fst = edges S G₁ id :=
    List.map_fst_zip hvs₁.length_eq.le
  have hes : edges S G₁ id = edges S G₂ id := by
    rw [← hfst₁, hzip, List.map_fst_zip hvs₂.length_eq.le]
  refine ⟨htarball, hintegrity, hes, ?_⟩
  intro edge hedge
  rw [← hfst₁] at hedge
  obtain ⟨⟨_, hash⟩, hp, rfl⟩ := List.mem_map.mp hedge
  exact ⟨hash, (List.forall₂_iff_zip.mp hvs₁).2 hp, (List.forall₂_iff_zip.mp hvs₂).2 (hzip ▸ hp)⟩

def DependsOn (S : SemverCrate) (graph : ResolutionGraph) (a b : PackageId) : Prop :=
  ∃ edge ∈ edges S graph a, edge.target = b

/-- No cycle runs through two different packages. -/
def NoProperCycle (S : SemverCrate) (graph : ResolutionGraph) : Prop :=
  ∀ a b, Relation.ReflTransGen (DependsOn S graph) a b →
    Relation.ReflTransGen (DependsOn S graph) b a → a = b

/-- Every package carries a non-empty integrity. -/
def AllSealed (graph : ResolutionGraph) : Prop :=
  ∀ (id : PackageId) (package : ResolvedPackage), graph.packages[id]? = some package →
    ∃ value, package.integrity = some value ∧ value ≠ ""

/-- A rank that falls along every edge between different packages excludes cycles. -/
theorem noProperCycle_of_rank {graph : ResolutionGraph} (rank : PackageId → Nat)
    (hrank : ∀ id ∈ graph.packages.keys, ∀ edge ∈ edges S graph id, rank edge.target < rank id) :
    NoProperCycle S graph := by
  have hreach : ∀ a b, Relation.ReflTransGen (DependsOn S graph) a b →
      a = b ∨ rank b < rank a := by
    intro a b h
    induction h with
    | refl => exact .inl rfl
    | tail _ hstep ih =>
        obtain ⟨edge, hedge, rfl⟩ := hstep
        have hlt := hrank _ (mem_keys_of_mem_edges hedge) edge hedge
        rcases ih with rfl | ih
        · exact .inr hlt
        · exact .inr (hlt.trans ih)
  intro a b hab hba
  rcases hreach a b hab with heq | hlt
  · exact heq
  · rcases hreach b a hba with heq | hlt'
    · exact heq.symm
    · omega

/-- Equal hashes determine the wiring. -/
def EntryHashesSound (H : Digest.Hash) (S : SemverCrate) (G₁ : ResolutionGraph) : Prop :=
  ∀ G₂, WellFormed S G₂ → ∀ id, id ∈ G₁.packages → id ∈ G₂.packages →
    (globalVirtualStoreEntryHashes H S G₁)[id]? = (globalVirtualStoreEntryHashes H S G₂)[id]? →
    SameWiring H S G₁ G₂ id

theorem edges_filterMap {graph : ResolutionGraph} {id : PackageId} {package : ResolvedPackage}
    (hpackage : graph.packages[id]? = some package) (kind : EdgeKind) :
    (edges S graph id).filterMap
        (fun edge => if edge.kind = kind then some (edge.name, edge.target) else none) =
      match kind with
      | .dependency => package.dependencies.toList
      | .peer => peersOf S graph id := by
  cases kind <;> simp [edges, hpackage, List.filterMap_append, List.filterMap_map]

theorem sameWiring_of_entryHash_eq {G₁ G₂ : ResolutionGraph} (h₁ : WellFormed S G₁)
    (hcycle : NoProperCycle S G₁) (hsealed : AllSealed G₁) (h₂ : WellFormed S G₂)
    {id : PackageId} (hid₁ : id ∈ G₁.packages) (hid₂ : id ∈ G₂.packages)
    (heq : (globalVirtualStoreEntryHashes H S G₁)[id]? =
      (globalVirtualStoreEntryHashes H S G₂)[id]?) : SameWiring H S G₁ G₂ id := by
  obtain ⟨p₁, hp₁⟩ := Option.isSome_iff_exists.mp
    (Std.ExtTreeMap.mem_iff_isSome_getElem?.mp hid₁)
  obtain ⟨p₂, hp₂⟩ := Option.isSome_iff_exists.mp
    (Std.ExtTreeMap.mem_iff_isSome_getElem?.mp hid₂)
  obtain ⟨htarball, hintegrity, hedges, htokens⟩ := same_of_entryHash_eq h₁ h₂ hp₁ hp₂ heq
  constructor
  · simp [hp₁, hp₂, htarball]
  · obtain ⟨value, hvalue, hne⟩ := hsealed id p₁ hp₁
    cases hi : p₂.integrity with
    | none =>
        rw [hvalue, hi] at hintegrity
        exact absurd hintegrity hne
    | some other =>
        rw [hvalue, hi] at hintegrity
        simp only [hp₁, hp₂, Option.map_some, hvalue, hi]
        exact congrArg (some ∘ some) hintegrity
  · have hdeps : p₁.dependencies.toList = p₂.dependencies.toList :=
      (edges_filterMap (S := S) hp₁ .dependency).symm.trans
        (hedges ▸ edges_filterMap hp₂ .dependency)
    simp [hp₁, hp₂, Std.ExtTreeMap.toList_inj.mp hdeps]
  · exact (edges_filterMap (S := S) hp₁ .peer).symm.trans (hedges ▸ edges_filterMap hp₂ .peer)
  · intro edge hedge
    obtain ⟨hash, htoken₁, htoken₂⟩ := htokens edge hedge
    by_cases hself : edge.target = id
    · rw [hself, heq]
    · rcases htoken₁ with hdone₁ | ⟨-, hreach⟩
      · rcases htoken₂ with hdone₂ | ⟨hcut, -⟩
        · exact hdone₁.trans hdone₂.symm
        · exact absurd hcut (entryHash_ne_cut h₁ (h₁.closed id edge hedge) hdone₁)
      · exact absurd (hcycle _ _ hreach (.single ⟨edge, hedge, rfl⟩)) hself

/-- Replace package data and keep the ids. -/
def mapPackages (f : PackageId → ResolvedPackage → ResolvedPackage) (graph : ResolutionGraph) :
    ResolutionGraph :=
  { graph with packages := graph.packages.map f }

theorem getElem?_mapPackages (f : PackageId → ResolvedPackage → ResolvedPackage)
    (graph : ResolutionGraph) (id : PackageId) :
    (mapPackages f graph).packages[id]? = (graph.packages[id]?).map (f id) := by
  rw [mapPackages, Std.ExtTreeMap.getElem?_map]

section MapPackages

variable {f : PackageId → ResolvedPackage → ResolvedPackage} {graph : ResolutionGraph}
  (hdeps : ∀ id package, (f id package).dependencies = package.dependencies)
  (hpeers : ∀ id package, (f id package).peerDependencies = package.peerDependencies)
include hdeps hpeers

theorem resolveUniquePeers_mapPackages :
    resolveUniquePeers S (mapPackages f graph) = resolveUniquePeers S graph := by
  apply Std.ExtTreeMap.ext_getElem?
  intro id
  have hkeys : (mapPackages f graph).packages.keys = graph.packages.keys := by
    simp [mapPackages]
  rw [getElem?_resolveUniquePeers, getElem?_resolveUniquePeers, getElem?_mapPackages]
  cases hpackage : graph.packages[id]? with
  | none => rw [Option.map_none, Option.bind_none, Option.bind_none]
  | some package =>
      rw [Option.map_some, Option.bind_some, Option.bind_some]
      exact resolvePackagePeers_congr rfl hkeys (hdeps id package) (hpeers id package)

theorem edges_mapPackages : edges S (mapPackages f graph) = edges S graph := by
  funext id
  unfold edges peersOf
  rw [resolveUniquePeers_mapPackages hdeps hpeers, getElem?_mapPackages]
  cases hpackage : graph.packages[id]? with
  | none => simp only [Option.map_none]
  | some package => simp only [Option.map_some, hdeps]

theorem entryWalk_mapPackages : entryWalk H S (mapPackages f graph) =
    (entryWalk H S graph).withStart (startText (mapPackages f graph)) := by
  simp only [entryWalk, Walk.withStart, edges_mapPackages hdeps hpeers]

theorem wellFormed_mapPackages (hwf : WellFormed S graph)
    (hdata : ∀ id package, graph.packages[id]? = some package →
      NulFree (f id package).tarball ∧ NulFree ((f id package).integrity.getD "")) :
    WellFormed S (mapPackages f graph) where
  closed id edge hedge := by
    rw [edges_mapPackages hdeps hpeers] at hedge
    simpa [mapPackages] using hwf.closed id edge hedge
  ids id hid := hwf.ids id (by simpa [mapPackages] using hid)
  packages id package hpackage := by
    simp only [mapPackages, Std.ExtTreeMap.getElem?_map, Option.map_eq_some_iff] at hpackage
    obtain ⟨old, hold, rfl⟩ := hpackage
    exact hdata id old hold
  names id edge hedge := by
    rw [edges_mapPackages hdeps hpeers] at hedge
    exact hwf.names id edge hedge

end MapPackages

/-- The hashes depend on the package data through the start texts only. -/
theorem entryHashes_mapPackages {f : PackageId → ResolvedPackage → ResolvedPackage}
    {graph : ResolutionGraph}
    (hdeps : ∀ id package, (f id package).dependencies = package.dependencies)
    (hpeers : ∀ id package, (f id package).peerDependencies = package.peerDependencies)
    (hstart : startText (mapPackages f graph) = startText graph) :
    globalVirtualStoreEntryHashes H S (mapPackages f graph) =
      globalVirtualStoreEntryHashes H S graph := by
  have hwalk : entryWalk H S (mapPackages f graph) = entryWalk H S graph := by
    rw [entryWalk_mapPackages hdeps hpeers, hstart]
    rfl
  have hrun : entryHashRun H S (mapPackages f graph) = entryHashRun H S graph := by
    rw [entryHashRun_eq, entryHashRun_eq, hwalk]
    simp [mapPackages]
  simp only [globalVirtualStoreEntryHashes, hrun]

/-- A missing integrity and an empty one are hashed alike. -/
theorem allSealed_of_sound {graph : ResolutionGraph} (hwf : WellFormed S graph)
    (hsound : EntryHashesSound H S graph) : AllSealed graph := by
  intro id package hpackage
  by_contra hopen
  set f : PackageId → ResolvedPackage → ResolvedPackage := fun k p =>
    if k = id then { p with integrity := if p.integrity = none then some "" else none } else p
    with hf
  have hempty : package.integrity.getD "" = "" := by
    cases hi : package.integrity with
    | none => rfl
    | some value =>
        by_contra hne
        exact hopen ⟨value, hi, hne⟩
  have hswap : (f id package).integrity.getD "" = "" := by
    by_cases hi : package.integrity = none <;> simp [hf, hi]
  have hdeps : ∀ k p, (f k p).dependencies = p.dependencies := by
    intro k p
    simp only [hf]
    split <;> rfl
  have hpeers : ∀ k p, (f k p).peerDependencies = p.peerDependencies := by
    intro k p
    simp only [hf]
    split <;> rfl
  have htarball : ∀ k p, (f k p).tarball = p.tarball := by
    intro k p
    simp only [hf]
    split <;> rfl
  have hintegrity : ∀ k p, graph.packages[k]? = some p →
      (f k p).integrity.getD "" = p.integrity.getD "" := by
    intro k p hk
    by_cases heq : k = id
    · subst heq
      rw [hpackage] at hk
      obtain rfl := Option.some.inj hk
      rw [hswap, hempty]
    · simp [hf, heq]
  have hstart : startText (mapPackages f graph) = startText graph := by
    funext k
    unfold startText
    rw [getElem?_mapPackages]
    cases hk : graph.packages[k]? with
    | none => simp only [Option.map_none]
    | some p => simp only [Option.map_some, htarball, hintegrity k p hk]
  have hwf' : WellFormed S (mapPackages f graph) := by
    refine wellFormed_mapPackages hdeps hpeers hwf ?_
    intro k p hk
    rw [htarball, hintegrity k p hk]
    exact hwf.packages k p hk
  have hmem : id ∈ graph.packages := Std.ExtTreeMap.mem_iff_isSome_getElem?.mpr (by simp [hpackage])
  have hsame := (hsound (mapPackages f graph) hwf' id hmem (by simpa [mapPackages] using hmem)
    (by rw [entryHashes_mapPackages hdeps hpeers hstart])).integrity
  rw [getElem?_mapPackages, hpackage] at hsame
  by_cases hi : package.integrity = none <;> simp [hf, hi] at hsame

/-- Give one package another tarball. -/
def retarball (y : PackageId) (graph : ResolutionGraph) : ResolutionGraph :=
  mapPackages (fun k p => if k = y then { p with tarball := p.tarball ++ "'" } else p) graph

section Retarball

variable (y : PackageId) (graph : ResolutionGraph)

theorem entryWalk_retarball : entryWalk H S (retarball y graph) =
    (entryWalk H S graph).withStart (startText (retarball y graph)) := by
  refine entryWalk_mapPackages ?_ ?_ <;>
  · intro k p
    split <;> rfl

theorem wellFormed_retarball (hwf : WellFormed S graph) : WellFormed S (retarball y graph) := by
  refine wellFormed_mapPackages ?_ ?_ hwf ?_
  · intro k p
    split <;> rfl
  · intro k p
    split <;> rfl
  · intro k p hk
    have h := hwf.packages k p hk
    split
    · exact ⟨h.1.append (by simp [NulFree]), h.2⟩
    · exact h

theorem startText_retarball_of_ne {k : PackageId} (hne : k ≠ y) :
    startText (retarball y graph) k = startText graph k := by
  unfold startText
  rw [retarball, getElem?_mapPackages]
  cases hk : graph.packages[k]? with
  | none => simp only [Option.map_none]
  | some p => simp only [Option.map_some, if_neg hne]

theorem startText_retarball_ne (hy : y ∈ graph.packages) :
    startText graph y ≠ startText (retarball y graph) y := by
  intro h
  obtain ⟨p, hp⟩ := Option.isSome_iff_exists.mp (Std.ExtTreeMap.mem_iff_isSome_getElem?.mp hy)
  unfold startText at h
  rw [retarball, getElem?_mapPackages, hp] at h
  have hlength := congrArg (fun s => s.toList.length) h
  simp at hlength

end Retarball

/-- On a cycle some package is hashed while another one of the cycle is open,
so its hash does not see that package's data. -/
theorem noProperCycle_of_sound {graph : ResolutionGraph} (hwf : WellFormed S graph)
    (hsound : EntryHashesSound H S graph) : NoProperCycle S graph := by
  intro a b hab hba
  by_contra hne
  set w := entryWalk H S graph with hw
  let C : Set PackageId := { c | w.Reaches a c ∧ w.Reaches c a }
  have hpackages : ∀ c ∈ C, c ∈ graph.packages := by
    intro c hc
    obtain ⟨d, ⟨edge, hedge, rfl⟩, -⟩ : ∃ d, w.Step c d ∧ True := by
      by_cases hca : c = a
      · obtain ⟨d, hd, -⟩ := exists_step_ne hab hne
        exact ⟨d, hca ▸ hd, trivial⟩
      · obtain ⟨d, hd, -⟩ := exists_step_ne hc.2 hca
        exact ⟨d, hd, trivial⟩
    exact Std.ExtTreeMap.mem_keys.mp (mem_keys_of_mem_edges hedge)
  obtain ⟨s, hs⟩ := Option.isSome_iff_exists.mp (entryHashRun_isSome (H := H) (S := S) graph)
  have hrun := hs
  rw [entryHashRun_eq] at hrun
  have hhashes : globalVirtualStoreEntryHashes H S graph = s.done := by
    simp only [globalVirtualStoreEntryHashes, hs]
  have hdiff : ∀ y ∈ C, ∀ vs, w.finish (w.gather (w.start y) (w.edges y) vs) ≠
      w.finish (w.gather (startText (retarball y graph) y) (w.edges y) vs) := by
    intro y hy vs h
    have htexts := congrArg String.toList (H.injective h)
    rw [gather_toList, gather_toList, List.append_cancel_right_eq] at htexts
    exact startText_retarball_ne y graph (hpackages y hy) (String.toList_inj.mp htexts)
  have ha : a ∈ C := ⟨.refl, .refl⟩
  have htouched : ¬ Untouched C s := by
    intro h
    obtain ⟨hash, hhash⟩ := (entryHashes_explained (H := H) (S := S) graph).2 a (hpackages a ha)
    rw [hhashes, (h a ha).1] at hhash
    cases hhash
  have hstart : ∀ y k, k ≠ y → (fun y => startText (retarball y graph)) y k = w.start k :=
    fun y k hne => startText_retarball_of_ne y graph hne
  obtain ⟨y, hy, hblind⟩ := visitAll_blind hstart hdiff hrun (fun c _ => by simp) htouched
  obtain ⟨t, ht⟩ := Option.isSome_iff_exists.mp
    (entryHashRun_isSome (H := H) (S := S) (retarball y graph))
  have hhashes' : globalVirtualStoreEntryHashes H S (retarball y graph) = t.done := by
    simp only [globalVirtualStoreEntryHashes, ht]
  have hkeys : ∀ id, id ∈ (retarball y graph).packages ↔ id ∈ graph.packages := by
    simp [retarball, mapPackages]
  rw [entryHashRun_eq, entryWalk_retarball] at ht
  have hb := hblind t (by simpa [retarball, mapPackages] using ht)
  obtain ⟨u, u', hu, hu', hdiffers⟩ := hb.differs
  obtain ⟨c, ⟨edge, hedge, rfl⟩, hcy, hc⟩ : ∃ c, w.Step y c ∧ c ≠ y ∧ w.Reaches c y := by
    by_cases hya : y = a
    · obtain ⟨c, hyc, hcy, hcb⟩ := exists_step_ne hab hne
      exact ⟨c, hya ▸ hyc, hya ▸ hcy, hya ▸ hcb.trans hba⟩
    · obtain ⟨c, hyc, hcy, hca⟩ := exists_step_ne hy.2 hya
      exact ⟨c, hyc, hcy, hca.trans hy.1⟩
  have hcC : w.target edge ∈ C :=
    ⟨hy.1.tail ⟨edge, hedge, rfl⟩, hc.trans hy.2⟩
  have hpath : ∀ d, w.Reaches (w.target edge) d →
      d ∈ graph.packages ∧ s.done[d]? = t.done[d]? := by
    intro d hd
    induction hd with
    | refl =>
        obtain ⟨v, hv, hv'⟩ := hb.agrees edge hedge hcC hcy
        exact ⟨hpackages _ hcC, hv.trans hv'.symm⟩
    | tail _ hstep ih =>
        obtain ⟨next, hnext, rfl⟩ := hstep
        refine ⟨hwf.closed _ next hnext, ?_⟩
        have hsame := hsound (retarball y graph) (wellFormed_retarball y graph hwf) _ ih.1
          ((hkeys _).mpr ih.1) (by rw [hhashes, hhashes', ih.2])
        rw [← hhashes, ← hhashes']
        exact hsame.targets next hnext
  have hlast := (hpath y hc).2
  rw [hu, hu'] at hlast
  exact hdiffers (Option.some.inj hlast)

/-- Equal entry hashes force equal wiring exactly in the graphs without a cycle
through two packages and without a package that lacks an integrity. -/
theorem entryHashesSound_iff (H : Digest.Hash) (S : SemverCrate) (graph : ResolutionGraph)
    (hwf : WellFormed S graph) :
    EntryHashesSound H S graph ↔ NoProperCycle S graph ∧ AllSealed graph := by
  constructor
  · intro hsound
    exact ⟨noProperCycle_of_sound hwf hsound, allSealed_of_sound hwf hsound⟩
  · rintro ⟨hcycle, hsealed⟩ G₂ hwf₂ id hid hid₂ heq
    exact sameWiring_of_entryHash_eq hwf hcycle hsealed hwf₂ hid hid₂ heq

/-- Two packages that depend on each other; the tarball of the first varies. -/
def twoCycle (tarball : String) : ResolutionGraph where
  root := ⟨BTreeMap.collect [("a", ⟨"1.0.0", pkgA⟩)]⟩
  packages := BTreeMap.collect
    [(pkgA, samplePackage pkgA tarball (BTreeMap.collect [("b", pkgB)])),
      (pkgB, samplePackage pkgB "b.tgz" (BTreeMap.collect [("a", pkgA)]))]

/-- The same two packages without the back edge. -/
def twoChain : ResolutionGraph where
  root := ⟨BTreeMap.collect [("a", ⟨"1.0.0", pkgA⟩)]⟩
  packages := BTreeMap.collect
    [(pkgA, samplePackage pkgA "a.tgz" (BTreeMap.collect [("b", pkgB)])),
      (pkgB, samplePackage pkgB "b.tgz" ∅)]

theorem entryHashes_twoCycle {graph : ResolutionGraph}
    (hkeys : graph.packages.keys = [pkgA, pkgB])
    (ha : edges releaseCrate graph pkgA = [⟨.dependency, "b", pkgB⟩])
    (hb : edges releaseCrate graph pkgB = [⟨.dependency, "a", pkgA⟩]) :
    ∃ hashB, (globalVirtualStoreEntryHashes H releaseCrate graph)[pkgB]? = some hashB ∧
      hashB = H.hex (hashEdge (startText graph pkgB) ⟨.dependency, "a", pkgA⟩
        (H.hex (cutText pkgA))) ∧
      (globalVirtualStoreEntryHashes H releaseCrate graph)[pkgA]? =
        some (H.hex (hashEdge (startText graph pkgA) ⟨.dependency, "b", pkgB⟩ hashB)) := by
  have hrun := entryHashRun_eq (H := H) (S := releaseCrate) graph
  obtain ⟨s, hs, hsb, hsa⟩ := visitAll_two_cycle (w := entryWalk H releaseCrate graph)
    (by decide : pkgA ≠ pkgB) ha rfl hb rfl
  rw [← Std.ExtTreeMap.length_keys, hkeys] at hrun
  simp only [globalVirtualStoreEntryHashes, hrun.trans hs]
  exact ⟨_, hsb, rfl, hsa⟩

/-- A package of a cycle keeps its hash while the package it is wired to changes. -/
theorem entryHash_blind_on_twoCycle :
    WellFormed releaseCrate (twoCycle "a-1.tgz") ∧ WellFormed releaseCrate (twoCycle "a-2.tgz") ∧
      pkgB ∈ (twoCycle "a-1.tgz").packages ∧ pkgB ∈ (twoCycle "a-2.tgz").packages ∧
      (globalVirtualStoreEntryHashes Digest.unaryHash releaseCrate (twoCycle "a-1.tgz"))[pkgB]? =
        (globalVirtualStoreEntryHashes Digest.unaryHash releaseCrate (twoCycle "a-2.tgz"))[pkgB]? ∧
      ¬ SameWiring Digest.unaryHash releaseCrate (twoCycle "a-1.tgz") (twoCycle "a-2.tgz") pkgB := by
  have hb₁ : edges releaseCrate (twoCycle "a-1.tgz") pkgB = [⟨.dependency, "a", pkgA⟩] := by
    decide +kernel
  obtain ⟨hashB, hB₁, hval₁, hA₁⟩ := entryHashes_twoCycle (H := Digest.unaryHash)
    (by decide +kernel : (twoCycle "a-1.tgz").packages.keys = [pkgA, pkgB])
    (by decide +kernel) hb₁
  obtain ⟨hashB', hB₂, hval₂, hA₂⟩ := entryHashes_twoCycle (H := Digest.unaryHash)
    (by decide +kernel : (twoCycle "a-2.tgz").packages.keys = [pkgA, pkgB])
    (by decide +kernel) (by decide +kernel)
  have hstart : startText (twoCycle "a-1.tgz") pkgB = startText (twoCycle "a-2.tgz") pkgB := by
    decide +kernel
  have hsame : hashB = hashB' := by rw [hval₁, hval₂, hstart]
  refine ⟨by decide +kernel, by decide +kernel, by decide +kernel, by decide +kernel,
    by rw [hB₁, hB₂, hsame], ?_⟩
  intro h
  have htarget := h.targets ⟨.dependency, "a", pkgA⟩ (by simp [hb₁])
  rw [hA₁, hA₂, hsame, Option.some.injEq] at htarget
  have htexts := congrArg String.toList (Digest.unaryHash.injective htarget)
  simp only [hashEdge, hashPackageId, String.toList_append, List.append_cancel_right_eq] at htexts
  exact absurd htexts (by decide +kernel)

/-- On a chain of sealed packages equal hashes do force equal wiring. -/
theorem twoChain_entryHashesSound :
    WellFormed releaseCrate twoChain ∧ EntryHashesSound Digest.unaryHash releaseCrate twoChain := by
  have hwf : WellFormed releaseCrate twoChain := by decide +kernel
  refine ⟨hwf, (entryHashesSound_iff Digest.unaryHash releaseCrate twoChain hwf).mpr
    ⟨noProperCycle_of_rank (fun id => if id = pkgA then 1 else 0) (by decide +kernel), ?_⟩⟩
  intro id package hpackage
  have hall : ∀ p ∈ twoChain.packages.toList, p.2.integrity = some "sha512-0" := by decide +kernel
  exact ⟨"sha512-0", hall (id, package)
    (Std.ExtTreeMap.mem_toList_iff_getElem?_eq_some.mpr hpackage), by decide⟩

end Snpm.Linker
