import Mathlib
import Snpm.Lockfile.Compat.YarnFormat

/-!
The edges of the packages that are imported from a classic `yarn.lock`. The name
of a dependency is looked up with its quotes, and no header is written with
them, so a dependency whose name is quoted has no edge.
-/
namespace BTreeMap

variable {K V : Type} [Ord K] [Std.TransOrd K] [Std.LawfulEqOrd K] [DecidableEq K]

/-- The last pair of a key is kept. -/
theorem getElem?_foldl_insert {α : Type} (key : α → K) (value : α → V) (l : List α)
    (m : BTreeMap K V) (k : K) :
    (l.foldl (fun m a => m.insert (key a) (value a)) m)[k]? =
      ((l.reverse.find? fun a => decide (key a = k)).map value).or m[k]? := by
  induction l generalizing m with
  | nil => rfl
  | cons a l ih =>
      rw [List.foldl_cons, ih, List.reverse_cons, List.find?_append, getElem?_insert_self_or]
      cases l.reverse.find? fun a => decide (key a = k) with
      | some b => rfl
      | none =>
          by_cases hkey : key a = k
          · simp [hkey]
          · simp [hkey]

end BTreeMap

namespace Snpm.Compat.Yarn

open Config (RuntimeConfig)
open Install (RootSpecSet)

section Texts

/-- The last version of a block counts. -/
def Entry.version : Entry → Option String
  | .field key _ value => if key = "version" then some value.text else none
  | .group _ _ _ => none

def BlockText.version (b : BlockText) : Option String := (b.entries.reverse).findSome? Entry.version

/-- The package of a block: the name of its first spec and its version. -/
def BlockText.packageKey (b : BlockText) : Option String := do
  let name ← parseClassicIdentity (b.specTexts.headD "")
  let version ← b.version
  some (name ++ "@" ++ version)

/-- The last line of a block that has the name without quotes. -/
def BlockText.lastLine (b : BlockText) (name : String) : Option DependencyLine :=
  b.dependencies.reverse.find? fun line => line.name.isBare && line.name.text = name

/-- The last block with a spec in its header. -/
def lastHeader (blocks : List BlockText) (spec : String) : Option BlockText :=
  blocks.reverse.find? fun b => spec ∈ b.specTexts

/-- The first block of a package. -/
def firstOfPackage (blocks : List BlockText) (b : BlockText) : Option BlockText :=
  blocks.find? fun other => other.packageKey = b.packageKey

/-- For each dependency line, the imported package of its block has an edge to
the package of the header that has its spec. -/
def EdgesKept (blocks : List BlockText) (lockfile : Lockfile) : Prop :=
  ∀ b ∈ blocks, ∀ line ∈ b.dependencies, ∀ header ∈ blocks, line.spec ∈ header.specTexts →
    ∃ key package target, b.packageKey = some key ∧ lockfile.packages[key]? = some package ∧
      package.dependencies[line.name.text]? = some target ∧ header.packageKey = some target

/-- For each dependency line, the first block of the package has the name without
quotes, and its last such line leads to the package of the header. -/
def LinesKept (blocks : List BlockText) : Prop :=
  ∀ b ∈ blocks, ∀ line ∈ b.dependencies, ∀ header ∈ blocks, line.spec ∈ header.specTexts →
    ∃ first kept target, firstOfPackage blocks b = some first ∧
      first.lastLine line.name.text = some kept ∧ lastHeader blocks kept.spec = some target ∧
      target.packageKey = header.packageKey

end Texts

section Classic

theorem classic_apply_version (block : ClassicBlock) (entry : Entry) :
    (entry.apply block).fields["version"]? = entry.version.or block.fields["version"]? := by
  cases entry with
  | field key h value =>
      rw [Entry.apply, Entry.version]
      dsimp only
      rw [BTreeMap.getElem?_insert_self_or]
      split <;> rfl
  | group name h lines =>
      rw [Entry.apply, Entry.version]
      split <;> rfl

theorem classic_foldl_version (entries : List Entry) (block : ClassicBlock) :
    (entries.foldl Entry.apply block).fields["version"]? =
      (entries.reverse.findSome? Entry.version).or block.fields["version"]? := by
  induction entries generalizing block with
  | nil => rfl
  | cons entry entries ih =>
      rw [List.foldl_cons, ih, classic_apply_version, List.reverse_cons, List.findSome?_append]
      cases entries.reverse.findSome? Entry.version with
      | some version => rfl
      | none =>
          cases hversion : entry.version <;> simp [hversion]

theorem classic_version (b : BlockText) : b.classic.fields["version"]? = b.version := by
  rw [BlockText.classic, classic_foldl_version, Std.ExtTreeMap.getElem?_empty, Option.or_none]
  rfl

theorem classic_foldl_specs (entries : List Entry) (block : ClassicBlock) :
    (entries.foldl Entry.apply block).specs = block.specs := by
  induction entries generalizing block with
  | nil => rfl
  | cons entry entries ih =>
      rw [List.foldl_cons, ih]
      cases entry with
      | field => rfl
      | group name h lines =>
          rw [Entry.apply]
          split <;> rfl

theorem classic_specs (b : BlockText) : b.classic.specs = b.specTexts :=
  classic_foldl_specs b.entries _

theorem classic_foldl_dependencies (entries : List Entry) (block : ClassicBlock) :
    (entries.foldl Entry.apply block).dependencies =
      (entries.flatMap Entry.dependencies).foldl insertLine block.dependencies := by
  induction entries generalizing block with
  | nil => rfl
  | cons entry entries ih =>
      rw [List.foldl_cons, ih, List.flatMap_cons, List.foldl_append]
      cases entry with
      | field => rfl
      | group name h lines =>
          rw [Entry.apply, Entry.dependencies]
          split <;> rfl

/-- A dependency is found under its name exactly when a line has it without
quotes. -/
theorem classic_dependencies (b : BlockText) {name : String} (h : '"' ∉ name.toList) :
    b.classic.dependencies[name]? = (b.lastLine name).map fun line => line.range.text := by
  have hsame : (fun line : DependencyLine => decide (line.name.written = name)) =
      fun line => line.name.isBare && decide (line.name.text = name) := by
    funext line
    rw [Bool.eq_iff_iff, decide_eq_true_iff, written_eq_text_iff h, Bool.and_eq_true,
      decide_eq_true_iff]
  have hfold := BTreeMap.getElem?_foldl_insert (fun line : DependencyLine => line.name.written)
    (fun line => line.range.text) b.dependencies ∅ name
  rw [Std.ExtTreeMap.getElem?_empty, Option.or_none, hsame] at hfold
  rw [BlockText.classic, classic_foldl_dependencies]
  exact hfold

end Classic

section Seeds

variable {path : PathBuf} {config : RuntimeConfig}

def blockKey (block : ClassicBlock) : Option String := do
  let name ← parseClassicIdentity (block.specs.headD "")
  let version ← block.fields["version"]?
  some (name ++ "@" ++ version)

theorem classic_blockKey (b : BlockText) : blockKey b.classic = b.packageKey := by
  rw [blockKey, BlockText.packageKey, classic_specs, classic_version]

theorem parsedIdentity_ok {spec name : String} (h : parsedIdentity path spec = .ok name) :
    parseClassicIdentity spec = some name := by
  unfold parsedIdentity at h
  split at h
  next found hfound =>
      cases h
      exact hfound
  next => cases h

theorem insertSpecs_ok {block : ClassicBlock} {name key : String} {specs : List String}
    {m m' : BTreeMap String String} (h : specs.foldlM (insertSpec path block name key) m = .ok m')
    (spec : String) : m'[spec]? = if spec ∈ specs then some key else m[spec]? := by
  induction specs generalizing m with
  | nil =>
      cases h
      rfl
  | cons first specs ih =>
      rw [List.foldlM_cons] at h
      obtain ⟨next, hstep, h⟩ := Result.bind_eq_ok h
      unfold insertSpec at hstep
      obtain ⟨found, -, hstep⟩ := Result.bind_eq_ok hstep
      split at hstep
      next => cases hstep
      next =>
          cases hstep
          rw [ih h, BTreeMap.getElem?_insert_self_or]
          by_cases hfirst : first = spec
          · have hmem : spec ∈ first :: specs := by
              rw [hfirst]
              exact List.mem_cons_self
            rw [if_pos hfirst, if_pos hmem]
            split <;> rfl
          · rw [if_neg hfirst]
            by_cases hspec : spec ∈ specs
            · rw [if_pos hspec, if_pos (List.mem_cons_of_mem first hspec)]
            · rw [if_neg hspec, if_neg]
              intro hmem
              cases List.mem_cons.mp hmem with
              | inl heq => exact hfirst heq.symm
              | inr hmem => exact hspec hmem

/-- What one block adds. -/
theorem addBlock_ok {seeds seeds' : ClassicSeeds} {block : ClassicBlock}
    (h : addBlock path config seeds block = .ok seeds') :
    ∃ name version m, blockKey block = some (name ++ "@" ++ version) ∧
      (∀ spec : String, m[spec]? =
        if spec ∈ block.specs then blockKey block else seeds.specToDepPath[spec]?) ∧
      seeds' = addSeed seeds m (packageSeed path config block name version) := by
  unfold addBlock at h
  split at h
  next => cases h
  next version hversion =>
      obtain ⟨name, hname, h⟩ := Result.bind_eq_ok h
      obtain ⟨m, hm, h⟩ := Result.bind_eq_ok h
      cases h
      have hkey : blockKey block = some (name ++ "@" ++ version) := by
        rw [blockKey, parsedIdentity_ok hname, hversion]
        rfl
      refine ⟨name, version, m, hkey, ?_, rfl⟩
      intro spec
      rw [hkey]
      exact insertSpecs_ok hm spec

/-- What is collected from the blocks so far. -/
structure SeedsOk (blocks : List ClassicBlock) (seeds : ClassicSeeds) : Prop where
  keyed : ∀ block ∈ blocks, ∃ key, blockKey block = some key
  specs : ∀ spec : String, seeds.specToDepPath[spec]? =
    (blocks.reverse.find? fun block => spec ∈ block.specs).bind blockKey
  seen : ∀ key, key ∈ seeds.seenDepPaths ↔ ∃ block ∈ blocks, blockKey block = some key
  sound : ∀ seed ∈ seeds.packageSeeds, ∃ block,
    (blocks.find? fun block => blockKey block = some seed.depPath) = some block ∧
      seed.declaredDependencies = block.dependencies
  complete : ∀ block ∈ blocks, ∀ key, blockKey block = some key →
    ∃ seed ∈ seeds.packageSeeds, seed.depPath = key

theorem seedsOk_start : SeedsOk [] ⟨∅, ∅, []⟩ where
  keyed _ h := absurd h List.not_mem_nil
  specs _ := Std.ExtTreeMap.getElem?_empty
  seen _ := by
    constructor
    · exact fun h => absurd h Std.ExtTreeSet.not_mem_empty
    · intro h
      obtain ⟨_, h, _⟩ := h
      exact absurd h List.not_mem_nil
  sound _ h := absurd h List.not_mem_nil
  complete _ h := absurd h List.not_mem_nil

theorem seedsOk_step {blocks : List ClassicBlock} {seeds seeds' : ClassicSeeds}
    {block : ClassicBlock} (hok : SeedsOk blocks seeds)
    (h : addBlock path config seeds block = .ok seeds') : SeedsOk (blocks ++ [block]) seeds' := by
  obtain ⟨name, version, m, hkey, hm, rfl⟩ := addBlock_ok h
  have hdepPath : (packageSeed path config block name version).depPath = name ++ "@" ++ version := rfl
  have hspecs : ∀ spec : String, m[spec]? =
      ((blocks ++ [block]).reverse.find? fun block => spec ∈ block.specs).bind blockKey := by
    intro spec
    rw [hm, hok.specs, List.reverse_append, List.reverse_singleton, List.singleton_append]
    by_cases hspec : spec ∈ block.specs
    · rw [if_pos hspec, List.find?_cons_of_pos (by simpa using hspec), Option.bind_some]
    · rw [if_neg hspec, List.find?_cons_of_neg (by simpa using hspec)]
  have hkeyed : ∀ other ∈ blocks ++ [block], ∃ key, blockKey other = some key := by
    intro other hother
    cases List.mem_append.mp hother with
    | inl hother => exact hok.keyed other hother
    | inr hother =>
        rw [List.mem_singleton.mp hother]
        exact ⟨_, hkey⟩
  have hfound : ∀ seed ∈ seeds.packageSeeds, ∃ first,
      ((blocks ++ [block]).find? fun block => blockKey block = some seed.depPath) = some first ∧
        seed.declaredDependencies = first.dependencies := by
    intro seed hseed
    obtain ⟨first, hfirst, hdependencies⟩ := hok.sound seed hseed
    exact ⟨first, by rw [List.find?_append, hfirst]; rfl, hdependencies⟩
  unfold addSeed
  rw [hdepPath]
  split
  next hseen =>
      obtain ⟨other, hother, hotherKey⟩ := (hok.seen _).mp hseen
      refine ⟨hkeyed, hspecs, ?_, hfound, ?_⟩
      · intro key
        dsimp only
        rw [hok.seen]
        constructor
        · intro hold
          obtain ⟨other, hother, hotherKey⟩ := hold
          exact ⟨other, List.mem_append_left _ hother, hotherKey⟩
        · intro hnew
          obtain ⟨new, hnew, hnewKey⟩ := hnew
          cases List.mem_append.mp hnew with
          | inl hnew => exact ⟨new, hnew, hnewKey⟩
          | inr hnew =>
              rw [List.mem_singleton.mp hnew, hkey] at hnewKey
              exact ⟨other, hother, hotherKey.trans hnewKey⟩
      · intro new hnew key hnewKey
        cases List.mem_append.mp hnew with
        | inl hnew => exact hok.complete new hnew key hnewKey
        | inr hnew =>
            rw [List.mem_singleton.mp hnew, hkey] at hnewKey
            exact hok.complete other hother key (hotherKey.trans hnewKey)
  next hunseen =>
      have hfresh : ∀ other ∈ blocks, blockKey other ≠ some (name ++ "@" ++ version) :=
        fun other hother hotherKey => hunseen ((hok.seen _).mpr ⟨other, hother, hotherKey⟩)
      refine ⟨hkeyed, hspecs, ?_, ?_, ?_⟩
      · intro key
        dsimp only
        rw [Std.ExtTreeSet.mem_insert, Std.LawfulEqCmp.compare_eq_iff_eq, hok.seen]
        constructor
        · intro hin
          cases hin with
          | inl heq => exact ⟨block, List.mem_append_right _ List.mem_cons_self, heq ▸ hkey⟩
          | inr hold =>
              obtain ⟨other, hother, hotherKey⟩ := hold
              exact ⟨other, List.mem_append_left _ hother, hotherKey⟩
        · intro hnew
          obtain ⟨new, hnew, hnewKey⟩ := hnew
          cases List.mem_append.mp hnew with
          | inl hnew => exact .inr ⟨new, hnew, hnewKey⟩
          | inr hnew =>
              rw [List.mem_singleton.mp hnew, hkey] at hnewKey
              exact .inl (Option.some.inj hnewKey)
      · intro seed hseed
        cases List.mem_append.mp hseed with
        | inl hseed => exact hfound seed hseed
        | inr hseed =>
            rw [List.mem_singleton.mp hseed]
            refine ⟨block, ?_, rfl⟩
            rw [List.find?_append, List.find?_eq_none.mpr, Option.none_or,
              List.find?_cons_of_pos (by simp [hdepPath, hkey])]
            intro other hother
            simpa [hdepPath] using hfresh other hother
      · intro new hnew key hnewKey
        cases List.mem_append.mp hnew with
        | inl hnew =>
            obtain ⟨seed, hseed, hseedKey⟩ := hok.complete new hnew key hnewKey
            exact ⟨seed, List.mem_append_left _ hseed, hseedKey⟩
        | inr hnew =>
            rw [List.mem_singleton.mp hnew, hkey] at hnewKey
            exact ⟨_, List.mem_append_right _ List.mem_cons_self, Option.some.inj hnewKey⟩

theorem seedsOk_run {blocks rest : List ClassicBlock} {seeds seeds' : ClassicSeeds}
    (hok : SeedsOk blocks seeds) (h : rest.foldlM (addBlock path config) seeds = .ok seeds') :
    SeedsOk (blocks ++ rest) seeds' := by
  induction rest generalizing blocks seeds with
  | nil =>
      cases h
      rw [List.append_nil]
      exact hok
  | cons block rest ih =>
      rw [List.foldlM_cons] at h
      obtain ⟨next, hstep, h⟩ := Result.bind_eq_ok h
      rw [List.append_cons]
      exact ih (seedsOk_step hok hstep) h

end Seeds

section Packages

variable {path : PathBuf} {content : String} {config : RuntimeConfig} {rootSpecs : RootSpecSet}
  {lockfile : Lockfile} {blocks : List BlockText}

theorem parseClassicStr_ok (hcontent : IsWrittenAs content blocks)
    (h : parseClassicStr path content config rootSpecs = .ok lockfile) :
    ∃ seeds, SeedsOk (blocks.map BlockText.classic) seeds ∧
      lockfile.packages = BTreeMap.collect (seeds.packageSeeds.map fun seed =>
        (seed.depPath, lockPackage seeds.specToDepPath seed)) := by
  unfold parseClassicStr at h
  rw [tokenizeClassicBlocks_written hcontent] at h
  obtain ⟨classic, hclassic, h⟩ := Result.bind_eq_ok h
  cases hclassic
  obtain ⟨seeds, hseeds, h⟩ := Result.bind_eq_ok h
  obtain ⟨root, -, h⟩ := Result.bind_eq_ok h
  cases h
  exact ⟨seeds, seedsOk_run seedsOk_start hseeds, rfl⟩

theorem lastHeader_classic (spec : String) :
    (((blocks.map BlockText.classic).reverse.find? fun block => spec ∈ block.specs).bind blockKey) =
      (lastHeader blocks spec).bind BlockText.packageKey := by
  have hsame : ((fun block : ClassicBlock => decide (spec ∈ block.specs)) ∘ BlockText.classic) =
      fun b => decide (spec ∈ b.specTexts) := by
    funext b
    rw [Function.comp_apply, classic_specs]
  rw [← List.map_reverse, List.find?_map, hsame, lastHeader, Option.bind_map]
  congr 1
  funext b
  exact classic_blockKey b

theorem firstOfPackage_classic (key : String) :
    ((blocks.map BlockText.classic).find? fun block => blockKey block = some key) =
      (blocks.find? fun b => b.packageKey = some key).map BlockText.classic := by
  have hsame : ((fun block : ClassicBlock => decide (blockKey block = some key)) ∘
      BlockText.classic) = fun b => decide (b.packageKey = some key) := by
    funext b
    rw [Function.comp_apply, classic_blockKey]
  rw [List.find?_map, hsame]

theorem lastLine_text {b : BlockText} {name : String} {line : DependencyLine}
    (h : b.lastLine name = some line) : line.name.text = name := by
  have hfound := List.find?_some h
  rw [Bool.and_eq_true] at hfound
  exact of_decide_eq_true hfound.2

/-- The edges of the package of a block. -/
theorem imported_edges (hcontent : IsWrittenAs content blocks)
    (h : parseClassicStr path content config rootSpecs = .ok lockfile) {b : BlockText}
    (hb : b ∈ blocks) :
    ∃ key first package, b.packageKey = some key ∧ firstOfPackage blocks b = some first ∧
      lockfile.packages[key]? = some package ∧
      ∀ name : String, '"' ∉ name.toList → package.dependencies[name]? =
        (first.lastLine name).bind fun line =>
          (lastHeader blocks line.spec).bind BlockText.packageKey := by
  obtain ⟨seeds, hok, hpackages⟩ := parseClassicStr_ok hcontent h
  have hclassic : b.classic ∈ blocks.map BlockText.classic := List.mem_map_of_mem hb
  obtain ⟨key, hkey⟩ := hok.keyed b.classic hclassic
  obtain ⟨seed, hseed, hseedKey⟩ := hok.complete b.classic hclassic key hkey
  have hlookup := BTreeMap.getElem?_foldl_insert (fun seed : ClassicPackageSeed => seed.depPath)
    (lockPackage seeds.specToDepPath) seeds.packageSeeds ∅ key
  have hmatch : ∃ last, (seeds.packageSeeds.reverse.find? fun seed => decide (seed.depPath = key)) =
      some last := by
    rw [← Option.isSome_iff_exists, List.find?_isSome]
    exact ⟨seed, List.mem_reverse.mpr hseed, by simpa using hseedKey⟩
  obtain ⟨last, hlast⟩ := hmatch
  have hlastKey : last.depPath = key := by simpa using List.find?_some hlast
  have hlastMem : last ∈ seeds.packageSeeds := List.mem_reverse.mp (List.mem_of_find?_eq_some hlast)
  obtain ⟨firstBlock, hfirst, hdependencies⟩ := hok.sound last hlastMem
  rw [hlastKey, firstOfPackage_classic] at hfirst
  obtain ⟨first, hfound, rfl⟩ := Option.map_eq_some_iff.mp hfirst
  rw [classic_blockKey] at hkey
  refine ⟨key, first, lockPackage seeds.specToDepPath last, hkey, ?_, ?_, ?_⟩
  · rw [firstOfPackage, hkey]
    exact hfound
  · rw [hpackages, BTreeMap.collect, List.foldl_map]
    rw [hlast] at hlookup
    exact hlookup
  · intro name hname
    have hedges : (lockPackage seeds.specToDepPath last).dependencies[name]? =
        (last.declaredDependencies[name]?).bind fun range =>
          resolveSpecCandidates (classicCandidates name range) seeds.specToDepPath :=
      Std.ExtTreeMap.getElem?_filterMap'
    rw [hedges, hdependencies, classic_dependencies first hname, Option.bind_map]
    cases hline : first.lastLine name with
    | none => rfl
    | some line =>
        have hspec : line.spec = name ++ "@" ++ line.range.text := by
          rw [DependencyLine.spec, lastLine_text hline]
        rw [Option.bind_some, Option.bind_some, Function.comp_apply, resolveSpecCandidates,
          classicCandidates, ← hspec, List.findSome?_singleton, hok.specs, lastHeader_classic]

/-- Every dependency line has its edge exactly when the lines are kept. -/
theorem edges_kept_iff (hcontent : IsWrittenAs content blocks)
    (h : parseClassicStr path content config rootSpecs = .ok lockfile) :
    EdgesKept blocks lockfile ↔ LinesKept blocks := by
  constructor
  · intro hedges b hb line hline header hheader hspec
    obtain ⟨key, package, target, hkey, hpackage, hedge, htarget⟩ :=
      hedges b hb line hline header hheader hspec
    obtain ⟨key', first, package', hkey', hfirst, hpackage', hdependencies⟩ :=
      imported_edges hcontent h hb
    rw [hkey] at hkey'
    cases hkey'
    rw [hpackage] at hpackage'
    cases hpackage'
    rw [hdependencies _ line.name.text_free] at hedge
    obtain ⟨kept, hkept, hedge⟩ := Option.bind_eq_some_iff.mp hedge
    obtain ⟨found, hfound, hfoundKey⟩ := Option.bind_eq_some_iff.mp hedge
    exact ⟨first, kept, found, hfirst, hkept, hfound, hfoundKey.trans htarget.symm⟩
  · intro hlines b hb line hline header hheader hspec
    obtain ⟨first, kept, found, hfirst, hkept, hfound, hfoundKey⟩ :=
      hlines b hb line hline header hheader hspec
    obtain ⟨key, first', package, hkey, hfirst', hpackage, hdependencies⟩ :=
      imported_edges hcontent h hb
    rw [hfirst] at hfirst'
    cases hfirst'
    obtain ⟨target, -, -, htarget, -⟩ := imported_edges hcontent h hheader
    refine ⟨key, package, target, hkey, hpackage, ?_, htarget⟩
    rw [hdependencies _ line.name.text_free, hkept, Option.bind_some, hfound, Option.bind_some,
      hfoundKey, htarget]

end Packages

section Samples

theorem isBare_version : IsBare "version" :=
  isBare_of_all (by decide) (by decide) (by decide)

theorem isBare_dependencies : IsBare "dependencies" :=
  isBare_of_all (by decide) (by decide) (by decide)

def versionEntry (version : String) (h : '"' ∉ version.toList) : Entry :=
  .field "version" isBare_version (.quoted version h)

def sampleBlock (spec version : String) (lines : List DependencyLine)
    (hspec : '"' ∉ spec.toList ∧ spec ≠ "" ∧ ',' ∉ spec.toList) (hversion : '"' ∉ version.toList) :
    BlockText where
  specs := [.quoted spec hspec.1]
  entries := [versionEntry version hversion, .group "dependencies" isBare_dependencies lines]
  named := List.cons_ne_nil _ _
  separated := by
    intro t ht
    cases List.mem_singleton.mp ht
    exact hspec.2

def coreLine (name : Token) (h : name.text = "@b/core") : DependencyLine where
  name := name
  range := .quoted "^7" (by decide)
  word := by
    rw [h]
    exact (isBare_of_all (by decide) (by decide) (by decide)).word

def loaderBlocks (line : DependencyLine) : List BlockText :=
  [sampleBlock "@b/core@^7" "7.1.0" [] (by decide) (by decide),
    sampleBlock "loader@^8" "8.0.0" [line] (by decide) (by decide)]

def bareLine : DependencyLine :=
  coreLine (.bare "@b/core" (isBare_of_all (by decide) (by decide) (by decide))) rfl

def quotedLine : DependencyLine := coreLine (.quoted "@b/core" (by decide)) rfl

def loaderContent (line : DependencyLine) : String :=
  Text.unlines ("# v1" :: (loaderBlocks line).flatMap BlockText.lines)

theorem bare_edges_kept :
    ∃ lockfile, parseClassicStr "/p/yarn.lock" (loaderContent bareLine) Npm.plainConfig ⟨∅, ∅⟩ =
        .ok lockfile ∧
      (EdgesKept (loaderBlocks bareLine) lockfile ↔ LinesKept (loaderBlocks bareLine)) := by
  have hwritten : IsWrittenAs (loaderContent bareLine) (loaderBlocks bareLine) := by
    unfold IsWrittenAs
    decide +kernel
  have hok : (parseClassicStr "/p/yarn.lock" (loaderContent bareLine) Npm.plainConfig
      ⟨∅, ∅⟩).isOk = true := by
    decide +kernel
  obtain ⟨lockfile, h⟩ := Npm.exists_of_isOk hok
  exact ⟨lockfile, h, edges_kept_iff hwritten h⟩

/-- The edge of a name in quotes is lost. -/
theorem quoted_edge_lost :
    IsWrittenAs (loaderContent quotedLine) (loaderBlocks quotedLine) ∧
      ∃ lockfile, parseClassicStr "/p/yarn.lock" (loaderContent quotedLine) Npm.plainConfig
          ⟨∅, ∅⟩ = .ok lockfile ∧
        ¬ EdgesKept (loaderBlocks quotedLine) lockfile := by
  have hlost : ((parseClassicStr "/p/yarn.lock" (loaderContent quotedLine) Npm.plainConfig
      ⟨∅, ∅⟩).toOption.map fun lockfile => (lockfile.packages["loader@8.0.0"]?).bind
        fun package => package.dependencies["@b/core"]?) = some none := by
    decide +kernel
  have hkey : (sampleBlock "loader@^8" "8.0.0" [quotedLine] (by decide)
      (by decide)).packageKey = some "loader@8.0.0" := by
    decide +kernel
  refine ⟨by unfold IsWrittenAs; decide +kernel, ?_⟩
  obtain ⟨lockfile, hlockfile, hlost⟩ := Option.map_eq_some_iff.mp hlost
  have h := Npm.eq_ok_of_toOption hlockfile
  refine ⟨lockfile, h, ?_⟩
  intro hedges
  obtain ⟨key, package, target, hpackageKey, hpackage, hedge, -⟩ :=
    hedges (sampleBlock "loader@^8" "8.0.0" [quotedLine] (by decide) (by decide))
      (List.mem_cons_of_mem _ List.mem_cons_self) quotedLine List.mem_cons_self
      (sampleBlock "@b/core@^7" "7.1.0" [] (by decide) (by decide)) List.mem_cons_self
      (List.mem_singleton.mpr (by decide +kernel))
  rw [hkey] at hpackageKey
  cases hpackageKey
  have hsome : package.dependencies["@b/core"]? = some target := hedge
  rw [hpackage, Option.bind_some, hsome] at hlost
  cases hlost

end Samples

end Snpm.Compat.Yarn
