import Mathlib
import Snpm.Install.Mutations
import Snpm.PackageJson.RoundTrip

/-!
When the manifest file is as before after an operation that failed.
-/
namespace Snpm.Install

open PackageJson (readManifest formatManifest readStringMap writtenMap ReadFrom)
open Json (member field)

variable {T : Type}

section Sections

variable {m n : PackageJson.Manifest}

theorem stringMap_of_written {members : List (String × Json)} {name : String}
    {written read : BTreeMap String String} (hmember : member members name = writtenMap .string written)
    (h : field members name ∅ readStringMap = some read) : read = written := by
  unfold writtenMap at hmember
  cases Json.field_some h with
  | inl hnone =>
      rw [hnone.1] at hmember
      split at hmember
      · rename_i hempty
        rw [hnone.2, Std.ExtTreeMap.isEmpty_iff.mp hempty]
      · cases hmember
  | inr hsome =>
      obtain ⟨v, hv, hdecode⟩ := hsome
      rw [hv] at hmember
      split at hmember
      · cases hmember
      · cases hmember
        have hinverse : ∀ text, Json.asString (.string text) = some text := fun _ => rfl
        exact Json.asMapOf_ofMap hinverse hdecode

/-- A manifest that differs in its three sections of dependencies at most. -/
def SameBesides (m n : PackageJson.Manifest) : Prop :=
  m = { n with
    dependencies := m.dependencies
    devDependencies := m.devDependencies
    optionalDependencies := m.optionalDependencies }

theorem SameBesides.refl (m : PackageJson.Manifest) : SameBesides m m := rfl

theorem SameBesides.extra (h : SameBesides m n) : m.extra = n.extra := by
  unfold SameBesides at h
  rw [h]

theorem SameBesides.sections (h : SameBesides m n)
    (dependencies devDependencies optionalDependencies : BTreeMap String String) :
    SameBesides { m with
      dependencies := dependencies
      devDependencies := devDependencies
      optionalDependencies := optionalDependencies } n := by
  unfold SameBesides at h ⊢
  rw [h]

theorem SameBesides.removeDependency (h : SameBesides m n) (name : String) :
    SameBesides (removeDependency m name) n :=
  h.sections _ _ _

theorem SameBesides.withSpecs (h : SameBesides m n) (specs : BTreeMap String String)
    (kind : DependencySection) : SameBesides (withSpecs m specs kind) n := by
  cases kind with
  | dependencies => exact h.sections specs m.devDependencies m.optionalDependencies
  | devDependencies => exact h.sections m.dependencies specs m.optionalDependencies
  | optionalDependencies => exact h.sections m.dependencies m.devDependencies specs

theorem SameBesides.updateManifestEntry (h : SameBesides m n) (name wanted : String)
    (production : Bool) : SameBesides (updateManifestEntry m name wanted production).1 n := by
  rw [updateManifestEntry_eq]
  cases pickedEntry m name production with
  | none => exact h
  | some picked => exact h.withSpecs _ picked.1

theorem SameBesides.foldl {σ τ : Type} {view : τ → PackageJson.Manifest} {step : τ → σ → τ}
    (hstep : ∀ t x, SameBesides (view t) n → SameBesides (view (step t x)) n) {t : τ}
    (h : SameBesides (view t) n) (xs : List σ) : SameBesides (view (xs.foldl step t)) n := by
  induction xs generalizing t with
  | nil => exact h
  | cons x xs ih => exact ih (hstep t x h)

/-- A written manifest is read back with its sections. -/
theorem eq_of_read_written (hsame : SameBesides m n)
    (hextra : ∀ name, name ∈ n.extra → name ∉ PackageJson.knownNames)
    (h : readManifest (formatManifest m) = some n) : m = n := by
  have hread := PackageJson.readManifest_some h
  have hunknown : ∀ name, name ∈ m.extra → name ∉ PackageJson.knownNames := by
    rw [hsame.extra]
    exact hextra
  have hmember : ∀ {name : String} {o : Option Json}, (name, o) ∈ PackageJson.knownFields m →
      member (PackageJson.orderedEntries (PackageJson.manifestValue m)) name = o := by
    intro name o hfield
    rw [PackageJson.member_orderedEntries, PackageJson.manifestValue_known hunknown hfield]
  have hdependencies : n.dependencies = m.dependencies :=
    stringMap_of_written (hmember (by simp [PackageJson.knownFields])) hread.dependencies
  have hdev : n.devDependencies = m.devDependencies :=
    stringMap_of_written (hmember (by simp [PackageJson.knownFields])) hread.devDependencies
  have hoptional : n.optionalDependencies = m.optionalDependencies :=
    stringMap_of_written (hmember (by simp [PackageJson.knownFields])) hread.optionalDependencies
  unfold SameBesides at hsame
  rw [hsame, ← hdependencies, ← hdev, ← hoptional]

end Sections

section Kept

variable {H : Digest.Hash} {S : SemverCrate} {config : SnpmConfig} {world : MutationWorld T}
  {project : LoadedProject world.format}

/-- After an operation that failed the manifest file is as before. -/
def KeptOnError (text : T) (outcome : Outcome T) : Prop :=
  ∀ error, outcome.1 = .error error → outcome.2 = text

theorem keptOnError_same (text : T) (result : Result Unit) : KeptOnError text (result, text) :=
  fun _ _ => rfl

variable (H S config world project) in
/-- A write that fails leaves the text as it was. One that succeeds is followed by an
installation that succeeds, or it wrote what was there: the file had the form in
which manifests are written, and no spec was changed. -/
def RewriteKeeps (manifest : PackageJson.Manifest) (includeDev : Bool)
    (frozenLockfile : FrozenLockfileMode) (strictNoLockfile force : Bool) : Prop :=
  match world.write (manifestText world manifest) with
  | .failed _ left => left = project.text
  | .written =>
    reinstall H S config world project manifest (manifestText world manifest) includeDev
        frozenLockfile strictNoLockfile force = .ok () ∨
      (project.text = manifestText world project.manifest ∧ manifest = project.manifest)

theorem manifestText_eq_iff {manifest : PackageJson.Manifest}
    (hsame : SameBesides manifest project.manifest) :
    manifestText world manifest = project.text ↔
      project.text = manifestText world project.manifest ∧ manifest = project.manifest := by
  constructor
  · intro htext
    have hloaded := project.loaded
    rw [← htext, manifestText, world.format.parse_print, Option.bind_some] at hloaded
    have hextra : ∀ name, name ∈ project.manifest.extra → name ∉ PackageJson.knownNames :=
      (PackageJson.readManifest_some hloaded).extra_unknown
    have heq := eq_of_read_written hsame hextra hloaded
    exact ⟨by rw [← htext, heq], heq⟩
  · rintro ⟨htext, heq⟩
    rw [heq, htext]

theorem rewriteAndReinstall_kept_iff {manifest : PackageJson.Manifest} {includeDev : Bool}
    {frozenLockfile : FrozenLockfileMode} {strictNoLockfile force : Bool}
    (hsame : SameBesides manifest project.manifest) :
    KeptOnError project.text (rewriteAndReinstall H S config world project manifest includeDev
        frozenLockfile strictNoLockfile force) ↔
      RewriteKeeps H S config world project manifest includeDev frozenLockfile strictNoLockfile
        force := by
  unfold KeptOnError rewriteAndReinstall RewriteKeeps
  cases hwrite : world.write (manifestText world manifest) with
  | failed error left => simp [hwrite]
  | written =>
      rw [← manifestText_eq_iff hsame]
      cases hinstall : reinstall H S config world project manifest (manifestText world manifest)
        includeDev frozenLockfile strictNoLockfile force with
      | error e => simp [hwrite, hinstall]
      | ok u => simp [hwrite, hinstall]

end Kept

section Calls

variable (H : Digest.Hash) (S : SemverCrate) (config : SnpmConfig) (world : MutationWorld T)
  (project : LoadedProject world.format)

inductive MutationCall where
  | remove (specs : List String) (frozenLockfile : FrozenLockfileMode) (strictNoLockfile : Bool)
  | upgrade (packages : List String) (frozenLockfile : FrozenLockfileMode)
      (strictNoLockfile production force latest : Bool)

def MutationCall.run : MutationCall → Outcome T
  | .remove specs frozenLockfile strictNoLockfile =>
      Install.remove H S config world project specs frozenLockfile strictNoLockfile
  | .upgrade packages frozenLockfile strictNoLockfile production force latest =>
      Install.upgrade H S config world project packages frozenLockfile strictNoLockfile production
        force latest

/-- The manifest without the packages. -/
def removedManifest (specs : List String) : PackageJson.Manifest :=
  specs.foldl (fun manifest spec => removeDependency manifest (parseSpec spec).1) project.manifest

def latestNames (packages : List String) (production : Bool) : List String :=
  if packages.isEmpty then collectUpgradableNames project.manifest (!production)
  else packages.map fun spec => (parseSpec spec).1

/-- A call that rewrites the manifest does so without harm. -/
def MutationCall.Safe : MutationCall → Prop
  | .remove specs frozenLockfile strictNoLockfile =>
      specs = [] ∨ frozenLockfile = .frozen ∨
        RewriteKeeps H S config world project (removedManifest world project specs) true
          frozenLockfile strictNoLockfile false
  | .upgrade packages frozenLockfile strictNoLockfile production force true =>
      frozenLockfile = .frozen ∨ ∀ manifest, world.createClient = .ok () →
        (latestNames world project packages production).foldl
            (updateToLatest S config world production force) (project.manifest, false) =
          (manifest, true) →
        RewriteKeeps H S config world project manifest (!production) frozenLockfile
          strictNoLockfile force
  | .upgrade packages frozenLockfile strictNoLockfile production force false =>
      packages = [] ∨ frozenLockfile = .frozen ∨ ∀ entries,
        world.outdated (!production) force = .ok entries → ∀ manifest,
        packages.foldl (updateToWanted (wantedVersions
            (entries.filter fun entry => entry.current ≠ some entry.wanted)) production)
          (project.manifest, false) = (manifest, true) →
        RewriteKeeps H S config world project manifest (!production) frozenLockfile
          strictNoLockfile force

variable {H S config world project}

theorem specsOf_removeDependency (m : PackageJson.Manifest) (name : String)
    (kind : DependencySection) :
    specsOf (removeDependency m name) kind = (specsOf m kind).erase name := by
  cases kind <;> rfl

theorem removeDependency_absent {m : PackageJson.Manifest} {name : String}
    (h : ∀ kind, name ∉ specsOf m kind) : removeDependency m name = m := by
  have herase : ∀ specs : BTreeMap String String, name ∉ specs → specs.erase name = specs := by
    intro specs hspecs
    apply Std.ExtTreeMap.ext_getElem?
    intro other
    rw [Std.ExtTreeMap.getElem?_erase]
    split
    · rename_i heq
      rw [Std.LawfulEqCmp.compare_eq_iff_eq] at heq
      rw [← heq, Std.ExtTreeMap.getElem?_eq_none hspecs]
    · rfl
  have hdependencies := herase m.dependencies (h .dependencies)
  have hdev := herase m.devDependencies (h .devDependencies)
  have hoptional := herase m.optionalDependencies (h .optionalDependencies)
  rw [removeDependency, hdependencies, hdev, hoptional]

theorem absent_of_absent {name : String} (specs : List String) {m : PackageJson.Manifest}
    {kind : DependencySection} (h : name ∉ specsOf m kind) :
    name ∉ specsOf (specs.foldl (fun m spec => removeDependency m (parseSpec spec).1) m) kind := by
  induction specs generalizing m with
  | nil => exact h
  | cons spec specs ih =>
      refine ih fun hmem => h ?_
      rw [specsOf_removeDependency] at hmem
      exact Std.ExtTreeMap.mem_of_mem_erase hmem

theorem removed_absent (specs : List String) (m : PackageJson.Manifest) (kind : DependencySection) :
    ∀ spec ∈ specs, (parseSpec spec).1 ∉
      specsOf (specs.foldl (fun m spec => removeDependency m (parseSpec spec).1) m) kind := by
  induction specs generalizing m with
  | nil => exact fun spec h => absurd h List.not_mem_nil
  | cons first specs ih =>
      intro spec hspec
      cases List.mem_cons.mp hspec with
      | inl heq =>
          subst heq
          refine absent_of_absent specs ?_
          rw [specsOf_removeDependency, Std.ExtTreeMap.mem_erase]
          exact fun h => h.1 Std.ReflCmp.compare_self
      | inr hmem => exact ih _ spec hmem

/-- Removing packages leaves the manifest as it is just when none of them is listed. -/
theorem removedManifest_eq_iff (specs : List String) :
    removedManifest world project specs = project.manifest ↔
      ∀ spec ∈ specs, ∀ kind, (parseSpec spec).1 ∉ specsOf project.manifest kind := by
  constructor
  · intro h spec hspec kind
    have habsent := removed_absent specs project.manifest kind spec hspec
    unfold removedManifest at h
    rwa [h] at habsent
  · unfold removedManifest
    generalize project.manifest = m
    intro h
    induction specs with
    | nil => rfl
    | cons spec specs ih =>
        rw [List.foldl_cons, removeDependency_absent (h spec List.mem_cons_self)]
        exact ih fun other hother => h other (List.mem_cons_of_mem _ hother)

theorem sameBesides_updateToLatest {n : PackageJson.Manifest} {production force : Bool}
    {state : PackageJson.Manifest × Bool} {name : String} (h : SameBesides state.1 n) :
    SameBesides (updateToLatest S config world production force state name).1 n := by
  unfold updateToLatest
  split
  · exact h
  · split
    · exact h
    · split
      · exact h
      · exact h.updateManifestEntry _ _ _

theorem sameBesides_updateToWanted {n : PackageJson.Manifest} {wanted : BTreeMap String String}
    {production : Bool} {state : PackageJson.Manifest × Bool} {spec : String}
    (h : SameBesides state.1 n) : SameBesides (updateToWanted wanted production state spec).1 n := by
  unfold updateToWanted
  split
  · exact h
  · exact h.updateManifestEntry _ _ _

theorem remove_kept_iff (specs : List String) (frozenLockfile : FrozenLockfileMode)
    (strictNoLockfile : Bool) :
    KeptOnError project.text
        (remove H S config world project specs frozenLockfile strictNoLockfile) ↔
      (MutationCall.remove specs frozenLockfile strictNoLockfile).Safe H S config world project := by
  unfold remove MutationCall.Safe
  by_cases hspecs : specs = []
  · simp [hspecs, keptOnError_same]
  · by_cases hfrozen : frozenLockfile = .frozen
    · simp [hspecs, hfrozen, keptOnError_same]
    · have hsame : SameBesides (removedManifest world project specs) project.manifest :=
        @SameBesides.foldl _ _ _ id _ (fun m spec h => h.removeDependency _) _ (.refl _) specs
      have hempty : specs.isEmpty = false := by simpa using hspecs
      simp only [hempty, Bool.false_eq_true, if_false, hspecs, hfrozen, false_or]
      exact rewriteAndReinstall_kept_iff hsame

theorem upgradeToLatest_kept_iff (packages : List String) (frozenLockfile : FrozenLockfileMode)
    (strictNoLockfile production force : Bool) :
    KeptOnError project.text (upgradeToLatest H S config world project packages frozenLockfile
        strictNoLockfile production force) ↔
      (MutationCall.upgrade packages frozenLockfile strictNoLockfile production force true).Safe
        H S config world project := by
  unfold upgradeToLatest MutationCall.Safe
  by_cases hfrozen : frozenLockfile = .frozen
  · simp [hfrozen, keptOnError_same]
  · simp only [hfrozen, if_false, false_or]
    cases hclient : world.createClient with
    | error e => simp [keptOnError_same]
    | ok u =>
        generalize hfold : (latestNames world project packages production).foldl
          (updateToLatest S config world production force) (project.manifest, false) = edited
        obtain ⟨manifest, changed⟩ := edited
        have hsame : SameBesides manifest project.manifest := by
          have hall : SameBesides ((latestNames world project packages production).foldl
              (updateToLatest S config world production force) (project.manifest, false)).1
              project.manifest :=
            @SameBesides.foldl _ _ _ Prod.fst _ (fun t x h => sameBesides_updateToLatest h) _
              (.refl _) _
          rwa [hfold] at hall
        have hnames : (if packages.isEmpty = true then
              collectUpgradableNames project.manifest (!production)
            else packages.map fun spec => (parseSpec spec).1) =
            latestNames world project packages production := rfl
        simp only [hnames, hfold]
        cases changed with
        | false => simp [keptOnError_same]
        | true => simpa using rewriteAndReinstall_kept_iff hsame

theorem wantedVersions_nil_fold (packages : List String) (production : Bool)
    (state : PackageJson.Manifest × Bool) :
    packages.foldl (updateToWanted (wantedVersions []) production) state = state := by
  induction packages with
  | nil => rfl
  | cons spec packages ih =>
      have hstep : updateToWanted (wantedVersions []) production state spec = state := by
        simp [updateToWanted, wantedVersions, BTreeMap.collect]
      rw [List.foldl_cons, hstep, ih]

theorem upgrade_kept_iff (packages : List String) (frozenLockfile : FrozenLockfileMode)
    (strictNoLockfile production force latest : Bool) :
    KeptOnError project.text (upgrade H S config world project packages frozenLockfile
        strictNoLockfile production force latest) ↔
      (MutationCall.upgrade packages frozenLockfile strictNoLockfile production force latest).Safe
        H S config world project := by
  cases latest with
  | true => exact upgradeToLatest_kept_iff packages frozenLockfile strictNoLockfile production force
  | false =>
      unfold upgrade MutationCall.Safe
      by_cases hpackages : packages = []
      · simp [hpackages, keptOnError_same]
      · by_cases hfrozen : frozenLockfile = .frozen
        · simp [hpackages, hfrozen, keptOnError_same]
        · have hempty : packages.isEmpty = false := by simpa using hpackages
          simp only [hempty, Bool.false_eq_true, if_false, hpackages, hfrozen, false_or]
          cases houtdated : world.outdated (!production) force with
          | error e => simp [keptOnError_same]
          | ok entries =>
              simp only [Except.ok.injEq, forall_eq']
              generalize entries.filter (fun entry => decide (entry.current ≠ some entry.wanted)) =
                filtered
              cases filtered with
              | nil =>
                  have hfalse : ∀ manifest, packages.foldl
                      (updateToWanted (wantedVersions []) production) (project.manifest, false) ≠
                      (manifest, true) := by
                    intro manifest heq
                    rw [wantedVersions_nil_fold] at heq
                    cases heq
                  simp [keptOnError_same, hfalse]
              | cons entry rest =>
                  generalize hfold : packages.foldl
                    (updateToWanted (wantedVersions (entry :: rest)) production)
                    (project.manifest, false) = edited
                  obtain ⟨manifest, changed⟩ := edited
                  have hsame : SameBesides manifest project.manifest := by
                    have hall : SameBesides (packages.foldl
                        (updateToWanted (wantedVersions (entry :: rest)) production)
                        (project.manifest, false)).1 project.manifest :=
                      @SameBesides.foldl _ _ _ Prod.fst _
                        (fun t x h => sameBesides_updateToWanted h) _ (.refl _) _
                    rwa [hfold] at hall
                  cases changed with
                  | false => simp [keptOnError_same]
                  | true => simpa using rewriteAndReinstall_kept_iff hsame

/-- A failed call leaves the manifest file as before just when its rewriting, if it
comes to one, does no harm. -/
theorem kept_on_error_iff (H : Digest.Hash) (S : SemverCrate) (config : SnpmConfig)
    (world : MutationWorld T) (project : LoadedProject world.format) (call : MutationCall) :
    (∀ error, (call.run H S config world project).1 = .error error →
      (call.run H S config world project).2 = project.text) ↔
    call.Safe H S config world project := by
  cases call with
  | remove specs frozenLockfile strictNoLockfile =>
      exact remove_kept_iff specs frozenLockfile strictNoLockfile
  | upgrade packages frozenLockfile strictNoLockfile production force latest =>
      exact upgrade_kept_iff packages frozenLockfile strictNoLockfile production force latest

end Calls

section Example

def valueFormat : JsonFormat Json := ⟨id, some, fun _ => rfl⟩

def offlineError : SnpmError := .http "https://registry.npmjs.org/react" "connection refused"

/-- A disk with nothing but the manifest, and a registry that cannot be reached. -/
def offlineWorld : MutationWorld Json where
  format := valueFormat
  write _ := .written
  outdated _ _ := .error offlineError
  createClient := .ok ()
  fetchPackage _ := .error offlineError
  ageOf _ := none
  files _ := emptyView
  install :=
    { ProjectInstall.quietWorld ⟨⟨∅⟩, ∅⟩ emptyView with
      resolve := fun _ _ _ _ => .error offlineError }

def offlineConfig : SnpmConfig := ⟨.none, ∅, ∅, "/data", none, false, "^"⟩

def twoDependencies : Json :=
  .object [("dependencies", .object [("lodash", .string "^4.17.21"), ("react", .string "^18.0.0")])]

theorem twoDependencies_reads : (readManifest twoDependencies).isSome = true := by rfl

def lodashProject : LoadedProject offlineWorld.format where
  root := "/app"
  manifestPath := "/app/package.json"
  manifest := (readManifest twoDependencies).get twoDependencies_reads
  text := twoDependencies
  loaded := by
    change readManifest twoDependencies = _
    exact (Option.some_get _).symm

/-- Removing a package offline fails, and the manifest has lost it. -/
theorem remove_offline_loses_entry :
    remove Digest.unaryHash releaseCrate offlineConfig offlineWorld lodashProject ["lodash"] .prefer
        false =
      (.error offlineError, .object [("dependencies", .object [("react", .string "^18.0.0")])]) ∧
    lodashProject.text ≠ .object [("dependencies", .object [("react", .string "^18.0.0")])] := by
  exact ⟨by rfl, by simp [lodashProject, twoDependencies]⟩

end Example

end Snpm.Install
