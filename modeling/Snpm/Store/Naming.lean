import Mathlib
import Snpm.Library.PathText
import Snpm.Project
import Snpm.Resolve.Types

/-!
The directory of a package in the store. A name becomes one path component by
replacing its slash, and the version is the component below it. The underscore
that replaces the slash may also stand in a name, so two scoped names can share
a directory.
-/
namespace Snpm

def PathBuf.components (path : PathBuf) : List (PathText.Component Char) :=
  PathText.components '/' '.' path.toList

/-- A text that is one path component. -/
abbrev PathBuf.IsSegment (part : PathBuf) : Prop :=
  PathText.Segment '/' '.' part.toList

theorem PathBuf.components_join (base : PathBuf) {part : PathBuf} (h : part.IsSegment) :
    (base.join part).components = base.components ++ [.normal part.toList] := by
  have hhead : part.toList.head? ≠ some '/' :=
    fun hhead => h.no_sep (List.mem_of_mem_head? hhead)
  unfold PathBuf.join
  split
  · rename_i hslash
    exact absurd hslash hhead
  · rename_i hbase _
    rw [List.getLast?_eq_none_iff] at hbase
    simpa [components, hbase, PathText.components, PathText.leading, PathText.firstPart,
      PathText.partComponent] using h.components
  · rename_i hbase _
    obtain ⟨front, hfront⟩ := List.getLast?_eq_some_iff.mp hbase
    rw [components, components, String.toList_append, hfront]
    exact PathText.components_sep_append h
  · rename_i hbase _
    have hne : base.toList ≠ [] := by
      intro hnil
      rw [hnil] at hbase
      cases hbase
    have htext : (base ++ "/" ++ part).toList = base.toList ++ '/' :: part.toList := by simp
    rw [components, components, htext]
    exact PathText.components_append hne h

namespace Store

def sanitizeName (name : String) : String := Text.replaceChar name '/' '_'

/-- `package_dir` of `ensure_package`. -/
def packageDir (config : SnpmConfig) (package : ResolvedPackage) : PathBuf :=
  (config.packagesDir.join (sanitizeName package.id.name)).join package.id.version

/-- `package_dir` of the residency index. -/
def residencyPackageDir (packagesDir : PathBuf) (id : PackageId) : PathBuf :=
  (packagesDir.join (sanitizeName id.name)).join id.version

def storeDirs (config : SnpmConfig) (package : ResolvedPackage) : List PathBuf :=
  [packageDir config package, residencyPackageDir config.packagesDir package.id]

/-- The characters that stand for themselves in a URL. -/
def isUrlSafe (c : Char) : Bool :=
  c.isAlphanum || c ∈ ['-', '_', '.', '!', '~', '*', '\'', '(', ')']

/-- The name grammar of the registry. -/
inductive ValidName : List Char → Prop
  | bare {name : List Char} (h : name ≠ []) (hsafe : ∀ c ∈ name, isUrlSafe c = true)
      (hhead : name.head? ≠ some '.' ∧ name.head? ≠ some '_') : ValidName name
  | inScope {scope name : List Char} (h : scope ≠ [] ∧ name ≠ [])
      (hscope : ∀ c ∈ scope, isUrlSafe c = true) (hname : ∀ c ∈ name, isUrlSafe c = true) :
      ValidName ('@' :: (scope ++ '/' :: name))

structure ValidId (id : PackageId) : Prop where
  name : ValidName id.name.toList
  version : PathBuf.IsSegment id.version

/-- Two names that differ in which of two places has the slash and which the
underscore. -/
def Clash (a b : String) : Prop :=
  ∃ scope middle name : String, a = "@" ++ scope ++ "/" ++ middle ++ "_" ++ name ∧
    b = "@" ++ scope ++ "_" ++ middle ++ "/" ++ name

section Sanitize

theorem sanitizeName_toList (name : String) :
    (sanitizeName name).toList = name.toList.map fun c => if c = '/' then '_' else c := by
  simp [sanitizeName, Text.replaceChar]

theorem map_sanitize_of_safe {cs : List Char} (h : ∀ c ∈ cs, isUrlSafe c = true) :
    (cs.map fun c => if c = '/' then '_' else c) = cs := by
  have hid : ∀ c ∈ cs, (if c = '/' then '_' else c) = id c := by
    intro c hc
    rw [if_neg]
    · rfl
    · intro heq
      have hslash := h c hc
      rw [heq] at hslash
      exact absurd hslash (by decide)
  rw [List.map_congr_left hid, List.map_id]

/-- The text of a sanitized name, by the form of the name. -/
theorem sanitizeName_scoped {name : String} {scope base : List Char}
    (hscope : ∀ c ∈ scope, isUrlSafe c = true) (hbase : ∀ c ∈ base, isUrlSafe c = true)
    (h : name.toList = '@' :: (scope ++ '/' :: base)) :
    (sanitizeName name).toList = '@' :: (scope ++ '_' :: base) := by
  rw [sanitizeName_toList, h]
  simp [map_sanitize_of_safe hscope, map_sanitize_of_safe hbase]

theorem sanitizeName_unscoped {name : String} (h : ∀ c ∈ name.toList, isUrlSafe c = true) :
    sanitizeName name = name :=
  String.toList_inj.mp (by rw [sanitizeName_toList, map_sanitize_of_safe h])

theorem not_mem_of_safe {cs : List Char} (h : ∀ c ∈ cs, isUrlSafe c = true) {c : Char}
    (hc : isUrlSafe c = false) : c ∉ cs := by
  intro hmem
  rw [h c hmem] at hc
  cases hc

theorem isSegment_sanitizeName {name : String} (h : ValidName name.toList) :
    PathBuf.IsSegment (sanitizeName name) := by
  generalize hcs : name.toList = cs at h
  cases h with
  | bare hne hsafe hhead =>
      have hself : sanitizeName name = name := sanitizeName_unscoped (hcs ▸ hsafe)
      rw [PathBuf.IsSegment, hself, hcs]
      refine ⟨hne, ?_, ?_, not_mem_of_safe hsafe (by decide)⟩
      · intro heq
        exact hhead.1 (by rw [heq]; rfl)
      · intro heq
        exact hhead.1 (by rw [heq]; rfl)
  | inScope _ hscope hname =>
      rw [PathBuf.IsSegment, sanitizeName_scoped hscope hname hcs]
      refine ⟨by simp, by simp, by simp, ?_⟩
      have h₁ := not_mem_of_safe hscope (c := '/') (by decide)
      have h₂ := not_mem_of_safe hname (c := '/') (by decide)
      simp [h₁, h₂]

theorem clash_sanitizeName {a b : String} (h : Clash a b) : sanitizeName a = sanitizeName b := by
  obtain ⟨scope, middle, name, rfl, rfl⟩ := h
  apply String.toList_inj.mp
  simp [sanitizeName_toList]

/-- Two scopes and base names that flatten to one text are equal or differ in
where the slash is. -/
theorem clash_of_flat_eq {s₁ n₁ s₂ n₂ : List Char} (h : s₁ ++ '_' :: n₁ = s₂ ++ '_' :: n₂) :
    (s₁ = s₂ ∧ n₁ = n₂) ∨ (∃ m, n₁ = m ++ '_' :: n₂ ∧ s₂ = s₁ ++ '_' :: m) ∨
      ∃ m, n₂ = m ++ '_' :: n₁ ∧ s₁ = s₂ ++ '_' :: m := by
  cases List.append_eq_append_iff.mp h with
  | inl hleft =>
      obtain ⟨gap, hs, hn⟩ := hleft
      cases gap with
      | nil => exact .inl ⟨by simpa using hs.symm, by simpa using hn⟩
      | cons c gap =>
          simp only [List.cons_append, List.cons.injEq] at hn
          exact .inr (.inl ⟨gap, hn.2, by rw [hs, ← hn.1]⟩)
  | inr hright =>
      obtain ⟨gap, hs, hn⟩ := hright
      cases gap with
      | nil => exact .inl ⟨by simpa using hs, by simpa using hn.symm⟩
      | cons c gap =>
          simp only [List.cons_append, List.cons.injEq] at hn
          exact .inr (.inr ⟨gap, hn.2, by rw [hs, ← hn.1]⟩)

theorem clash_of_lists {a b : String} {scope middle name : List Char}
    (ha : a.toList = '@' :: (scope ++ '/' :: (middle ++ '_' :: name)))
    (hb : b.toList = '@' :: ((scope ++ '_' :: middle) ++ '/' :: name)) : Clash a b := by
  refine ⟨.ofList scope, .ofList middle, .ofList name, ?_, ?_⟩
  · apply String.toList_inj.mp
    simp [ha]
  · apply String.toList_inj.mp
    simp [hb]

/-- Valid names with one sanitized form are equal or clash. -/
theorem sanitizeName_eq_iff {a b : String} (ha : ValidName a.toList) (hb : ValidName b.toList) :
    sanitizeName a = sanitizeName b ↔ a = b ∨ Clash a b ∨ Clash b a := by
  constructor
  · intro h
    generalize hcs : a.toList = cs at ha
    generalize hds : b.toList = ds at hb
    cases ha with
    | bare hne hsafe hhead =>
        have hself : sanitizeName a = a := sanitizeName_unscoped (hcs ▸ hsafe)
        cases hb with
        | bare hne' hsafe' hhead' =>
            rw [hself, sanitizeName_unscoped (hds ▸ hsafe')] at h
            exact .inl h
        | inScope _ hscope hname =>
            rw [hself] at h
            have htext := congrArg String.toList h
            rw [sanitizeName_scoped hscope hname hds] at htext
            have hat := hsafe '@' (by rw [← hcs, htext]; exact List.mem_cons_self)
            exact absurd hat (by decide)
    | inScope _ hscope hname =>
        have htext := congrArg String.toList h
        rw [sanitizeName_scoped hscope hname hcs] at htext
        cases hb with
        | bare hne' hsafe' hhead' =>
            rw [sanitizeName_unscoped (hds ▸ hsafe'), hds] at htext
            have hat := hsafe' '@' (by rw [← htext]; exact List.mem_cons_self)
            exact absurd hat (by decide)
        | inScope _ hscope' hname' =>
            rw [sanitizeName_scoped hscope' hname' hds] at htext
            have hflat := clash_of_flat_eq (List.cons.inj htext).2
            cases hflat with
            | inl heq => exact .inl (String.toList_inj.mp (by rw [hcs, hds, heq.1, heq.2]))
            | inr hclash =>
                cases hclash with
                | inl hab =>
                    obtain ⟨m, hn, hs⟩ := hab
                    exact .inr (.inl (clash_of_lists (by rw [hcs, hn]) (by rw [hds, hs])))
                | inr hba =>
                    obtain ⟨m, hn, hs⟩ := hba
                    exact .inr (.inr (clash_of_lists (by rw [hds, hn]) (by rw [hcs, hs])))
  · intro h
    cases h with
    | inl heq => rw [heq]
    | inr hclash =>
        cases hclash with
        | inl hab => exact clash_sanitizeName hab
        | inr hba => exact (clash_sanitizeName hba).symm

end Sanitize

section Directories

theorem packageDir_components (config : SnpmConfig) {package : ResolvedPackage}
    (h : ValidId package.id) : (packageDir config package).components =
      config.packagesDir.components ++
        [.normal (sanitizeName package.id.name).toList, .normal package.id.version.toList] := by
  rw [packageDir, PathBuf.components_join _ h.version,
    PathBuf.components_join _ (isSegment_sanitizeName h.name)]
  simp

/-- Two different packages have different directories in the store exactly when
their names do not clash under one version. -/
theorem store_dirs_differ_iff (config : SnpmConfig) (a b : ResolvedPackage) (ha : ValidId a.id)
    (hb : ValidId b.id) (hne : a.id ≠ b.id) :
    (∀ x ∈ storeDirs config a, ∀ y ∈ storeDirs config b, x.components ≠ y.components) ↔
      (a.id.version = b.id.version → ¬ Clash a.id.name b.id.name ∧ ¬ Clash b.id.name a.id.name) := by
  have hdirs : ∀ package : ResolvedPackage, ∀ x ∈ storeDirs config package,
      x = packageDir config package := by
    intro package x hx
    simpa [storeDirs, packageDir, residencyPackageDir] using hx
  have hall : (∀ x ∈ storeDirs config a, ∀ y ∈ storeDirs config b, x.components ≠ y.components) ↔
      (packageDir config a).components ≠ (packageDir config b).components := by
    constructor
    · exact fun h => h _ List.mem_cons_self _ List.mem_cons_self
    · intro h x hx y hy
      rw [hdirs a x hx, hdirs b y hy]
      exact h
  have hsame : (packageDir config a).components = (packageDir config b).components ↔
      sanitizeName a.id.name = sanitizeName b.id.name ∧ a.id.version = b.id.version := by
    rw [packageDir_components config ha, packageDir_components config hb]
    simp [String.toList_inj]
  rw [hall, Ne, hsame, sanitizeName_eq_iff ha.name hb.name]
  constructor
  · intro h hversion
    exact ⟨fun hab => h ⟨.inr (.inl hab), hversion⟩, fun hba => h ⟨.inr (.inr hba), hversion⟩⟩
  · intro h hsame
    obtain ⟨hname, hversion⟩ := hsame
    cases hname with
    | inl heq =>
        apply hne
        rw [show a.id = ⟨a.id.name, a.id.version⟩ from rfl, heq, hversion]
    | inr hclash => exact hclash.elim (h hversion).1 (h hversion).2

def storeConfig : SnpmConfig := ⟨.none, ∅, ∅, "/data", none, false, "^"⟩

def namedPackage (name : String) : ResolvedPackage := samplePackage ⟨name, "1.0.0"⟩ "a.tgz" ∅

theorem validId_named {name : String} (h : ValidName name.toList) :
    ValidId (namedPackage name).id where
  name := h
  version := by
    change PathBuf.IsSegment "1.0.0"
    exact ⟨by decide, by decide, by decide, by decide⟩

theorem validName_first : ValidName "@a/b_c".toList :=
  @ValidName.inScope ['a'] ['b', '_', 'c'] (by simp) (List.all_eq_true.mp (by decide)) (List.all_eq_true.mp (by decide))

theorem validName_second : ValidName "@a_b/c".toList :=
  @ValidName.inScope ['a', '_', 'b'] ['c'] (by simp) (List.all_eq_true.mp (by decide)) (List.all_eq_true.mp (by decide))

theorem validName_plain : ValidName "a_b_c".toList :=
  .bare (by decide) (List.all_eq_true.mp (by decide)) (by decide)

/-- Both scopes and both base names are valid, and the packages share a directory. -/
theorem scoped_names_share_directory :
    ∃ a b : ResolvedPackage, ValidId a.id ∧ ValidId b.id ∧ a.id ≠ b.id ∧
      packageDir storeConfig a = "/data/packages/@a_b_c/1.0.0" ∧
      packageDir storeConfig b = "/data/packages/@a_b_c/1.0.0" ∧
      residencyPackageDir storeConfig.packagesDir a.id =
        residencyPackageDir storeConfig.packagesDir b.id :=
  ⟨namedPackage "@a/b_c", namedPackage "@a_b/c", validId_named validName_first,
    validId_named validName_second, by decide, by decide, by decide, by decide⟩

theorem not_clash_of_head {a b : String} (h : b.toList.head? ≠ some '@') :
    ¬ Clash a b ∧ ¬ Clash b a := by
  constructor
  · rintro ⟨scope, middle, name, _, rfl⟩
    simp at h
  · rintro ⟨scope, middle, name, rfl, _⟩
    simp at h

theorem store_dirs_differ_scoped_plain :
    (namedPackage "@a/b_c").id ≠ (namedPackage "a_b_c").id ∧
      ∀ x ∈ storeDirs storeConfig (namedPackage "@a/b_c"),
        ∀ y ∈ storeDirs storeConfig (namedPackage "a_b_c"), x.components ≠ y.components :=
  ⟨by decide,
    (store_dirs_differ_iff storeConfig (namedPackage "@a/b_c") (namedPackage "a_b_c")
      (validId_named validName_first) (validId_named validName_plain) (by decide)).mpr
        fun _ => not_clash_of_head (by decide)⟩

end Directories

end Store

end Snpm
