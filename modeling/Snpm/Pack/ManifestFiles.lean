import Mathlib
import Snpm.Pack.Walk

/-!
The two ways into a package, through an entry that names a file and through an
entry that names a directory above it: what each leaves out, and when both
leave out the same.
-/
namespace Snpm.Pack

open DirTree

section Rules

variable {newPattern : NewPattern} {root : PathBuf} {entries : Entries} {dir path : RelPath}

/-- The ignore file of a directory, if it has one, is UTF-8. -/
def Readable (entries : Entries) : Prop :=
  ∀ name file, ignoreFile entries = some (name, file) → file.text ≠ none

variable (newPattern) in
/-- The rules of a readable directory. -/
def ownRules (dir : RelPath) (entries : Entries) : List IgnoreRule :=
  match ignoreFile entries with
  | none => []
  | some (_, file) => parseIgnoreRules newPattern (file.text.getD "") (relativePath dir)

theorem loadIgnoreRules_eq_ok_iff {rules : List IgnoreRule} :
    loadIgnoreRules newPattern root dir entries true = .ok rules ↔
      Readable entries ∧ ownRules newPattern dir entries = rules := by
  simp only [loadIgnoreRules, if_true, Readable, ownRules]
  cases ignoreFile entries with
  | none => simp
  | some found =>
      obtain ⟨name, file⟩ := found
      cases htext : file.text with
      | none => simp [htext]
      | some content => simp [htext]

theorem loadIgnoreRules_unhonored :
    loadIgnoreRules newPattern root dir entries false = .ok [] := by
  simp [loadIgnoreRules]

/-- Every directory below `entries` along a path is readable. -/
def ReadableBelow : Entries → RelPath → Prop
  | _, [] => True
  | entries, name :: path => ∀ sub, entries.subdir name = some sub →
      Readable sub ∧ ReadableBelow sub path

variable (newPattern) in
/-- The rules of the directories below `dir` along a path. -/
def rulesBelow : RelPath → Entries → RelPath → List IgnoreRule
  | _, _, [] => []
  | dir, entries, name :: path =>
      match entries.subdir name with
      | none => []
      | some sub => ownRules newPattern (dir ++ [name]) sub ++ rulesBelow (dir ++ [name]) sub path

theorem collectRulesBelow_eq_ok_iff {rules : List IgnoreRule} :
    collectRulesBelow newPattern root dir entries path = .ok rules ↔
      ReadableBelow entries path ∧ rulesBelow newPattern dir entries path = rules := by
  induction path generalizing dir entries rules with
  | nil => simp [collectRulesBelow, ReadableBelow, rulesBelow]
  | cons name path ih =>
      simp only [collectRulesBelow, ReadableBelow, rulesBelow]
      cases entries.subdir name with
      | none => simp
      | some sub =>
          simp only [Result.bind_eq_ok_iff, loadIgnoreRules_eq_ok_iff, ih, Except.ok.injEq,
            Option.some.injEq, forall_eq']
          constructor
          · rintro ⟨_, ⟨hown, rfl⟩, _, ⟨hmore, rfl⟩, rfl⟩
            exact ⟨⟨hown, hmore⟩, rfl⟩
          · rintro ⟨⟨hown, hmore⟩, rfl⟩
            exact ⟨_, ⟨hown, rfl⟩, _, ⟨hmore, rfl⟩, rfl⟩

theorem collectRulesForDir_eq_ok_iff {rules : List IgnoreRule} :
    collectRulesForDir newPattern root entries path false = .ok rules ↔
      ReadableBelow entries path ∧ rulesBelow newPattern [] entries path = rules := by
  simp only [collectRulesForDir, loadIgnoreRules_unhonored, Result.bind_eq_ok_iff,
    collectRulesBelow_eq_ok_iff, Except.ok.injEq]
  constructor
  · rintro ⟨_, rfl, _, ⟨hread, rfl⟩, rfl⟩
    exact ⟨hread, rfl⟩
  · rintro ⟨hread, rfl⟩
    exact ⟨[], rfl, _, ⟨hread, rfl⟩, rfl⟩

end Rules

section Walk

variable {newPattern : NewPattern} {root : PathBuf} {reason : PackFileReason}

/-- Every directory that a walk enters is readable. -/
def Walkable : Entries → RelPath → Prop
  | .nil, _ => True
  | .file _ _ rest, dir | .link _ _ rest, dir => Walkable rest dir
  | .dir name entries rest, dir =>
      (shouldSkipPath (relativePath (dir ++ [name])) = false →
        Readable entries ∧ Walkable entries (dir ++ [name])) ∧ Walkable rest dir

variable (newPattern) in
/-- The paths that a walk adds. -/
def Packs : Entries → RelPath → List IgnoreRule → RelPath → Prop
  | .nil, _, _, _ => False
  | .file name _ rest, dir, rules, p =>
      (p = dir ++ [name] ∧ shouldSkipPath (relativePath p) = false ∧
        isIgnored (relativePath p) false rules = false) ∨ Packs rest dir rules p
  | .link _ _ rest, dir, rules, p => Packs rest dir rules p
  | .dir name entries rest, dir, rules, p =>
      (shouldSkipPath (relativePath (dir ++ [name])) = false ∧
        Packs entries (dir ++ [name]) (rules ++ ownRules newPattern (dir ++ [name]) entries) p) ∨
      Packs rest dir rules p

theorem mem_addFile {path p : RelPath} {file : RegularFile} {files : Files} :
    p ∈ addFile root path file reason files ↔ p = path ∨ p ∈ files := by
  simp only [addFile, Std.ExtTreeMap.mem_insertIfNew, Std.LawfulEqCmp.compare_eq_iff_eq,
    eq_comm (a := path)]

variable {entries : Entries} {dir : RelPath} {rules : List IgnoreRule} {files : Files}

theorem collectEntries_of_walkable (h : Walkable entries dir) :
    ∃ out, collectEntries newPattern root reason entries dir rules files = .ok out := by
  induction entries generalizing dir rules files with
  | nil => exact ⟨files, rfl⟩
  | link name target rest ih => exact ih h
  | file name file rest ih =>
      simp only [collectEntries]
      split
      · exact ih h
      · exact ih h
  | dir name entries rest ihEntries ihRest =>
      simp only [collectEntries]
      split
      · exact ihRest h.2
      · rename_i hskip
        have hread := h.1 (by simpa using hskip)
        obtain ⟨out, hout⟩ := @ihEntries (dir ++ [name])
          (rules ++ ownRules newPattern (dir ++ [name]) entries) files hread.2
        obtain ⟨last, hlast⟩ := @ihRest dir rules out h.2
        refine ⟨last, ?_⟩
        simp only [loadIgnoreRules_eq_ok_iff.mpr ⟨hread.1, rfl⟩, Result.bind_eq_ok_iff]
        exact ⟨_, rfl, out, hout, hlast⟩

/-- What a walk has added when it ends. -/
theorem collectEntries_spec {out : Files}
    (h : collectEntries newPattern root reason entries dir rules files = .ok out) :
    Walkable entries dir ∧
      ∀ p, p ∈ out ↔ p ∈ files ∨ Packs newPattern entries dir rules p := by
  induction entries generalizing dir rules files out with
  | nil =>
      cases h
      simp [Walkable, Packs]
  | link name target rest ih => exact ih h
  | file name file rest ih =>
      simp only [collectEntries] at h
      simp only [Walkable, Packs]
      split at h
      · rename_i hout
        obtain ⟨hwalk, hmem⟩ := ih h
        refine ⟨hwalk, fun p => (hmem p).trans (or_congr_right ?_)⟩
        constructor
        · exact .inr
        · rintro (⟨rfl, hskip, hignored⟩ | hrest)
          · simp [hskip, hignored] at hout
          · exact hrest
      · rename_i hin
        obtain ⟨hwalk, hmem⟩ := ih h
        simp only [Bool.or_eq_true, not_or, Bool.not_eq_true] at hin
        refine ⟨hwalk, fun p => (hmem p).trans ?_⟩
        rw [mem_addFile]
        constructor
        · rintro ((rfl | hfiles) | hrest)
          · exact .inr (.inl ⟨rfl, hin.1, hin.2⟩)
          · exact .inl hfiles
          · exact .inr (.inr hrest)
        · rintro (hfiles | ⟨rfl, _⟩ | hrest)
          · exact .inl (.inr hfiles)
          · exact .inl (.inl rfl)
          · exact .inr hrest
  | dir name entries rest ihEntries ihRest =>
      simp only [collectEntries] at h
      simp only [Walkable, Packs]
      split at h
      · rename_i hskip
        obtain ⟨hwalk, hmem⟩ := ihRest h
        simpa [hskip, hwalk] using hmem
      · rename_i hskip
        simp only [Bool.not_eq_true] at hskip
        simp only [Result.bind_eq_ok_iff, loadIgnoreRules_eq_ok_iff] at h
        obtain ⟨_, ⟨hread, rfl⟩, next, hentries, hrest⟩ := h
        obtain ⟨hwalkEntries, hmemEntries⟩ := ihEntries hentries
        obtain ⟨hwalkRest, hmemRest⟩ := ihRest hrest
        refine ⟨⟨fun _ => ⟨hread, hwalkEntries⟩, hwalkRest⟩, fun p => ?_⟩
        rw [hmemRest, hmemEntries, or_assoc]
        simp only [hskip, true_and]

/-- What a walk packs lies below an entry of the directory. -/
theorem Packs.below {p : RelPath} (h : Packs newPattern entries dir rules p) :
    ∃ name ∈ entries.names, ∃ path, p = dir ++ name :: path := by
  induction entries generalizing dir rules with
  | nil => cases h
  | link name target rest ih =>
      obtain ⟨next, hnext, path, hp⟩ := ih h
      exact ⟨next, List.mem_cons_of_mem name hnext, path, hp⟩
  | file name file rest ih =>
      cases h with
      | inl hfile => exact ⟨name, List.mem_cons_self, [], hfile.1⟩
      | inr hrest =>
          obtain ⟨next, hnext, path, hp⟩ := ih hrest
          exact ⟨next, List.mem_cons_of_mem name hnext, path, hp⟩
  | dir name sub rest ihSub ihRest =>
      cases h with
      | inl hsub =>
          obtain ⟨next, _, path, hp⟩ := ihSub hsub.2
          exact ⟨name, List.mem_cons_self, next :: path, by simp [hp]⟩
      | inr hrest =>
          obtain ⟨next, hnext, path, hp⟩ := ihRest hrest
          exact ⟨next, List.mem_cons_of_mem name hnext, path, hp⟩

theorem not_packs_of_not_mem {name : String} {path : RelPath} (h : name ∉ entries.names) :
    ¬ Packs newPattern entries dir rules (dir ++ name :: path) := by
  intro hpacks
  obtain ⟨next, hnext, more, heq⟩ := hpacks.below
  rw [List.append_cancel_left_eq, List.cons.injEq] at heq
  exact h (heq.1 ▸ hnext)

theorem packs_file {name : String} {file : RegularFile} (hdistinct : entries.Distinct)
    (hfile : entries.fileNamed name = some file) :
    Packs newPattern entries dir rules (dir ++ [name]) ↔
      shouldSkipPath (relativePath (dir ++ [name])) = false ∧
        isIgnored (relativePath (dir ++ [name])) false rules = false := by
  induction entries with
  | nil => cases hfile
  | link _ _ rest ih => exact ih hdistinct.2 hfile
  | file next _ rest ih =>
      simp only [Listing.fileNamed] at hfile
      simp only [Packs]
      split at hfile
      · rename_i heq
        subst heq
        simp [not_packs_of_not_mem hdistinct.1]
      · rename_i hne
        simp [hne, ih hdistinct.2 hfile]
  | dir next sub rest _ ih =>
      simp only [Packs]
      have hnot : ¬ Packs newPattern sub (dir ++ [next])
          (rules ++ ownRules newPattern (dir ++ [next]) sub) (dir ++ [name]) := by
        intro hpacks
        obtain ⟨_, _, _, heq⟩ := hpacks.below
        simp at heq
      simp [hnot, ih hdistinct.2.2 hfile]

theorem packs_dir {name : String} {sub : Entries} {path : RelPath} (hdistinct : entries.Distinct)
    (hpath : path ≠ []) (hsub : entries.subdir name = some sub) :
    Packs newPattern entries dir rules (dir ++ name :: path) ↔
      shouldSkipPath (relativePath (dir ++ [name])) = false ∧
        Packs newPattern sub (dir ++ [name]) (rules ++ ownRules newPattern (dir ++ [name]) sub)
          (dir ++ [name] ++ path) := by
  induction entries with
  | nil => cases hsub
  | link _ _ rest ih => exact ih hdistinct.2 hsub
  | file next _ rest ih =>
      simp only [Packs]
      have hne : ¬ dir ++ name :: path = dir ++ [next] := by
        simp [hpath]
      simp [hne, ih hdistinct.2 hsub]
  | dir next inner rest _ ih =>
      simp only [Listing.subdir] at hsub
      simp only [Packs]
      split at hsub
      · rename_i heq
        subst heq
        cases hsub
        simp [not_packs_of_not_mem hdistinct.1]
      · rename_i hne
        have hnot : ¬ Packs newPattern inner (dir ++ [next])
            (rules ++ ownRules newPattern (dir ++ [next]) inner) (dir ++ name :: path) := by
          intro hpacks
          obtain ⟨_, _, _, heq⟩ := hpacks.below
          simp [hne] at heq
        simp [hnot, ih hdistinct.2.2 hsub]

/-- No component of a path below `dir` is an always-skipped name. -/
def Unskipped : RelPath → RelPath → Prop
  | _, [] => True
  | dir, name :: path =>
      shouldSkipPath (relativePath (dir ++ [name])) = false ∧ Unskipped (dir ++ [name]) path

/-- A walk packs a file unless a component below the walked directory is skipped or
the rules that it meets on the way exclude the file. -/
theorem packs_iff {path : RelPath} {name : String} {sub : Entries} {file : RegularFile}
    (hdistinct : entries.Distinct) (hsub : entries.dirAt path = some sub)
    (hfile : sub.fileNamed name = some file) :
    Packs newPattern entries dir rules (dir ++ (path ++ [name])) ↔
      Unskipped dir (path ++ [name]) ∧
        isIgnored (relativePath (dir ++ (path ++ [name]))) false
          (rules ++ rulesBelow newPattern dir entries path) = false := by
  induction path generalizing entries dir rules with
  | nil =>
      cases hsub
      simp only [List.nil_append, Unskipped, rulesBelow, List.append_nil, and_true]
      exact packs_file hdistinct hfile
  | cons next path ih =>
      obtain ⟨inner, hinner, hrest⟩ := Option.bind_eq_some_iff.mp hsub
      have hne : path ++ [name] ≠ [] := by simp
      simp only [List.cons_append, Unskipped, rulesBelow, hinner]
      rw [packs_dir hdistinct hne hinner, ih (hdistinct.subdir hinner) hrest]
      simp [and_assoc]

end Walk

section Routes

variable (newPattern : NewPattern) (root : PathBuf) (manifestPath : RelPath)

/-- The path `p` is packed because an entry of the list names `path`. -/
def PackedThrough (tree : Entries) (path p : RelPath) : Prop :=
  ∃ out, addPatternMatch newPattern root manifestPath tree path ∅ = .ok out ∧ p ∈ out

/-- A directory that an entry names, and every directory below that its walk enters, is readable;
the ignore file of the root is not loaded. -/
def WalkReadable (dir : RelPath) (entries : Entries) : Prop :=
  (dir ≠ [] → Readable entries) ∧ Walkable entries dir

/-- The rules that the walk of a named directory applies in a directory below it. -/
def rulesFrom (dir : RelPath) (entries : Entries) (path : RelPath) : List IgnoreRule :=
  (if dir = [] then [] else ownRules newPattern dir entries) ++ rulesBelow newPattern dir entries path

variable {newPattern root manifestPath} {tree : Entries} {path : RelPath} {name : String}
  {sub : Entries} {file : RegularFile}

theorem entryAt_file (hsub : tree.dirAt path = some sub) (hfile : sub.fileNamed name = some file) :
    entryAt Listing.fileNamed tree (path ++ [name]) = some file ∧
      entryAt isFile tree (path ++ [name]) = some file := by
  simp [entryAt, hsub, hfile, isFile]

/-- The entry names the file. -/
theorem packedThrough_file (hsub : tree.dirAt path = some sub)
    (hfile : sub.fileNamed name = some file) :
    PackedThrough newPattern root manifestPath tree (path ++ [name]) (path ++ [name]) ↔
      path ++ [name] ≠ manifestPath ∧ shouldSkipPath (relativePath (path ++ [name])) = false ∧
        ReadableBelow tree path ∧ isIgnored (relativePath (path ++ [name])) false
          (rulesBelow newPattern [] tree path) = false := by
  have hentry := entryAt_file hsub hfile
  simp only [PackedThrough, addPatternMatch, hentry.1, hentry.2]
  by_cases hmanifest : path ++ [name] = manifestPath
  · simp [hmanifest]
  · simp only [hmanifest, if_false, ne_eq, not_false_eq_true, true_and]
    cases hskip : shouldSkipPath (relativePath (path ++ [name])) with
    | true =>
        have hinclude : shouldIncludeFileFromRoot newPattern root tree (path ++ [name]) false =
            .ok false := by
          simp [shouldIncludeFileFromRoot, hskip]
        simp [hinclude, Result.bind_eq_ok_iff]
    | false =>
        simp only [shouldIncludeFileFromRoot, hskip, Bool.false_eq_true, if_false,
          List.dropLast_concat, Result.bind_eq_ok_iff, collectRulesForDir_eq_ok_iff, true_and,
          Except.ok.injEq]
        constructor
        · rintro ⟨out, ⟨included, ⟨rules, ⟨hread, rfl⟩, hincluded⟩, hout⟩, hmem⟩
          refine ⟨hread, ?_⟩
          cases hignored : isIgnored (relativePath (path ++ [name])) false
              (rulesBelow newPattern [] tree path) with
          | false => rfl
          | true =>
              rw [hignored] at hincluded
              subst hincluded
              subst hout
              simp at hmem
        · rintro ⟨hread, hignored⟩
          refine ⟨_, ⟨true, ⟨_, ⟨hread, rfl⟩, by simp [hignored]⟩, rfl⟩, ?_⟩
          exact mem_addFile.mpr (.inl rfl)

theorem entryAt_dir {tree : Entries} (hdistinct : tree.Distinct) {dir : RelPath} {entries : Entries}
    (hdir : tree.dirAt dir = some entries) : entryAt isFile tree dir = none := by
  cases dir using List.reverseRecOn with
  | nil => rfl
  | append_singleton front last =>
      rw [Listing.dirAt_append] at hdir
      obtain ⟨parent, hparent, hlast⟩ := Option.bind_eq_some_iff.mp hdir
      obtain ⟨entries, hsub, _⟩ := Option.bind_eq_some_iff.mp hlast
      have honly := (hdistinct.dirAt hparent).only_dir hsub
      simp [entryAt, hparent, isFile, honly.1, honly.2]

/-- The entry names a directory above the file. -/
theorem packedThrough_dir (hdistinct : tree.Distinct) {dir : RelPath} {entries : Entries}
    (hdir : tree.dirAt dir = some entries) (hsub : entries.dirAt path = some sub)
    (hfile : sub.fileNamed name = some file) :
    PackedThrough newPattern root manifestPath tree dir (dir ++ (path ++ [name])) ↔
      WalkReadable dir entries ∧ Unskipped dir (path ++ [name]) ∧
        isIgnored (relativePath (dir ++ (path ++ [name]))) false
          (rulesFrom newPattern dir entries path) = false := by
  have hpacks (rules : List IgnoreRule) : Packs newPattern entries dir rules (dir ++ (path ++ [name])) ↔ _ :=
    packs_iff (hdistinct.dirAt hdir) hsub hfile
  have hload : ∀ rules, loadIgnoreRules newPattern root dir entries (false || decide (dir ≠ [])) = .ok rules ↔
      (dir ≠ [] → Readable entries) ∧
        (if dir = [] then [] else ownRules newPattern dir entries) = rules := by
    intro rules
    by_cases hroot : dir = []
    · simp [hroot, loadIgnoreRules]
    · simp [hroot, loadIgnoreRules_eq_ok_iff]
  simp only [PackedThrough, addPatternMatch, entryAt_dir hdistinct hdir, hdir,
    collectDirFilesFilteredFromRoot, collectDirRecursive, Result.bind_eq_ok_iff, hload,
    List.nil_append]
  constructor
  · rintro ⟨out, ⟨rules, ⟨hread, rfl⟩, hout⟩, hmem⟩
    obtain ⟨hwalk, hiff⟩ := collectEntries_spec hout
    have hin := (hiff _).mp hmem
    simp only [Std.ExtTreeMap.not_mem_empty, false_or] at hin
    exact ⟨⟨hread, hwalk⟩, (hpacks _).mp hin⟩
  · rintro ⟨⟨hread, hwalk⟩, hclear⟩
    obtain ⟨out, hout⟩ : ∃ out, collectEntries newPattern root .manifestFiles entries dir
        (if dir = [] then [] else ownRules newPattern dir entries) ∅ = .ok out :=
      collectEntries_of_walkable hwalk
    refine ⟨out, ⟨_, ⟨hread, rfl⟩, hout⟩, ?_⟩
    exact ((collectEntries_spec hout).2 _).mpr (.inr ((hpacks _).mpr hclear))

end Routes

section Agreement

variable (newPattern : NewPattern) (root : PathBuf) (manifestPath : RelPath) (tree : Entries)

/-- A file excluded by an ignore file between the root and the file, or by a name on its path. -/
def KeptByAll (path : RelPath) (name : String) : Prop :=
  Unskipped [] (path ++ [name]) ∧
    isIgnored (relativePath (path ++ [name])) false (rulesBelow newPattern [] tree path) = false

/-- An entry that names the file and one that names a directory above it have the same effect,
and neither packs what a name or an ignore file leaves out. -/
def RoutesAgree (dir path : RelPath) (name : String) : Prop :=
  (PackedThrough newPattern root manifestPath tree (dir ++ (path ++ [name])) (dir ++ (path ++ [name])) ↔
    PackedThrough newPattern root manifestPath tree dir (dir ++ (path ++ [name]))) ∧
  (PackedThrough newPattern root manifestPath tree (dir ++ (path ++ [name])) (dir ++ (path ++ [name])) ∨
    PackedThrough newPattern root manifestPath tree dir (dir ++ (path ++ [name])) →
      KeptByAll newPattern tree (dir ++ path) name)

/-- What keeps a file out that an entry names: its own name, the ignore files above it,
or that it is the manifest. -/
def FileLeftOut (path : RelPath) (name : String) : Prop :=
  path ++ [name] = manifestPath ∨ shouldSkipPath (relativePath (path ++ [name])) = true ∨
    ¬ ReadableBelow tree path ∨
    isIgnored (relativePath (path ++ [name])) false (rulesBelow newPattern [] tree path) = true

/-- What keeps a file out below a directory that an entry names: a name below the directory,
or the ignore files from the directory on. -/
def WalkLeavesOut (dir : RelPath) (entries : Entries) (path : RelPath) (name : String) : Prop :=
  ¬ WalkReadable dir entries ∨ ¬ Unskipped dir (path ++ [name]) ∨
    isIgnored (relativePath (dir ++ (path ++ [name]))) false
      (rulesFrom newPattern dir entries path) = true

/-- Nothing keeps the file out and both routes can be walked, or something keeps it out on each. -/
def LeftOutAlike (dir : RelPath) (entries : Entries) (path : RelPath) (name : String) : Prop :=
  (KeptByAll newPattern tree (dir ++ path) name ∧ dir ++ (path ++ [name]) ≠ manifestPath ∧
    ReadableBelow tree (dir ++ path) ∧ WalkReadable dir entries) ∨
  (FileLeftOut newPattern manifestPath tree (dir ++ path) name ∧
    WalkLeavesOut newPattern dir entries path name)

variable {newPattern root manifestPath tree}

theorem unskipped_append {dir path more : RelPath} :
    Unskipped dir (path ++ more) ↔ Unskipped dir path ∧ Unskipped (dir ++ path) more := by
  induction path generalizing dir with
  | nil => simp [Unskipped]
  | cons name path ih => simp [Unskipped, ih, and_assoc]

theorem rulesBelow_append {start path more : RelPath} {entries sub : Entries}
    (h : entries.dirAt path = some sub) :
    rulesBelow newPattern start entries (path ++ more) =
      rulesBelow newPattern start entries path ++ rulesBelow newPattern (start ++ path) sub more := by
  induction path generalizing start entries with
  | nil =>
      cases h
      simp [rulesBelow]
  | cons name path ih =>
      obtain ⟨inner, hinner, hrest⟩ := Option.bind_eq_some_iff.mp h
      simp only [List.cons_append, rulesBelow, hinner, ih hrest]
      simp

/-- The rules of a directory are the last ones on the way to it. -/
theorem ownRules_suffix {start path : RelPath} {entries sub : Entries} (hpath : path ≠ [])
    (h : entries.dirAt path = some sub) :
    ownRules newPattern (start ++ path) sub <:+ rulesBelow newPattern start entries path := by
  cases path using List.reverseRecOn with
  | nil => exact absurd rfl hpath
  | append_singleton front last =>
      rw [Listing.dirAt_append] at h
      obtain ⟨parent, hparent, hlast⟩ := Option.bind_eq_some_iff.mp h
      obtain ⟨inner, hinner, hsub⟩ := Option.bind_eq_some_iff.mp hlast
      cases hsub
      rw [rulesBelow_append hparent]
      simp [rulesBelow, hinner]

theorem rulesFrom_suffix {dir path : RelPath} {entries : Entries}
    (h : tree.dirAt dir = some entries) :
    rulesFrom newPattern dir entries path <:+ rulesBelow newPattern [] tree (dir ++ path) := by
  rw [rulesBelow_append h, List.nil_append, rulesFrom]
  split
  · exact List.suffix_append _ _
  · rename_i hdir
    have hsuffix : ownRules newPattern ([] ++ dir) entries <:+ rulesBelow newPattern [] tree dir :=
      ownRules_suffix hdir h
    obtain ⟨front, hfront⟩ := hsuffix
    rw [List.nil_append] at hfront
    exact ⟨front, by rw [← hfront, List.append_assoc]⟩

/-- Rules that come first only matter where the others say nothing. -/
theorem isIgnored_of_suffix {path : String} {isDir : Bool} {rules more : List IgnoreRule}
    (hsuffix : more <:+ rules) (h : isIgnored path isDir more = true) :
    isIgnored path isDir rules = true := by
  obtain ⟨front, rfl⟩ := hsuffix
  induction more using List.reverseRecOn with
  | nil => cases h
  | append_singleton more rule ih =>
      rw [← List.append_assoc]
      simp only [isIgnored, List.foldl_append, List.foldl_cons, List.foldl_nil] at h ih ⊢
      split at h
      · rename_i hmatch
        rw [if_pos hmatch]
        exact h
      · rename_i hmatch
        rw [if_neg hmatch]
        exact ih h

variable {dir path : RelPath} {name : String} {entries sub : Entries} {file : RegularFile}

/-- Exactly when both ways into the package agree on a file. -/
theorem routesAgree_iff (hdistinct : tree.Distinct) (hdir : tree.dirAt dir = some entries)
    (hsub : entries.dirAt path = some sub) (hfile : sub.fileNamed name = some file) :
    RoutesAgree newPattern root manifestPath tree dir path name ↔
      LeftOutAlike newPattern manifestPath tree dir entries path name := by
  have hboth : tree.dirAt (dir ++ path) = some sub := by simp [Listing.dirAt_append, hdir, hsub]
  have hfileRoute : PackedThrough newPattern root manifestPath tree (dir ++ path ++ [name])
      (dir ++ path ++ [name]) ↔ _ := packedThrough_file hboth hfile
  have hdirRoute : PackedThrough newPattern root manifestPath tree dir (dir ++ (path ++ [name])) ↔ _ :=
    packedThrough_dir hdistinct hdir hsub hfile
  rw [List.append_assoc] at hfileRoute
  have hkept : KeptByAll newPattern tree (dir ++ path) name →
      shouldSkipPath (relativePath (dir ++ (path ++ [name]))) = false ∧ Unskipped dir (path ++ [name]) ∧
        isIgnored (relativePath (dir ++ (path ++ [name]))) false
          (rulesBelow newPattern [] tree (dir ++ path)) = false ∧
        isIgnored (relativePath (dir ++ (path ++ [name]))) false
          (rulesFrom newPattern dir entries path) = false := by
    rintro ⟨hunskipped, hignored⟩
    rw [List.append_assoc] at hunskipped hignored
    have hlast := (unskipped_append.mp hunskipped).2
    refine ⟨?_, hlast, hignored, ?_⟩
    · have hname := (unskipped_append.mp hlast).2
      simpa [Unskipped] using hname.1
    · cases hfrom : isIgnored (relativePath (dir ++ (path ++ [name]))) false
          (rulesFrom newPattern dir entries path) with
      | false => rfl
      | true =>
          rw [isIgnored_of_suffix (rulesFrom_suffix hdir) hfrom] at hignored
          cases hignored
  simp only [RoutesAgree, LeftOutAlike, hfileRoute, hdirRoute, FileLeftOut, WalkLeavesOut,
    List.append_assoc]
  by_cases hall : KeptByAll newPattern tree (dir ++ path) name
  · obtain ⟨hskip, hunskipped, hbelow, hfrom⟩ := hkept hall
    simp only [hall, hskip, hunskipped, hbelow, hfrom]
    by_cases hmanifest : dir ++ (path ++ [name]) = manifestPath <;>
      by_cases hread : ReadableBelow tree (dir ++ path) <;>
      by_cases hwalk : WalkReadable dir entries <;>
      simp [hmanifest, hread, hwalk]
  · simp only [hall, false_and, false_or, imp_false, not_or]
    constructor
    · rintro ⟨_, hfileOut, hwalkOut⟩
      refine ⟨?_, ?_⟩
      · by_contra hin
        simp only [not_or, not_not, Bool.not_eq_true] at hin
        exact hfileOut ⟨hin.1, hin.2.1, hin.2.2.1, hin.2.2.2⟩
      · by_contra hin
        simp only [not_or, not_not, Bool.not_eq_true] at hin
        exact hwalkOut hin
    · rintro ⟨hfileOut, hwalkOut⟩
      have hfileNot : ¬ (dir ++ (path ++ [name]) ≠ manifestPath ∧
          shouldSkipPath (relativePath (dir ++ (path ++ [name]))) = false ∧
          ReadableBelow tree (dir ++ path) ∧
          isIgnored (relativePath (dir ++ (path ++ [name]))) false
            (rulesBelow newPattern [] tree (dir ++ path)) = false) := by
        rintro ⟨hmanifest, hskip, hread, hignored⟩
        simp [hmanifest, hskip, hread, hignored] at hfileOut
      have hwalkNot : ¬ (WalkReadable dir entries ∧ Unskipped dir (path ++ [name]) ∧
          isIgnored (relativePath (dir ++ (path ++ [name]))) false
            (rulesFrom newPattern dir entries path) = false) := by
        rintro ⟨hread, hunskipped, hignored⟩
        simp [hread, hunskipped, hignored] at hwalkOut
      exact ⟨⟨fun h => absurd h hfileNot, fun h => absurd h hwalkNot⟩, hfileNot, hwalkNot⟩

/-- `src/.npmignore` excludes `secret.js`. -/
def ruledTree : Entries :=
  .dir "src" (.file ".npmignore" ⟨10, some "secret.js\n"⟩
    (.dir "lib" (.file "secret.js" ⟨1, some "x"⟩ (.file "index.js" ⟨1, some "y"⟩ .nil)) .nil)) .nil

theorem ruledTree_index_alike :
    RoutesAgree comparePattern "/p" ["package.json"] ruledTree ["src", "lib"] [] "index.js" ↔
      LeftOutAlike comparePattern ["package.json"] ruledTree ["src", "lib"]
        (.file "secret.js" ⟨1, some "x"⟩ (.file "index.js" ⟨1, some "y"⟩ .nil)) [] "index.js" :=
  routesAgree_iff (by simp [ruledTree, Listing.Distinct, Listing.names]) rfl rfl rfl

theorem packedThrough_iff_any {path p : RelPath} :
    PackedThrough newPattern root manifestPath tree path p ↔
      (addPatternMatch newPattern root manifestPath tree path ∅).toOption.any (·.contains p) = true := by
  simp only [PackedThrough]
  cases addPatternMatch newPattern root manifestPath tree path ∅ with
  | error e => simp [Except.toOption]
  | ok out => simp [Except.toOption]

/-- An entry `src/lib` packs `src/lib/secret.js`, an entry for the file itself does not. -/
theorem ruledTree_secret_differs :
    ¬ RoutesAgree comparePattern "/p" ["package.json"] ruledTree ["src", "lib"] [] "secret.js" := by
  intro ⟨hiff, _⟩
  have hdir : PackedThrough comparePattern "/p" ["package.json"] ruledTree ["src", "lib"]
      ["src", "lib", "secret.js"] := packedThrough_iff_any.mpr (by decide +kernel)
  have hfile : ¬ PackedThrough comparePattern "/p" ["package.json"] ruledTree
      ["src", "lib", "secret.js"] ["src", "lib", "secret.js"] :=
    fun h => absurd (packedThrough_iff_any.mp h) (by decide +kernel)
  exact hfile (hiff.mpr hdir)

end Agreement

end Snpm.Pack
