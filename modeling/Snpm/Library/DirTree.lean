import Mathlib

/-!
Directory trees as listings: the entries of a directory in the order in which
they are read, each directory with the listing below it. A place in a tree is
the sequence of names that leads to it; links are never followed.
-/
namespace DirTree

inductive Listing (N F L : Type) where
  | nil
  | file (name : N) (content : F) (rest : Listing N F L)
  | link (name : N) (target : L) (rest : Listing N F L)
  | dir (name : N) (entries rest : Listing N F L)
deriving DecidableEq

namespace Listing

variable {N F L : Type}

def names : Listing N F L → List N
  | .nil => []
  | .file name _ rest | .link name _ rest | .dir name _ rest => name :: rest.names

/-- No two entries of a directory share a name. -/
def Distinct : Listing N F L → Prop
  | .nil => True
  | .file name _ rest | .link name _ rest => name ∉ rest.names ∧ rest.Distinct
  | .dir name entries rest => name ∉ rest.names ∧ entries.Distinct ∧ rest.Distinct

/-- The names at every depth. -/
def allNames : Listing N F L → List N
  | .nil => []
  | .file name _ rest | .link name _ rest => name :: rest.allNames
  | .dir name entries rest => name :: (entries.allNames ++ rest.allNames)

def linkFree : Listing N F L → Bool
  | .nil => true
  | .link _ _ _ => false
  | .file _ _ rest => rest.linkFree
  | .dir _ entries rest => entries.linkFree && rest.linkFree

/-- The places of the directories below this one. -/
def dirPaths : Listing N F L → List (List N)
  | .nil => []
  | .file _ _ rest | .link _ _ rest => rest.dirPaths
  | .dir name entries rest => [name] :: (entries.dirPaths.map (name :: ·) ++ rest.dirPaths)

/-- The places of the files. -/
def filePaths : Listing N F L → List (List N)
  | .nil => []
  | .file name _ rest => [name] :: rest.filePaths
  | .link _ _ rest => rest.filePaths
  | .dir name entries rest => entries.filePaths.map (name :: ·) ++ rest.filePaths

variable [DecidableEq N]

/-- Write a file of this directory; a link or a directory is not overwritten. -/
def put (n : N) (content : F) : Listing N F L → Option (Listing N F L)
  | .nil => some (.file n content .nil)
  | .file name old rest =>
      if n = name then some (.file name content rest) else (rest.put n content).map (.file name old)
  | .link name target rest =>
      if n = name then none else (rest.put n content).map (.link name target)
  | .dir name entries rest =>
      if n = name then none else (rest.put n content).map (.dir name entries)

/-- Write a file of a directory below. -/
def putAt (n : N) (content : F) : List N → Listing N F L → Option (Listing N F L)
  | [], entries => entries.put n content
  | _ :: _, .nil => none
  | d :: path, .file name old rest => (rest.putAt n content (d :: path)).map (.file name old)
  | d :: path, .link name target rest => (rest.putAt n content (d :: path)).map (.link name target)
  | d :: path, .dir name entries rest =>
      if d = name then (entries.putAt n content path).map fun sub => .dir name sub rest
      else (rest.putAt n content (d :: path)).map (.dir name entries)

def subdir : Listing N F L → N → Option (Listing N F L)
  | .nil, _ => none
  | .file _ _ rest, n | .link _ _ rest, n => rest.subdir n
  | .dir name entries rest, n => if n = name then some entries else rest.subdir n

def fileNamed : Listing N F L → N → Option F
  | .nil, _ => none
  | .file name content rest, n => if n = name then some content else rest.fileNamed n
  | .link _ _ rest, n | .dir _ _ rest, n => rest.fileNamed n

def linkNamed : Listing N F L → N → Option L
  | .nil, _ => none
  | .link name target rest, n => if n = name then some target else rest.linkNamed n
  | .file _ _ rest, n | .dir _ _ rest, n => rest.linkNamed n

def dirAt : Listing N F L → List N → Option (Listing N F L)
  | entries, [] => some entries
  | entries, n :: path => (entries.subdir n).bind (·.dirAt path)

variable {entries rest sub : Listing N F L} {n : N} {path : List N}

theorem subdir_eq_none (h : n ∉ entries.names) : entries.subdir n = none := by
  induction entries with
  | nil => rfl
  | file name _ rest ih | link name _ rest ih =>
      exact ih fun hmem => h (List.mem_cons_of_mem name hmem)
  | dir name _ rest _ ih =>
      have hne : n ≠ name := fun heq => h (heq ▸ List.mem_cons_self)
      simp only [subdir, if_neg hne]
      exact ih fun hmem => h (List.mem_cons_of_mem name hmem)

theorem fileNamed_eq_none (h : n ∉ entries.names) : entries.fileNamed n = none := by
  induction entries with
  | nil => rfl
  | link name _ rest ih | dir name _ rest _ ih =>
      exact ih fun hmem => h (List.mem_cons_of_mem name hmem)
  | file name _ rest ih =>
      have hne : n ≠ name := fun heq => h (heq ▸ List.mem_cons_self)
      simp only [fileNamed, if_neg hne]
      exact ih fun hmem => h (List.mem_cons_of_mem name hmem)

theorem mem_names_of_subdir (h : entries.subdir n = some sub) : n ∈ entries.names := by
  by_contra hnot
  rw [subdir_eq_none hnot] at h
  cases h

theorem mem_names_of_fileNamed {file : F} (h : entries.fileNamed n = some file) :
    n ∈ entries.names := by
  by_contra hnot
  rw [fileNamed_eq_none hnot] at h
  cases h

theorem linkNamed_eq_none (h : n ∉ entries.names) : entries.linkNamed n = none := by
  induction entries with
  | nil => rfl
  | file name _ rest ih | dir name _ rest _ ih =>
      exact ih fun hmem => h (List.mem_cons_of_mem name hmem)
  | link name _ rest ih =>
      have hne : n ≠ name := fun heq => h (heq ▸ List.mem_cons_self)
      simp only [linkNamed, if_neg hne]
      exact ih fun hmem => h (List.mem_cons_of_mem name hmem)

/-- A name of a directory is the name of nothing else. -/
theorem Distinct.only_dir (h : entries.Distinct) (hsub : entries.subdir n = some sub) :
    entries.fileNamed n = none ∧ entries.linkNamed n = none := by
  induction entries with
  | nil => cases hsub
  | file name _ rest ih | link name _ rest ih =>
      have hne : n ≠ name := fun heq => h.1 (heq ▸ mem_names_of_subdir hsub)
      simp only [fileNamed, linkNamed, if_neg hne]
      exact ih h.2 hsub
  | dir name entries rest _ ih =>
      simp only [Listing.subdir] at hsub
      split at hsub
      · rename_i heq
        subst heq
        have hfile : rest.fileNamed n = none := fileNamed_eq_none h.1
        have hlink : rest.linkNamed n = none := linkNamed_eq_none h.1
        exact ⟨hfile, hlink⟩
      · exact ih h.2.2 hsub

theorem Distinct.subdir (h : entries.Distinct) (hsub : entries.subdir n = some sub) :
    sub.Distinct := by
  induction entries with
  | nil => cases hsub
  | file _ _ rest ih | link _ _ rest ih => exact ih h.2 hsub
  | dir name entries rest _ ih =>
      simp only [Listing.subdir] at hsub
      split at hsub
      · cases hsub
        exact h.2.1
      · exact ih h.2.2 hsub

theorem Distinct.dirAt (h : entries.Distinct) (hsub : entries.dirAt path = some sub) :
    sub.Distinct := by
  induction path generalizing entries with
  | nil =>
      cases hsub
      exact h
  | cons n path ih =>
      obtain ⟨next, hnext, hrest⟩ := Option.bind_eq_some_iff.mp hsub
      exact ih (h.subdir hnext) hrest

theorem dirAt_append (entries : Listing N F L) (path more : List N) :
    entries.dirAt (path ++ more) = (entries.dirAt path).bind (·.dirAt more) := by
  induction path generalizing entries with
  | nil => rfl
  | cons n path ih =>
      simp only [List.cons_append, dirAt]
      cases entries.subdir n with
      | none => rfl
      | some sub => exact ih sub

omit [DecidableEq N] in
theorem mem_dirPaths {path : List N} (h : path ∈ entries.dirPaths) :
    path ≠ [] ∧ ∀ n ∈ path, n ∈ entries.allNames := by
  induction entries generalizing path with
  | nil => cases h
  | file name _ rest ih | link name _ rest ih =>
      exact ⟨(ih h).1, fun n hn => List.mem_cons_of_mem name ((ih h).2 n hn)⟩
  | dir name entries rest ihEntries ihRest =>
      simp only [dirPaths, List.mem_cons, List.mem_append, List.mem_map] at h
      simp only [allNames, List.mem_cons, List.mem_append]
      obtain rfl | ⟨below, hbelow, rfl⟩ | hrest := h
      · exact ⟨List.cons_ne_nil _ _, fun n hn => .inl (List.mem_singleton.mp hn)⟩
      · refine ⟨List.cons_ne_nil _ _, fun n hn => ?_⟩
        cases List.mem_cons.mp hn with
        | inl hname => exact .inl hname
        | inr hn => exact .inr (.inl ((ihEntries hbelow).2 n hn))
      · exact ⟨(ihRest hrest).1, fun n hn => .inr (.inr ((ihRest hrest).2 n hn))⟩

omit [DecidableEq N] in
theorem mem_filePaths {path : List N} (h : path ∈ entries.filePaths) :
    path ≠ [] ∧ ∀ n ∈ path, n ∈ entries.allNames := by
  induction entries generalizing path with
  | nil => cases h
  | link name _ rest ih =>
      exact ⟨(ih h).1, fun n hn => List.mem_cons_of_mem name ((ih h).2 n hn)⟩
  | file name _ rest ih =>
      simp only [filePaths, List.mem_cons] at h
      simp only [allNames, List.mem_cons]
      obtain rfl | hrest := h
      · exact ⟨List.cons_ne_nil _ _, fun n hn => .inl (List.mem_singleton.mp hn)⟩
      · exact ⟨(ih hrest).1, fun n hn => .inr ((ih hrest).2 n hn)⟩
  | dir name entries rest ihEntries ihRest =>
      simp only [filePaths, List.mem_append, List.mem_map] at h
      simp only [allNames, List.mem_cons, List.mem_append]
      obtain ⟨below, hbelow, rfl⟩ | hrest := h
      · refine ⟨List.cons_ne_nil _ _, fun n hn => ?_⟩
        cases List.mem_cons.mp hn with
        | inl hname => exact .inl hname
        | inr hn => exact .inr (.inl ((ihEntries hbelow).2 n hn))
      · exact ⟨(ihRest hrest).1, fun n hn => .inr (.inr ((ihRest hrest).2 n hn))⟩

omit [DecidableEq N] in
/-- Every name of the way to a file but the last is a directory's. -/
theorem dirPaths_of_filePaths {path more : List N} (hpath : path ≠ []) (hmore : more ≠ [])
    (h : path ++ more ∈ entries.filePaths) : path ∈ entries.dirPaths := by
  induction entries generalizing path with
  | nil => cases h
  | link name _ rest ih => exact ih hpath h
  | file name _ rest ih =>
      simp only [filePaths, List.mem_cons] at h
      cases h with
      | inl hname =>
          have hlength := congrArg List.length hname
          have hpos := List.length_pos_iff.mpr hpath
          have hpos' := List.length_pos_iff.mpr hmore
          simp only [List.length_append, List.length_cons, List.length_nil] at hlength
          omega
      | inr hrest => exact ih hpath hrest
  | dir name entries rest ihEntries ihRest =>
      simp only [filePaths, List.mem_append, List.mem_map] at h
      simp only [dirPaths, List.mem_cons, List.mem_append, List.mem_map]
      obtain ⟨below, hbelow, heq⟩ | hrest := h
      · cases path with
        | nil => exact absurd rfl hpath
        | cons n path =>
            rw [List.cons_append, List.cons.injEq] at heq
            obtain ⟨rfl, rfl⟩ := heq
            cases path with
            | nil => exact .inl rfl
            | cons next path =>
                exact .inr (.inl ⟨_, ihEntries (List.cons_ne_nil _ _) hbelow, rfl⟩)
      · exact .inr (.inr (ihRest hpath hrest))

omit [DecidableEq N] in
/-- Every beginning of the way to a directory is a directory's. -/
theorem dirPaths_of_append {path more : List N} (hpath : path ≠ [])
    (h : path ++ more ∈ entries.dirPaths) : path ∈ entries.dirPaths := by
  induction entries generalizing path with
  | nil => cases h
  | file name _ rest ih | link name _ rest ih => exact ih hpath h
  | dir name entries rest ihEntries ihRest =>
      simp only [dirPaths, List.mem_cons, List.mem_append, List.mem_map] at h ⊢
      cases path with
      | nil => exact absurd rfl hpath
      | cons n path =>
          obtain heq | ⟨below, hbelow, heq⟩ | hrest := h
          · rw [List.cons_append, List.cons.injEq] at heq
            obtain ⟨rfl, heq⟩ := heq
            rw [(List.append_eq_nil_iff.mp heq).1]
            exact .inl rfl
          · rw [List.cons_append, List.cons.injEq] at heq
            obtain ⟨rfl, rfl⟩ := heq
            cases path with
            | nil => exact .inl rfl
            | cons next path =>
                exact .inr (.inl ⟨_, ihEntries (List.cons_ne_nil _ _) hbelow, rfl⟩)
          · exact .inr (.inr (ihRest hpath hrest))

theorem put_spec {content : F} {written : Listing N F L} (h : entries.put n content = some written) :
    written.dirPaths = entries.dirPaths ∧ written.linkFree = entries.linkFree ∧
      written.fileNamed n = some content ∧
      ∀ path, path ∈ written.filePaths ↔ path ∈ entries.filePaths ∨ path = [n] := by
  induction entries generalizing written with
  | nil =>
      cases h
      simp [dirPaths, linkFree, filePaths, fileNamed]
  | file name old rest ih =>
      simp only [put] at h
      split at h
      · rename_i heq
        cases h
        subst heq
        refine ⟨rfl, rfl, by simp [fileNamed], fun path => ?_⟩
        simp only [filePaths, List.mem_cons]
        tauto
      · rename_i hne
        obtain ⟨sub, hsub, rfl⟩ := Option.map_eq_some_iff.mp h
        obtain ⟨hdirs, hlinks, hfile, hpaths⟩ := ih hsub
        refine ⟨hdirs, hlinks, by simpa [fileNamed, hne] using hfile, fun path => ?_⟩
        simp only [filePaths, List.mem_cons, hpaths]
        tauto
  | link name target rest ih =>
      simp only [put] at h
      split at h
      · cases h
      · obtain ⟨sub, hsub, rfl⟩ := Option.map_eq_some_iff.mp h
        obtain ⟨hdirs, -, hfile, hpaths⟩ := ih hsub
        exact ⟨hdirs, rfl, hfile, hpaths⟩
  | dir name entries rest _ ih =>
      simp only [put] at h
      split at h
      · cases h
      · obtain ⟨sub, hsub, rfl⟩ := Option.map_eq_some_iff.mp h
        obtain ⟨hdirs, hlinks, hfile, hpaths⟩ := ih hsub
        refine ⟨by simp only [dirPaths, hdirs], by simp only [linkFree, hlinks], hfile,
          fun path => ?_⟩
        simp only [filePaths, List.mem_append, hpaths]
        tauto

theorem putAt_spec {content : F} {written : Listing N F L}
    (h : entries.putAt n content path = some written) :
    written.dirPaths = entries.dirPaths ∧ written.linkFree = entries.linkFree ∧
      ∀ p, p ∈ written.filePaths ↔ p ∈ entries.filePaths ∨ p = path ++ [n] := by
  induction entries generalizing path written with
  | nil =>
      cases path with
      | nil =>
          obtain ⟨hdirs, hlinks, -, hpaths⟩ := put_spec h
          exact ⟨hdirs, hlinks, hpaths⟩
      | cons d path => cases h
  | file name old rest ih =>
      cases path with
      | nil =>
          obtain ⟨hdirs, hlinks, -, hpaths⟩ := put_spec h
          exact ⟨hdirs, hlinks, hpaths⟩
      | cons d path =>
          obtain ⟨sub, hsub, rfl⟩ := Option.map_eq_some_iff.mp h
          obtain ⟨hdirs, hlinks, hpaths⟩ := ih hsub
          refine ⟨hdirs, hlinks, fun p => ?_⟩
          simp only [filePaths, List.mem_cons, hpaths]
          tauto
  | link name target rest ih =>
      cases path with
      | nil =>
          obtain ⟨hdirs, hlinks, -, hpaths⟩ := put_spec h
          exact ⟨hdirs, hlinks, hpaths⟩
      | cons d path =>
          obtain ⟨sub, hsub, rfl⟩ := Option.map_eq_some_iff.mp h
          obtain ⟨hdirs, -, hpaths⟩ := ih hsub
          exact ⟨hdirs, rfl, hpaths⟩
  | dir name entries rest ihEntries ihRest =>
      cases path with
      | nil =>
          obtain ⟨hdirs, hlinks, -, hpaths⟩ := put_spec h
          exact ⟨hdirs, hlinks, hpaths⟩
      | cons d path =>
          simp only [putAt] at h
          split at h
          · rename_i heq
            subst heq
            obtain ⟨sub, hsub, rfl⟩ := Option.map_eq_some_iff.mp h
            obtain ⟨hdirs, hlinks, hpaths⟩ := ihEntries hsub
            refine ⟨by simp only [dirPaths, hdirs], by simp only [linkFree, hlinks], fun p => ?_⟩
            simp only [filePaths, List.mem_append, List.mem_map, hpaths]
            constructor
            · rintro (⟨below, hbelow | rfl, rfl⟩ | hrest)
              · exact .inl (.inl ⟨below, hbelow, rfl⟩)
              · exact .inr rfl
              · exact .inl (.inr hrest)
            · rintro ((⟨below, hbelow, rfl⟩ | hrest) | rfl)
              · exact .inl ⟨below, .inl hbelow, rfl⟩
              · exact .inr hrest
              · exact .inl ⟨path ++ [n], .inr rfl, rfl⟩
          · obtain ⟨sub, hsub, rfl⟩ := Option.map_eq_some_iff.mp h
            obtain ⟨hdirs, hlinks, hpaths⟩ := ihRest hsub
            refine ⟨by simp only [dirPaths, hdirs], by simp only [linkFree, hlinks], fun p => ?_⟩
            simp only [filePaths, List.mem_append, hpaths]
            tauto

/-- A file written below leaves the files of this directory as they are. -/
theorem fileNamed_putAt {content : F} {written : Listing N F L} {d : N} (m : N)
    (h : entries.putAt n content (d :: path) = some written) :
    written.fileNamed m = entries.fileNamed m := by
  induction entries generalizing written with
  | nil => cases h
  | file name old rest ih =>
      obtain ⟨sub, hsub, rfl⟩ := Option.map_eq_some_iff.mp h
      simp only [fileNamed, ih hsub]
  | link name target rest ih =>
      obtain ⟨sub, hsub, rfl⟩ := Option.map_eq_some_iff.mp h
      simpa only [fileNamed] using ih hsub
  | dir name entries rest _ ih =>
      simp only [putAt] at h
      split at h
      · obtain ⟨sub, -, rfl⟩ := Option.map_eq_some_iff.mp h
        rfl
      · obtain ⟨sub, hsub, rfl⟩ := Option.map_eq_some_iff.mp h
        simpa only [fileNamed] using ih hsub

end Listing

/-- A directory whose entries have different names at every depth. -/
structure Tree (N F L : Type) where
  entries : Listing N F L
  distinct : entries.Distinct

end DirTree
