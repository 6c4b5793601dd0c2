import Mathlib
import Snpm.Lockfile.Compat.NpmLookup

/-!
The walk up the directories of an npm lockfile. A dependency is found in the
`node_modules` of the nearest directory that has it, behind links.
-/
namespace Snpm.Compat.Npm

section Directories

/-- The directory itself, one above it or the root. -/
def Encloses (dir source : String) : Prop :=
  dir = source ∨ dir = "" ∨ ∃ rest, source = dir ++ "/" ++ rest

/-- Where the packages of a directory are; a `node_modules` has its own. -/
def modulesOf (dir : String) : String :=
  if dir = "" then "node_modules"
  else if lastComponent dir = "node_modules" then dir
  else dir ++ "/node_modules"

def entryPath (dir name : String) : String := modulesOf dir ++ "/" ++ name

theorem dependencyCandidate_eq (dir name : String) : dependencyCandidate dir name = entryPath dir name := by
  unfold dependencyCandidate entryPath modulesOf
  by_cases hroot : dir = ""
  · rw [if_pos (.inl hroot), if_pos hroot]
    rfl
  · by_cases hmodules : dir = "node_modules"
    · have hlast : lastComponent dir = "node_modules" := by
        rw [hmodules]
        decide
      rw [if_pos (.inr hmodules), if_neg hroot, if_pos hlast, hmodules]
      rfl
    · rw [if_neg fun h => h.elim hroot hmodules, if_neg hroot]
      by_cases hlast : lastComponent dir = "node_modules"
      · rw [if_pos hlast, if_pos hlast]
      · rw [if_neg hlast, if_neg hlast]
        simp only [String.append_assoc]
        rfl

theorem Encloses.length_le {dir source : String} (h : Encloses dir source) :
    dir.length ≤ source.length := by
  cases h with
  | inl heq => rw [heq]
  | inr h => cases h with
    | inl hroot =>
        rw [hroot]
        exact Nat.zero_le _
    | inr hrest =>
        obtain ⟨rest, hrest⟩ := hrest
        rw [hrest, String.length_append, String.length_append]
        omega

theorem encloses_root (dir : String) : Encloses dir "" ↔ dir = "" := by
  constructor
  · intro h
    cases h with
    | inl heq => exact heq
    | inr h => cases h with
      | inl hroot => exact hroot
      | inr hrest =>
          obtain ⟨rest, hrest⟩ := hrest
          have hlist := congrArg String.toList hrest
          simp at hlist
  · exact fun h => .inl h

/-- Where a text with a last part without the separator may be cut. -/
theorem cut_before_last {before last front back : List Char} {c : Char} (hlast : c ∉ last)
    (h : before ++ c :: last = front ++ c :: back) :
    front = before ∨ ∃ rest, before = front ++ c :: rest := by
  cases List.append_eq_append_iff.mp h with
  | inl hlong =>
      obtain ⟨mid, hfront, hmid⟩ := hlong
      cases mid with
      | nil => exact .inl (by rw [hfront, List.append_nil])
      | cons d mid =>
          rw [List.cons_append, List.cons.injEq] at hmid
          exact absurd (by rw [hmid.2]; simp) hlast
  | inr hshort =>
      obtain ⟨mid, hbefore, hmid⟩ := hshort
      cases mid with
      | nil => exact .inl (by rw [hbefore, List.append_nil])
      | cons d mid =>
          rw [List.cons_append, List.cons.injEq] at hmid
          exact .inr ⟨mid, by rw [hbefore, ← hmid.1]⟩

theorem encloses_child {parent last dir : String} (hlast : '/' ∉ last.toList) :
    Encloses dir (parent ++ "/" ++ last) ↔ dir = parent ++ "/" ++ last ∨ Encloses dir parent := by
  constructor
  · intro h
    cases h with
    | inl heq => exact .inl heq
    | inr h => cases h with
      | inl hroot => exact .inr (.inr (.inl hroot))
      | inr hrest =>
          obtain ⟨rest, hrest⟩ := hrest
          have hlist := congrArg String.toList hrest
          simp only [String.toList_append, List.append_assoc] at hlist
          refine .inr ?_
          cases cut_before_last hlast hlist with
          | inl heq => exact .inl (String.toList_inj.mp heq)
          | inr hcut =>
              obtain ⟨back, hback⟩ := hcut
              refine .inr (.inr ⟨String.ofList back, ?_⟩)
              rw [← String.toList_inj, hback]
              simp
  · intro h
    cases h with
    | inl heq => exact .inl heq
    | inr h => cases h with
      | inl heq => exact .inr (.inr ⟨last, by rw [heq]⟩)
      | inr h => cases h with
        | inl hroot => exact .inr (.inl hroot)
        | inr hrest =>
            obtain ⟨rest, hrest⟩ := hrest
            refine .inr (.inr ⟨rest ++ "/" ++ last, ?_⟩)
            rw [hrest]
            simp only [String.append_assoc]

theorem encloses_plain {path dir : String} (h : '/' ∉ path.toList) :
    Encloses dir path ↔ dir = path ∨ Encloses dir "" := by
  rw [encloses_root]
  constructor
  · intro hdir
    cases hdir with
    | inl heq => exact .inl heq
    | inr hdir => cases hdir with
      | inl hroot => exact .inr hroot
      | inr hrest =>
          obtain ⟨rest, hrest⟩ := hrest
          apply absurd _ h
          rw [hrest]
          simp
  · intro hdir
    cases hdir with
    | inl heq => exact .inl heq
    | inr hroot => exact .inr (.inl hroot)

/-- The directories around a path are the path and those around its parent. -/
theorem parentPath_spec {path : String} (h : path ≠ "") :
    ∃ parent, parentPath path = some parent ∧ parent.length < path.length ∧
      ∀ dir, Encloses dir path ↔ dir = path ∨ Encloses dir parent := by
  unfold parentPath
  rw [if_neg h]
  cases hsplit : Text.rsplitOnce path (· = '/') with
  | none =>
      have hslash : '/' ∉ path.toList := by
        intro hmem
        unfold Text.rsplitOnce at hsplit
        rw [if_pos (List.any_eq_true.mpr ⟨'/', hmem, by decide⟩)] at hsplit
        cases hsplit
      refine ⟨"", rfl, ?_, fun dir => encloses_plain hslash⟩
      apply Nat.pos_of_ne_zero
      intro hzero
      apply h
      rw [← String.toList_inj]
      apply List.eq_nil_of_length_eq_zero
      rw [String.length_toList, hzero]
  | some parts =>
      obtain ⟨parent, last⟩ := parts
      obtain ⟨hpath, hlast⟩ := Text.rsplitOnce_eq_some hsplit
      have hslash : String.singleton '/' = "/" := by decide
      rw [hslash] at hpath
      refine ⟨parent, rfl, ?_, ?_⟩
      · rw [hpath, String.length_append, String.length_append]
        have hone : ("/" : String).length = 1 := by decide
        omega
      · intro dir
        rw [hpath]
        exact encloses_child hlast

theorem mem_ancestorsFrom {fuel : Nat} {path : String} (h : path.length ≤ fuel) (dir : String) :
    dir ∈ ancestorsFrom fuel path ↔ Encloses dir path := by
  induction fuel generalizing path with
  | zero =>
      have hempty : path = "" := by
        rw [← String.toList_inj]
        apply List.eq_nil_of_length_eq_zero
        rw [String.length_toList]
        omega
      rw [hempty, encloses_root]
      exact List.mem_singleton
  | succ fuel ih =>
      rw [ancestorsFrom]
      by_cases hempty : path = ""
      · have hnone : parentPath path = none := by
          unfold parentPath
          rw [if_pos hempty]
        rw [hnone, hempty, encloses_root]
        exact List.mem_singleton
      · obtain ⟨parent, hparent, hlength, hdirs⟩ := parentPath_spec hempty
        rw [hparent]
        dsimp only
        rw [List.mem_cons, ih (by omega), hdirs]

theorem mem_ancestors (source dir : String) : dir ∈ ancestors source ↔ Encloses dir source :=
  mem_ancestorsFrom (Nat.le_refl _) dir

/-- The walk goes from the longest directory to the shortest. -/
theorem ancestorsFrom_decreasing (fuel : Nat) {path : String} (h : path.length ≤ fuel) :
    (ancestorsFrom fuel path).Pairwise fun a b => b.length ≤ a.length := by
  induction fuel generalizing path with
  | zero => exact List.pairwise_singleton _ _
  | succ fuel ih =>
      rw [ancestorsFrom]
      by_cases hempty : path = ""
      · have hnone : parentPath path = none := by
          unfold parentPath
          rw [if_pos hempty]
        rw [hnone]
        exact List.pairwise_singleton _ _
      · obtain ⟨parent, hparent, hlength, -⟩ := parentPath_spec hempty
        rw [hparent]
        dsimp only
        rw [List.pairwise_cons]
        refine ⟨?_, ih (by omega)⟩
        intro dir hdir
        have hdir' := ((mem_ancestorsFrom (by omega) dir).mp hdir).length_le
        omega

end Directories

section Nearest

variable {packages : BTreeMap String RawNpmPackage} {entries : BTreeMap String PackageEntry}
  {members : BTreeSet String} {source name : String}

/-- The longest directory around the source that has the package. -/
structure Nearest (packages : BTreeMap String RawNpmPackage) (source name dir : String) : Prop where
  encloses : Encloses dir source
  found : entryPath dir name ∈ packages
  longest : ∀ other, Encloses other source → entryPath other name ∈ packages →
    other.length ≤ dir.length

theorem Encloses.begins {dir source : String} (h : Encloses dir source) :
    dir.toList <+: source.toList := by
  cases h with
  | inl heq => rw [heq]
  | inr h => cases h with
    | inl hroot =>
        rw [hroot]
        exact List.nil_prefix
    | inr hrest =>
        obtain ⟨rest, hrest⟩ := hrest
        rw [hrest, String.append_assoc, String.toList_append]
        exact List.prefix_append _ _

theorem Nearest.unique {dir other : String} (h : Nearest packages source name dir)
    (hother : Nearest packages source name other) : other = dir := by
  have hle := h.longest other hother.encloses hother.found
  have hge := hother.longest dir h.encloses h.found
  rw [← String.length_toList, ← String.length_toList] at hle hge
  have hbegins := List.prefix_of_prefix_length_le hother.encloses.begins h.encloses.begins hle
  exact String.toList_inj.mp (hbegins.eq_of_length (by omega))

theorem nodeLookup_eq (packages : BTreeMap String RawNpmPackage) (source name : String) :
    nodeLookup packages source name = ((ancestors source).find? fun dir =>
      packages.contains (entryPath dir name)).map fun dir => entryPath dir name := by
  rw [nodeLookup, List.find?_map]
  simp only [dependencyCandidate_eq]
  rfl

/-- A search in a list with an order on it stops at a first element of the order. -/
theorem find?_first {α : Type} {r : α → α → Prop} {p : α → Bool} {l : List α} {a : α}
    (hrefl : ∀ b, r b b) (hsorted : l.Pairwise r) (h : l.find? p = some a) :
    ∀ b ∈ l, p b = true → r a b := by
  induction l with
  | nil => cases h
  | cons c l ih =>
      rw [List.pairwise_cons] at hsorted
      intro b hb hpb
      by_cases hc : p c = true
      · rw [List.find?_cons_of_pos hc] at h
        cases h
        cases List.mem_cons.mp hb with
        | inl heq =>
            rw [heq]
            exact hrefl _
        | inr hb => exact hsorted.1 b hb
      · rw [List.find?_cons_of_neg hc] at h
        cases List.mem_cons.mp hb with
        | inl heq => exact absurd (heq ▸ hpb) hc
        | inr hb => exact ih hsorted.2 h b hb hpb

theorem nodeLookup_spec (packages : BTreeMap String RawNpmPackage) (source name : String) :
    (∃ dir, Nearest packages source name dir ∧
      nodeLookup packages source name = some (entryPath dir name)) ∨
    (∀ dir, Encloses dir source → entryPath dir name ∉ packages) ∧
      nodeLookup packages source name = none := by
  rw [nodeLookup_eq]
  cases hfind : (ancestors source).find? fun dir => packages.contains (entryPath dir name) with
  | none =>
      refine .inr ⟨?_, rfl⟩
      intro dir hdir hfound
      have hnone := List.find?_eq_none.mp hfind dir ((mem_ancestors source dir).mpr hdir)
      exact hnone (Std.ExtTreeMap.contains_iff_mem.mpr hfound)
  | some dir =>
      have hmem := List.mem_of_find?_eq_some hfind
      have hfound := List.find?_some hfind
      refine .inl ⟨dir, ⟨(mem_ancestors source dir).mp hmem,
        Std.ExtTreeMap.contains_iff_mem.mp hfound, ?_⟩, rfl⟩
      intro other hother hpackage
      exact find?_first (r := fun a b => b.length ≤ a.length) (fun _ => Nat.le_refl _)
        (ancestorsFrom_decreasing source.length (Nat.le_refl _)) hfind other
        ((mem_ancestors source other).mpr hother) (Std.ExtTreeMap.contains_iff_mem.mpr hpackage)

end Nearest

section Entries

variable {path : PathBuf} {rootEntry : RawNpmPackage} {packages : BTreeMap String RawNpmPackage}
  {entries : BTreeMap String PackageEntry} {installed : Installed} {members : BTreeSet String}

/-- What the entry at an install path stands for: a package, or a member, behind links. -/
inductive EntryAt (packages : BTreeMap String RawNpmPackage)
    (entries : BTreeMap String PackageEntry) (members : BTreeSet String) :
    String → DependencyResolution → Prop where
  | own {installPath : String} {entry : PackageEntry} (hentry : entries[installPath]? = some entry) :
      EntryAt packages entries members installPath (.packageKey entry.lockKey)
  | member {installPath target : String} {package : RawNpmPackage}
      (hpackage : packages[installPath]? = some package)
      (htarget : linkTargetOf package = some target) (hmember : target ∈ members) :
      EntryAt packages entries members installPath .workspaceMember
  | link {installPath target : String} {package : RawNpmPackage} {found : DependencyResolution}
      (hpackage : packages[installPath]? = some package)
      (htarget : linkTargetOf package = some target) (hmember : target ∉ members)
      (hfound : EntryAt packages entries members target found) :
      EntryAt packages entries members installPath found

theorem EntryAt.ne_missing {installPath : String} {found : DependencyResolution}
    (h : EntryAt packages entries members installPath found) : found ≠ .missing := by
  induction h with
  | own _ => exact DependencyResolution.noConfusion
  | member _ _ _ => exact DependencyResolution.noConfusion
  | link _ _ _ _ ih => exact ih

/-- What a key that a link takes over from its target keeps, all keys keep. -/
theorem linkKeys_keep {P : String → String → Prop} {links : List (String × String)}
    (hlink : ∀ link ∈ links, link.2 ∉ members → ∀ key, P link.2 key → P link.1 key)
    {keys keys' : BTreeMap String String}
    (hkeys : ∀ installPath key : String, keys[installPath]? = some key → P installPath key)
    (h : links.foldlM (insertLinkKey path members) keys = .ok keys') :
    ∀ installPath key : String, keys'[installPath]? = some key → P installPath key := by
  induction links generalizing keys with
  | nil =>
      cases h
      exact hkeys
  | cons link links ih =>
      rw [List.foldlM_cons] at h
      obtain ⟨keys₁, hstep, h⟩ := Result.bind_eq_ok h
      apply ih (fun link' hmem => hlink link' (List.mem_cons_of_mem link hmem)) _ h
      cases insertLinkKey_ok hstep with
      | inl hskip =>
          rw [hskip.2]
          exact hkeys
      | inr hinsert =>
          obtain ⟨hmember, key, hkey, heq⟩ := hinsert
          intro installPath found hfound
          rw [heq, BTreeMap.getElem?_insert_self_or] at hfound
          split at hfound
          next hsame =>
              cases hfound
              rw [← hsame]
              exact hlink link List.mem_cons_self hmember _ (hkeys _ _ hkey)
          next => exact hkeys _ _ hfound

theorem keys_entryAt (h : installedPackages path rootEntry packages = .ok (entries, installed))
    {installPath key : String} (hkey : installed.keys[installPath]? = some key) :
    EntryAt packages entries installed.members installPath (.packageKey key) := by
  unfold installedPackages at h
  dsimp only at h
  obtain ⟨links, hlinks, h⟩ := Result.bind_eq_ok h
  obtain ⟨entries', hentries, h⟩ := Result.bind_eq_ok h
  obtain ⟨keys, hkeys, h⟩ := Result.bind_eq_ok h
  cases h
  refine linkKeys_keep (P := fun installPath key => EntryAt packages entries
    (collectWorkspaceMemberPaths rootEntry packages) installPath (.packageKey key)) ?_ ?_ hkeys
    installPath key hkey
  · intro link hlink hmember found hfound
    have hat := Std.ExtTreeMap.mem_toList_iff_getElem?_eq_some.mp hlink
    rw [links_eq hlinks] at hat
    obtain ⟨package, hpackage, htarget⟩ := Option.bind_eq_some_iff.mp hat
    exact .link hpackage htarget hmember hfound
  · intro installPath found hfound
    rw [Std.ExtTreeMap.getElem?_map] at hfound
    obtain ⟨entry, hentry, rfl⟩ := Option.map_eq_some_iff.mp hfound
    exact .own hentry

theorem resolveCandidate_entryAt
    (h : installedPackages path rootEntry packages = .ok (entries, installed))
    {candidate : String} {found : DependencyResolution}
    (hfound : resolveCandidate installed candidate = some found) :
    EntryAt packages entries installed.members candidate found := by
  have hok := (installedPackages_ok h).2
  unfold resolveCandidate at hfound
  split at hfound
  next key hkey =>
      cases hfound
      exact keys_entryAt h hkey
  next target _ hlink =>
      split at hfound
      next hmember =>
          cases hfound
          rw [hok.links] at hlink
          obtain ⟨package, hpackage, htarget⟩ := Option.bind_eq_some_iff.mp hlink
          exact .member hpackage htarget hmember
      next => cases hfound
  next => cases hfound

/-- A dependency is what stands in the `node_modules` of the longest directory that
has it, and it is missing just if no directory has it. -/
theorem resolve_dependency_nearest
    (h : installedPackages path rootEntry packages = .ok (entries, installed))
    (source name : String) :
    (∀ dir, Nearest packages source name dir →
      EntryAt packages entries installed.members (entryPath dir name)
        (resolveDependency installed name source)) ∧
    (resolveDependency installed name source = .missing ↔
      ∀ dir, Encloses dir source → entryPath dir name ∉ packages) := by
  have hok := (installedPackages_ok h).2
  have heq := resolveDependency_eq hok source name
  cases nodeLookup_spec packages source name with
  | inl hfound =>
      obtain ⟨dir, hnearest, hlookup⟩ := hfound
      have hsome := hok.candidates (entryPath dir name)
        (by rw [← dependencyCandidate_eq]; exact containsNodeModules_candidate dir name)
        (by rw [← dependencyCandidate_eq]; exact candidate_ne_empty dir name)
      rw [Std.ExtTreeMap.contains_iff_mem.mpr hnearest.found] at hsome
      obtain ⟨found, hcandidate⟩ := Option.isSome_iff_exists.mp hsome
      rw [hlookup, Option.bind_some, hcandidate, Option.getD_some] at heq
      have hentry := resolveCandidate_entryAt h hcandidate
      rw [heq]
      constructor
      · intro other hother
        rw [hnearest.unique hother]
        exact hentry
      · constructor
        · intro hmissing
          exact absurd hmissing hentry.ne_missing
        · intro hnone
          exact absurd hnearest.found (hnone dir hnearest.encloses)
  | inr hnone =>
      rw [hnone.2] at heq
      constructor
      · intro dir hdir
        exact absurd hdir.found (hnone.1 dir hdir.encloses)
      · exact ⟨fun _ => hnone.1, fun _ => heq⟩

/-- A prefix of a path that ends where a `node_modules` begins, the path or the root. -/
def AtModules (dir source : String) : Prop :=
  dir = source ∨ dir = "" ∨ ∃ rest, source = dir ++ "/node_modules/" ++ rest

def memberRootEntry : RawNpmPackage := { RawNpmPackage.empty with workspaces := ["packages/*"] }

def versionOnly (version : String) : RawNpmPackage :=
  { RawNpmPackage.empty with version := some version }

/-- A member, and a package beside the members that is not below it. -/
def besideMembers : BTreeMap String RawNpmPackage :=
  BTreeMap.collect [("", memberRootEntry), ("packages/a", versionOnly "1.0.0"),
    ("packages/node_modules/d", versionOnly "2.0.0")]

def resolvedBeside : Option DependencyResolution :=
  (installedPackages "package-lock.json" memberRootEntry besideMembers).toOption.map fun result =>
    resolveDependency result.2 "d" "packages/a"

theorem beside_nearest : ∃ result,
    installedPackages "package-lock.json" memberRootEntry besideMembers = .ok result ∧
      ((∀ dir, Nearest besideMembers "packages/a" "d" dir →
        EntryAt besideMembers result.1 result.2.members (entryPath dir "d")
          (resolveDependency result.2 "d" "packages/a")) ∧
      (resolveDependency result.2 "d" "packages/a" = .missing ↔
        ∀ dir, Encloses dir "packages/a" → entryPath dir "d" ∉ besideMembers)) := by
  have hok : (installedPackages "package-lock.json" memberRootEntry besideMembers).toOption.isSome =
      true := by decide +kernel
  obtain ⟨⟨entries, installed⟩, hresult⟩ := Option.isSome_iff_exists.mp hok
  exact ⟨(entries, installed), toOption_eq_some hresult,
    resolve_dependency_nearest (toOption_eq_some hresult) "packages/a" "d"⟩

/-- The walk stops at every directory: `packages/node_modules` is looked into from
`packages/a`, although no `node_modules` follows `packages` in that path. -/
theorem looks_beside_members :
    resolvedBeside = some (.packageKey "d@2.0.0") ∧
      ∀ dir, AtModules dir "packages/a" → entryPath dir "d" ∉ besideMembers := by
  refine ⟨by decide +kernel, ?_⟩
  intro dir hdir
  cases hdir with
  | inl hself =>
      rw [hself]
      decide +kernel
  | inr hdir => cases hdir with
    | inl hroot =>
        rw [hroot]
        decide +kernel
    | inr hrest =>
        obtain ⟨rest, hrest⟩ := hrest
        have hlength := congrArg String.length hrest
        rw [String.length_append, String.length_append] at hlength
        have hlong : ("/node_modules/" : String).length = 14 := by decide
        have hshort : ("packages/a" : String).length = 10 := by decide
        omega

end Entries

end Snpm.Compat.Npm
