import Mathlib
import Snpm.Lockfile.Compat.Npm

/-!
What Node finds for a name from a directory of an npm lockfile, and that the
importer resolves dependencies to the same.
-/
namespace Snpm.Compat.Npm

section Lookup

variable (packages : BTreeMap String RawNpmPackage) (members : BTreeSet String)

/-- Where the entry of a link points to. -/
def linkTargetOf (package : RawNpmPackage) : Option String :=
  if package.link then (package.resolved.map normalizeLockfilePath).filter (· ≠ "") else none

/-- Node looks into the `node_modules` of a directory and of those above it. -/
def nodeLookup (source name : String) : Option String :=
  ((ancestors source).map fun base => dependencyCandidate base name).find? fun candidate =>
    packages.contains candidate

/-- The version of the package at an install path, behind links. -/
inductive VersionAt : String → String → Prop where
  | own {installPath version : String} {package : RawNpmPackage}
      (hpackage : packages[installPath]? = some package) (hlink : package.link = false)
      (hversion : package.version = some version) : VersionAt installPath version
  | link {installPath target version : String} {package : RawNpmPackage}
      (hpackage : packages[installPath]? = some package)
      (htarget : linkTargetOf package = some target) (hversion : VersionAt target version) :
      VersionAt installPath version

/-- The version that Node finds for a name from a directory. -/
def LookupVersion (source name version : String) : Prop :=
  ∃ installPath, nodeLookup packages source name = some installPath ∧
    VersionAt packages installPath version

/-- What Node finds is a link to a member. -/
def FindsMember (source name : String) : Prop :=
  ∃ installPath package target, nodeLookup packages source name = some installPath ∧
    packages[installPath]? = some package ∧ linkTargetOf package = some target ∧ target ∈ members

end Lookup

section Candidates

theorem containsSeq_append (before sub after : String) :
    Text.containsSeq (before ++ sub ++ after) sub = true := by
  rw [Text.containsSeq, List.any_eq_true]
  refine ⟨sub.toList ++ after.toList, ?_, ?_⟩
  · rw [List.mem_tails, String.toList_append, String.toList_append, List.append_assoc]
    exact List.suffix_append _ _
  · rw [List.isPrefixOf_iff_prefix]
    exact List.prefix_append _ _

theorem containsNodeModules_candidate (base name : String) :
    containsNodeModules (dependencyCandidate base name) = true := by
  have hroot : containsNodeModules ("node_modules/" ++ name) = true := by
    have hstarts : Text.startsWith ("node_modules/" ++ name) "node_modules/" = true := by
      simp [Text.startsWith]
    rw [containsNodeModules, hstarts, Bool.or_true, Bool.true_or]
  have hinner : ∀ before after : String,
      containsNodeModules (before ++ "/node_modules/" ++ after) = true := by
    intro before after
    rw [containsNodeModules, containsSeq_append, Bool.or_true]
  unfold dependencyCandidate
  split
  next => exact hroot
  next hbase =>
      split
      next hlast =>
          unfold lastComponent at hlast
          split at hlast
          next before last hsplit =>
              have hparts := (Text.rsplitOnce_eq_some hsplit).1
              have heq : base ++ "/" ++ name = before ++ "/node_modules/" ++ name := by
                rw [hparts, hlast, ← String.toList_inj]
                simp
              rw [heq]
              exact hinner before name
          next => exact absurd (.inr hlast) hbase
      next => exact hinner base name

theorem candidate_ne_empty (base name : String) : dependencyCandidate base name ≠ "" := by
  intro hempty
  have hmodules := containsNodeModules_candidate base name
  rw [hempty] at hmodules
  exact absurd hmodules (by decide +kernel)

theorem empty_mem_ancestorsFrom (fuel : Nat) {path : String} (h : path.length ≤ fuel) :
    "" ∈ ancestorsFrom fuel path := by
  induction fuel generalizing path with
  | zero =>
      have hempty : path = "" := by
        rw [← String.toList_inj]
        apply List.eq_nil_of_length_eq_zero
        rw [String.length_toList]
        omega
      rw [hempty]
      exact List.mem_singleton_self _
  | succ fuel ih =>
      rw [ancestorsFrom]
      cases hparent : parentPath path with
      | none =>
          unfold parentPath at hparent
          split at hparent
          next hempty =>
              rw [hempty]
              exact List.mem_singleton_self _
          next => split at hparent <;> cases hparent
      | some parent =>
          apply List.mem_cons_of_mem
          apply ih
          unfold parentPath at hparent
          split at hparent
          next => cases hparent
          next hne =>
              split at hparent
              next before after hsplit =>
                  cases hparent
                  have hlength := congrArg String.length (Text.rsplitOnce_eq_some hsplit).1
                  rw [String.length_append, String.length_append] at hlength
                  have hone : (String.singleton '/').length = 1 := by decide
                  omega
              next =>
                  cases hparent
                  exact Nat.zero_le _

theorem findSome?_filter_ne {α β : Type} [DecidableEq α] {f : α → Option β} {a : α}
    (ha : f a = none) (l : List α) :
    (l.filter fun b => !b == a).findSome? f = l.findSome? f := by
  induction l with
  | nil => rfl
  | cons b l ih =>
      by_cases hb : b = a
      · rw [List.filter_cons_of_neg (by simp [hb]), List.findSome?_cons, hb, ha, ih]
      · rw [List.filter_cons_of_pos (by simp [hb]), List.findSome?_cons, List.findSome?_cons, ih]

theorem findSome?_eraseDups {α β : Type} [DecidableEq α] (f : α → Option β) (l : List α) :
    l.eraseDups.findSome? f = l.findSome? f := by
  induction h : l.length using Nat.strong_induction_on generalizing l with
  | _ n ih =>
      cases l with
      | nil => rfl
      | cons a l =>
          rw [List.eraseDups_cons, List.findSome?_cons, List.findSome?_cons]
          cases ha : f a with
          | some b => rfl
          | none =>
              have hless : (l.filter fun b => !b == a).length < n := by
                have hle := List.length_filter_le (fun b => !b == a) l
                rw [List.length_cons] at h
                omega
              dsimp only
              rw [ih _ hless _ rfl]
              exact findSome?_filter_ne ha l

/-- A search that a test predicts stops where the test holds first. -/
theorem findSome?_of_find? {α β : Type} {f : α → Option β} {p : α → Bool} {l : List α}
    (h : ∀ a ∈ l, (f a).isSome = p a) : l.findSome? f = (l.find? p).bind f := by
  induction l with
  | nil => rfl
  | cons a l ih =>
      have ha := h a List.mem_cons_self
      rw [List.findSome?_cons]
      cases hf : f a with
      | some b =>
          rw [hf] at ha
          rw [List.find?_cons_of_pos ha.symm, Option.bind_some, hf]
      | none =>
          rw [hf] at ha
          rw [List.find?_cons_of_neg (by rw [← ha]; exact Bool.false_ne_true)]
          exact ih fun b hb => h b (List.mem_cons_of_mem a hb)

end Candidates

section Import

variable {path : PathBuf} {rootEntry : RawNpmPackage} {packages : BTreeMap String RawNpmPackage}
  {entries : BTreeMap String PackageEntry} {installed : Installed}

/-- The path is no link to a member. -/
def NotMemberLink (packages : BTreeMap String RawNpmPackage) (members : BTreeSet String)
    (installPath : String) : Prop :=
  ∀ package target, packages[installPath]? = some package → linkTargetOf package = some target →
    target ∉ members

/-- A key belongs to the version at its path. -/
def KeySound (packages : BTreeMap String RawNpmPackage) (members : BTreeSet String)
    (installPath key : String) : Prop :=
  (∃ name version, key = Lockfile.packageKey name version ∧ VersionAt packages installPath version) ∧
    NotMemberLink packages members installPath

theorem linkTargetOf_of_linkTarget {installPath : String} {package : RawNpmPackage}
    {target : Option String} (h : linkTarget path installPath package = .ok target) :
    target = linkTargetOf package := by
  unfold linkTarget at h
  unfold linkTargetOf
  split at h
  next hlink =>
      cases h
      rw [if_neg hlink]
  next hlink =>
      rw [if_pos (not_not.mp hlink)]
      split at h
      next found hfound =>
          cases h
          exact hfound.symm
      next => cases h

theorem links_eq {links : BTreeMap String String} (h : collectLinkTargets path packages = .ok links)
    (installPath : String) :
    links[installPath]? = (packages[installPath]?).bind linkTargetOf := by
  have hok := BTreeMap.filterMapM_ok h installPath
  cases hpackage : packages[installPath]? with
  | none => exact hok.1 hpackage
  | some package => exact linkTargetOf_of_linkTarget (hok.2 package hpackage)

theorem packageEntry_ok {members : BTreeSet String} {names : BTreeMap String (BTreeSet String)}
    {installPath : String} {package : RawNpmPackage} {entry : Option PackageEntry}
    (h : packageEntry path members names installPath package = .ok entry) :
    ((installPath = "" ∨ package.link = true ∨ installPath ∈ members) ∧ entry = none) ∨
      (package.link = false ∧ ∃ name version, package.version = some version ∧
        entry = some ⟨installPath, name, version, Lockfile.packageKey name version⟩) := by
  unfold packageEntry at h
  split at h
  next hskip =>
      cases h
      exact .inl ⟨hskip, rfl⟩
  next hskip =>
      rw [not_or, not_or] at hskip
      obtain ⟨name, -, h⟩ := Result.bind_eq_ok h
      split at h
      next version hversion =>
          cases h
          refine .inr ⟨Bool.not_eq_true _ ▸ hskip.2.1, name, version, ?_, rfl⟩
          exact (Option.filter_eq_some_iff.mp hversion).1
      next => cases h

theorem entryKeys_sound {members : BTreeSet String} {names : BTreeMap String (BTreeSet String)}
    (h : collectPackageEntries path packages members names = .ok entries) {installPath key : String}
    (hkey : (entries.map fun _ entry => entry.lockKey)[installPath]? = some key) :
    KeySound packages members installPath key := by
  have hok := BTreeMap.filterMapM_ok h installPath
  rw [Std.ExtTreeMap.getElem?_map] at hkey
  obtain ⟨entry, hentry, rfl⟩ := Option.map_eq_some_iff.mp hkey
  cases hpackage : packages[installPath]? with
  | none =>
      rw [hok.1 hpackage] at hentry
      cases hentry
  | some package =>
      cases packageEntry_ok (hok.2 package hpackage) with
      | inl hskip =>
          rw [hskip.2] at hentry
          cases hentry
      | inr hfound =>
          obtain ⟨hlink, name, version, hversion, heq⟩ := hfound
          rw [heq] at hentry
          cases hentry
          refine ⟨⟨name, version, rfl, .own hpackage hlink hversion⟩, ?_⟩
          intro package' target hpackage' htarget
          rw [hpackage] at hpackage'
          cases hpackage'
          rw [linkTargetOf, if_neg (by simp [hlink])] at htarget
          cases htarget

theorem insertLinkKey_ok {members : BTreeSet String} {keys keys' : BTreeMap String String}
    {link : String × String} (h : insertLinkKey path members keys link = .ok keys') :
    (link.2 ∈ members ∧ keys' = keys) ∨
      (link.2 ∉ members ∧ ∃ key, keys[link.2]? = some key ∧ keys' = keys.insert link.1 key) := by
  unfold insertLinkKey at h
  split at h
  next hmember =>
      cases h
      exact .inl ⟨hmember, rfl⟩
  next hmember =>
      split at h
      next key hkey =>
          cases h
          exact .inr ⟨hmember, key, hkey, rfl⟩
      next => cases h

/-- The keys that a fold over links adds are sound, and each link gets one
unless it points to a member. -/
theorem linkKeys_ok {members : BTreeSet String} {links : List (String × String)}
    (hlinks : ∀ link ∈ links, ∃ package, packages[link.1]? = some package ∧
      linkTargetOf package = some link.2)
    {keys keys' : BTreeMap String String}
    (hkeys : ∀ installPath key, keys[installPath]? = some key →
      KeySound packages members installPath key)
    (h : links.foldlM (insertLinkKey path members) keys = .ok keys') :
    (∀ installPath key, keys'[installPath]? = some key →
      KeySound packages members installPath key) ∧
      (∀ installPath, installPath ∈ keys → installPath ∈ keys') ∧
      ∀ link ∈ links, link.2 ∉ members → link.1 ∈ keys' := by
  induction links generalizing keys with
  | nil =>
      cases h
      exact ⟨hkeys, fun _ hmem => hmem, fun _ hmem => absurd hmem List.not_mem_nil⟩
  | cons link links ih =>
      rw [List.foldlM_cons] at h
      obtain ⟨keys₁, hstep, h⟩ := Result.bind_eq_ok h
      have hrest : ∀ link' ∈ links, ∃ package, packages[link'.1]? = some package ∧
          linkTargetOf package = some link'.2 :=
        fun link' hmem => hlinks link' (List.mem_cons_of_mem link hmem)
      cases insertLinkKey_ok hstep with
      | inl hskip =>
          rw [hskip.2] at h
          obtain ⟨hsound, hmono, hadded⟩ := ih hrest hkeys h
          refine ⟨hsound, hmono, ?_⟩
          intro link' hmem hmember
          cases List.mem_cons.mp hmem with
          | inl heq => exact absurd (heq ▸ hskip.1) hmember
          | inr hmem => exact hadded link' hmem hmember
      | inr hinsert =>
          obtain ⟨hmember, key, hkey, heq⟩ := hinsert
          obtain ⟨package, hpackage, htarget⟩ := hlinks link List.mem_cons_self
          have hkeys₁ : ∀ installPath key, keys₁[installPath]? = some key →
              KeySound packages members installPath key := by
            intro installPath key' hkey'
            rw [heq, BTreeMap.getElem?_insert_self_or] at hkey'
            split at hkey'
            next hsame =>
                cases hkey'
                obtain ⟨⟨name, version, hkeyEq, hversion⟩, -⟩ := hkeys _ _ hkey
                subst hsame
                refine ⟨⟨name, version, hkeyEq, .link hpackage htarget hversion⟩, ?_⟩
                intro package' target' hpackage' htarget'
                rw [hpackage] at hpackage'
                cases hpackage'
                rw [htarget] at htarget'
                cases htarget'
                exact hmember
            next => exact hkeys _ _ hkey'
          obtain ⟨hsound, hmono, hadded⟩ := ih hrest hkeys₁ h
          refine ⟨hsound, ?_, ?_⟩
          · intro installPath hmem
            apply hmono
            rw [heq]
            exact Std.ExtTreeMap.mem_insert.mpr (.inr hmem)
          · intro link' hmem hmember'
            cases List.mem_cons.mp hmem with
            | inl heq' =>
                apply hmono
                rw [heq, heq']
                exact Std.ExtTreeMap.mem_insert_self
            | inr hmem => exact hadded link' hmem hmember'

/-- The keys and the links agree with the packages. -/
structure InstalledOk (packages : BTreeMap String RawNpmPackage) (installed : Installed) : Prop where
  sound : ∀ installPath key : String, installed.keys[installPath]? = some key →
    KeySound packages installed.members installPath key
  links : ∀ installPath : String,
    installed.links[installPath]? = (packages[installPath]?).bind linkTargetOf
  candidates : ∀ candidate, containsNodeModules candidate = true → candidate ≠ "" →
    (resolveCandidate installed candidate).isSome = packages.contains candidate

theorem not_member_of_containsNodeModules {candidate : String}
    (h : containsNodeModules candidate = true) :
    candidate ∉ collectWorkspaceMemberPaths rootEntry packages := by
  intro hmem
  unfold collectWorkspaceMemberPaths at hmem
  split at hmem
  next => exact Std.ExtTreeSet.not_mem_empty hmem
  next =>
      have hkeep := (List.mem_filter.mp
        (List.elem_iff.mp (Std.ExtTreeSet.mem_ofList.mp hmem))).2
      simp [h] at hkeep

theorem mem_packages_of_member {memberPath : String}
    (h : memberPath ∈ collectWorkspaceMemberPaths rootEntry packages) : memberPath ∈ packages := by
  unfold collectWorkspaceMemberPaths at h
  split at h
  next => exact absurd h Std.ExtTreeSet.not_mem_empty
  next =>
      have hkey := (List.mem_filter.mp
        (List.elem_iff.mp (Std.ExtTreeSet.mem_ofList.mp h))).1
      exact Std.ExtTreeMap.mem_keys.mp hkey

theorem VersionAt.mem {installPath version : String}
    (h : VersionAt packages installPath version) : packages.contains installPath = true := by
  cases h with
  | own hpackage =>
      rw [Std.ExtTreeMap.contains_eq_isSome_getElem?, hpackage]
      rfl
  | link hpackage =>
      rw [Std.ExtTreeMap.contains_eq_isSome_getElem?, hpackage]
      rfl

theorem VersionAt.unique {installPath left right : String}
    (hleft : VersionAt packages installPath left) (hright : VersionAt packages installPath right) :
    left = right := by
  induction hleft with
  | own hpackage hlink hversion =>
      cases hright with
      | own hpackage' hlink' hversion' =>
          rw [hpackage] at hpackage'
          cases hpackage'
          rw [hversion] at hversion'
          exact Option.some.inj hversion'
      | link hpackage' htarget' =>
          rw [hpackage] at hpackage'
          cases hpackage'
          rw [linkTargetOf, if_neg (by simp [hlink])] at htarget'
          cases htarget'
  | link hpackage htarget hversion ih =>
      cases hright with
      | own hpackage' hlink' hversion' =>
          rw [hpackage] at hpackage'
          cases hpackage'
          rw [linkTargetOf, if_neg (by simp [hlink'])] at htarget
          cases htarget
      | link hpackage' htarget' hversion' =>
          rw [hpackage] at hpackage'
          cases hpackage'
          rw [htarget] at htarget'
          cases htarget'
          exact ih hversion'

theorem resolveCandidate_of_key {candidate : String} (h : candidate ∈ installed.keys) :
    (resolveCandidate installed candidate).isSome = true := by
  obtain ⟨key, hkey⟩ := BTreeMap.mem_iff_exists.mp h
  rw [resolveCandidate, hkey]
  rfl

theorem resolveCandidate_of_link {candidate target : String}
    (hlink : installed.links[candidate]? = some target) (h : target ∈ installed.members) :
    (resolveCandidate installed candidate).isSome = true := by
  rw [resolveCandidate, hlink]
  cases installed.keys[candidate]? with
  | some key => rfl
  | none =>
      dsimp only
      rw [if_pos h]
      rfl

theorem links_of_link {links : BTreeMap String String}
    (h : collectLinkTargets path packages = .ok links) {installPath : String}
    {package : RawNpmPackage} (hpackage : packages[installPath]? = some package)
    (hlink : package.link = true) : ∃ target, links[installPath]? = some target := by
  have hok := (BTreeMap.filterMapM_ok h installPath).2 package hpackage
  unfold linkTarget at hok
  rw [if_neg (not_not.mpr hlink)] at hok
  split at hok
  next target _ => exact ⟨target, (Except.ok.inj hok).symm⟩
  next => cases hok

theorem entries_of_package {members : BTreeSet String} {names : BTreeMap String (BTreeSet String)}
    (h : collectPackageEntries path packages members names = .ok entries) {installPath : String}
    {package : RawNpmPackage} (hpackage : packages[installPath]? = some package)
    (hne : installPath ≠ "") (hlink : package.link = false) (hmember : installPath ∉ members) :
    installPath ∈ entries := by
  have hok := (BTreeMap.filterMapM_ok h installPath).2 package hpackage
  cases packageEntry_ok hok with
  | inl hskip =>
      cases hskip.1 with
      | inl hempty => exact absurd hempty hne
      | inr hskip =>
          cases hskip with
          | inl htrue => exact absurd htrue (by simp [hlink])
          | inr hmem => exact absurd hmem hmember
  | inr hfound =>
      obtain ⟨-, name, version, -, hentry⟩ := hfound
      exact BTreeMap.mem_iff_exists.mpr ⟨_, hentry⟩

theorem installedPackages_ok
    (h : installedPackages path rootEntry packages = .ok (entries, installed)) :
    installed.members = collectWorkspaceMemberPaths rootEntry packages ∧
      InstalledOk packages installed := by
  unfold installedPackages at h
  dsimp only at h
  obtain ⟨links, hlinks, h⟩ := Result.bind_eq_ok h
  obtain ⟨entries', hentries, h⟩ := Result.bind_eq_ok h
  obtain ⟨keys, hkeys, h⟩ := Result.bind_eq_ok h
  cases h
  have hlinkEq := links_eq hlinks
  obtain ⟨hsound, hmono, hadded⟩ := linkKeys_ok
    (fun link hmem => by
      have hat := Std.ExtTreeMap.mem_toList_iff_getElem?_eq_some.mp hmem
      rw [hlinkEq] at hat
      exact Option.bind_eq_some_iff.mp hat)
    (fun _ _ hkey => entryKeys_sound hentries hkey) hkeys
  refine ⟨rfl, ⟨hsound, hlinkEq, ?_⟩⟩
  intro candidate hmodules hne
  rw [Bool.eq_iff_iff]
  constructor
  · intro hfound
    unfold resolveCandidate at hfound
    split at hfound
    next key hkey =>
        obtain ⟨⟨name, version, -, hversion⟩, -⟩ := hsound candidate key hkey
        exact hversion.mem
    next target _ hlink =>
        rw [hlinkEq] at hlink
        obtain ⟨package, hpackage, -⟩ := Option.bind_eq_some_iff.mp hlink
        rw [Std.ExtTreeMap.contains_eq_isSome_getElem?, hpackage]
        rfl
    next => cases hfound
  · intro hmem
    rw [Std.ExtTreeMap.contains_eq_isSome_getElem?] at hmem
    obtain ⟨package, hpackage⟩ := Option.isSome_iff_exists.mp hmem
    cases hlink : package.link with
    | false =>
        have hentry := entries_of_package hentries hpackage hne hlink
          (not_member_of_containsNodeModules hmodules)
        exact resolveCandidate_of_key (hmono candidate (Std.ExtTreeMap.mem_map.mpr hentry))
    | true =>
        obtain ⟨target, htarget⟩ := links_of_link hlinks hpackage hlink
        by_cases hmember : target ∈ collectWorkspaceMemberPaths rootEntry packages
        · exact resolveCandidate_of_link htarget hmember
        · exact resolveCandidate_of_key (hadded (candidate, target)
            (Std.ExtTreeMap.mem_toList_iff_getElem?_eq_some.mpr htarget) hmember)

end Import

section Resolve

variable {packages : BTreeMap String RawNpmPackage} {installed : Installed}
  (hok : InstalledOk packages installed) (source name : String)
include hok

/-- The importer looks where Node looks. -/
theorem resolveDependency_eq :
    resolveDependency installed name source =
      ((nodeLookup packages source name).bind (resolveCandidate installed)).getD .missing := by
  have hroot : dependencyCandidate "" name = "node_modules/" ++ name := by
    rw [dependencyCandidate, if_pos (.inl rfl)]
  have hsome : ∀ candidate ∈ (ancestors source).map fun base => dependencyCandidate base name,
      (resolveCandidate installed candidate).isSome = packages.contains candidate := by
    intro candidate hmem
    obtain ⟨base, -, rfl⟩ := List.mem_map.mp hmem
    exact hok.candidates _ (containsNodeModules_candidate base name) (candidate_ne_empty base name)
  have hmem : "node_modules/" ++ name ∈
      (ancestors source).map fun base => dependencyCandidate base name := by
    rw [← hroot]
    exact List.mem_map_of_mem (empty_mem_ancestorsFrom source.length (Nat.le_refl _))
  rw [resolveDependency, dependencyCandidatePaths, findSome?_eraseDups, List.findSome?_append,
    nodeLookup, ← findSome?_of_find? hsome]
  cases hfound : ((ancestors source).map fun base => dependencyCandidate base name).findSome?
      (resolveCandidate installed) with
  | some found => rfl
  | none =>
      have hnone := List.findSome?_eq_none_iff.mp hfound _ hmem
      rw [List.findSome?_cons, hnone]
      rfl

theorem resolveDependency_member_iff :
    resolveDependency installed name source = .workspaceMember ↔
      FindsMember packages installed.members source name := by
  rw [resolveDependency_eq hok]
  constructor
  · intro h
    cases hlookup : nodeLookup packages source name with
    | none =>
        rw [hlookup] at h
        cases h
    | some candidate =>
        rw [hlookup, Option.bind_some, resolveCandidate] at h
        split at h
        next => cases h
        next target _ hlink =>
            split at h
            next hmember =>
                rw [hok.links] at hlink
                obtain ⟨package, hpackage, htarget⟩ := Option.bind_eq_some_iff.mp hlink
                exact ⟨candidate, package, target, hlookup, hpackage, htarget, hmember⟩
            next => cases h
        next => cases h
  · intro h
    obtain ⟨candidate, package, target, hlookup, hpackage, htarget, hmember⟩ := h
    have hlink : installed.links[candidate]? = some target := by
      rw [hok.links, hpackage]
      exact htarget
    rw [hlookup, Option.bind_some, resolveCandidate, hlink]
    cases hkey : installed.keys[candidate]? with
    | some key => exact absurd hmember ((hok.sound candidate key hkey).2 package target hpackage htarget)
    | none =>
        dsimp only
        rw [if_pos hmember]
        rfl

theorem version_of_resolveDependency {key : String}
    (h : resolveDependency installed name source = .packageKey key) :
    ∃ packageName version, key = Lockfile.packageKey packageName version ∧
      LookupVersion packages source name version := by
  rw [resolveDependency_eq hok] at h
  cases hlookup : nodeLookup packages source name with
  | none =>
      rw [hlookup] at h
      cases h
  | some candidate =>
      rw [hlookup, Option.bind_some, resolveCandidate] at h
      split at h
      next found hkey =>
          cases h
          obtain ⟨⟨packageName, version, heq, hversion⟩, -⟩ := hok.sound candidate _ hkey
          exact ⟨packageName, version, heq, candidate, hlookup, hversion⟩
      next => split at h <;> cases h
      next => cases h

theorem resolveDependency_of_version {version : String}
    (hversion : LookupVersion packages source name version)
    (hforeign : ¬ FindsMember packages installed.members source name) :
    ∃ packageName, resolveDependency installed name source =
      .packageKey (Lockfile.packageKey packageName version) := by
  obtain ⟨candidate, hlookup, hat⟩ := hversion
  have hmem : candidate ∈ (ancestors source).map fun base => dependencyCandidate base name :=
    List.mem_of_find?_eq_some hlookup
  obtain ⟨base, -, rfl⟩ := List.mem_map.mp hmem
  have hsome := hok.candidates _ (containsNodeModules_candidate base name)
    (candidate_ne_empty base name)
  rw [hat.mem] at hsome
  obtain ⟨found, hfound⟩ := Option.isSome_iff_exists.mp hsome
  have heq : resolveDependency installed name source = found := by
    rw [resolveDependency_eq hok, hlookup, Option.bind_some, hfound]
    rfl
  cases found with
  | packageKey key =>
      obtain ⟨packageName, other, hkey, candidate', hlookup', hat'⟩ :=
        version_of_resolveDependency hok source name heq
      rw [hlookup] at hlookup'
      cases hlookup'
      exact ⟨packageName, by rw [heq, hkey, hat.unique hat']⟩
  | workspaceMember =>
      exact absurd ((resolveDependency_member_iff hok source name).mp heq) hforeign
  | missing =>
      unfold resolveCandidate at hfound
      split at hfound
      next => cases hfound
      next => split at hfound <;> cases hfound
      next => cases hfound

end Resolve

end Snpm.Compat.Npm
