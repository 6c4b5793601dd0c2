import Mathlib
import Snpm.Lockfile.Compat.NpmLookup
import Snpm.Lockfile.RoundTrip

/-!
The root of the lockfile that is imported from an npm workspace. It is built
from the members alone: a dependency of the root entry is in it only when a
member declares it too.
-/
namespace Snpm.Compat.Npm

open Config (RuntimeConfig)

section Complete

variable (packages : BTreeMap String RawNpmPackage) (members : BTreeSet String)

/-- A block of an entry has the name. -/
def Lists (source name : String) : Prop :=
  ∃ package, packages[source]? = some package ∧
    (name ∈ package.dependencies ∨ name ∈ package.devDependencies ∨
      name ∈ package.optionalDependencies)

/-- An entry declares a dependency that is no member of the workspace. -/
def DeclaresForeign (source name : String) : Prop :=
  Lists packages source name ∧ ¬ FindsMember packages members source name

/-- The root has every dependency of the root entry and of the members that is
no member itself, with the version that Node finds. -/
def RootComplete (root : BTreeMap String LockRootDependency) : Prop :=
  ∀ source, source = "" ∨ source ∈ members → ∀ name, DeclaresForeign packages members source name →
    ∃ dep, root[name]? = some dep ∧
      ∀ version, LookupVersion packages source name version → dep.version = some version

/-- Every dependency of the root entry is declared by a member that finds the
same version, and no version has an at sign. -/
structure RootCovered : Prop where
  declared : ∀ name, DeclaresForeign packages members "" name →
    ∃ m ∈ members, DeclaresForeign packages members m name
  found : ∀ name version, DeclaresForeign packages members "" name →
    LookupVersion packages "" name version →
      ∃ m ∈ members, DeclaresForeign packages members m name ∧
        LookupVersion packages m name version
  versions : ∀ source, source = "" ∨ source ∈ members → ∀ name version,
    DeclaresForeign packages members source name → LookupVersion packages source name version →
      '@' ∉ version.toList

end Complete

section Declarations

variable {path : PathBuf} {packages : BTreeMap String RawNpmPackage} {installed : Installed}

/-- The version with which a declaration enters the root. -/
def declaredVersion (installed : Installed) (d : Declaration) : Option String :=
  match resolveDependency installed d.depName d.sourceInstallPath with
  | .packageKey key => (Lockfile.splitDepKey key).map (·.version)
  | .workspaceMember | .missing => none

def IsForeign (installed : Installed) (d : Declaration) : Prop :=
  resolveDependency installed d.depName d.sourceInstallPath ≠ .workspaceMember

def rootVersion (root : BTreeMap String LockRootDependency) (name : String) : Option String :=
  (root[name]?).bind (·.version)

/-- What declarations add to a root: their names and versions, and nothing else. -/
structure Adds (installed : Installed) (ds : List Declaration)
    (root root' : BTreeMap String LockRootDependency) : Prop where
  names : ∀ name, name ∈ root → name ∈ root'
  versions : ∀ name version, rootVersion root name = some version →
    rootVersion root' name = some version
  added : ∀ d ∈ ds, IsForeign installed d → d.depName ∈ root' ∧
    ∀ version, declaredVersion installed d = some version →
      rootVersion root' d.depName = some version
  namesFrom : ∀ name, name ∈ root' → name ∈ root ∨
    ∃ d ∈ ds, d.depName = name ∧ IsForeign installed d
  versionsFrom : ∀ name version, rootVersion root' name = some version →
    rootVersion root name = some version ∨
      ∃ d ∈ ds, d.depName = name ∧ declaredVersion installed d = some version

theorem Adds.refl (root : BTreeMap String LockRootDependency) : Adds installed [] root root where
  names _ h := h
  versions _ _ h := h
  added _ h := absurd h List.not_mem_nil
  namesFrom _ h := .inl h
  versionsFrom _ _ h := .inl h

theorem Adds.trans {ds es : List Declaration} {r s t : BTreeMap String LockRootDependency}
    (hleft : Adds installed ds r s) (hright : Adds installed es s t) :
    Adds installed (ds ++ es) r t where
  names name h := hright.names name (hleft.names name h)
  versions name version h := hright.versions name version (hleft.versions name version h)
  added d hd hforeign := by
    cases List.mem_append.mp hd with
    | inl hd =>
        obtain ⟨hname, hversion⟩ := hleft.added d hd hforeign
        exact ⟨hright.names _ hname, fun version h => hright.versions _ _ (hversion version h)⟩
    | inr hd => exact hright.added d hd hforeign
  namesFrom name h := by
    cases hright.namesFrom name h with
    | inl h =>
        cases hleft.namesFrom name h with
        | inl h => exact .inl h
        | inr h =>
            obtain ⟨d, hd, hrest⟩ := h
            exact .inr ⟨d, List.mem_append_left es hd, hrest⟩
    | inr h =>
        obtain ⟨d, hd, hrest⟩ := h
        exact .inr ⟨d, List.mem_append_right ds hd, hrest⟩
  versionsFrom name version h := by
    cases hright.versionsFrom name version h with
    | inl h =>
        cases hleft.versionsFrom name version h with
        | inl h => exact .inl h
        | inr h =>
            obtain ⟨d, hd, hrest⟩ := h
            exact .inr ⟨d, List.mem_append_left es hd, hrest⟩
    | inr h =>
        obtain ⟨d, hd, hrest⟩ := h
        exact .inr ⟨d, List.mem_append_right ds hd, hrest⟩

theorem mergeField_ok {sourceLabel depName : String} {existing incoming merged : Option String}
    (h : mergeField path sourceLabel depName existing incoming = .ok merged) :
    (∀ value, existing = some value → merged = some value) ∧
      (∀ value, incoming = some value → merged = some value) ∧
      ∀ value, merged = some value → existing = some value ∨ incoming = some value := by
  cases existing with
  | none =>
      cases h
      exact ⟨fun _ h => (by cases h), fun _ h => h, fun _ h => .inr h⟩
  | some left =>
      cases incoming with
      | none =>
          cases h
          exact ⟨fun _ h => h, fun _ h => (by cases h), fun _ h => .inl h⟩
      | some right =>
          unfold mergeField at h
          dsimp only at h
          split at h
          next heq =>
              cases h
              subst heq
              exact ⟨fun _ h => h, fun _ h => h, fun _ h => .inl h⟩
          next => cases h

theorem adds_insert {d : Declaration} {root : BTreeMap String LockRootDependency}
    {dep : LockRootDependency} (hforeign : IsForeign installed d)
    (hkept : ∀ version, rootVersion root d.depName = some version → dep.version = some version)
    (hnew : ∀ version, declaredVersion installed d = some version → dep.version = some version)
    (hfrom : ∀ version, dep.version = some version → rootVersion root d.depName = some version ∨
      declaredVersion installed d = some version) :
    Adds installed [d] root (root.insert d.depName dep) := by
  have hown : rootVersion (root.insert d.depName dep) d.depName = dep.version := by
    rw [rootVersion, Std.ExtTreeMap.getElem?_insert_self]
    rfl
  have hother : ∀ name, d.depName ≠ name →
      rootVersion (root.insert d.depName dep) name = rootVersion root name := by
    intro name hne
    rw [rootVersion, BTreeMap.getElem?_insert_self_or, if_neg hne]
    rfl
  constructor
  · intro name h
    exact Std.ExtTreeMap.mem_insert.mpr (.inr h)
  · intro name version h
    by_cases hname : d.depName = name
    · subst hname
      rw [hown]
      exact hkept version h
    · rw [hother name hname]
      exact h
  · intro d' hd _
    cases List.mem_singleton.mp hd
    exact ⟨Std.ExtTreeMap.mem_insert_self, fun version h => hown.trans (hnew version h)⟩
  · intro name h
    cases Std.ExtTreeMap.mem_insert.mp h with
    | inl heq => exact .inr ⟨d, List.mem_cons_self, Std.LawfulEqCmp.eq_of_compare heq, hforeign⟩
    | inr h => exact .inl h
  · intro name version h
    by_cases hname : d.depName = name
    · subst hname
      rw [hown] at h
      cases hfrom version h with
      | inl h => exact .inl h
      | inr h => exact .inr ⟨d, List.mem_cons_self, rfl, h⟩
    · rw [hother name hname] at h
      exact .inl h

theorem mergeRootDependency_ok {d : Declaration} {incoming : LockRootDependency}
    {root root' : BTreeMap String LockRootDependency} (hforeign : IsForeign installed d)
    (hversion : incoming.version = declaredVersion installed d)
    (h : mergeRootDependency path d.sourceLabel d.depName incoming root = .ok root') :
    Adds installed [d] root root' := by
  unfold mergeRootDependency at h
  split at h
  next hnone =>
      cases h
      have hempty : rootVersion root d.depName = none := by
        rw [rootVersion, hnone]
        rfl
      refine adds_insert hforeign ?_ ?_ ?_
      · intro version hv
        rw [hempty] at hv
        cases hv
      · intro version hv
        rw [hversion, hv]
      · intro version hv
        rw [hversion] at hv
        exact .inr hv
  next existing hexisting =>
      have hold : rootVersion root d.depName = existing.version := by
        rw [rootVersion, hexisting]
        rfl
      split at h
      next => cases h
      next =>
          obtain ⟨package, -, h⟩ := Result.bind_eq_ok h
          obtain ⟨version, hmerged, h⟩ := Result.bind_eq_ok h
          cases h
          obtain ⟨hkept, hnew, hfrom⟩ := mergeField_ok hmerged
          refine adds_insert hforeign ?_ ?_ ?_
          · intro value hv
            exact hkept value (hold ▸ hv)
          · intro value hv
            exact hnew value (hversion.trans hv)
          · intro value hv
            cases hfrom value hv with
            | inl hv => exact .inl (hold.trans hv)
            | inr hv => exact .inr (hversion.symm.trans hv)

/-- One declaration adds itself, unless it is left out as a member. -/
theorem insertDeclaration_ok {d : Declaration} {root root' : BTreeMap String LockRootDependency}
    (h : insertDeclaration path true installed root d = .ok root') :
    Adds installed [d] root root' := by
  unfold insertDeclaration at h
  obtain ⟨incoming, hincoming, h⟩ := Result.bind_eq_ok h
  cases hresolve : resolveDependency installed d.depName d.sourceInstallPath with
  | packageKey key =>
      have hforeign : IsForeign installed d := by
        rw [IsForeign, hresolve]
        exact DependencyResolution.noConfusion
      have hdeclared : declaredVersion installed d = (Lockfile.splitDepKey key).map (·.version) := by
        rw [declaredVersion, hresolve]
      rw [hresolve, incomingRootDependency] at hincoming
      split at hincoming
      next =>
          cases hincoming
          refine mergeRootDependency_ok hforeign ?_ h
          rw [hdeclared, buildOptionalRootDependency, Option.bind_some]
          cases Lockfile.splitDepKey key <;> rfl
      next =>
          unfold buildRequiredRootDependency at hincoming
          split at hincoming
          next id hid =>
              cases hincoming
              refine mergeRootDependency_ok hforeign ?_ h
              rw [hdeclared, hid]
              rfl
          next => cases hincoming
  | workspaceMember =>
      rw [hresolve, incomingRootDependency, if_pos rfl] at hincoming
      cases hincoming
      cases h
      have hskip : ¬ IsForeign installed d := not_not.mpr hresolve
      have hnone : declaredVersion installed d = none := by
        rw [declaredVersion, hresolve]
      constructor
      · exact fun _ h => h
      · exact fun _ _ h => h
      · intro d' hd hforeign
        cases List.mem_singleton.mp hd
        exact absurd hforeign hskip
      · exact fun _ h => .inl h
      · exact fun _ _ h => .inl h
  | missing =>
      have hforeign : IsForeign installed d := by
        rw [IsForeign, hresolve]
        exact DependencyResolution.noConfusion
      have hdeclared : declaredVersion installed d = none := by
        rw [declaredVersion, hresolve]
      rw [hresolve, incomingRootDependency] at hincoming
      split at hincoming
      next =>
          cases hincoming
          exact mergeRootDependency_ok hforeign hdeclared.symm h
      next => cases hincoming

theorem foldlM_insertDeclaration_ok {ds : List Declaration}
    {root root' : BTreeMap String LockRootDependency}
    (h : ds.foldlM (insertDeclaration path true installed) root = .ok root') :
    Adds installed ds root root' := by
  induction ds generalizing root with
  | nil =>
      cases h
      exact .refl _
  | cons d ds ih =>
      rw [List.foldlM_cons] at h
      obtain ⟨next, hstep, h⟩ := Result.bind_eq_ok h
      exact (insertDeclaration_ok hstep).trans (ih h)

def memberDeclarations (packages : BTreeMap String RawNpmPackage) (memberPath : String) :
    List Declaration :=
  match packages[memberPath]? with
  | none => []
  | some member => entryDeclarations memberPath memberPath member

theorem foldlM_insertMember_ok {members : List String}
    {root root' : BTreeMap String LockRootDependency}
    (h : members.foldlM (insertMember path packages installed) root = .ok root') :
    Adds installed (members.flatMap (memberDeclarations packages)) root root' := by
  induction members generalizing root with
  | nil =>
      cases h
      exact .refl _
  | cons memberPath members ih =>
      rw [List.foldlM_cons] at h
      obtain ⟨next, hstep, h⟩ := Result.bind_eq_ok h
      rw [List.flatMap_cons]
      refine Adds.trans ?_ (ih h)
      cases hmember : packages[memberPath]? with
      | none =>
          rw [insertMember, hmember] at hstep
          cases hstep
      | some member =>
          rw [insertMember, hmember] at hstep
          rw [memberDeclarations, hmember]
          exact foldlM_insertDeclaration_ok hstep

theorem mem_blockDeclarations {sourceLabel sourceInstallPath : String}
    {block : BTreeMap String String} {isOptional : Bool} {d : Declaration}
    (h : d ∈ blockDeclarations sourceLabel sourceInstallPath block isOptional) :
    d.sourceInstallPath = sourceInstallPath ∧ d.depName ∈ block := by
  obtain ⟨dep, hdep, rfl⟩ := List.mem_map.mp h
  exact ⟨rfl, BTreeMap.mem_iff_exists.mpr
    ⟨dep.2, Std.ExtTreeMap.mem_toList_iff_getElem?_eq_some.mp hdep⟩⟩

theorem exists_blockDeclaration {sourceLabel sourceInstallPath name : String}
    {block : BTreeMap String String} {isOptional : Bool} (h : name ∈ block) :
    ∃ d ∈ blockDeclarations sourceLabel sourceInstallPath block isOptional,
      d.sourceInstallPath = sourceInstallPath ∧ d.depName = name := by
  obtain ⟨requested, hrequested⟩ := BTreeMap.mem_iff_exists.mp h
  have hmem := Std.ExtTreeMap.mem_toList_iff_getElem?_eq_some.mpr hrequested
  exact ⟨_, List.mem_map_of_mem hmem, rfl, rfl⟩

theorem memberDeclarations_lists {memberPath : String} {d : Declaration}
    (h : d ∈ memberDeclarations packages memberPath) :
    d.sourceInstallPath = memberPath ∧ Lists packages memberPath d.depName := by
  unfold memberDeclarations at h
  split at h
  next => exact absurd h List.not_mem_nil
  next member hmember =>
      rw [entryDeclarations, List.mem_append, List.mem_append] at h
      cases h with
      | inl h =>
          cases h with
          | inl h =>
              have hblock := mem_blockDeclarations h
              exact ⟨hblock.1, member, hmember, .inl hblock.2⟩
          | inr h =>
              have hblock := mem_blockDeclarations h
              exact ⟨hblock.1, member, hmember, .inr (.inl hblock.2)⟩
      | inr h =>
          have hblock := mem_blockDeclarations h
          exact ⟨hblock.1, member, hmember, .inr (.inr hblock.2)⟩

theorem exists_memberDeclaration {memberPath name : String} (h : Lists packages memberPath name) :
    ∃ d ∈ memberDeclarations packages memberPath,
      d.sourceInstallPath = memberPath ∧ d.depName = name := by
  obtain ⟨member, hmember, hlisted⟩ := h
  unfold memberDeclarations
  rw [hmember]
  dsimp only
  rw [entryDeclarations]
  cases hlisted with
  | inl hname =>
      obtain ⟨d, hd, hrest⟩ := exists_blockDeclaration hname
      exact ⟨d, List.mem_append_left _ (List.mem_append_left _ hd), hrest⟩
  | inr hlisted =>
      cases hlisted with
      | inl hname =>
          obtain ⟨d, hd, hrest⟩ := exists_blockDeclaration hname
          exact ⟨d, List.mem_append_left _ (List.mem_append_right _ hd), hrest⟩
      | inr hname =>
          obtain ⟨d, hd, hrest⟩ := exists_blockDeclaration hname
          exact ⟨d, List.mem_append_right _ hd, hrest⟩

theorem declaredVersion_of_lookup (hok : InstalledOk packages installed) {d : Declaration}
    {version : String} (hversion : LookupVersion packages d.sourceInstallPath d.depName version)
    (hforeign : ¬ FindsMember packages installed.members d.sourceInstallPath d.depName)
    (hat : '@' ∉ version.toList) : declaredVersion installed d = some version := by
  obtain ⟨packageName, hresolve⟩ := resolveDependency_of_version hok _ _ hversion hforeign
  rw [declaredVersion, hresolve]
  dsimp only
  rw [Lockfile.splitDepKey_packageKey ⟨packageName, version⟩ hat]
  rfl

theorem lookup_of_declaredVersion (hok : InstalledOk packages installed) {d : Declaration}
    {version : String} (h : declaredVersion installed d = some version) :
    '@' ∉ version.toList ∧ ∃ found,
      LookupVersion packages d.sourceInstallPath d.depName found ∧
        ('@' ∉ found.toList → found = version) := by
  unfold declaredVersion at h
  split at h
  next key hresolve =>
      obtain ⟨packageName, found, hkey, hlookup⟩ := version_of_resolveDependency hok _ _ hresolve
      refine ⟨?_, found, hlookup, ?_⟩
      · obtain ⟨id, hid, rfl⟩ := Option.map_eq_some_iff.mp h
        obtain ⟨parts, hparts, rfl⟩ := Option.map_eq_some_iff.mp hid
        exact (Text.rsplitOnce_eq_some hparts).2
      · intro hat
        rw [hkey, Lockfile.splitDepKey_packageKey ⟨packageName, found⟩ hat] at h
        exact Option.some.inj h
  next => cases h
  next => cases h

section Covered

variable {root : BTreeMap String LockRootDependency} (hok : InstalledOk packages installed)
  (hadds : Adds installed (installed.members.toList.flatMap (memberDeclarations packages)) ∅ root)
include hok hadds

/-- A dependency that a member declares is in the root with its version. -/
theorem member_complete {memberPath name : String} (hmember : memberPath ∈ installed.members)
    (hdeclares : DeclaresForeign packages installed.members memberPath name) :
    name ∈ root ∧ ∀ version, LookupVersion packages memberPath name version →
      '@' ∉ version.toList → rootVersion root name = some version := by
  obtain ⟨d, hd, rfl, rfl⟩ := exists_memberDeclaration hdeclares.1
  have hmem : d ∈ installed.members.toList.flatMap (memberDeclarations packages) :=
    List.mem_flatMap.mpr ⟨_, Std.ExtTreeSet.mem_toList.mpr hmember, hd⟩
  have hforeign : IsForeign installed d := fun hresolve =>
    hdeclares.2 ((resolveDependency_member_iff hok _ _).mp hresolve)
  obtain ⟨hname, hversions⟩ := hadds.added d hmem hforeign
  refine ⟨hname, ?_⟩
  intro version hversion hat
  exact hversions version (declaredVersion_of_lookup hok hversion hdeclares.2 hat)

/-- A name of the root is declared by a member. -/
theorem member_of_name {name : String} (h : name ∈ root) :
    ∃ m ∈ installed.members, DeclaresForeign packages installed.members m name := by
  cases hadds.namesFrom name h with
  | inl h => exact absurd h Std.ExtTreeMap.not_mem_empty
  | inr h =>
      obtain ⟨d, hd, rfl, hforeign⟩ := h
      obtain ⟨m, hm, hd⟩ := List.mem_flatMap.mp hd
      obtain ⟨rfl, hlists⟩ := memberDeclarations_lists hd
      exact ⟨_, Std.ExtTreeSet.mem_toList.mp hm, hlists, fun hfinds =>
        hforeign ((resolveDependency_member_iff hok _ _).mpr hfinds)⟩

/-- A version of the root has no at sign; the member it comes from finds it,
unless what that finds has one. -/
theorem member_of_version {name version : String} (h : rootVersion root name = some version) :
    '@' ∉ version.toList ∧ ∃ m ∈ installed.members,
      DeclaresForeign packages installed.members m name ∧
        ∃ found, LookupVersion packages m name found ∧ ('@' ∉ found.toList → found = version) := by
  cases hadds.versionsFrom name version h with
  | inl h =>
      rw [rootVersion, Std.ExtTreeMap.getElem?_empty] at h
      cases h
  | inr h =>
      obtain ⟨d, hd, rfl, hdeclared⟩ := h
      obtain ⟨m, hm, hd⟩ := List.mem_flatMap.mp hd
      obtain ⟨rfl, hlists⟩ := memberDeclarations_lists hd
      obtain ⟨hat, found, hfound, heq⟩ := lookup_of_declaredVersion hok hdeclared
      refine ⟨hat, _, Std.ExtTreeSet.mem_toList.mp hm, ⟨hlists, ?_⟩, found, hfound, heq⟩
      intro hfinds
      have hmember := (resolveDependency_member_iff hok _ _).mpr hfinds
      rw [declaredVersion, hmember] at hdeclared
      cases hdeclared

theorem complete_of_rootCovered (hcovered : RootCovered packages installed.members) :
    RootComplete packages installed.members root := by
  intro source hsource name hdeclares
  have hname : name ∈ root := by
    cases hsource with
    | inl hempty =>
        subst hempty
        obtain ⟨m, hm, hdeclares'⟩ := hcovered.declared name hdeclares
        exact (member_complete hok hadds hm hdeclares').1
    | inr hm => exact (member_complete hok hadds hm hdeclares).1
  obtain ⟨dep, hdep⟩ := BTreeMap.mem_iff_exists.mp hname
  refine ⟨dep, hdep, ?_⟩
  intro version hversion
  have hat := hcovered.versions source hsource name version hdeclares hversion
  have hrecorded : rootVersion root name = some version := by
    cases hsource with
    | inl hempty =>
        subst hempty
        obtain ⟨m, hm, hdeclares', hversion'⟩ := hcovered.found name version hdeclares hversion
        exact (member_complete hok hadds hm hdeclares').2 version hversion' hat
    | inr hm => exact (member_complete hok hadds hm hdeclares).2 version hversion hat
  rw [rootVersion, hdep] at hrecorded
  exact hrecorded

theorem rootCovered_of_complete (hcomplete : RootComplete packages installed.members root) :
    RootCovered packages installed.members := by
  have hversions : ∀ source, source = "" ∨ source ∈ installed.members → ∀ name version,
      DeclaresForeign packages installed.members source name →
        LookupVersion packages source name version → rootVersion root name = some version := by
    intro source hsource name version hdeclares hversion
    obtain ⟨dep, hdep, hdepVersion⟩ := hcomplete source hsource name hdeclares
    rw [rootVersion, hdep]
    exact hdepVersion version hversion
  have hat : ∀ source, source = "" ∨ source ∈ installed.members → ∀ name version,
      DeclaresForeign packages installed.members source name →
        LookupVersion packages source name version → '@' ∉ version.toList := by
    intro source hsource name version hdeclares hversion
    exact (member_of_version hok hadds (hversions source hsource name version hdeclares hversion)).1
  constructor
  · intro name hdeclares
    obtain ⟨dep, hdep, -⟩ := hcomplete "" (.inl rfl) name hdeclares
    exact member_of_name hok hadds (BTreeMap.mem_iff_exists.mpr ⟨dep, hdep⟩)
  · intro name version hdeclares hversion
    obtain ⟨-, m, hm, hdeclares', found, hfound, heq⟩ :=
      member_of_version hok hadds (hversions "" (.inl rfl) name version hdeclares hversion)
    have hsame := heq (hat m (.inr hm) name found hdeclares' hfound)
    exact ⟨m, hm, hdeclares', hsame ▸ hfound⟩
  · exact hat

end Covered

end Declarations

section Root

variable {path : PathBuf} {config : RuntimeConfig} {raw : BTreeMap String RawNpmPackage}
  {rootEntry : RawNpmPackage} {lockfile : Lockfile}

/-- The root of a workspace is what the members' declarations add to nothing. -/
theorem readPackages_root (h : readPackages path config raw = .ok lockfile)
    (hroot : (normalizePackages raw)[""]? = some rootEntry) (hworkspaces : rootEntry.workspaces ≠ []) :
    ∃ installed, installed.members = collectWorkspaceMemberPaths rootEntry (normalizePackages raw) ∧
      InstalledOk (normalizePackages raw) installed ∧
      Adds installed (installed.members.toList.flatMap (memberDeclarations (normalizePackages raw)))
        ∅ lockfile.root.dependencies := by
  unfold readPackages at h
  dsimp only at h
  rw [hroot] at h
  dsimp only at h
  obtain ⟨⟨entries, installed⟩, hinstalled, h⟩ := Result.bind_eq_ok h
  obtain ⟨packages, -, h⟩ := Result.bind_eq_ok h
  rw [if_neg hworkspaces] at h
  obtain ⟨root, hbuilt, h⟩ := Result.bind_eq_ok h
  cases h
  rw [buildWorkspaceRoot] at hbuilt
  obtain ⟨dependencies, hfold, hbuilt⟩ := Result.bind_eq_ok hbuilt
  cases hbuilt
  obtain ⟨hmembers, hok⟩ := installedPackages_ok hinstalled
  exact ⟨installed, hmembers, hok, foldlM_insertMember_ok hfold⟩

/-- The root of an accepted workspace is complete exactly when the members cover
the dependencies of the root entry. -/
theorem workspace_root_complete_iff (h : readPackages path config raw = .ok lockfile)
    (hroot : (normalizePackages raw)[""]? = some rootEntry) (hworkspaces : rootEntry.workspaces ≠ []) :
    RootComplete (normalizePackages raw)
        (collectWorkspaceMemberPaths rootEntry (normalizePackages raw)) lockfile.root.dependencies ↔
      RootCovered (normalizePackages raw)
        (collectWorkspaceMemberPaths rootEntry (normalizePackages raw)) := by
  obtain ⟨installed, hmembers, hok, hadds⟩ := readPackages_root h hroot hworkspaces
  rw [← hmembers]
  constructor
  · intro hcomplete
    exact rootCovered_of_complete hok hadds hcomplete
  · intro hcovered
    exact complete_of_rootCovered hok hadds hcovered

end Root

section Samples

def localMember (dependencies : BTreeMap String String) : RawNpmPackage :=
  { RawNpmPackage.empty with
    name := some "a"
    version := some "1.0.0"
    dependencies := dependencies }

def linkTo (target : String) : RawNpmPackage :=
  { RawNpmPackage.empty with resolved := some target, link := true }

def installedVersion (version : String) : RawNpmPackage :=
  { RawNpmPackage.empty with version := some version }

def sharedRootEntry : RawNpmPackage :=
  { RawNpmPackage.empty with
    dependencies := BTreeMap.collect [("react", "^18.0.0")]
    workspaces := ["packages/*"] }

/-- A workspace whose member declares the dependency of the root entry too. -/
def sharedWorkspace : BTreeMap String RawNpmPackage :=
  BTreeMap.collect
    [("", sharedRootEntry),
      ("packages/a", localMember (BTreeMap.collect [("react", "^18.0.0")])),
      ("node_modules/a", linkTo "packages/a"),
      ("node_modules/react", installedVersion "18.2.0")]

def toolingRootEntry : RawNpmPackage :=
  { RawNpmPackage.empty with
    devDependencies := BTreeMap.collect [("typescript", "^5.0.0")]
    workspaces := ["packages/*"] }

/-- A workspace whose root entry alone declares the compiler. -/
def toolingWorkspace : BTreeMap String RawNpmPackage :=
  BTreeMap.collect
    [("", toolingRootEntry),
      ("packages/a", localMember ∅),
      ("node_modules/a", linkTo "packages/a"),
      ("node_modules/typescript", installedVersion "5.4.5")]

theorem shared_workspace_root_complete :
    ∃ lockfile, readPackages "/w/package-lock.json" plainConfig sharedWorkspace = .ok lockfile ∧
      (RootComplete (normalizePackages sharedWorkspace)
          (collectWorkspaceMemberPaths sharedRootEntry (normalizePackages sharedWorkspace))
          lockfile.root.dependencies ↔
        RootCovered (normalizePackages sharedWorkspace)
          (collectWorkspaceMemberPaths sharedRootEntry (normalizePackages sharedWorkspace))) := by
  have hok : (readPackages "/w/package-lock.json" plainConfig sharedWorkspace).isOk = true := by
    decide +kernel
  obtain ⟨lockfile, h⟩ := exists_of_isOk hok
  exact ⟨lockfile, h, workspace_root_complete_iff h (by rfl) (by decide)⟩

/-- The compiler is not in the imported root. -/
theorem root_dependency_lost :
    ∃ lockfile, readPackages "/w/package-lock.json" plainConfig toolingWorkspace = .ok lockfile ∧
      ¬ RootComplete (normalizePackages toolingWorkspace)
        (collectWorkspaceMemberPaths toolingRootEntry (normalizePackages toolingWorkspace))
        lockfile.root.dependencies := by
  have hok : (readPackages "/w/package-lock.json" plainConfig toolingWorkspace).isOk = true := by
    decide +kernel
  have hlost : ((readPackages "/w/package-lock.json" plainConfig toolingWorkspace).toOption.bind
      fun lockfile => lockfile.root.dependencies["typescript"]?) = none := by
    decide +kernel
  obtain ⟨lockfile, h⟩ := exists_of_isOk hok
  refine ⟨lockfile, h, ?_⟩
  intro hcomplete
  have hlookup : nodeLookup (normalizePackages toolingWorkspace) "" "typescript" =
      some "node_modules/typescript" := by
    decide +kernel
  have hpackage : (normalizePackages toolingWorkspace)["node_modules/typescript"]? =
      some (installedVersion "5.4.5") := by
    rfl
  have hdeclares : DeclaresForeign (normalizePackages toolingWorkspace)
      (collectWorkspaceMemberPaths toolingRootEntry (normalizePackages toolingWorkspace)) ""
      "typescript" := by
    refine ⟨⟨toolingRootEntry, by rfl, .inr (.inl (by decide +kernel))⟩, ?_⟩
    intro hfinds
    obtain ⟨installPath, package, target, hfound, hat, htarget, -⟩ := hfinds
    rw [hlookup] at hfound
    cases hfound
    rw [hpackage] at hat
    cases hat
    cases htarget
  obtain ⟨dep, hdep, -⟩ := hcomplete "" (.inl rfl) "typescript" hdeclares
  rw [h] at hlost
  exact Option.some_ne_none dep (hdep.symm.trans hlost)

end Samples

end Snpm.Compat.Npm
