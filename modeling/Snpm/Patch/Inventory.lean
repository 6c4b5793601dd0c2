import Mathlib
import Snpm.Install.Integrity
import Snpm.Library.TextParts

/-!
The patches of a project: those its manifest declares, those its patch
directory holds, and what the digest of the patches says about them.
-/
namespace Snpm.Patch

open Linker (getPatchedDependencies parsePatchKey patchedPackageIds)
open Install (FileView computeProjectPatchHash patchText noPatchHash)

variable (H : Digest.Hash)

/-- A project with what its patches are read from. -/
structure PatchState where
  project : Project
  files : FileView
  pathExists : PathBuf → Bool
  /-- The names in a directory, in the order of the listing. -/
  readDir : PathBuf → Except String (List String)
  pathExists_of_isFile : ∀ path, files.isFile path = true → pathExists path = true

structure PatchToApply where
  id : PackageId
  path : PathBuf
deriving DecidableEq

def patchesDir (project : Project) : PathBuf := project.root.join "patches"

def packageKey (id : PackageId) : String := Lockfile.packageKey id.name id.version

/-- The package that the name of a file in the patch directory stands for. -/
def patchFileId (filename : String) : Option PackageId :=
  ((Text.stripSuffix filename ".patch").bind parsePatchKey).map fun (name, version) =>
    ⟨Text.replaceChar name '+' '/', version⟩

/-- A declared patch is applied when its file exists. -/
def declaredPatch (s : PatchState) (dep : String × String) : Option PatchToApply :=
  (parsePatchKey dep.1).bind fun (name, version) =>
    let patchPath := s.project.root.join dep.2
    if s.pathExists patchPath then some ⟨⟨name, version⟩, patchPath⟩ else none

def declaredPatches (s : PatchState) : List PatchToApply :=
  (getPatchedDependencies s.project).toList.filterMap (declaredPatch s)

def directoryPatch (s : PatchState) (seen : List String) (filename : String) :
    Option PatchToApply :=
  (patchFileId filename).bind fun id =>
    if seen.contains (packageKey id) then none
    else some ⟨id, (patchesDir s.project).join filename⟩

def collectPatchesToApply (s : PatchState) : Result (List PatchToApply) :=
  let declared := declaredPatches s
  let patches := patchesDir s.project
  if s.pathExists patches then
    match s.readDir patches with
    | .error source => .error (.readFile patches source)
    | .ok names =>
        .ok (declared ++
          names.filterMap (directoryPatch s (declared.map fun patch => packageKey patch.id)))
  else .ok declared

/-- What the patch directory holds. -/
def directoryFiles (s : PatchState) : List String :=
  if s.pathExists (patchesDir s.project) then
    (s.readDir (patchesDir s.project)).toOption.getD []
  else []

/-- The manifest declares a patch for a package, and its file exists. -/
def DeclaredFile (s : PatchState) (id : PackageId) : Prop :=
  ∃ relPath, (getPatchedDependencies s.project)[packageKey id]? = some relPath ∧
    s.pathExists (s.project.root.join relPath) = true

def DirectoryFile (s : PatchState) (id : PackageId) : Prop :=
  ∃ filename ∈ directoryFiles s, patchFileId filename = some id

/-- The patches to apply are those of the packages that are marked
project-local and have a patch file. -/
def SetsAgree (s : PatchState) : Prop :=
  ∀ patches, collectPatchesToApply s = .ok patches → ∀ id,
    (∃ patch ∈ patches, patch.id = id) ↔
      id ∈ patchedPackageIds [s.project] ∧ (DeclaredFile s id ∨ DirectoryFile s id)

/-- The text that the digest of a declared patch is taken of. -/
def patchBody (s : PatchState) (dep : String × String) : String :=
  if s.files.isFile (s.project.root.join dep.2) then
    (s.files.read (s.project.root.join dep.2)).toOption.getD ""
  else "__missing__"

def hashedText (s : PatchState) : String :=
  String.join ((getPatchedDependencies s.project).toList.map fun dep =>
    dep.1 ++ dep.2 ++ patchBody s dep)

def patchContents (s : PatchState) (patch : PatchToApply) : PackageId × Option String :=
  (patch.id,
    if s.files.isFile patch.path then (s.files.read patch.path).toOption else none)

/-- Equal digests go with equal lists of patches. -/
def DigestsDecide (s t : PatchState) : Prop :=
  ∀ hash, computeProjectPatchHash H s.files s.project = .ok hash →
    computeProjectPatchHash H t.files t.project = .ok hash →
      ∀ patches patches', collectPatchesToApply s = .ok patches →
        collectPatchesToApply t = .ok patches' →
          patches.map (patchContents s) = patches'.map (patchContents t)

/-- Every file of the patch directory is for a package the manifest declares. -/
def DirectoryDeclared (s : PatchState) : Prop :=
  ∀ id, DirectoryFile s id → id ∈ patchedPackageIds [s.project]

/-- Every file of the patch directory is for a package with a declared file. -/
def DirectoryCovered (s : PatchState) : Prop :=
  ∀ id, DirectoryFile s id → DeclaredFile s id

/-- Two declarations take up the same space in the hashed text. -/
structure SameSpace (s t : PatchState) (dep dep' : String × String) : Prop where
  key : dep.1.length = dep'.1.length
  path : dep.2.length = dep'.2.length
  body : (patchBody s dep).length = (patchBody t dep').length
  isFile : s.files.isFile (s.project.root.join dep.2) = t.files.isFile (t.project.root.join dep'.2)
  exist : s.pathExists (s.project.root.join dep.2) = t.pathExists (t.project.root.join dep'.2)

def Aligned (s t : PatchState) : Prop :=
  List.Forall₂ (SameSpace s t) (getPatchedDependencies s.project).toList
    (getPatchedDependencies t.project).toList

theorem parsePatchKey_eq_some {key name version : String}
    (h : parsePatchKey key = some (name, version)) :
    key = Lockfile.packageKey name version ∧ name ≠ "" ∧ '@' ∉ version.toList := by
  unfold parsePatchKey at h
  split at h
  next before after hsplit =>
      split at h
      next => cases h
      next hname =>
          cases h
          have ⟨hkey, hfree⟩ := Text.rsplitOnce_eq_some hsplit
          exact ⟨hkey, hname, hfree⟩
  next => cases h

theorem parsePatchKey_packageKey {name version : String} (hname : name ≠ "")
    (hversion : '@' ∉ version.toList) :
    parsePatchKey (Lockfile.packageKey name version) = some (name, version) := by
  have hsplit : Text.rsplitOnce (Lockfile.packageKey name version) (· = '@') =
      some (name, version) := Text.rsplitOnce_append name version '@' hversion
  rw [parsePatchKey, hsplit]
  simp [hname]

theorem mem_patchedPackageIds_iff {project : Project} {id : PackageId} :
    id ∈ patchedPackageIds [project] ↔
      ∃ key, key ∈ getPatchedDependencies project ∧
        parsePatchKey key = some (id.name, id.version) := by
  rw [patchedPackageIds, Std.ExtTreeSet.mem_ofList, List.contains_iff_mem, List.mem_filterMap]
  simp only [List.flatMap_cons, List.flatMap_nil, List.append_nil, Std.ExtTreeMap.mem_keys,
    Option.map_eq_some_iff, Prod.exists]
  constructor
  · intro h
    obtain ⟨key, hkey, name, version, hparse, rfl⟩ := h
    exact ⟨key, hkey, hparse⟩
  · intro h
    obtain ⟨key, hkey, hparse⟩ := h
    exact ⟨key, hkey, id.name, id.version, hparse, rfl⟩

theorem patchFileId_parses {filename : String} {id : PackageId}
    (h : patchFileId filename = some id) :
    parsePatchKey (packageKey id) = some (id.name, id.version) := by
  obtain ⟨⟨name, version⟩, hparsed, rfl⟩ := Option.map_eq_some_iff.mp h
  obtain ⟨stem, -, hparse⟩ := Option.bind_eq_some_iff.mp hparsed
  obtain ⟨-, hname, hversion⟩ := parsePatchKey_eq_some hparse
  apply parsePatchKey_packageKey _ hversion
  intro hempty
  apply hname
  have hlist := congrArg String.toList hempty
  simpa [Text.replaceChar] using hlist

theorem mem_declaredPatches_iff {s : PatchState} {id : PackageId} :
    (∃ patch ∈ declaredPatches s, patch.id = id) ↔
      parsePatchKey (packageKey id) = some (id.name, id.version) ∧ DeclaredFile s id := by
  constructor
  · intro h
    obtain ⟨patch, hpatch, rfl⟩ := h
    obtain ⟨dep, hdep, hdeclared⟩ := List.mem_filterMap.mp hpatch
    obtain ⟨⟨name, version⟩, hparse, hsome⟩ := Option.bind_eq_some_iff.mp hdeclared
    dsimp only at hsome
    split at hsome
    next hexists =>
        cases hsome
        have hkey := (parsePatchKey_eq_some hparse).1
        refine ⟨by rw [packageKey, ← hkey]; exact hparse, dep.2, ?_, hexists⟩
        rw [packageKey, ← hkey]
        exact Std.ExtTreeMap.mem_toList_iff_getElem?_eq_some.mp hdep
    next => cases hsome
  · intro h
    obtain ⟨hparse, relPath, hdep, hexists⟩ := h
    refine ⟨⟨id, s.project.root.join relPath⟩, List.mem_filterMap.mpr
      ⟨(packageKey id, relPath), Std.ExtTreeMap.mem_toList_iff_getElem?_eq_some.mpr hdep, ?_⟩, rfl⟩
    simp [declaredPatch, hparse, hexists]

/-- A successful collection lists the declared patches and then those of the
directory that are for other packages. -/
theorem collectPatchesToApply_ok {s : PatchState} {patches : List PatchToApply}
    (h : collectPatchesToApply s = .ok patches) :
    patches = declaredPatches s ++ (directoryFiles s).filterMap
      (directoryPatch s ((declaredPatches s).map fun patch => packageKey patch.id)) := by
  unfold collectPatchesToApply at h
  unfold directoryFiles
  dsimp only at h
  split at h
  next hexists =>
      rw [if_pos hexists]
      split at h
      next => cases h
      next names hread =>
          cases h
          rw [hread]
          rfl
  next hexists =>
      rw [if_neg hexists]
      cases h
      simp

theorem collectPatchesToApply_of_mem {s : PatchState} {filename : String}
    (h : filename ∈ directoryFiles s) : ∃ patches, collectPatchesToApply s = .ok patches := by
  unfold directoryFiles at h
  split at h
  next hexists =>
      cases hread : s.readDir (patchesDir s.project) with
      | error source =>
          rw [hread] at h
          cases h
      | ok names => simp [collectPatchesToApply, hexists, hread]
  next => cases h

theorem packageKey_mem_seen_iff {s : PatchState} {id : PackageId}
    (hid : parsePatchKey (packageKey id) = some (id.name, id.version)) :
    packageKey id ∈ (declaredPatches s).map (fun patch => packageKey patch.id) ↔
      DeclaredFile s id := by
  rw [List.mem_map]
  constructor
  · intro h
    obtain ⟨patch, hpatch, hkey⟩ := h
    have ⟨hparse, hfile⟩ := mem_declaredPatches_iff.mp ⟨patch, hpatch, rfl⟩
    rw [hkey, hid, Option.some.injEq, Prod.mk.injEq] at hparse
    have heq : patch.id = id := congrArg₂ PackageId.mk hparse.1.symm hparse.2.symm
    exact heq ▸ hfile
  · intro h
    obtain ⟨patch, hpatch, rfl⟩ := mem_declaredPatches_iff.mpr ⟨hid, h⟩
    exact ⟨patch, hpatch, rfl⟩

theorem mem_directoryPatches_iff {s : PatchState} {id : PackageId} :
    (∃ patch ∈ (directoryFiles s).filterMap
      (directoryPatch s ((declaredPatches s).map fun patch => packageKey patch.id)),
        patch.id = id) ↔ DirectoryFile s id ∧ ¬ DeclaredFile s id := by
  constructor
  · intro h
    obtain ⟨patch, hpatch, rfl⟩ := h
    obtain ⟨filename, hmem, hdirectory⟩ := List.mem_filterMap.mp hpatch
    obtain ⟨found, hfound, hsome⟩ := Option.bind_eq_some_iff.mp hdirectory
    split at hsome
    next => cases hsome
    next hseen =>
        cases hsome
        rw [List.contains_iff_mem, packageKey_mem_seen_iff (patchFileId_parses hfound)] at hseen
        exact ⟨⟨filename, hmem, hfound⟩, hseen⟩
  · intro h
    obtain ⟨⟨filename, hmem, hfound⟩, hdeclared⟩ := h
    refine ⟨⟨id, (patchesDir s.project).join filename⟩, List.mem_filterMap.mpr
      ⟨filename, hmem, ?_⟩, rfl⟩
    rw [← packageKey_mem_seen_iff (patchFileId_parses hfound), ← List.contains_iff_mem] at hdeclared
    rw [directoryPatch, hfound, Option.bind_some, if_neg hdeclared]

/-- What is collected is for the packages with a declared file or a file in the
directory. -/
theorem mem_collected_iff {s : PatchState} {patches : List PatchToApply}
    (h : collectPatchesToApply s = .ok patches) (id : PackageId) :
    (∃ patch ∈ patches, patch.id = id) ↔
      (parsePatchKey (packageKey id) = some (id.name, id.version) ∧ DeclaredFile s id) ∨
        DirectoryFile s id := by
  rw [collectPatchesToApply_ok h]
  simp only [List.mem_append, or_and_right, exists_or]
  rw [mem_declaredPatches_iff, mem_directoryPatches_iff]
  constructor
  · intro h
    cases h with
    | inl hdeclared => exact .inl hdeclared
    | inr hdirectory => exact .inr hdirectory.1
  · intro h
    cases h with
    | inl hdeclared => exact .inl hdeclared
    | inr hdirectory =>
        by_cases hdeclared : DeclaredFile s id
        · obtain ⟨filename, -, hfound⟩ := hdirectory
          exact .inl ⟨patchFileId_parses hfound, hdeclared⟩
        · exact .inr ⟨hdirectory, hdeclared⟩

/-- A declared file marks its package when the key has a name and a version. -/
theorem mem_patchedPackageIds_of_declared {s : PatchState} {id : PackageId}
    (hid : parsePatchKey (packageKey id) = some (id.name, id.version)) (h : DeclaredFile s id) :
    id ∈ patchedPackageIds [s.project] := by
  obtain ⟨relPath, hdep, -⟩ := h
  exact mem_patchedPackageIds_iff.mpr ⟨packageKey id, BTreeMap.mem_iff_exists.mpr ⟨relPath, hdep⟩, hid⟩

theorem parses_of_mem_patchedPackageIds {project : Project} {id : PackageId}
    (h : id ∈ patchedPackageIds [project]) :
    parsePatchKey (packageKey id) = some (id.name, id.version) := by
  obtain ⟨key, -, hparse⟩ := mem_patchedPackageIds_iff.mp h
  rw [packageKey, ← (parsePatchKey_eq_some hparse).1]
  exact hparse

theorem sets_agree_iff (s : PatchState) : SetsAgree s ↔ DirectoryDeclared s := by
  constructor
  · intro h id hdirectory
    obtain ⟨filename, hmem, hfound⟩ := hdirectory
    obtain ⟨patches, hpatches⟩ := collectPatchesToApply_of_mem hmem
    have hcollected := (mem_collected_iff hpatches id).mpr (.inr ⟨filename, hmem, hfound⟩)
    exact ((h patches hpatches id).mp hcollected).1
  · intro h patches hpatches id
    rw [mem_collected_iff hpatches]
    constructor
    · intro hcollected
      cases hcollected with
      | inl hdeclared =>
          exact ⟨mem_patchedPackageIds_of_declared hdeclared.1 hdeclared.2, .inl hdeclared.2⟩
      | inr hdirectory => exact ⟨h id hdirectory, .inr hdirectory⟩
    · intro hmarked
      cases hmarked.2 with
      | inl hdeclared => exact .inl ⟨parses_of_mem_patchedPackageIds hmarked.1, hdeclared⟩
      | inr hdirectory => exact .inr hdirectory

/-- The hashed text reads a declared patch whenever it is a file. -/
def Readable (s : PatchState) (dep : String × String) : Prop :=
  s.files.isFile (s.project.root.join dep.2) = true →
    ∃ body, s.files.read (s.project.root.join dep.2) = .ok body

theorem patchText_ok {s : PatchState} {dep : String × String} {text : String}
    (h : patchText s.files s.project dep = .ok text) :
    text = dep.1 ++ dep.2 ++ patchBody s dep ∧ Readable s dep := by
  unfold patchText at h
  unfold patchBody Readable
  dsimp only at h
  split at h
  next hfile =>
      rw [if_pos hfile]
      split at h
      next body hread =>
          cases h
          rw [hread]
          exact ⟨rfl, fun _ => ⟨body, rfl⟩⟩
      next => cases h
  next hfile =>
      rw [if_neg hfile]
      cases h
      exact ⟨rfl, fun hfile' => absurd hfile' hfile⟩

theorem patchTexts_ok {s : PatchState} {deps : List (String × String)} {texts : List String}
    (h : deps.mapM (patchText s.files s.project) = .ok texts) :
    texts = deps.map (fun dep => dep.1 ++ dep.2 ++ patchBody s dep) ∧
      ∀ dep ∈ deps, Readable s dep := by
  induction deps generalizing texts with
  | nil =>
      cases h
      exact ⟨rfl, fun _ hdep => absurd hdep List.not_mem_nil⟩
  | cons dep deps ih =>
      rw [List.mapM_cons] at h
      obtain ⟨text, htext, h⟩ := Result.bind_eq_ok h
      obtain ⟨rest, hrest, h⟩ := Result.bind_eq_ok h
      cases h
      have ⟨htext, hread⟩ := patchText_ok htext
      have ⟨hrest, hreads⟩ := ih hrest
      refine ⟨by rw [htext, hrest, List.map_cons], ?_⟩
      intro other hother
      cases List.mem_cons.mp hother with
      | inl heq => exact heq ▸ hread
      | inr hmem => exact hreads other hmem

/-- A digest is the constant for no patches, or that of the hashed text. -/
theorem computeProjectPatchHash_ok {s : PatchState} {hash : String}
    (h : computeProjectPatchHash H s.files s.project = .ok hash) :
    (∀ dep ∈ (getPatchedDependencies s.project).toList, Readable s dep) ∧
      ((getPatchedDependencies s.project = ∅ ∧ hash = noPatchHash) ∨ hash = H.hex (hashedText s)) := by
  unfold computeProjectPatchHash at h
  dsimp only at h
  split at h
  next hempty =>
      rw [Std.ExtTreeMap.isEmpty_iff] at hempty
      cases h
      rw [hempty, Std.ExtTreeMap.toList_eq_nil_iff.mpr rfl]
      exact ⟨fun _ hdep => absurd hdep List.not_mem_nil, .inl ⟨rfl, rfl⟩⟩
  next =>
      obtain ⟨texts, htexts, h⟩ := Result.bind_eq_ok h
      cases h
      have ⟨htexts, hreads⟩ := patchTexts_ok htexts
      exact ⟨hreads, .inr (by rw [htexts, hashedText])⟩

theorem hex_ne_noPatchHash (text : String) : H.hex text ≠ noPatchHash := by
  intro heq
  have hmem : 'n' ∈ (H.hex text).toList := by
    rw [heq]
    decide
  exact H.not_mem_of_not_digit text (by decide) hmem

/-- Equal digests are digests of equal texts. -/
theorem hashedText_eq_of_hash_eq {s t : PatchState} {hash : String}
    (hs : computeProjectPatchHash H s.files s.project = .ok hash)
    (ht : computeProjectPatchHash H t.files t.project = .ok hash) : hashedText s = hashedText t := by
  cases (computeProjectPatchHash_ok H hs).2 with
  | inl hnone =>
      cases (computeProjectPatchHash_ok H ht).2 with
      | inl hnone' =>
          rw [hashedText, hashedText, hnone.1, hnone'.1, Std.ExtTreeMap.toList_eq_nil_iff.mpr rfl,
            List.map_nil, List.map_nil]
      | inr hhex => exact absurd (hhex.symm.trans hnone.2) (hex_ne_noPatchHash H _)
  | inr hhex =>
      cases (computeProjectPatchHash_ok H ht).2 with
      | inl hnone => exact absurd (hhex.symm.trans hnone.2) (hex_ne_noPatchHash H _)
      | inr hhex' => exact H.injective (hhex.symm.trans hhex')

theorem append_inj_of_length {a b c d : String} (hlength : a.length = c.length)
    (h : a ++ b = c ++ d) : a = c ∧ b = d := by
  have hlist : a.toList ++ b.toList = c.toList ++ d.toList := by
    rw [← String.toList_append, h, String.toList_append]
  have ⟨hleft, hright⟩ := List.append_inj hlist (by rw [String.length_toList, hlength, String.length_toList])
  exact ⟨String.toList_inj.mp hleft, String.toList_inj.mp hright⟩

/-- Equal texts of aligned declarations are made of equal pieces. -/
theorem pieces_eq {s t : PatchState} {deps deps' : List (String × String)}
    (haligned : List.Forall₂ (SameSpace s t) deps deps')
    (h : String.join (deps.map fun dep => dep.1 ++ dep.2 ++ patchBody s dep) =
      String.join (deps'.map fun dep => dep.1 ++ dep.2 ++ patchBody t dep)) :
    List.Forall₂ (fun dep dep' => dep.1 = dep'.1 ∧ patchBody s dep = patchBody t dep') deps deps' := by
  induction haligned with
  | nil => exact .nil
  | cons hspace _ ih =>
      rw [List.map_cons, List.map_cons, String.join_cons, String.join_cons] at h
      have ⟨hpiece, hrest⟩ := append_inj_of_length
        (by rw [String.length_append, String.length_append, String.length_append,
          String.length_append, hspace.key, hspace.path, hspace.body]) h
      rw [String.append_assoc, String.append_assoc] at hpiece
      have ⟨hkey, hpiece⟩ := append_inj_of_length hspace.key hpiece
      have ⟨_, hbody⟩ := append_inj_of_length hspace.path hpiece
      exact .cons ⟨hkey, hbody⟩ (ih hrest)

/-- One declaration gives the same patch in two states that agree about it. -/
theorem declaredContents_eq {s t : PatchState} {dep dep' : String × String}
    (hspace : SameSpace s t dep dep') (hkey : dep.1 = dep'.1)
    (hbody : patchBody s dep = patchBody t dep') (hs : Readable s dep) (ht : Readable t dep') :
    (declaredPatch s dep).map (patchContents s) = (declaredPatch t dep').map (patchContents t) := by
  have hcontents : ∀ id, patchContents s ⟨id, s.project.root.join dep.2⟩ =
      patchContents t ⟨id, t.project.root.join dep'.2⟩ := by
    intro id
    cases hfile : s.files.isFile (s.project.root.join dep.2) with
    | false => simp [patchContents, hfile, ← hspace.isFile]
    | true =>
        have hfile' := hspace.isFile ▸ hfile
        obtain ⟨body, hread⟩ := hs hfile
        obtain ⟨body', hread'⟩ := ht hfile'
        simp [patchBody, hfile, hfile', hread, hread', Except.toOption] at hbody
        simp [patchContents, hfile, hfile', hread, hread', hbody, Except.toOption]
  rw [declaredPatch, declaredPatch, ← hkey]
  cases parsePatchKey dep.1 with
  | none => rfl
  | some parts =>
      dsimp only [Option.bind_some]
      rw [← hspace.exist]
      split
      next => exact congrArg some (hcontents _)
      next => rfl

theorem declaredContents_eq_of_forall {s t : PatchState} {deps deps' : List (String × String)}
    (haligned : List.Forall₂ (SameSpace s t) deps deps')
    (hpieces : List.Forall₂ (fun dep dep' => dep.1 = dep'.1 ∧ patchBody s dep = patchBody t dep')
      deps deps')
    (hs : ∀ dep ∈ deps, Readable s dep) (ht : ∀ dep ∈ deps', Readable t dep) :
    (deps.filterMap (declaredPatch s)).map (patchContents s) =
      (deps'.filterMap (declaredPatch t)).map (patchContents t) := by
  rw [List.map_filterMap, List.map_filterMap]
  induction haligned with
  | nil => rfl
  | cons hspace _ ih =>
      cases hpieces with
      | cons hpiece hpieces =>
          have hhead := declaredContents_eq hspace hpiece.1 hpiece.2 (hs _ List.mem_cons_self)
            (ht _ List.mem_cons_self)
          have htail := ih hpieces (fun dep hdep => hs dep (List.mem_cons_of_mem _ hdep))
            (fun dep hdep => ht dep (List.mem_cons_of_mem _ hdep))
          rw [List.filterMap_cons, List.filterMap_cons, hhead, htail]

/-- When the declared files cover the directory, only they are collected. -/
theorem collectPatchesToApply_covered {s : PatchState} {patches : List PatchToApply}
    (hcovered : DirectoryCovered s) (h : collectPatchesToApply s = .ok patches) :
    patches = declaredPatches s := by
  have hnone : (directoryFiles s).filterMap
      (directoryPatch s ((declaredPatches s).map fun patch => packageKey patch.id)) = [] := by
    apply List.eq_nil_iff_forall_not_mem.mpr
    intro patch hpatch
    obtain ⟨hdirectory, hdeclared⟩ := mem_directoryPatches_iff.mp ⟨patch, hpatch, rfl⟩
    exact hdeclared (hcovered patch.id hdirectory)
  rw [collectPatchesToApply_ok h, hnone, List.append_nil]

/-- The digest decides the patches when the declared files cover the directory
and texts that are hashed alike are divided alike. -/
theorem digests_decide {s t : PatchState} (hs : DirectoryCovered s) (ht : DirectoryCovered t)
    (haligned : hashedText s = hashedText t → Aligned s t) : DigestsDecide H s t := by
  intro hash hhash hhash' patches patches' hpatches hpatches'
  have htext := hashedText_eq_of_hash_eq H hhash hhash'
  rw [collectPatchesToApply_covered hs hpatches, collectPatchesToApply_covered ht hpatches']
  exact declaredContents_eq_of_forall (haligned htext) (pieces_eq (haligned htext) htext)
    (computeProjectPatchHash_ok H hhash).1 (computeProjectPatchHash_ok H hhash').1

theorem patch_inventory_sound (s t : PatchState) :
    (SetsAgree s ↔ DirectoryDeclared s) ∧
      (DirectoryCovered s ∧ DirectoryCovered t ∧ (hashedText s = hashedText t → Aligned s t) →
        DigestsDecide H s t) := by
  refine ⟨sets_agree_iff s, ?_⟩
  intro h
  exact digests_decide H h.1 h.2.1 h.2.2

/-- A project with one file in its patch directory. -/
def onePatchFile (declared : Option (BTreeMap String String)) (text : String) : PatchState where
  project := ⟨"/app", "/app/package.json", { Manifest.empty with snpm := some ⟨∅, declared⟩ }⟩
  files := { Install.emptyView with
    isFile := fun path => path = "/app/patches/a@1.0.0.patch"
    read := fun _ => .ok text }
  pathExists path := path = "/app/patches" || path = "/app/patches/a@1.0.0.patch"
  readDir _ := .ok ["a@1.0.0.patch"]
  pathExists_of_isFile := by
    intro path h
    have hpath : path = "/app/patches/a@1.0.0.patch" := of_decide_eq_true h
    rw [hpath]
    decide

def declaredFile (text : String) : PatchState :=
  onePatchFile (some (BTreeMap.collect [("a@1.0.0", "patches/a@1.0.0.patch")])) text

theorem declaredFile_covered : DirectoryCovered (declaredFile "diff") := by
  intro id h
  obtain ⟨filename, hmem, hfound⟩ := h
  have hfiles : directoryFiles (declaredFile "diff") = ["a@1.0.0.patch"] := by decide +kernel
  rw [hfiles, List.mem_singleton] at hmem
  have hid : patchFileId "a@1.0.0.patch" = some ⟨"a", "1.0.0"⟩ := by decide +kernel
  rw [hmem, hid, Option.some.injEq] at hfound
  exact ⟨"patches/a@1.0.0.patch", hfound ▸ by decide +kernel, by decide +kernel⟩

theorem declared_file_sound :
    DigestsDecide Digest.unaryHash (declaredFile "diff") (declaredFile "diff") :=
  (patch_inventory_sound Digest.unaryHash (declaredFile "diff") (declaredFile "diff")).2
    ⟨declaredFile_covered, declaredFile_covered,
      fun _ => List.forall₂_same.mpr fun _ _ => ⟨rfl, rfl, rfl, rfl, rfl⟩⟩

/-- A patch file that no manifest declares is applied to a package that is not
marked project-local, and a change of its text changes no digest. -/
theorem undeclared_file_unnoticed :
    ¬ SetsAgree (onePatchFile none "old") ∧
      ¬ DigestsDecide Digest.unaryHash (onePatchFile none "old") (onePatchFile none "new") := by
  constructor
  · intro h
    have hdirectory : DirectoryFile (onePatchFile none "old") ⟨"a", "1.0.0"⟩ :=
      ⟨"a@1.0.0.patch", List.mem_singleton_self _, by decide +kernel⟩
    have hmarked := (sets_agree_iff _).mp h _ hdirectory
    have hnone : (patchedPackageIds [(onePatchFile none "old").project]).contains ⟨"a", "1.0.0"⟩ =
        false := by decide +kernel
    rw [← Std.ExtTreeSet.contains_iff_mem, hnone] at hmarked
    cases hmarked
  · intro h
    have heq := h noPatchHash rfl rfl
      [⟨⟨"a", "1.0.0"⟩, "/app/patches/a@1.0.0.patch"⟩]
      [⟨⟨"a", "1.0.0"⟩, "/app/patches/a@1.0.0.patch"⟩]
      (by decide +kernel) (by decide +kernel)
    exact absurd heq (by decide +kernel)

end Snpm.Patch
