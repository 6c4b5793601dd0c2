import Mathlib
import Snpm.Library.OrderFree
import Snpm.Library.TextParts
import Snpm.Lockfile
import Snpm.Error

/-!
The root of an imported `pnpm-lock.yaml`: the dependencies of its importers are
merged into one map. The map does not depend on the order of the importers.
-/
namespace Snpm.Compat.Pnpm

open OrderFree (Same Commutes)

inductive RawImporterDependency where
  | inline (specifier version : String)
  | version (version : String)

structure RawImporter where
  specifiers : BTreeMap String String
  dependencies : BTreeMap String RawImporterDependency
  devDependencies : BTreeMap String RawImporterDependency
  optionalDependencies : BTreeMap String RawImporterDependency

def RawImporterDependency.versionText : RawImporterDependency → String
  | .inline _ text => text
  | .version text => text

def RawImporterDependency.specifierText (name : String) (specifiers : BTreeMap String String) :
    RawImporterDependency → Option String
  | .inline specifier _ => some specifier
  | .version _ => specifiers[name]?

section Root

variable (path : PathBuf)

def stripPeerSuffix (depRef : String) : String :=
  match Text.splitOnce depRef (· = '(') with
  | some (head, _) => head
  | none => depRef

def resolveDependencyKey (depName depRef : String) (depPathToPackageKey : BTreeMap String String) :
    Option String :=
  let depRef := stripPeerSuffix depRef
  let candidate := if depRef ∈ depPathToPackageKey then depRef else depName ++ "@" ++ depRef
  depPathToPackageKey[candidate]?

def rootDependency (depName requested : String) (resolved : PackageId) (isOptional : Bool) :
    LockRootDependency where
  requested := requested
  package := if resolved.name ≠ depName then some resolved.name else none
  version := some resolved.version
  optional := isOptional

def buildOptionalRootDependency (depName requested : String) (resolved : Option String) :
    LockRootDependency :=
  match resolved.bind Lockfile.splitDepKey with
  | some id => rootDependency depName requested id true
  | none => ⟨requested, none, none, true⟩

def buildRequiredRootDependency (depName requested : String) (resolved : Option String) :
    Result LockRootDependency :=
  match resolved with
  | none => .error (.lockfile path ("pnpm root dependency `" ++ depName ++ "` -> `" ++ requested ++
      "` could not be resolved from the imported lockfile"))
  | some depKey =>
      match Lockfile.splitDepKey depKey with
      | some id => .ok (rootDependency depName requested id false)
      | none => .error (.lockfile path ("unsupported resolved dependency key `" ++ depKey ++ "`"))

def displayImporterPath (importerPath : String) : String :=
  if importerPath = "" then "." else importerPath

def importerConflictError (importerPath depName left right : String) : SnpmError :=
  .lockfile path ("pnpm importer `" ++ displayImporterPath importerPath ++
    "` declares dependency `" ++ depName ++ "` with conflicting values `" ++ left ++ "` and `" ++
    right ++ "`")

/-- What an importer declares of one dependency. -/
structure Declaration where
  importerPath : String
  depName : String
  incoming : LockRootDependency

/-- The values of a field in two declarations: the one that is there, if they agree. -/
def mergeField (importerPath depName : String) (existing incoming : Option String) :
    Result (Option String) :=
  match existing, incoming with
  | some left, some right =>
      if left ≠ right then .error (importerConflictError path importerPath depName left right)
      else .ok (some left)
  | none, some value => .ok (some value)
  | existing, none => .ok existing

def mergeExisting (existing : LockRootDependency) (d : Declaration) : Result LockRootDependency :=
  if existing.requested ≠ d.incoming.requested then
    .error (importerConflictError path d.importerPath d.depName existing.requested
      d.incoming.requested)
  else do
    let package ← mergeField path d.importerPath d.depName existing.package d.incoming.package
    let version ← mergeField path d.importerPath d.depName existing.version d.incoming.version
    .ok ⟨existing.requested, package, version, existing.optional && d.incoming.optional⟩

def mergeRootDependency (root : BTreeMap String LockRootDependency) (d : Declaration) :
    Result (BTreeMap String LockRootDependency) :=
  match root[d.depName]? with
  | none => .ok (root.insert d.depName d.incoming)
  | some existing => do
      let merged ← mergeExisting path existing d
      .ok (root.insert d.depName merged)

variable (depPathToPackageKey : BTreeMap String String)

/-- The entry of one dependency of a block. -/
def incomingRootDependency (importer : RawImporter) (isOptional : Bool) (depName : String)
    (dep : RawImporterDependency) : Result LockRootDependency :=
  let requested := (dep.specifierText depName importer.specifiers).getD dep.versionText
  let resolved := resolveDependencyKey depName dep.versionText depPathToPackageKey
  if isOptional then .ok (buildOptionalRootDependency depName requested resolved)
  else buildRequiredRootDependency path depName requested resolved

def insertRootBlock (importerPath : String) (importer : RawImporter)
    (block : BTreeMap String RawImporterDependency) (isOptional : Bool)
    (root : BTreeMap String LockRootDependency) : Result (BTreeMap String LockRootDependency) :=
  block.toList.foldlM (fun root entry => do
    let incoming ← incomingRootDependency path depPathToPackageKey importer isOptional entry.1 entry.2
    mergeRootDependency path root ⟨importerPath, entry.1, incoming⟩) root

def insertImporter (root : BTreeMap String LockRootDependency) (entry : String × RawImporter) :
    Result (BTreeMap String LockRootDependency) := do
  let root ← insertRootBlock path depPathToPackageKey entry.1 entry.2 entry.2.dependencies false root
  let root ← insertRootBlock path depPathToPackageKey entry.1 entry.2 entry.2.devDependencies false root
  insertRootBlock path depPathToPackageKey entry.1 entry.2 entry.2.optionalDependencies true root

/-- The importers are given in some order; the source walks them by their paths. -/
def buildRoot (importers : List (String × RawImporter)) : Result LockRoot := do
  let dependencies ← importers.foldlM (insertImporter path depPathToPackageKey) ∅
  .ok ⟨dependencies⟩

end Root

section Merging

variable {path : PathBuf}

def IsConflict (path : PathBuf) (e : SnpmError) : Prop :=
  ∃ importerPath depName left right, e = importerConflictError path importerPath depName left right

theorem mergeField_error {importerPath depName : String} {existing incoming : Option String}
    {e : SnpmError} (h : mergeField path importerPath depName existing incoming = .error e) :
    IsConflict path e := by
  unfold mergeField at h
  split at h
  · split at h
    · cases h
      exact ⟨_, _, _, _, rfl⟩
    · cases h
  · cases h
  · cases h

theorem mergeExisting_error {existing : LockRootDependency} {d : Declaration} {e : SnpmError}
    (h : mergeExisting path existing d = .error e) : IsConflict path e := by
  unfold mergeExisting at h
  split at h
  · cases h
    exact ⟨_, _, _, _, rfl⟩
  · cases hpackage : mergeField path d.importerPath d.depName existing.package d.incoming.package with
    | error e' =>
        rw [hpackage] at h
        cases h
        exact mergeField_error hpackage
    | ok package =>
        rw [hpackage] at h
        cases hversion : mergeField path d.importerPath d.depName existing.version
            d.incoming.version with
        | error e' =>
            rw [hversion] at h
            cases h
            exact mergeField_error hversion
        | ok version =>
            rw [hversion] at h
            cases h

/-- The value of a field in two declarations, if they agree. -/
def joinField : Option String → Option String → Option (Option String)
  | some left, some right => if left = right then some (some left) else none
  | none, some value => some (some value)
  | existing, none => some existing

def join (existing incoming : LockRootDependency) : Option LockRootDependency :=
  if existing.requested = incoming.requested then do
    let package ← joinField existing.package incoming.package
    let version ← joinField existing.version incoming.version
    some ⟨existing.requested, package, version, existing.optional && incoming.optional⟩
  else none

theorem mergeField_toOption (importerPath depName : String) (existing incoming : Option String) :
    (mergeField path importerPath depName existing incoming).toOption =
      joinField existing incoming := by
  cases existing with
  | none => cases incoming with
    | none => rfl
    | some value => rfl
  | some left => cases incoming with
    | none => rfl
    | some right =>
        by_cases heq : left = right
        · simp only [mergeField, joinField, heq, ne_eq, not_true_eq_false, if_false, if_true]
          rfl
        · simp only [mergeField, joinField, heq, ne_eq, not_false_eq_true, if_true, if_false]
          rfl

theorem mergeExisting_toOption (existing : LockRootDependency) (d : Declaration) :
    (mergeExisting path existing d).toOption = join existing d.incoming := by
  unfold mergeExisting join
  by_cases hrequested : existing.requested = d.incoming.requested
  · rw [if_neg (not_not.mpr hrequested), if_pos hrequested,
      ← @mergeField_toOption path d.importerPath d.depName existing.package,
      ← @mergeField_toOption path d.importerPath d.depName existing.version]
    cases mergeField path d.importerPath d.depName existing.package d.incoming.package with
    | error e => rfl
    | ok package =>
        cases mergeField path d.importerPath d.depName existing.version d.incoming.version with
        | error e => rfl
        | ok version => rfl
  · rw [if_pos hrequested, if_neg hrequested]
    rfl

theorem joinField_some (left right : String) :
    joinField (some left) (some right) = if left = right then some (some left) else none := rfl

theorem joinField_none (a : Option String) : joinField a none = some a := by
  cases a with
  | none => rfl
  | some left => rfl

theorem joinField_comm (a b : Option String) : joinField a b = joinField b a := by
  cases a with
  | none => cases b with
    | none => rfl
    | some right => rfl
  | some left => cases b with
    | none => rfl
    | some right =>
        rw [joinField_some, joinField_some]
        by_cases heq : left = right
        · rw [if_pos heq, if_pos heq.symm, heq]
        · rw [if_neg heq, if_neg (Ne.symm heq)]

theorem none_joinField (a : Option String) : joinField none a = some a := by
  rw [joinField_comm, joinField_none]

theorem joinField_later (a b c : Option String) :
    ((joinField a b).bind fun d => joinField d c) = (joinField a c).bind fun d => joinField d b := by
  cases a with
  | none =>
      rw [none_joinField, none_joinField]
      exact joinField_comm b c
  | some left => cases b with
    | none =>
        rw [joinField_none]
        simp only [Option.bind_some, joinField_none, Option.bind_fun_some]
    | some right => cases c with
      | none =>
          rw [joinField_none]
          simp only [Option.bind_some, joinField_none, Option.bind_fun_some]
      | some third =>
          rw [joinField_some, joinField_some]
          by_cases hright : left = right
          · by_cases hthird : left = third
            · rw [if_pos hright, if_pos hthird, ← hright, ← hthird]
            · rw [if_pos hright, if_neg hthird, Option.bind_some, joinField_some, if_neg hthird]
              rfl
          · by_cases hthird : left = third
            · rw [if_neg hright, if_pos hthird, Option.bind_some, joinField_some, if_neg hright]
              rfl
            · rw [if_neg hright, if_neg hthird]
              rfl

theorem join_same {a b : LockRootDependency} (h : a.requested = b.requested) : join a b =
    (joinField a.package b.package).bind fun package =>
      (joinField a.version b.version).bind fun version =>
        some ⟨a.requested, package, version, a.optional && b.optional⟩ :=
  if_pos h

theorem join_other {a b : LockRootDependency} (h : a.requested ≠ b.requested) : join a b = none :=
  if_neg h

theorem join_comm (a b : LockRootDependency) : join a b = join b a := by
  by_cases h : a.requested = b.requested
  · rw [join_same h, join_same h.symm, joinField_comm a.package, joinField_comm a.version, h,
      Bool.and_comm]
  · rw [join_other h, join_other (Ne.symm h)]

/-- Three declarations are joined field by field. -/
theorem join_join {a b c : LockRootDependency} (hb : a.requested = b.requested)
    (hc : a.requested = c.requested) : ((join a b).bind fun d => join d c) =
      ((joinField a.package b.package).bind fun p => joinField p c.package).bind fun package =>
        ((joinField a.version b.version).bind fun v => joinField v c.version).bind fun version =>
          some ⟨a.requested, package, version, a.optional && b.optional && c.optional⟩ := by
  rw [join_same hb]
  cases joinField a.package b.package with
  | none => rfl
  | some p => cases joinField a.version b.version with
    | none =>
        simp only [Option.bind_some, Option.bind_none, Option.bind_fun_none]
    | some v =>
        simp only [Option.bind_some]
        exact join_same hc

theorem join_later (a b c : LockRootDependency) :
    ((join a b).bind fun d => join d c) = (join a c).bind fun d => join d b := by
  have hkept : ∀ {a b d : LockRootDependency}, join a b = some d → d.requested = a.requested := by
    intro a b d h
    by_cases hrequested : a.requested = b.requested
    · rw [join_same hrequested] at h
      obtain ⟨package, -, h⟩ := Option.bind_eq_some_iff.mp h
      obtain ⟨version, -, h⟩ := Option.bind_eq_some_iff.mp h
      rw [← Option.some.inj h]
    · rw [join_other hrequested] at h
      cases h
  have hdifferent : ∀ {a b c : LockRootDependency}, a.requested ≠ c.requested →
      ((join a b).bind fun d => join d c) = none := by
    intro a b c h
    rw [Option.bind_eq_none_iff]
    intro d hd
    exact join_other (by rw [hkept hd]; exact h)
  by_cases hb : a.requested = b.requested
  · by_cases hc : a.requested = c.requested
    · rw [join_join hb hc, join_join hc hb, joinField_later a.package, joinField_later a.version,
        Bool.and_right_comm]
    · rw [hdifferent hc, join_other hc]
      rfl
  · rw [join_other hb, hdifferent hb]
    rfl

/-- Two declarations of one dependency may be merged in any order. -/
theorem mergeExisting_same {x y : Result LockRootDependency} (h : x.toOption = y.toOption) :
    Same x y := by
  cases x with
  | error e => cases y with
    | error e' => trivial
    | ok b => cases h
  | ok a => cases y with
    | error e' => cases h
    | ok b => exact Option.some.inj h

theorem toOption_bind {x : Result LockRootDependency} {f : LockRootDependency → Result LockRootDependency} :
    (x >>= f).toOption = x.toOption.bind fun a => (f a).toOption := by
  cases x with
  | error e => rfl
  | ok a => rfl

theorem mergeRootDependency_eq (path : PathBuf) : mergeRootDependency path =
    OrderFree.merge Declaration.depName Declaration.incoming (mergeExisting path) := by
  funext root d
  cases hfound : root[d.depName]? with
  | none => rw [mergeRootDependency, hfound, OrderFree.merge_new hfound]
  | some existing =>
      rw [mergeRootDependency, hfound, OrderFree.merge_old hfound]
      dsimp only
      cases mergeExisting path existing d with
      | error e => rfl
      | ok merged => rfl

theorem mergeRootDependency_commutes (path : PathBuf) : Commutes (mergeRootDependency path) := by
  rw [mergeRootDependency_eq]
  apply OrderFree.merge_commutes
  · intro a b _
    apply mergeExisting_same
    rw [mergeExisting_toOption, mergeExisting_toOption]
    exact join_comm a.incoming b.incoming
  · intro existing a b _
    apply mergeExisting_same
    simp only [toOption_bind, mergeExisting_toOption]
    exact join_later existing a.incoming b.incoming

theorem mergeRootDependency_error {root : BTreeMap String LockRootDependency} {d : Declaration}
    {e : SnpmError} (h : mergeRootDependency path root d = .error e) : IsConflict path e := by
  unfold mergeRootDependency at h
  split at h
  · cases h
  · rename_i existing _
    cases hmerged : mergeExisting path existing d with
    | error e' =>
        rw [hmerged] at h
        cases h
        exact mergeExisting_error hmerged
    | ok merged =>
        rw [hmerged] at h
        cases h

end Merging

section Order

variable (path : PathBuf) (depPathToPackageKey : BTreeMap String String)

/-- One dependency of a block of an importer. -/
structure BlockEntry where
  importerPath : String
  importer : RawImporter
  isOptional : Bool
  depName : String
  dep : RawImporterDependency

def blockEntries (importerPath : String) (importer : RawImporter)
    (block : BTreeMap String RawImporterDependency) (isOptional : Bool) : List BlockEntry :=
  block.toList.map fun entry => ⟨importerPath, importer, isOptional, entry.1, entry.2⟩

def importerEntries (entry : String × RawImporter) : List BlockEntry :=
  blockEntries entry.1 entry.2 entry.2.dependencies false ++
    (blockEntries entry.1 entry.2 entry.2.devDependencies false ++
      blockEntries entry.1 entry.2 entry.2.optionalDependencies true)

def BlockEntry.incoming (entry : BlockEntry) : Result LockRootDependency :=
  incomingRootDependency path depPathToPackageKey entry.importer entry.isOptional entry.depName
    entry.dep

def insertEntry (root : BTreeMap String LockRootDependency) (entry : BlockEntry) :
    Result (BTreeMap String LockRootDependency) := do
  let incoming ← entry.incoming path depPathToPackageKey
  mergeRootDependency path root ⟨entry.importerPath, entry.depName, incoming⟩

theorem insertRootBlock_eq (importerPath : String) (importer : RawImporter)
    (block : BTreeMap String RawImporterDependency) (isOptional : Bool)
    (root : BTreeMap String LockRootDependency) :
    insertRootBlock path depPathToPackageKey importerPath importer block isOptional root =
      (blockEntries importerPath importer block isOptional).foldlM
        (insertEntry path depPathToPackageKey) root := by
  rw [insertRootBlock, blockEntries, List.foldlM_map]
  rfl

theorem insertImporter_eq (root : BTreeMap String LockRootDependency) (entry : String × RawImporter) :
    insertImporter path depPathToPackageKey root entry =
      (importerEntries entry).foldlM (insertEntry path depPathToPackageKey) root := by
  rw [importerEntries, List.foldlM_append]
  simp only [insertImporter, insertRootBlock_eq, List.foldlM_append]

theorem foldlM_insertImporter (importers : List (String × RawImporter))
    (root : BTreeMap String LockRootDependency) :
    importers.foldlM (insertImporter path depPathToPackageKey) root =
      (importers.flatMap importerEntries).foldlM (insertEntry path depPathToPackageKey) root := by
  induction importers generalizing root with
  | nil => rfl
  | cons entry importers ih =>
      rw [List.foldlM_cons, List.flatMap_cons, List.foldlM_append, insertImporter_eq]
      congr 1
      funext next
      exact ih next

theorem insertEntry_commutes : Commutes (insertEntry path depPathToPackageKey) := by
  intro root a b
  unfold insertEntry
  cases a.incoming path depPathToPackageKey with
  | error e =>
      cases b.incoming path depPathToPackageKey with
      | error e' => trivial
      | ok incoming =>
          change Same (.error e)
            (mergeRootDependency path root ⟨b.importerPath, b.depName, incoming⟩ >>= fun _ => .error e)
          cases mergeRootDependency path root ⟨b.importerPath, b.depName, incoming⟩ with
          | error e' => trivial
          | ok next => trivial
  | ok left =>
      cases b.incoming path depPathToPackageKey with
      | error e =>
          change Same
            (mergeRootDependency path root ⟨a.importerPath, a.depName, left⟩ >>= fun _ => .error e)
            (.error e)
          cases mergeRootDependency path root ⟨a.importerPath, a.depName, left⟩ with
          | error e' => trivial
          | ok next => trivial
      | ok right =>
          exact mergeRootDependency_commutes path root ⟨a.importerPath, a.depName, left⟩
            ⟨b.importerPath, b.depName, right⟩

variable {path depPathToPackageKey}

/-- Every dependency that must resolve does. -/
def Resolves (path : PathBuf) (depPathToPackageKey : BTreeMap String String)
    (importers : List (String × RawImporter)) : Prop :=
  ∀ entry ∈ importers.flatMap importerEntries,
    ∃ incoming, entry.incoming path depPathToPackageKey = .ok incoming

theorem buildRoot_error {importers : List (String × RawImporter)} {e : SnpmError}
    (hresolves : Resolves path depPathToPackageKey importers)
    (h : buildRoot path depPathToPackageKey importers = .error e) : IsConflict path e := by
  unfold buildRoot at h
  rw [foldlM_insertImporter] at h
  cases hfold : (importers.flatMap importerEntries).foldlM (insertEntry path depPathToPackageKey) ∅ with
  | ok root =>
      rw [hfold] at h
      cases h
  | error e' =>
      rw [hfold] at h
      cases h
      obtain ⟨root, entry, hentry, herror⟩ := OrderFree.foldlM_error hfold
      obtain ⟨incoming, hincoming⟩ := hresolves entry hentry
      unfold insertEntry at herror
      rw [hincoming] at herror
      exact mergeRootDependency_error herror

/-- The same root, or an error both times; it is a conflict when nothing else
can go wrong. -/
def SameOutcome (path : PathBuf) (resolves : Prop) : Result LockRoot → Result LockRoot → Prop
  | .ok root, .ok root' => root = root'
  | .error e, .error e' => resolves → IsConflict path e ∧ IsConflict path e'
  | _, _ => False

theorem importer_order_irrelevant {importers importers' : List (String × RawImporter)}
    (h : importers.Perm importers') :
    SameOutcome path (Resolves path depPathToPackageKey importers)
      (buildRoot path depPathToPackageKey importers)
      (buildRoot path depPathToPackageKey importers') := by
  have hentries := h.flatMap_right importerEntries
  have hsame : Same (buildRoot path depPathToPackageKey importers)
      (buildRoot path depPathToPackageKey importers') := by
    unfold buildRoot
    rw [foldlM_insertImporter, foldlM_insertImporter]
    exact (OrderFree.foldlM_perm (insertEntry_commutes path depPathToPackageKey) hentries ∅).bind
      fun _ => Same.refl _
  have hresolves : Resolves path depPathToPackageKey importers →
      Resolves path depPathToPackageKey importers' :=
    fun hall entry hentry => hall entry (hentries.mem_iff.mpr hentry)
  cases hleft : buildRoot path depPathToPackageKey importers with
  | ok root =>
      cases hright : buildRoot path depPathToPackageKey importers' with
      | ok root' =>
          rw [hleft, hright] at hsame
          exact hsame
      | error e =>
          rw [hleft, hright] at hsame
          exact hsame
  | error e =>
      cases hright : buildRoot path depPathToPackageKey importers' with
      | ok root' =>
          rw [hleft, hright] at hsame
          exact hsame
      | error e' =>
          intro hall
          exact ⟨buildRoot_error hall hleft, buildRoot_error (hresolves hall) hright⟩

/-- A root that needs a package and a member that only may have it. -/
def needing : RawImporter :=
  ⟨∅, BTreeMap.collect [("shared", .inline "^1.0.0" "1.0.0")], ∅, ∅⟩

def wishing : RawImporter :=
  ⟨∅, ∅, ∅, BTreeMap.collect [("shared", .inline "^1.0.0" "2.0.0")]⟩

def sharedKeys : BTreeMap String String := BTreeMap.collect [("shared@1.0.0", "shared@1.0.0")]

theorem shared_order_irrelevant :
    SameOutcome "pnpm-lock.yaml"
      (Resolves "pnpm-lock.yaml" sharedKeys [(".", needing), ("packages/a", wishing)])
      (buildRoot "pnpm-lock.yaml" sharedKeys [(".", needing), ("packages/a", wishing)])
      (buildRoot "pnpm-lock.yaml" sharedKeys [("packages/a", wishing), (".", needing)]) :=
  importer_order_irrelevant (List.Perm.swap _ _ [])

example : ((buildRoot "pnpm-lock.yaml" sharedKeys [("packages/a", wishing), (".", needing)]).toOption.bind
    fun root => root.dependencies["shared"]?) = some ⟨"^1.0.0", none, some "1.0.0", false⟩ := by
  decide +kernel

end Order

end Snpm.Compat.Pnpm
