import Mathlib
import Snpm.Library.Utf8
import Snpm.Resolve.Registry

/-!
The cache of registry metadata on disk. Records are gathered in shards, a file for
the names with one hash; a write reads the shard, changes the record of its name
and puts the new shard in the place of the old one. Where the shards have nothing,
the files of an older cache, a directory for a name, are read.
-/
namespace Snpm.Cache

structure CachedHeaders where
  etag : Option String
  lastModified : Option String
deriving DecidableEq

/-- A record of the cache; the path it was read from is only printed. -/
structure CachedPackageEntry where
  package : Option RegistryPackage
  headers : Option CachedHeaders
  updatedAtUnixSecs : Nat
deriving DecidableEq

def CachedPackageEntry.default : CachedPackageEntry := ⟨none, none, 0⟩

structure MetadataShard where
  version : Nat
  packages : BTreeMap String CachedPackageEntry
deriving DecidableEq

def packumentCacheVersion : Nat := 1

def MetadataShard.default : MetadataShard := ⟨packumentCacheVersion, ∅⟩

section Paths

def packumentCacheShards : UInt32 := 64

def sanitizePackageName (name : String) : String :=
  String.ofList (name.toList.flatMap fun c => if c = '/' then ['_', '_'] else [c])

def shardForName (name : String) : UInt32 :=
  (Text.utf8 name).foldl (fun hash byte => (hash ^^^ byte.toUInt32) * 16777619) 2166136261 %
    packumentCacheShards

/-- The file of the metadata directory with the shard of a name. -/
def metadataShardFile (name : String) : String :=
  let shard := (shardForName name).toNat
  "packuments-v1-" ++ String.ofList [Nat.digitChar (shard / 16), Nat.digitChar (shard % 16)] ++
    ".bin"

end Paths

section Codec

/-- The values that `bincode` can write and cannot read back: it does not say of
which kind a value is. -/
def RegistryVersion.isPlain (version : RegistryVersion) : Bool :=
  version.bundledDependencies.isNone && version.bundleDependencies.isNone && version.bin.isNone

def CachedPackageEntry.isPlain (entry : CachedPackageEntry) : Bool :=
  entry.package.all fun package => package.versions.values.all RegistryVersion.isPlain

def MetadataShard.isPlain (shard : MetadataShard) : Bool :=
  shard.packages.values.all CachedPackageEntry.isPlain

structure Bincode (Bytes : Type) where
  serialize : MetadataShard → Option Bytes
  deserialize : Bytes → Option MetadataShard

/-- What the cache relies on: the bytes of a shard give the shard or nothing. -/
structure Bincode.Lawful {Bytes : Type} (codec : Bincode Bytes) : Prop where
  serializes : ∀ shard, (codec.serialize shard).isSome = true
  reads : ∀ shard bytes, codec.serialize shard = some bytes →
    codec.deserialize bytes = if shard.isPlain then some shard else none

end Codec

/-- A file of the older cache, with what its text gives and its time stamp. -/
structure LegacyFile (α : Type) where
  content : Option α
  modified : Option Nat

structure Disk (Bytes : Type) where
  shards : BTreeMap String Bytes
  legacyPackages : BTreeMap String (LegacyFile RegistryPackage)
  legacyHeaders : BTreeMap String (LegacyFile CachedHeaders)

section Storage

variable {Bytes : Type} (codec : Bincode Bytes) (disk : Disk Bytes) (name : String)

def readShard (file : String) : Option MetadataShard := do
  let bytes ← disk.shards[file]?
  let shard ← codec.deserialize bytes
  if shard.version = packumentCacheVersion then some shard else none

def readShardRecord : Option CachedPackageEntry := do
  let shard ← readShard codec disk (metadataShardFile name)
  let entry ← shard.packages[name]?
  if entry.package = none ∧ entry.headers = none then none else some entry

def latestModifiedUnixSecs (times : List (Option Nat)) : Nat :=
  (times.filterMap id).max?.getD 0

def readLegacyRecord : Option CachedPackageEntry :=
  let packageFile := disk.legacyPackages[sanitizePackageName name]?
  let headersFile := disk.legacyHeaders[sanitizePackageName name]?
  let package := packageFile.bind (·.content)
  let headers := headersFile.bind (·.content)
  if package = none ∧ headers = none then none
  else some ⟨package, headers, latestModifiedUnixSecs
    [packageFile.bind (·.modified), headersFile.bind (·.modified)]⟩

def readCachedPackageRecord : Option CachedPackageEntry :=
  (readShardRecord codec disk name).or (readLegacyRecord disk name)

/-- The changes that `write_cached_package`, `write_cached_headers` and
`write_cached_package_record` make to a record. -/
inductive Update where
  | setPackage (package : RegistryPackage)
  | setHeaders (headers : CachedHeaders)
  | setRecord (package : RegistryPackage) (headers : Option CachedHeaders)

def Update.apply (entry : CachedPackageEntry) : Update → CachedPackageEntry
  | .setPackage package => { entry with package := some package }
  | .setHeaders headers => { entry with headers := some headers }
  | .setRecord package headers =>
      { entry with package := some package, headers := headers.or entry.headers }

def Update.package? : Update → Option RegistryPackage
  | .setPackage package => some package
  | .setRecord package _ => some package
  | .setHeaders _ => none

def Update.headers? : Update → Option CachedHeaders
  | .setPackage _ => none
  | .setRecord _ headers => headers
  | .setHeaders headers => some headers

/-- An update changes the parts it sets and keeps the others. -/
theorem Update.package_apply {update : Update} {entry : CachedPackageEntry} {package : RegistryPackage}
    (h : (update.apply entry).package = some package) :
    update.package? = some package ∨ entry.package = some package := by
  cases update with
  | setHeaders => exact .inr h
  | _ => exact .inl h

theorem Update.headers_apply {update : Update} {entry : CachedPackageEntry} {headers : CachedHeaders}
    (h : (update.apply entry).headers = some headers) :
    update.headers? = some headers ∨ entry.headers = some headers := by
  cases update with
  | setPackage => exact .inr h
  | setHeaders => exact .inl h
  | setRecord package given =>
      cases given with
      | none => exact .inr h
      | some given => exact .inl h

def updatedEntry (update : Update) (now : Nat) (shard : MetadataShard) : CachedPackageEntry :=
  { update.apply (shard.packages[name]?.getD .default) with updatedAtUnixSecs := now }

def updatedShard (update : Update) (now : Nat) : MetadataShard :=
  let shard := (readShard codec disk (metadataShardFile name)).getD .default
  { shard with packages := shard.packages.insert name (updatedEntry name update now shard) }

def withShard (file : String) (bytes : Bytes) : Disk Bytes :=
  { disk with shards := disk.shards.insert file bytes }

def withoutShard (file : String) : Disk Bytes :=
  { disk with shards := disk.shards.erase file }

/-- A write that nothing disturbs. -/
def writeRecordUpdate (update : Update) (now : Nat) : Disk Bytes :=
  match codec.serialize (updatedShard codec disk name update now) with
  | some bytes => withShard disk (metadataShardFile name) bytes
  | none => disk

end Storage

section Shards

variable {Bytes : Type} {codec : Bincode Bytes} {disk : Disk Bytes} {name : String}

theorem readShard_withoutShard {file other : String} {shard : MetadataShard}
    (h : readShard codec (withoutShard disk file) other = some shard) :
    readShard codec disk other = some shard := by
  simp only [readShard, withoutShard, Std.ExtTreeMap.getElem?_erase] at h
  split at h
  next => cases h
  next => exact h

/-- The shard that was written is read back, or nothing is. -/
theorem readShard_withShard (hcodec : codec.Lawful) {file other : String} {bytes : Bytes}
    {written shard : MetadataShard} (hbytes : codec.serialize written = some bytes)
    (h : readShard codec (withShard disk file bytes) other = some shard) :
    (other = file ∧ shard = written) ∨ readShard codec disk other = some shard := by
  simp only [readShard, withShard, BTreeMap.getElem?_insert_self_or] at h
  split at h
  next heq =>
      simp only [Option.bind_eq_bind, Option.bind_some, hcodec.reads written bytes hbytes] at h
      obtain ⟨found, hfound, hversion⟩ := Option.bind_eq_some_iff.mp h
      split at hfound
      next =>
          cases hfound
          split at hversion
          next =>
              cases hversion
              exact .inl ⟨heq.symm, rfl⟩
          next => cases hversion
      next => cases hfound
  next => exact .inr h

theorem withShard_withoutShard {file : String} {bytes : Bytes} :
    withShard (withoutShard disk file) file bytes = withShard disk file bytes := by
  simp only [withShard, withoutShard, Disk.mk.injEq, and_true]
  apply Std.ExtTreeMap.ext_getElem?
  intro other
  simp only [BTreeMap.getElem?_insert_self_or, Std.ExtTreeMap.getElem?_erase]
  by_cases h : file = other
  · simp [h]
  · simp [h, Std.LawfulEqCmp.compare_eq_iff_eq]

theorem readShardRecord_eq_some {entry : CachedPackageEntry}
    (h : readShardRecord codec disk name = some entry) :
    ∃ shard, readShard codec disk (metadataShardFile name) = some shard ∧
      shard.packages[name]? = some entry := by
  obtain ⟨shard, hread, h⟩ := Option.bind_eq_some_iff.mp h
  obtain ⟨found, hfound, h⟩ := Option.bind_eq_some_iff.mp h
  split at h
  next => cases h
  next =>
      cases h
      exact ⟨shard, hread, hfound⟩

/-- The records of a changed shard are the changed one and those that were there. -/
theorem mem_updatedShard {update : Update} {now : Nat} {other : String}
    {entry : CachedPackageEntry}
    (h : (updatedShard codec disk name update now).packages[other]? = some entry) :
    (other = name ∧ entry = updatedEntry name update now
      ((readShard codec disk (metadataShardFile name)).getD .default)) ∨
    ∃ shard, readShard codec disk (metadataShardFile name) = some shard ∧
      shard.packages[other]? = some entry := by
  simp only [updatedShard, BTreeMap.getElem?_insert_self_or] at h
  split at h
  next heq =>
      cases h
      exact .inl ⟨heq.symm, rfl⟩
  next =>
      refine .inr ?_
      cases hread : readShard codec disk (metadataShardFile name) with
      | some shard => exact ⟨shard, rfl, by rwa [hread] at h⟩
      | none =>
          rw [hread] at h
          simp [MetadataShard.default] at h

/-- A codec whose bytes are the shards themselves. -/
def plainCodec : Bincode MetadataShard :=
  ⟨some, fun shard => if shard.isPlain then some shard else none⟩

theorem plainCodec_lawful : plainCodec.Lawful := by
  refine ⟨fun _ => rfl, fun shard bytes h => ?_⟩
  cases h
  rfl

def emptyDisk : Disk MetadataShard := ⟨∅, ∅, ∅⟩

end Shards

section Metadata

inductive OfflineMode where
  | online
  | preferOffline
  | offline
deriving DecidableEq

/-- The configuration that metadata is fetched and cached with. -/
structure MetadataConfig where
  minPackageAgeDays : Option Nat
  minPackageCacheAgeDays : Option Nat
  defaultRegistry : String
  scopedRegistries : BTreeMap String String

def isFresh (config : MetadataConfig) (now updatedAt : Nat) : Bool :=
  match config.minPackageCacheAgeDays with
  | none => false
  | some maxAgeDays => updatedAt ≤ now ∧ (now - updatedAt) / 86400 < maxAgeDays

variable {Bytes : Type} (codec : Bincode Bytes) (config : MetadataConfig) (disk : Disk Bytes)

/-- With a minimum age for versions, metadata is of use when it has publish times. -/
def hasRequiredAgeMetadata (package : RegistryPackage) : Bool :=
  config.minPackageAgeDays.isNone || !package.time.isEmpty

def loadMetadataWithOffline (now : Nat) (name : String) (mode : OfflineMode) :
    Option RegistryPackage := do
  let record ← readCachedPackageRecord codec disk name
  let package ← record.package
  if (isFresh config now record.updatedAtUnixSecs || mode != .online) &&
      hasRequiredAgeMetadata config package then
    some package
  else none

def saveMetadata (now : Nat) (name : String) (package : RegistryPackage) : Disk Bytes :=
  writeRecordUpdate codec disk name (.setPackage package) now

def saveMetadataWithHeaders (now : Nat) (name : String) (package : RegistryPackage)
    (headers : Option CachedHeaders) : Disk Bytes :=
  writeRecordUpdate codec disk name (.setRecord package headers) now

def loadCachedHeaders (name : String) : Option CachedHeaders :=
  (readCachedPackageRecord codec disk name).bind (·.headers)

end Metadata

end Snpm.Cache
