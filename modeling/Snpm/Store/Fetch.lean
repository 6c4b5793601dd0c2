import Mathlib
import Snpm.Store.Integrity
import Snpm.Store.Naming

/-!
Fetching a tarball through the cache of verified blobs. A body is streamed to a
temporary file while it is verified, and only a body whose digest was found
equal to a token's is renamed to the path made from that digest. What the
network and the file system do during a call is an input of the call, failures
included.
-/
namespace Snpm.Store

/-- The files of the blob cache. -/
abbrev Blobs := PathBuf → Option Bytes

def Blobs.set (blobs : Blobs) (path : PathBuf) (content : Option Bytes) : Blobs :=
  fun p => if p = path then content else blobs p

inductive TarballSource where
  | downloaded
  | blobCache
deriving DecidableEq

/-- A tarball on disk; a retained temporary file goes when this is dropped. -/
structure DownloadedTarball where
  path : PathBuf
  sizeBytes : Nat
  source : TarballSource
  retained : Bool
deriving DecidableEq

/-- A piece of a response body, and why writing it fails, if it does. -/
structure Chunk where
  body : Except String Bytes
  writeError : Option String

/-- The random part of a temporary name. -/
structure TempName where
  random : String
  plain : ∀ c ∈ random.toList, c ≠ '/'

/-- What the network and the system do during one download. An error text says
that the operation fails. -/
structure Transfer where
  permitError : Option String
  tempName : TempName
  tempError : Option String
  openError : Option String
  response : Except String (List Chunk)
  flushError : Option String
  parentError : Option String
  renameError : Option String
  metadata : Except String Nat
  /-- What is at the temporary path after it was dropped, as a rule nothing. -/
  leftover : Option Bytes

section Paths

def blobCachePath (blobDir : PathBuf) (key : IntegrityCacheKey) : PathBuf :=
  (blobDir.join key.algorithm).join (key.digestHex ++ ".tgz")

def tempParent (blobDir : PathBuf) : PathBuf := blobDir.join "tmp"

def tempPath (blobDir : PathBuf) (name : TempName) : PathBuf :=
  (tempParent blobDir).join (".snpm-tarball-" ++ name.random ++ ".tmp")

theorem algorithm_isSegment (algorithm : IntegrityAlgorithm) :
    PathBuf.IsSegment algorithm.name := by
  cases algorithm <;> exact ⟨by decide, by decide, by decide, by decide⟩

/-- A text with a long ending and no slash is one component. -/
theorem isSegment_append {text suffix : String} (htext : '/' ∉ text.toList)
    (hsuffix : '/' ∉ suffix.toList) (hlength : 2 < suffix.toList.length) :
    PathBuf.IsSegment (text ++ suffix) := by
  have hlong : 2 < (text ++ suffix).toList.length := by
    rw [String.toList_append, List.length_append]
    omega
  refine ⟨fun h => ?_, fun h => ?_, fun h => ?_, ?_⟩
  · simp [h] at hlong
  · simp [h] at hlong
  · simp [h] at hlong
  · simp [htext, hsuffix]

theorem blobCachePath_components (blobDir : PathBuf) (algorithm : IntegrityAlgorithm)
    (digest : Bytes) :
    (blobCachePath blobDir (.new algorithm.name digest)).components = blobDir.components ++
      [.normal algorithm.name.toList, .normal ((hexEncode digest) ++ ".tgz").toList] := by
  have hhex : PathBuf.IsSegment (hexEncode digest ++ ".tgz") :=
    isSegment_append (slash_not_mem_hexEncode digest) (by decide) (by decide)
  rw [blobCachePath, IntegrityCacheKey.new, PathBuf.components_join _ hhex,
    PathBuf.components_join _ (algorithm_isSegment algorithm)]
  simp

theorem tempPath_components (blobDir : PathBuf) (name : TempName) :
    (tempPath blobDir name).components = blobDir.components ++
      [.normal "tmp".toList, .normal (".snpm-tarball-" ++ name.random ++ ".tmp").toList] := by
  have htmp : PathBuf.IsSegment "tmp" := ⟨by decide, by decide, by decide, by decide⟩
  have hfile : PathBuf.IsSegment (".snpm-tarball-" ++ name.random ++ ".tmp") := by
    refine isSegment_append ?_ (by decide) (by decide)
    rw [String.toList_append, List.mem_append, not_or]
    exact ⟨by decide, fun h => name.plain '/' h rfl⟩
  rw [tempPath, tempParent, PathBuf.components_join _ hfile, PathBuf.components_join _ htmp]
  simp

/-- Blobs of different digests or algorithms lie at different paths. -/
theorem blobCachePath_inj {blobDir : PathBuf} {a b : IntegrityAlgorithm} {d e : Bytes}
    (h : blobCachePath blobDir (.new a.name d) = blobCachePath blobDir (.new b.name e)) :
    a = b ∧ d = e := by
  have hcomponents := congrArg PathBuf.components h
  rw [blobCachePath_components, blobCachePath_components, List.append_cancel_left_eq] at hcomponents
  simp only [List.cons.injEq, PathText.Component.normal.injEq, String.toList_inj, and_true]
    at hcomponents
  refine ⟨IntegrityAlgorithm.name_inj hcomponents.1, hexEncode_inj ?_⟩
  apply String.toList_inj.mp
  have htext := congrArg String.toList hcomponents.2
  simpa using htext

theorem tempPath_ne_blobCachePath (blobDir : PathBuf) (name : TempName)
    (algorithm : IntegrityAlgorithm) (digest : Bytes) :
    blobCachePath blobDir (.new algorithm.name digest) ≠ tempPath blobDir name := by
  intro h
  have hcomponents := congrArg PathBuf.components h
  rw [blobCachePath_components, tempPath_components, List.append_cancel_left_eq] at hcomponents
  simp only [List.cons.injEq, PathText.Component.normal.injEq, String.toList_inj] at hcomponents
  cases algorithm <;> exact absurd hcomponents.1 (by decide)

end Paths

section Download

variable (C : Crypto) (blobDir : PathBuf)

/-- What streaming a body leaves: the verifier, the file and its size. -/
structure Received where
  verifier : Option IntegrityVerifier
  content : Bytes
  sizeBytes : Nat

def receive (url : String) (filePath : PathBuf) : List Chunk → Received → Result Received
  | [], received => .ok received
  | chunk :: rest, received =>
      match chunk.body with
      | .error error => .error (.http url error)
      | .ok bytes =>
          match chunk.writeError with
          | some error => .error (.writeFile filePath error)
          | none => receive url filePath rest
              ⟨received.verifier.map (·.update bytes), received.content ++ bytes,
                received.sizeBytes + bytes.length⟩

def finishVerifier (url : String) : Option IntegrityVerifier → Result (Option IntegrityCacheKey)
  | none => .ok none
  | some verifier => verifier.finish C url

/-- Dropping the temporary file. -/
def dropTemp (transfer : Transfer) (blobs : Blobs) : Blobs :=
  blobs.set (tempPath blobDir transfer.tempName) transfer.leftover

/-- Move a verified body to the path of its key. -/
def keepBlob (transfer : Transfer) (key : IntegrityCacheKey) (received : Received) (blobs : Blobs) :
    Result DownloadedTarball × Blobs :=
  let filePath := tempPath blobDir transfer.tempName
  let cachedPath := blobCachePath blobDir key
  match transfer.parentError with
  | some error =>
      (.error (.writeFile (blobDir.join key.algorithm) error), dropTemp blobDir transfer blobs)
  | none =>
      match transfer.renameError with
      | none => (.ok ⟨cachedPath, received.sizeBytes, .downloaded, false⟩,
          (blobs.set filePath none).set cachedPath (some received.content))
      | some error =>
          if (blobs cachedPath).isSome then
            match transfer.metadata with
            | .error error => (.error (.readFile cachedPath error), dropTemp blobDir transfer blobs)
            | .ok size => (.ok ⟨cachedPath, size, .blobCache, true⟩,
                blobs.set filePath (some received.content))
          else (.error (.writeFile cachedPath error), dropTemp blobDir transfer blobs)

/-- The body of a response, verified as it is streamed to the temporary file. -/
def receiveBody (url : String) (spec : Option IntegritySpec) (transfer : Transfer) :
    Result (Received × Option IntegrityCacheKey) :=
  let filePath := tempPath blobDir transfer.tempName
  match transfer.openError with
  | some error => .error (.writeFile filePath error)
  | none =>
      match transfer.response with
      | .error error => .error (.http url error)
      | .ok chunks =>
          match receive url filePath chunks ⟨spec.map (·.verifier), [], 0⟩ with
          | .error error => .error error
          | .ok received =>
              match transfer.flushError with
              | some error => .error (.writeFile filePath error)
              | none => (finishVerifier C url received.verifier).map fun key => (received, key)

def downloadBlob (url : String) (spec : Option IntegritySpec) (transfer : Transfer)
    (blobs : Blobs) : Result DownloadedTarball × Blobs :=
  match transfer.permitError with
  | some error =>
      (.error (.internal ("download semaphore closed while fetching " ++ url ++ ": " ++ error)), blobs)
  | none =>
      match transfer.tempError with
      | some error => (.error (.writeFile (tempParent blobDir) error), blobs)
      | none =>
          match receiveBody C blobDir url spec transfer with
          | .error error => (.error error, dropTemp blobDir transfer blobs)
          | .ok (received, some key) => keepBlob blobDir transfer key received blobs
          | .ok (received, none) =>
              let filePath := tempPath blobDir transfer.tempName
              (.ok ⟨filePath, received.sizeBytes, .downloaded, true⟩,
                blobs.set filePath (some received.content))

def cachedBlobPaths (url : String) (spec : Option IntegritySpec) : Result (List PathBuf) :=
  match spec with
  | none => .ok []
  | some spec => (spec.cacheKeys C url).map fun keys => keys.map (blobCachePath blobDir)

/-- The first path of an integrity value with a file. -/
def cachedBlob (url : String) (spec : Option IntegritySpec) (blobs : Blobs) :
    Result (Option PathBuf) :=
  (cachedBlobPaths C blobDir url spec).map fun paths => paths.find? fun path => (blobs path).isSome

variable {σ : Type}

/-- What unpacking a tarball file does to the package directories; without the
file there is nothing to read. -/
abbrev Stage (σ : Type) := Option Bytes → σ → Result Unit × σ

/-- The outcome of the blocking task that unpacks. -/
structure Extraction (σ : Type) where
  permitError : Option String
  joinError : Option String
  stage : Stage σ

structure StoreState (σ : Type) where
  blobs : Blobs
  packages : σ

def runExtraction (extraction : Extraction σ) (origin : String) (tarball : DownloadedTarball)
    (state : StoreState σ) : Result DownloadedTarball × StoreState σ :=
  match extraction.permitError with
  | some error => (.error (.internal
      ("extraction semaphore closed while unpacking " ++ origin ++ " tarball: " ++ error)), state)
  | none =>
      let (staged, packages) := extraction.stage (state.blobs tarball.path) state.packages
      let state := { state with packages }
      match extraction.joinError with
      | some error => (.error (.storeTask error), state)
      | none => (staged.map fun _ => tarball, state)

/-- Drop the temporary file that a tarball retains. -/
def releaseTemp (transfer : Transfer) (tarball : DownloadedTarball) (state : StoreState σ) :
    StoreState σ :=
  if tarball.retained then { state with blobs := dropTemp blobDir transfer state.blobs } else state

def downloadAndExtract (url : String) (integrity : Option String) (transfer : Transfer)
    (extraction : Extraction σ) (state : StoreState σ) : Result DownloadedTarball × StoreState σ :=
  let spec := IntegritySpec.parse C integrity
  match cachedBlob C blobDir url spec state.blobs with
  | .error error => (.error error, state)
  | .ok (some cachedPath) =>
      match transfer.metadata with
      | .error error => (.error (.readFile cachedPath error), state)
      | .ok size => runExtraction extraction "cached" ⟨cachedPath, size, .blobCache, false⟩ state
  | .ok none =>
      let (downloaded, blobs) := downloadBlob C blobDir url spec transfer state.blobs
      let state := { state with blobs }
      match downloaded with
      | .error error => (.error error, state)
      | .ok tarball =>
          match runExtraction extraction "downloaded" tarball state with
          | (.ok tarball, state) => (.ok tarball, state)
          | (.error error, state) => (.error error, releaseTemp blobDir transfer tarball state)

end Download

end Snpm.Store
