import Mathlib
import Snpm.Store.Fetch

/-!
The invariant of the blob cache. A file at the path of a digest has that digest:
temporary files lie elsewhere, and a body is moved there only after it was
verified. So what the cache serves for an integrity string is what the verifier
would accept for it.
-/
namespace Snpm.Store

variable {C : Crypto} {blobDir : PathBuf} {blobs : Blobs}

/-- Every blob has the digest that its path names. -/
def BlobsSound (C : Crypto) (blobDir : PathBuf) (blobs : Blobs) : Prop :=
  ∀ algorithm digest bytes,
    blobs (blobCachePath blobDir (.new algorithm.name digest)) = some bytes →
      C.digest algorithm bytes = digest

section Steps

theorem BlobsSound.set_temp (h : BlobsSound C blobDir blobs) (name : TempName)
    (content : Option Bytes) :
    BlobsSound C blobDir (blobs.set (tempPath blobDir name) content) := by
  intro algorithm digest bytes hblob
  rw [Blobs.set, if_neg (tempPath_ne_blobCachePath blobDir name algorithm digest)] at hblob
  exact h algorithm digest bytes hblob

theorem BlobsSound.set_blob (h : BlobsSound C blobDir blobs) {algorithm : IntegrityAlgorithm}
    {digest content : Bytes} (hdigest : C.digest algorithm content = digest) :
    BlobsSound C blobDir
      (blobs.set (blobCachePath blobDir (.new algorithm.name digest)) (some content)) := by
  intro other expected bytes hblob
  unfold Blobs.set at hblob
  split at hblob
  · rename_i hpath
    obtain ⟨halgorithm, heq⟩ := blobCachePath_inj hpath
    cases hblob
    rw [halgorithm, heq, hdigest]
  · exact h other expected bytes hblob

/-- What was received was fed to the verifier. -/
theorem receive_ok {url : String} {filePath : PathBuf} {chunks : List Chunk}
    {start received : Received} (h : receive url filePath chunks start = .ok received) :
    ∃ pieces : List Bytes, received.content = start.content ++ pieces.flatten ∧
      received.verifier = start.verifier.map (pieces.foldl IntegrityVerifier.update ·) := by
  induction chunks generalizing start with
  | nil =>
      cases h
      exact ⟨[], by simp, by simp⟩
  | cons chunk rest ih =>
      unfold receive at h
      split at h
      · cases h
      · rename_i bytes _
        split at h
        · cases h
        · obtain ⟨pieces, hcontent, hverifier⟩ := ih h
          refine ⟨bytes :: pieces, by simp [hcontent], ?_⟩
          rw [hverifier, Option.map_map]
          rfl

/-- The verifier has accepted the body that was received. -/
theorem receiveBody_verified {url : String} {spec : Option IntegritySpec} {transfer : Transfer}
    {received : Received} {key : Option IntegrityCacheKey}
    (h : receiveBody C blobDir url spec transfer = .ok (received, key)) :
    (spec = none ∧ key = none) ∨
      ∃ s, spec = some s ∧ s.verifyChunks C url [received.content] = .ok key := by
  unfold receiveBody at h
  dsimp only at h
  split at h
  · cases h
  · split at h
    · cases h
    · split at h
      · cases h
      · rename_i body hreceive
        split at h
        · cases h
        · obtain ⟨pieces, hcontent, hverifier⟩ := receive_ok hreceive
          cases hfinish : finishVerifier C url body.verifier with
          | error error =>
              rw [hfinish] at h
              cases h
          | ok found =>
              rw [hfinish] at h
              cases h
              rw [hverifier] at hfinish
              cases spec with
              | none =>
                  cases hfinish
                  exact .inl ⟨rfl, rfl⟩
              | some spec =>
                  have hverified : spec.verifyChunks C url pieces = .ok key := hfinish
                  rw [verifyChunks_flatten] at hverified
                  exact .inr ⟨spec, rfl, by simpa [hcontent] using hverified⟩

/-- A key is reported only for a body with the digest in it. -/
theorem receiveBody_key {url : String} {spec : Option IntegritySpec} {transfer : Transfer}
    {received : Received} {key : IntegrityCacheKey}
    (h : receiveBody C blobDir url spec transfer = .ok (received, some key)) :
    ∃ s, spec = some s ∧ s.cacheable = true ∧ ∃ token ∈ s.tokens, ∃ digest,
      C.decode token.expectedDigest = .ok digest ∧ key = .new token.algorithm.name digest ∧
        C.digest token.algorithm received.content = digest := by
  cases receiveBody_verified h with
  | inl hnone => cases hnone.2
  | inr hsome =>
      obtain ⟨s, hs, hverified⟩ := hsome
      obtain ⟨token, htoken, digest, hdecode, hdigest, hkey⟩ := verifyChunks_ok hverified
      split at hkey
      · rename_i hcacheable
        cases hkey
        exact ⟨s, hs, hcacheable, token, htoken, digest, hdecode, rfl, by simpa using hdigest⟩
      · cases hkey

theorem keepBlob_sound (h : BlobsSound C blobDir blobs) {transfer : Transfer} {received : Received}
    {algorithm : IntegrityAlgorithm} {digest : Bytes}
    (hdigest : C.digest algorithm received.content = digest) :
    BlobsSound C blobDir
      (keepBlob blobDir transfer (.new algorithm.name digest) received blobs).2 := by
  unfold keepBlob
  dsimp only
  split
  · exact h.set_temp _ _
  · split
    · exact (h.set_temp _ _).set_blob hdigest
    · split
      · split
        · exact h.set_temp _ _
        · exact h.set_temp _ _
      · exact h.set_temp _ _

theorem downloadBlob_sound (h : BlobsSound C blobDir blobs) (url : String)
    (spec : Option IntegritySpec) (transfer : Transfer) :
    BlobsSound C blobDir (downloadBlob C blobDir url spec transfer blobs).2 := by
  unfold downloadBlob
  split
  · exact h
  · split
    · exact h
    · split
      · exact h.set_temp _ _
      · rename_i hbody
        obtain ⟨_, _, _, token, _, digest, _, hkey, hdigest⟩ := receiveBody_key hbody
        rw [hkey]
        exact keepBlob_sound h hdigest
      · exact h.set_temp _ _

variable {σ : Type} {state : StoreState σ}

theorem runExtraction_blobs (extraction : Extraction σ) (origin : String)
    (tarball : DownloadedTarball) :
    (runExtraction extraction origin tarball state).2.blobs = state.blobs := by
  unfold runExtraction
  split
  · rfl
  · dsimp only
    split <;> rfl

theorem releaseTemp_sound (h : BlobsSound C blobDir state.blobs) (transfer : Transfer)
    (tarball : DownloadedTarball) :
    BlobsSound C blobDir (releaseTemp blobDir transfer tarball state).blobs := by
  unfold releaseTemp
  split
  · exact h.set_temp _ _
  · exact h

theorem downloadAndExtract_sound (h : BlobsSound C blobDir state.blobs) (url : String)
    (integrity : Option String) (transfer : Transfer) (extraction : Extraction σ) :
    BlobsSound C blobDir
      (downloadAndExtract C blobDir url integrity transfer extraction state).2.blobs := by
  have hdownload := downloadBlob_sound h url (IntegritySpec.parse C integrity) transfer
  unfold downloadAndExtract
  dsimp only
  split
  · exact h
  · split
    · exact h
    · rw [runExtraction_blobs]
      exact h
  · split
    · exact hdownload
    · rename_i tarball _
      have hrun : BlobsSound C blobDir (runExtraction extraction "downloaded" tarball
          { state with
            blobs := (downloadBlob C blobDir url (IntegritySpec.parse C integrity) transfer
              state.blobs).2 }).2.blobs := by
        rw [runExtraction_blobs]
        exact hdownload
      split
      · rename_i heq
        rw [heq] at hrun
        exact hrun
      · rename_i heq
        rw [heq] at hrun
        exact releaseTemp_sound hrun transfer tarball

end Steps

section Served

variable {σ : Type} {state : StoreState σ}

/-- The verifier accepts what is at a path, if anything is there. -/
def Accepted (C : Crypto) (url : String) (spec : Option IntegritySpec) (content : Option Bytes) :
    Prop :=
  ∀ s, spec = some s → ∀ bytes, content = some bytes →
    ∃ key, s.verifyChunks C url [bytes] = .ok key

theorem Blobs.set_self (blobs : Blobs) (path : PathBuf) (content : Option Bytes) :
    blobs.set path content path = content := by
  simp [Blobs.set]

/-- Keeping a verified body returns it, or the blob that had its path. -/
theorem keepBlob_accepted {url : String} {spec : Option IntegritySpec} {transfer : Transfer}
    {algorithm : IntegrityAlgorithm} {digest : Bytes} {received : Received}
    (hnew : Accepted C url spec (some received.content))
    (hold : Accepted C url spec (blobs (blobCachePath blobDir (.new algorithm.name digest))))
    {tarball : DownloadedTarball}
    (h : (keepBlob blobDir transfer (.new algorithm.name digest) received blobs).1 = .ok tarball) :
    Accepted C url spec
      ((keepBlob blobDir transfer (.new algorithm.name digest) received blobs).2 tarball.path) := by
  unfold keepBlob at h ⊢
  dsimp only at h ⊢
  split at h
  · cases h
  · split at h
    · cases h
      dsimp only
      rw [Blobs.set_self]
      exact hnew
    · split at h
      · rename_i hexists
        rw [if_pos hexists]
        split at h
        · cases h
        · cases h
          dsimp only
          rw [Blobs.set, if_neg (tempPath_ne_blobCachePath _ _ _ _)]
          exact hold
      · cases h

/-- The file that a download returns was verified, or had been before. -/
theorem downloadBlob_accepted (h : BlobsSound C blobDir blobs) {url : String}
    {integrity : Option String} {transfer : Transfer} {tarball : DownloadedTarball}
    (hdownload : (downloadBlob C blobDir url (IntegritySpec.parse C integrity) transfer blobs).1 =
      .ok tarball) :
    Accepted C url (IntegritySpec.parse C integrity)
      ((downloadBlob C blobDir url (IntegritySpec.parse C integrity) transfer blobs).2
        tarball.path) := by
  have hcontent : ∀ received key,
      receiveBody C blobDir url (IntegritySpec.parse C integrity) transfer = .ok (received, key) →
        Accepted C url (IntegritySpec.parse C integrity) (some received.content) := by
    intro received key hbody s hs bytes hbytes
    cases hbytes
    cases receiveBody_verified hbody with
    | inl hnone =>
        rw [hnone.1] at hs
        cases hs
    | inr hsome =>
        obtain ⟨s', hs', hverified⟩ := hsome
        rw [hs] at hs'
        cases hs'
        exact ⟨key, hverified⟩
  unfold downloadBlob at hdownload ⊢
  split at hdownload
  · cases hdownload
  · split at hdownload
    · cases hdownload
    · split at hdownload
      · cases hdownload
      · rename_i received key hbody
        obtain ⟨s, hs, hcacheable, token, htoken, digest, hdecode, hkey, _⟩ := receiveBody_key hbody
        have hold : Accepted C url (IntegritySpec.parse C integrity)
            (blobs (blobCachePath blobDir (.new token.algorithm.name digest))) := by
          intro s' hs' bytes hbytes
          rw [hs] at hs'
          cases hs'
          refine verifyChunks_accepts (IntegritySpec.parse_wellFormed hs) hcacheable
            ⟨token, htoken, digest, hdecode, ?_⟩
          simpa using h token.algorithm digest bytes hbytes
        subst hkey
        exact keepBlob_accepted (hcontent received _ hbody) hold hdownload
      · rename_i received hbody
        cases hdownload
        dsimp only
        rw [Blobs.set_self]
        exact hcontent received _ hbody

end Served

section Hit

/-- A file that the cache serves for an integrity value has the digest of one of
its tokens, and all its tokens decode. -/
theorem cachedBlob_admits (h : BlobsSound C blobDir blobs) {url : String} {spec : IntegritySpec}
    {path : PathBuf} (hhit : cachedBlob C blobDir url (some spec) blobs = .ok (some path))
    {bytes : Bytes} (hbytes : blobs path = some bytes) :
    spec.cacheable = true ∧ spec.Admits C bytes := by
  unfold cachedBlob cachedBlobPaths at hhit
  dsimp only at hhit
  cases hkeys : spec.cacheKeys C url with
  | error error =>
      rw [hkeys] at hhit
      cases hhit
  | ok keys =>
      rw [hkeys] at hhit
      have hfind : (keys.map (blobCachePath blobDir)).find? (fun path => (blobs path).isSome) =
          some path := by simpa [Except.map] using hhit
      obtain ⟨key, hkey, hpath⟩ := List.mem_map.mp (List.mem_of_find?_eq_some hfind)
      obtain ⟨hcacheable, token, htoken, digest, hdecode, hkeyeq⟩ := cacheKeys_mem hkeys hkey
      subst hkeyeq
      refine ⟨hcacheable, token, htoken, digest, hdecode, ?_⟩
      exact h token.algorithm digest bytes (hpath ▸ hbytes)

end Hit

section Extraction

variable {σ : Type}

theorem runExtraction_cases (extraction : Extraction σ) (origin : String)
    (tarball : DownloadedTarball) (state : StoreState σ) :
    ((runExtraction extraction origin tarball state).2.packages = state.packages ∧
      ∃ error, (runExtraction extraction origin tarball state).1 = .error error) ∨
    ((runExtraction extraction origin tarball state).2.packages =
        (extraction.stage (state.blobs tarball.path) state.packages).2 ∧
      ∀ other, (runExtraction extraction origin tarball state).1 = .ok other →
        (extraction.stage (state.blobs tarball.path) state.packages).1 = .ok ()) := by
  unfold runExtraction
  split
  · exact .inl ⟨rfl, _, rfl⟩
  · right
    dsimp only
    split
    · exact ⟨rfl, fun _ h => by cases h⟩
    · refine ⟨rfl, fun other h => ?_⟩
      cases hstage : (extraction.stage (state.blobs tarball.path) state.packages).1 with
      | error error =>
          rw [hstage] at h
          cases h
      | ok _ => rfl

theorem releaseTemp_packages (transfer : Transfer) (tarball : DownloadedTarball)
    (state : StoreState σ) :
    (releaseTemp blobDir transfer tarball state).packages = state.packages := by
  unfold releaseTemp
  split <;> rfl

/-- What fetching did to the packages: nothing, with an error, or what the
extraction does with content that the verifier accepts. -/
def Staged (C : Crypto) (url : String) (spec : Option IntegritySpec) (extraction : Extraction σ)
    (packages : σ) (out : Result DownloadedTarball × StoreState σ) : Prop :=
  (out.2.packages = packages ∧ ∃ error, out.1 = .error error) ∨
    ∃ content, Accepted C url spec content ∧
      out.2.packages = (extraction.stage content packages).2 ∧
      ∀ tarball, out.1 = .ok tarball → (extraction.stage content packages).1 = .ok ()

theorem runExtraction_staged {url : String} {spec : Option IntegritySpec} {state : StoreState σ}
    {tarball : DownloadedTarball} (h : Accepted C url spec (state.blobs tarball.path))
    (extraction : Extraction σ) (origin : String) :
    Staged C url spec extraction state.packages
      (runExtraction extraction origin tarball state) := by
  cases runExtraction_cases extraction origin tarball state with
  | inl hfailed => exact .inl hfailed
  | inr hran => exact .inr ⟨_, h, hran⟩

theorem downloadAndExtract_staged {state : StoreState σ} (h : BlobsSound C blobDir state.blobs)
    (url : String) (integrity : Option String) (transfer : Transfer)
    (extraction : Extraction σ) :
    Staged C url (IntegritySpec.parse C integrity) extraction state.packages
      (downloadAndExtract C blobDir url integrity transfer extraction state) := by
  unfold downloadAndExtract
  dsimp only
  split
  · exact .inl ⟨rfl, _, rfl⟩
  · rename_i cachedPath hhit
    split
    · exact .inl ⟨rfl, _, rfl⟩
    · refine runExtraction_staged ?_ extraction "cached"
      intro s hs bytes hbytes
      rw [hs] at hhit
      obtain ⟨hcacheable, hadmits⟩ := cachedBlob_admits h hhit hbytes
      exact verifyChunks_accepts (IntegritySpec.parse_wellFormed hs) hcacheable (by simpa using hadmits)
  · split
    · exact .inl ⟨rfl, _, rfl⟩
    · rename_i tarball hdownload
      have hrun : Staged C url (IntegritySpec.parse C integrity) extraction state.packages
          (runExtraction extraction "downloaded" tarball
            { state with
              blobs := (downloadBlob C blobDir url (IntegritySpec.parse C integrity) transfer
                state.blobs).2 }) :=
        runExtraction_staged (downloadBlob_accepted h hdownload) extraction "downloaded"
      split
      · rename_i heq
        rw [heq] at hrun
        exact hrun
      · rename_i error after heq
        rw [heq] at hrun
        unfold Staged at hrun ⊢
        dsimp only at hrun ⊢
        rw [releaseTemp_packages]
        exact hrun

end Extraction

/-- A call to the fetching functions, with what the world does during it. -/
inductive Fetch (σ : Type) where
  | blob (url : String) (integrity : Option String) (transfer : Transfer)
  | extract (url : String) (integrity : Option String) (transfer : Transfer)
      (extraction : Extraction σ)

section Runs

variable {σ : Type}

def Fetch.run (C : Crypto) (blobDir : PathBuf) (state : StoreState σ) : Fetch σ → StoreState σ
  | .blob url integrity transfer =>
      { state with
        blobs := (downloadBlob C blobDir url (IntegritySpec.parse C integrity) transfer
          state.blobs).2 }
  | .extract url integrity transfer extraction =>
      (downloadAndExtract C blobDir url integrity transfer extraction state).2

theorem Fetch.run_sound {state : StoreState σ} (h : BlobsSound C blobDir state.blobs)
    (call : Fetch σ) : BlobsSound C blobDir (call.run C blobDir state).blobs := by
  cases call with
  | blob url integrity transfer => exact downloadBlob_sound h url _ transfer
  | extract url integrity transfer extraction =>
      exact downloadAndExtract_sound h url integrity transfer extraction

theorem run_sound {state : StoreState σ} (h : BlobsSound C blobDir state.blobs)
    (calls : List (Fetch σ)) :
    BlobsSound C blobDir (calls.foldl (Fetch.run C blobDir) state).blobs := by
  induction calls generalizing state with
  | nil => exact h
  | cons call calls ih => exact ih (call.run_sound h)

/-- After any calls on an empty cache every blob has the digest of its path, and a
blob that is served for an integrity string is accepted by the verifier for that
string, in whatever chunks it is fed. -/
theorem blob_cache_sound (C : Crypto) (blobDir : PathBuf) (calls : List (Fetch σ)) (packages : σ) :
    let state := calls.foldl (Fetch.run C blobDir) ⟨fun _ => none, packages⟩
    (∀ algorithm digest bytes,
      state.blobs (blobCachePath blobDir (.new algorithm.name digest)) = some bytes →
        C.digest algorithm bytes = digest) ∧
    ∀ url integrity spec path bytes, IntegritySpec.parse C integrity = some spec →
      cachedBlob C blobDir url (some spec) state.blobs = .ok (some path) →
      state.blobs path = some bytes → ∀ chunks : List Bytes, chunks.flatten = bytes →
        ∃ key, spec.verifyChunks C url chunks = .ok key := by
  intro state
  have hsound : BlobsSound C blobDir state.blobs := run_sound (fun _ _ _ h => by cases h) calls
  refine ⟨hsound, ?_⟩
  intro url integrity spec path bytes hparse hhit hbytes chunks hchunks
  obtain ⟨hcacheable, hadmits⟩ := cachedBlob_admits hsound hhit hbytes
  exact verifyChunks_accepts (IntegritySpec.parse_wellFormed hparse) hcacheable (hchunks ▸ hadmits)

end Runs

end Snpm.Store
