import Mathlib
import Snpm.Store.Ensure

/-!
What a returned package directory guarantees about the integrity value of the
call. Unpacking always follows verification, so the content of a directory
satisfies the value of the call that put it there. A completed directory is
returned to any later call, also to one with another value.
-/
namespace Snpm.Store

variable {C : Crypto} {config : SnpmConfig} {blobDir : PathBuf}

/-- The bytes pass verification against an integrity value. -/
def Satisfies (C : Crypto) (integrity : String) (bytes : Bytes) : Prop :=
  ∀ url, verifyIntegrityFile C url (some integrity) (.ok bytes) = .ok ()

/-- The content of a directory satisfies the value of the call that put it there. -/
def SlotSound (C : Crypto) (slot : Slot) : Prop :=
  ∀ integrity, slot.requested = some integrity →
    ∃ bytes, slot.tarball = some bytes ∧ Satisfies C integrity bytes

def SlotsSound (C : Crypto) (dirs : PackageDirs) : Prop :=
  ∀ dir slot, dirs dir = some slot → SlotSound C slot

section Verification

theorem satisfies_of_accepted {url integrity : String} {bytes : Bytes}
    (h : Accepted C url (IntegritySpec.parse C (some integrity)) (some bytes)) :
    Satisfies C integrity bytes := by
  intro other
  unfold verifyIntegrityFile
  cases hparse : IntegritySpec.parse C (some integrity) with
  | none => rfl
  | some spec =>
      obtain ⟨key, hkey⟩ := h spec hparse bytes rfl
      have hother := verifyChunks_url hkey other
      simp only [hother, Except.map]

theorem satisfies_of_verified {url integrity : String} {bytes : Bytes}
    (h : verifyIntegrityFile C url (some integrity) (.ok bytes) = .ok ()) :
    Satisfies C integrity bytes := by
  refine @satisfies_of_accepted C url integrity bytes ?_
  intro spec hparse bytes' hbytes
  cases hbytes
  unfold verifyIntegrityFile at h
  rw [hparse] at h
  dsimp only at h
  cases hkey : spec.verifyChunks C url [bytes] with
  | error error =>
      rw [hkey] at h
      cases h
  | ok key => exact ⟨key, rfl⟩

end Verification

section Directories

variable {dirs : PackageDirs} {dir : PathBuf} {integrity : Option String}

theorem SlotsSound.set (h : SlotsSound C dirs) {slot : Option Slot}
    (hslot : ∀ s, slot = some s → SlotSound C s) : SlotsSound C (dirs.set dir slot) := by
  intro other s hs
  unfold PackageDirs.set at hs
  split at hs
  · exact hslot s hs
  · exact h other s hs

/-- The directory holds what a call with an integrity value put there. -/
def Filled (integrity : Option String) (dir : PathBuf) (dirs : PackageDirs) : Prop :=
  ∃ slot, dirs dir = some slot ∧ slot.requested = integrity

theorem filled_set {slot : Slot} (h : slot.requested = integrity) :
    Filled integrity dir (dirs.set dir (some slot)) :=
  ⟨slot, by simp [PackageDirs.set], h⟩

/-- What making a directory does to the directories: sound content stays sound,
and after a success an unmarked directory holds the content of the call. -/
structure Makes (C : Crypto) (integrity : Option String) (dir : PathBuf) (before : PackageDirs)
    (result : Result Unit) (after : PackageDirs) : Prop where
  sound : SlotsSound C before → SlotsSound C after
  filled : result = .ok () → (before dir).any (·.marker) = false → Filled integrity dir after

theorem Makes.failed {error : SnpmError} (hsound : SlotsSound C dirs → SlotsSound C dirs) :
    Makes C integrity dir dirs (.error error) dirs :=
  ⟨hsound, nofun⟩

theorem atomicFinalize_makes (io : Staging) (dir : PathBuf) (dirs : PackageDirs) {staged : Slot}
    (hstaged : SlotSound C staged)
    (hrequested : staged.requested = integrity) :
    Makes C integrity dir dirs (atomicFinalize io dir staged dirs).1
      (atomicFinalize io dir staged dirs).2 := by
  have hset : SlotsSound C dirs → SlotsSound C (dirs.set dir (some staged)) :=
    fun h => h.set fun s hs => by
      cases hs
      exact hstaged
  unfold atomicFinalize
  split
  · exact ⟨hset, fun _ _ => filled_set hrequested⟩
  · split
    · rename_i hmarker
      refine ⟨id, fun _ hfree => ?_⟩
      rw [hmarker] at hfree
      cases hfree
    · split
      · exact ⟨hset, fun _ _ => filled_set hrequested⟩
      · refine ⟨fun h => ?_, nofun⟩
        dsimp only
        split
        · exact h.set nofun
        · exact h

theorem unpackTarballFile_slot (unpacking : Unpacking) (path : PathBuf) {content : Option Bytes}
    (hcontent : ∀ value, integrity = some value → ∀ bytes, content = some bytes →
      Satisfies C value bytes) :
    SlotSound C (unpackTarballFile integrity unpacking path content).2 ∧
      ((unpackTarballFile integrity unpacking path content).1 = .ok () →
        (unpackTarballFile integrity unpacking path content).2.requested = integrity) := by
  unfold unpackTarballFile
  split
  · exact ⟨nofun, nofun⟩
  · rename_i bytes
    have hslot : SlotSound C (unpackedSlot integrity unpacking bytes) :=
      fun value hvalue => ⟨bytes, rfl, hcontent value hvalue bytes rfl⟩
    split
    · exact ⟨hslot, nofun⟩
    · exact ⟨hslot, fun _ => rfl⟩

theorem stagedFinalize_makes (io : Staging) (parent path dir : PathBuf) {content : Option Bytes}
    (dirs : PackageDirs)
    (hcontent : ∀ value, integrity = some value → ∀ bytes, content = some bytes →
      Satisfies C value bytes) :
    Makes C integrity dir dirs (stagedFinalize io integrity parent path dir content dirs).1
      (stagedFinalize io integrity parent path dir content dirs).2 := by
  have hslot := unpackTarballFile_slot io.unpacking path hcontent
  unfold stagedFinalize
  split
  · exact .failed id
  · split
    · exact .failed id
    · rename_i staged hunpack
      rw [hunpack] at hslot
      exact atomicFinalize_makes io dir dirs hslot.1 (hslot.2 rfl)

theorem stageUnpackFinalize_makes (io : Staging) (parent path dir : PathBuf)
    {content : Option Bytes} (dirs : PackageDirs)
    (hcontent : ∀ value, integrity = some value → ∀ bytes, content = some bytes →
      Satisfies C value bytes) :
    Makes C integrity dir dirs (stageUnpackFinalize io integrity parent path dir content dirs).1
      (stageUnpackFinalize io integrity parent path dir content dirs).2 := by
  have hslot := unpackTarballFile_slot io.unpacking path hcontent
  unfold stageUnpackFinalize
  split
  · exact .failed id
  · split
    · exact stagedFinalize_makes io parent path dir dirs hcontent
    · split
      · exact .failed id
      · split
        · rename_i partly hunpack
          rw [hunpack] at hslot
          refine ⟨fun h => h.set fun s hs => ?_, nofun⟩
          split at hs
          · cases hs
            exact hslot.1
          · cases hs
        · rename_i unpacked hunpack
          rw [hunpack] at hslot
          refine ⟨fun h => h.set fun s hs => ?_, fun _ _ => filled_set (hslot.2 rfl)⟩
          cases hs
          exact hslot.1

end Directories

section Calls

variable {call : EnsureCall} {store : Storage}

/-- The package comes from a local directory. -/
def LocalDirectory (call : EnsureCall) : Prop :=
  Text.startsWith call.package.tarball "file://" = true ∧
    ∃ copyError, call.localSource = .directory copyError

theorem materializeLocalPackage_makes (C : Crypto) (config : SnpmConfig) (store : Storage)
    (hsource : ∀ copyError, call.localSource = .directory copyError →
      call.package.integrity = none) :
    Makes C call.package.integrity (packageDir config call.package) store.packages
      (materializeLocalPackage C config call store).1
      (materializeLocalPackage C config call store).2.packages ∧
    (materializeLocalPackage C config call store).2.blobs = store.blobs := by
  have hstaged : ∀ path staged, stageLocal C call path = .ok staged →
      SlotSound C staged ∧ staged.requested = call.package.integrity := by
    intro path staged h
    unfold stageLocal at h
    split at h
    · cases h
    · rename_i hdirectory
      cases h
      have hnone := hsource none hdirectory
      exact ⟨fun value hvalue => by simp [hnone] at hvalue, rfl⟩
    · rename_i content hfile
      split at h
      · cases h
      · rename_i hverified
        have hcontent : ∀ value, call.package.integrity = some value → ∀ bytes,
            content.toOption = some bytes → Satisfies C value bytes := by
          intro value hvalue bytes hbytes
          rw [toOption_eq_some hbytes, hvalue] at hverified
          exact satisfies_of_verified hverified
        have hslot := unpackTarballFile_slot call.staging.unpacking path hcontent
        split at h
        · cases h
        · rename_i unpacked hunpack
          cases h
          rw [hunpack] at hslot
          exact ⟨hslot.1, hslot.2 rfl⟩
  unfold materializeLocalPackage
  split
  · exact ⟨.failed id, rfl⟩
  · rename_i path _
    split
    · exact ⟨.failed id, rfl⟩
    · split
      · exact ⟨.failed id, rfl⟩
      · exact ⟨.failed id, rfl⟩
      · split
        · exact ⟨.failed id, rfl⟩
        · rename_i staged hstage
          obtain ⟨hslot, hrequested⟩ := hstaged path staged hstage
          have hmakes := atomicFinalize_makes call.staging (packageDir config call.package)
            store.packages hslot hrequested
          dsimp only
          refine ⟨⟨hmakes.sound, fun hresult => ?_⟩, rfl⟩
          split at hresult
          · cases hresult
          · exact hmakes.filled hresult

theorem materializeRemotePackage_makes (h : BlobsSound C blobDir store.blobs) :
    Makes C call.package.integrity (packageDir config call.package) store.packages
      (materializeRemotePackage C config blobDir call store).1
      (materializeRemotePackage C config blobDir call store).2.packages ∧
    BlobsSound C blobDir (materializeRemotePackage C config blobDir call store).2.blobs := by
  have hstaged := downloadAndExtract_staged h call.package.tarball call.package.integrity
    call.transfer (remoteExtraction config call)
  have hblobs := downloadAndExtract_sound h call.package.tarball call.package.integrity
    call.transfer (remoteExtraction config call)
  have hmakes : Makes C call.package.integrity (packageDir config call.package) store.packages
      ((downloadAndExtract C blobDir call.package.tarball call.package.integrity call.transfer
        (remoteExtraction config call) store).1.map fun _ => ())
      (downloadAndExtract C blobDir call.package.tarball call.package.integrity call.transfer
        (remoteExtraction config call) store).2.packages := by
    cases hstaged with
    | inl hfailed =>
        obtain ⟨hpackages, error, herror⟩ := hfailed
        rw [hpackages, herror]
        exact .failed id
    | inr hran =>
        obtain ⟨content, haccepted, hpackages, hok⟩ := hran
        have hcontent : ∀ value, call.package.integrity = some value → ∀ bytes,
            content = some bytes → Satisfies C value bytes := by
          intro value hvalue bytes hbytes
          rw [hvalue, hbytes] at haccepted
          exact satisfies_of_accepted haccepted
        have hstage := stageUnpackFinalize_makes call.staging (packageParent config call.package)
          call.package.tarball (packageDir config call.package) store.packages hcontent
        rw [hpackages]
        refine ⟨hstage.sound, fun hresult => hstage.filled ?_⟩
        cases hout : (downloadAndExtract C blobDir call.package.tarball call.package.integrity
            call.transfer (remoteExtraction config call) store).1 with
        | error error =>
            rw [hout] at hresult
            cases hresult
        | ok tarball => exact hok tarball hout
  unfold materializeRemotePackage
  split
  · rename_i error after heq
    rw [heq] at hmakes hblobs
    exact ⟨hmakes, hblobs⟩
  · rename_i tarball after heq
    rw [heq] at hmakes hblobs
    dsimp only
    rw [releaseTemp_packages]
    exact ⟨hmakes, releaseTemp_sound hblobs _ _⟩

/-- The invariant of the store. -/
structure StorageSound (C : Crypto) (blobDir : PathBuf) (store : Storage) : Prop where
  blobs : BlobsSound C blobDir store.blobs
  slots : SlotsSound C store.packages

/-- The completed directory that a call with an integrity value finds was filled
by a call with the same value, and such a call names no local directory. -/
def Matching (config : SnpmConfig) (call : EnsureCall) (store : Storage) : Prop :=
  ∀ integrity, call.package.integrity = some integrity →
    ¬ LocalDirectory call ∧
      ∀ slot, store.packages (packageDir config call.package) = some slot → slot.marker = true →
        slot.requested = some integrity

theorem materialize_makes (h : BlobsSound C blobDir store.blobs) (hmatching : Matching config call store) :
    Makes C call.package.integrity (packageDir config call.package) store.packages
      (materialize C config blobDir call store).1
      (materialize C config blobDir call store).2.packages ∧
    BlobsSound C blobDir (materialize C config blobDir call store).2.blobs := by
  unfold materialize
  split
  · rename_i hfile
    have hsource : ∀ copyError, call.localSource = .directory copyError →
        call.package.integrity = none := by
      intro copyError hdirectory
      cases hintegrity : call.package.integrity with
      | none => rfl
      | some integrity =>
          exact absurd ⟨hfile, copyError, hdirectory⟩ (hmatching integrity hintegrity).1
    have hlocal := materializeLocalPackage_makes C config store hsource
    exact ⟨hlocal.1, hlocal.2 ▸ h⟩
  · exact materializeRemotePackage_makes h

theorem writeMarker_sound (config : SnpmConfig) (call : EnsureCall) (h : StorageSound C blobDir store) :
    StorageSound C blobDir (writeMarker config call store).2 := by
  unfold writeMarker
  dsimp only
  split
  · exact h
  · exact h
  · rename_i slot _ hslot
    refine ⟨h.blobs, h.slots.set fun s hs => ?_⟩
    cases hs
    exact h.slots _ slot hslot

theorem writeMarker_filled {integrity : Option String}
    (h : Filled integrity (packageDir config call.package) store.packages)
    (hok : (writeMarker config call store).1 = .ok ()) :
    Filled integrity (packageDir config call.package) (writeMarker config call store).2.packages := by
  obtain ⟨slot, hslot, hrequested⟩ := h
  unfold writeMarker at hok ⊢
  dsimp only at hok ⊢
  rw [hslot] at hok ⊢
  split at hok
  · cases hok
  · rename_i heq
    cases heq
  · rename_i found hmarker hfound
    cases hfound
    exact filled_set hrequested

/-- What a directory guarantees for an integrity value. -/
def Guarantees (C : Crypto) (integrity : String) (dir : PathBuf) (store : Storage) : Prop :=
  ∃ slot bytes, store.packages dir = some slot ∧ slot.tarball = some bytes ∧
    Satisfies C integrity bytes

theorem guarantees_of_filled (h : StorageSound C blobDir store) {integrity : String} {dir : PathBuf}
    (hfilled : Filled (some integrity) dir store.packages) : Guarantees C integrity dir store := by
  obtain ⟨slot, hslot, hrequested⟩ := hfilled
  obtain ⟨bytes, htarball, hsatisfies⟩ := h.slots dir slot hslot integrity hrequested
  exact ⟨slot, bytes, hslot, htarball, hsatisfies⟩

/-- One call keeps the store sound, and returns a directory with content that
satisfies its integrity value. -/
theorem ensurePackage_sound (h : StorageSound C blobDir store)
    (hmatching : Matching config call store) :
    StorageSound C blobDir (ensurePackage C config blobDir call store).2 ∧
      ∀ integrity root, call.package.integrity = some integrity →
        (ensurePackage C config blobDir call store).1 = .ok root →
        Guarantees C integrity (packageDir config call.package)
          (ensurePackage C config blobDir call store).2 := by
  unfold ensurePackage
  split
  · rename_i hmarker
    refine ⟨h, fun integrity root hintegrity _ => ?_⟩
    obtain ⟨slot, hslot, hmarked⟩ := (Option.any_eq_true _ _).mp hmarker
    exact guarantees_of_filled h ⟨slot, hslot, (hmatching integrity hintegrity).2 slot hslot hmarked⟩
  · rename_i hmarker
    split
    · exact ⟨h, fun _ _ _ => nofun⟩
    · obtain ⟨hmakes, hblobs⟩ := materialize_makes h.blobs hmatching
      have hsound : StorageSound C blobDir (materialize C config blobDir call store).2 :=
        ⟨hblobs, hmakes.sound h.slots⟩
      split
      · rename_i heq
        rw [heq] at hsound
        exact ⟨hsound, fun _ _ _ => nofun⟩
      · rename_i made heq
        rw [heq] at hsound hmakes
        have hmarked := writeMarker_sound config call hsound
        split
        · rename_i hwrite
          rw [hwrite] at hmarked
          exact ⟨hmarked, fun _ _ _ => nofun⟩
        · rename_i done hwrite
          have hfilled := hmakes.filled rfl (by simpa using hmarker)
          have hafter := writeMarker_filled hfilled (by rw [hwrite])
          rw [hwrite] at hmarked hafter
          refine ⟨hmarked, fun integrity root hintegrity _ => ?_⟩
          rw [hintegrity] at hafter
          exact guarantees_of_filled hmarked hafter

end Calls

section Runs

/-- A store without blobs and packages. -/
def emptyStorage : Storage := ⟨fun _ => none, fun _ => none⟩

def runEnsure (C : Crypto) (config : SnpmConfig) (blobDir : PathBuf) (calls : List EnsureCall) :
    Storage :=
  calls.foldl (fun store call => (ensurePackage C config blobDir call store).2) emptyStorage

/-- Every call of a run finds a directory that matches it. -/
def MatchingRun (C : Crypto) (config : SnpmConfig) (blobDir : PathBuf) (calls : List EnsureCall) :
    Prop :=
  ∀ before call after, calls = before ++ call :: after →
    Matching config call (runEnsure C config blobDir before)

theorem runEnsure_sound (calls : List EnsureCall) (h : MatchingRun C config blobDir calls) :
    StorageSound C blobDir (runEnsure C config blobDir calls) := by
  induction calls using List.reverseRecOn with
  | nil =>
      constructor
      · intro _ _ _ hblob
        cases hblob
      · intro _ _ hslot
        cases hslot
  | append_singleton calls call ih =>
      have hbefore : MatchingRun C config blobDir calls := by
        intro before next after hsplit
        exact h before next (after ++ [call]) (by rw [hsplit]; simp)
      have hmatching := h calls call [] rfl
      have hstep := (ensurePackage_sound (ih hbefore) hmatching).1
      simpa [runEnsure] using hstep

/-- In a run whose calls all match what they find, a call with an integrity value
that succeeds returns a directory whose tarball satisfies the value. -/
theorem ensure_guarantees_integrity (C : Crypto) (config : SnpmConfig) (blobDir : PathBuf)
    (calls : List EnsureCall) (h : MatchingRun C config blobDir calls) :
    ∀ before call after, calls = before ++ call :: after →
      ∀ integrity root, call.package.integrity = some integrity →
        (ensurePackage C config blobDir call (runEnsure C config blobDir before)).1 = .ok root →
        Guarantees C integrity (packageDir config call.package)
          (ensurePackage C config blobDir call (runEnsure C config blobDir before)).2 := by
  intro before call after hsplit
  have hbefore : MatchingRun C config blobDir before := by
    intro first next rest hfirst
    exact h first next (rest ++ call :: after) (by rw [hsplit, hfirst]; simp)
  exact (ensurePackage_sound (runEnsure_sound before hbefore) (h before call after hsplit)).2

/-- Two archives without entries, compressed at different times. -/
def firstTarball : Bytes :=
  [31, 139, 8, 0, 0, 0, 0, 0, 2, 3, 99, 96, 24, 5, 163, 96, 20, 140, 84, 0, 0, 46, 175, 181, 239,
    0, 4, 0, 0]

def secondTarball : Bytes :=
  [31, 139, 8, 0, 1, 0, 0, 0, 2, 255, 99, 96, 24, 5, 163, 96, 20, 140, 84, 0, 0, 46, 175, 181, 239,
    0, 4, 0, 0]

def firstDigest : Bytes :=
  [89, 6, 5, 190, 51, 200, 186, 245, 84, 206, 217, 73, 223, 158, 150, 158, 169, 29, 185, 222]

def secondDigest : Bytes :=
  [249, 9, 69, 128, 52, 164, 162, 35, 253, 188, 98, 245, 240, 123, 14, 149, 82, 52, 56, 174]

/-- SHA-1 and base64 on the values that occur here. -/
def sampleCrypto : Crypto where
  digest _ bytes :=
    if bytes = firstTarball then firstDigest else if bytes = secondTarball then secondDigest else []
  decode text :=
    if text = "WQYFvjPIuvVUztlJ356Wnqkdud4=" then .ok firstDigest
    else if text = "+QlFgDSkoiP9vGL18HsOlVI0OK4=" then .ok secondDigest
    else .error "Invalid padding"

def smoothTransfer (body : Bytes) : Transfer :=
  ⟨none, ⟨"x1Y2z3", fun c hc h => absurd (h ▸ hc) (by decide)⟩, none, none,
    .ok [⟨.ok body, none⟩], none, none, none, .ok body.length, none⟩

def smoothStaging : Staging := ⟨none, none, none, ⟨none, false⟩, false, false, true, none⟩

def sampleCall (integrity : String) (body : Bytes) : EnsureCall where
  package := { samplePackage ⟨"lib", "1.0.0"⟩ "https://registry.npmjs.org/lib/-/lib-1.0.0.tgz" ∅ with
    integrity := some integrity }
  offline := false
  transfer := smoothTransfer body
  permitError := none
  joinError := none
  staging := smoothStaging
  localSource := .directory none
  markerError := none
  root := none

def firstIntegrity : String := "sha1-WQYFvjPIuvVUztlJ356Wnqkdud4="

def secondIntegrity : String := "sha1-+QlFgDSkoiP9vGL18HsOlVI0OK4="

def sampleDir : PathBuf := "/data/packages/lib/1.0.0"

def blobDirectory : PathBuf := "/cache/tarballs-v1"

/-- A call with another integrity value is handed what the first call unpacked. -/
theorem second_integrity_not_checked :
    (ensurePackage sampleCrypto storeConfig blobDirectory (sampleCall secondIntegrity secondTarball)
      (runEnsure sampleCrypto storeConfig blobDirectory [sampleCall firstIntegrity firstTarball])).1 =
        .ok sampleDir ∧
    ¬ Guarantees sampleCrypto secondIntegrity sampleDir
      (ensurePackage sampleCrypto storeConfig blobDirectory
        (sampleCall secondIntegrity secondTarball)
        (runEnsure sampleCrypto storeConfig blobDirectory
          [sampleCall firstIntegrity firstTarball])).2 := by
  have hslot : (ensurePackage sampleCrypto storeConfig blobDirectory
      (sampleCall secondIntegrity secondTarball)
      (runEnsure sampleCrypto storeConfig blobDirectory
        [sampleCall firstIntegrity firstTarball])).2.packages sampleDir =
      some ⟨some firstTarball, some firstIntegrity, true⟩ := by decide +kernel
  have hfails : verifyIntegrityFile sampleCrypto "" (some secondIntegrity) (.ok firstTarball) ≠
      .ok () := by decide +kernel
  refine ⟨by decide +kernel, fun hguarantees => ?_⟩
  obtain ⟨slot, bytes, hfound, htarball, hsatisfies⟩ := hguarantees
  rw [hslot] at hfound
  cases hfound
  cases htarball
  exact hfails (hsatisfies "")

theorem matching_first : MatchingRun sampleCrypto storeConfig blobDirectory
    [sampleCall firstIntegrity firstTarball] := by
  intro before call after hsplit
  obtain ⟨rfl, rfl, _⟩ : before = [] ∧ call = sampleCall firstIntegrity firstTarball ∧ after = [] := by
    cases before with
    | nil => simpa [eq_comm] using hsplit
    | cons first rest => simp at hsplit
  intro integrity _
  refine ⟨fun hlocal => ?_, fun slot hslot => by cases hslot⟩
  have hstart : Text.startsWith "https://registry.npmjs.org/lib/-/lib-1.0.0.tgz" "file://" = false := by
    decide
  have hfile : Text.startsWith "https://registry.npmjs.org/lib/-/lib-1.0.0.tgz" "file://" = true :=
    hlocal.1
  rw [hstart] at hfile
  cases hfile

theorem ensure_guarantees_integrity_first :
    (ensurePackage sampleCrypto storeConfig blobDirectory (sampleCall firstIntegrity firstTarball)
      (runEnsure sampleCrypto storeConfig blobDirectory [])).1 = .ok sampleDir ∧
    Guarantees sampleCrypto firstIntegrity
      (packageDir storeConfig (sampleCall firstIntegrity firstTarball).package)
      (ensurePackage sampleCrypto storeConfig blobDirectory (sampleCall firstIntegrity firstTarball)
        (runEnsure sampleCrypto storeConfig blobDirectory [])).2 := by
  have hok : (ensurePackage sampleCrypto storeConfig blobDirectory
      (sampleCall firstIntegrity firstTarball)
      (runEnsure sampleCrypto storeConfig blobDirectory [])).1 = .ok sampleDir := by decide +kernel
  exact ⟨hok, ensure_guarantees_integrity sampleCrypto storeConfig blobDirectory
    [sampleCall firstIntegrity firstTarball] matching_first [] _ [] rfl firstIntegrity sampleDir rfl
    hok⟩

end Runs

end Snpm.Store
