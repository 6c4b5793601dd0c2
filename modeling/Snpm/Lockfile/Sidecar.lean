import Mathlib
import Snpm.Error
import Snpm.Lockfile

/-!
The binary sidecar of the lockfile. Every write of the YAML text leaves a binary
copy beside it, tagged with a digest of that text; a read takes the copy when
the tag fits the text on disk and parses the text otherwise. The YAML, bincode
and SHA-256 libraries are parameters.
-/
namespace Snpm
namespace Lockfile

abbrev Bytes := List UInt8

/-- Thirty-two bytes. -/
abbrev Sha256 := { bytes : Bytes // bytes.length = 32 }

structure BinRootDependency where
  requested : String
  package : Option String
  version : Option String
  optional : Bool
deriving DecidableEq

inductive BinBundledDependencies where
  | list (names : List String)
  | all (value : Bool)
deriving DecidableEq

inductive BinBinField where
  | single (path : String)
  | map (entries : BTreeMap String String)
deriving DecidableEq

structure BinPackage where
  name : String
  version : String
  tarball : String
  integrity : Option String
  dependencies : BTreeMap String String
  peerDependencies : BTreeMap String String
  bundledDependencies : Option BinBundledDependencies
  hasBin : Bool
  bin : Option BinBinField
deriving DecidableEq

/-- The mirror of a lockfile whose fields are all serialised. -/
structure BinLockfile where
  version : Nat
  root : BTreeMap String BinRootDependency
  packages : BTreeMap String BinPackage
deriving DecidableEq

namespace BinRootDependency

def ofLock (dep : LockRootDependency) : BinRootDependency :=
  ⟨dep.requested, dep.package, dep.version, dep.optional⟩

def toLock (dep : BinRootDependency) : LockRootDependency :=
  ⟨dep.requested, dep.package, dep.version, dep.optional⟩

end BinRootDependency

namespace BinBundledDependencies

def ofLock : BundledDependencies → BinBundledDependencies
  | .list names => .list names
  | .all value => .all value

def toLock : BinBundledDependencies → BundledDependencies
  | .list names => .list names
  | .all value => .all value

theorem toLock_ofLock (bundled : BundledDependencies) : toLock (ofLock bundled) = bundled := by
  cases bundled with
  | list names => rfl
  | all value => rfl

end BinBundledDependencies

namespace BinBinField

def ofLock : BinField → BinBinField
  | .single path => .single path
  | .map entries => .map entries

def toLock : BinBinField → BinField
  | .single path => .single path
  | .map entries => .map entries

theorem toLock_ofLock (bin : BinField) : toLock (ofLock bin) = bin := by
  cases bin with
  | single path => rfl
  | map entries => rfl

end BinBinField

namespace BinPackage

def ofLock (package : LockPackage) : BinPackage where
  name := package.name
  version := package.version
  tarball := package.tarball
  integrity := package.integrity
  dependencies := package.dependencies
  peerDependencies := package.peerDependencies
  bundledDependencies := package.bundledDependencies.map BinBundledDependencies.ofLock
  hasBin := package.hasBin
  bin := package.bin.map BinBinField.ofLock

def toLock (package : BinPackage) : LockPackage where
  name := package.name
  version := package.version
  tarball := package.tarball
  integrity := package.integrity
  dependencies := package.dependencies
  peerDependencies := package.peerDependencies
  bundledDependencies := package.bundledDependencies.map BinBundledDependencies.toLock
  hasBin := package.hasBin
  bin := package.bin.map BinBinField.toLock

theorem toLock_ofLock (package : LockPackage) : toLock (ofLock package) = package := by
  obtain ⟨name, version, tarball, integrity, dependencies, peers, bundled, hasBin, bin⟩ := package
  have hbundled : (bundled.map BinBundledDependencies.ofLock).map BinBundledDependencies.toLock =
      bundled := by
    cases bundled with
    | none => rfl
    | some bundled => exact congrArg some (BinBundledDependencies.toLock_ofLock bundled)
  have hbin : (bin.map BinBinField.ofLock).map BinBinField.toLock = bin := by
    cases bin with
    | none => rfl
    | some bin => exact congrArg some (BinBinField.toLock_ofLock bin)
  rw [toLock, ofLock, hbundled, hbin]

end BinPackage

namespace BinLockfile

def ofLock (lockfile : Lockfile) : BinLockfile where
  version := lockfile.version
  root := lockfile.root.dependencies.map fun _ dep => .ofLock dep
  packages := lockfile.packages.map fun _ package => .ofLock package

def toLock (binary : BinLockfile) : Lockfile where
  version := binary.version
  root := ⟨binary.root.map fun _ dep => dep.toLock⟩
  packages := binary.packages.map fun _ package => package.toLock

theorem map_map_eq {V W : Type} {m : BTreeMap String V} {f : V → W} {g : W → V}
    (h : ∀ v, g (f v) = v) : (m.map fun _ v => f v).map (fun _ w => g w) = m := by
  apply Std.ExtTreeMap.ext_getElem?
  intro k
  rw [Std.ExtTreeMap.getElem?_map, Std.ExtTreeMap.getElem?_map]
  cases m[k]? with
  | none => rfl
  | some v => exact congrArg some (h v)

/-- The mirror keeps every field. -/
theorem toLock_ofLock (lockfile : Lockfile) : toLock (ofLock lockfile) = lockfile := by
  obtain ⟨version, ⟨dependencies⟩, packages⟩ := lockfile
  have hroot := map_map_eq (m := dependencies) (f := BinRootDependency.ofLock)
    (g := BinRootDependency.toLock) fun _ => rfl
  have hpackages := map_map_eq (m := packages) (f := BinPackage.ofLock)
    (g := BinPackage.toLock) BinPackage.toLock_ofLock
  rw [toLock, ofLock, hroot, hpackages]

end BinLockfile

/-- The libraries that the lockfile files are written and read with. -/
structure Formats where
  yamlToString : Lockfile → Except String String
  yamlFromStr : String → Except String Lockfile
  utf8Error : Bytes → String
  bincodeSerialize : BinLockfile → Option Bytes
  bincodeDeserialize : Bytes → Option BinLockfile
  sha256 : Bytes → Sha256

/-- What is assumed of them: their own types are read back as written, and a
bincode body that was cut short is refused. -/
structure Formats.RoundTrip (F : Formats) : Prop where
  yaml : ∀ lockfile text, F.yamlToString lockfile = .ok text → F.yamlFromStr text = .ok lockfile
  bincode : ∀ binary bytes, F.bincodeSerialize binary = some bytes →
    F.bincodeDeserialize bytes = some binary
  bincode_cut : ∀ binary bytes, F.bincodeSerialize binary = some bytes →
    ∀ n < bytes.length, F.bincodeDeserialize (bytes.take n) = none

def magic : Bytes := [0x53, 0x4E, 0x50, 0x42]

def formatVersion : Nat := 3

def headerLen : Nat := 4 + 4 + 32

/-- `u32::to_le_bytes`. -/
def toLeBytes (n : Nat) : Bytes :=
  [UInt8.ofNat n, UInt8.ofNat (n / 256), UInt8.ofNat (n / 65536), UInt8.ofNat (n / 16777216)]

/-- `u32::from_le_bytes`, on however many bytes there are. -/
def fromLeBytes (bytes : Bytes) : Nat :=
  bytes.foldr (fun b n => b.toNat + 256 * n) 0

def utf8Bytes (text : String) : Bytes := text.toUTF8.data.toList

def fromUtf8 (bytes : Bytes) : Option String := String.fromUTF8? ⟨bytes.toArray⟩

theorem fromUtf8_utf8Bytes (text : String) : fromUtf8 (utf8Bytes text) = some text := by
  have hvalid : text.toUTF8.IsValidUTF8 := text.isValidUTF8
  exact dif_pos hvalid

section Codec

variable (F : Formats)

def encodeSidecar (lockfile : Lockfile) (yamlHash : Sha256) : Option Bytes :=
  (F.bincodeSerialize (.ofLock lockfile)).map fun body =>
    magic ++ toLeBytes formatVersion ++ yamlHash.val ++ body

def decodeSidecar (bytes : Bytes) (expectedYamlHash : Sha256) : Option Lockfile :=
  if bytes.length < headerLen then none
  else if bytes.take 4 ≠ magic then none
  else if fromLeBytes ((bytes.drop 4).take 4) ≠ formatVersion then none
  else if (bytes.drop 8).take 32 ≠ expectedYamlHash.val then none
  else (F.bincodeDeserialize (bytes.drop headerLen)).map BinLockfile.toLock

/-- Only a file with the right header and the expected digest is decoded. -/
theorem header_of_decodeSidecar {bytes : Bytes} {expected : Sha256} {lockfile : Lockfile}
    (h : decodeSidecar F bytes expected = some lockfile) :
    headerLen ≤ bytes.length ∧ bytes.take 4 = magic ∧
      fromLeBytes ((bytes.drop 4).take 4) = formatVersion ∧
      (bytes.drop 8).take 32 = expected.val ∧
      (F.bincodeDeserialize (bytes.drop headerLen)).map BinLockfile.toLock = some lockfile := by
  rw [decodeSidecar] at h
  split at h
  next => cases h
  next hlen =>
      split at h
      next => cases h
      next hmagic =>
          split at h
          next => cases h
          next hversion =>
              split at h
              next => cases h
              next hhash =>
                  exact ⟨Nat.le_of_not_lt hlen, not_not.mp hmagic, not_not.mp hversion,
                    not_not.mp hhash, h⟩

theorem decodeSidecar_of_header {bytes : Bytes} {expected : Sha256}
    (hlen : headerLen ≤ bytes.length) (hmagic : bytes.take 4 = magic)
    (hversion : fromLeBytes ((bytes.drop 4).take 4) = formatVersion)
    (hhash : (bytes.drop 8).take 32 = expected.val) :
    decodeSidecar F bytes expected =
      (F.bincodeDeserialize (bytes.drop headerLen)).map BinLockfile.toLock := by
  rw [decodeSidecar, if_neg (Nat.not_lt.mpr hlen), if_neg (not_not.mpr hmagic),
    if_neg (not_not.mpr hversion), if_neg (not_not.mpr hhash)]

theorem encoded_header {lockfile : Lockfile} {yamlHash : Sha256} {bytes : Bytes}
    (h : encodeSidecar F lockfile yamlHash = some bytes) :
    ∃ body, F.bincodeSerialize (.ofLock lockfile) = some body ∧
      bytes.length = headerLen + body.length ∧ bytes.take 4 = magic ∧
      fromLeBytes ((bytes.drop 4).take 4) = formatVersion ∧
      (bytes.drop 8).take 32 = yamlHash.val ∧ bytes.drop headerLen = body := by
  obtain ⟨body, hbody, rfl⟩ := Option.map_eq_some_iff.mp h
  have hhash := yamlHash.property
  have hbegin : (magic ++ toLeBytes formatVersion).length = 8 := rfl
  refine ⟨body, hbody, ?_, ?_, ?_, ?_, ?_⟩
  · simp only [List.length_append, hhash, headerLen] at hbegin ⊢
    omega
  · rfl
  · rw [List.append_assoc, List.append_assoc]
    rfl
  · rw [List.append_assoc, List.drop_left' hbegin, List.take_left' hhash]
  · apply List.drop_left'
    rw [List.length_append, hbegin, hhash, headerLen]

variable {F} (hF : F.RoundTrip)
include hF

theorem decodeSidecar_encodeSidecar {lockfile : Lockfile} {yamlHash : Sha256} {bytes : Bytes}
    (h : encodeSidecar F lockfile yamlHash = some bytes) :
    decodeSidecar F bytes yamlHash = some lockfile := by
  obtain ⟨body, hbody, hlen, hmagic, hversion, hhash, hdrop⟩ := encoded_header F h
  rw [decodeSidecar_of_header F (by omega) hmagic hversion hhash, hdrop, hF.bincode _ _ hbody,
    Option.map_some, BinLockfile.toLock_ofLock]

/-- A sidecar whose writing broke off is decoded as what it was meant to be, or
not at all, and never for another text. -/
theorem decodeSidecar_take {lockfile decoded : Lockfile} {yamlHash expected : Sha256}
    {bytes : Bytes} (h : encodeSidecar F lockfile yamlHash = some bytes) {n : Nat}
    (hdecoded : decodeSidecar F (bytes.take n) expected = some decoded) :
    expected = yamlHash ∧ decoded = lockfile := by
  obtain ⟨body, hbody, hlen, -, -, hhash, hdrop⟩ := encoded_header F h
  obtain ⟨hlen', -, -, hhash', hdeserialize⟩ := header_of_decodeSidecar F hdecoded
  rw [List.length_take] at hlen'
  have hn : headerLen ≤ n := by omega
  have hexpected : expected = yamlHash := by
    apply Subtype.ext
    rw [← hhash', ← hhash, List.drop_take, List.take_take, min_eq_left]
    have : headerLen = 40 := rfl
    omega
  refine ⟨hexpected, ?_⟩
  have hdrop' : (bytes.take n).drop headerLen = body.take (n - headerLen) := by
    rw [List.drop_take, hdrop]
  rw [hdrop'] at hdeserialize
  by_cases hcut : n - headerLen < body.length
  · rw [hF.bincode_cut _ _ hbody _ hcut] at hdeserialize
    cases hdeserialize
  · rw [List.take_of_length_le (by omega), hF.bincode _ _ hbody, Option.map_some,
      BinLockfile.toLock_ofLock, Option.some.injEq] at hdeserialize
    exact hdeserialize.symm

end Codec

/-- The two files. Their directory is written by installs, and the YAML text by
other hands as well. -/
structure Disk where
  yaml : Option Bytes
  sidecar : Option Bytes
deriving DecidableEq

/-- How a file write ends: it may fail before the old content is gone, or after
some of the new content is there. -/
inductive WriteOutcome where
  | done
  | refused (source : String)
  | cut (written : Nat) (source : String)
deriving DecidableEq

namespace WriteOutcome

def content (outcome : WriteOutcome) (old : Option Bytes) (data : Bytes) : Option Bytes :=
  match outcome with
  | .done => some data
  | .refused _ => old
  | .cut written _ => some (data.take written)

def result (path : PathBuf) : WriteOutcome → Result Unit
  | .done => .ok ()
  | .refused source | .cut _ source => .error (.writeFile path source)

end WriteOutcome

section Files

variable (F : Formats) (path : PathBuf)

/-- `yamlWrite` and `sidecarWrite` say how the two file writes end. The YAML
write is checked and the sidecar write is not. -/
def write (graph : ResolutionGraph) (optionalRootSpecs : BTreeMap String String)
    (yamlWrite sidecarWrite : WriteOutcome) (disk : Disk) : Disk × Result Unit :=
  let lockfile := ofGraph graph optionalRootSpecs
  match F.yamlToString lockfile with
  | .error source => (disk, .error (.lockfileWrite path source))
  | .ok text =>
      let data := utf8Bytes text
      let yaml := yamlWrite.content disk.yaml data
      match yamlWrite.result path with
      | .error error => (⟨yaml, disk.sidecar⟩, .error error)
      | .ok () =>
          match encodeSidecar F lockfile (F.sha256 data) with
          | none => (⟨yaml, disk.sidecar⟩, .ok ())
          | some bytes => (⟨yaml, sidecarWrite.content disk.sidecar bytes⟩, .ok ())

def checkVersion (lockfile : Lockfile) : Result Unit :=
  if lockfile.version ≠ lockfileVersion then
    .error (.lockfile path
      ("unsupported lockfile version " ++ toString lockfile.version ++ " (expected " ++
        toString lockfileVersion ++ "), delete the lockfile and reinstall"))
  else .ok ()

def parseYaml (data : Bytes) : Result Lockfile :=
  match fromUtf8 data with
  | none => .error (.lockfile path (F.utf8Error data))
  | some yaml =>
      match F.yamlFromStr yaml with
      | .error reason => .error (.lockfile path reason)
      | .ok lockfile => do
          checkVersion path lockfile
          .ok lockfile

def readYaml (disk : Disk) : Result Bytes :=
  match disk.yaml with
  | none => .error (.readFile path "No such file or directory (os error 2)")
  | some data => .ok data

/-- The lockfile of a sidecar that fits the YAML text. -/
def readSidecar (disk : Disk) (data : Bytes) : Option Lockfile :=
  disk.sidecar.bind fun bytes => decodeSidecar F bytes (F.sha256 data)

def read (disk : Disk) : Result Lockfile := do
  let data ← readYaml path disk
  match readSidecar F disk data with
  | some lockfile => do
      checkVersion path lockfile
      .ok lockfile
  | none => parseYaml F path data

end Files

inductive Event where
  | write (graph : ResolutionGraph) (optionalRootSpecs : BTreeMap String String)
      (yamlWrite sidecarWrite : WriteOutcome)
  | edit (yaml : Option Bytes)
  | read

section Runs

variable (F : Formats) (path : PathBuf)

def step (disk : Disk) : Event → Disk
  | .write graph optionalRootSpecs yamlWrite sidecarWrite =>
      (write F path graph optionalRootSpecs yamlWrite sidecarWrite disk).1
  | .edit yaml => ⟨yaml, disk.sidecar⟩
  | .read => disk

/-- The states of a run, the first one included. -/
def states (disk : Disk) : List Event → List Disk
  | [] => [disk]
  | event :: events => disk :: states (step F path disk event) events

/-- No two texts that the lockfile had in these states share a digest. -/
def CollisionFree (disks : List Disk) : Prop :=
  ∀ a ∈ disks, ∀ b ∈ disks, ∀ x ∈ a.yaml, ∀ y ∈ b.yaml, F.sha256 x = F.sha256 y → x = y

/-- The sidecar is a copy, perhaps cut short, of a lockfile whose text is among
the given ones. -/
def SidecarOf (texts : Bytes → Prop) (disk : Disk) : Prop :=
  ∀ sidecar ∈ disk.sidecar, ∃ lockfile text bytes n, F.yamlToString lockfile = .ok text ∧
    texts (utf8Bytes text) ∧ encodeSidecar F lockfile (F.sha256 (utf8Bytes text)) = some bytes ∧
    sidecar = bytes.take n

variable {F path}

theorem SidecarOf.content {texts : Bytes → Prop} {disk : Disk} (h : SidecarOf F texts disk)
    {lockfile : Lockfile} {text : String} {bytes : Bytes}
    (htext : F.yamlToString lockfile = .ok text) (hmem : texts (utf8Bytes text))
    (hbytes : encodeSidecar F lockfile (F.sha256 (utf8Bytes text)) = some bytes)
    (outcome : WriteOutcome) (yaml : Option Bytes) :
    SidecarOf F texts ⟨yaml, outcome.content disk.sidecar bytes⟩ := by
  intro sidecar hsidecar
  cases outcome with
  | done =>
      cases hsidecar
      exact ⟨lockfile, text, bytes, bytes.length, htext, hmem, hbytes, List.take_length.symm⟩
  | refused source => exact h sidecar hsidecar
  | cut written source =>
      cases hsidecar
      exact ⟨lockfile, text, bytes, written, htext, hmem, hbytes, rfl⟩

/-- A step leaves a sidecar of the texts so far or of the text it wrote. -/
theorem SidecarOf.step {texts : Bytes → Prop} {disk : Disk} (h : SidecarOf F texts disk)
    (event : Event) (hnext : ∀ x ∈ (step F path disk event).yaml, texts x) :
    SidecarOf F texts (step F path disk event) := by
  cases event with
  | edit yaml => exact h
  | read => exact h
  | write graph optionalRootSpecs yamlWrite sidecarWrite =>
      simp only [Lockfile.step, write] at hnext ⊢
      cases htext : F.yamlToString (ofGraph graph optionalRootSpecs) with
      | error source => exact h
      | ok text =>
          simp only [htext] at hnext ⊢
          cases yamlWrite with
          | refused source => exact h
          | cut written source => exact h
          | done =>
              simp only [WriteOutcome.result] at hnext ⊢
              cases hbytes : encodeSidecar F (ofGraph graph optionalRootSpecs)
                  (F.sha256 (utf8Bytes text)) with
              | none => exact h
              | some bytes =>
                  simp only [hbytes] at hnext
                  exact h.content htext (hnext _ rfl) hbytes sidecarWrite _

theorem mem_states_self (disk : Disk) (events : List Event) : disk ∈ states F path disk events := by
  cases events with
  | nil => exact List.mem_singleton_self disk
  | cons event events => exact List.mem_cons_self

theorem sidecarOf_states {texts : Bytes → Prop} {disk : Disk} {events : List Event}
    (h : SidecarOf F texts disk)
    (htexts : ∀ d ∈ states F path disk events, ∀ x ∈ d.yaml, texts x) :
    ∀ d ∈ states F path disk events, SidecarOf F texts d := by
  induction events generalizing disk with
  | nil =>
      intro d hd
      rw [List.mem_singleton.mp hd]
      exact h
  | cons event events ih =>
      have hrest : ∀ d ∈ states F path (Lockfile.step F path disk event) events,
          ∀ x ∈ d.yaml, texts x :=
        fun d hd => htexts d (List.mem_cons_of_mem _ hd)
      intro d hd
      cases List.mem_cons.mp hd with
      | inl heq =>
          rw [heq]
          exact h
      | inr hd => exact ih (h.step event (hrest _ (mem_states_self _ events))) hrest d hd

theorem read_of_sidecarOf (hF : F.RoundTrip) {disks : List Disk} (hfree : CollisionFree F disks)
    {disk : Disk} (hdisk : disk ∈ disks)
    (h : SidecarOf F (fun x => ∃ d ∈ disks, x ∈ d.yaml) disk) :
    read F path disk = readYaml path disk >>= parseYaml F path := by
  unfold read
  cases hyaml : disk.yaml with
  | none =>
      rw [readYaml, hyaml]
      rfl
  | some data =>
      rw [readYaml, hyaml]
      change (match readSidecar F disk data with
        | some lockfile => do
            checkVersion path lockfile
            .ok lockfile
        | none => parseYaml F path data) = parseYaml F path data
      cases hread : readSidecar F disk data with
      | none => rfl
      | some decoded =>
          obtain ⟨sidecar, hsidecar, hdecode⟩ := Option.bind_eq_some_iff.mp hread
          obtain ⟨lockfile, text, bytes, n, htext, ⟨d, hd, hx⟩, hbytes, rfl⟩ :=
            h sidecar hsidecar
          obtain ⟨hhash, rfl⟩ := decodeSidecar_take hF hbytes hdecode
          have hdata : data = utf8Bytes text := hfree disk hdisk d hd data hyaml _ hx hhash
          rw [hdata, parseYaml, fromUtf8_utf8Bytes]
          simp only [hF.yaml _ _ htext]

/-- The sidecar is decoded to the lockfile it was made from, only for the text
it was made from and only under an intact header; over every run of writes,
edits of the YAML text and reads, a read returns what parsing the text returns. -/
theorem read_eq_parseYaml (hF : F.RoundTrip) :
    (∀ lockfile yamlHash, encodeSidecar F lockfile yamlHash = none ↔
      F.bincodeSerialize (.ofLock lockfile) = none) ∧
    (∀ lockfile yamlHash bytes, encodeSidecar F lockfile yamlHash = some bytes →
      decodeSidecar F bytes yamlHash = some lockfile ∧
        ∀ other, other ≠ yamlHash → decodeSidecar F bytes other = none) ∧
    (∀ bytes expected, bytes.length < headerLen ∨ bytes.take 4 ≠ magic ∨
        fromLeBytes ((bytes.drop 4).take 4) ≠ formatVersion ∨
        (bytes.drop 8).take 32 ≠ expected.val →
      decodeSidecar F bytes expected = none) ∧
    ∀ yaml events, CollisionFree F (states F path ⟨yaml, none⟩ events) →
      ∀ disk ∈ states F path ⟨yaml, none⟩ events,
        read F path disk = readYaml path disk >>= parseYaml F path := by
  refine ⟨?_, ?_, ?_, ?_⟩
  · intro lockfile yamlHash
    exact Option.map_eq_none_iff
  · intro lockfile yamlHash bytes h
    refine ⟨decodeSidecar_encodeSidecar hF h, fun other hother => ?_⟩
    rw [Option.eq_none_iff_forall_ne_some]
    intro decoded hdecoded
    rw [← List.take_length (l := bytes)] at hdecoded
    exact hother (decodeSidecar_take hF h hdecoded).1
  · intro bytes expected hheader
    rw [Option.eq_none_iff_forall_ne_some]
    intro decoded hdecoded
    obtain ⟨hlen, hmagic, hversion, hhash, -⟩ := header_of_decodeSidecar F hdecoded
    rcases hheader with h | h | h | h
    · exact absurd h (Nat.not_lt.mpr hlen)
    · exact h hmagic
    · exact h hversion
    · exact h hhash
  · intro yaml events hfree disk hdisk
    have hstart : SidecarOf F (fun x => ∃ d ∈ states F path ⟨yaml, none⟩ events, x ∈ d.yaml)
        ⟨yaml, none⟩ := fun _ h => by cases h
    exact read_of_sidecarOf hF hfree hdisk
      (sidecarOf_states hstart (fun d hd x hx => ⟨d, hd, hx⟩) disk hdisk)

end Runs

def emptyGraph : ResolutionGraph := ⟨⟨∅⟩, ∅⟩

/-- The text of a lockfile without roots. -/
def emptyYaml : String := "version: 1\nroot:\n  dependencies: \x7b\x7d\npackages: \x7b\x7d\n"

def emptyDigest : Sha256 :=
  ⟨[0xAD, 0x95, 0xA7, 0x21, 0x0A, 0x45, 0x20, 0x1A, 0x2A, 0x40, 0xA3, 0x51, 0x0A, 0xBB, 0x92,
     0x10, 0xF4, 0x64, 0xDB, 0x65, 0xC5, 0xC6, 0x7F, 0x7D, 0x15, 0xD6, 0x06, 0x57, 0x54, 0x0E,
     0x67, 0x02], rfl⟩

def emptyBody : Bytes := [1, 0, 0, 0] ++ List.replicate 16 0

/-- The libraries as far as they are needed for a lockfile without roots. -/
def emptyFormats : Formats where
  yamlToString lockfile := if lockfile = ofGraph emptyGraph ∅ then .ok emptyYaml else .error ""
  yamlFromStr text := if text = emptyYaml then .ok (ofGraph emptyGraph ∅) else .error ""
  utf8Error _ := "invalid utf-8 sequence"
  bincodeSerialize binary :=
    if binary = .ofLock (ofGraph emptyGraph ∅) then some emptyBody else none
  bincodeDeserialize bytes :=
    if emptyBody.isPrefixOf bytes then some (.ofLock (ofGraph emptyGraph ∅)) else none
  sha256 data := if data = utf8Bytes emptyYaml then emptyDigest else ⟨List.replicate 32 0, rfl⟩

theorem emptyFormats_roundTrip : emptyFormats.RoundTrip := by
  constructor
  · intro lockfile text h
    simp only [emptyFormats] at h ⊢
    split at h
    next heq =>
        cases h
        rw [if_pos rfl, heq]
    next => cases h
  · intro binary bytes h
    simp only [emptyFormats] at h ⊢
    split at h
    next heq =>
        cases h
        rw [if_pos (by decide), heq]
    next => cases h
  · intro binary bytes h n hn
    simp only [emptyFormats] at h ⊢
    split at h
    next =>
        cases h
        rw [if_neg]
        intro hbegin
        have hle := (List.isPrefixOf_iff_prefix.mp hbegin).length_le
        rw [List.length_take] at hle
        omega
    next => cases h

/-- A write, a deletion of the text, and a write whose sidecar was cut short. -/
def cutRun : List Event :=
  [.write emptyGraph ∅ .done .done, .edit none,
    .write emptyGraph ∅ .done (.cut 50 "No space left on device (os error 28)")]

theorem cutRun_collisionFree : CollisionFree emptyFormats
    (states emptyFormats "snpm-lock.yaml" ⟨none, none⟩ cutRun) := by
  have hall : ∀ d ∈ states emptyFormats "snpm-lock.yaml" ⟨none, none⟩ cutRun,
      ∀ x ∈ d.yaml, x = utf8Bytes emptyYaml := by
    decide +kernel
  intro a ha b hb x hx y hy _
  rw [hall a ha x hx, hall b hb y hy]

theorem read_after_cutRun :
    emptyFormats.RoundTrip ∧
      ∀ disk ∈ states emptyFormats "snpm-lock.yaml" ⟨none, none⟩ cutRun,
        read emptyFormats "snpm-lock.yaml" disk =
          readYaml "snpm-lock.yaml" disk >>= parseYaml emptyFormats "snpm-lock.yaml" :=
  ⟨emptyFormats_roundTrip,
    (read_eq_parseYaml emptyFormats_roundTrip).2.2.2 none cutRun cutRun_collisionFree⟩

end Lockfile
end Snpm
