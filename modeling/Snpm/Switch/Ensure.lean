import Mathlib
import Snpm.Install.Files
import Snpm.Library.Digest
import Snpm.Library.LineParts
import Snpm.Library.StagedDirs

/-!
Installing a version of the program that a project asks for. The release archive is
downloaded and checked, the program in it is written to a staged directory, and the
directory is marked as complete and renamed. A call can be cut short at every operation.
-/
namespace Snpm.Switch

open CrashLogic StagedDirs

inductive Os where
  | macos
  | windows
  | linux
deriving DecidableEq

structure PlatformInfo where
  releaseOs : String
  releaseArch : String
  legacyOs : String
  legacyArch : String
  ext : String

def platformInfo (os : Os) (aarch64 : Bool) : PlatformInfo where
  releaseOs := match os with
    | .macos => "macos"
    | .windows => "windows"
    | .linux => "linux"
  legacyOs := match os with
    | .macos => "darwin"
    | .windows => "win32"
    | .linux => "linux"
  releaseArch := if aarch64 then "arm64" else "amd64"
  legacyArch := if aarch64 then "arm64" else "x64"
  ext := if os = .windows then "zip" else "tar.gz"

structure Response where
  status : Nat
  /-- The status as it is shown in messages. -/
  label : String
  body : String

def Response.isSuccess (response : Response) : Bool :=
  200 ≤ response.status && response.status < 300

/-- An entry of an archive, under the last part of its path. -/
structure ArchiveEntry where
  fileName : String
  content : String

abbrev Archive := Except String (List (Except String ArchiveEntry))

structure Host where
  os : Os
  aarch64 : Bool
  versionsDir : PathBuf

/-- What one call gets from outside. -/
structure World where
  downloadBaseUrl : String
  skipChecksum : Bool
  get : String → Except String Response
  openTarball : String → Archive
  openZip : String → Archive

section Download

variable (H : Digest.Hash) (host : Host) (world : World)

def binaryName : String := if host.os = .windows then "snpm.exe" else "snpm"

def buildDownloadUrls (version : String) : List String :=
  let platform := platformInfo host.os host.aarch64
  let assetName := "snpm-" ++ platform.releaseOs ++ "-" ++ platform.releaseArch ++ "." ++ platform.ext
  let legacyAssetName :=
    "snpm-" ++ platform.legacyOs ++ "-" ++ platform.legacyArch ++ "." ++ platform.ext
  (assetName :: if assetName = legacyAssetName then [] else [legacyAssetName]).map fun assetName =>
    world.downloadBaseUrl ++ "/v" ++ version ++ "/" ++ assetName

/-- The first archive that the server has. -/
def selectDownload (version : String) : Option String → List String →
    Except String (String × String)
  | lastStatus, [] =>
      .error ("Failed to download snpm " ++ version ++
        " from known release asset names (last HTTP status: " ++ lastStatus.getD "unknown" ++ ")")
  | _, url :: urls => do
      let response ← world.get url
      if response.isSuccess then .ok (url, response.body)
      else selectDownload version (some response.label) urls

def isAsciiHexDigit (c : Char) : Bool :=
  Text.isAsciiDigit c || ('a' ≤ c && c ≤ 'f') || ('A' ≤ c && c ≤ 'F')

def parseSha256Checksum (text : String) : Except String String :=
  let checksum := (Text.splitWhitespace text).headD ""
  if checksum.utf8ByteSize ≠ 64 || !checksum.toList.all isAsciiHexDigit then
    .error "Invalid SHA256 checksum format"
  else .ok checksum

def verifyChecksum (url bytes : String) : Except String Unit :=
  if world.skipChecksum then .ok ()
  else do
    let response ← world.get (url ++ ".sha256")
    if !response.isSuccess then
      .error ("Failed to download checksum file for " ++ url ++ ": HTTP " ++ response.label)
    else
      let expected ← parseSha256Checksum response.body
      if Text.eqIgnoreAsciiCase (H.hex bytes) expected then .ok ()
      else .error ("Checksum mismatch for " ++ url ++ " (expected " ++ expected ++ ", got " ++
        H.hex bytes ++ ")")

/-- The first entry with the program's name, on any system. -/
def findBinary : List (Except String ArchiveEntry) → Except String ArchiveEntry
  | [] => .error "snpm binary not found in archive"
  | entry :: entries => do
      let entry ← entry
      if entry.fileName = "snpm" || entry.fileName = "snpm.exe" then .ok entry
      else findBinary entries

/-- The file that a download brings. -/
def downloadedFile (url bytes : String) : Except String ArchiveEntry :=
  if Text.endsWith url ".tar.gz" || Text.endsWith url ".tgz" then do
    findBinary (← world.openTarball bytes)
  else if Text.endsWith url ".zip" then do
    findBinary (← world.openZip bytes)
  else .ok ⟨binaryName host, bytes⟩

def ioError : String := "No such file or directory (os error 2)"

def downloadVersion (version destination : String) : Prog (Dirs String) String Unit := do
  let (url, bytes) ← Prog.lift (selectDownload world version none (buildDownloadUrls host world version))
  Prog.lift (verifyChecksum H world url bytes)
  createDirAll destination
  let file ← Prog.lift (downloadedFile host world url bytes)
  writeFile ioError (fun part text => part.toList <+: text.toList) destination file.fileName
    file.content

/-- The text comes from a `package.json` and becomes a part of a path. -/
def validateVersion (version : String) : Except String Unit :=
  if version ≠ "" && !Text.startsWith version "." && !Text.containsSeq version ".." &&
      version.toList.all (fun c => Text.isAsciiDigit c || ('a' ≤ c && c ≤ 'z') ||
        ('A' ≤ c && c ≤ 'Z') || c = '.' || c = '-' || c = '+') then .ok ()
  else .error ("Invalid snpm version " ++ Text.debugText version ++ " in packageManager field")

def completeMarker : String := ".snpm_complete"

def hasFile (dirs : Dirs String) (name file : String) : Bool :=
  (dirs[name]?).any (·.contains file)

def binaryPath (version : String) : PathBuf :=
  (host.versionsDir.join version).join (binaryName host)

def stagedName (version : String) : String := version ++ ".tmp"

def installVersion (version : String) : Prog (Dirs String) String PathBuf := do
  clear ioError (stagedName version)
  downloadVersion H host world version (stagedName version)
  let found ← Prog.read fun dirs => .ok (hasFile dirs (stagedName version) (binaryName host))
  if found then do
    publish ioError completeMarker "" (stagedName version) version
    pure (binaryPath host version)
  else
    Prog.fail ("Downloaded snpm " ++ version ++ " but binary not found at expected path")

def ensureVersion (version : String) : Prog (Dirs String) String PathBuf := do
  Prog.lift (validateVersion version)
  let complete ← Prog.read fun dirs =>
    .ok (hasFile dirs version completeMarker && hasFile dirs version (binaryName host))
  if complete then pure (binaryPath host version) else installVersion H host world version

end Download

section Calls

variable {H : Digest.Hash} {host : Host} {world : World} {worlds : World → Prop}
  {version url bytes : String} {dirs : Dirs String}

/-- The program of a version: it comes in an archive that a server gave out for the
version, with the checksum that was given out for it. -/
def Genuine (H : Digest.Hash) (host : Host) (worlds : World → Prop) (version content : String) :
    Prop :=
  ∃ world url bytes, worlds world ∧ url ∈ buildDownloadUrls host world version ∧
    (∃ response, world.get url = .ok response ∧ response.isSuccess = true ∧
      response.body = bytes) ∧
    verifyChecksum H world url bytes = .ok () ∧
    downloadedFile host world url bytes = .ok ⟨binaryName host, content⟩

/-- A directory that counts as complete holds the program of its version, or of the
version it was staged for. -/
def Good (H : Digest.Hash) (host : Host) (worlds : World → Prop) (name : String) (dir : Dir String) :
    Prop :=
  ∀ content, dir.contains completeMarker = true → dir[binaryName host]? = some content →
    ∃ version, (name = version ∨ name = stagedName version) ∧ Genuine H host worlds version content

theorem Good.within {name : String} {dir dir' : Dir String} (h : Good H host worlds name dir)
    (hwithin : Within dir' dir) : Good H host worlds name dir' := by
  intro content hmarker hcontent
  refine h content ?_ (hwithin _ _ hcontent)
  rw [Std.ExtTreeMap.contains_eq_isSome_getElem?, Option.isSome_iff_exists] at hmarker ⊢
  obtain ⟨text, htext⟩ := hmarker
  exact ⟨text, hwithin _ _ htext⟩

theorem good_of_unmarked {name : String} {dir : Dir String} (h : dir[completeMarker]? = none) :
    Good H host worlds name dir := by
  intro content hmarker
  rw [Std.ExtTreeMap.contains_eq_isSome_getElem?, h] at hmarker
  cases hmarker

theorem selectDownload_ok {lastStatus : Option String} {urls : List String} {found : String × String}
    (h : selectDownload world version lastStatus urls = .ok found) :
    found.1 ∈ urls ∧ ∃ response, world.get found.1 = .ok response ∧
      response.isSuccess = true ∧ response.body = found.2 := by
  induction urls generalizing lastStatus with
  | nil => cases h
  | cons first urls ih =>
      cases hget : world.get first with
      | error e => simp [selectDownload, hget, Bind.bind, Except.bind] at h
      | ok response =>
          simp only [selectDownload, hget, Bind.bind, Except.bind] at h
          split at h
          next hsuccess =>
              cases h
              exact ⟨List.mem_cons_self, response, hget, hsuccess, rfl⟩
          next =>
              have hlater := ih h
              exact ⟨List.mem_cons_of_mem _ hlater.1, hlater.2⟩

theorem stagedName_ne (version : String) : stagedName version ≠ version := by
  intro h
  have hlength := congrArg (fun s => s.toList.length) h
  simp [stagedName] at hlength

theorem binaryName_ne_marker (host : Host) : binaryName host ≠ completeMarker := by
  simp only [binaryName]
  split <;> decide

theorem findBinary_name {entries : List (Except String ArchiveEntry)} {entry : ArchiveEntry}
    (h : findBinary entries = .ok entry) :
    entry.fileName = "snpm" ∨ entry.fileName = "snpm.exe" := by
  induction entries with
  | nil => cases h
  | cons first entries ih =>
      cases first with
      | error e => cases h
      | ok first =>
          simp only [findBinary, Bind.bind, Except.bind] at h
          split at h
          next hname =>
              cases h
              simpa using hname
          next => exact ih h

theorem downloadedFile_name {file : ArchiveEntry} (h : downloadedFile host world url bytes = .ok file) :
    file.fileName ≠ completeMarker := by
  have hnames : file.fileName = "snpm" ∨ file.fileName = "snpm.exe" := by
    simp only [downloadedFile, Bind.bind, Except.bind] at h
    split at h
    next =>
        split at h
        next => cases h
        next => exact findBinary_name h
    next =>
        split at h
        next =>
            split at h
            next => cases h
            next => exact findBinary_name h
        next =>
            cases h
            simp only [binaryName]
            split
            next => exact .inr rfl
            next => exact .inl rfl
  cases hnames with
  | inl hname =>
      rw [hname]
      decide
  | inr hname =>
      rw [hname]
      decide

/-- A staged directory before it is marked. -/
def Unmarked (dir : Option (Dir String)) : Prop := ∀ d, dir = some d → d[completeMarker]? = none

def Filled (H : Digest.Hash) (host : Host) (worlds : World → Prop) (version : String) (dir : Dir String) :
    Prop :=
  dir[completeMarker]? = none ∧
    ∀ content, dir[binaryName host]? = some content → Genuine H host worlds version content

theorem unmarked_insert {file text : String} (hfile : file ≠ completeMarker) :
    ((∅ : Dir String).insert file text)[completeMarker]? = none := by
  rw [BTreeMap.getElem?_insert_self_or, if_neg hfile, Std.ExtTreeMap.getElem?_empty]

theorem downloadVersion_triple (hworld : worlds world) :
    Triple (At (stagedName version) dirs (· = none)) (At (stagedName version) dirs Unmarked)
      (downloadVersion H host world version (stagedName version))
      fun _ => At (stagedName version) dirs fun o =>
        ∃ d, o = some d ∧ Filled H host worlds version d := by
  have hnone : ∀ o : Option (Dir String), o = none → Unmarked o := by
    intro o ho d hd
    rw [ho] at hd
    cases hd
  have hempty : Unmarked (some ∅) := by
    intro d hd
    rw [← Option.some.inj hd, Std.ExtTreeMap.getElem?_empty]
  refine (Triple.lift fun s hs => hs.mono hnone).bind fun found => .given fun hfound => ?_
  obtain ⟨url, bytes⟩ := found
  refine (Triple.lift fun s hs => hs.mono hnone).bind fun _ => .given fun hchecked => ?_
  refine (createDirAll_triple (hnone none rfl) hempty).bind fun _ => ?_
  have hcreated : ∀ o : Option (Dir String), o = some ∅ → Unmarked o := by
    intro o ho
    rw [ho]
    exact hempty
  refine (Triple.lift fun s hs => hs.mono hcreated).bind fun file => .given fun hfile => ?_
  have hname := downloadedFile_name hfile
  refine (writeFile_triple _ _ _ _ hcreated ?_ ?_).consequence (fun _ hs => hs) (fun _ hs => hs) ?_
  · intro d part hd hpart e he
    rw [← Option.some.inj he, Option.some.inj hd]
    exact unmarked_insert hname
  · intro d hd e he
    rw [← Option.some.inj he, Option.some.inj hd]
    exact unmarked_insert hname
  · intro u s hs
    refine hs.mono fun o ho => ?_
    obtain ⟨d, hd, heq⟩ := ho
    rw [Option.some.inj hd] at heq
    refine ⟨_, heq, unmarked_insert hname, fun content hcontent => ?_⟩
    rw [BTreeMap.getElem?_insert_self_or] at hcontent
    split at hcontent
    next hbinary =>
        have hselected := selectDownload_ok hfound
        refine ⟨world, url, bytes, hworld, hselected.1, hselected.2, hchecked, ?_⟩
        rw [hfile, ← hbinary, ← Option.some.inj hcontent]
    next =>
        rw [Std.ExtTreeMap.getElem?_empty] at hcontent
        cases hcontent

theorem Filled.good {dir : Dir String} {name : String} (h : Filled H host worlds version dir)
    (hname : name = version ∨ name = stagedName version) :
    Good H host worlds name (dir.insert completeMarker "") := by
  intro content _ hcontent
  rw [BTreeMap.getElem?_insert_self_or, if_neg (binaryName_ne_marker host).symm] at hcontent
  exact ⟨version, hname, h.2 content hcontent⟩

/-- A version that is one part of a path, and no other than itself. -/
def PlainName (version : String) : Prop :=
  version ≠ "" ∧ '/' ∉ version.toList ∧ '\\' ∉ version.toList ∧ Text.startsWith version "." = false

theorem plainName_of_valid (h : validateVersion version = .ok ()) : PlainName version := by
  simp only [validateVersion] at h
  split at h
  next hvalid =>
      simp only [Bool.and_eq_true, decide_eq_true_eq, Bool.not_eq_true', List.all_eq_true] at hvalid
      refine ⟨hvalid.1.1.1, fun hslash => ?_, fun hslash => ?_, hvalid.1.1.2⟩
      · exact absurd (hvalid.2 _ hslash) (by decide)
      · exact absurd (hvalid.2 _ hslash) (by decide)
  next => cases h

/-- What a call leaves when it succeeds: the program of the version, marked as complete. -/
def Ensured (H : Digest.Hash) (host : Host) (worlds : World → Prop) (version : String)
    (path : PathBuf) (dirs : Dirs String) : Prop :=
  Sound (Good H host worlds) dirs ∧ path = binaryPath host version ∧
    ∃ dir, dirs[version]? = some dir ∧ dir.contains completeMarker = true ∧
      dir.contains (binaryName host) = true

theorem installVersion_triple (hworld : worlds world) :
    Triple (Sound (Good H host worlds)) (Sound (Good H host worlds))
      (installVersion H host world version) (Ensured H host worlds version) := by
  refine .each fun s₀ hs₀ => ?_
  have hsound : ∀ {s : Dirs String}, At (stagedName version) s₀ Unmarked s →
      Sound (Good H host worlds) s :=
    fun hs => hs₀.of_at (hs.mono fun o ho d hd => good_of_unmarked (ho d hd))
  have hcleared : Triple (· = s₀) (Sound (Good H host worlds)) (clear ioError (stagedName version))
      fun _ => At (stagedName version) s₀ (· = none) :=
    clear_sound hs₀ fun d d' hd hwithin => (hs₀ _ d hd).within hwithin
  refine hcleared.bind fun _ => ?_
  have hfilled : Triple (At (stagedName version) s₀ (· = none)) (Sound (Good H host worlds))
      (downloadVersion H host world version (stagedName version))
      fun _ => At (stagedName version) s₀ fun o =>
        ∃ d, o = some d ∧ Filled H host worlds version d :=
    (downloadVersion_triple hworld).consequence (fun _ hs => hs) (fun _ => hsound)
      (fun _ _ hs => hs)
  refine hfilled.bind fun _ => ?_
  have hkept : ∀ {s : Dirs String}, At (stagedName version) s₀
      (fun o => ∃ d, o = some d ∧ Filled H host worlds version d) s →
      Sound (Good H host worlds) s := by
    intro s hs
    refine hsound (hs.mono fun o ho d hd => ?_)
    obtain ⟨e, he, hfilled⟩ := ho
    rw [he, Option.some.injEq] at hd
    rw [← hd]
    exact hfilled.1
  have hfound : Triple (At (stagedName version) s₀
        fun o => ∃ d, o = some d ∧ Filled H host worlds version d)
      (Sound (Good H host worlds))
      (Prog.read fun s => .ok (hasFile s (stagedName version) (binaryName host)) :
        Prog (Dirs String) String Bool)
      fun found s => Sound (Good H host worlds) s ∧ (found = true →
        ∃ d, s[stagedName version]? = some d ∧ Filled H host worlds version d ∧
          d.contains (binaryName host) = true) := by
    refine .read (fun s hs => hkept hs) fun s found hs hok => ⟨hkept hs, fun htrue => ?_⟩
    obtain ⟨d, hd, hfilled⟩ := hs.1
    refine ⟨d, hd, hfilled, ?_⟩
    cases hok
    simpa [hasFile, hd] using htrue
  refine hfound.bind fun found => ?_
  cases found with
  | false => exact .fail fun s hs => hs.1
  | true =>
      have hpublished := publish_triple ioError (Good H host worlds) completeMarker ""
        (fun d => Filled H host worlds version d ∧ d.contains (binaryName host) = true)
        (stagedName_ne version) fun d hd => ⟨hd.1.good (.inl rfl), hd.1.good (.inr rfl)⟩
      refine (hpublished.consequence ?_ (fun _ hs => hs) fun _ _ hs => hs).bind fun _ =>
        .pure _ fun s hs => ⟨hs.1, hs.1, rfl, ?_⟩
      · intro s hs
        obtain ⟨d, hd, hready⟩ := hs.2 rfl
        exact ⟨hs.1, fun e e' he hwithin => (hs.1 _ e he).within hwithin, d, hd, hready⟩
      · obtain ⟨d, hd, hready⟩ := hs.2
        refine ⟨_, hd, Std.ExtTreeMap.contains_insert_self, ?_⟩
        simp [Std.ExtTreeMap.contains_insert, hready.2]

theorem ensureVersion_triple (hworld : worlds world) :
    Triple (Sound (Good H host worlds)) (Sound (Good H host worlds))
      (ensureVersion H host world version)
      fun path s => PlainName version ∧ Ensured H host worlds version path s := by
  refine (Triple.lift fun s hs => hs).bind fun _ => .given fun hvalid => ?_
  have hplain := plainName_of_valid hvalid
  have hcomplete : Triple (Sound (Good H host worlds)) (Sound (Good H host worlds))
      (Prog.read fun dirs => .ok (hasFile dirs version completeMarker &&
        hasFile dirs version (binaryName host)) : Prog (Dirs String) String Bool)
      fun complete s => Sound (Good H host worlds) s ∧ (complete = true →
        ∃ dir, s[version]? = some dir ∧ dir.contains completeMarker = true ∧
          dir.contains (binaryName host) = true) := by
    refine .read (fun s hs => hs) fun s complete hs hok => ⟨hs, fun htrue => ?_⟩
    cases hok
    cases hdir : s[version]? with
    | none => simp [hasFile, hdir] at htrue
    | some dir => exact ⟨dir, rfl, by simpa [hasFile, hdir] using htrue⟩
  refine hcomplete.bind fun complete => ?_
  cases complete with
  | true => exact .pure _ fun s hs => ⟨hs.1, hplain, hs.1, rfl, hs.2 rfl⟩
  | false =>
      exact (installVersion_triple hworld).consequence (fun _ hs => hs.1) (fun _ hs => hs)
        fun _ _ hs => ⟨hplain, hs⟩

/-- The calls for any versions, with what the given worlds answer. -/
def Calls (H : Digest.Hash) (host : Host) (worlds : World → Prop) (p : Prog (Dirs String) String PathBuf) :
    Prop :=
  ∃ world version, worlds world ∧ p = ensureVersion H host world version

/-- After any calls, each finished or cut short anywhere, a call that succeeds returns the
path of a program that came in an archive with a matching checksum, for its version or
for the one its directory was staged for. A version that would lead elsewhere fails. -/
theorem ensured_genuine (hrun : Run (Calls H host worlds) ∅ dirs) (hworld : worlds world)
    {path : PathBuf} (hok : (ensureVersion H host world version dirs).result = .ok path) :
    PlainName version ∧ path = binaryPath host version ∧
      ∃ dir content, (ensureVersion H host world version dirs).final[version]? = some dir ∧
        dir[binaryName host]? = some content ∧
        ∃ original, (version = original ∨ version = stagedName original) ∧
          Genuine H host worlds original content := by
  have hsound : Sound (Good H host worlds) dirs := by
    refine hrun.keeps (fun name dir hdir => ?_) fun p hp => ?_
    · rw [Std.ExtTreeMap.getElem?_empty] at hdir
      cases hdir
    · obtain ⟨world, version, hworld, heq⟩ := hp
      rw [heq]
      exact ⟨_, ensureVersion_triple hworld⟩
  obtain ⟨hplain, hafter, hpath, dir, hdir, hmarker, hbinary⟩ :=
    (ensureVersion_triple hworld).ends dirs path hsound hok
  rw [Std.ExtTreeMap.contains_eq_isSome_getElem?, Option.isSome_iff_exists] at hbinary
  obtain ⟨content, hcontent⟩ := hbinary
  exact ⟨hplain, hpath, dir, content, hdir, hcontent, hafter version dir hdir content hmarker hcontent⟩

end Calls

def sampleHost : Host := ⟨.linux, false, "/switch/versions"⟩

/-- A server with one archive for every version. -/
def sampleWorld : World where
  downloadBaseUrl := "https://releases"
  skipChecksum := false
  get url :=
    if Text.endsWith url ".sha256" then
      .ok ⟨200, "200 OK", String.ofList (List.replicate 63 '1' ++ ['0'])⟩
    else .ok ⟨200, "200 OK", "?"⟩
  openTarball _ := .ok [.ok ⟨"snpm", "program"⟩]
  openZip _ := .error "not a zip archive"

theorem ensured_genuine_sample :
    ∃ dir content, (ensureVersion Digest.unaryHash sampleHost sampleWorld "1" ∅).final["1"]? =
        some dir ∧
      dir[binaryName sampleHost]? = some content ∧
      ∃ original, ("1" = original ∨ "1" = stagedName original) ∧
        Genuine Digest.unaryHash sampleHost (· = sampleWorld) original content := by
  have hrun : Run (Calls Digest.unaryHash sampleHost (· = sampleWorld)) ∅ ∅ := .nil ∅
  have hok : (ensureVersion Digest.unaryHash sampleHost sampleWorld "1" ∅).result =
      .ok (binaryPath sampleHost "1") := by decide +kernel
  exact (ensured_genuine hrun rfl hok).2.2

end Snpm.Switch
