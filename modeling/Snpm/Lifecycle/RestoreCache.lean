import Mathlib
import Snpm.Library.BrokenOff
import Snpm.Lifecycle.TreeHash

/-!
Restoring a package from the side-effects cache. A local slot is copied entry by
entry over the removed package; an archive of a remote cache is unpacked beside the
package and takes its place. Every operation on the disk may fail, and the reasons
are given from outside.
-/
namespace Snpm.Lifecycle

open DirTree

/-- The entries of a directory, in the order in which the disk lists them. -/
abbrev DirEntries := Listing OsBytes OsBytes OsBytes

inductive FsOp where
  | readDir
  | symlinkMetadata
  | readLink
  | metadata
  | createParent
  | createDir
  | symlink
  | copyFile
  | removeFile
  | removeDir
deriving DecidableEq

inductive CacheError where
  | readFile (place : List OsBytes) (reason : String)
  | writeFile (place : List OsBytes) (reason : String)
deriving DecidableEq

/-- The error an operation on an entry is reported by. -/
def FsOp.error (op : FsOp) (place : List OsBytes) (reason : String) : CacheError :=
  match op with
  | .readDir | .symlinkMetadata | .readLink | .metadata => .readFile place reason
  | .createParent => .writeFile place.dropLast reason
  | _ => .writeFile place reason

/-- The operations on one tree that fail, and the bytes a failed copy leaves. -/
structure Faults where
  reason : FsOp → List OsBytes → Option String
  leftover : List OsBytes → Option OsBytes

/-- The first of some operations on an entry that fails. -/
def Faults.attempt (faults : Faults) (ops : List FsOp) (place : List OsBytes) :
    Option CacheError :=
  ops.findSome? fun op => (faults.reason op place).map (op.error place)

section Copy

variable (faults : Faults)

/-- What is read and made before a file is copied. -/
def fileOps : List FsOp := [.symlinkMetadata, .createParent]

/-- A link's target is looked up before the link is made, so a link without one fails. -/
def linkOps : List FsOp := [.symlinkMetadata, .readLink, .metadata, .createParent, .symlink]

def dirOps : List FsOp := [.symlinkMetadata, .createDir]

/-- Copy the entries of a directory; the first that fails ends it all. -/
def copyDirInner (place : List OsBytes) : DirEntries → Option CacheError × DirEntries
  | .nil => (none, .nil)
  | .file name content rest =>
      match faults.attempt fileOps (place ++ [name]),
        faults.attempt [.copyFile] (place ++ [name]) with
      | some error, _ => (some error, .nil)
      | none, some error =>
          (some error, match faults.leftover (place ++ [name]) with
            | some bytes => .file name bytes .nil
            | none => .nil)
      | none, none =>
          let copied := copyDirInner place rest
          (copied.1, .file name content copied.2)
  | .link name target rest =>
      match faults.attempt linkOps (place ++ [name]) with
      | some error => (some error, .nil)
      | none =>
          let copied := copyDirInner place rest
          (copied.1, .link name target copied.2)
  | .dir name entries rest =>
      match faults.attempt dirOps (place ++ [name]),
        faults.attempt [.readDir] (place ++ [name]) with
      | some error, _ => (some error, .nil)
      | none, some error => (some error, .dir name .nil .nil)
      | none, none =>
          match copyDirInner (place ++ [name]) entries with
          | (some error, below) => (some error, .dir name below .nil)
          | (none, below) =>
              let copied := copyDirInner place rest
              (copied.1, .dir name below copied.2)

/-- The entries are removed as the disk lists them, up to the first that stays. -/
def removeEntries (place : List OsBytes) : DirEntries → Option String × DirEntries
  | .nil => (none, .nil)
  | .file name content rest =>
      match faults.reason .removeFile (place ++ [name]) with
      | some reason => (some reason, .file name content rest)
      | none => removeEntries place rest
  | .link name target rest =>
      match faults.reason .removeFile (place ++ [name]) with
      | some reason => (some reason, .link name target rest)
      | none => removeEntries place rest
  | .dir name entries rest =>
      match faults.reason .readDir (place ++ [name]) with
      | some reason => (some reason, .dir name entries rest)
      | none =>
          match removeEntries (place ++ [name]) entries with
          | (some reason, below) => (some reason, .dir name below rest)
          | (none, _) =>
              match faults.reason .removeDir (place ++ [name]) with
              | some reason => (some reason, .dir name .nil rest)
              | none => removeEntries place rest

/-- `remove_dir_all`: why it failed, and what is left. -/
def removeDirAll (entries : DirEntries) : Option String × Option DirEntries :=
  match faults.reason .readDir [] with
  | some reason => (some reason, some entries)
  | none =>
      match removeEntries faults [] entries with
      | (some reason, left) => (some reason, some left)
      | (none, _) =>
          match faults.reason .removeDir [] with
          | some reason => (some reason, some .nil)
          | none => (none, none)

def removePath (entries : DirEntries) : Option CacheError × Option DirEntries :=
  match faults.attempt [.symlinkMetadata] [] with
  | some error => (some error, some entries)
  | none =>
      let removed := removeDirAll faults entries
      (removed.1.map (.writeFile []), removed.2)

end Copy

/-- Copy a directory to a place where nothing lies. -/
def copyAll (copying : Faults) (source : DirEntries) : Option CacheError × Option DirEntries :=
  match copying.attempt [.createDir] [] with
  | some error => (some error, none)
  | none =>
      match copying.attempt [.readDir] [] with
      | some error => (some error, some .nil)
      | none =>
          let copied := copyDirInner copying [] (source.sorted nameBefore)
          (copied.1, some copied.2)

/-- Copy a slot over what lies at the destination. -/
def copyDir (removing copying : Faults) (source : DirEntries) (destination : Option DirEntries) :
    Option CacheError × Option DirEntries :=
  let removed := match destination with
    | some entries => removePath removing entries
    | none => (none, none)
  match removed.1 with
  | some error => (some error, removed.2)
  | none => copyAll copying source

inductive SideEffectsCacheRestore where
  | restored
  | alreadyApplied
  | miss
deriving DecidableEq

/-- The answer to the request for an archive. -/
inductive RemoteAnswer where
  | noClient
  | sendFailed
  | response (status : Nat) (body : Option OsBytes)

/-- What the disk and the network do during one restore. `unpack` is what lies in the
staging directory after an archive was decoded into it. -/
structure RestoreWorld where
  markerText : Option String
  removing : Faults
  copying : Faults
  remote : Option RemoteAnswer
  createStaging : Option String
  unpack : OsBytes → Except String DirEntries
  rename : Option String
  writeMarker : Option (String × Option OsBytes)

def isAsciiHexdigit (c : Char) : Bool :=
  Text.isAsciiDigit c || ('a' ≤ c && c ≤ 'f') || ('A' ≤ c && c ≤ 'F')

def readMarker (text : Option String) : Option String :=
  text.bind fun marker =>
    let marker := Text.trim marker
    if marker.utf8ByteSize = 128 ∧ marker.toList.all isAsciiHexdigit then
      some (Text.toAsciiLowercase marker)
    else none

def markerMatches (text : Option String) (expected : String) : Bool :=
  readMarker text = some expected

section Restore

variable (w : RestoreWorld)

/-- Everything but a body of a success is a miss. -/
def remoteBody : Option OsBytes :=
  match w.remote with
  | some (.response status body) => if 200 ≤ status ∧ status < 300 then body else none
  | _ => none

/-- The staged archive takes the place of the package: what lies there is removed,
whether or not that succeeds. -/
def swapStaged (staged : DirEntries) (live : Option DirEntries) : Bool × Option DirEntries :=
  let left := match live with
    | some entries => (removeDirAll w.removing entries).2
    | none => none
  if w.rename.isSome ∨ ¬ (left = none ∨ left = some .nil) then (false, left)
  else (true, some staged)

/-- Whether the package was restored from the remote cache, and what lies there then. -/
def tryRestore (live : Option DirEntries) : Bool × Option DirEntries :=
  match remoteBody w with
  | none => (false, live)
  | some bytes =>
      if w.createStaging.isSome then (false, live)
      else
        match w.unpack bytes with
        | .error _ => (false, live)
        | .ok staged => swapStaged w staged live

/-- The directory after its marker was written, in full or in part. -/
def withMarker (text : Option OsBytes) (live : Option DirEntries) : Option DirEntries :=
  live.map fun entries =>
    match text with
    | some bytes => (entries.put sideEffectsCacheMarker bytes).getD entries
    | none => entries

/-- Restore a package whose inputs have a hash. A restored package is also kept as a
local slot, which leaves the package as it is. -/
def restoreIfAvailable (inputHash : String) (slot live : Option DirEntries) :
    Except CacheError SideEffectsCacheRestore × Option DirEntries :=
  if markerMatches w.markerText inputHash ∧ slot.isSome then (.ok .alreadyApplied, live)
  else
    match slot with
    | some source =>
        match copyDir w.removing w.copying source live with
        | (some error, left) => (.error error, left)
        | (none, restored) => (.ok .restored, restored)
    | none =>
        match tryRestore w live with
        | (false, left) => (.ok .miss, left)
        | (true, restored) =>
            match w.writeMarker with
            | some (reason, kept) =>
                (.error (.writeFile [sideEffectsCacheMarker] reason), withMarker kept restored)
            | none => (.ok .restored, withMarker (some (Text.utf8 inputHash)) restored)

end Restore

section Copied

variable (faults : Faults)

/-- The copy ends at this entry. -/
def stopsAt : List OsBytes × Item OsBytes OsBytes → Bool
  | (place, .file _) => ((faults.attempt fileOps place).or (faults.attempt [.copyFile] place)).isSome
  | (place, .link _) => (faults.attempt linkOps place).isSome
  | (place, .dir) => ((faults.attempt dirOps place).or (faults.attempt [.readDir] place)).isSome

/-- What the entry at which the copy ends leaves behind. -/
def leftAt : List OsBytes × Item OsBytes OsBytes → List (List OsBytes × Item OsBytes OsBytes)
  | (place, .file _) =>
      if (faults.attempt fileOps place).isSome then []
      else (faults.leftover place).toList.map fun bytes => (place, .file bytes)
  | (_, .link _) => []
  | (place, .dir) => if (faults.attempt dirOps place).isSome then [] else [(place, .dir)]

variable {faults} {place : List OsBytes}

theorem stopsAt_file (content : OsBytes) : stopsAt faults (place, .file content) =
    ((faults.attempt fileOps place).or (faults.attempt [.copyFile] place)).isSome := rfl

theorem stopsAt_link (target : OsBytes) : stopsAt faults (place, .link target) =
    (faults.attempt linkOps place).isSome := rfl

theorem stopsAt_dir : stopsAt faults (place, .dir) =
    ((faults.attempt dirOps place).or (faults.attempt [.readDir] place)).isSome := rfl

/-- A copy is whole exactly if it ends at no entry, and holds the entries before the
one it ends at. -/
theorem copyDirInner_items (entries : DirEntries) (place : List OsBytes) :
    ((copyDirInner faults place entries).1 = none ↔
      ∀ entry ∈ entries.items place, stopsAt faults entry = false) ∧
    (copyDirInner faults place entries).2.items place =
      BrokenOff.run (stopsAt faults) (leftAt faults) (entries.items place) := by
  induction entries generalizing place with
  | nil => exact ⟨by simp [copyDirInner, Listing.items], rfl⟩
  | file name content rest ih =>
      have ih := ih place
      simp only [copyDirInner, Listing.items, BrokenOff.run, List.forall_mem_cons, stopsAt_file]
      cases hops : faults.attempt fileOps (place ++ [name]) with
      | some error => simp [Listing.items, leftAt, hops]
      | none =>
          cases hcopy : faults.attempt [.copyFile] (place ++ [name]) with
          | some error =>
              cases hleft : faults.leftover (place ++ [name]) with
              | some bytes => simp [Listing.items, leftAt, hops, hleft]
              | none => simp [Listing.items, leftAt, hops, hleft]
          | none => simpa [Listing.items] using ih
  | link name target rest ih =>
      have ih := ih place
      simp only [copyDirInner, Listing.items, BrokenOff.run, List.forall_mem_cons, stopsAt_link]
      cases hops : faults.attempt linkOps (place ++ [name]) with
      | some error => simp [Listing.items, leftAt]
      | none => simpa [Listing.items] using ih
  | dir name entries rest ihEntries ih =>
      have ih := ih place
      have ihEntries := ihEntries (place ++ [name])
      simp only [copyDirInner, Listing.items, BrokenOff.run, List.forall_mem_cons, stopsAt_dir]
      cases hops : faults.attempt dirOps (place ++ [name]) with
      | some error => simp [Listing.items, leftAt, hops]
      | none =>
          cases hread : faults.attempt [.readDir] (place ++ [name]) with
          | some error => simp [Listing.items, leftAt, hops]
          | none =>
              cases hbelow : copyDirInner faults (place ++ [name]) entries with
              | mk failed below =>
                  rw [hbelow] at ihEntries
                  cases failed with
                  | some error =>
                      have hstops : ¬ ∀ entry ∈ entries.items (place ++ [name]),
                          stopsAt faults entry = false :=
                        fun hall => absurd (ihEntries.1.mpr hall) (by simp)
                      have hall : ¬ ∀ entry ∈ entries.items (place ++ [name]) ++ rest.items place,
                          stopsAt faults entry = false :=
                        fun hall => hstops fun entry hentry =>
                          hall entry (List.mem_append_left _ hentry)
                      rw [BrokenOff.run_append_of_stops hstops]
                      refine ⟨iff_of_false (by simp) (fun h => hall h.2), ?_⟩
                      simp [Listing.items, ihEntries.2]
                  | none =>
                      have hfree := ihEntries.1.mp rfl
                      rw [BrokenOff.run_append_of_free hfree]
                      refine ⟨?_, ?_⟩
                      · rw [List.forall_mem_append, and_iff_right hfree, ih.1]
                        simp
                      · have hwhole := ihEntries.2
                        rw [BrokenOff.run_of_free hfree] at hwhole
                        simp [Listing.items, hwhole, ih.2]

end Copied

/-- The same entries with the same contents, in whatever order the disk lists them. -/
def HoldsSame : Option DirEntries → Option DirEntries → Prop
  | none, none => True
  | some entries, some others => (entries.items []).Perm (others.items [])
  | _, _ => False

theorem HoldsSame.refl (live : Option DirEntries) : HoldsSame live live := by
  cases live with
  | none => trivial
  | some entries => exact List.Perm.refl _

section Removed

variable (faults : Faults)

/-- Removing the entries fails before any of them is gone. -/
def StopsFirst (place : List OsBytes) : DirEntries → Prop
  | .nil => False
  | .file name _ _ => (faults.reason .removeFile (place ++ [name])).isSome
  | .link name _ _ => (faults.reason .removeFile (place ++ [name])).isSome
  | .dir name entries _ => (faults.reason .readDir (place ++ [name])).isSome ∨
      StopsFirst (place ++ [name]) entries ∨
      (entries = .nil ∧ (faults.reason .removeDir (place ++ [name])).isSome)

/-- Removing a directory fails before anything is gone. -/
def StaysWhole (entries : DirEntries) : Prop :=
  (faults.reason .readDir []).isSome ∨ StopsFirst faults [] entries ∨
    (entries = .nil ∧ (faults.reason .removeDir []).isSome)

variable {faults}

theorem removeEntries_length (entries : DirEntries) (place : List OsBytes) :
    ((removeEntries faults place entries).2.items place).length ≤
      (entries.items place).length := by
  induction entries generalizing place with
  | nil => exact Nat.le_refl _
  | file name content rest ih =>
      simp only [removeEntries]
      split
      · exact Nat.le_refl _
      · exact Nat.le_succ_of_le (ih place)
  | link name target rest ih =>
      simp only [removeEntries]
      split
      · exact Nat.le_refl _
      · exact Nat.le_succ_of_le (ih place)
  | dir name below rest ihBelow ih =>
      have ih := ih place
      have ihBelow := ihBelow (place ++ [name])
      simp only [removeEntries]
      split
      · exact Nat.le_refl _
      · split
        next reason left hleft =>
            simp only [hleft] at ihBelow
            simp only [Listing.items, List.length_cons, List.length_append]
            omega
        next =>
            split
            · simp only [Listing.items, List.length_cons, List.length_append, List.length_nil]
              omega
            · simp only [Listing.items, List.length_cons, List.length_append]
              omega

/-- A removal that stops at the first entry leaves all of them. -/
theorem removeEntries_of_stopsFirst {entries : DirEntries} {place : List OsBytes}
    (h : StopsFirst faults place entries) :
    ∃ reason, removeEntries faults place entries = (some reason, entries) := by
  induction entries generalizing place with
  | nil => exact h.elim
  | file name content rest _ =>
      obtain ⟨reason, hreason⟩ := Option.isSome_iff_exists.mp h
      exact ⟨reason, by simp only [removeEntries, hreason]⟩
  | link name target rest _ =>
      obtain ⟨reason, hreason⟩ := Option.isSome_iff_exists.mp h
      exact ⟨reason, by simp only [removeEntries, hreason]⟩
  | dir name below rest ihBelow _ =>
      cases hread : faults.reason .readDir (place ++ [name]) with
      | some reason => exact ⟨reason, by simp only [removeEntries, hread]⟩
      | none =>
          simp only [StopsFirst, hread, Option.isSome_none, Bool.false_eq_true, false_or] at h
          cases h with
          | inl hbelow =>
              obtain ⟨reason, hreason⟩ := ihBelow hbelow
              exact ⟨reason, by simp only [removeEntries, hread, hreason]⟩
          | inr hempty =>
              obtain ⟨reason, hreason⟩ := Option.isSome_iff_exists.mp hempty.2
              exact ⟨reason, by simp only [hempty.1, removeEntries, hread, hreason]⟩

/-- Any other removal that fails leaves fewer entries. -/
theorem removeEntries_of_not_stopsFirst {entries left : DirEntries} {place : List OsBytes}
    {reason : String} (h : ¬ StopsFirst faults place entries)
    (hfail : removeEntries faults place entries = (some reason, left)) :
    (left.items place).length < (entries.items place).length := by
  induction entries generalizing place left with
  | nil => cases hfail
  | file name content rest _ =>
      simp only [StopsFirst, Bool.not_eq_true, Option.isSome_eq_false_iff, Option.isNone_iff_eq_none] at h
      simp only [removeEntries, h] at hfail
      have hlength := @removeEntries_length faults rest place
      rw [hfail] at hlength
      exact Nat.lt_succ_of_le hlength
  | link name target rest _ =>
      simp only [StopsFirst, Bool.not_eq_true, Option.isSome_eq_false_iff, Option.isNone_iff_eq_none] at h
      simp only [removeEntries, h] at hfail
      have hlength := @removeEntries_length faults rest place
      rw [hfail] at hlength
      exact Nat.lt_succ_of_le hlength
  | dir name below rest ihBelow _ =>
      simp only [StopsFirst, not_or, Bool.not_eq_true, Option.isSome_eq_false_iff,
        Option.isNone_iff_eq_none] at h
      obtain ⟨hread, hbelow, hempty⟩ := h
      simp only [removeEntries, hread] at hfail
      split at hfail
      next other belowLeft hother =>
          cases hfail
          have hlength := ihBelow hbelow hother
          simp only [Listing.items, List.length_cons, List.length_append]
          omega
      next =>
          split at hfail
          next other hother =>
              cases hfail
              have hne : below ≠ .nil := fun heq => hempty ⟨heq, by rw [hother]; rfl⟩
              have hpos : 0 < (below.items (place ++ [name])).length := by
                cases below with
                | nil => exact absurd rfl hne
                | file | link | dir => exact Nat.succ_pos _
              simp only [Listing.items, List.length_cons, List.length_append, List.length_nil]
              omega
          next =>
              have hlength := @removeEntries_length faults rest place
              simp only [hfail] at hlength
              simp only [Listing.items, List.length_cons, List.length_append]
              omega

/-- A failed removal leaves the same entries exactly if it fails before anything is
gone. -/
theorem removeDirAll_holdsSame_iff (entries : DirEntries) :
    HoldsSame (removeDirAll faults entries).2 (some entries) ↔ StaysWhole faults entries := by
  unfold removeDirAll StaysWhole
  cases hread : faults.reason .readDir [] with
  | some reason => exact iff_of_true (HoldsSame.refl _) (.inl rfl)
  | none =>
      simp only [Option.isSome_none, Bool.false_eq_true, false_or]
      by_cases hstops : StopsFirst faults [] entries
      · obtain ⟨reason, hreason⟩ := removeEntries_of_stopsFirst hstops
        simp only [hreason]
        exact iff_of_true (HoldsSame.refl _) (.inl hstops)
      · cases hremoved : removeEntries faults [] entries with
        | mk failed left =>
            cases failed with
            | some reason =>
                have hlength := removeEntries_of_not_stopsFirst hstops hremoved
                refine iff_of_false (fun hsame => ?_) ?_
                · exact absurd hsame.length_eq (Nat.ne_of_lt hlength)
                · rintro (h | ⟨hnil, -⟩)
                  · exact hstops h
                  · rw [hnil] at hremoved
                    cases hremoved
            | none =>
                simp only [hstops, false_or]
                cases hroot : faults.reason .removeDir [] with
                | none => exact iff_of_false id (by simp)
                | some reason =>
                    simp only [Option.isSome_some, and_true]
                    constructor
                    · intro hsame
                      have hlength := hsame.length_eq
                      cases entries with
                      | nil => rfl
                      | file | link | dir => cases hlength
                    · intro hnil
                      rw [hnil]
                      exact HoldsSame.refl _

theorem removePath_holdsSame_iff (entries : DirEntries) :
    HoldsSame (removePath faults entries).2 (some entries) ↔
      (faults.attempt [.symlinkMetadata] []).isSome ∨ StaysWhole faults entries := by
  unfold removePath
  cases faults.attempt [.symlinkMetadata] [] with
  | some error => exact iff_of_true (HoldsSame.refl _) (.inl rfl)
  | none => simpa using removeDirAll_holdsSame_iff entries

/-- What stays whole was not removed. -/
theorem removeDirAll_of_staysWhole {entries : DirEntries} (h : StaysWhole faults entries) :
    (removeDirAll faults entries).1.isSome := by
  have hsame := (removeDirAll_holdsSame_iff entries).mpr h
  unfold removeDirAll at hsame ⊢
  split
  · rfl
  · split
    · rfl
    · split
      · rfl
      · simp_all [HoldsSame]

theorem removePath_of_kept {entries : DirEntries}
    (h : (faults.attempt [.symlinkMetadata] []).isSome ∨ StaysWhole faults entries) :
    (removePath faults entries).1.isSome := by
  unfold removePath
  cases hattempt : faults.attempt [.symlinkMetadata] [] with
  | some error => rfl
  | none =>
      rw [hattempt] at h
      have hremoved := removeDirAll_of_staysWhole (h.resolve_left (by simp))
      simpa using hremoved

end Removed

section Kept

variable (w : RestoreWorld)

/-- After an error or a miss the package directory holds what it held. -/
def KeptOnFailure (result : Except CacheError SideEffectsCacheRestore × Option DirEntries)
    (live : Option DirEntries) : Prop :=
  match result.1 with
  | .ok .restored => True
  | .ok .alreadyApplied => True
  | _ => HoldsSame result.2 live

/-- A local restore does no harm: removing the package fails before anything is gone,
or the package is removed and the slot copied whole, or the package held just what
the slot has before the entry at which the copy ends. -/
def LocalKept (source : DirEntries) (live : Option DirEntries) : Prop :=
  (∃ entries, live = some entries ∧
    ((w.removing.attempt [.symlinkMetadata] []).isSome ∨ StaysWhole w.removing entries)) ∨
  ((∀ entries, live = some entries → (removePath w.removing entries).1 = none) ∧
    if (w.copying.attempt [.createDir] []).isSome then live = none
    else if (w.copying.attempt [.readDir] []).isSome then live = some .nil
    else (∀ entry ∈ (source.sorted nameBefore).items [], stopsAt w.copying entry = false) ∨
      ∃ entries, live = some entries ∧
        (BrokenOff.run (stopsAt w.copying) (leftAt w.copying)
          ((source.sorted nameBefore).items [])).Perm (entries.items []))

/-- The package can be removed, at least up to the directory itself, and the staged
one renamed. -/
def CanSwap (live : Option DirEntries) : Prop :=
  w.rename = none ∧ ∀ entries, live = some entries →
    (removeDirAll w.removing entries).2 = none ∨ (removeDirAll w.removing entries).2 = some .nil

/-- The archive, when it arrived and could be decoded. -/
def stagedArchive : Option DirEntries :=
  (remoteBody w).bind fun bytes =>
    if w.createStaging.isSome then none else (w.unpack bytes).toOption

/-- A remote restore does no harm: once the archive is staged, it takes the place of
the package and its marker is written, or nothing was removed. -/
def RemoteKept (live : Option DirEntries) : Prop :=
  ∀ staged, stagedArchive w = some staged →
    (CanSwap w live → ∀ fault, w.writeMarker = some fault →
      HoldsSame (withMarker fault.2 (some staged)) live) ∧
    (¬ CanSwap w live → ∀ entries, live = some entries → StaysWhole w.removing entries)

variable {w}

theorem holdsSame_nil_iff (live : Option DirEntries) :
    HoldsSame (some .nil) live ↔ live = some .nil := by
  cases live with
  | none => exact iff_of_false id (by simp)
  | some entries =>
      constructor
      · intro hsame
        have hlength := hsame.length_eq
        cases entries with
        | nil => rfl
        | file | link | dir => cases hlength
      · intro heq
        rw [heq]
        exact HoldsSame.refl _

theorem holdsSame_none_iff (live : Option DirEntries) : HoldsSame none live ↔ live = none := by
  cases live with
  | none => exact iff_of_true trivial rfl
  | some entries => exact iff_of_false id (by simp)

theorem copyAll_kept_iff (copying : Faults) (source : DirEntries) (live : Option DirEntries) :
    (∀ error left, copyAll copying source = (some error, left) → HoldsSame left live) ↔
      if (copying.attempt [.createDir] []).isSome then live = none
      else if (copying.attempt [.readDir] []).isSome then live = some .nil
      else (∀ entry ∈ (source.sorted nameBefore).items [], stopsAt copying entry = false) ∨
        ∃ entries, live = some entries ∧
          (BrokenOff.run (stopsAt copying) (leftAt copying)
            ((source.sorted nameBefore).items [])).Perm (entries.items []) := by
  unfold copyAll
  cases copying.attempt [.createDir] [] with
  | some error => simp [holdsSame_none_iff]
  | none =>
      cases copying.attempt [.readDir] [] with
      | some error => simp [holdsSame_nil_iff]
      | none =>
          obtain ⟨hwhole, hitems⟩ := @copyDirInner_items copying (source.sorted nameBefore) []
          simp only [Option.isSome_none, Bool.false_eq_true, if_false, ← hwhole, ← hitems]
          cases hcopied : copyDirInner copying [] (source.sorted nameBefore) with
          | mk failed copied =>
              cases failed with
              | none => simp
              | some error =>
                  cases live with
                  | none => simp [HoldsSame]
                  | some entries => simp [HoldsSame]

theorem copyDir_kept_iff (source : DirEntries) (live : Option DirEntries) :
    (∀ error left, copyDir w.removing w.copying source live = (some error, left) →
      HoldsSame left live) ↔ LocalKept w source live := by
  unfold LocalKept
  rw [← copyAll_kept_iff]
  cases live with
  | none => simp [copyDir]
  | some entries =>
      simp only [copyDir, Option.some.injEq, exists_eq_left', forall_eq']
      rw [← removePath_holdsSame_iff]
      cases hremoved : removePath w.removing entries with
      | mk failed left =>
          cases failed with
          | some error => simp
          | none =>
              have hgone : ¬ HoldsSame left (some entries) := by
                intro hsame
                have hkept := (removePath_holdsSame_iff entries).mp (by rw [hremoved]; exact hsame)
                have hfailed := removePath_of_kept hkept
                rw [hremoved] at hfailed
                cases hfailed
              simp [hgone]

theorem swapStaged_of_canSwap {staged : DirEntries} {live : Option DirEntries}
    (h : CanSwap w live) : swapStaged w staged live = (true, some staged) := by
  unfold swapStaged
  cases live with
  | none => simp [h.1]
  | some entries => simp [h.1, h.2 entries rfl]

theorem swapStaged_of_not_canSwap {staged : DirEntries} {live : Option DirEntries}
    (h : ¬ CanSwap w live) : swapStaged w staged live =
      (false, live.bind fun entries => (removeDirAll w.removing entries).2) := by
  unfold swapStaged
  cases live with
  | none =>
      have hrename : w.rename.isSome := by
        by_contra hnone
        exact h ⟨by simpa using hnone, by simp⟩
      simp [hrename]
  | some entries =>
      have hblocked : w.rename.isSome ∨ ¬ ((removeDirAll w.removing entries).2 = none ∨
          (removeDirAll w.removing entries).2 = some .nil) := by
        by_contra hnone
        rw [not_or, not_not] at hnone
        exact h ⟨by simpa using hnone.1, fun other hother => by cases hother; exact hnone.2⟩
      simp only [if_pos hblocked, Option.bind_some]

theorem tryRestore_eq (live : Option DirEntries) :
    tryRestore w live =
      match stagedArchive w with
      | none => (false, live)
      | some staged => swapStaged w staged live := by
  unfold tryRestore stagedArchive
  cases remoteBody w with
  | none => rfl
  | some bytes =>
      cases w.createStaging with
      | some reason => rfl
      | none =>
          cases hunpack : w.unpack bytes with
          | error reason => simp [hunpack, Except.toOption]
          | ok staged => simp [hunpack, Except.toOption]

theorem remote_kept_iff (w : RestoreWorld) (inputHash : String) (live : Option DirEntries) :
    KeptOnFailure
        (match tryRestore w live with
        | (false, left) => (.ok .miss, left)
        | (true, restored) =>
            match w.writeMarker with
            | some (reason, kept) =>
                (.error (.writeFile [sideEffectsCacheMarker] reason), withMarker kept restored)
            | none => (.ok .restored, withMarker (some (Text.utf8 inputHash)) restored)) live ↔
      RemoteKept w live := by
  rw [tryRestore_eq, RemoteKept]
  cases stagedArchive w with
  | none => simpa [KeptOnFailure] using HoldsSame.refl live
  | some staged =>
      simp only [Option.some.injEq, forall_eq']
      by_cases hswap : CanSwap w live
      · rw [swapStaged_of_canSwap hswap]
        cases w.writeMarker with
        | none => simp [KeptOnFailure, hswap]
        | some fault => simp [KeptOnFailure, hswap]
      · rw [swapStaged_of_not_canSwap hswap]
        cases live with
        | none => simp [KeptOnFailure, HoldsSame, hswap]
        | some entries => simp [KeptOnFailure, hswap, removeDirAll_holdsSame_iff]

/-- After an error or a miss the package is what it was exactly if a local restore does
no harm, where there is a slot, and a remote one elsewhere. -/
theorem restore_keeps_iff (w : RestoreWorld) (inputHash : String)
    (slot live : Option DirEntries) :
    KeptOnFailure (restoreIfAvailable w inputHash slot live) live ↔
      (markerMatches w.markerText inputHash ∧ slot.isSome) ∨
        (∃ source, slot = some source ∧ LocalKept w source live) ∨
        (slot = none ∧ RemoteKept w live) := by
  unfold restoreIfAvailable
  by_cases happlied : markerMatches w.markerText inputHash ∧ slot.isSome
  · rw [if_pos happlied]
    exact iff_of_true trivial (.inl happlied)
  · rw [if_neg happlied, or_iff_right happlied]
    cases slot with
    | some source =>
        simp only [Option.some.injEq, exists_eq_left', reduceCtorEq, false_and, or_false]
        rw [← copyDir_kept_iff]
        cases copyDir w.removing w.copying source live with
        | mk failed left =>
            cases failed with
            | some error => simp [KeptOnFailure]
            | none => simp [KeptOnFailure]
    | none =>
        simp only [reduceCtorEq, false_and, exists_false, true_and, false_or]
        exact remote_kept_iff w inputHash live

/-- A disk on which nothing fails but the look at the target of one link. -/
def danglingWorld (link : OsBytes) : RestoreWorld where
  markerText := none
  removing := ⟨fun _ _ => none, fun _ => none⟩
  copying := ⟨fun op place =>
    if op = .metadata ∧ place = [link] then some "No such file or directory" else none, fun _ => none⟩
  remote := none
  createStaging := none
  unpack := fun _ => .error "no archive"
  rename := none
  writeMarker := none

/-- A slot with a link whose target lay beside the package and not beside the slot: the
package is gone, and the entries before the link are in its place. -/
theorem dangling_link_destroys :
    restoreIfAvailable (danglingWorld [108]) "hash"
        (some (.file [97] [1] (.link [108] [46, 46, 47, 100] (.file [109] [2] .nil))))
        (some (.file [105] [3] .nil)) =
      (.error (.readFile [[108]] "No such file or directory"), some (.file [97] [1] .nil)) ∧
    ¬ KeptOnFailure (restoreIfAvailable (danglingWorld [108]) "hash"
        (some (.file [97] [1] (.link [108] [46, 46, 47, 100] (.file [109] [2] .nil))))
        (some (.file [105] [3] .nil))) (some (.file [105] [3] .nil)) := by
  have hresult : restoreIfAvailable (danglingWorld [108]) "hash"
      (some (.file [97] [1] (.link [108] [46, 46, 47, 100] (.file [109] [2] .nil))))
      (some (.file [105] [3] .nil)) =
        (.error (.readFile [[108]] "No such file or directory"), some (.file [97] [1] .nil)) := by
    rfl
  refine ⟨hresult, ?_⟩
  rw [hresult]
  intro hsame
  have hperm : ((Listing.file [97] [1] .nil : DirEntries).items []).Perm
      ((Listing.file [105] [3] .nil : DirEntries).items []) := hsame
  have hmem := hperm.mem_iff.mp List.mem_cons_self
  simp [Listing.items] at hmem

end Kept

end Snpm.Lifecycle
