import Mathlib
import Snpm.Library.DirOrder
import Snpm.Library.LossyText
import Snpm.Library.TaggedStream
import Snpm.Protocols.GitRepo
import Snpm.Store.Integrity

/-!
The input hash of the side-effects cache. A package directory is hashed entry by
entry, in the order of the names: the relative path, the kind and what the entry
holds. Nothing marks the end of a file, so contents may look like later entries.
-/
namespace Snpm.Lifecycle

open DirTree TaggedStream

/-- The bytes of a file name, a content or a link target. -/
abbrev OsBytes := List UInt8

inductive EntryKind where
  | symlink
  | dir
  | file
deriving DecidableEq

def EntryKind.word : EntryKind → OsBytes
  | .symlink => Text.utf8 "symlink"
  | .dir => Text.utf8 "dir"
  | .file => Text.utf8 "file"

/-- The order of two names in one directory. -/
def nameBefore : OsBytes → OsBytes → Bool
  | _, [] => false
  | [], _ :: _ => true
  | a :: as, b :: bs => a.toNat < b.toNat || (a = b && nameBefore as bs)

def sideEffectsCacheMarker : OsBytes := Text.utf8 ".snpm-side-effects-cache"

/-- A package directory as it is read: names are neither empty nor repeated and
contain no slash and no NUL. -/
structure PackageDir where
  entries : Listing OsBytes OsBytes OsBytes
  distinct : entries.Distinct
  names : ∀ name ∈ entries.allNames, name ≠ [] ∧ (0 : UInt8) ∉ name ∧ (47 : UInt8) ∉ name

/-- The path below the package, as text. -/
def relativeText (place : List OsBytes) : String :=
  Text.replaceChar (Text.fromUtf8Lossy ([47].intercalate place)) '\\' '/'

/-- What is fed to the hasher for each entry; the marker is left out wherever it is. -/
def hashDirInner (place : List OsBytes) :
    Listing OsBytes OsBytes OsBytes → List (Record UInt8 EntryKind)
  | .nil => []
  | .file name content rest =>
      if name = sideEffectsCacheMarker then hashDirInner place rest
      else ⟨Text.utf8 (relativeText (place ++ [name])), .file, content⟩ ::
        hashDirInner place rest
  | .link name target rest =>
      if name = sideEffectsCacheMarker then hashDirInner place rest
      else ⟨Text.utf8 (relativeText (place ++ [name])), .symlink,
          Text.utf8 (Text.fromUtf8Lossy target)⟩ ::
        hashDirInner place rest
  | .dir name entries rest =>
      if name = sideEffectsCacheMarker then hashDirInner place rest
      else ⟨Text.utf8 (relativeText (place ++ [name])), .dir, []⟩ ::
        (hashDirInner (place ++ [name]) entries ++ hashDirInner place rest)

namespace PackageDir

def records (d : PackageDir) : List (Record UInt8 EntryKind) :=
  hashDirInner [] (d.entries.sorted nameBefore)

/-- The byte sequence that the hasher gets. -/
def hashBytes (d : PackageDir) : OsBytes := stream 0 EntryKind.word d.records

def hashDir (sha512 : OsBytes → OsBytes) (d : PackageDir) : String :=
  Store.hexEncode (sha512 d.hashBytes)

/-- Everything in the package but its marker, in the order of the names. -/
def listing (d : PackageDir) : Listing OsBytes OsBytes OsBytes :=
  (d.entries.sorted nameBefore).without sideEffectsCacheMarker

/-- The same entries with the same contents, the marker of the package apart. -/
def Same (d e : PackageDir) : Prop := d.listing = e.listing

end PackageDir

def safeName (name : String) : String :=
  String.ofList (name.toList.flatMap fun c => if c = '/' then ['_', '_'] else [c])

/-- Where the artifacts of a package are kept. -/
def slotPath (sideEffectsCacheDir : PathBuf) (platform name version inputHash : String) : PathBuf :=
  ((sideEffectsCacheDir.join platform).join (safeName name ++ "@" ++ version)).join inputHash

section Bytes

theorem nul_not_mem_utf8 {s : String} (h : '\x00' ∉ s.toList) : (0 : UInt8) ∉ Text.utf8 s := by
  rw [← String.ofList_toList (s := s), Text.utf8_ofList, List.mem_flatMap]
  rintro ⟨c, hc, hzero⟩
  by_cases hascii : c.toNat < 128
  · rw [Text.utf8EncodeChar_ascii hascii, List.mem_singleton] at hzero
    have hnat := congrArg UInt8.toNat hzero
    rw [UInt8.toNat_ofNat'] at hnat
    have hnul : c.toNat = Char.toNat '\x00' := by
      have hz : Char.toNat '\x00' = 0 := rfl
      simp only [UInt8.toNat_zero] at hnat
      omega
    exact h (Char.toNat_inj.mp hnul ▸ hc)
  · have hbig := (Text.utf8EncodeChar_wide (by omega)).2 0 hzero
    simp at hbig

theorem mem_intercalate {sep b : UInt8} {parts : List OsBytes}
    (h : b ∈ [sep].intercalate parts) : b = sep ∨ ∃ part ∈ parts, b ∈ part := by
  induction parts with
  | nil => cases h
  | cons part parts ih =>
      cases parts with
      | nil =>
          rw [List.intercalate_singleton] at h
          exact .inr ⟨part, List.mem_cons_self, h⟩
      | cons next parts =>
          rw [List.intercalate_cons_cons, List.mem_append, List.mem_append,
            List.mem_singleton] at h
          rcases h with (hpart | hsep) | hrest
          · exact .inr ⟨part, List.mem_cons_self, hpart⟩
          · exact .inl hsep
          · exact (ih hrest).imp_right fun ⟨other, hother, hb⟩ =>
              ⟨other, List.mem_cons_of_mem _ hother, hb⟩

theorem nul_not_mem_relativeText {place : List OsBytes} (h : ∀ name ∈ place, (0 : UInt8) ∉ name) :
    (0 : UInt8) ∉ Text.utf8 (relativeText place) := by
  have hjoined : (0 : UInt8) ∉ [47].intercalate place := by
    intro hzero
    cases mem_intercalate hzero with
    | inl hsep => cases hsep
    | inr hpart =>
        obtain ⟨name, hname, hmem⟩ := hpart
        exact h name hname hmem
  apply nul_not_mem_utf8
  unfold relativeText Text.replaceChar
  rw [String.toList_ofList, List.mem_map]
  rintro ⟨c, hc, hnul⟩
  split at hnul
  next => cases hnul
  next =>
      subst hnul
      unfold Text.fromUtf8Lossy at hc
      rw [String.toList_ofList] at hc
      exact Text.nul_not_mem_lossyChars hjoined none (by simp) hc

theorem word_injective : Function.Injective EntryKind.word := by
  intro a b h
  cases a <;> cases b <;> first | rfl | exact absurd h (by decide +kernel)

theorem nul_not_mem_word (kind : EntryKind) : (0 : UInt8) ∉ kind.word := by
  cases kind <;> decide +kernel

end Bytes

section Entries

variable {l : Listing OsBytes OsBytes OsBytes} {place : List OsBytes}

/-- What is hashed for an entry at a place. -/
def print (entry : List OsBytes × Item OsBytes OsBytes) : Record UInt8 EntryKind :=
  match entry.2 with
  | .file content => ⟨Text.utf8 (relativeText entry.1), .file, content⟩
  | .link target =>
      ⟨Text.utf8 (relativeText entry.1), .symlink, Text.utf8 (Text.fromUtf8Lossy target)⟩
  | .dir => ⟨Text.utf8 (relativeText entry.1), .dir, []⟩

/-- Whether no name of the place is the marker's. -/
def shown (entry : List OsBytes × Item OsBytes OsBytes) : Bool :=
  !entry.1.contains sideEffectsCacheMarker

theorem print_key (entry : List OsBytes × Item OsBytes OsBytes) :
    (print entry).key = Text.utf8 (relativeText entry.1) := by
  unfold print
  split <;> rfl

/-- The hashed records are those of the entries that are shown. -/
theorem hashDirInner_eq (hplace : sideEffectsCacheMarker ∉ place) :
    hashDirInner place l = ((l.items place).filter shown).map print := by
  induction l generalizing place with
  | nil => rfl
  | file name content rest ih =>
      simp only [hashDirInner, Listing.items, List.filter_cons]
      by_cases hname : name = sideEffectsCacheMarker
      · have hhidden : shown (place ++ [name], .file content) = false := by
          simp [shown, hname]
        rw [if_pos hname, hhidden, if_neg Bool.false_ne_true, ih hplace]
      · have hshown : shown (place ++ [name], .file content) = true := by
          simp [shown, hplace, Ne.symm hname]
        rw [if_neg hname, hshown, if_pos rfl, List.map_cons, ih hplace]
        rfl
  | link name target rest ih =>
      simp only [hashDirInner, Listing.items, List.filter_cons]
      by_cases hname : name = sideEffectsCacheMarker
      · have hhidden : shown (place ++ [name], .link target) = false := by
          simp [shown, hname]
        rw [if_pos hname, hhidden, if_neg Bool.false_ne_true, ih hplace]
      · have hshown : shown (place ++ [name], .link target) = true := by
          simp [shown, hplace, Ne.symm hname]
        rw [if_neg hname, hshown, if_pos rfl, List.map_cons, ih hplace]
        rfl
  | dir name entries rest ihEntries ih =>
      simp only [hashDirInner, Listing.items, List.filter_cons, List.filter_append]
      by_cases hname : name = sideEffectsCacheMarker
      · have hhidden : shown (place ++ [name], .dir) = false := by
          simp [shown, hname]
        have hinside : (entries.items (place ++ [name])).filter shown = [] := by
          rw [List.filter_eq_nil_iff]
          intro entry hentry
          have hmarker := (Listing.mem_place_of_mem_items hentry).1 name (by simp)
          simp [shown, ← hname, hmarker]
        rw [if_pos hname, hhidden, if_neg Bool.false_ne_true, hinside, List.nil_append, ih hplace]
      · have hshown : shown (place ++ [name], .dir) = true := by
          simp [shown, hplace, Ne.symm hname]
        have hbelow : sideEffectsCacheMarker ∉ place ++ [name] := by
          simp [hplace, Ne.symm hname]
        rw [if_neg hname, hshown, if_pos rfl, List.map_cons, List.map_append, ihEntries hbelow,
          ih hplace]
        rfl

end Entries

namespace PackageDir

variable {d e : PackageDir}

/-- The entries of a package but its marker, with their places. -/
def items (d : PackageDir) : List (List OsBytes × Item OsBytes OsBytes) := d.listing.items []

theorem same_iff : d.Same e ↔ d.items = e.items :=
  ⟨fun h => congrArg (Listing.items []) h, Listing.items_injective⟩

theorem records_eq (d : PackageDir) : d.records = (d.items.filter shown).map print := by
  unfold records items listing
  rw [hashDirInner_eq List.not_mem_nil, Listing.filter_items_without]
  intro entry hentry
  simp [shown, hentry]

theorem name_of_item {entry : List OsBytes × Item OsBytes OsBytes} (h : entry ∈ d.items)
    {name : OsBytes} (hname : name ∈ entry.1) :
    name ≠ [] ∧ (0 : UInt8) ∉ name ∧ (47 : UInt8) ∉ name := by
  apply d.names
  cases (Listing.mem_place_of_mem_items h).2 name hname with
  | inl hnil => cases hnil
  | inr hall => exact (Listing.mem_allNames_sorted _ _).mp (Listing.allNames_without hall)

theorem records_clean (d : PackageDir) : Clean 0 EntryKind.word d.records := by
  rw [records_eq]
  intro r hr
  obtain ⟨entry, hentry, rfl⟩ := List.mem_map.mp hr
  refine ⟨?_, nul_not_mem_word _⟩
  rw [print_key]
  exact nul_not_mem_relativeText fun name hname =>
    (name_of_item (List.mem_of_mem_filter hentry) hname).2.1

/-- The packages differ, and only in what is not printed: in entries under the
marker's name, in bytes that are not UTF-8 or between a slash and a backslash. -/
def Blurred (d e : PackageDir) : Prop :=
  d.items ≠ e.items ∧ (d.items.filter shown).map print = (e.items.filter shown).map print

/-- Entries that spill over, read off the records of two packages. -/
abbrev Spills (d e : PackageDir) : Prop := Spill 0 EntryKind.word d.records e.records

theorem hashBytes_eq_iff :
    d.hashBytes = e.hashBytes ↔ d.records = e.records ∨ d.Spills e ∨ e.Spills d :=
  stream_eq_iff word_injective d.records_clean e.records_clean

/-- What two packages promise each other: unequal ones are hashed from unequal bytes
and have different slots. -/
structure ToldApart (sha512 : OsBytes → OsBytes) (d e : PackageDir) : Prop where
  bytes : d.hashBytes = e.hashBytes → d.Same e
  slots : ∀ (cacheDir : PathBuf) (platform name version : String),
    slotPath cacheDir platform name version (d.hashDir sha512) =
      slotPath cacheDir platform name version (e.hashDir sha512) → d.Same e

theorem head?_hashDir (sha512 : OsBytes → OsBytes) (d : PackageDir) :
    (d.hashDir sha512).toList.head? ≠ some '/' :=
  fun h => Store.slash_not_mem_hexEncode _ (List.mem_of_mem_head? h)

/-- With a collision-free digest, two packages are told apart exactly when no content
or link target of one goes on where the other has further entries that are written the
same, and they do not differ merely in what is not printed. -/
theorem hash_dir_sound_iff {sha512 : OsBytes → OsBytes} (hsha : Function.Injective sha512)
    (d e : PackageDir) :
    ToldApart sha512 d e ↔ ¬d.Spills e ∧ ¬e.Spills d ∧ ¬Blurred d e := by
  constructor
  · intro h
    have hapart : d.Spills e ∨ e.Spills d → False := by
      intro hspills
      have hsame := same_iff.mp (h.bytes (hashBytes_eq_iff.mpr (.inr hspills)))
      have hrecords : d.records = e.records := by
        rw [records_eq, records_eq, hsame]
      unfold Spills at hspills
      rw [hrecords, or_self] at hspills
      exact not_spill_self _ hspills
    refine ⟨fun hspill => hapart (.inl hspill), fun hspill => hapart (.inr hspill), fun hblurred => ?_⟩
    have hrecords : d.records = e.records := by
      rw [records_eq, records_eq, hblurred.2]
    exact hblurred.1 (same_iff.mp (h.bytes (hashBytes_eq_iff.mpr (.inl hrecords))))
  · rintro ⟨hspill, hspill', hblurred⟩
    have hbytes : d.hashBytes = e.hashBytes → d.Same e := by
      intro hbytes
      rcases hashBytes_eq_iff.mp hbytes with hrecords | h | h
      · rw [same_iff]
        by_contra hne
        rw [records_eq, records_eq] at hrecords
        exact hblurred ⟨hne, hrecords⟩
      · exact absurd h hspill
      · exact absurd h hspill'
    refine ⟨hbytes, fun cacheDir platform name version hslot => hbytes ?_⟩
    have hhash := (Git.join_inj (head?_hashDir sha512 d) (head?_hashDir sha512 e)).mp hslot
    exact hsha (Store.hexEncode_inj hhash)

/-- Names and link targets that print as themselves, and no entry under the marker's
name. -/
structure Plain (d : PackageDir) : Prop where
  shown : ∀ entry ∈ d.items, sideEffectsCacheMarker ∉ entry.1
  places : ∀ entry ∈ d.items, Text.utf8 (relativeText entry.1) = [47].intercalate entry.1
  targets : ∀ place target, (place, .link target) ∈ d.items →
    Text.utf8 (Text.fromUtf8Lossy target) = target

theorem print_inj {a b : List OsBytes × Item OsBytes OsBytes} (hd : d.Plain) (he : e.Plain)
    (ha : a ∈ d.items) (hb : b ∈ e.items) (hne : a.1 ≠ [] ∧ b.1 ≠ []) (h : print a = print b) :
    a = b := by
  have hkey := congrArg Record.key h
  rw [print_key, print_key, hd.places a ha, he.places b hb] at hkey
  have hplace : a.1 = b.1 := by
    have hsplit := congrArg (List.splitOn 47) hkey
    rwa [List.splitOn_intercalate 47 (fun name hname => (name_of_item ha hname).2.2) hne.1,
      List.splitOn_intercalate 47 (fun name hname => (name_of_item hb hname).2.2) hne.2] at hsplit
  obtain ⟨place, item⟩ := a
  obtain ⟨place', item'⟩ := b
  dsimp only at hplace
  subst hplace
  cases item with
  | file content =>
      cases item' with
      | file content' =>
          have hcontent : content = content' := congrArg Record.payload h
          rw [hcontent]
      | link target => cases congrArg Record.tag h
      | dir => cases congrArg Record.tag h
  | link target =>
      cases item' with
      | file content => cases congrArg Record.tag h
      | link target' =>
          have htarget := congrArg Record.payload h
          simp only [print] at htarget
          rw [hd.targets _ _ ha, he.targets _ _ hb] at htarget
          rw [htarget]
      | dir => cases congrArg Record.tag h
  | dir =>
      cases item' with
      | file content => cases congrArg Record.tag h
      | link target => cases congrArg Record.tag h
      | dir => rfl

theorem eq_of_map_eq {α β : Type} {f : α → β} {xs ys : List α}
    (hinj : ∀ x ∈ xs, ∀ y ∈ ys, f x = f y → x = y) (h : xs.map f = ys.map f) : xs = ys := by
  induction xs generalizing ys with
  | nil =>
      cases ys with
      | nil => rfl
      | cons y ys => cases h
  | cons x xs ih =>
      cases ys with
      | nil => cases h
      | cons y ys =>
          rw [List.map_cons, List.map_cons, List.cons.injEq] at h
          rw [hinj x List.mem_cons_self y List.mem_cons_self h.1,
            ih (fun x hx y hy => hinj x (List.mem_cons_of_mem _ hx) y (List.mem_cons_of_mem _ hy))
              h.2]

theorem place_ne_nil {entry : List OsBytes × Item OsBytes OsBytes} (h : entry ∈ d.items) :
    entry.1 ≠ [] :=
  List.ne_nil_of_length_pos (Listing.length_place_of_mem_items h)

/-- Packages whose names and targets print as themselves are never blurred. -/
theorem not_blurred_of_plain (hd : d.Plain) (he : e.Plain) : ¬Blurred d e := by
  rintro ⟨hne, hprint⟩
  have hall : ∀ {f : PackageDir}, f.Plain → f.items.filter Lifecycle.shown = f.items := by
    intro f hf
    rw [List.filter_eq_self]
    intro entry hentry
    simp [Lifecycle.shown, hf.shown entry hentry]
  rw [hall hd, hall he] at hprint
  exact hne (eq_of_map_eq (fun a ha b hb =>
    print_inj hd he ha hb ⟨place_ne_nil ha, place_ne_nil hb⟩) hprint)

end PackageDir

section Examples

/-- A package with the files of the given contents, named `a`, `b` and so on. -/
def filesFrom : Nat → List String → Listing OsBytes OsBytes OsBytes
  | _, [] => .nil
  | n, content :: rest =>
      .file [UInt8.ofNat (97 + n)] (Text.utf8 content) (filesFrom (n + 1) rest)

/-- One file whose content ends like the entry of a second one. -/
def oneFile : PackageDir := ⟨filesFrom 0 ["x" ++ "b\x00file\x00y"],
  by simp [filesFrom, Listing.Distinct, Listing.names], by decide⟩

def twoFiles : PackageDir := ⟨filesFrom 0 ["x", "y"],
  by simp [filesFrom, Listing.Distinct, Listing.names], by decide⟩

def otherFile : PackageDir := ⟨filesFrom 0 ["z"],
  by simp [filesFrom, Listing.Distinct, Listing.names], by decide⟩

theorem told_apart_twoFiles :
    Function.Injective (id : OsBytes → OsBytes) ∧
      PackageDir.ToldApart id twoFiles otherFile := by
  have hbytes : twoFiles.hashBytes ≠ otherFile.hashBytes := by
    decide +kernel
  refine ⟨Function.injective_id,
    (PackageDir.hash_dir_sound_iff Function.injective_id twoFiles otherFile).mpr ⟨?_, ?_, ?_⟩⟩
  · exact fun h => hbytes (PackageDir.hashBytes_eq_iff.mpr (.inr (.inl h)))
  · exact fun h => hbytes (PackageDir.hashBytes_eq_iff.mpr (.inr (.inr h)))
  · intro h
    refine hbytes (PackageDir.hashBytes_eq_iff.mpr (.inl ?_))
    rw [PackageDir.records_eq, PackageDir.records_eq, h.2]

/-- The content of one file is hashed like a second file. -/
theorem content_like_entry :
    ¬ ∀ (sha512 : OsBytes → OsBytes) (d e : PackageDir), Function.Injective sha512 →
      PackageDir.ToldApart sha512 d e := by
  intro hclaim
  have hsame := (hclaim id oneFile twoFiles Function.injective_id).bytes (by decide +kernel)
  have hne : oneFile.listing ≠ twoFiles.listing := by
    decide +kernel
  exact hne hsame

end Examples

end Snpm.Lifecycle
