import Mathlib
import Snpm.Semver.RangeText

/-!
Ranges of one full version: alone, behind a tilde and behind a caret. Alone it
admits this version and no other, behind a tilde versions of its minor line, and
behind a caret as a rule more than itself.
-/
namespace Snpm.Semver

/-- A version with all its numbers. -/
structure FullVersion where
  major : Fin (2 ^ 64)
  minor : Fin (2 ^ 64)
  patch : Fin (2 ^ 64)
  tag : Tag

namespace FullVersion

variable (w : FullVersion)

def toPartial : Partial := .tagged w.major w.minor w.patch w.tag

def text : String := w.toPartial.text

def version : Version := ⟨w.major, w.minor, w.patch, w.tag.pre⟩

/-- The comparator of an operator before the version. -/
def comparator (op : Op) : Comparator :=
  ⟨op, w.major.val, some w.minor.val, some w.patch.val, w.tag.pre⟩

/-- The numbers of the version, as a text. -/
def core : String :=
  toString w.major.val ++ "." ++ (toString w.minor.val ++ "." ++ toString w.patch.val)

theorem text_eq : w.text = w.core ++ w.tag.text := by
  rw [text, toPartial, Partial.text, Partial.coreText, Partial.parts, List.map_cons, List.map_cons,
    List.map_singleton, String.intercalate_cons_cons, String.intercalate_cons_cons,
    String.intercalate_singleton]
  rfl

theorem coreText_eq : w.toPartial.coreText = w.core := by
  rw [toPartial, Partial.coreText, Partial.parts, List.map_cons, List.map_cons,
    List.map_singleton, String.intercalate_cons_cons, String.intercalate_cons_cons,
    String.intercalate_singleton]
  rfl

end FullVersion

section Characters

def isVersionChar (c : Char) : Bool := isIdentifierChar c || c = '.' || c = '+'

theorem isVersionChar_of {c : Char} (h : isIdentifierChar c = true ∨ c = '.') :
    isVersionChar c = true := by
  cases h with
  | inl h => rw [isVersionChar, h, Bool.true_or, Bool.true_or]
  | inr h =>
      rw [h]
      decide

theorem Tag.versionChar (tag : Tag) : ∀ c ∈ tag.text.toList, isVersionChar c = true := by
  intro c hc
  rw [Tag.text, String.toList_append, List.mem_append] at hc
  cases hc with
  | inl hc =>
      cases hpre : tag.pre with
      | none => simp [hpre] at hc
      | some pre =>
          have hmem : c = '-' ∨ c ∈ pre.toList := by simpa [hpre] using hc
          cases hmem with
          | inl heq => rw [heq]; decide
          | inr hmem => exact isVersionChar_of (pre_chars (tag.pre_valid pre hpre) hmem)
  | inr hc =>
      cases hbuild : tag.build with
      | none => simp [hbuild] at hc
      | some build =>
          have hmem : c = '+' ∨ c ∈ build.toList := by simpa [hbuild] using hc
          cases hmem with
          | inl heq => rw [heq]; decide
          | inr hmem => exact isVersionChar_of (build_chars (tag.build_valid build hbuild) hmem)

namespace FullVersion

variable (w : FullVersion)

theorem core_chars : ∀ c ∈ w.core.toList, Text.isAsciiDigit c = true ∨ c = '.' := by
  intro c hc
  simp only [core, String.toList_append, List.mem_append] at hc
  obtain ((hc | hc) | ((hc | hc) | hc)) := hc
  · exact .inl (Text.isAsciiDigit_of_mem_repr hc)
  · exact .inr (by simpa using hc)
  · exact .inl (Text.isAsciiDigit_of_mem_repr hc)
  · exact .inr (by simpa using hc)
  · exact .inl (Text.isAsciiDigit_of_mem_repr hc)

theorem text_chars : ∀ c ∈ w.text.toList, isVersionChar c = true := by
  intro c hc
  rw [text_eq, String.toList_append, List.mem_append] at hc
  cases hc with
  | inl hc =>
      cases w.core_chars c hc with
      | inl hdigit => exact isVersionChar_of (.inl (isIdentifierChar_of_digit hdigit))
      | inr hdot => exact isVersionChar_of (.inr hdot)
  | inr hc => exact w.tag.versionChar c hc

theorem not_mem_text {c : Char} (h : isVersionChar c = false) : c ∉ w.text.toList := by
  intro hc
  rw [w.text_chars c hc] at h
  cases h

/-- A version starts with a digit. -/
theorem exists_head : ∃ c cs, w.text.toList = c :: cs ∧ Text.isAsciiDigit c = true := by
  obtain ⟨c, cs, hlist⟩ := List.exists_cons_of_ne_nil (Text.repr_ne_nil w.major.val)
  refine ⟨c, cs ++ ("." ++ (toString w.minor.val ++ "." ++ toString w.patch.val)).toList ++
    w.tag.text.toList, ?_, ?_⟩
  · rw [text_eq, core]
    simp only [String.toList_append, hlist, List.cons_append, List.append_assoc]
  · exact Text.isAsciiDigit_of_mem_repr (by rw [hlist]; exact List.mem_cons_self)

theorem text_ne_empty : w.text ≠ "" := w.toPartial.text_ne_empty

theorem count_core : w.core.toList.count '.' = 2 := by
  have hfree : ∀ n : Nat, (toString n).toList.count '.' = 0 :=
    fun n => List.count_eq_zero.mpr (Text.not_mem_repr (by decide))
  have hdot : (".":String).toList.count '.' = 1 := by decide
  simp only [core, String.toList_append, List.count_append, hfree, hdot]

end FullVersion

end Characters

section Requirements

variable (w : FullVersion)

theorem repr_not_x (n : Nat) : Text.eqIgnoreAsciiCase (toString n) "x" = false := by
  rw [Text.eqIgnoreAsciiCase, beq_eq_false_iff_ne]
  intro heq
  obtain ⟨c, cs, hlist⟩ := List.exists_cons_of_ne_nil (Text.repr_ne_nil n)
  have hdigit : Text.isAsciiDigit c = true :=
    Text.isAsciiDigit_of_mem_repr (by rw [hlist]; exact List.mem_cons_self)
  have hlower : Text.toAsciiLower c = 'x' := by
    have hx : ("x" : String).toList.map Text.toAsciiLower = ['x'] := by decide
    rw [hlist, hx, List.map_cons, List.cons.injEq] at heq
    exact heq.1
  have hself : Text.toAsciiLower c = c := by
    rw [Text.toAsciiLower, if_neg]
    intro hupper
    rw [Text.isAsciiDigit, Bool.and_eq_true, decide_eq_true_eq, decide_eq_true_eq] at hdigit
    have hle := hupper.1.trans hdigit.2
    exact absurd hle (by decide)
  rw [hself] at hlower
  rw [hlower] at hdigit
  exact absurd hdigit (by decide)

theorem find_core : ((Text.find w.text fun c => c = '-' || c = '+').map (·.1)).getD w.text = w.core := by
  have hfind := w.toPartial.find_tag
  rw [FullVersion.text, ← w.coreText_eq]
  cases h : Text.find w.toPartial.text fun c => c = '-' || c = '+' with
  | none =>
      rw [h, Option.getD_none] at hfind
      rw [Option.map_none, Option.getD_none]
      exact congrArg Prod.fst hfind
  | some parts =>
      rw [h, Option.getD_some] at hfind
      rw [Option.map_some, Option.getD_some]
      exact congrArg Prod.fst hfind

theorem isPlainExactVersion_text : isPlainExactVersion w.text = true := by
  have hfree : Text.containsChar w.text (fun c => isOperatorChar c || c = ' ' || c = ',') = false := by
    rw [Text.containsChar, List.any_eq_false]
    intro c hc hlist
    have hchar := w.text_chars c hc
    simp only [isOperatorChar, Bool.or_eq_true, decide_eq_true_eq] at hlist
    obtain ((((((h | h) | h) | h) | h) | h) | h) := hlist
    all_goals
      rw [h] at hchar
      exact absurd hchar (by decide)
  have hstar : Text.containsChar w.text (· = '*') = false := by
    rw [Text.containsChar, List.any_eq_false]
    intro c hc heq
    rw [of_decide_eq_true heq] at hc
    exact w.not_mem_text (by decide) hc
  have hparts : (Text.split w.core (· = '.')).all
      (fun segment => !Text.eqIgnoreAsciiCase segment "x") = true := by
    have hsplit := w.toPartial.split_coreText
    rw [w.coreText_eq] at hsplit
    rw [hsplit, List.all_eq_true]
    intro segment hsegment
    obtain ⟨part, hpart, htext⟩ := List.mem_map.mp hsegment
    have hnumber : ∃ n : Fin (2 ^ 64), part = .number n := by
      simp only [FullVersion.toPartial, Partial.parts, List.mem_cons, List.not_mem_nil,
        or_false] at hpart
      obtain (h | h | h) := hpart
      · exact ⟨_, h⟩
      · exact ⟨_, h⟩
      · exact ⟨_, h⟩
    obtain ⟨n, hn⟩ := hnumber
    rw [← htext, hn, Part.text, repr_not_x]
    rfl
  have hcount : 2 ≤ w.text.toList.count '.' := by
    rw [w.text_eq, String.toList_append, List.count_append, w.count_core]
    omega
  have hne : w.text ≠ "" := w.text_ne_empty
  unfold isPlainExactVersion
  dsimp only
  rw [find_core, hfree, hstar, hparts]
  simp [hne, hcount]

/-- A range of one word that starts with a digit or an operator is one requirement. -/
theorem requirementTexts_word {s : String} (hword : Text.IsWord s)
    (hhead : ∀ c ∈ s.toList.head?, Text.isAsciiDigit c = true ∨ isOperatorChar c = true)
    (hbar : '|' ∉ s.toList) (hv : stripVPrefix s = s) :
    requirementTexts s = [adjustNodeDefault s] := by
  have htight : Text.Tight s :=
    ⟨fun c hc => hword.free c (List.mem_of_head? hc), fun c hc => hword.free c (List.mem_of_getLast? hc)⟩
  have htrim : Text.trim s = s := htight.trim_eq
  have hheads : ∀ c ∈ s.toList.head?, c ≠ 'l' ∧ c ≠ 'n' ∧ c ≠ 'j' ∧ c ≠ '@' := by
    intro c hc
    have hkind := hhead c hc
    refine ⟨?_, ?_, ?_, ?_⟩
    all_goals
      intro heq
      rw [heq] at hkind
      exact absurd hkind (by decide)
  have hsource : rangeSource s = s := by
    rw [rangeSource_eq]
    · exact htrim
    · rw [htrim]
      exact hword.ne_empty
    · rw [htrim]
      exact fun c hc => ⟨(hheads c hc).1, (hheads c hc).2.1, (hheads c hc).2.2.1⟩
  have hnormal : normalizePart s = s := by
    rw [normalizePart_eq]
    · rw [htrim, normalizeAndPart, hword.splitWhitespace_eq, List.map_singleton, hv]
    · rw [htrim]
      exact hword.ne_empty
    · rw [htrim]
      exact fun c hc => ⟨(hheads c hc).1, (hheads c hc).2.2.2⟩
  have hplain : ¬ ("||" : String).toList <:+: s.toList := fun h => hbar (h.subset (by decide))
  unfold requirementTexts
  rw [hsource, Text.splitSeq_eq_singleton hplain, List.filterMap_cons, hnormal,
    if_neg hword.ne_empty]
  rfl

theorem isWord_text : Text.IsWord w.text := w.toPartial.isWord

theorem isWord_operator (operator : Operator) : Text.IsWord (operator.text ++ w.text) where
  ne_empty := by
    intro h
    have hlist := congrArg String.toList h
    rw [String.toList_append] at hlist
    exact operator.text_ne_empty (String.toList_inj.mp (List.append_eq_nil_iff.mp hlist).1)
  free := by
    intro c hc
    rw [String.toList_append, List.mem_append] at hc
    cases hc with
    | inl hc => exact (operatorChar_visible (operator.text_chars c hc)).1
    | inr hc => exact (isWord_text w).free c hc

theorem requirementTexts_text : requirementTexts w.text = ["=" ++ w.text] := by
  have hbar : '|' ∉ w.text.toList := w.not_mem_text (by decide)
  have hadjust : adjustNodeDefault w.text = "=" ++ w.text := by
    rw [adjustNodeDefault, isPlainExactVersion_text, if_pos rfl]
  rw [requirementTexts_word (isWord_text w) _ hbar (stripVPrefix_text w.toPartial), hadjust]
  intro c hc
  obtain ⟨d, cs, hlist, hdigit⟩ := w.exists_head
  rw [hlist, List.head?_cons, Option.mem_def, Option.some.injEq] at hc
  exact .inl (hc ▸ hdigit)

theorem requirementTexts_operator (operator : Operator) :
    requirementTexts (operator.text ++ w.text) = [operator.text ++ w.text] := by
  have hbar : '|' ∉ (operator.text ++ w.text).toList := by
    rw [String.toList_append, List.mem_append, not_or]
    refine ⟨fun hmem => ?_, w.not_mem_text (by decide)⟩
    have hchar := operator.text_chars '|' hmem
    exact absurd hchar (by decide)
  have hne : operator.text.toList ≠ [] :=
    fun hnil => operator.text_ne_empty (String.toList_inj.mp hnil)
  obtain ⟨c, cs, hlist⟩ := List.exists_cons_of_ne_nil hne
  have hc : isOperatorChar c = true :=
    operator.text_chars c (by rw [hlist]; exact List.mem_cons_self)
  have hmem : c ∈ (operator.text ++ w.text).toList := by
    rw [String.toList_append, hlist]
    exact List.mem_cons_self
  have hchar : isListChar c = true := by
    rw [isListChar, hc, Bool.true_or, Bool.true_or]
  rw [requirementTexts_word (isWord_operator w operator) _ hbar
    (stripVPrefix_version operator.text_chars w.toPartial), adjustNodeDefault_eq_self hmem hchar]
  intro d hd
  rw [String.toList_append, hlist, List.cons_append, List.head?_cons, Option.mem_def,
    Option.some.injEq] at hd
  exact .inr (hd ▸ hc)

theorem readRequirement_operator (operator : Operator) :
    readRequirement (operator.text ++ w.text) = some [w.comparator operator.op] := by
  have hgap : ∀ c ∈ ("" : String).toList, c = ' ' := by simp
  have hblank : ∀ c ∈ ("" : String).toList, Text.isWhitespace c = true := by simp
  have htext := isComparatorText_operator operator hgap w.toPartial
  have hread := readComparator_operator operator hblank w.toPartial
  rw [String.empty_append] at htext hread
  have hwild : isWildcard (operator.text ++ w.text) = false := by
    have hnot : ∀ word : String, (word.toList.head?.any isOperatorChar) = false →
        operator.text ++ w.text ≠ word := by
      intro word hword heq
      have hne : operator.text.toList ≠ [] :=
        fun hnil => operator.text_ne_empty (String.toList_inj.mp hnil)
      obtain ⟨c, cs, hlist⟩ := List.exists_cons_of_ne_nil hne
      rw [← heq, String.toList_append, hlist, List.cons_append, List.head?_cons, Option.any_some,
        operator.text_chars c (by rw [hlist]; exact List.mem_cons_self)] at hword
      cases hword
    simp only [isWildcard, hnot "*" (by decide), hnot "x" (by decide), hnot "X" (by decide),
      decide_false, Bool.or_self]
  have hsingle := readRequirement_intercalate (List.cons_ne_nil (operator.text ++ w.text) [])
    (fun t ht => (List.mem_singleton.mp ht) ▸ htext)
  rw [String.intercalate_singleton] at hsingle
  have hparts : w.toPartial.parts.map Part.value =
      [some w.major.val, some w.minor.val, some w.patch.val] := rfl
  rw [hsingle hwild, if_pos (by rw [List.length_singleton]; decide), List.mapM_cons, List.mapM_nil]
  rw [FullVersion.text, hread, hparts]
  have hbuild : buildComparator (some operator.op)
      [some w.major.val, some w.minor.val, some w.patch.val] w.toPartial.tagText =
        some (w.comparator operator.op) := by
    have htag : w.toPartial.tagText = w.tag.text := rfl
    rw [buildComparator, htag, readTag_text]
    rfl
  rw [hbuild]
  rfl

end Requirements

section Admitted

variable (before : String → String → Bool) (w : FullVersion) (v : Version)

theorem Version.eq_iff : v = w.version ↔ v.major.val = w.major.val ∧ v.minor.val = w.minor.val ∧
    v.patch.val = w.patch.val ∧ v.pre = w.tag.pre := by
  cases v with
  | mk major minor patch pre =>
      simp only [FullVersion.version, Version.mk.injEq, Fin.ext_iff]

theorem requirementMatches_singleton (c : Comparator) :
    requirementMatches before [c] v = true ↔
      comparatorMatches before c v = true ∧ (v.pre = none ∨ admitsPre c v = true) := by
  simp only [requirementMatches, List.all_cons, List.all_nil, Bool.and_true, List.any_cons,
    List.any_nil, Bool.or_false, Bool.and_eq_true, Bool.or_eq_true, Option.isNone_iff_eq_none]

/-- The version itself names its pre-release. -/
theorem admitsPre_self (op : Op) : w.version.pre = none ∨
    admitsPre (w.comparator op) w.version = true := by
  cases hpre : w.tag.pre with
  | none => exact .inl hpre
  | some pre => simp [admitsPre, FullVersion.comparator, FullVersion.version, hpre]

theorem exact_admits_iff :
    requirementMatches before [w.comparator .exact] v = true ↔ v = w.version := by
  have hexact : comparatorMatches before (w.comparator .exact) v = true ↔ v = w.version := by
    rw [Version.eq_iff]
    unfold comparatorMatches matchesExact FullVersion.comparator
    dsimp only [Option.all_some]
    simp only [Bool.and_eq_true, decide_eq_true_eq, and_assoc]
  rw [requirementMatches_singleton, hexact]
  constructor
  · exact And.left
  · intro heq
    exact ⟨heq, by rw [heq]; exact admitsPre_self w .exact⟩

theorem tilde_admits (h : requirementMatches before [w.comparator .tilde] v = true) :
    v.major = w.major ∧ v.minor = w.minor := by
  have hmatches := ((requirementMatches_singleton before v _).mp h).1
  unfold comparatorMatches matchesTilde FullVersion.comparator at hmatches
  dsimp only [Option.all_some] at hmatches
  simp only [Bool.and_eq_true, decide_eq_true_eq] at hmatches
  exact ⟨Fin.ext hmatches.1.1, Fin.ext hmatches.1.2⟩

/-- The versions that a caret admits. -/
theorem caret_admits_iff : comparatorMatches before (w.comparator .caret) v = true ↔
    v.major.val = w.major.val ∧
      ((0 < w.major.val ∧ w.minor.val < v.minor.val) ∨
        (v.minor.val = w.minor.val ∧
          (((0 < w.major.val ∨ 0 < w.minor.val) ∧ w.patch.val < v.patch.val) ∨
            (v.patch.val = w.patch.val ∧ preAtLeast before v.pre w.tag.pre = true)))) := by
  unfold comparatorMatches matchesCaret FullVersion.comparator
  dsimp only
  rw [Bool.and_eq_true, decide_eq_true_eq]
  apply and_congr_right
  intro _
  by_cases hminor : v.minor.val = w.minor.val
  · rw [if_neg (fun h => h.2 hminor), if_neg (fun h => h hminor)]
    by_cases hpatch : v.patch.val = w.patch.val
    · rw [if_neg (fun h => h hpatch)]
      simp [hminor, hpatch]
    · rw [if_pos hpatch]
      simp [hminor, hpatch]
  · by_cases hmajor : 0 < w.major.val
    · rw [if_pos ⟨hmajor, hminor⟩]
      simp [hminor, hmajor]
    · rw [if_neg (fun h => hmajor h.1), if_pos hminor]
      simp [hminor, hmajor]

/-- A caret that leaves room for no other version: no pre-release, and every number
that may grow is the largest one there is. -/
structure CaretPins : Prop where
  release : w.tag.pre = none
  minor : w.major.val = 0 ∨ w.minor.val + 1 = 2 ^ 64
  patch : (w.major.val = 0 ∧ w.minor.val = 0) ∨ w.patch.val + 1 = 2 ^ 64

theorem caret_pinned_iff (h : CaretPins w) :
    requirementMatches before [w.comparator .caret] v = true ↔ v = w.version := by
  rw [requirementMatches_singleton, caret_admits_iff, Version.eq_iff]
  have hminor := v.minor.isLt
  have hpatch := v.patch.isLt
  constructor
  · intro hmatches
    obtain ⟨⟨hmajor, hgrown | ⟨hsame, hgrown | ⟨hsamePatch, hpre⟩⟩⟩, _⟩ := hmatches
    · have hmax := h.minor
      omega
    · have hmax := h.patch
      omega
    · refine ⟨hmajor, hsame, hsamePatch, ?_⟩
      rw [h.release] at hpre ⊢
      simpa [preAtLeast, preBefore] using hpre
  · intro heq
    refine ⟨⟨heq.1, .inr ⟨heq.2.1, .inr ⟨heq.2.2.1, ?_⟩⟩⟩, .inl (heq.2.2.2.trans h.release)⟩
    rw [heq.2.2.2]
    simp [preAtLeast]

end Admitted

section Ranges

variable (S : SemverCrate) (view : S.Version → Version) (w : FullVersion)

/-- A range text that admits the version and no other. -/
def AdmitsOnly (text : String) : Prop :=
  ∃ set, RangeSet.parse S text = .ok set ∧ ∀ v, set.contains v = true ↔ view v = w.version

/-- A range text that admits versions of the version's minor line only. -/
def StaysInLine (text : String) : Prop :=
  ∃ set, RangeSet.parse S text = .ok set ∧
    ∀ v, set.contains v = true → (view v).major = w.major ∧ (view v).minor = w.minor

variable {S view w} {before : String → String → Bool}

theorem text_admitsOnly (hcrate : ReadAsDocumented S view before ("=" ++ w.text)) :
    AdmitsOnly S view w w.text := by
  have hread : readRequirement ("=" ++ w.text) = some [w.comparator .exact] :=
    readRequirement_operator w .equal
  obtain ⟨set, hset, hcontains⟩ := parse_of_read (requirementTexts_text w) hcrate hread
  refine ⟨set, hset, fun v => ?_⟩
  rw [hcontains, exact_admits_iff]

theorem tilde_staysInLine (hcrate : ReadAsDocumented S view before ("~" ++ w.text)) :
    StaysInLine S view w ("~" ++ w.text) := by
  have hread : readRequirement ("~" ++ w.text) = some [w.comparator .tilde] :=
    readRequirement_operator w .tilde
  have htexts : requirementTexts ("~" ++ w.text) = ["~" ++ w.text] :=
    requirementTexts_operator w .tilde
  obtain ⟨set, hset, hcontains⟩ := parse_of_read htexts hcrate hread
  refine ⟨set, hset, fun v hv => ?_⟩
  rw [hcontains] at hv
  exact tilde_admits before w (view v) hv

/-- What a caret admits beside the version. -/
theorem caret_admits_release {i j k : Fin (2 ^ 64)}
    (h : i = w.major ∧ ((0 < w.major.val ∧ w.minor.val < j.val) ∨ (j = w.minor ∧
      (((0 < w.major.val ∨ 0 < w.minor.val) ∧ w.patch.val < k.val) ∨
        (k = w.patch ∧ w.tag.pre ≠ none))))) :
    requirementMatches before [w.comparator .caret] ⟨i, j, k, none⟩ = true := by
  rw [requirementMatches_singleton, caret_admits_iff]
  refine ⟨⟨congrArg Fin.val h.1, ?_⟩, .inl rfl⟩
  obtain ⟨_, hgrown | ⟨hsame, hgrown | ⟨hsamePatch, hpre⟩⟩⟩ := h
  · exact .inl hgrown
  · exact .inr ⟨congrArg Fin.val hsame, .inl hgrown⟩
  · refine .inr ⟨congrArg Fin.val hsame, .inr ⟨congrArg Fin.val hsamePatch, ?_⟩⟩
    cases hcase : w.tag.pre with
    | none => exact absurd hcase hpre
    | some pre => simp [preAtLeast, preBefore]

/-- Behind a caret a version is alone exactly if nothing has room to grow. -/
theorem caret_admitsOnly_iff (newVersion : Fin (2 ^ 64) → Fin (2 ^ 64) → Fin (2 ^ 64) → S.Version)
    (hnew : ∀ i j k, view (newVersion i j k) = ⟨i, j, k, none⟩)
    (hcrate : ReadAsDocumented S view before ("^" ++ w.text)) :
    AdmitsOnly S view w ("^" ++ w.text) ↔ CaretPins w := by
  have hread : readRequirement ("^" ++ w.text) = some [w.comparator .caret] :=
    readRequirement_operator w .caret
  have htexts : requirementTexts ("^" ++ w.text) = ["^" ++ w.text] :=
    requirementTexts_operator w .caret
  obtain ⟨set, hset, hcontains⟩ := parse_of_read htexts hcrate hread
  constructor
  · intro honly
    obtain ⟨other, hother, hadmits⟩ := honly
    rw [hset, Except.ok.injEq] at hother
    subst hother
    have hrelease : ∀ {i j k : Fin (2 ^ 64)},
        requirementMatches before [w.comparator .caret] ⟨i, j, k, none⟩ = true →
          i = w.major ∧ j = w.minor ∧ k = w.patch ∧ none = w.tag.pre := by
      intro i j k hmatches
      rw [← hnew, ← hcontains, hadmits, hnew, FullVersion.version, Version.mk.injEq] at hmatches
      exact hmatches
    constructor
    · by_contra hpre
      have hsame := hrelease (caret_admits_release ⟨rfl, .inr ⟨rfl, .inr ⟨rfl, hpre⟩⟩⟩)
      exact hpre hsame.2.2.2.symm
    · by_contra hgrow
      rw [not_or] at hgrow
      have hlt := w.minor.isLt
      have hnext : w.minor.val + 1 < 2 ^ 64 := by omega
      have hmatches := @caret_admits_release w before w.major ⟨w.minor.val + 1, hnext⟩ w.patch
        ⟨rfl, .inl ⟨by omega, Nat.lt_succ_self _⟩⟩
      have hsame := congrArg Fin.val (hrelease hmatches).2.1
      exact absurd hsame (Nat.succ_ne_self _)
    · by_contra hgrow
      rw [not_or] at hgrow
      have hlt := w.patch.isLt
      have hnext : w.patch.val + 1 < 2 ^ 64 := by omega
      have hmatches := @caret_admits_release w before w.major w.minor ⟨w.patch.val + 1, hnext⟩
        ⟨rfl, .inr ⟨rfl, .inl ⟨by omega, Nat.lt_succ_self _⟩⟩⟩
      have hsame := congrArg Fin.val (hrelease hmatches).2.2.1
      exact absurd hsame (Nat.succ_ne_self _)
  · intro hpins
    refine ⟨set, hset, fun v => ?_⟩
    rw [hcontains, caret_pinned_iff before w _ hpins]

end Ranges

end Snpm.Semver
