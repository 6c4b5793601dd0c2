import Mathlib
import Snpm.Semver.RangeText

/-!
Hyphen ranges. Their ends are rewritten into two comparators; the upper one is
computed by counting up a part, and a missing part is filled in by how many parts
are written, whether they are numbers or not.
-/
namespace Snpm.Semver

section Ends

def Part.zero : Part := .number 0

/-- A number as a component of a version. -/
def component (n : Nat) : Fin (2 ^ 64) := Fin.ofNat (2 ^ 64) n

/-- The part counted up, wrapping around; a wildcard counts as zero. -/
def Part.next : Part → Fin (2 ^ 64)
  | .number n => n + 1
  | .wild _ => 1

/-- The version of the lower comparator. -/
def Partial.lowerEnd : Partial → Partial
  | .major a => .patch a .zero .zero
  | .minor a b => .patch a b .zero
  | p => p

/-- The operator and the version of the upper comparator. -/
def Partial.upperEnd : Partial → Operator × Partial
  | .major a => (.less, .patch (.number a.next) .zero .zero)
  | .minor a b => (.less, .patch a (.number b.next) .zero)
  | p => (.lessEq, p)

theorem Part.next_val (a : Part) : a.next.val = ((Text.parseU64 a.text).getD 0 + 1) % 2 ^ 64 := by
  cases a with
  | number n =>
      rw [Part.text, Text.parseU64_repr, if_pos n.isLt, Option.getD_some, Part.next, Fin.val_add]
      rfl
  | wild w => cases w <;> decide

theorem Part.text_zero : Part.zero.text = "0" := by decide

/-- A version with three written parts is split at more than one dot. -/
theorem split_three (p : Partial) (h : 3 ≤ p.parts.length) :
    ∃ x y z rest, Text.split p.text (· = '.') = x :: y :: z :: rest := by
  have hdot : ("." : String) = String.singleton '.' := by decide
  have hthree : ∀ (a b : Part) (tail : String), ∃ x y z rest,
      Text.split (a.text ++ "." ++ (b.text ++ "." ++ tail)) (· = '.') = x :: y :: z :: rest := by
    intro a b tail
    rw [hdot, Text.split_append (a.text_free (by decide)), Text.split_append (b.text_free (by decide))]
    cases hlast : Text.split tail (· = '.') with
    | nil => exact absurd hlast (Text.split_ne_nil _ _)
    | cons z rest => exact ⟨a.text, b.text, z, rest, rfl⟩
  cases p with
  | major a => exact absurd h (by simp [Partial.parts])
  | minor a b => exact absurd h (by simp [Partial.parts])
  | patch a b c =>
      rw [Partial.text_patch]
      exact hthree a b c.text
  | tagged a b c tag =>
      have htext : (Partial.tagged a b c tag).text =
          (Part.number a).text ++ "." ++ ((Part.number b).text ++ "." ++
            ((Part.number c).text ++ tag.text)) := by
        have hcore := Partial.text_patch (.number a) (.number b) (.number c)
        rw [Partial.text, Partial.tagText_patch, String.append_empty] at hcore
        rw [Partial.text, Partial.tagText]
        have hsame : (Partial.tagged a b c tag).coreText =
            (Partial.patch (.number a) (.number b) (.number c)).coreText := rfl
        rw [hsame, hcore]
        simp only [String.append_assoc]
      rw [htext]
      exact hthree _ _ _

theorem split_major (a : Part) : Text.split (Partial.major a).text (· = '.') = [a.text] := by
  rw [Partial.text_major, Text.split_eq_singleton (a.text_free (by decide))]

theorem split_minor (a b : Part) : Text.split (Partial.minor a b).text (· = '.') = [a.text, b.text] := by
  have hdot : ("." : String) = String.singleton '.' := by decide
  rw [Partial.text_minor, hdot, Text.split_append (a.text_free (by decide)),
    Text.split_eq_singleton (b.text_free (by decide))]

/-- The full version that the lower end is completed to. -/
def lowerFull (lower : String) : String :=
  match Text.split lower (· = '.') with
  | [major] => major ++ ".0.0"
  | [major, minor] => major ++ "." ++ minor ++ ".0"
  | _ => lower

def upperBound (upper : String) : String :=
  match Text.split upper (· = '.') with
  | [major] => "<" ++ toString (((Text.parseU64 major).getD 0 + 1) % 2 ^ 64) ++ ".0.0"
  | [major, minor] =>
      "<" ++ major ++ "." ++ toString (((Text.parseU64 minor).getD 0 + 1) % 2 ^ 64) ++ ".0"
  | _ => "<=" ++ upper

theorem expandHyphenRange_def (lower upper : String) : expandHyphenRange lower upper =
    match Text.split upper (· = '.') with
    | [major] => ">=" ++ lowerFull lower ++ ", <" ++
        toString (((Text.parseU64 major).getD 0 + 1) % 2 ^ 64) ++ ".0.0"
    | [major, minor] => ">=" ++ lowerFull lower ++ ", <" ++ major ++ "." ++
        toString (((Text.parseU64 minor).getD 0 + 1) % 2 ^ 64) ++ ".0"
    | _ => ">=" ++ lowerFull lower ++ ", <=" ++ upper :=
  rfl

theorem expandHyphenRange_eq (lower upper : String) :
    expandHyphenRange lower upper = ">=" ++ lowerFull lower ++ ", " ++ upperBound upper := by
  rw [expandHyphenRange_def, upperBound]
  split
  · simp only [String.append_assoc]
    rfl
  · simp only [String.append_assoc]
    rfl
  · simp only [String.append_assoc]
    rfl

theorem lowerFull_text (p : Partial) : lowerFull p.text = p.lowerEnd.text := by
  unfold lowerFull
  cases p with
  | major a =>
      rw [split_major, Partial.lowerEnd, Partial.text_patch, Part.text_zero]
      simp only [String.append_assoc]
      rfl
  | minor a b =>
      rw [split_minor, Partial.lowerEnd, Partial.text_patch, Part.text_zero]
      simp only [String.append_assoc]
      rfl
  | patch a b c =>
      obtain ⟨x, y, z, rest, hsplit⟩ := split_three (.patch a b c) (by simp [Partial.parts])
      rw [hsplit]
      rfl
  | tagged a b c tag =>
      obtain ⟨x, y, z, rest, hsplit⟩ := split_three (.tagged a b c tag) (by simp [Partial.parts])
      rw [hsplit]
      rfl

theorem upperBound_text (p : Partial) : upperBound p.text = p.upperEnd.1.text ++ p.upperEnd.2.text := by
  unfold upperBound
  cases p with
  | major a =>
      rw [split_major, Partial.upperEnd, Partial.text_patch, Part.text_zero]
      dsimp only
      rw [← a.next_val]
      simp only [String.append_assoc]
      rfl
  | minor a b =>
      rw [split_minor, Partial.upperEnd, Partial.text_patch, Part.text_zero]
      dsimp only
      rw [← b.next_val]
      simp only [String.append_assoc]
      rfl
  | patch a b c =>
      obtain ⟨x, y, z, rest, hsplit⟩ := split_three (.patch a b c) (by simp [Partial.parts])
      rw [hsplit]
      rfl
  | tagged a b c tag =>
      obtain ⟨x, y, z, rest, hsplit⟩ := split_three (.tagged a b c tag) (by simp [Partial.parts])
      rw [hsplit]
      rfl

end Ends

section Request

variable (A B : Partial)

def hyphenText : String := A.text ++ " - " ++ B.text

theorem hyphenText_toList : (hyphenText A B).toList = A.text.toList ++ ([' ', '-', ' '] ++ B.text.toList) := by
  rw [hyphenText, String.toList_append, String.toList_append, List.append_assoc]
  rfl

theorem hyphenText_tight : Text.Tight (hyphenText A B) where
  first := by
    intro c hc
    obtain ⟨d, ds, hlist, _⟩ := A.exists_head
    rw [hyphenText_toList, hlist, List.cons_append, List.head?_cons] at hc
    apply A.text_tight.first c
    rw [hlist]
    exact hc
  last := by
    intro c hc
    have hne : B.text.toList ≠ [] := fun hnil => B.text_ne_empty (String.toList_inj.mp hnil)
    rw [hyphenText, String.toList_append, List.getLast?_append_of_ne_nil _ hne] at hc
    exact B.text_tight.last c hc

theorem hyphenText_head : ∀ c ∈ (hyphenText A B).toList.head?,
    (Text.isAsciiDigit c || c = '*' || c = 'x' || c = 'X') = true := by
  intro c hc
  obtain ⟨d, ds, hlist, hd⟩ := A.exists_head
  rw [hyphenText_toList, hlist, List.cons_append, List.head?_cons, Option.mem_def,
    Option.some.injEq] at hc
  exact hc ▸ hd

theorem hyphenText_words : Text.splitWhitespace (hyphenText A B) = [A.text, "-", B.text] := by
  have hblank : Text.isWhitespace ' ' = true := by decide
  have heq : hyphenText A B =
      A.text ++ String.singleton ' ' ++ ("-" ++ String.singleton ' ' ++ B.text) := by
    apply String.toList_inj.mp
    rw [hyphenText_toList]
    simp
  have hhyphen : Text.splitWhitespace "-" = ["-"] := by decide
  rw [heq, Text.splitWhitespace_append hblank, Text.splitWhitespace_append hblank,
    A.isWord.splitWhitespace_eq, B.isWord.splitWhitespace_eq, hhyphen]
  rfl

theorem hyphenText_plain : ¬ ("||" : String).toList <:+: (hyphenText A B).toList := by
  intro h
  have hbar : '|' ∈ (hyphenText A B).toList := h.subset (by decide)
  rw [hyphenText_toList, List.mem_append, List.mem_append] at hbar
  obtain (h | h | h) := hbar
  · exact not_mem_of_partialChar A.text_chars (by decide) h
  · exact absurd h (by decide)
  · exact not_mem_of_partialChar B.text_chars (by decide) h

/-- The two comparators that stand for a hyphen range. -/
def hyphenComparators : List String :=
  [">=" ++ A.lowerEnd.text, B.upperEnd.1.text ++ B.upperEnd.2.text]

theorem requirementTexts_hyphen :
    requirementTexts (hyphenText A B) = [", ".intercalate (hyphenComparators A B)] := by
  have htrim : Text.trim (hyphenText A B) = hyphenText A B := (hyphenText_tight A B).trim_eq
  have hne : hyphenText A B ≠ "" := by
    intro h
    obtain ⟨d, ds, hlist, _⟩ := A.exists_head
    have hnil := congrArg String.toList h
    rw [hyphenText_toList, hlist] at hnil
    cases hnil
  have hheads : ∀ c ∈ (hyphenText A B).toList.head?, c ≠ 'l' ∧ c ≠ 'n' ∧ c ≠ 'j' ∧ c ≠ '@' := by
    intro c hc
    have hpart := hyphenText_head A B c hc
    refine ⟨?_, ?_, ?_, ?_⟩
    · rintro rfl; exact absurd hpart (by decide)
    · rintro rfl; exact absurd hpart (by decide)
    · rintro rfl; exact absurd hpart (by decide)
    · rintro rfl; exact absurd hpart (by decide)
  have hsource : rangeSource (hyphenText A B) = hyphenText A B := by
    rw [rangeSource_eq]
    · exact htrim
    · rw [htrim]
      exact hne
    · rw [htrim]
      exact fun c hc => ⟨(hheads c hc).1, (hheads c hc).2.1, (hheads c hc).2.2.1⟩
  have hnormal : normalizePart (hyphenText A B) = ", ".intercalate (hyphenComparators A B) := by
    rw [normalizePart_eq]
    · rw [htrim, normalizeAndPart, hyphenText_words]
      have htokens : ([A.text, "-", B.text].map stripVPrefix) = [A.text, "-", B.text] := by
        rw [List.map_cons, List.map_cons, List.map_singleton, stripVPrefix_text,
          stripVPrefix_text]
        rfl
      rw [htokens]
      change expandHyphenRange A.text B.text = _
      rw [expandHyphenRange_eq, lowerFull_text, upperBound_text, hyphenComparators,
        String.intercalate_cons_cons, String.intercalate_singleton]
    · rw [htrim]
      exact hne
    · rw [htrim]
      exact fun c hc => ⟨(hheads c hc).1, (hheads c hc).2.2.2⟩
  have hlist : '>' ∈ (", ".intercalate (hyphenComparators A B)).toList := by
    rw [hyphenComparators, String.intercalate_cons_cons]
    simp
  have hnonempty : ", ".intercalate (hyphenComparators A B) ≠ "" := by
    intro h
    rw [h] at hlist
    cases hlist
  unfold requirementTexts
  rw [hsource, Text.splitSeq_eq_singleton (hyphenText_plain A B), List.filterMap_cons, hnormal,
    if_neg hnonempty, adjustNodeDefault_eq_self hlist (by decide)]
  rfl

end Request

section Bounds

/-- The three numbers of a release. -/
structure Core where
  major : Nat
  minor : Nat
  patch : Nat

def Core.Before (a b : Core) : Prop :=
  a.major < b.major ∨ a.major = b.major ∧
    (a.minor < b.minor ∨ a.minor = b.minor ∧ a.patch < b.patch)

theorem Core.before_irrefl (a : Core) : ¬ a.Before a := by
  unfold Core.Before
  omega

def Partial.values (p : Partial) : List (Option Nat) := p.parts.map Part.value

def Partial.pre : Partial → Option String
  | .tagged _ _ _ tag => tag.pre
  | _ => none

/-- The first release that a version at the lower end of a range stands for. -/
def Partial.lower (p : Partial) : Core :=
  match p.values with
  | some i :: some j :: some k :: _ => ⟨i, j, k⟩
  | some i :: some j :: _ => ⟨i, j, 0⟩
  | some i :: _ => ⟨i, 0, 0⟩
  | _ => ⟨0, 0, 0⟩

/-- The releases below the bound that npm assigns to a version at the upper end. -/
def Partial.Admits (p : Partial) (v : Core) : Prop :=
  match p.values with
  | some i :: some j :: some k :: _ =>
      if p.pre = none then ¬ Core.Before ⟨i, j, k⟩ v else v.Before ⟨i, j, k⟩
  | some i :: some j :: _ => v.Before ⟨i, j + 1, 0⟩
  | some i :: _ => v.Before ⟨i + 1, 0, 0⟩
  | _ => True

/-- The lower end leaves no number behind a wildcard once it is completed. -/
def LowerReads : Partial → Prop
  | .major (.number _) => True
  | .minor (.number _) (.number _) => True
  | .patch (.number _) (.number _) _ => True
  | .patch (.number _) (.wild _) (.wild _) => True
  | .tagged _ _ _ _ => True
  | _ => False

/-- The upper end is bounded where npm bounds it; `major.x` is so only when the
range is empty. -/
def UpperMeets (lower : Core) : Partial → Prop
  | .major (.number n) => n.val + 1 < 2 ^ 64
  | .minor (.number _) (.number n) => n.val + 1 < 2 ^ 64
  | .minor (.number n) (.wild _) => ¬ lower.Before ⟨n.val + 1, 0, 0⟩
  | .patch (.number _) (.number _) _ => True
  | .patch (.number _) (.wild _) (.wild _) => True
  | .tagged _ _ _ _ => True
  | _ => False

/-- What the rewritten upper comparator admits. -/
def Partial.UpperComparator (p : Partial) (v : Core) : Prop :=
  match p with
  | .major a => v.Before ⟨a.next.val, 0, 0⟩
  | .minor (.number i) b => v.Before ⟨i.val, b.next.val, 0⟩
  | p => p.Admits v

def UpperReads : Partial → Prop
  | .major _ => True
  | .minor (.number _) _ => True
  | .patch (.number _) (.number _) _ => True
  | .patch (.number _) (.wild _) (.wild _) => True
  | .tagged _ _ _ _ => True
  | _ => False

variable (before : String → String → Bool)

def release (v : Core) (h : v.major < 2 ^ 64 ∧ v.minor < 2 ^ 64 ∧ v.patch < 2 ^ 64) : Version :=
  ⟨⟨v.major, h.1⟩, ⟨v.minor, h.2.1⟩, ⟨v.patch, h.2.2⟩, none⟩

theorem readTag_empty : readTag "" = some none := by decide

section Releases

variable {v : Core} {hv : v.major < 2 ^ 64 ∧ v.minor < 2 ^ 64 ∧ v.patch < 2 ^ 64} {i j k : Nat}

theorem greaterEq_full (pre : Option String) :
    comparatorMatches before ⟨.greaterEq, i, some j, some k, pre⟩ (release v hv) = true ↔
      ¬ v.Before ⟨i, j, k⟩ := by
  unfold comparatorMatches matchesExact matchesGreater release Core.Before
  dsimp only
  by_cases hmajor : v.major = i
  · by_cases hminor : v.minor = j
    · by_cases hpatch : v.patch = k
      · cases pre with
        | none => simp [hmajor, hminor, hpatch, preBefore]
        | some pre => simp [hmajor, hminor, hpatch, preBefore]
      · simp [hmajor, hminor, hpatch]
        omega
    · simp [hmajor, hminor]
      omega
  · simp [hmajor]
    omega

theorem greaterEq_minor :
    comparatorMatches before ⟨.greaterEq, i, some j, none, none⟩ (release v hv) = true ↔
      ¬ v.Before ⟨i, j, 0⟩ := by
  unfold comparatorMatches matchesExact matchesGreater release Core.Before
  dsimp only
  by_cases hmajor : v.major = i
  · by_cases hminor : v.minor = j
    · simp [hmajor, hminor]
    · simp [hmajor, hminor]
      omega
  · simp [hmajor]
    omega

theorem greaterEq_major :
    comparatorMatches before ⟨.greaterEq, i, none, none, none⟩ (release v hv) = true ↔
      ¬ v.Before ⟨i, 0, 0⟩ := by
  unfold comparatorMatches matchesExact matchesGreater release Core.Before
  dsimp only
  by_cases hmajor : v.major = i
  · simp [hmajor]
  · simp [hmajor]
    omega

theorem less_full :
    comparatorMatches before ⟨.less, i, some j, some k, none⟩ (release v hv) = true ↔
      v.Before ⟨i, j, k⟩ := by
  unfold comparatorMatches matchesLess release Core.Before
  dsimp only
  by_cases hmajor : v.major = i
  · by_cases hminor : v.minor = j
    · by_cases hpatch : v.patch = k
      · simp [hmajor, hminor, hpatch, preBefore]
      · simp [hmajor, hminor, hpatch]
    · simp [hmajor, hminor]
  · simp [hmajor]

theorem lessEq_full (pre : Option String) :
    comparatorMatches before ⟨.lessEq, i, some j, some k, pre⟩ (release v hv) = true ↔
      if pre = none then ¬ Core.Before ⟨i, j, k⟩ v else v.Before ⟨i, j, k⟩ := by
  unfold comparatorMatches matchesExact matchesLess release Core.Before
  dsimp only
  by_cases hmajor : v.major = i
  · by_cases hminor : v.minor = j
    · by_cases hpatch : v.patch = k
      · cases pre with
        | none => simp [hmajor, hminor, hpatch, preBefore]
        | some pre => simp [hmajor, hminor, hpatch, preBefore]
      · cases pre with
        | none => simp [hmajor, hminor, hpatch]; omega
        | some pre => simp [hmajor, hminor, hpatch]
    · cases pre with
      | none => simp [hmajor, hminor]; omega
      | some pre => simp [hmajor, hminor]
  · cases pre with
    | none => simp [hmajor]; omega
    | some pre => simp [hmajor]

theorem lessEq_minor :
    comparatorMatches before ⟨.lessEq, i, some j, none, none⟩ (release v hv) = true ↔
      v.Before ⟨i, j + 1, 0⟩ := by
  unfold comparatorMatches matchesExact matchesLess release Core.Before
  dsimp only
  by_cases hmajor : v.major = i
  · by_cases hminor : v.minor = j
    · simp [hmajor, hminor]
    · simp [hmajor, hminor]
      omega
  · simp [hmajor]

theorem lessEq_major :
    comparatorMatches before ⟨.lessEq, i, none, none, none⟩ (release v hv) = true ↔
      v.Before ⟨i + 1, 0, 0⟩ := by
  unfold comparatorMatches matchesExact matchesLess release Core.Before
  dsimp only
  by_cases hmajor : v.major = i
  · simp [hmajor]
  · simp [hmajor]
    omega

end Releases

theorem build_full (op : Op) (i j k : Nat) (tag : String) :
    buildComparator (some op) [some i, some j, some k] tag =
      (readTag tag).map fun pre => ⟨op, i, some j, some k, pre⟩ :=
  rfl

theorem lowerEnd_reads {A : Partial} (h : LowerReads A) :
    ∃ c, buildComparator (some .greaterEq) (A.lowerEnd.parts.map Part.value) A.lowerEnd.tagText = some c ∧
      ∀ v hv, comparatorMatches before c (release v hv) = true ↔ ¬ v.Before A.lower := by
  cases A with
  | major a =>
      cases a with
      | wild w => exact absurd h (by simp [LowerReads])
      | number i => exact ⟨_, rfl, fun v hv => greaterEq_full before none⟩
  | minor a b =>
      cases a with
      | wild w => exact absurd h (by simp [LowerReads])
      | number i =>
          cases b with
          | wild w => exact absurd h (by simp [LowerReads])
          | number j => exact ⟨_, rfl, fun v hv => greaterEq_full before none⟩
  | patch a b c =>
      cases a with
      | wild w => exact absurd h (by simp [LowerReads])
      | number i =>
          cases b with
          | number j =>
              cases c with
              | number k => exact ⟨_, rfl, fun v hv => greaterEq_full before none⟩
              | wild w => exact ⟨_, rfl, fun v hv => greaterEq_minor before⟩
          | wild w =>
              cases c with
              | number k => exact absurd h (by simp [LowerReads])
              | wild w => exact ⟨_, rfl, fun v hv => greaterEq_major before⟩
  | tagged i j k tag =>
      refine ⟨⟨.greaterEq, i.val, some j.val, some k.val, tag.pre⟩, ?_,
        fun v hv => greaterEq_full before tag.pre⟩
      change (readTag tag.text).map _ = _
      rw [readTag_text]
      rfl

theorem lowerEnd_unread {A : Partial} (h : ¬ LowerReads A) :
    buildComparator (some .greaterEq) (A.lowerEnd.parts.map Part.value) A.lowerEnd.tagText = none := by
  cases A with
  | major a =>
      cases a with
      | number i => exact absurd trivial h
      | wild w => rfl
  | minor a b =>
      cases a with
      | wild w => cases b <;> rfl
      | number i =>
          cases b with
          | number j => exact absurd trivial h
          | wild w => rfl
  | patch a b c =>
      cases a with
      | wild w => cases b <;> cases c <;> rfl
      | number i =>
          cases b with
          | number j => exact absurd trivial h
          | wild w =>
              cases c with
              | number k => rfl
              | wild w => exact absurd trivial h
  | tagged i j k tag => exact absurd trivial h

theorem upperEnd_reads {B : Partial} (h : UpperReads B) :
    ∃ c, buildComparator (some B.upperEnd.1.op) (B.upperEnd.2.parts.map Part.value)
        B.upperEnd.2.tagText = some c ∧
      ∀ v hv, comparatorMatches before c (release v hv) = true ↔ B.UpperComparator v := by
  cases B with
  | major a => exact ⟨_, rfl, fun v hv => less_full before⟩
  | minor a b =>
      cases a with
      | wild w => exact absurd h (by simp [UpperReads])
      | number i => exact ⟨_, rfl, fun v hv => less_full before⟩
  | patch a b c =>
      cases a with
      | wild w => exact absurd h (by simp [UpperReads])
      | number i =>
          cases b with
          | number j =>
              cases c with
              | number k => exact ⟨_, rfl, fun v hv => lessEq_full before none⟩
              | wild w => exact ⟨_, rfl, fun v hv => lessEq_minor before⟩
          | wild w =>
              cases c with
              | number k => exact absurd h (by simp [UpperReads])
              | wild w => exact ⟨_, rfl, fun v hv => lessEq_major before⟩
  | tagged i j k tag =>
      refine ⟨⟨.lessEq, i.val, some j.val, some k.val, tag.pre⟩, ?_,
        fun v hv => lessEq_full before tag.pre⟩
      change (readTag tag.text).map _ = _
      rw [readTag_text]
      rfl

theorem upperEnd_unread {B : Partial} (h : ¬ UpperReads B) :
    buildComparator (some B.upperEnd.1.op) (B.upperEnd.2.parts.map Part.value)
      B.upperEnd.2.tagText = none := by
  cases B with
  | major a => exact absurd trivial h
  | minor a b =>
      cases a with
      | wild w => rfl
      | number i => exact absurd trivial h
  | patch a b c =>
      cases a with
      | wild w => cases b <;> cases c <;> rfl
      | number i =>
          cases b with
          | number j => exact absurd trivial h
          | wild w =>
              cases c with
              | number k => rfl
              | wild w => exact absurd trivial h
  | tagged i j k tag => exact absurd trivial h

end Bounds

section Meets

/-- Counting up the last written part of the upper end leaves 64 bits. -/
def incrementOverflows (upper : String) : Prop :=
  match Text.split upper (· = '.') with
  | [major] => 2 ^ 64 ≤ (Text.parseU64 major).getD 0 + 1
  | [_, minor] => 2 ^ 64 ≤ (Text.parseU64 minor).getD 0 + 1
  | _ => False

/-- A hyphen range is parsed without overflow and admits the releases from its
lower end up to the bound of its upper end. -/
def HyphenMeets (S : SemverCrate)
    (newVersion : Fin (2 ^ 64) → Fin (2 ^ 64) → Fin (2 ^ 64) → S.Version) (A B : Partial) : Prop :=
  ¬ incrementOverflows B.text ∧ ∃ set, RangeSet.parse S (hyphenText A B) = .ok set ∧
    ∀ i j k, set.contains (newVersion i j k) = true ↔
      ¬ Core.Before ⟨i.val, j.val, k.val⟩ A.lower ∧ B.Admits ⟨i.val, j.val, k.val⟩

theorem incrementOverflows_major (a : Part) : incrementOverflows (Partial.major a).text ↔
    2 ^ 64 ≤ a.value.getD 0 + 1 := by
  unfold incrementOverflows
  rw [split_major]
  dsimp only
  cases a with
  | number n => rw [Part.text, Text.parseU64_repr, if_pos n.isLt]; rfl
  | wild w => cases w <;> decide

theorem incrementOverflows_minor (a b : Part) : incrementOverflows (Partial.minor a b).text ↔
    2 ^ 64 ≤ b.value.getD 0 + 1 := by
  unfold incrementOverflows
  rw [split_minor]
  dsimp only
  cases b with
  | number n => rw [Part.text, Text.parseU64_repr, if_pos n.isLt]; rfl
  | wild w => cases w <;> decide

theorem incrementOverflows_three (p : Partial) (h : 3 ≤ p.parts.length) :
    ¬ incrementOverflows p.text := by
  obtain ⟨x, y, z, rest, hsplit⟩ := split_three p h
  unfold incrementOverflows
  rw [hsplit]
  exact id

theorem next_number {n : Fin (2 ^ 64)} (h : n.val + 1 < 2 ^ 64) :
    (Part.number n).next.val = n.val + 1 := by
  rw [Part.next, Fin.val_add]
  exact Nat.mod_eq_of_lt h

section Shapes

variable (lower : Core)

theorem upperMeets_number (n : Fin (2 ^ 64)) : UpperMeets lower (.major (.number n)) ↔
    ¬ 2 ^ 64 ≤ (Part.number n).value.getD 0 + 1 ∧ UpperReads (.major (.number n)) ∧
      ∀ i j k : Fin (2 ^ 64), ¬ Core.Before ⟨i.val, j.val, k.val⟩ lower →
        ((Partial.major (.number n)).UpperComparator ⟨i.val, j.val, k.val⟩ ↔
          (Partial.major (.number n)).Admits ⟨i.val, j.val, k.val⟩) := by
  constructor
  · intro h
    refine ⟨Nat.not_le.mpr h, trivial, fun i j k _ => ?_⟩
    unfold Partial.UpperComparator
    dsimp only
    rw [next_number h]
    exact Iff.rfl
  · intro h
    exact Nat.not_le.mp h.1

theorem upperMeets_numbers (i n : Fin (2 ^ 64)) : UpperMeets lower (.minor (.number i) (.number n)) ↔
    ¬ 2 ^ 64 ≤ (Part.number n).value.getD 0 + 1 ∧ UpperReads (.minor (.number i) (.number n)) ∧
      ∀ a b c : Fin (2 ^ 64), ¬ Core.Before ⟨a.val, b.val, c.val⟩ lower →
        ((Partial.minor (.number i) (.number n)).UpperComparator ⟨a.val, b.val, c.val⟩ ↔
          (Partial.minor (.number i) (.number n)).Admits ⟨a.val, b.val, c.val⟩) := by
  constructor
  · intro h
    refine ⟨Nat.not_le.mpr h, trivial, fun a b c _ => ?_⟩
    unfold Partial.UpperComparator
    dsimp only
    rw [next_number h]
    exact Iff.rfl
  · intro h
    exact Nat.not_le.mp h.1

variable {lower}

/-- A wildcard alone bounds nothing, but is counted up to one. -/
theorem upperMeets_wild
    (hlower : lower.major < 2 ^ 64 ∧ lower.minor < 2 ^ 64 ∧ lower.patch < 2 ^ 64) (w : Wild) : UpperMeets lower (.major (.wild w)) ↔
    ¬ 2 ^ 64 ≤ (Part.wild w).value.getD 0 + 1 ∧ UpperReads (.major (.wild w)) ∧
      ∀ i j k : Fin (2 ^ 64), ¬ Core.Before ⟨i.val, j.val, k.val⟩ lower →
        ((Partial.major (.wild w)).UpperComparator ⟨i.val, j.val, k.val⟩ ↔
          (Partial.major (.wild w)).Admits ⟨i.val, j.val, k.val⟩) := by
  constructor
  · intro h
    exact absurd h (by simp [UpperMeets])
  · rintro ⟨_, _, h⟩
    have hself := h ⟨lower.major, hlower.1⟩ ⟨lower.minor, hlower.2.1⟩ ⟨lower.patch, hlower.2.2⟩
      (Core.before_irrefl lower)
    have hone := h 1 0 0
    simp only [Partial.UpperComparator, Partial.Admits, Partial.values, Partial.parts, Part.next,
      List.map_cons, Part.value, Core.Before, iff_true] at hself hone
    exfalso
    have hval : (1 : Fin (2 ^ 64)).val = 1 := rfl
    have hzero : (0 : Fin (2 ^ 64)).val = 0 := rfl
    rw [hval] at hself hone
    rw [hzero] at hone
    omega

/-- The bound of a major number with a wildcard is set too low. -/
theorem upperMeets_numberWild
    (hlower : lower.major < 2 ^ 64 ∧ lower.minor < 2 ^ 64 ∧ lower.patch < 2 ^ 64)
    (n : Fin (2 ^ 64)) (w : Wild) :
    UpperMeets lower (.minor (.number n) (.wild w)) ↔
      ¬ 2 ^ 64 ≤ (Part.wild w).value.getD 0 + 1 ∧ UpperReads (.minor (.number n) (.wild w)) ∧
        ∀ i j k : Fin (2 ^ 64), ¬ Core.Before ⟨i.val, j.val, k.val⟩ lower →
          ((Partial.minor (.number n) (.wild w)).UpperComparator ⟨i.val, j.val, k.val⟩ ↔
            (Partial.minor (.number n) (.wild w)).Admits ⟨i.val, j.val, k.val⟩) := by
  have hval : (1 : Fin (2 ^ 64)).val = 1 := rfl
  have hzero : (0 : Fin (2 ^ 64)).val = 0 := rfl
  constructor
  · intro h
    refine ⟨Nat.not_le.mpr (by decide : 0 + 1 < 2 ^ 64), trivial, fun i j k hjk => ?_⟩
    simp only [UpperMeets, Partial.UpperComparator, Partial.Admits, Partial.values, Partial.parts,
      Part.next, List.map_cons, Part.value, Core.Before, hval] at h hjk ⊢
    omega
  · rintro ⟨_, _, h⟩ hbefore
    have hself := h ⟨lower.major, hlower.1⟩ ⟨lower.minor, hlower.2.1⟩ ⟨lower.patch, hlower.2.2⟩
      (Core.before_irrefl lower)
    have hone := h n 1 0
    simp only [Partial.UpperComparator, Partial.Admits, Partial.values, Partial.parts, Part.next,
      List.map_cons, Part.value, Core.Before, hval, hzero] at hself hone hbefore
    omega

end Shapes

/-- The releases between the ends are those that the upper comparator leaves. -/
theorem upperMeets_iff {lower : Core}
    (hlower : lower.major < 2 ^ 64 ∧ lower.minor < 2 ^ 64 ∧ lower.patch < 2 ^ 64) (B : Partial) :
    UpperMeets lower B ↔ ¬ incrementOverflows B.text ∧ UpperReads B ∧
      ∀ i j k : Fin (2 ^ 64), ¬ Core.Before ⟨i.val, j.val, k.val⟩ lower →
        (B.UpperComparator ⟨i.val, j.val, k.val⟩ ↔ B.Admits ⟨i.val, j.val, k.val⟩) := by
  have hthree : ∀ p : Partial, 3 ≤ p.parts.length → (UpperMeets lower p ↔ UpperReads p) →
      (∀ v, p.UpperComparator v ↔ p.Admits v) →
      (UpperMeets lower p ↔ ¬ incrementOverflows p.text ∧ UpperReads p ∧
        ∀ i j k : Fin (2 ^ 64), ¬ Core.Before ⟨i.val, j.val, k.val⟩ lower →
          (p.UpperComparator ⟨i.val, j.val, k.val⟩ ↔ p.Admits ⟨i.val, j.val, k.val⟩)) := by
    intro p hlength hiff hsame
    rw [hiff]
    exact ⟨fun h => ⟨incrementOverflows_three p hlength, h, fun i j k _ => hsame _⟩,
      fun h => h.2.1⟩
  cases B with
  | major a =>
      rw [incrementOverflows_major]
      cases a with
      | number n => exact upperMeets_number lower n
      | wild w => exact upperMeets_wild hlower w
  | minor a b =>
      rw [incrementOverflows_minor]
      cases a with
      | wild w => exact ⟨fun h => absurd h (by simp [UpperMeets]), fun h => absurd h.2.1 (by simp [UpperReads])⟩
      | number i =>
          cases b with
          | number n => exact upperMeets_numbers lower i n
          | wild w => exact upperMeets_numberWild hlower i w
  | patch a b c =>
      apply hthree _ (by simp [Partial.parts])
      · cases a <;> cases b <;> cases c <;> exact Iff.rfl
      · exact fun v => Iff.rfl
  | tagged i j k tag =>
      apply hthree _ (by simp [Partial.parts])
      · exact Iff.rfl
      · exact fun v => Iff.rfl

/-- A comparator that is not read leaves the requirement unread. -/
theorem mapM_hyphen (A B : Partial) : (hyphenComparators A B).mapM readComparator =
    (buildComparator (some .greaterEq) (A.lowerEnd.parts.map Part.value) A.lowerEnd.tagText).bind
      fun lower => (buildComparator (some B.upperEnd.1.op) (B.upperEnd.2.parts.map Part.value)
        B.upperEnd.2.tagText).map fun upper => [lower, upper] := by
  have hgap : ∀ c ∈ ("" : String).toList, Text.isWhitespace c = true := by simp
  have hlower := readComparator_operator .greaterEq hgap A.lowerEnd
  have hupper := readComparator_operator B.upperEnd.1 hgap B.upperEnd.2
  rw [String.empty_append] at hlower hupper
  have hfirst : readComparator (">=" ++ A.lowerEnd.text) =
      buildComparator (some .greaterEq) (A.lowerEnd.parts.map Part.value) A.lowerEnd.tagText := hlower
  rw [hyphenComparators, List.mapM_cons, List.mapM_cons, List.mapM_nil, hfirst, hupper]
  cases buildComparator (some .greaterEq) (A.lowerEnd.parts.map Part.value) A.lowerEnd.tagText with
  | none => rfl
  | some lower =>
      cases buildComparator (some B.upperEnd.1.op) (B.upperEnd.2.parts.map Part.value)
          B.upperEnd.2.tagText with
      | none => rfl
      | some upper => rfl

theorem readRequirement_hyphen (A B : Partial) :
    readRequirement (", ".intercalate (hyphenComparators A B)) =
      (hyphenComparators A B).mapM readComparator := by
  have hgap : ∀ c ∈ ("" : String).toList, c = ' ' := by simp
  have hlower := isComparatorText_operator .greaterEq hgap A.lowerEnd
  have hupper := isComparatorText_operator B.upperEnd.1 hgap B.upperEnd.2
  rw [String.empty_append] at hlower hupper
  have hwild : isWildcard (", ".intercalate (hyphenComparators A B)) = false := by
    have hlist : ',' ∈ (", ".intercalate (hyphenComparators A B)).toList := by
      rw [hyphenComparators, String.intercalate_cons_cons]
      simp
    simp only [isWildcard, Bool.or_eq_false_iff, decide_eq_false_iff_not]
    refine ⟨⟨?_, ?_⟩, ?_⟩
    · intro heq; rw [heq] at hlist; exact absurd hlist (by decide)
    · intro heq; rw [heq] at hlist; exact absurd hlist (by decide)
    · intro heq; rw [heq] at hlist; exact absurd hlist (by decide)
  have hne : hyphenComparators A B ≠ [] := List.cons_ne_nil _ _
  rw [readRequirement_intercalate hne _ hwild]
  · exact if_pos (by decide : 2 ≤ 32)
  · intro t ht
    cases ht with
    | head => exact hlower
    | tail _ ht =>
        cases ht with
        | head => exact hupper
        | tail _ ht => cases ht

theorem lower_lt (A : Partial) :
    A.lower.major < 2 ^ 64 ∧ A.lower.minor < 2 ^ 64 ∧ A.lower.patch < 2 ^ 64 := by
  have hzero : 0 < 2 ^ 64 := by decide
  cases A with
  | major a => cases a <;> simp [Partial.lower, Partial.values, Partial.parts, Part.value]
  | minor a b =>
      cases a <;> cases b <;> simp [Partial.lower, Partial.values, Partial.parts, Part.value]
  | patch a b c =>
      cases a <;> cases b <;> cases c <;>
        simp [Partial.lower, Partial.values, Partial.parts, Part.value]
  | tagged i j k tag => exact ⟨i.isLt, j.isLt, k.isLt⟩

/-- When both comparators are read, the set admits what both admit. -/
theorem parse_hyphen_ok {S : SemverCrate} {view : S.Version → Version}
    {before : String → String → Bool} {A B : Partial}
    (hcrate : ReadAsDocumented S view before (", ".intercalate (hyphenComparators A B)))
    (hA : LowerReads A) (hB : UpperReads B) :
    ∃ set, RangeSet.parse S (hyphenText A B) = .ok set ∧
      ∀ v c hc, view v = release c hc →
        (set.contains v = true ↔ ¬ c.Before A.lower ∧ B.UpperComparator c) := by
  obtain ⟨lower, hlower, hlowerMatches⟩ := lowerEnd_reads before hA
  obtain ⟨upper, hupper, hupperMatches⟩ := upperEnd_reads before hB
  have hread : readRequirement (", ".intercalate (hyphenComparators A B)) = some [lower, upper] := by
    rw [readRequirement_hyphen, mapM_hyphen, hlower, hupper]
    rfl
  obtain ⟨req, hreq, hmatches⟩ := hcrate.accepts _ hread
  refine ⟨⟨hyphenText A B, [req]⟩, ?_, ?_⟩
  · rw [parse_of_one S (requirementTexts_hyphen A B), hreq]
  · intro v c hc hview
    rw [← hlowerMatches c hc, ← hupperMatches c hc]
    rw [RangeSet.contains, List.any_cons, List.any_nil, Bool.or_false, hmatches, hview]
    simp [requirementMatches, release]

theorem parse_hyphen_error {S : SemverCrate} {view : S.Version → Version}
    {before : String → String → Bool} {A B : Partial}
    (hcrate : ReadAsDocumented S view before (", ".intercalate (hyphenComparators A B)))
    (h : ¬ (LowerReads A ∧ UpperReads B)) (set : RangeSet S) :
    RangeSet.parse S (hyphenText A B) ≠ .ok set := by
  have hread : readRequirement (", ".intercalate (hyphenComparators A B)) = none := by
    rw [readRequirement_hyphen, mapM_hyphen]
    by_cases hA : LowerReads A
    · obtain ⟨lower, hlower, _⟩ := lowerEnd_reads before hA
      rw [hlower, upperEnd_unread fun hB => h ⟨hA, hB⟩]
      rfl
    · rw [lowerEnd_unread hA]
      rfl
  obtain ⟨message, hmessage⟩ := hcrate.rejects hread
  rw [parse_of_one S (requirementTexts_hyphen A B), hmessage]
  intro heq
  cases heq

/-- Exactly when a hyphen range means what npm means by it. -/
theorem hyphen_meets_iff (S : SemverCrate) (view : S.Version → Version)
    (before : String → String → Bool)
    (newVersion : Fin (2 ^ 64) → Fin (2 ^ 64) → Fin (2 ^ 64) → S.Version) (A B : Partial)
    (hnew : ∀ i j k, view (newVersion i j k) = ⟨i, j, k, none⟩)
    (hcrate : ∀ text ∈ requirementTexts (hyphenText A B), ReadAsDocumented S view before text) :
    HyphenMeets S newVersion A B ↔ LowerReads A ∧ UpperMeets A.lower B := by
  rw [requirementTexts_hyphen, List.forall_mem_singleton] at hcrate
  have hview : ∀ i j k, view (newVersion i j k) =
      release ⟨i.val, j.val, k.val⟩ ⟨i.isLt, j.isLt, k.isLt⟩ := hnew
  rw [upperMeets_iff (lower_lt A), HyphenMeets]
  constructor
  · rintro ⟨hoverflow, set, hset, hcontains⟩
    have hreads : LowerReads A ∧ UpperReads B := by
      by_contra hnot
      exact parse_hyphen_error hcrate hnot set hset
    obtain ⟨other, hother, hmatches⟩ := parse_hyphen_ok hcrate hreads.1 hreads.2
    rw [hset, Except.ok.injEq] at hother
    subst hother
    refine ⟨hreads.1, hoverflow, hreads.2, fun i j k hlower => ?_⟩
    have hiff := (hmatches _ _ _ (hview i j k)).symm.trans (hcontains i j k)
    exact and_congr_right_iff.mp hiff hlower
  · rintro ⟨hA, hoverflow, hB, hsame⟩
    obtain ⟨set, hset, hmatches⟩ := parse_hyphen_ok hcrate hA hB
    refine ⟨hoverflow, set, hset, fun i j k => ?_⟩
    rw [hmatches _ _ _ (hview i j k)]
    exact and_congr_right fun hlower => hsame i j k hlower

/-- Byte order on pre-release texts without dots; releases never look at it. -/
def textBefore (p q : String) : Bool := p < q

theorem full_hyphen_meets :
    HyphenMeets (documentedCrate textBefore) (⟨·, ·, ·, none⟩)
        (.patch (.number 1) (.number 2) (.number 3)) (.patch (.number 2) (.number 3) (.number 4)) ↔
      True ∧ True :=
  hyphen_meets_iff (documentedCrate textBefore) id textBefore (⟨·, ·, ·, none⟩)
    (.patch (.number 1) (.number 2) (.number 3)) (.patch (.number 2) (.number 3) (.number 4))
    (fun _ _ _ => rfl) (fun text _ => documentedCrate_reads textBefore text)

/-- `1.2.3 - 2.x` leaves out `2.5.0`. -/
theorem wildcard_upper_excludes :
    ¬ HyphenMeets (documentedCrate textBefore) (⟨·, ·, ·, none⟩)
      (.patch (.number 1) (.number 2) (.number 3)) (.minor (.number 2) (.wild .lower)) := by
  intro ⟨_, set, hset, hcontains⟩
  have hmeant : Core.Before ⟨2, 5, 0⟩ ⟨3, 0, 0⟩ := .inl (by decide)
  have hlower : ¬ Core.Before ⟨2, 5, 0⟩ ⟨1, 2, 3⟩ := by
    unfold Core.Before
    decide
  have hin : set.contains (⟨2, 5, 0, none⟩ : Version) = true := (hcontains 2 5 0).mpr ⟨hlower, hmeant⟩
  have hout : ((RangeSet.parse (documentedCrate textBefore) "1.2.3 - 2.x").toOption.all
      fun set => !set.contains (⟨2, 5, 0, none⟩ : Version)) = true := by
    decide +kernel
  have htext : hyphenText (.patch (.number 1) (.number 2) (.number 3)) (.minor (.number 2) (.wild .lower)) =
      "1.2.3 - 2.x" := by
    decide +kernel
  rw [htext] at hset
  rw [hset] at hout
  simp [Except.toOption, hin] at hout

end Meets

end Snpm.Semver
