import Mathlib
import Snpm.Library.Words
import Snpm.Semver.Requirement

/-!
Full and partial versions as npm writes them, with numbers or wildcards as their
parts, and how they are read in a requirement.
-/
namespace Snpm.Semver

inductive Wild where
  | star
  | lower
  | upper

def Wild.text : Wild → String
  | .star => "*"
  | .lower => "x"
  | .upper => "X"

inductive Part where
  | number (n : Fin (2 ^ 64))
  | wild (w : Wild)

def Part.text : Part → String
  | .number n => toString n.val
  | .wild w => w.text

def Part.value : Part → Option Nat
  | .number n => some n.val
  | .wild _ => none

/-- A pre-release and a build part, each or neither. -/
structure Tag where
  pre : Option String
  build : Option String
  pre_valid : ∀ p ∈ pre, isPre p = true
  build_valid : ∀ b ∈ build, isBuild b = true

def Tag.text (tag : Tag) : String :=
  (tag.pre.map fun pre => "-" ++ pre).getD "" ++ (tag.build.map fun build => "+" ++ build).getD ""

/-- A version; parts may be missing at its end. -/
inductive Partial where
  | major (a : Part)
  | minor (a b : Part)
  | patch (a b c : Part)
  | tagged (a b c : Fin (2 ^ 64)) (tag : Tag)

namespace Partial

def parts : Partial → List Part
  | major a => [a]
  | minor a b => [a, b]
  | patch a b c => [a, b, c]
  | tagged a b c _ => [.number a, .number b, .number c]

def tagText : Partial → String
  | tagged _ _ _ tag => tag.text
  | _ => ""

def coreText (p : Partial) : String := ".".intercalate (p.parts.map Part.text)

def text (p : Partial) : String := p.coreText ++ p.tagText

end Partial

section Texts

@[simp]
theorem Partial.tagText_major (a : Part) : (Partial.major a).tagText = "" := rfl

@[simp]
theorem Partial.tagText_minor (a b : Part) : (Partial.minor a b).tagText = "" := rfl

@[simp]
theorem Partial.tagText_patch (a b c : Part) : (Partial.patch a b c).tagText = "" := rfl

theorem Partial.text_major (a : Part) : (Partial.major a).text = a.text := by
  rw [Partial.text, Partial.coreText, Partial.tagText_major, Partial.parts, List.map_singleton,
    String.intercalate_singleton, String.append_empty]

theorem Partial.text_minor (a b : Part) : (Partial.minor a b).text = a.text ++ "." ++ b.text := by
  rw [Partial.text, Partial.coreText, Partial.tagText_minor, Partial.parts, List.map_cons,
    List.map_singleton, String.intercalate_cons_cons, String.intercalate_singleton,
    String.append_empty]

theorem Partial.text_patch (a b c : Part) :
    (Partial.patch a b c).text = a.text ++ "." ++ (b.text ++ "." ++ c.text) := by
  rw [Partial.text, Partial.coreText, Partial.tagText_patch, Partial.parts, List.map_cons, List.map_cons,
    List.map_singleton, String.intercalate_cons_cons, String.intercalate_cons_cons,
    String.intercalate_singleton, String.append_empty]

end Texts

section Characters

/-- The characters that numbers, wildcards and tags are made of. -/
def isPartialChar (c : Char) : Bool := isIdentifierChar c || c = '*' || c = '.' || c = '+'

theorem isIdentifierChar_of_digit {c : Char} (h : Text.isAsciiDigit c = true) :
    isIdentifierChar c = true := by
  simp [isIdentifierChar, Text.isAsciiAlphanumeric, h]

theorem not_mem_of_partialChar {s : String} {c : Char} (h : ∀ d ∈ s.toList, isPartialChar d = true)
    (hc : isPartialChar c = false) : c ∉ s.toList := by
  intro hmem
  rw [h c hmem] at hc
  cases hc

theorem isPartialChar_range {c : Char} (h : isPartialChar c = true) : 42 ≤ c.toNat ∧ c.toNat ≤ 122 := by
  have hrange : ∀ low high : Char, 42 ≤ low.toNat → high.toNat ≤ 122 →
      (low ≤ c && c ≤ high) = true → 42 ≤ c.toNat ∧ c.toNat ≤ 122 := by
    intro low high hlow hhigh hc
    rw [Bool.and_eq_true, decide_eq_true_eq, decide_eq_true_eq] at hc
    exact ⟨Nat.le_trans hlow hc.1, Nat.le_trans hc.2 hhigh⟩
  have hone : ∀ d : Char, 42 ≤ d.toNat → d.toNat ≤ 122 → decide (c = d) = true →
      42 ≤ c.toNat ∧ c.toNat ≤ 122 := by
    intro d hlow hhigh hc
    rw [of_decide_eq_true hc]
    exact ⟨hlow, hhigh⟩
  rw [isPartialChar, isIdentifierChar, Text.isAsciiAlphanumeric, Text.isAsciiDigit, Bool.or_eq_true,
    Bool.or_eq_true, Bool.or_eq_true, Bool.or_eq_true, Bool.or_eq_true, Bool.or_eq_true] at h
  obtain ((((((h | h) | h) | h) | h) | h) | h) := h
  · exact hrange '0' '9' (by decide) (by decide) h
  · exact hrange 'a' 'z' (by decide) (by decide) h
  · exact hrange 'A' 'Z' (by decide) (by decide) h
  · exact hone '-' (by decide) (by decide) h
  · exact hone '*' (by decide) (by decide) h
  · exact hone '.' (by decide) (by decide) h
  · exact hone '+' (by decide) (by decide) h

theorem isPartialChar_visible {c : Char} (h : isPartialChar c = true) : Text.isWhitespace c = false := by
  have hrange := isPartialChar_range h
  unfold Text.isWhitespace
  simp only [Bool.or_eq_false_iff, Bool.and_eq_false_iff, decide_eq_false_iff_not, beq_eq_false_iff_ne]
  omega

theorem Part.text_chars (a : Part) : ∀ c ∈ a.text.toList,
    (Text.isAsciiDigit c || c = '*' || c = 'x' || c = 'X') = true := by
  intro c hc
  cases a with
  | number n =>
      have hdigit := Text.isAsciiDigit_of_mem_repr hc
      simp [hdigit]
  | wild w =>
      cases w with
      | star =>
          have heq : c = '*' := by simpa [Part.text, Wild.text] using hc
          simp [heq]
      | lower =>
          have heq : c = 'x' := by simpa [Part.text, Wild.text] using hc
          simp [heq]
      | upper =>
          have heq : c = 'X' := by simpa [Part.text, Wild.text] using hc
          simp [heq]

theorem Part.text_ne_empty (a : Part) : a.text ≠ "" := by
  cases a with
  | number n => exact fun h => Text.repr_ne_nil n.val (congrArg String.toList h)
  | wild w => cases w <;> decide

theorem Part.text_free {c : Char} (a : Part)
    (hc : (Text.isAsciiDigit c || c = '*' || c = 'x' || c = 'X') = false) : c ∉ a.text.toList := by
  intro hmem
  rw [a.text_chars c hmem] at hc
  cases hc

theorem Part.partialChar {a : Part} {c : Char} (hc : c ∈ a.text.toList) : isPartialChar c = true := by
  have htext := a.text_chars c hc
  simp only [Bool.or_eq_true, decide_eq_true_eq] at htext
  obtain (((h | h) | h) | h) := htext
  · simp [isPartialChar, isIdentifierChar_of_digit h]
  · rw [h]; decide
  · rw [h]; decide
  · rw [h]; decide

theorem identifiers_chars {s : String} {c : Char}
    (h : ∀ part ∈ Text.split s (· = '.'), isIdentifier part = true) (hc : c ∈ s.toList) :
    isIdentifierChar c = true ∨ c = '.' := by
  cases Text.exists_part_of_mem (p := (· = '.')) hc with
  | inl hdot => exact .inr (of_decide_eq_true hdot)
  | inr hpart =>
      obtain ⟨part, hpart, hmem⟩ := hpart
      have hidentifier := h part hpart
      rw [isIdentifier, Bool.and_eq_true] at hidentifier
      exact .inl (List.all_eq_true.mp hidentifier.2 c hmem)

theorem pre_chars {s : String} {c : Char} (h : isPre s = true) (hc : c ∈ s.toList) :
    isIdentifierChar c = true ∨ c = '.' := by
  apply identifiers_chars _ hc
  intro part hpart
  have hvalid := List.all_eq_true.mp h part hpart
  rw [Bool.and_eq_true] at hvalid
  exact hvalid.1

theorem build_chars {s : String} {c : Char} (h : isBuild s = true) (hc : c ∈ s.toList) :
    isIdentifierChar c = true ∨ c = '.' :=
  identifiers_chars (List.all_eq_true.mp h) hc

theorem isPartialChar_of {c : Char} (h : isIdentifierChar c = true ∨ c = '.') :
    isPartialChar c = true := by
  cases h with
  | inl h => simp [isPartialChar, h]
  | inr h => rw [h]; decide

/-- A tag is empty or starts with a hyphen or a plus sign. -/
theorem Tag.text_head (tag : Tag) : tag.text = "" ∨ tag.text.toList.head? = some '-' ∨
    tag.text.toList.head? = some '+' := by
  rw [Tag.text]
  cases tag.pre with
  | some pre => exact .inr (.inl (by simp))
  | none =>
      cases tag.build with
      | some build => exact .inr (.inr (by simp))
      | none => exact .inl rfl

theorem Tag.text_chars (tag : Tag) : ∀ c ∈ tag.text.toList, isPartialChar c = true := by
  intro c hc
  rw [Tag.text, String.toList_append, List.mem_append] at hc
  cases hc with
  | inl hc =>
      cases hpre : tag.pre with
      | none => simp [hpre] at hc
      | some pre =>
          have hmem : c = '-' ∨ c ∈ pre.toList := by simpa [hpre] using hc
          cases hmem with
          | inl heq => rw [heq]; decide
          | inr hmem => exact isPartialChar_of (pre_chars (tag.pre_valid pre hpre) hmem)
  | inr hc =>
      cases hbuild : tag.build with
      | none => simp [hbuild] at hc
      | some build =>
          have hmem : c = '+' ∨ c ∈ build.toList := by simpa [hbuild] using hc
          cases hmem with
          | inl heq => rw [heq]; decide
          | inr hmem => exact isPartialChar_of (build_chars (tag.build_valid build hbuild) hmem)

theorem mem_intercalate_dot {ts : List String} {c : Char} (h : c ∈ (".".intercalate ts).toList) :
    c = '.' ∨ ∃ t ∈ ts, c ∈ t.toList := by
  simpa using Text.mem_intercalate h

theorem Partial.coreText_chars (p : Partial) {c : Char} (hc : c ∈ p.coreText.toList) :
    c = '.' ∨ (Text.isAsciiDigit c || c = '*' || c = 'x' || c = 'X') = true := by
  cases mem_intercalate_dot hc with
  | inl hdot => exact .inl hdot
  | inr hpart =>
      obtain ⟨part, hpart, hmem⟩ := hpart
      obtain ⟨a, _, ha⟩ := List.mem_map.mp hpart
      rw [← ha] at hmem
      exact .inr (a.text_chars c hmem)

theorem Partial.text_chars (p : Partial) : ∀ c ∈ p.text.toList, isPartialChar c = true := by
  intro c hc
  rw [Partial.text, String.toList_append, List.mem_append] at hc
  cases hc with
  | inl hc =>
      cases mem_intercalate_dot hc with
      | inl hdot => rw [hdot]; decide
      | inr hpart =>
          obtain ⟨part, hpart, hmem⟩ := hpart
          obtain ⟨a, _, ha⟩ := List.mem_map.mp hpart
          exact Part.partialChar (ha ▸ hmem)
  | inr hc =>
      cases p with
      | tagged a b c tag => exact tag.text_chars _ hc
      | major a => simp [Partial.tagText] at hc
      | minor a b => simp [Partial.tagText] at hc
      | patch a b c => simp [Partial.tagText] at hc

end Characters

section Reading

theorem readNumber_repr (n : Fin (2 ^ 64)) : readNumber (toString n.val) = some n.val := by
  have hdigits : (toString n.val).toList.all Text.isAsciiDigit = true :=
    List.all_eq_true.mpr fun c hc => Text.isAsciiDigit_of_mem_repr hc
  rw [readNumber, if_pos ⟨hdigits, Text.head_repr n.val⟩, Text.parseU64_repr, if_pos n.isLt]

theorem isWildcard_repr (n : Nat) : isWildcard (toString n) = false := by
  have hfree : ∀ c : Char, Text.isAsciiDigit c = false → toString n ≠ String.singleton c := by
    intro c hc heq
    apply Text.not_mem_repr (n := n) hc
    rw [heq]
    simp
  have hstar := hfree '*' (by decide)
  have hlower := hfree 'x' (by decide)
  have hupper := hfree 'X' (by decide)
  simp only [isWildcard, Bool.or_eq_false_iff, decide_eq_false_iff_not]
  exact ⟨⟨hstar, hlower⟩, hupper⟩

theorem readPart_text (a : Part) : readPart a.text = some a.value := by
  cases a with
  | number n =>
      rw [Part.text, readPart, isWildcard_repr, if_neg Bool.false_ne_true, readNumber_repr]
      rfl
  | wild w => cases w <;> decide

theorem mapM_readPart (as : List Part) : (as.map Part.text).mapM readPart = some (as.map Part.value) := by
  induction as with
  | nil => rfl
  | cons a as ih =>
      rw [List.map_cons, List.mapM_cons, readPart_text, ih]
      rfl

theorem Partial.parts_ne_nil (p : Partial) : p.parts ≠ [] := by
  cases p <;> exact List.cons_ne_nil _ _

theorem Partial.split_coreText (p : Partial) :
    Text.split p.coreText (· = '.') = p.parts.map Part.text := by
  have hdot : "." = String.singleton '.' := by decide
  rw [Partial.coreText, hdot]
  apply Text.split_intercalate
  · simpa using p.parts_ne_nil
  · intro t ht
    obtain ⟨a, _, ha⟩ := List.mem_map.mp ht
    rw [← ha]
    exact a.text_free (by decide)

theorem Partial.tagText_head (p : Partial) : p.tagText = "" ∨ p.tagText.toList.head? = some '-' ∨
    p.tagText.toList.head? = some '+' := by
  cases p with
  | tagged a b c tag => exact tag.text_head
  | major a => exact .inl rfl
  | minor a b => exact .inl rfl
  | patch a b c => exact .inl rfl

/-- The numbers end where the tag starts. -/
theorem Partial.find_tag (p : Partial) :
    (Text.find p.text fun c => c = '-' || c = '+').getD (p.text, "") = (p.coreText, p.tagText) := by
  have hfree : ∀ c ∈ p.coreText.toList, (decide (c = '-') || decide (c = '+')) = false := by
    intro c hc
    cases p.coreText_chars hc with
    | inl hdot => rw [hdot]; decide
    | inr hpart =>
        rw [Bool.or_eq_false_iff, decide_eq_false_iff_not, decide_eq_false_iff_not]
        constructor
        · intro heq
          rw [heq] at hpart
          exact absurd hpart (by decide)
        · intro heq
          rw [heq] at hpart
          exact absurd hpart (by decide)
  obtain (hempty | hhead | hhead) := p.tagText_head
  · have hnone : (Text.find p.text fun c => c = '-' || c = '+') = none := by
      rw [Text.find_eq_none_iff, Partial.text, hempty, String.append_empty]
      exact hfree
    rw [hnone, Option.getD_none, Partial.text, hempty, String.append_empty]
  · rw [Partial.text, Text.find_append hfree hhead (by decide), Option.getD_some]
  · rw [Partial.text, Text.find_append hfree hhead (by decide), Option.getD_some]

/-- A build tag says nothing about the pre-release tag. -/
theorem readTag_build {front build : String} (h : '+' ∉ front.toList) (hbuild : isBuild build = true) :
    readTag (front ++ String.singleton '+' ++ build) = readTag front := by
  simp only [readTag, Text.splitOnce_append front build h, Text.splitOnce_eq_none_iff.mpr h,
    Option.all_some, Option.all_none, hbuild]

theorem readTag_text (tag : Tag) : readTag tag.text = some tag.pre := by
  have hfront : '+' ∉ ((tag.pre.map fun pre => "-" ++ pre).getD "").toList := by
    intro hmem
    cases hpre : tag.pre with
    | none => simp [hpre] at hmem
    | some pre =>
        have hc : '+' ∈ pre.toList := by simpa [hpre] using hmem
        exact absurd (pre_chars (tag.pre_valid pre hpre) hc) (by decide)
  have hread : readTag ((tag.pre.map fun pre => "-" ++ pre).getD "") = some tag.pre := by
    unfold readTag
    rw [Text.splitOnce_eq_none_iff.mpr hfront]
    dsimp only
    rw [Option.all_none, if_pos rfl]
    cases hpre : tag.pre with
    | none => rfl
    | some pre =>
        have hne : "-" ++ pre ≠ "" := by
          intro h
          have hlist := congrArg String.toList h
          simp at hlist
        rw [Option.map_some, Option.getD_some, if_neg hne, Text.stripPrefix_append]
        dsimp only
        rw [if_pos (tag.pre_valid pre hpre)]
  rw [Tag.text]
  cases hbuild : tag.build with
  | none =>
      rw [Option.map_none, Option.getD_none, String.append_empty]
      exact hread
  | some build =>
      have hplus : ("+" : String) = String.singleton '+' := by decide
      rw [Option.map_some, Option.getD_some, hplus, ← String.append_assoc,
        readTag_build hfront (tag.build_valid build hbuild)]
      exact hread

/-- The operators that may stand before a version. -/
inductive Operator where
  | equal
  | greater
  | greaterEq
  | less
  | lessEq
  | tilde
  | caret
deriving DecidableEq

def Operator.text : Operator → String
  | .equal => "="
  | .greater => ">"
  | .greaterEq => ">="
  | .less => "<"
  | .lessEq => "<="
  | .tilde => "~"
  | .caret => "^"

def Operator.op : Operator → Op
  | .equal => .exact
  | .greater => .greater
  | .greaterEq => .greaterEq
  | .less => .less
  | .lessEq => .lessEq
  | .tilde => .tilde
  | .caret => .caret

theorem stripPrefix_cons {s p : String} {c d : Char} {cs ds : List Char} (hs : s.toList = c :: cs)
    (hp : p.toList = d :: ds) (h : c ≠ d) : Text.stripPrefix s p = none := by
  apply Text.stripPrefix_eq_none
  · rw [hs, hp, List.head?_cons, List.head?_cons]
    exact fun heq => h (Option.some.inj heq)
  · intro hempty
    rw [hempty] at hp
    cases hp

theorem readOp_text (operator : Operator) {rest : String} (h : rest.toList.head? ≠ some '=') :
    readOp (operator.text ++ rest) = (some operator.op, rest) := by
  have hequal : ∀ c : Char, Text.stripPrefix (String.singleton c ++ rest) (String.ofList [c, '=']) =
      none := by
    intro c
    rw [Text.stripPrefix, if_neg]
    rw [Text.startsWith, List.isPrefixOf_iff_prefix]
    rintro ⟨after, hafter⟩
    have hlist : rest.toList = '=' :: after := by simpa using hafter.symm
    rw [hlist] at h
    exact h rfl
  have hgreater : Text.stripPrefix (">" ++ rest) ">=" = none := hequal '>'
  have hless : Text.stripPrefix ("<" ++ rest) "<=" = none := hequal '<'
  have hother : ∀ (c d : Char) (s p : String), c ≠ d → s.toList.head? = some c →
      p.toList.head? = some d → Text.stripPrefix (s ++ rest) p = none := by
    intro c d s p hne hs hp
    obtain ⟨cs, hcs⟩ := List.head?_eq_some_iff.mp hs
    obtain ⟨ds, hds⟩ := List.head?_eq_some_iff.mp hp
    apply stripPrefix_cons _ hds hne
    · exact cs ++ rest.toList
    · rw [String.toList_append, hcs, List.cons_append]
  unfold readOp operators
  cases operator with
  | equal =>
      simp only [Operator.text, Operator.op, List.findSome?_cons,
        hother '=' '>' "=" ">=" (by decide) (by decide) (by decide),
        hother '=' '<' "=" "<=" (by decide) (by decide) (by decide),
        Text.stripPrefix_append, Option.map_none, Option.map_some, Option.getD_some]
  | greater =>
      simp only [Operator.text, Operator.op, List.findSome?_cons, hgreater,
        hother '>' '<' ">" "<=" (by decide) (by decide) (by decide),
        hother '>' '=' ">" "=" (by decide) (by decide) (by decide),
        Text.stripPrefix_append, Option.map_none, Option.map_some, Option.getD_some]
  | greaterEq =>
      simp only [Operator.text, Operator.op, List.findSome?_cons, Text.stripPrefix_append,
        Option.map_some, Option.getD_some]
  | less =>
      simp only [Operator.text, Operator.op, List.findSome?_cons, hless,
        hother '<' '>' "<" ">=" (by decide) (by decide) (by decide),
        hother '<' '=' "<" "=" (by decide) (by decide) (by decide),
        hother '<' '>' "<" ">" (by decide) (by decide) (by decide),
        Text.stripPrefix_append, Option.map_none, Option.map_some, Option.getD_some]
  | lessEq =>
      simp only [Operator.text, Operator.op, List.findSome?_cons,
        hother '<' '>' "<=" ">=" (by decide) (by decide) (by decide),
        Text.stripPrefix_append, Option.map_none, Option.map_some, Option.getD_some]
  | tilde =>
      simp only [Operator.text, Operator.op, List.findSome?_cons,
        hother '~' '>' "~" ">=" (by decide) (by decide) (by decide),
        hother '~' '<' "~" "<=" (by decide) (by decide) (by decide),
        hother '~' '=' "~" "=" (by decide) (by decide) (by decide),
        hother '~' '>' "~" ">" (by decide) (by decide) (by decide),
        hother '~' '<' "~" "<" (by decide) (by decide) (by decide),
        Text.stripPrefix_append, Option.map_none, Option.map_some, Option.getD_some]
  | caret =>
      simp only [Operator.text, Operator.op, List.findSome?_cons,
        hother '^' '>' "^" ">=" (by decide) (by decide) (by decide),
        hother '^' '<' "^" "<=" (by decide) (by decide) (by decide),
        hother '^' '=' "^" "=" (by decide) (by decide) (by decide),
        hother '^' '>' "^" ">" (by decide) (by decide) (by decide),
        hother '^' '<' "^" "<" (by decide) (by decide) (by decide),
        hother '^' '~' "^" "~" (by decide) (by decide) (by decide),
        Text.stripPrefix_append, Option.map_none, Option.map_some, Option.getD_some]

/-- What a version starts with. -/
theorem Partial.exists_head (p : Partial) : ∃ c cs, p.text.toList = c :: cs ∧
    (Text.isAsciiDigit c || c = '*' || c = 'x' || c = 'X') = true := by
  obtain ⟨a, as, hparts⟩ := List.exists_cons_of_ne_nil p.parts_ne_nil
  obtain ⟨rest, hrest⟩ : ∃ rest, p.text = a.text ++ rest := by
    rw [Partial.text, Partial.coreText, hparts, List.map_cons]
    cases as with
    | nil => exact ⟨p.tagText, by rw [List.map_nil, String.intercalate_singleton]⟩
    | cons b as =>
        refine ⟨"." ++ ".".intercalate (b.text :: as.map Part.text) ++ p.tagText, ?_⟩
        rw [List.map_cons, String.intercalate_cons_cons, String.append_assoc, String.append_assoc,
          String.append_assoc]
  have hne : a.text.toList ≠ [] := fun hnil => a.text_ne_empty (String.toList_inj.mp hnil)
  obtain ⟨c, cs, hcs⟩ := List.exists_cons_of_ne_nil hne
  refine ⟨c, cs ++ rest.toList, ?_, a.text_chars c (by rw [hcs]; exact List.mem_cons_self)⟩
  rw [hrest, String.toList_append, hcs, List.cons_append]

theorem not_operator_of_part {c : Char}
    (h : (Text.isAsciiDigit c || c = '*' || c = 'x' || c = 'X') = true) : isOperatorChar c = false := by
  cases hc : isOperatorChar c with
  | false => rfl
  | true =>
      simp only [isOperatorChar, Bool.or_eq_true, decide_eq_true_eq] at hc
      obtain ((((hc | hc) | hc) | hc) | hc) := hc
      · rw [hc] at h; exact absurd h (by decide)
      · rw [hc] at h; exact absurd h (by decide)
      · rw [hc] at h; exact absurd h (by decide)
      · rw [hc] at h; exact absurd h (by decide)
      · rw [hc] at h; exact absurd h (by decide)

theorem readOp_partial (p : Partial) : readOp p.text = (none, p.text) := by
  obtain ⟨c, cs, hlist, hc⟩ := p.exists_head
  have hheads : ∀ e ∈ operators, (e.1.toList.head?.any isOperatorChar) = true := by decide
  have hnone : operators.findSome? (fun e =>
      (Text.stripPrefix p.text e.1).map fun rest => (some e.2, rest)) = none := by
    rw [List.findSome?_eq_none_iff]
    intro e he
    have hhead := hheads e he
    cases htext : e.1.toList with
    | nil => rw [htext] at hhead; cases hhead
    | cons d ds =>
        rw [htext] at hhead
        have hd : isOperatorChar d = true := hhead
        have hne : c ≠ d := by
          intro heq
          rw [heq] at hc
          rw [not_operator_of_part hc] at hd
          cases hd
        rw [stripPrefix_cons hlist htext hne, Option.map_none]
  exact congrArg (fun found => found.getD (none, p.text)) hnone

theorem Partial.text_tight (p : Partial) : Text.Tight p.text where
  first := fun c hc => isPartialChar_visible (p.text_chars c (List.mem_of_head? hc))
  last := fun c hc => isPartialChar_visible (p.text_chars c (List.mem_of_getLast? hc))

/-- The version of a comparator, after its operator and a gap. -/
theorem readComparator_operator (operator : Operator) {gap : String}
    (hgap : ∀ c ∈ gap.toList, Text.isWhitespace c = true) (p : Partial) :
    readComparator (operator.text ++ (gap ++ p.text)) =
      buildComparator (some operator.op) (p.parts.map Part.value) p.tagText := by
  have hhead : (gap ++ p.text).toList.head? ≠ some '=' := by
    intro heq
    rw [String.toList_append] at heq
    cases hlist : gap.toList with
    | nil =>
        obtain ⟨c, cs, htext, hc⟩ := p.exists_head
        rw [hlist, htext, List.nil_append, List.head?_cons, Option.some.injEq] at heq
        rw [heq] at hc
        exact absurd hc (by decide)
    | cons c cs =>
        have hc := hgap c (by rw [hlist]; exact List.mem_cons_self)
        rw [hlist, List.cons_append, List.head?_cons, Option.some.injEq] at heq
        rw [heq] at hc
        exact absurd hc (by decide)
  rw [readComparator, readOp_text operator hhead]
  dsimp only
  rw [p.text_tight.trim_append hgap, p.find_tag]
  dsimp only
  rw [p.split_coreText, mapM_readPart, Option.bind_some]

theorem readComparator_bare (p : Partial) : readComparator p.text =
    buildComparator none (p.parts.map Part.value) p.tagText := by
  rw [readComparator, readOp_partial]
  dsimp only
  rw [p.text_tight.trim_eq, p.find_tag]
  dsimp only
  rw [p.split_coreText, mapM_readPart, Option.bind_some]

/-- A comparator of a requirement text. -/
structure IsComparatorText (t : String) : Prop where
  tight : Text.Tight t
  ne_empty : t ≠ ""
  plain : ',' ∉ t.toList

theorem operatorChar_visible {c : Char} (h : isOperatorChar c = true) :
    Text.isWhitespace c = false ∧ c ≠ ',' := by
  simp only [isOperatorChar, Bool.or_eq_true, decide_eq_true_eq] at h
  obtain ((((h | h) | h) | h) | h) := h
  · rw [h]; decide
  · rw [h]; decide
  · rw [h]; decide
  · rw [h]; decide
  · rw [h]; decide

theorem Operator.text_ne_empty (operator : Operator) : operator.text ≠ "" := by
  cases operator <;> decide

theorem Operator.text_chars (operator : Operator) :
    ∀ c ∈ operator.text.toList, isOperatorChar c = true := by
  have hall : operator.text.toList.all isOperatorChar = true := by
    cases operator <;> decide
  exact List.all_eq_true.mp hall

theorem Partial.text_ne_empty (p : Partial) : p.text ≠ "" := by
  intro h
  obtain ⟨c, cs, hlist, _⟩ := p.exists_head
  rw [h] at hlist
  cases hlist

theorem Partial.isComparatorText (p : Partial) : IsComparatorText p.text where
  tight := p.text_tight
  ne_empty := p.text_ne_empty
  plain := not_mem_of_partialChar p.text_chars (by decide)

theorem isComparatorText_operator (operator : Operator) {gap : String}
    (hgap : ∀ c ∈ gap.toList, c = ' ') (p : Partial) :
    IsComparatorText (operator.text ++ (gap ++ p.text)) where
  tight := by
    have hne : operator.text.toList ≠ [] :=
      fun hnil => operator.text_ne_empty (String.toList_inj.mp hnil)
    have hlast : p.text.toList ≠ [] := fun hnil => p.text_ne_empty (String.toList_inj.mp hnil)
    constructor
    · intro c hc
      rw [String.toList_append, List.head?_append_of_ne_nil _ hne] at hc
      exact (operatorChar_visible (operator.text_chars c (List.mem_of_head? hc))).1
    · intro c hc
      rw [String.toList_append, String.toList_append, List.getLast?_append_of_ne_nil _ (by simp [hlast]),
        List.getLast?_append_of_ne_nil _ hlast] at hc
      exact p.text_tight.last c hc
  ne_empty := by
    intro h
    have hlist := congrArg String.toList h
    rw [String.toList_append] at hlist
    exact operator.text_ne_empty (String.toList_inj.mp (List.append_eq_nil_iff.mp hlist).1)
  plain := by
    intro hmem
    rw [String.toList_append, String.toList_append, List.mem_append, List.mem_append] at hmem
    obtain (h | h | h) := hmem
    · exact (operatorChar_visible (operator.text_chars ',' h)).2 rfl
    · exact absurd (hgap ',' h) (by decide)
    · exact p.isComparatorText.plain h

theorem tight_intercalate {ts : List String} (hne : ts ≠ []) (h : ∀ t ∈ ts, IsComparatorText t) :
    Text.Tight (", ".intercalate ts) ∧ ", ".intercalate ts ≠ "" := by
  induction ts with
  | nil => exact absurd rfl hne
  | cons t ts ih =>
      have ht := h t List.mem_cons_self
      cases ts with
      | nil =>
          rw [String.intercalate_singleton]
          exact ⟨ht.tight, ht.ne_empty⟩
      | cons next ts =>
          have hrest := ih (List.cons_ne_nil _ _) fun u hu => h u (List.mem_cons_of_mem t hu)
          have htne : t.toList ≠ [] := fun hnil => ht.ne_empty (String.toList_inj.mp hnil)
          have hrestne : (", ".intercalate (next :: ts)).toList ≠ [] :=
            fun hnil => hrest.2 (String.toList_inj.mp hnil)
          rw [String.intercalate_cons_cons]
          refine ⟨⟨?_, ?_⟩, ?_⟩
          · intro c hc
            rw [String.toList_append, String.toList_append, List.append_assoc,
              List.head?_append_of_ne_nil _ htne] at hc
            exact ht.tight.first c hc
          · intro c hc
            rw [String.toList_append, List.getLast?_append_of_ne_nil _ hrestne] at hc
            exact hrest.1.last c hc
          · intro hempty
            have hlist := congrArg String.toList hempty
            rw [String.toList_append] at hlist
            exact hrestne (List.append_eq_nil_iff.mp hlist).2

/-- What a requirement of several comparators is read as. -/
theorem readRequirement_intercalate {ts : List String} (hne : ts ≠ [])
    (h : ∀ t ∈ ts, IsComparatorText t) (hwild : isWildcard (", ".intercalate ts) = false) :
    readRequirement (", ".intercalate ts) =
      if ts.length ≤ 32 then ts.mapM readComparator else none := by
  have hsplit := Text.split_intercalate_comma hne (fun t ht => ⟨(h t ht).tight, (h t ht).plain⟩)
    (w := "") (by simp)
  rw [String.empty_append] at hsplit
  rw [readRequirement, (tight_intercalate hne h).1.trim_eq]
  dsimp only
  rw [hwild, hsplit, if_neg Bool.false_ne_true]

end Reading

end Snpm.Semver
