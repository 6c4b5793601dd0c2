import Mathlib
import Snpm.Library.Text
import Snpm.Library.Utf8
import Snpm.Library.SeqParts
import Snpm.Library.Wildcard

/-!
Package name patterns of `why`. The matcher searches the parts of a pattern from
left to right and slices the value at byte offsets.
-/
namespace Snpm.Why

/-- The loop over the parts. `none` is a slice panic and `some none` an early
`false`; otherwise the cursor is left behind the last part. -/
def walkParts (value : String) (startsAnchored : Bool) : List String → Nat → Nat → Option (Option Nat)
  | [], _, cursor => some (some cursor)
  | part :: parts, idx, cursor =>
      (Text.sliceFrom value cursor).bind fun tail =>
        if idx = 0 && startsAnchored then
          if Text.startsWith tail part then
            walkParts value startsAnchored parts (idx + 1) (cursor + part.utf8ByteSize)
          else some none
        else
          match Text.findSeq tail part with
          | none => some none
          | some found =>
              walkParts value startsAnchored parts (idx + 1) (cursor + (found + part.utf8ByteSize))

/-- `none` is a slice panic. -/
def matchesPattern (value pattern : String) : Option Bool :=
  if pattern = "*" then some true
  else if !Text.containsChar pattern (· = '*') then some (value == pattern)
  else
    let startsAnchored := !Text.startsWith pattern "*"
    let endsAnchored := !Text.endsWith pattern "*"
    let parts := (Text.split pattern (· = '*')).filter (· ≠ "")
    if parts.isEmpty then some true
    else
      (walkParts value startsAnchored parts 0 0).map fun
        | none => false
        | some _ =>
            if endsAnchored then
              match parts.getLast? with
              | some last => Text.endsWith value last
              | none => true
            else true

/-- The value is one of those a pattern with `*` wildcards stands for. -/
def InLanguage (pattern value : String) : Prop :=
  Wildcard.Matches '*' pattern.toList value.toList

open Wildcard

/-- A loop that searches every part finds them exactly when they stand in order
behind the cursor. -/
theorem walkParts_search (startsAnchored : Bool) (parts : List String) (front tail : String)
    (idx : Nat) (hidx : idx ≠ 0 ∨ startsAnchored = false) :
    ∃ end?, walkParts (front ++ tail) startsAnchored parts idx front.utf8ByteSize = some end? ∧
      (end?.isSome ↔ InOrder (parts.map String.toList) [] tail.toList) := by
  induction parts generalizing front tail idx with
  | nil => exact ⟨some front.utf8ByteSize, rfl, by simp [InOrder]⟩
  | cons part parts ih =>
      have hsearch : (decide (idx = 0) && startsAnchored) = false := by
        cases hidx with
        | inl h => simp [h]
        | inr h => simp [h]
      simp only [walkParts, Text.sliceFrom_append, Option.bind_some, hsearch, Bool.false_eq_true,
        if_false]
      cases hfound : Text.findSeq tail part with
      | none =>
          refine ⟨none, rfl, ?_⟩
          have hnone : ¬ InOrder (part.toList :: parts.map String.toList) [] tail.toList :=
            not_inOrder_cons (Text.firstOffset_eq_none hfound)
          simpa using hnone
      | some found =>
          obtain ⟨skip, rest, htail, rfl, hfirst⟩ := Text.firstOffset_eq_some hfound
          have hsplit : front ++ tail = (front ++ String.ofList skip ++ part) ++ String.ofList rest := by
            rw [← String.toList_inj]
            simp only [String.toList_append, String.toList_ofList, htail, List.append_assoc]
          have hcursor : front.utf8ByteSize + ((String.ofList skip).utf8ByteSize + part.utf8ByteSize) =
              (front ++ String.ofList skip ++ part).utf8ByteSize := by
            rw [String.utf8ByteSize_append, String.utf8ByteSize_append, Nat.add_assoc]
          have hrest := ih (front ++ String.ofList skip ++ part) (String.ofList rest) (idx + 1)
            (.inl (Nat.succ_ne_zero idx))
          obtain ⟨end?, hwalk, hend⟩ := hrest
          refine ⟨end?, ?_, ?_⟩
          · simp only [hsplit, hcursor, hwalk]
          · rw [hend, List.map_cons, inOrder_cons_iff ⟨⟨skip, htail⟩, hfirst⟩, String.toList_ofList]

theorem parts_toList (pattern : String) :
    ((Text.split pattern (· = '*')).filter (· ≠ "")).map String.toList =
      (pattern.toList.splitOnP (· = '*')).filter (· ≠ []) := by
  rw [Text.split, List.filter_map, List.map_map]
  have hid : String.toList ∘ String.ofList = id := by
    funext cs
    exact String.toList_ofList
  rw [hid, List.map_id]
  apply List.filter_congr
  intro cs _
  simp

theorem endsWith_iff_suffix {s p : String} :
    Text.endsWith s p = true ↔ p.toList <:+ s.toList := by
  rw [Text.endsWith, List.isSuffixOf_iff_suffix]

section Pieces

variable {pattern first last : List Char} {inner : List (List Char)} {parts : List String}

/-- The loop finds the first part at the beginning of the value unless the
pattern starts with a wildcard, and the others in order behind it. -/
theorem walkParts_pieces (hparts : parts.map String.toList =
      (first :: (inner ++ [last])).filter (· ≠ [])) (value : String) :
    ∃ end?, walkParts value (decide (first ≠ [])) parts 0 0 = some end? ∧
      (end?.isSome ↔ ∃ rest, value.toList = first ++ rest ∧
        InOrder ((inner ++ [last]).filter (· ≠ [])) [] rest) := by
  by_cases hfirst : first = []
  · subst hfirst
    rw [List.filter_cons_of_neg (by simp)] at hparts
    obtain ⟨end?, hwalk, hend⟩ := walkParts_search false parts "" value 0 (.inr rfl)
    refine ⟨end?, by simpa using hwalk, ?_⟩
    rw [hend, hparts]
    simp
  · rw [List.filter_cons_of_pos (by simpa using hfirst)] at hparts
    cases parts with
    | nil => cases hparts
    | cons part parts =>
        rw [List.map_cons, List.cons.injEq] at hparts
        obtain ⟨rfl, hparts⟩ := hparts
        have hslice : Text.sliceFrom value 0 = some value := by
          simpa using Text.sliceFrom_append "" value
        simp only [walkParts, hslice, Option.bind_some, decide_true, Bool.true_and, hfirst, ne_eq,
          not_false_eq_true, if_true, Nat.zero_add]
        by_cases hbegin : Text.startsWith value part = true
        · obtain ⟨rest, rfl⟩ := Text.startsWith_iff.mp hbegin
          obtain ⟨end?, hwalk, hend⟩ := walkParts_search true parts part rest 1 (.inl one_ne_zero)
          refine ⟨end?, by rw [if_pos hbegin, hwalk], ?_⟩
          rw [hend, hparts, String.toList_append]
          simp
        · refine ⟨none, by rw [if_neg hbegin], ?_⟩
          have hnot : ¬ ∃ rest, value.toList = part.toList ++ rest := by
            intro h
            obtain ⟨rest, heq⟩ := h
            apply hbegin
            refine Text.startsWith_iff.mpr ⟨String.ofList rest, ?_⟩
            rw [← String.toList_inj, String.toList_append, String.toList_ofList, heq]
          constructor
          · intro h
            cases h
          · intro h
            obtain ⟨rest, heq, -⟩ := h
            exact absurd ⟨rest, heq⟩ hnot

/-- The anchor at the end asks that the last part ends the value, which it then
does behind the other parts. -/
theorem anchored_iff {word whole : List Char} (h : word <:+ whole) :
    InOrder ((inner ++ [last]).filter (· ≠ [])) [] word ∧ (last ≠ [] → last <:+ whole) ↔
      InOrder inner last word := by
  by_cases hlast : last = []
  · subst hlast
    rw [List.filter_append, List.filter_cons_of_neg (by simp), List.filter_nil, List.append_nil,
      inOrder_filter_iff]
    simp
  · rw [inOrder_filter_iff, @inOrder_end_iff _ word inner last whole h]
    simp [hlast]

theorem getLast?_parts (hparts : parts.map String.toList =
      (first :: (inner ++ [last])).filter (· ≠ [])) (hlast : last ≠ []) :
    parts.getLast? = some (String.ofList last) := by
  have hmap : (parts.map String.toList).getLast? = some last := by
    have hend : [last].filter (· ≠ []) = [last] := by simpa using hlast
    rw [hparts, ← List.cons_append, List.filter_append, hend, List.getLast?_concat]
  rw [List.getLast?_map, Option.map_eq_some_iff] at hmap
  obtain ⟨part, hpart, rfl⟩ := hmap
  rw [hpart, String.ofList_toList]

end Pieces

theorem inLanguage_literal {pattern value : String} (h : '*' ∉ pattern.toList) :
    InLanguage pattern value ↔ value = pattern := by
  have hmatch := @matches_append_iff _ '*' [] value.toList _ h
  rw [List.append_nil] at hmatch
  rw [InLanguage, hmatch]
  simp only [matches_nil_iff]
  simp [String.toList_inj]

/-- The matcher answers, and says yes exactly on the language of the pattern. -/
theorem matchesPattern_iff (value pattern : String) :
    ∃ answer, matchesPattern value pattern = some answer ∧
      (answer = true ↔ InLanguage pattern value) := by
  by_cases hall : pattern = "*"
  · subst hall
    refine ⟨true, rfl, fun _ => ?_, fun _ => rfl⟩
    exact matches_star_iff.mpr ⟨value.toList, [], by simp, .nil⟩
  · by_cases hstar : '*' ∈ pattern.toList
    · obtain ⟨first, inner, last, hsplit, hpieces⟩ := exists_pieces hstar
      have hparts := parts_toList pattern
      rw [hsplit] at hparts
      have hcontains : Text.containsChar pattern (· = '*') = true :=
        List.any_eq_true.mpr ⟨'*', hstar, by simp⟩
      have hstart : (!Text.startsWith pattern "*") = decide (first ≠ []) := by
        have hbegin : Text.startsWith pattern "*" = true ↔ first = [] := by
          rw [← hpieces.head_eq_iff]
          exact List.isPrefixOf_iff_prefix
        by_cases hfirst : first = []
        · rw [hbegin.mpr hfirst]
          simp [hfirst]
        · rw [Bool.eq_false_iff.mpr fun h => hfirst (hbegin.mp h)]
          simp [hfirst]
      have hlast : Text.endsWith pattern "*" = true ↔ last = [] := by
        rw [← hpieces.end_eq_iff]
        exact endsWith_iff_suffix
      obtain ⟨end?, hwalk, hend⟩ := walkParts_pieces hparts value
      refine ⟨end?.isSome && (decide (last = []) || Text.endsWith value (String.ofList last)),
        ?_, ?_⟩
      · rw [matchesPattern, if_neg hall]
        simp only [hcontains, Bool.not_true, Bool.false_eq_true, if_false, hstart, hwalk]
        by_cases hempty : last = []
        · simp only [hlast.mpr hempty, hempty, Bool.not_true, Bool.false_eq_true, if_false,
            decide_true, Bool.true_or, Bool.and_true]
          cases hnone : (Text.split pattern (· = '*')).filter (· ≠ "") with
          | nil =>
              rw [hnone, walkParts, Option.some.injEq] at hwalk
              subst hwalk
              rfl
          | cons part parts =>
              cases end? with
              | none => rfl
              | some cursor => rfl
        · have hends : Text.endsWith pattern "*" = false :=
            Bool.eq_false_iff.mpr fun h => hempty (hlast.mp h)
          have hget := getLast?_parts hparts hempty
          simp only [hends, hget, hempty, Bool.not_false, if_true, decide_false, Bool.false_or]
          have hnonempty : ((Text.split pattern (· = '*')).filter (· ≠ "")).isEmpty = false := by
            cases hnone : (Text.split pattern (· = '*')).filter (· ≠ "") with
            | nil => rw [hnone] at hget; cases hget
            | cons part parts => rfl
          rw [hnonempty]
          cases end? with
          | none => rfl
          | some cursor => rfl
      · rw [InLanguage, hpieces.matches_iff, Bool.and_eq_true, hend]
        have hword : ∀ {rest : List Char}, value.toList = first ++ rest → rest <:+ value.toList := by
          intro rest heq
          rw [heq]
          exact List.suffix_append first rest
        have hanchor : (decide (last = []) || Text.endsWith value (String.ofList last)) = true ↔
            (last ≠ [] → last <:+ value.toList) := by
          rw [Bool.or_eq_true, decide_eq_true_eq, endsWith_iff_suffix, String.toList_ofList]
          exact or_iff_not_imp_left
        rw [hanchor]
        constructor
        · intro h
          obtain ⟨⟨rest, heq, hrest⟩, hsuffix⟩ := h
          exact ⟨rest, heq, (anchored_iff (hword heq)).mp ⟨hrest, hsuffix⟩⟩
        · intro h
          obtain ⟨rest, heq, hrest⟩ := h
          obtain ⟨hall, hsuffix⟩ := (anchored_iff (hword heq)).mpr hrest
          exact ⟨⟨rest, heq, hall⟩, hsuffix⟩
    · have hcontains : Text.containsChar pattern (· = '*') = false := by
        rw [Text.containsChar, List.any_eq_false]
        intro c hc hmark
        exact hstar (of_decide_eq_true hmark ▸ hc)
      refine ⟨value == pattern, by simp [matchesPattern, hall, hcontains], ?_⟩
      rw [inLanguage_literal hstar, beq_iff_eq]

end Snpm.Why
