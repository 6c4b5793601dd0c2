import Mathlib
import Snpm.Library.PathText

/-!
Words and patterns with one wildcard letter, which stands for any word. What a
pattern accepts is told by its parts between the wildcards, and the parts can be
found one after the other, each at its first place in what the earlier ones
leave.
-/
namespace Wildcard

variable {α : Type} {star : α} {pattern word : List α}

/-- The words of a pattern. -/
inductive Matches (star : α) : List α → List α → Prop
  | nil : Matches star [] []
  | letter {a : α} {pattern word : List α} :
      a ≠ star → Matches star pattern word → Matches star (a :: pattern) (a :: word)
  | gap (skip : List α) {pattern word : List α} :
      Matches star pattern word → Matches star (star :: pattern) (skip ++ word)

/-- The parts stand in the word one after the other with gaps before them, and
the word ends with `last` behind them. -/
def InOrder : List (List α) → List α → List α → Prop
  | [], last, word => last <:+ word
  | part :: parts, last, word =>
      ∃ skip rest, word = skip ++ (part ++ rest) ∧ InOrder parts last rest

/-- What is left of the word when the part is taken at its first place. -/
def FirstRest (part word rest : List α) : Prop :=
  (∃ skip, word = skip ++ (part ++ rest)) ∧
    ∀ skip other, word = skip ++ (part ++ other) → other <:+ rest

theorem matches_nil_iff : Matches star [] word ↔ word = [] := by
  constructor
  · intro h
    cases h
    rfl
  · intro h
    subst h
    exact .nil

theorem matches_star_iff : Matches star (star :: pattern) word ↔
    ∃ skip rest, word = skip ++ rest ∧ Matches star pattern rest := by
  constructor
  · intro h
    cases h with
    | letter hne _ => exact absurd rfl hne
    | gap skip hrest => exact ⟨skip, _, rfl, hrest⟩
  · intro h
    obtain ⟨skip, rest, rfl, hrest⟩ := h
    exact .gap skip hrest

theorem matches_append_iff {part : List α} (h : star ∉ part) :
    Matches star (part ++ pattern) word ↔
      ∃ rest, word = part ++ rest ∧ Matches star pattern rest := by
  induction part generalizing word with
  | nil => simp
  | cons a part ih =>
      rw [List.mem_cons, not_or] at h
      constructor
      · intro hmatch
        cases hmatch with
        | letter hne htail =>
            obtain ⟨rest, rfl, hrest⟩ := (ih h.2).mp htail
            exact ⟨rest, rfl, hrest⟩
        | gap skip _ => exact absurd rfl h.1
      · intro hword
        obtain ⟨rest, rfl, hrest⟩ := hword
        exact .letter (fun heq => h.1 heq.symm) ((ih h.2).mpr ⟨rest, rfl, hrest⟩)

theorem InOrder.of_suffix {parts : List (List α)} {last rest : List α}
    (h : InOrder parts last rest) (hrest : rest <:+ word) : InOrder parts last word := by
  cases parts with
  | nil => exact List.IsSuffix.trans h hrest
  | cons part parts =>
      obtain ⟨skip, after, rfl, hafter⟩ := h
      obtain ⟨front, rfl⟩ := hrest
      exact ⟨front ++ skip, after, by rw [List.append_assoc], hafter⟩

/-- An empty part stands anywhere. -/
theorem inOrder_nil_cons_iff {parts : List (List α)} {last : List α} :
    InOrder ([] :: parts) last word ↔ InOrder parts last word := by
  constructor
  · intro h
    obtain ⟨skip, rest, rfl, hrest⟩ := h
    exact hrest.of_suffix (List.suffix_append skip rest)
  · intro h
    exact ⟨[], word, rfl, h⟩

theorem inOrder_filter_iff [DecidableEq α] {parts : List (List α)} {last : List α} :
    InOrder (parts.filter (· ≠ [])) last word ↔ InOrder parts last word := by
  induction parts generalizing word with
  | nil => exact Iff.rfl
  | cons part parts ih =>
      by_cases hpart : part = []
      · subst hpart
        rw [inOrder_nil_cons_iff]
        simpa using ih
      · rw [List.filter_cons_of_pos (by simpa using hpart)]
        constructor
        · intro h
          obtain ⟨skip, rest, heq, hrest⟩ := h
          exact ⟨skip, rest, heq, ih.mp hrest⟩
        · intro h
          obtain ⟨skip, rest, heq, hrest⟩ := h
          exact ⟨skip, rest, heq, ih.mpr hrest⟩

theorem intercalate_cons (part : List α) (parts : List (List α)) (last : List α) :
    [star].intercalate (part :: (parts ++ [last])) =
      part ++ (star :: [star].intercalate (parts ++ [last])) := by
  rw [List.intercalate_cons_of_ne_nil (by simp), List.append_assoc]
  rfl

/-- A pattern that starts with a wildcard asks for its parts in order. -/
theorem matches_gaps_iff {parts : List (List α)} {last : List α}
    (hparts : ∀ part ∈ parts, star ∉ part) (hlast : star ∉ last) :
    Matches star (star :: [star].intercalate (parts ++ [last])) word ↔ InOrder parts last word := by
  induction parts generalizing word with
  | nil =>
      have hpattern : [star].intercalate ([] ++ [last]) = last ++ [] := by simp
      rw [matches_star_iff, hpattern]
      simp only [matches_append_iff hlast, matches_nil_iff]
      constructor
      · intro h
        obtain ⟨skip, rest, rfl, after, rfl, rfl⟩ := h
        exact ⟨skip, by rw [List.append_nil]⟩
      · intro h
        obtain ⟨skip, rfl⟩ := h
        exact ⟨skip, last, rfl, [], by rw [List.append_nil], rfl⟩
  | cons part parts ih =>
      rw [matches_star_iff, List.cons_append, intercalate_cons]
      simp only [matches_append_iff (hparts part List.mem_cons_self),
        ih fun p hp => hparts p (List.mem_cons_of_mem _ hp)]
      constructor
      · intro h
        obtain ⟨skip, rest, rfl, after, rfl, hafter⟩ := h
        exact ⟨skip, after, rfl, hafter⟩
      · intro h
        obtain ⟨skip, after, rfl, hafter⟩ := h
        exact ⟨skip, part ++ after, rfl, after, rfl, hafter⟩

/-- Taking the first part at its first place loses nothing. -/
theorem inOrder_cons_iff {part rest last : List α} {parts : List (List α)}
    (h : FirstRest part word rest) :
    InOrder (part :: parts) last word ↔ InOrder parts last rest := by
  obtain ⟨⟨skip, hword⟩, hfirst⟩ := h
  constructor
  · intro hparts
    obtain ⟨skip', rest', heq, hrest⟩ := hparts
    exact hrest.of_suffix (hfirst skip' rest' heq)
  · intro hparts
    exact ⟨skip, rest, hword, hparts⟩

theorem not_inOrder_cons {part last : List α} {parts : List (List α)} (h : ¬ part <:+: word) :
    ¬ InOrder (part :: parts) last word := by
  intro hparts
  obtain ⟨skip, rest, rfl, -⟩ := hparts
  exact h ⟨skip, rest, by rw [List.append_assoc]⟩

theorem InOrder.length_le {part last : List α} {parts : List (List α)}
    (h : InOrder parts last word) (hpart : part ∈ parts) : part.length ≤ word.length := by
  induction parts generalizing word with
  | nil => cases hpart
  | cons first parts ih =>
      obtain ⟨skip, rest, rfl, hrest⟩ := h
      simp only [List.length_append]
      cases List.mem_cons.mp hpart with
      | inl heq =>
          subst heq
          omega
      | inr hmem =>
          have hle := ih hrest hmem
          omega

/-- A last part that is found behind the others and ends the whole text ends it
behind the others. -/
theorem inOrder_end_iff {parts : List (List α)} {last whole : List α} (h : word <:+ whole) :
    InOrder parts last word ↔ InOrder (parts ++ [last]) [] word ∧ last <:+ whole := by
  induction parts generalizing word with
  | nil =>
      constructor
      · intro hlast
        obtain ⟨skip, rfl⟩ := hlast
        exact ⟨⟨skip, [], by rw [List.append_nil], List.nil_suffix⟩,
          List.IsSuffix.trans (List.suffix_append _ _) h⟩
      · intro hlast
        have hle : last.length ≤ word.length := InOrder.length_le hlast.1 List.mem_cons_self
        exact List.suffix_of_suffix_length_le hlast.2 h hle
  | cons part parts ih =>
      constructor
      · intro hparts
        obtain ⟨skip, rest, rfl, hrest⟩ := hparts
        have hsuffix : rest <:+ skip ++ (part ++ rest) :=
          (List.suffix_append part rest).trans (List.suffix_append skip _)
        obtain ⟨hall, hlast⟩ := (ih (hsuffix.trans h)).mp hrest
        exact ⟨⟨skip, rest, rfl, hall⟩, hlast⟩
      · intro hparts
        obtain ⟨⟨skip, rest, rfl, hall⟩, hlast⟩ := hparts
        have hsuffix : rest <:+ skip ++ (part ++ rest) :=
          (List.suffix_append part rest).trans (List.suffix_append skip _)
        exact ⟨skip, rest, rfl, (ih (hsuffix.trans h)).mpr ⟨hall, hlast⟩⟩

/-- The parts of a pattern with a wildcard: one before the first, one behind the
last, and those between. -/
structure Pieces (star : α) (pattern first : List α) (inner : List (List α)) (last : List α) :
    Prop where
  split : pattern = first ++ (star :: [star].intercalate (inner ++ [last]))
  first : star ∉ first
  inner : ∀ part ∈ inner, star ∉ part
  last : star ∉ last

theorem exists_pieces [DecidableEq α] (h : star ∈ pattern) : ∃ first inner last,
    pattern.splitOnP (· = star) = first :: (inner ++ [last]) ∧
      Pieces star pattern first inner last := by
  have hjoin : [star].intercalate (pattern.splitOnP (· = star)) = pattern := by
    have hsplit : pattern.splitOnP (fun a => decide (a = star)) = pattern.splitOn star := by
      rw [List.splitOn_eq_splitOnP]
      congr 1
    rw [hsplit, List.intercalate_splitOn]
  have hfree : ∀ part ∈ pattern.splitOnP (· = star), star ∉ part := by
    intro part hpart hmem
    have hnot := PathText.not_of_mem_splitOnP hpart star hmem
    simp at hnot
  cases hparts : pattern.splitOnP (· = star) with
  | nil => exact absurd hparts (List.splitOnP_ne_nil _ _)
  | cons first rest =>
      rw [hparts] at hjoin hfree
      cases List.eq_nil_or_concat rest with
      | inl hnil =>
          subst hnil
          have hfirst : first = pattern := by simpa using hjoin
          subst hfirst
          exact absurd h (hfree _ List.mem_cons_self)
      | inr hconcat =>
          obtain ⟨inner, last, rfl⟩ := hconcat
          refine ⟨first, inner, last, by rw [List.concat_eq_append], ?_⟩
          rw [List.concat_eq_append] at hjoin hfree
          constructor
          · rw [← hjoin, intercalate_cons]
          · exact hfree first List.mem_cons_self
          · exact fun part hpart => hfree part
              (List.mem_cons_of_mem _ (List.mem_append_left _ hpart))
          · exact hfree last (List.mem_cons_of_mem _ (List.mem_append_right _ List.mem_cons_self))

variable {first last : List α} {inner : List (List α)}

theorem Pieces.matches_iff (h : Pieces star pattern first inner last) :
    Matches star pattern word ↔ ∃ rest, word = first ++ rest ∧ InOrder inner last rest := by
  rw [h.split, matches_append_iff h.first]
  simp only [matches_gaps_iff h.inner h.last]

theorem Pieces.head_eq_iff (h : Pieces star pattern first inner last) :
    [star] <+: pattern ↔ first = [] := by
  rw [h.split]
  cases hfirst : first with
  | nil => simp
  | cons a first =>
      have hne : star ≠ a := fun heq => h.first (by rw [hfirst, heq]; exact List.mem_cons_self)
      simp [hne]

theorem exists_intercalate_end (inner : List (List α)) (last : List α) :
    ∃ front, star :: [star].intercalate (inner ++ [last]) = front ++ (star :: last) := by
  induction inner with
  | nil => exact ⟨[], by simp⟩
  | cons part inner ih =>
      obtain ⟨front, hfront⟩ := ih
      refine ⟨star :: (part ++ front), ?_⟩
      rw [List.cons_append, intercalate_cons, hfront, List.cons_append, List.append_assoc]

theorem Pieces.end_eq_iff (h : Pieces star pattern first inner last) :
    [star] <:+ pattern ↔ last = [] := by
  obtain ⟨front, hfront⟩ := @exists_intercalate_end _ star inner last
  rw [h.split, hfront, ← List.append_assoc]
  cases List.eq_nil_or_concat last with
  | inl hnil =>
      subst hnil
      simpa using List.suffix_append (first ++ front) [star]
  | inr hconcat =>
      obtain ⟨before, a, rfl⟩ := hconcat
      have hne : a ≠ star := by
        intro heq
        exact h.last (by simp [heq])
      constructor
      · intro hend
        obtain ⟨t, ht⟩ := hend
        have hlast := congrArg List.getLast? ht
        simp only [List.concat_eq_append, List.getLast?_append, List.getLast?_cons] at hlast
        simp at hlast
        exact absurd hlast.symm hne
      · intro hnil
        simp at hnil

end Wildcard
