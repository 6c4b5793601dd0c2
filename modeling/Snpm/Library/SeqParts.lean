import Mathlib
import Snpm.Library.LineParts

/-!
Splitting a text at a separator text: the first part ends where the separator
occurs first.
-/
namespace Text

section Lists

variable {sep before after cs : List Char}

/-- The separator after the first part is its first occurrence. -/
def IsFirst (sep before after : List Char) : Prop :=
  ∀ front back, before = front ++ back → back ≠ [] → ¬ sep <+: back ++ (sep ++ after)

theorem IsFirst.tail {c : Char} (h : IsFirst sep (c :: before) after) : IsFirst sep before after :=
  fun front back heq => h (c :: front) back (by rw [heq, List.cons_append])

/-- An occurrence starts with the first character of the separator. -/
theorem isFirst_of_head {c : Char} {rest : List Char} (h : c ∉ before) :
    IsFirst (c :: rest) before after := by
  intro front back heq hne hbegin
  cases back with
  | nil => exact hne rfl
  | cons d back =>
      rw [List.cons_append, List.cons_prefix_cons] at hbegin
      apply h
      rw [heq, hbegin.1]
      exact List.mem_append_right front List.mem_cons_self

theorem exists_first (h : sep <:+: cs) :
    ∃ before after, cs = before ++ (sep ++ after) ∧ IsFirst sep before after := by
  induction cs with
  | nil =>
      have hnil := List.infix_nil.mp h
      exact ⟨[], [], by rw [hnil]; rfl, fun front back heq hne =>
        absurd (List.append_eq_nil_iff.mp heq.symm).2 hne⟩
  | cons c cs ih =>
      by_cases hbegin : sep <+: c :: cs
      · obtain ⟨after, hafter⟩ := hbegin
        exact ⟨[], after, hafter.symm, fun front back heq hne =>
          absurd (List.append_eq_nil_iff.mp heq.symm).2 hne⟩
      · have hrest : sep <:+: cs := (List.infix_cons_iff.mp h).resolve_left hbegin
        obtain ⟨before, after, heq, hfirst⟩ := ih hrest
        refine ⟨c :: before, after, by rw [heq, List.cons_append], ?_⟩
        intro front back hsplit hne
        cases front with
        | nil =>
            rw [List.nil_append] at hsplit
            rw [← hsplit, List.cons_append, ← heq]
            exact hbegin
        | cons d front =>
            rw [List.cons_append, List.cons.injEq] at hsplit
            exact hfirst front back hsplit.2 hne

theorem splitSeqFrom_skip (acc skipped : List Char) :
    splitSeqFrom sep skipped.length acc (skipped ++ cs) = splitSeqFrom sep 0 acc cs := by
  induction skipped with
  | nil => rfl
  | cons c skipped ih => exact ih

theorem splitSeqFrom_first (hsep : sep ≠ []) (acc : List Char) (h : IsFirst sep before after) :
    splitSeqFrom sep 0 acc (before ++ (sep ++ after)) =
      (acc.reverse ++ before) :: splitSeqFrom sep 0 [] after := by
  induction before generalizing acc with
  | nil =>
      cases sep with
      | nil => exact absurd rfl hsep
      | cons c rest =>
          have hbegin : (c :: rest).isPrefixOf (c :: (rest ++ after)) = true :=
            List.isPrefixOf_iff_prefix.mpr (List.prefix_append (c :: rest) after)
          rw [List.nil_append, List.cons_append, splitSeqFrom, if_pos hbegin, List.append_nil]
          exact congrArg _ (splitSeqFrom_skip [] rest)
  | cons c before ih =>
      have hnot : ¬ sep.isPrefixOf (c :: (before ++ (sep ++ after))) = true := by
        rw [List.isPrefixOf_iff_prefix]
        exact h [] (c :: before) rfl (List.cons_ne_nil c before)
      rw [List.cons_append, splitSeqFrom, if_neg hnot, ih (c :: acc) h.tail]
      simp

theorem splitSeqFrom_free (acc : List Char) (h : ¬ sep <:+: cs) :
    splitSeqFrom sep 0 acc cs = [acc.reverse ++ cs] := by
  induction cs generalizing acc with
  | nil => simp [splitSeqFrom]
  | cons c cs ih =>
      have hnot : ¬ sep.isPrefixOf (c :: cs) = true := by
        rw [List.isPrefixOf_iff_prefix]
        exact fun hbegin => h hbegin.isInfix
      rw [splitSeqFrom, if_neg hnot, ih (c :: acc) fun hsub => h (List.infix_cons hsub)]
      simp

end Lists

section Texts

variable {s sep before after : String}

theorem splitSeq_first (hsep : sep ≠ "")
    (h : IsFirst sep.toList before.toList after.toList) :
    splitSeq (before ++ sep ++ after) sep = before :: splitSeq after sep := by
  have hne : sep.toList ≠ [] := fun hnil => hsep (String.toList_inj.mp hnil)
  rw [splitSeq, String.append_assoc, String.toList_append, String.toList_append,
    splitSeqFrom_first hne [] h]
  simp [splitSeq]

theorem splitSeq_eq_singleton (h : ¬ sep.toList <:+: s.toList) : splitSeq s sep = [s] := by
  rw [splitSeq, splitSeqFrom_free [] h]
  simp

theorem splitSeq_ne_nil (hsep : sep ≠ "") (s : String) : splitSeq s sep ≠ [] := by
  have hne : sep.toList ≠ [] := fun hnil => hsep (String.toList_inj.mp hnil)
  by_cases hsub : sep.toList <:+: s.toList
  · obtain ⟨before, after, heq, hfirst⟩ := exists_first hsub
    rw [splitSeq, heq, splitSeqFrom_first hne [] hfirst]
    exact List.cons_ne_nil _ _
  · rw [splitSeq_eq_singleton hsub]
    exact List.cons_ne_nil _ _

/-- The parts with the separator between them are the text again. -/
theorem intercalate_splitSeq (hsep : sep ≠ "") (s : String) :
    String.intercalate sep (splitSeq s sep) = s := by
  have hne : sep.toList ≠ [] := fun hnil => hsep (String.toList_inj.mp hnil)
  induction hlength : s.length using Nat.strong_induction_on generalizing s with
  | _ n ih =>
      by_cases hsub : sep.toList <:+: s.toList
      · obtain ⟨front, back, heq, hfirst⟩ := exists_first hsub
        have hs : s = String.ofList front ++ sep ++ String.ofList back := by
          apply String.toList_inj.mp
          rw [heq]
          simp
        have hshort : (String.ofList back).length < n := by
          have hlist := congrArg List.length heq
          have hpos := List.length_pos_of_ne_nil hne
          rw [List.length_append, List.length_append] at hlist
          rw [← String.length_toList] at hlength ⊢
          rw [String.toList_ofList]
          omega
        have hsplit : splitSeq s sep = String.ofList front :: splitSeq (String.ofList back) sep := by
          rw [hs]
          apply splitSeq_first hsep
          rw [String.toList_ofList, String.toList_ofList]
          exact hfirst
        have hback := ih _ hshort (String.ofList back) rfl
        cases hparts : splitSeq (String.ofList back) sep with
        | nil => exact absurd hparts (splitSeq_ne_nil hsep _)
        | cons part parts =>
            rw [hparts] at hback
            rw [hsplit, hparts, String.intercalate_cons_cons, hback, ← hs]
      · rw [splitSeq_eq_singleton hsub, String.intercalate_singleton]

/-- A text with another first character does not start so. -/
theorem stripPrefix_eq_none {p : String} (h : s.toList.head? ≠ p.toList.head?) (hp : p ≠ "") :
    stripPrefix s p = none := by
  cases hstrip : stripPrefix s p with
  | none => rfl
  | some t =>
      have heq := stripPrefix_eq_some hstrip
      have hne : p.toList ≠ [] := fun hnil => hp (String.toList_inj.mp hnil)
      rw [heq, String.toList_append, List.head?_append_of_ne_nil _ hne] at h
      exact absurd rfl h

theorem startsWith_eq_false {p : String} (h : s.toList.head? ≠ p.toList.head?) (hp : p ≠ "") :
    startsWith s p = false := by
  have hnone := stripPrefix_eq_none h hp
  rw [stripPrefix] at hnone
  split at hnone
  · cases hnone
  · rename_i hstarts
    exact Bool.eq_false_iff.mpr hstarts

theorem containsSeq_iff {part : String} :
    containsSeq s part = true ↔ part.toList <:+: s.toList := by
  rw [containsSeq, List.any_eq_true]
  constructor
  · intro h
    obtain ⟨tail, htail, hbegin⟩ := h
    exact (List.isPrefixOf_iff_prefix.mp hbegin).isInfix.trans ((List.mem_tails _ _).mp htail).isInfix
  · intro h
    obtain ⟨before, after, heq⟩ := h
    refine ⟨part.toList ++ after, ?_, List.isPrefixOf_iff_prefix.mpr (List.prefix_append _ _)⟩
    rw [List.mem_tails, ← heq, List.append_assoc]
    exact List.suffix_append _ _

theorem startsWith_iff {p : String} : startsWith s p = true ↔ ∃ t, s = p ++ t := by
  rw [startsWith, List.isPrefixOf_iff_prefix]
  constructor
  · intro h
    obtain ⟨rest, hrest⟩ := h
    refine ⟨String.ofList rest, ?_⟩
    rw [← String.toList_inj, String.toList_append, String.toList_ofList, hrest]
  · intro h
    obtain ⟨t, ht⟩ := h
    rw [ht, String.toList_append]
    exact List.prefix_append _ _

/-- A text starts with a word and a separator exactly if its first part is the word. -/
theorem startsWith_part_iff (word : String) {c : Char} (h : c ∉ word.toList) :
    startsWith s (word ++ String.singleton c) = true ↔
      ∃ rest, splitOnce s (· = c) = some (word, rest) := by
  rw [startsWith_iff]
  constructor
  · intro hstarts
    obtain ⟨t, ht⟩ := hstarts
    exact ⟨t, by rw [ht, splitOnce_append _ _ h]⟩
  · intro hsplit
    obtain ⟨rest, hrest⟩ := hsplit
    exact ⟨rest, (splitOnce_eq_some hrest).1⟩

end Texts

section Trimmed

variable {s t : String}

theorem trim_eq_trimEnd (h : ∀ c ∈ s.toList.head?, isWhitespace c = false) : trim s = trimEnd s := by
  rw [trim, dropWhile_of_head h]
  rfl

/-- White space at the end of a text that goes on is its own. -/
theorem trimEnd_append (h : ∃ c ∈ s.toList.getLast?, isWhitespace c = false) :
    trimEnd (s ++ t) = s ++ trimEnd t := by
  obtain ⟨c, hc, hspace⟩ := h
  obtain ⟨front, hfront⟩ := List.getLast?_eq_some_iff.mp hc
  have hkeep : s.toList.reverse.dropWhile isWhitespace = s.toList.reverse := by
    rw [hfront, List.reverse_append]
    exact List.dropWhile_cons_of_neg (by simp [hspace])
  apply String.toList_inj.mp
  rw [trimEnd, String.toList_ofList, String.toList_append, List.reverse_append,
    List.dropWhile_append, hkeep, String.toList_append, trimEnd, String.toList_ofList]
  split
  · rename_i hempty
    rw [List.isEmpty_iff.mp hempty, List.reverse_reverse, List.reverse_nil, List.append_nil]
  · rw [List.reverse_append, List.reverse_reverse]

theorem trim_head {c : Char} (h : s.toList.head? = some c)
    (hc : isWhitespace c = false) : (trim s).toList.head? = some c := by
  cases hcs : s.toList with
  | nil =>
      rw [hcs] at h
      cases h
  | cons d cs =>
      have hd : d = c := by simpa [hcs] using h
      have htext : s = String.singleton c ++ String.ofList cs := by
        rw [← String.toList_inj, hcs, hd]
        simp
      have hhead : ∀ x ∈ s.toList.head?, isWhitespace x = false := by
        intro x hx
        rw [h] at hx
        cases hx
        exact hc
      rw [trim_eq_trimEnd hhead, htext, trimEnd_append ⟨c, by simp, hc⟩]
      simp

theorem trim_trimEnd (s : String) : trim (trimEnd s) = trim s := by
  have hsplit : s = trimEnd s ++ String.ofList (s.toList.reverse.takeWhile isWhitespace).reverse := by
    apply String.toList_inj.mp
    rw [String.toList_append, trimEnd, String.toList_ofList, String.toList_ofList,
      ← List.reverse_append, List.takeWhile_append_dropWhile, List.reverse_reverse]
  have hblank : ∀ c ∈ (String.ofList (s.toList.reverse.takeWhile isWhitespace).reverse).toList,
      isWhitespace c = true := by
    intro c hc
    rw [String.toList_ofList, List.mem_reverse] at hc
    exact List.mem_takeWhile_imp hc
  have htrim := trim_append (s := trimEnd s) hblank
  rw [← hsplit] at htrim
  exact htrim.symm

theorem mem_of_mem_trimEnd {c : Char} (h : c ∈ (trimEnd s).toList) : c ∈ s.toList := by
  rw [trimEnd, String.toList_ofList, List.mem_reverse] at h
  exact List.mem_reverse.mp ((List.dropWhile_suffix isWhitespace).subset h)

end Trimmed

end Text
