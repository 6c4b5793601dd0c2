import Mathlib
import Snpm.Library.PathText
import Snpm.Library.TextParts

/-!
Texts as lists of lines. A text that is written line by line is read back as the
same lines, but for a carriage return at the end of a line.
-/
namespace Text

variable {s t : String}

/-- Every line closed by a line feed. -/
def unlines (ls : List String) : String := String.join (ls.map (· ++ "\n"))

def stripReturn (line : String) : String := (stripSuffix line "\r").getD line

def OneLine (s : String) : Prop := '\n' ∉ s.toList

instance (s : String) : Decidable (OneLine s) := inferInstanceAs (Decidable (¬ _))

theorem unlines_cons (line : String) (ls : List String) :
    unlines (line :: ls) = line ++ "\n" ++ unlines ls := by
  rw [unlines, unlines, List.map_cons, String.join_cons]

theorem unlines_eq_intercalate {ls : List String} (h : ls ≠ []) :
    unlines ls = String.intercalate "\n" ls ++ "\n" := by
  induction ls with
  | nil => exact absurd rfl h
  | cons line ls ih =>
      rw [unlines_cons]
      cases ls with
      | nil => simp [unlines, String.join]
      | cons next ls =>
          rw [ih (List.cons_ne_nil next ls), String.intercalate_cons_cons]
          simp only [String.append_assoc]

theorem split_cons {line rest : String} (h : OneLine line) :
    split (line ++ "\n" ++ rest) (· = '\n') = line :: split rest (· = '\n') := by
  have hlist : (line ++ "\n" ++ rest).toList = line.toList ++ '\n' :: rest.toList := by simp
  have hline : line.toList.splitOnP (fun c => decide (c = '\n')) = [line.toList] := by
    apply List.splitOnP_eq_singleton
    intro c hc
    have hne : c ≠ '\n' := fun heq => h (heq ▸ hc)
    simpa using hne
  rw [split, hlist, List.splitOnP_append_cons _ _ (by simp), hline]
  simp [split]

theorem split_ne_nil (s : String) (p : Char → Bool) : split s p ≠ [] := by
  intro h
  exact List.splitOnP_ne_nil p s.toList (List.map_eq_nil_iff.mp h)

/-- The first line of a text and the lines of the rest. -/
theorem lines_cons {line rest : String} (h : OneLine line) :
    lines (line ++ "\n" ++ rest) = stripReturn line :: lines rest := by
  unfold lines
  rw [split_cons h]
  cases hparts : split rest (· = '\n') with
  | nil => exact absurd hparts (split_ne_nil rest _)
  | cons part parts => simp [stripReturn]

theorem lines_unlines {ls : List String} (h : ∀ line ∈ ls, OneLine line) :
    lines (unlines ls) = ls.map stripReturn := by
  induction ls with
  | nil => decide
  | cons line ls ih =>
      rw [unlines_cons, lines_cons (h line List.mem_cons_self),
        ih fun other hmem => h other (List.mem_cons_of_mem line hmem), List.map_cons]

theorem oneLine_of_mem_split (h : t ∈ split s (· = '\n')) : OneLine t := by
  obtain ⟨part, hpart, rfl⟩ := List.mem_map.mp h
  intro hmem
  rw [String.toList_ofList] at hmem
  have hfree := PathText.not_of_mem_splitOnP hpart '\n' hmem
  exact absurd hfree (by decide)

theorem OneLine.stripReturn (h : OneLine s) : OneLine (stripReturn s) := by
  unfold Text.stripReturn
  cases hstrip : stripSuffix s "\r" with
  | none => exact h
  | some front =>
      intro hmem
      apply h
      rw [stripSuffix_eq_some hstrip, String.toList_append]
      exact List.mem_append_left _ hmem

theorem oneLine_of_mem_lines (h : t ∈ lines s) : OneLine t := by
  unfold lines at h
  cases List.mem_append.mp h with
  | inl hinit =>
      obtain ⟨part, hpart, rfl⟩ := List.mem_map.mp hinit
      exact (oneLine_of_mem_split (List.mem_of_mem_dropLast hpart)).stripReturn
  | inr hlast =>
      split at hlast
      · exact absurd hlast List.not_mem_nil
      · rw [List.mem_singleton] at hlast
        rw [hlast, List.getLastD_eq_getLast?]
        cases hsome : (split s (· = '\n')).getLast? with
        | none => exact List.not_mem_nil
        | some last => exact oneLine_of_mem_split (List.mem_of_getLast? hsome)

theorem split_unlines {ls : List String} (h : ∀ line ∈ ls, OneLine line) :
    split (unlines ls) (· = '\n') = ls ++ [""] := by
  induction ls with
  | nil => decide
  | cons line ls ih =>
      rw [unlines_cons, split_cons (h line List.mem_cons_self),
        ih fun other hmem => h other (List.mem_cons_of_mem line hmem), List.cons_append]

theorem unlines_injective {ls ms : List String} (hls : ∀ line ∈ ls, OneLine line)
    (hms : ∀ line ∈ ms, OneLine line) (h : unlines ls = unlines ms) : ls = ms := by
  have hsplit := congrArg (fun text => split text (· = '\n')) h
  simp only [split_unlines hls, split_unlines hms] at hsplit
  exact List.append_cancel_right hsplit

theorem stripReturn_append (s : String) (ht : t ≠ "") :
    stripReturn (s ++ t) = s ++ stripReturn t := by
  have hlist : t.toList ≠ [] := fun hnil => ht (String.toList_inj.mp hnil)
  unfold stripReturn
  cases hstrip : stripSuffix t "\r" with
  | some front =>
      have heq : s ++ t = s ++ front ++ "\r" := by
        rw [stripSuffix_eq_some hstrip, String.append_assoc]
      rw [heq, stripSuffix_append]
      rfl
  | none =>
      cases hwhole : stripSuffix (s ++ t) "\r" with
      | none => rfl
      | some front =>
          have heq := congrArg String.toList (stripSuffix_eq_some hwhole)
          obtain ⟨init, last, hsplit⟩ := (List.eq_nil_or_concat t.toList).resolve_left hlist
          rw [List.concat_eq_append] at hsplit
          rw [String.toList_append, String.toList_append, hsplit, ← List.append_assoc] at heq
          have hlast : [last] = "\r".toList := List.append_inj_right' heq rfl
          have ht : t = String.ofList init ++ "\r" := by
            rw [← String.toList_inj, hsplit, hlast]
            simp
          rw [ht, stripSuffix_append] at hstrip
          cases hstrip

theorem eq_stripReturn_append (s : String) : ∃ w, s = stripReturn s ++ w ∧ (w = "" ∨ w = "\r") := by
  unfold stripReturn
  cases hstrip : stripSuffix s "\r" with
  | none => exact ⟨"", (String.append_empty).symm, .inl rfl⟩
  | some front => exact ⟨"\r", stripSuffix_eq_some hstrip, .inr rfl⟩

theorem length_stripReturn_le (s : String) : (stripReturn s).length ≤ s.length := by
  obtain ⟨w, hw, -⟩ := eq_stripReturn_append s
  have hlength := congrArg String.length hw
  rw [String.length_append] at hlength
  omega

theorem stripReturn_eq_self_iff : stripReturn s = s ↔ endsWith s "\r" = false := by
  unfold stripReturn
  cases hends : endsWith s "\r" with
  | false => simp [stripSuffix, hends]
  | true =>
      cases hstrip : stripSuffix s "\r" with
      | none =>
          rw [stripSuffix, if_pos hends] at hstrip
          cases hstrip
      | some front =>
          have heq := congrArg String.length (stripSuffix_eq_some hstrip)
          rw [String.length_append] at heq
          have hlength : front.length < s.length := by
            rw [heq]
            exact Nat.lt_add_of_pos_right (by decide)
          simp only [Option.getD_some, Bool.true_eq_false, iff_false]
          intro hfront
          rw [hfront] at hlength
          exact Nat.lt_irrefl _ hlength

section Trim

/-- White space at the end does not count. -/
theorem trim_append {w : String} (h : ∀ c ∈ w.toList, isWhitespace c = true) :
    trim (s ++ w) = trim s := by
  have hback : ∀ l : List Char, (l ++ w.toList).reverse.dropWhile isWhitespace =
      l.reverse.dropWhile isWhitespace := by
    intro l
    rw [List.reverse_append]
    exact List.dropWhile_append_of_pos fun c hc => h c (List.mem_reverse.mp hc)
  unfold trim
  rw [String.toList_append, List.dropWhile_append]
  split
  · rename_i hempty
    have hnil : s.toList.dropWhile isWhitespace = [] := List.isEmpty_iff.mp hempty
    have hw : w.toList.dropWhile isWhitespace = [] := List.dropWhile_eq_nil_iff.mpr h
    rw [hnil, hw]
  · rw [hback]

theorem trim_stripReturn (s : String) : trim (stripReturn s) = trim s := by
  unfold stripReturn
  cases hstrip : stripSuffix s "\r" with
  | none => rfl
  | some front =>
      rw [stripSuffix_eq_some hstrip, Option.getD_some]
      refine (trim_append ?_).symm
      intro c hc
      have heq : c = '\r' := by simpa using hc
      rw [heq]
      decide

/-- A text that neither starts nor ends with white space. -/
structure Tight (s : String) : Prop where
  first : ∀ c ∈ s.toList.head?, isWhitespace c = false
  last : ∀ c ∈ s.toList.getLast?, isWhitespace c = false

theorem dropWhile_of_head {l : List Char} (h : ∀ c ∈ l.head?, isWhitespace c = false) :
    l.dropWhile isWhitespace = l := by
  cases l with
  | nil => rfl
  | cons c l => exact List.dropWhile_cons_of_neg (by simp [h c rfl])

theorem Tight.trim_eq (h : Tight s) : trim s = s := by
  have hback : ∀ c ∈ s.toList.reverse.head?, isWhitespace c = false := by
    rw [List.head?_reverse]
    exact h.last
  rw [trim, dropWhile_of_head h.first, dropWhile_of_head hback, List.reverse_reverse,
    String.ofList_toList]

theorem head_dropWhile (l : List Char) :
    ∀ c ∈ (l.dropWhile isWhitespace).head?, isWhitespace c = false := by
  intro c hc
  have hhead := List.head?_dropWhile_not isWhitespace l
  rw [Option.mem_def.mp hc] at hhead
  simpa using hhead

theorem trim_tight (s : String) : Tight (trim s) where
  first := by
    intro c hc
    rw [trim, String.toList_ofList, List.head?_reverse] at hc
    -- What is left at the end is a part of what was left at the start.
    have hsuffix := List.dropWhile_suffix (l := (s.toList.dropWhile isWhitespace).reverse) isWhitespace
    obtain ⟨dropped, hdropped⟩ := hsuffix
    have hne : (s.toList.dropWhile isWhitespace).reverse.dropWhile isWhitespace ≠ [] := by
      intro hnil
      rw [hnil] at hc
      cases hc
    have hlast : (s.toList.dropWhile isWhitespace).reverse.getLast? = some c := by
      rw [← hdropped, List.getLast?_append_of_ne_nil _ hne]
      exact hc
    rw [List.getLast?_reverse] at hlast
    exact head_dropWhile s.toList c hlast
  last := by
    intro c hc
    rw [trim, String.toList_ofList, List.getLast?_reverse] at hc
    exact head_dropWhile _ c hc

theorem mem_of_mem_trim {c : Char} (h : c ∈ (trim s).toList) : c ∈ s.toList := by
  rw [trim, String.toList_ofList, List.mem_reverse] at h
  have hback := (List.dropWhile_suffix isWhitespace).subset h
  exact (List.dropWhile_suffix isWhitespace).subset (List.mem_reverse.mp hback)

end Trim

end Text
