import Mathlib
import Snpm.Library.Lines

/-!
The parts of a line: its indentation, the words on it, and lists that are
separated by commas.
-/
namespace Text

def trimStart (s : String) : String := String.ofList (s.toList.dropWhile isWhitespace)

def trimEnd (s : String) : String :=
  String.ofList (s.toList.reverse.dropWhile isWhitespace).reverse

/-- Strip a non-empty text from the start as often as it is there. -/
def trimStartSeqFrom (sep : String) : Nat → String → String
  | 0, s => s
  | fuel + 1, s =>
      match stripPrefix s sep with
      | some rest => trimStartSeqFrom sep fuel rest
      | none => s

def trimStartSeq (s sep : String) : String := trimStartSeqFrom sep s.length s

/-- How a text is shown between quotes. -/
def debugChar (c : Char) : List Char :=
  if c = '"' then ['\\', '"'] else
  if c = '\\' then ['\\', '\\'] else
  if c = '\t' then ['\\', 't'] else
  if c = '\r' then ['\\', 'r'] else
  if c = '\n' then ['\\', 'n'] else [c]

def debugText (s : String) : String :=
  "\"" ++ String.ofList (s.toList.flatMap debugChar) ++ "\""

def debugTexts (texts : List String) : String :=
  "[" ++ String.intercalate ", " (texts.map debugText) ++ "]"


variable {s t : String} {c : Char}

theorem trimStart_append {w : String} (hw : ∀ c ∈ w.toList, isWhitespace c = true)
    (hs : ∀ c ∈ s.toList.head?, isWhitespace c = false) : trimStart (w ++ s) = s := by
  rw [trimStart, String.toList_append, List.dropWhile_append_of_pos hw, dropWhile_of_head hs,
    String.ofList_toList]

theorem trimEndMatches_append (h : ∀ last ∈ s.toList.getLast?, last ≠ c) :
    trimEndMatches (s ++ String.singleton c) c = s := by
  have hreverse : (s ++ String.singleton c).toList.reverse = c :: s.toList.reverse := by simp
  have hkeep : s.toList.reverse.dropWhile (fun x => decide (x = c)) = s.toList.reverse := by
    cases hs : s.toList.reverse with
    | nil => rfl
    | cons x l =>
        apply List.dropWhile_cons_of_neg
        have hlast : x ∈ s.toList.getLast? := by
          rw [← List.head?_reverse, hs]
          rfl
        simpa using h x hlast
  rw [trimEndMatches, hreverse, List.dropWhile_cons_of_pos (by simp), hkeep, List.reverse_reverse,
    String.ofList_toList]

theorem endsWith_append (s t : String) : endsWith (s ++ t) t = true := by
  rw [endsWith, String.toList_append, List.isSuffixOf_iff_suffix]
  exact List.suffix_append _ _

/-- The first separator splits a text whose left part has none. -/
theorem splitOnce_append_of {p : Char → Bool} (before after : String)
    (h : ∀ x ∈ before.toList, p x = false) (hc : p c = true) :
    splitOnce (before ++ String.singleton c ++ after) p = some (before, after) := by
  have hlist : (before ++ String.singleton c ++ after).toList = before.toList ++ c :: after.toList := by
    simp
  have hany : (before ++ String.singleton c ++ after).toList.any p = true := by
    rw [hlist, List.any_append, List.any_cons, hc]
    simp
  have hfree : ∀ x ∈ before.toList, (!p x) = true := by
    intro x hx
    simp [h x hx]
  rw [splitOnce, find, if_pos hany, hlist, List.takeWhile_append_of_pos hfree,
    List.dropWhile_append_of_pos hfree]
  simp [hc]

theorem split_append (h : c ∉ s.toList) :
    split (s ++ String.singleton c ++ t) (· = c) = s :: split t (· = c) := by
  have hlist : (s ++ String.singleton c ++ t).toList = s.toList ++ c :: t.toList := by simp
  have hleft : s.toList.splitOnP (fun x => decide (x = c)) = [s.toList] := by
    apply List.splitOnP_eq_singleton
    intro x hx
    have hne : x ≠ c := fun heq => h (heq ▸ hx)
    simpa using hne
  rw [split, hlist, List.splitOnP_append_cons _ _ (by simp), hleft]
  simp [split]

theorem split_eq_singleton (h : c ∉ s.toList) : split s (· = c) = [s] := by
  have hleft : s.toList.splitOnP (fun x => decide (x = c)) = [s.toList] := by
    apply List.splitOnP_eq_singleton
    intro x hx
    have hne : x ≠ c := fun heq => h (heq ▸ hx)
    simpa using hne
  rw [split, hleft]
  simp

theorem Tight.trim_append {w : String} (h : Tight s) (hw : ∀ c ∈ w.toList, isWhitespace c = true) :
    trim (w ++ s) = s := by
  have hdrop : (w ++ s).toList.dropWhile isWhitespace = s.toList := by
    rw [String.toList_append, List.dropWhile_append_of_pos hw]
    exact dropWhile_of_head h.first
  have heq := h.trim_eq
  rw [trim, dropWhile_of_head h.first] at heq
  rw [trim, hdrop]
  exact heq

theorem blank_whitespace : ∀ c ∈ " ".toList, isWhitespace c = true := by
  intro c hc
  have heq : c = ' ' := by simpa using hc
  rw [heq]
  decide

/-- The white space that follows a comma belongs to the next part. -/
theorem split_intercalate_comma {ts : List String} (hne : ts ≠ [])
    (h : ∀ t ∈ ts, Tight t ∧ ',' ∉ t.toList) {w : String}
    (hw : ∀ c ∈ w.toList, isWhitespace c = true) :
    (split (w ++ String.intercalate ", " ts) (· = ',')).map trim = ts := by
  have hfree : ∀ {w t : String}, (∀ c ∈ w.toList, isWhitespace c = true) → ',' ∉ t.toList →
      ',' ∉ (w ++ t).toList := by
    intro w t hw ht hmem
    rw [String.toList_append, List.mem_append] at hmem
    cases hmem with
    | inl hmem => exact absurd (hw ',' hmem) (by decide)
    | inr hmem => exact ht hmem
  induction ts generalizing w with
  | nil => exact absurd rfl hne
  | cons t ts ih =>
      obtain ⟨htight, hcomma⟩ := h t List.mem_cons_self
      cases ts with
      | nil =>
          rw [String.intercalate_singleton, split_eq_singleton (hfree hw hcomma), List.map_singleton,
            htight.trim_append hw]
      | cons next ts =>
          have hsplit : w ++ String.intercalate ", " (t :: next :: ts) =
              (w ++ t) ++ String.singleton ',' ++ (" " ++ String.intercalate ", " (next :: ts)) := by
            rw [String.intercalate_cons_cons, ← String.toList_inj]
            simp
          rw [hsplit, split_append (hfree hw hcomma), List.map_cons, htight.trim_append hw]
          rw [ih (List.cons_ne_nil next ts) (fun t ht => h t (List.mem_cons_of_mem _ ht))
            blank_whitespace]

theorem getLast_of_endsWith (h : endsWith s (String.singleton c) = true) :
    s.toList.getLast? = some c := by
  rw [endsWith] at h
  obtain ⟨front, hfront⟩ := List.isSuffixOf_iff_suffix.mp h
  rw [← hfront, String.toList_singleton, List.getLast?_concat]

section Intercalate

variable {sep : String} {ts : List String}

theorem mem_intercalate {sep : String} {ts : List String} {c : Char}
    (h : c ∈ (sep.intercalate ts).toList) : c ∈ sep.toList ∨ ∃ t ∈ ts, c ∈ t.toList := by
  induction ts with
  | nil => simp at h
  | cons t ts ih =>
      cases ts with
      | nil => exact .inr ⟨t, List.mem_singleton_self t, by simpa using h⟩
      | cons next ts =>
          rw [String.intercalate_cons_cons, String.toList_append, String.toList_append,
            List.mem_append, List.mem_append] at h
          obtain ((h | h) | h) := h
          · exact .inr ⟨t, List.mem_cons_self, h⟩
          · exact .inl h
          · cases ih h with
            | inl hsep => exact .inl hsep
            | inr hpart =>
                obtain ⟨part, hpart, hc⟩ := hpart
                exact .inr ⟨part, List.mem_cons_of_mem t hpart, hc⟩

theorem head?_intercalate (hne : ts ≠ []) (h : ∀ t ∈ ts, t ≠ "") :
    ∃ t ∈ ts, (String.intercalate sep ts).toList.head? = t.toList.head? := by
  cases ts with
  | nil => exact absurd rfl hne
  | cons t ts =>
      refine ⟨t, List.mem_cons_self, ?_⟩
      have hlist : t.toList ≠ [] :=
        fun hnil => h t List.mem_cons_self (String.toList_eq_nil_iff.mp hnil)
      cases ts with
      | nil => rw [String.intercalate_singleton]
      | cons next ts =>
          rw [String.intercalate_cons_cons, String.toList_append, String.toList_append,
            List.append_assoc, List.head?_append_of_ne_nil _ hlist]

theorem intercalate_ne_empty (hne : ts ≠ []) (h : ∀ t ∈ ts, t ≠ "") :
    String.intercalate sep ts ≠ "" := by
  intro hempty
  obtain ⟨t, ht, hhead⟩ := head?_intercalate hne h
  rw [hempty] at hhead
  exact h t ht (String.toList_eq_nil_iff.mp (List.head?_eq_none_iff.mp hhead.symm))

theorem getLast?_intercalate (hne : ts ≠ []) (h : ∀ t ∈ ts, t ≠ "") :
    ∃ t ∈ ts, (String.intercalate sep ts).toList.getLast? = t.toList.getLast? := by
  induction ts with
  | nil => exact absurd rfl hne
  | cons t ts ih =>
      cases ts with
      | nil => exact ⟨t, List.mem_cons_self, by rw [String.intercalate_singleton]⟩
      | cons next ts =>
          have hrest : ∀ t ∈ next :: ts, t ≠ "" := fun t ht => h t (List.mem_cons_of_mem _ ht)
          obtain ⟨last, hlast, heq⟩ := ih (List.cons_ne_nil next ts) hrest
          refine ⟨last, List.mem_cons_of_mem _ hlast, ?_⟩
          have hlist : (String.intercalate sep (next :: ts)).toList ≠ [] := fun hnil =>
            intercalate_ne_empty (List.cons_ne_nil next ts) hrest (String.toList_eq_nil_iff.mp hnil)
          rw [String.intercalate_cons_cons, String.toList_append,
            List.getLast?_append_of_ne_nil _ hlist, heq]

end Intercalate

end Text
