import Mathlib
import Snpm.Library.PathText
import Snpm.Library.SeqParts

/-!
The words of a text: white space between them does not count, and words put
together with blanks are found again.
-/
namespace Text

variable {s t : String}

theorem exists_splitOnP {p : Char → Bool} {cs : List Char} {c : Char} (h : c ∈ cs) :
    p c = true ∨ ∃ part ∈ cs.splitOnP p, c ∈ part := by
  induction cs with
  | nil => cases h
  | cons d cs ih =>
      rw [List.splitOnP_cons_eq_if_modifyHead]
      by_cases hd : p d = true
      · rw [if_pos hd]
        cases List.mem_cons.mp h with
        | inl heq => exact .inl (heq ▸ hd)
        | inr hmem =>
            cases ih hmem with
            | inl hc => exact .inl hc
            | inr hpart =>
                obtain ⟨part, hpart, hc⟩ := hpart
                exact .inr ⟨part, List.mem_cons_of_mem _ hpart, hc⟩
      · rw [if_neg hd]
        cases hparts : cs.splitOnP p with
        | nil => exact absurd hparts (List.splitOnP_ne_nil p cs)
        | cons first rest =>
            rw [hparts] at ih
            rw [List.modifyHead_cons]
            cases List.mem_cons.mp h with
            | inl heq => exact .inr ⟨d :: first, List.mem_cons_self, heq ▸ List.mem_cons_self⟩
            | inr hmem =>
                cases ih hmem with
                | inl hc => exact .inl hc
                | inr hpart =>
                    obtain ⟨part, hpart, hc⟩ := hpart
                    cases List.mem_cons.mp hpart with
                    | inl hfirst =>
                        subst hfirst
                        exact .inr ⟨d :: part, List.mem_cons_self, List.mem_cons_of_mem d hc⟩
                    | inr hrest => exact .inr ⟨part, List.mem_cons_of_mem _ hrest, hc⟩

/-- A character is a separator or stands in a part. -/
theorem exists_part_of_mem {p : Char → Bool} {c : Char} (h : c ∈ s.toList) :
    p c = true ∨ ∃ part ∈ split s p, c ∈ part.toList := by
  cases exists_splitOnP (p := p) h with
  | inl hc => exact .inl hc
  | inr hpart =>
      obtain ⟨part, hpart, hc⟩ := hpart
      refine .inr ⟨String.ofList part, List.mem_map.mpr ⟨part, hpart, rfl⟩, ?_⟩
      rw [String.toList_ofList]
      exact hc

/-- Parts put together with a separator are split again. -/
theorem split_intercalate {c : Char} {ts : List String} (hne : ts ≠ [])
    (h : ∀ t ∈ ts, c ∉ t.toList) :
    split (String.intercalate (String.singleton c) ts) (· = c) = ts := by
  induction ts with
  | nil => exact absurd rfl hne
  | cons t ts ih =>
      have ht := h t List.mem_cons_self
      cases ts with
      | nil => rw [String.intercalate_singleton, split_eq_singleton ht]
      | cons next ts =>
          rw [String.intercalate_cons_cons, split_append ht,
            ih (List.cons_ne_nil _ _) fun u hu => h u (List.mem_cons_of_mem t hu)]

theorem intercalate_split (s : String) (c : Char) :
    String.intercalate (String.singleton c) (split s (· = c)) = s := by
  have hsplit : s.toList.splitOnP (fun x => decide (x = c)) = s.toList.splitOn c := by
    rw [List.splitOn_eq_splitOnP]
    congr 1
  rw [split, hsplit, ← String.toList_inj, String.toList_intercalate, List.map_map]
  simp [Function.comp_def]

theorem intercalate_inj {c : Char} {ts us : List String} (ht : ts ≠ []) (hu : us ≠ [])
    (hts : ∀ t ∈ ts, c ∉ t.toList) (hus : ∀ u ∈ us, c ∉ u.toList)
    (h : String.intercalate (String.singleton c) ts = String.intercalate (String.singleton c) us) :
    ts = us := by
  rw [← split_intercalate ht hts, h, split_intercalate hu hus]

theorem find_append {p : Char → Bool} {c : Char} (hs : ∀ d ∈ s.toList, p d = false)
    (ht : c ∈ t.toList.head?) (hc : p c = true) : find (s ++ t) p = some (s, t) := by
  have hfree : ∀ d ∈ s.toList, (!p d) = true := by
    intro d hd
    simp [hs d hd]
  obtain ⟨rest, hrest⟩ := List.head?_eq_some_iff.mp ht
  have hany : (s ++ t).toList.any p = true := by
    rw [String.toList_append, hrest, List.any_append, List.any_cons, hc]
    simp
  rw [find, if_pos hany, String.toList_append, List.takeWhile_append_of_pos hfree,
    List.dropWhile_append_of_pos hfree, hrest, List.takeWhile_cons_of_neg (by simp [hc]),
    List.dropWhile_cons_of_neg (by simp [hc]), List.append_nil, ← hrest, String.ofList_toList,
    String.ofList_toList]

structure IsWord (s : String) : Prop where
  ne_empty : s ≠ ""
  free : ∀ c ∈ s.toList, isWhitespace c = false

theorem isWord_of_mem {w : String} (h : w ∈ splitWhitespace s) : IsWord w := by
  rw [splitWhitespace, List.mem_filter, split, List.mem_map] at h
  obtain ⟨⟨cs, hcs, hw⟩, hne⟩ := h
  refine ⟨by simpa using hne, fun c hc => ?_⟩
  rw [← hw, String.toList_ofList] at hc
  simpa using PathText.not_of_mem_splitOnP hcs c hc

theorem splitWhitespace_empty : splitWhitespace "" = [] := by decide

theorem splitWhitespace_append {c : Char} (hc : isWhitespace c = true) :
    splitWhitespace (s ++ String.singleton c ++ t) = splitWhitespace s ++ splitWhitespace t := by
  have hlist : (s ++ String.singleton c ++ t).toList = s.toList ++ c :: t.toList := by simp
  rw [splitWhitespace, split, hlist, List.splitOnP_append_cons _ _ hc, List.map_append,
    List.filter_append]
  rfl

theorem IsWord.splitWhitespace_eq (h : IsWord s) : splitWhitespace s = [s] := by
  have hone : s.toList.splitOnP isWhitespace = [s.toList] := by
    apply List.splitOnP_eq_singleton
    intro x hx
    simp [h.free x hx]
  rw [splitWhitespace, split, hone]
  simp [h.ne_empty]

section Blanks

variable {cs blanks : List Char}

theorem splitWhitespace_blanks_append (h : ∀ c ∈ blanks, isWhitespace c = true) :
    splitWhitespace (String.ofList (blanks ++ cs)) = splitWhitespace (String.ofList cs) := by
  induction blanks with
  | nil => rfl
  | cons c blanks ih =>
      have hcons : String.ofList (c :: blanks ++ cs) =
          "" ++ String.singleton c ++ String.ofList (blanks ++ cs) := by
        apply String.toList_inj.mp
        simp
      rw [hcons, splitWhitespace_append (h c List.mem_cons_self), splitWhitespace_empty,
        List.nil_append, ih fun d hd => h d (List.mem_cons_of_mem c hd)]

theorem splitWhitespace_append_blanks (h : ∀ c ∈ blanks, isWhitespace c = true) :
    splitWhitespace (String.ofList (cs ++ blanks)) = splitWhitespace (String.ofList cs) := by
  cases blanks with
  | nil => rw [List.append_nil]
  | cons c blanks =>
      have hcons : String.ofList (cs ++ c :: blanks) =
          String.ofList cs ++ String.singleton c ++ String.ofList (blanks ++ []) := by
        apply String.toList_inj.mp
        simp
      rw [hcons, splitWhitespace_append (h c List.mem_cons_self),
        splitWhitespace_blanks_append fun d hd => h d (List.mem_cons_of_mem c hd),
        String.ofList_nil, splitWhitespace_empty, List.append_nil]

theorem mem_takeWhile_isWhitespace {l : List Char} :
    ∀ c ∈ l.takeWhile isWhitespace, isWhitespace c = true :=
  fun _ hc => List.mem_takeWhile_imp hc

theorem splitWhitespace_trim (s : String) : splitWhitespace (trim s) = splitWhitespace s := by
  have hfront : splitWhitespace s =
      splitWhitespace (String.ofList (s.toList.dropWhile isWhitespace)) := by
    rw [← splitWhitespace_blanks_append (mem_takeWhile_isWhitespace (l := s.toList)),
      List.takeWhile_append_dropWhile, String.ofList_toList]
  have hback : ∀ l : List Char, splitWhitespace (String.ofList l) =
      splitWhitespace (String.ofList (l.reverse.dropWhile isWhitespace).reverse) := by
    intro l
    have hblank : ∀ c ∈ (l.reverse.takeWhile isWhitespace).reverse, isWhitespace c = true :=
      fun c hc => mem_takeWhile_isWhitespace c (List.mem_reverse.mp hc)
    have hparts : splitWhitespace (String.ofList ((l.reverse.dropWhile isWhitespace).reverse ++
        (l.reverse.takeWhile isWhitespace).reverse)) =
          splitWhitespace (String.ofList (l.reverse.dropWhile isWhitespace).reverse) :=
      splitWhitespace_append_blanks hblank
    rwa [← List.reverse_append, List.takeWhile_append_dropWhile, List.reverse_reverse] at hparts
  rw [hfront, hback, trim]

end Blanks

/-- A text that starts with a visible character has a word. -/
theorem splitWhitespace_ne_nil {c : Char} (hc : c ∈ s.toList.head?)
    (hvisible : isWhitespace c = false) : splitWhitespace s ≠ [] := by
  let word := String.ofList (s.toList.takeWhile fun d => !isWhitespace d)
  have hword : IsWord word := by
    constructor
    · intro hempty
      have hnil : s.toList.takeWhile (fun d => !isWhitespace d) = [] :=
        String.ofList_injective hempty
      cases hlist : s.toList with
      | nil =>
          rw [hlist] at hc
          cases hc
      | cons d cs =>
          rw [hlist, List.head?_cons, Option.mem_def, Option.some.injEq] at hc
          rw [hlist, hc, List.takeWhile_cons_of_pos (by simp [hvisible])] at hnil
          cases hnil
    · intro d hd
      rw [String.toList_ofList] at hd
      simpa using List.mem_takeWhile_imp hd
  have hparts : s.toList = word.toList ++ s.toList.dropWhile fun d => !isWhitespace d := by
    rw [String.toList_ofList, List.takeWhile_append_dropWhile]
  cases hrest : s.toList.dropWhile fun d => !isWhitespace d with
  | nil =>
      rw [hrest, List.append_nil, String.toList_inj] at hparts
      rw [hparts, hword.splitWhitespace_eq]
      exact List.cons_ne_nil _ _
  | cons d rest =>
      have hd := List.head?_dropWhile_not (fun d => !isWhitespace d) s.toList
      rw [hrest] at hd
      have heq : s = word ++ String.singleton d ++ String.ofList rest := by
        apply String.toList_inj.mp
        rw [hparts, hrest]
        simp
      rw [heq, splitWhitespace_append (by simpa using hd), hword.splitWhitespace_eq]
      exact List.cons_ne_nil _ _

theorem splitWhitespace_eq_nil_iff : splitWhitespace s = [] ↔ trim s = "" := by
  constructor
  · intro h
    cases hlist : (trim s).toList with
    | nil => exact String.toList_inj.mp hlist
    | cons c cs =>
        have hc : c ∈ (trim s).toList.head? := by rw [hlist]; rfl
        have hne := splitWhitespace_ne_nil hc ((trim_tight s).first c hc)
        rw [splitWhitespace_trim] at hne
        exact absurd h hne
  · intro h
    rw [← splitWhitespace_trim, h, splitWhitespace_empty]

theorem splitWhitespace_intercalate {ws : List String} (h : ∀ w ∈ ws, IsWord w) :
    splitWhitespace (String.intercalate " " ws) = ws := by
  induction ws with
  | nil => exact splitWhitespace_empty
  | cons w ws ih =>
      have hw := (h w List.mem_cons_self).splitWhitespace_eq
      cases ws with
      | nil => rw [String.intercalate_singleton, hw]
      | cons next ws =>
          have hsplit : String.intercalate " " (w :: next :: ws) =
              w ++ String.singleton ' ' ++ String.intercalate " " (next :: ws) := by
            rw [String.intercalate_cons_cons]
            rfl
          rw [hsplit, splitWhitespace_append (by decide), hw,
            ih fun v hv => h v (List.mem_cons_of_mem w hv), List.singleton_append]

end Text
