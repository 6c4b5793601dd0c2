import Mathlib
import Snpm.Library.HeadedBlocks
import Snpm.Library.LineParts
import Snpm.Library.SeqParts
import Snpm.Patch.Diff

/-!
When the two passes over a diff keep it: what they do to one line, and which
sections they leave out.
-/
namespace Snpm.Patch

variable {roots : DiffRoots}

section Header

variable {marker root side path line : String} {suffix : Option String}

/-- Every text is a path and what follows its first tab. -/
theorem exists_path_suffix (rest : String) : ∃ path suffix,
    rest = path ++ headerSuffix suffix ∧ '\t' ∉ path.toList := by
  cases hsplit : Text.splitOnce rest (· = '\t') with
  | none => exact ⟨rest, none, String.append_empty.symm, Text.splitOnce_eq_none_iff.mp hsplit⟩
  | some parts =>
      obtain ⟨hrest, hpath⟩ := Text.splitOnce_eq_some hsplit
      exact ⟨parts.1, some parts.2, by rw [hrest, String.append_assoc]; rfl, hpath⟩

theorem splitOnce_header (htab : '\t' ∉ path.toList) :
    Text.splitOnce (path ++ headerSuffix suffix) (· = '\t') = suffix.map fun text => (path, text) := by
  cases suffix with
  | none =>
      have hplain : path ++ headerSuffix none = path := String.append_empty
      rw [hplain, Text.splitOnce_eq_none_iff.mpr htab]
      rfl
  | some text =>
      have htext : path ++ headerSuffix (some text) = path ++ String.singleton '\t' ++ text := by
        rw [String.append_assoc]
        rfl
      rw [htext, Text.splitOnce_append path text htab]
      rfl

/-- The test for an absent file reads the path. -/
theorem devNull_iff (htab : '\t' ∉ path.toList) :
    (path ++ headerSuffix suffix = "/dev/null" ∨
      Text.startsWith (path ++ headerSuffix suffix) "/dev/null\t" = true) ↔ path = "/dev/null" := by
  have hnull : '\t' ∉ "/dev/null".toList := by decide
  have hstarts := Text.startsWith_part_iff (s := path ++ headerSuffix suffix) "/dev/null" hnull
  have hword : "/dev/null" ++ String.singleton '\t' = "/dev/null\t" := by decide
  rw [hword, splitOnce_header htab] at hstarts
  rw [hstarts]
  cases suffix with
  | none => simp [headerSuffix]
  | some text =>
      have hne : path ++ headerSuffix (some text) ≠ "/dev/null" := by
        intro heq
        have hmem : '\t' ∈ (path ++ headerSuffix (some text)).toList := by simp [headerSuffix]
        rw [heq] at hmem
        exact hnull hmem
      simp [hne]

theorem rewritePatchHeader_header (marker root side : String) (htab : '\t' ∉ path.toList) :
    rewritePatchHeader (marker ++ path ++ headerSuffix suffix) marker root side =
      if path = "/dev/null" then some (marker ++ path ++ headerSuffix suffix)
      else (stripRoot path root).map fun relative =>
        marker ++ side ++ "/" ++ normalizePatchPath relative ++ headerSuffix suffix := by
  unfold rewritePatchHeader
  rw [String.append_assoc, Text.stripPrefix_append]
  simp only [Option.bind_some, devNull_iff htab, splitOnce_header htab]
  cases suffix with
  | none => simp only [headerSuffix, Option.elim_none, String.append_empty, Option.map_none]
  | some text => rfl

theorem rewritePatchHeader_other (root side : String)
    (h : Text.startsWith line marker = false) : rewritePatchHeader line marker root side = none := by
  unfold rewritePatchHeader Text.stripPrefix
  simp [h]

/-- The rewritten header, where the pass finds one. -/
theorem rewritePatchHeader_getD (marker root side : String) (htab : '\t' ∉ path.toList) :
    (rewritePatchHeader (marker ++ path ++ headerSuffix suffix) marker root side).getD
        (marker ++ path ++ headerSuffix suffix) =
      marker ++ rebasedPath root side path ++ headerSuffix suffix := by
  rw [rewritePatchHeader_header marker root side htab, rebasedPath]
  split
  · rfl
  · cases stripRoot path root with
    | none => rfl
    | some relative => simp only [Option.map_some, Option.getD_some, String.append_assoc]

end Header

section Line

variable {line : String}

theorem startsWith_minus_plus (rest : String) : Text.startsWith ("+++ " ++ rest) "--- " = false :=
  Text.startsWith_eq_false (by simp) (by decide)

theorem startsWith_plus_minus (rest : String) : Text.startsWith ("--- " ++ rest) "+++ " = false :=
  Text.startsWith_eq_false (by simp) (by decide)

theorem rewriteLine_old {path : String} (suffix : Option String) (htab : '\t' ∉ path.toList) :
    rewriteLine roots ("--- " ++ path ++ headerSuffix suffix) =
      "--- " ++ rebasedPath roots.original "a" path ++ headerSuffix suffix := by
  have hnew : Text.startsWith ("--- " ++ path ++ headerSuffix suffix) "+++ " = false := by
    rw [String.append_assoc]
    exact startsWith_plus_minus _
  rw [rewriteLine, rewritePatchHeader_other roots.modified "b" hnew, Option.or_none,
    rewritePatchHeader_getD _ _ _ htab]

theorem rewriteLine_new {path : String} (suffix : Option String) (htab : '\t' ∉ path.toList) :
    rewriteLine roots ("+++ " ++ path ++ headerSuffix suffix) =
      "+++ " ++ rebasedPath roots.modified "b" path ++ headerSuffix suffix := by
  have hold : Text.startsWith ("+++ " ++ path ++ headerSuffix suffix) "--- " = false := by
    rw [String.append_assoc]
    exact startsWith_minus_plus _
  rw [rewriteLine, rewritePatchHeader_other roots.original "a" hold, Option.none_or,
    rewritePatchHeader_getD _ _ _ htab]

theorem rewriteLine_other (hold : Text.startsWith line "--- " = false)
    (hnew : Text.startsWith line "+++ " = false) : rewriteLine roots line = line := by
  rw [rewriteLine, rewritePatchHeader_other _ _ hold, rewritePatchHeader_other _ _ hnew]
  rfl

theorem path_of_header {path path' : String} {suffix suffix' : Option String}
    (htab : '\t' ∉ path.toList) (htab' : '\t' ∉ path'.toList)
    (h : path ++ headerSuffix suffix = path' ++ headerSuffix suffix') : path = path' := by
  have hsplit := @splitOnce_header _ suffix htab
  rw [h, splitOnce_header htab'] at hsplit
  cases suffix with
  | none =>
      cases suffix' with
      | none => simpa [headerSuffix] using h
      | some text' => cases hsplit
  | some text =>
      cases suffix' with
      | none => cases hsplit
      | some text' =>
          rw [Option.map_some, Option.map_some, Option.some.injEq, Prod.mk.injEq] at hsplit
          exact hsplit.1.symm

theorem likeHeader_iff {marker root path : String} {suffix : Option String}
    (htab : '\t' ∉ path.toList) :
    LikeHeader marker root (marker ++ path ++ headerSuffix suffix) ↔
      path ≠ "/dev/null" ∧ (stripRoot path root).isSome = true := by
  constructor
  · rintro ⟨path', suffix', heq, htab', hnull, hroot⟩
    rw [String.append_assoc, String.append_assoc, String.append_right_inj] at heq
    rw [path_of_header htab htab' heq]
    exact ⟨hnull, hroot⟩
  · rintro ⟨hnull, hroot⟩
    exact ⟨path, suffix, rfl, htab, hnull, hroot⟩

theorem rebasedPath_eq_self {root side path : String}
    (h : ¬ (path ≠ "/dev/null" ∧ (stripRoot path root).isSome = true)) :
    rebasedPath root side path = path := by
  unfold rebasedPath
  split
  · rfl
  · rename_i hnull
    have hnone : stripRoot path root = none := by
      rw [← Option.not_isSome_iff_eq_none]
      exact fun hsome => h ⟨hnull, hsome⟩
    rw [hnone]
    rfl

theorem rebasedPath_below {root side path : String} (hnull : path ≠ "/dev/null")
    (hroot : (stripRoot path root).isSome = true) :
    ∃ q, rebasedPath root side path = side ++ "/" ++ q := by
  obtain ⟨relative, hrelative⟩ := Option.isSome_iff_exists.mp hroot
  exact ⟨normalizePatchPath relative, by rw [rebasedPath, if_neg hnull, hrelative]; rfl⟩

/-- What lies below an absolute root is absolute. -/
theorem absolute_of_stripRoot {root path : String} (habsolute : root.toList.head? = some '/')
    (hroot : (stripRoot path root).isSome = true) : ∃ p, path = "/" ++ p := by
  unfold stripRoot at hroot
  split at hroot
  · rename_i hprefix
    have hhead := (@PathText.head?_components_eq_rootDir_iff _ _ '/' '.' _).mpr habsolute
    obtain ⟨rest, hrest⟩ := List.isPrefixOf_iff_prefix.mp hprefix
    have hpath : (pathComponents path).head? = some .rootDir := by
      rw [← hrest, List.head?_append, pathComponents, hhead]
      rfl
    have hslash := PathText.head?_components_eq_rootDir_iff.mp hpath
    cases hlist : path.toList with
    | nil =>
        rw [hlist] at hslash
        cases hslash
    | cons c cs =>
        rw [hlist, List.head?_cons, Option.some.injEq] at hslash
        refine ⟨String.ofList cs, ?_⟩
        rw [← String.toList_inj, hlist, hslash]
        simp
  · cases hroot

/-- A line that is rewritten read like a header, and its path was absolute before and is
not afterwards. -/
structure Rebased (roots : DiffRoots) (line : String) : Prop where
  like : LikeHeader "--- " roots.original line ∨ LikeHeader "+++ " roots.modified line
  paths : ∃ marker side p q, (side = "a" ∨ side = "b") ∧ line = marker ++ ("/" ++ p) ∧
    rewriteLine roots line = marker ++ (side ++ ("/" ++ q))

theorem rewriteLine_cases (roots : DiffRoots) (line : String) :
    (rewriteLine roots line = line ∧ ¬ LikeHeader "--- " roots.original line ∧
      ¬ LikeHeader "+++ " roots.modified line) ∨ Rebased roots line := by
  have hnotNew : ∀ rest, ¬ LikeHeader "+++ " roots.modified ("--- " ++ rest) := by
    rintro rest ⟨path, suffix, heq, -⟩
    have hstarts := startsWith_plus_minus rest
    rw [heq, String.append_assoc] at hstarts
    rw [Text.startsWith_iff.mpr ⟨_, rfl⟩] at hstarts
    cases hstarts
  have hnotOld : ∀ rest, ¬ LikeHeader "--- " roots.original ("+++ " ++ rest) := by
    rintro rest ⟨path, suffix, heq, -⟩
    have hstarts := startsWith_minus_plus rest
    rw [heq, String.append_assoc] at hstarts
    rw [Text.startsWith_iff.mpr ⟨_, rfl⟩] at hstarts
    cases hstarts
  cases hold : Text.startsWith line "--- " with
  | true =>
      obtain ⟨rest, rfl⟩ := Text.startsWith_iff.mp hold
      obtain ⟨path, suffix, rfl, htab⟩ := exists_path_suffix rest
      have hrewrite := @rewriteLine_old roots _ suffix htab
      rw [← String.append_assoc]
      by_cases hlike : path ≠ "/dev/null" ∧ (stripRoot path roots.original).isSome = true
      · refine .inr ⟨.inl ((likeHeader_iff htab).mpr hlike), ?_⟩
        obtain ⟨p, hp⟩ := absolute_of_stripRoot roots.original_absolute hlike.2
        obtain ⟨q, hq⟩ := @rebasedPath_below _ "a" _ hlike.1 hlike.2
        refine ⟨"--- ", "a", p ++ headerSuffix suffix, q ++ headerSuffix suffix, .inl rfl, ?_, ?_⟩
        · simp only [hp, String.append_assoc]
        · rw [hrewrite, hq]
          simp only [String.append_assoc]
      · rw [hrewrite, rebasedPath_eq_self hlike]
        refine .inl ⟨rfl, (likeHeader_iff htab).not.mpr hlike, ?_⟩
        rw [String.append_assoc]
        exact hnotNew _
  | false =>
      cases hnew : Text.startsWith line "+++ " with
      | true =>
          obtain ⟨rest, rfl⟩ := Text.startsWith_iff.mp hnew
          obtain ⟨path, suffix, rfl, htab⟩ := exists_path_suffix rest
          have hrewrite := @rewriteLine_new roots _ suffix htab
          rw [← String.append_assoc]
          by_cases hlike : path ≠ "/dev/null" ∧ (stripRoot path roots.modified).isSome = true
          · refine .inr ⟨.inr ((likeHeader_iff htab).mpr hlike), ?_⟩
            obtain ⟨p, hp⟩ := absolute_of_stripRoot roots.modified_absolute hlike.2
            obtain ⟨q, hq⟩ := @rebasedPath_below _ "b" _ hlike.1 hlike.2
            refine ⟨"+++ ", "b", p ++ headerSuffix suffix, q ++ headerSuffix suffix, .inr rfl,
              ?_, ?_⟩
            · simp only [hp, String.append_assoc]
            · rw [hrewrite, hq]
              simp only [String.append_assoc]
          · rw [hrewrite, rebasedPath_eq_self hlike]
            refine .inl ⟨rfl, ?_, (likeHeader_iff htab).not.mpr hlike⟩
            rw [String.append_assoc]
            exact hnotOld _
      | false =>
          refine .inl ⟨rewriteLine_other hold hnew, ?_, ?_⟩
          · rintro ⟨path, suffix, rfl, -⟩
            rw [String.append_assoc, Text.startsWith_iff.mpr ⟨_, rfl⟩] at hold
            cases hold
          · rintro ⟨path, suffix, rfl, -⟩
            rw [String.append_assoc, Text.startsWith_iff.mpr ⟨_, rfl⟩] at hnew
            cases hnew

end Line

section Passed

open Text (OneLine stripReturn)

/-- A line after both passes. -/
def passed (roots : DiffRoots) (line : String) : String :=
  stripReturn (rewriteLine roots (stripReturn line))

variable {line : String}

theorem stripReturn_twice_iff {s : String} :
    stripReturn (stripReturn s) = s ↔ Text.endsWith s "\r" = false := by
  rw [← Text.stripReturn_eq_self_iff]
  constructor
  · intro h
    obtain ⟨w, hw, hempty | hreturn⟩ := Text.eq_stripReturn_append s
    · rw [hempty, String.append_empty] at hw
      exact hw.symm
    · have hlength := congrArg String.length hw
      rw [hreturn, String.length_append] at hlength
      have hle := Text.length_stripReturn_le (stripReturn s)
      rw [h] at hle
      have hpos : 0 < ("\r" : String).length := by decide
      omega
  · intro h
    rw [h, h]

theorem passed_text_iff : passed roots line = line ↔ (DiffLine.text line).Safe roots := by
  unfold passed DiffLine.Safe
  obtain ⟨hsame, hold, hnew⟩ | ⟨hlike, marker, side, p, q, hside, hline, hrewrite⟩ :=
    rewriteLine_cases roots (stripReturn line)
  · rw [hsame, stripReturn_twice_iff]
    constructor
    · intro hends
      rw [Text.stripReturn_eq_self_iff.mpr hends] at hold hnew
      exact ⟨hends, hold, hnew⟩
    · exact fun h => h.1
  · constructor
    · intro h
      obtain ⟨w, hw, -⟩ := Text.eq_stripReturn_append line
      have hne : ("/" ++ q : String) ≠ "" := by
        rw [← String.toList_inj.ne]
        simp
      rw [hrewrite, Text.stripReturn_append _ (by simp), Text.stripReturn_append _ hne] at h
      rw [hw, hline, String.append_assoc, String.append_right_inj] at h
      have hhead := congrArg (fun s : String => s.toList.head?) h
      obtain rfl | rfl := hside
      · simp at hhead
      · simp at hhead
    · rintro ⟨hends, hold, hnew⟩
      rw [Text.stripReturn_eq_self_iff.mpr hends] at hlike
      exact absurd hlike (not_or.mpr ⟨hold, hnew⟩)

theorem stripReturn_headerSuffix (s text : String) :
    stripReturn (s ++ headerSuffix (some text)) = s ++ headerSuffix (some (stripReturn text)) := by
  have htab : headerSuffix (some text) = "\t" ++ text := rfl
  rw [htab, Text.stripReturn_append _ (by simp)]
  by_cases hempty : text = ""
  · subst hempty
    rfl
  · rw [Text.stripReturn_append _ hempty]
    rfl

theorem mem_rebasedPath {root side path : String} {c : Char}
    (h : c ∈ (rebasedPath root side path).toList) : c ∈ path.toList ∨ c = '/' ∨ c ∈ side.toList := by
  unfold rebasedPath at h
  split at h
  · exact .inl h
  · cases hroot : stripRoot path root with
    | none =>
        rw [hroot] at h
        exact .inl h
    | some relative =>
        rw [hroot, Option.map_some, Option.getD_some, String.toList_append, String.toList_append,
          List.mem_append, List.mem_append] at h
        obtain (hside | hslash) | hname := h
        · exact .inr (.inr hside)
        · exact .inr (.inl (by simpa using hslash))
        · cases Text.mem_intercalate hname with
          | inl hslash => exact .inr (.inl (by simpa using hslash))
          | inr hpart =>
              obtain ⟨part, hpart, hc⟩ := hpart
              obtain ⟨component, hcomponent, hnormal⟩ := List.mem_filterMap.mp hpart
              cases component with
              | rootDir | curDir | parentDir => cases hnormal
              | normal segment =>
                  cases hnormal
                  unfold stripRoot at hroot
                  split at hroot
                  · cases hroot
                    exact .inl (PathText.mem_of_mem_normal (List.mem_of_mem_drop hcomponent) c
                      (by simpa using hc))
                  · cases hroot

theorem endsWith_return_eq_false {s : String} (h : '\r' ∉ s.toList) :
    Text.endsWith s "\r" = false := by
  rw [Bool.eq_false_iff]
  intro hends
  rw [Text.endsWith, List.isSuffixOf_iff_suffix] at hends
  exact h (hends.subset (by decide))

/-- A header keeps what follows its path, but for a carriage return at the end. -/
theorem passed_header_iff {marker root side : String} (header : FileHeader)
    (hmarker : '\r' ∉ marker.toList) (hside : '\r' ∉ side.toList)
    (hrewrite : ∀ suffix, rewriteLine roots (marker ++ header.path ++ headerSuffix suffix) =
      marker ++ rebasedPath root side header.path ++ headerSuffix suffix) :
    passed roots (marker ++ header.path ++ headerSuffix header.suffix) =
        marker ++ rebasedPath root side header.path ++ headerSuffix header.suffix ↔
      ∀ text ∈ header.suffix, Text.endsWith text "\r" = false := by
  have hpath : '\r' ∉ header.path.toList := fun hmem => (header.path_plain '\r' hmem).2.2 rfl
  cases hsuffix : header.suffix with
  | none =>
      have hplain : '\r' ∉ (marker ++ header.path ++ headerSuffix none).toList := by
        simp [headerSuffix, hmarker, hpath]
      have hrebased : '\r' ∉
          (marker ++ rebasedPath root side header.path ++ headerSuffix none).toList := by
        have hnot : '\r' ∉ (rebasedPath root side header.path).toList := by
          intro hmem
          obtain h | h | h := mem_rebasedPath hmem
          · exact hpath h
          · exact absurd h (by decide)
          · exact hside h
        simp [headerSuffix, hmarker, hnot]
      rw [passed, Text.stripReturn_eq_self_iff.mpr (endsWith_return_eq_false hplain),
        hrewrite none, Text.stripReturn_eq_self_iff.mpr (endsWith_return_eq_false hrebased)]
      simp
  | some text =>
      rw [passed, stripReturn_headerSuffix, hrewrite, stripReturn_headerSuffix,
        String.append_right_inj]
      have htab : ∀ s, headerSuffix (some s) = "\t" ++ s := fun s => rfl
      rw [htab, htab, String.append_right_inj, stripReturn_twice_iff]
      simp

/-- Both passes do to a line what they should just when it is safe. -/
theorem passed_iff (line : DiffLine) :
    passed roots line.line = line.rebased roots ↔ line.Safe roots := by
  cases line with
  | text line => exact passed_text_iff
  | old header =>
      exact passed_header_iff header (by decide) (by decide) fun suffix =>
        rewriteLine_old suffix fun hmem => (header.path_plain '\t' hmem).1 rfl
  | new header =>
      exact passed_header_iff header (by decide) (by decide) fun suffix =>
        rewriteLine_new suffix fun hmem => (header.path_plain '\t' hmem).1 rfl

theorem startsWith_diff_rewriteLine (roots : DiffRoots) (line : String) :
    Text.startsWith (rewriteLine roots line) "diff " = Text.startsWith line "diff " := by
  have hminus : ∀ rest, Text.startsWith ("--- " ++ rest) "diff " = false :=
    fun rest => Text.startsWith_eq_false (by simp) (by decide)
  have hplus : ∀ rest, Text.startsWith ("+++ " ++ rest) "diff " = false :=
    fun rest => Text.startsWith_eq_false (by simp) (by decide)
  cases hold : Text.startsWith line "--- " with
  | true =>
      obtain ⟨rest, rfl⟩ := Text.startsWith_iff.mp hold
      obtain ⟨path, suffix, rfl, htab⟩ := exists_path_suffix rest
      rw [← String.append_assoc, rewriteLine_old suffix htab]
      simp only [String.append_assoc, hminus]
  | false =>
      cases hnew : Text.startsWith line "+++ " with
      | true =>
          obtain ⟨rest, rfl⟩ := Text.startsWith_iff.mp hnew
          obtain ⟨path, suffix, rfl, htab⟩ := exists_path_suffix rest
          rw [← String.append_assoc, rewriteLine_new suffix htab]
          simp only [String.append_assoc, hplus]
      | false => rw [rewriteLine_other hold hnew]

theorem startsWith_diff_stripReturn (line : String) :
    Text.startsWith (stripReturn line) "diff " = Text.startsWith line "diff " := by
  cases hstarts : Text.startsWith line "diff " with
  | true =>
      obtain ⟨rest, rfl⟩ := Text.startsWith_iff.mp hstarts
      by_cases hempty : rest = ""
      · subst hempty
        decide
      · rw [Text.stripReturn_append _ hempty]
        exact Text.startsWith_iff.mpr ⟨_, rfl⟩
  | false =>
      rw [Bool.eq_false_iff] at hstarts ⊢
      intro hstrip
      obtain ⟨w, hw, -⟩ := Text.eq_stripReturn_append line
      obtain ⟨rest, hrest⟩ := Text.startsWith_iff.mp hstrip
      refine hstarts (Text.startsWith_iff.mpr ⟨rest ++ w, ?_⟩)
      rw [← String.append_assoc, ← hrest]
      exact hw

theorem startsWith_diff_passed (roots : DiffRoots) (line : String) :
    Text.startsWith (passed roots line) "diff " = Text.startsWith line "diff " := by
  rw [passed, startsWith_diff_stripReturn, startsWith_diff_rewriteLine,
    startsWith_diff_stripReturn]

theorem containsSeq_stripReturn {part : String} (hpart : '\r' ∉ part.toList) (line : String) :
    Text.containsSeq (stripReturn line) part = Text.containsSeq line part := by
  obtain ⟨w, hw, hempty | hreturn⟩ := Text.eq_stripReturn_append line
  · rw [hempty, String.append_empty] at hw
    rw [← hw]
  · rw [Bool.eq_iff_iff, Text.containsSeq_iff, Text.containsSeq_iff]
    constructor
    · intro h
      rw [hw, String.toList_append]
      exact h.trans (List.prefix_append _ _).isInfix
    · rintro ⟨before, after, heq⟩
      rw [hw, hreturn, String.toList_append] at heq
      cases List.eq_nil_or_concat after with
      | inl hnil =>
          rw [hnil, List.append_nil] at heq
          cases List.eq_nil_or_concat part.toList with
          | inl hpartNil => exact hpartNil ▸ List.nil_infix
          | inr hpartConcat =>
              obtain ⟨init, last, hsplit⟩ := hpartConcat
              rw [List.concat_eq_append] at hsplit
              rw [hsplit, ← List.append_assoc] at heq
              have hlast : [last] = "\r".toList := List.append_inj_right' heq rfl
              have hmem : '\r' ∈ part.toList := by
                rw [hsplit, hlast]
                simp
              exact absurd hmem hpart
      | inr hconcat =>
          obtain ⟨init, last, hsplit⟩ := hconcat
          rw [List.concat_eq_append] at hsplit
          rw [hsplit, ← List.append_assoc] at heq
          exact ⟨before, init, List.append_inj_left' heq rfl⟩

theorem oneLine_append {s t : String} (hs : OneLine s) (ht : OneLine t) : OneLine (s ++ t) := by
  intro hmem
  rw [String.toList_append, List.mem_append] at hmem
  exact hmem.elim hs ht

theorem oneLine_parts {s t : String} (h : OneLine (s ++ t)) : OneLine s ∧ OneLine t := by
  unfold OneLine at h ⊢
  rw [String.toList_append, List.mem_append, not_or] at h
  exact h

theorem oneLine_rebased {marker root side path : String} {suffix : Option String}
    (hside : OneLine side) (h : OneLine (marker ++ path ++ headerSuffix suffix)) :
    OneLine (marker ++ rebasedPath root side path ++ headerSuffix suffix) := by
  obtain ⟨hfront, hsuffix⟩ := oneLine_parts h
  obtain ⟨hmarker, hpath⟩ := oneLine_parts hfront
  refine oneLine_append (oneLine_append hmarker fun hmem => ?_) hsuffix
  obtain h | h | h := mem_rebasedPath hmem
  · exact hpath h
  · exact absurd h (by decide)
  · exact hside h

theorem oneLine_rewriteLine (roots : DiffRoots) (h : OneLine line) :
    OneLine (rewriteLine roots line) := by
  cases hold : Text.startsWith line "--- " with
  | true =>
      obtain ⟨rest, rfl⟩ := Text.startsWith_iff.mp hold
      obtain ⟨path, suffix, rfl, htab⟩ := exists_path_suffix rest
      rw [← String.append_assoc] at h ⊢
      rw [rewriteLine_old suffix htab]
      exact oneLine_rebased (by decide) h
  | false =>
      cases hnew : Text.startsWith line "+++ " with
      | true =>
          obtain ⟨rest, rfl⟩ := Text.startsWith_iff.mp hnew
          obtain ⟨path, suffix, rfl, htab⟩ := exists_path_suffix rest
          rw [← String.append_assoc] at h ⊢
          rw [rewriteLine_new suffix htab]
          exact oneLine_rebased (by decide) h
      | false =>
          rw [rewriteLine_other hold hnew]
          exact h

/-- The rebased line is a header that the pass rewrote, or the line itself. -/
theorem rebased_eq (line : DiffLine) :
    line.rebased roots = rewriteLine roots line.line ∨ line.rebased roots = line.line := by
  cases line with
  | text line => exact .inr rfl
  | old header =>
      exact .inl (rewriteLine_old _ fun hmem => (header.path_plain '\t' hmem).1 rfl).symm
  | new header =>
      exact .inl (rewriteLine_new _ fun hmem => (header.path_plain '\t' hmem).1 rfl).symm

theorem oneLine_rebasedLine {line : DiffLine} (h : OneLine line.line) :
    OneLine (line.rebased roots) := by
  cases @rebased_eq roots line with
  | inl heq =>
      rw [heq]
      exact oneLine_rewriteLine roots h
  | inr heq =>
      rw [heq]
      exact h

theorem startsWith_diff_rebased (roots : DiffRoots) (line : DiffLine) :
    Text.startsWith (line.rebased roots) "diff " = Text.startsWith line.line "diff " := by
  cases @rebased_eq roots line with
  | inl heq => rw [heq, startsWith_diff_rewriteLine]
  | inr heq => rw [heq]

end Passed

section Sections

open Text (OneLine stripReturn)

variable {diffs : List FileDiff}

/-- A line that is not the command of a section. -/
def Within (line : String) : Prop := OneLine line ∧ Text.startsWith line "diff " = false

theorem within_of_head {line : String} {c : Char} (h : OneLine line)
    (hhead : line.toList.head? = some c) (hc : c ≠ 'd') : Within line := by
  refine ⟨h, Text.startsWith_eq_false ?_ (by decide)⟩
  rw [hhead]
  simpa using hc

theorem within_header {marker : String} {c : Char} (header : FileHeader) (hmarker : OneLine marker)
    (hhead : marker.toList.head? = some c) (hc : c ≠ 'd') :
    Within (marker ++ header.path ++ headerSuffix header.suffix) := by
  have hpath : OneLine header.path := fun hmem => (header.path_plain '\n' hmem).2.1 rfl
  have hsuffix : OneLine (headerSuffix header.suffix) := by
    cases htext : header.suffix with
    | none => exact fun hmem => absurd hmem (by simp [headerSuffix])
    | some text => exact oneLine_append (by decide) (header.suffix_oneLine text htext)
  refine within_of_head (oneLine_append (oneLine_append hmarker hpath) hsuffix) ?_ hc
  cases hlist : marker.toList with
  | nil =>
      rw [hlist] at hhead
      cases hhead
  | cons first rest =>
      rw [hlist] at hhead
      simpa [hlist] using hhead

theorem HunkLine.within (l : HunkLine) : Within l.line := by
  have hmark : OneLine (String.singleton l.mark.char) := by cases l.mark <;> decide
  refine within_of_head (oneLine_append hmark l.oneLine) (c := l.mark.char) ?_ ?_
  · simp [HunkLine.line]
  · cases l.mark <;> decide

theorem FileDiff.rest_within (diff : FileDiff) : ∀ line ∈ diff.rest, Within line.line := by
  intro line hline
  cases List.mem_append.mp hline with
  | inl hnote =>
      obtain ⟨note, hmem, rfl⟩ := List.mem_map.mp hnote
      exact ⟨(diff.notes_plain note hmem).1, (diff.notes_plain note hmem).2.1⟩
  | inr hbody =>
      cases hsome : diff.body with
      | none =>
          rw [hsome] at hbody
          cases hbody
      | some body =>
          rw [hsome, Option.map_some, Option.getD_some, DiffBody.diffLines, List.mem_cons,
            List.mem_cons] at hbody
          obtain rfl | rfl | hhunk := hbody
          · exact within_header body.old (by decide) rfl (by decide)
          · exact within_header body.new (by decide) rfl (by decide)
          · obtain ⟨hunk, -, hline⟩ := List.mem_flatMap.mp hhunk
            cases List.mem_cons.mp hline with
            | inl hrange =>
                subst hrange
                exact within_of_head (c := '@') (oneLine_append (by decide) hunk.range_oneLine)
                  (by simp [DiffLine.line]) (by decide)
            | inr hcontent =>
                obtain ⟨l, -, rfl⟩ := List.mem_map.mp hcontent
                exact l.within

theorem FileDiff.oneLine_lines (diff : FileDiff) : ∀ line ∈ diff.lines, OneLine line := by
  intro line hline
  cases List.mem_cons.mp hline with
  | inl hcommand =>
      rw [hcommand]
      exact oneLine_append (by decide) diff.command_oneLine
  | inr hrest =>
      obtain ⟨inner, hinner, rfl⟩ := List.mem_map.mp hrest
      exact (diff.rest_within inner hinner).1

theorem startsWith_commandLine (diff : FileDiff) : Text.startsWith diff.commandLine "diff " = true :=
  Text.startsWith_iff.mpr ⟨_, rfl⟩

theorem passed_commandLine (roots : DiffRoots) (diff : FileDiff) :
    passed roots diff.commandLine = stripReturn (stripReturn diff.commandLine) := by
  have hstarts : Text.startsWith (stripReturn diff.commandLine) "diff " = true := by
    rw [startsWith_diff_stripReturn, startsWith_commandLine]
  obtain ⟨rest, hrest⟩ := Text.startsWith_iff.mp hstarts
  have hhead : (stripReturn diff.commandLine).toList.head? = some 'd' := by
    rw [hrest, String.toList_append]
    rfl
  have hold : Text.startsWith (stripReturn diff.commandLine) "--- " = false :=
    Text.startsWith_eq_false (by rw [hhead]; decide) (by decide)
  have hnew : Text.startsWith (stripReturn diff.commandLine) "+++ " = false :=
    Text.startsWith_eq_false (by rw [hhead]; decide) (by decide)
  rw [passed, rewriteLine_other hold hnew]

theorem containsSeq_passed_commandLine (roots : DiffRoots) (diff : FileDiff) :
    Text.containsSeq (passed roots diff.commandLine) sessionMarker =
      Text.containsSeq diff.commandLine sessionMarker := by
  have hmarker : '\r' ∉ sessionMarker.toList := by decide
  rw [passed_commandLine, containsSeq_stripReturn hmarker, containsSeq_stripReturn hmarker]

theorem passed_commandLine_iff (diff : FileDiff) :
    passed roots diff.commandLine = diff.commandLine ↔ Text.endsWith diff.command "\r" = false := by
  rw [passed_commandLine, stripReturn_twice_iff, FileDiff.commandLine,
    ← Text.stripReturn_eq_self_iff, ← Text.stripReturn_eq_self_iff]
  by_cases hempty : diff.command = ""
  · rw [hempty]
    decide
  · rw [Text.stripReturn_append _ hempty, String.append_right_inj]

theorem filterLines_within {ls : List String} (h : ∀ line ∈ ls, Text.startsWith line "diff " = false)
    (skip : Bool) (tail : List String) :
    filterLines skip (ls ++ tail) = (if skip then [] else ls) ++ filterLines skip tail := by
  induction ls with
  | nil => cases skip <;> rfl
  | cons line ls ih =>
      rw [List.cons_append, filterLines, h line List.mem_cons_self]
      simp only [Bool.false_eq_true, if_false]
      rw [ih fun other hother => h other (List.mem_cons_of_mem _ hother)]
      cases skip <;> rfl

/-- Whole sections are left out: those whose command holds the marker's name. -/
theorem filterLines_diffs (roots : DiffRoots) (diffs : List FileDiff) (skip : Bool) :
    filterLines skip (diffs.flatMap fun diff => diff.lines.map (passed roots)) =
      (diffs.filter fun diff => !Text.containsSeq diff.commandLine sessionMarker).flatMap
        fun diff => diff.lines.map (passed roots) := by
  induction diffs generalizing skip with
  | nil => rfl
  | cons diff diffs ih =>
      have hrest : ∀ line ∈ (diff.rest.map DiffLine.line).map (passed roots),
          Text.startsWith line "diff " = false := by
        intro line hline
        obtain ⟨_, hinner, rfl⟩ := List.mem_map.mp hline
        obtain ⟨inner, hmem, rfl⟩ := List.mem_map.mp hinner
        rw [startsWith_diff_passed]
        exact (diff.rest_within inner hmem).2
      rw [List.flatMap_cons, FileDiff.lines, List.map_cons, List.cons_append, filterLines,
        startsWith_diff_passed, startsWith_commandLine, containsSeq_passed_commandLine]
      simp only [if_true]
      rw [filterLines_within hrest, ih, List.filter_cons]
      cases Text.containsSeq diff.commandLine sessionMarker with
      | true => rfl
      | false => simp [FileDiff.lines]

theorem patchText_eq (roots : DiffRoots) (diffs : List FileDiff) :
    filterSessionMarker (rewriteDiffPaths (diffText diffs) roots) =
      Text.unlines ((diffs.filter fun diff =>
        !Text.containsSeq diff.commandLine sessionMarker).flatMap
          fun diff => diff.lines.map (passed roots)) := by
  have hlines : ∀ line ∈ diffs.flatMap FileDiff.lines, OneLine line := by
    intro line hline
    obtain ⟨diff, -, hline⟩ := List.mem_flatMap.mp hline
    exact diff.oneLine_lines line hline
  have hrewritten : ∀ line ∈ ((diffs.flatMap FileDiff.lines).map stripReturn).map
      (rewriteLine roots), OneLine line := by
    intro line hline
    obtain ⟨_, hinner, rfl⟩ := List.mem_map.mp hline
    obtain ⟨inner, hmem, rfl⟩ := List.mem_map.mp hinner
    exact oneLine_rewriteLine roots (hlines inner hmem).stripReturn
  have hpassed : (((diffs.flatMap FileDiff.lines).map stripReturn).map (rewriteLine roots)).map
      stripReturn = diffs.flatMap fun diff => diff.lines.map (passed roots) := by
    have hcomp : ∀ line, stripReturn (rewriteLine roots (stripReturn line)) = passed roots line :=
      fun line => rfl
    simp only [List.map_map, List.map_flatMap, Function.comp_def, hcomp]
  have hfirst : rewriteDiffPaths (diffText diffs) roots =
      Text.unlines (((diffs.flatMap FileDiff.lines).map stripReturn).map (rewriteLine roots)) := by
    unfold rewriteDiffPaths diffText
    rw [Text.lines_unlines hlines]
  unfold filterSessionMarker
  rw [hfirst, Text.lines_unlines hrewritten, hpassed, filterLines_diffs]

theorem passed_lines_iff (diff : FileDiff) :
    diff.lines.map (passed roots) = diff.rebased roots ↔
      Text.endsWith diff.command "\r" = false ∧ ∀ line ∈ diff.rest, line.Safe roots := by
  rw [FileDiff.lines, FileDiff.rebased, List.map_cons, List.cons.injEq, passed_commandLine_iff,
    List.map_map, List.map_inj_left]
  simp only [Function.comp_apply, passed_iff]

theorem oneLine_passed (roots : DiffRoots) {line : String} (h : OneLine line) :
    OneLine (passed roots line) :=
  (oneLine_rewriteLine roots h.stripReturn).stripReturn

theorem block_passed (roots : DiffRoots) (diff : FileDiff) :
    HeadedBlocks.Block (Text.startsWith · "diff ") (diff.lines.map (passed roots)) := by
  refine ⟨_, _, rfl, ?_, fun line hline => ?_⟩
  · exact (startsWith_diff_passed roots _).trans (startsWith_commandLine diff)
  · obtain ⟨_, hinner, rfl⟩ := List.mem_map.mp hline
    obtain ⟨inner, hmem, rfl⟩ := List.mem_map.mp hinner
    exact (startsWith_diff_passed roots _).trans (diff.rest_within inner hmem).2

theorem block_rebased (roots : DiffRoots) (diff : FileDiff) :
    HeadedBlocks.Block (Text.startsWith · "diff ") (diff.rebased roots) := by
  refine ⟨_, _, rfl, startsWith_commandLine diff, fun line hline => ?_⟩
  obtain ⟨inner, hmem, rfl⟩ := List.mem_map.mp hline
  exact (startsWith_diff_rebased roots inner).trans (diff.rest_within inner hmem).2

theorem oneLine_rebased_lines (roots : DiffRoots) (diff : FileDiff) :
    ∀ line ∈ diff.rebased roots, OneLine line := by
  intro line hline
  cases List.mem_cons.mp hline with
  | inl hcommand =>
      rw [hcommand]
      exact diff.oneLine_lines _ List.mem_cons_self
  | inr hrest =>
      obtain ⟨inner, hinner, rfl⟩ := List.mem_map.mp hrest
      exact oneLine_rebasedLine (diff.rest_within inner hinner).1

theorem exists_left_of_forall₂ {α β : Type} {R : α → β → Prop} {as : List α} {bs : List β}
    (h : List.Forall₂ R as bs) : ∀ b ∈ bs, ∃ a ∈ as, R a b := by
  induction h with
  | nil => exact fun b hb => absurd hb List.not_mem_nil
  | cons hab hrest ih =>
      intro b hb
      cases List.mem_cons.mp hb with
      | inl heq => exact ⟨_, List.mem_cons_self, heq ▸ hab⟩
      | inr hmem =>
          obtain ⟨a, ha, hrel⟩ := ih b hmem
          exact ⟨a, List.mem_cons_of_mem _ ha, hrel⟩

/-- The passes keep the right sections, and each as it should be, just when these are safe. -/
theorem sections_eq_iff (roots : DiffRoots) (diffs : List FileDiff) :
    ((diffs.filter fun diff => !Text.containsSeq diff.commandLine sessionMarker).flatMap
        fun diff => diff.lines.map (passed roots)) =
      (diffs.filter (·.file ≠ sessionMarker)).flatMap (FileDiff.rebased roots) ↔
    PatchSafe roots diffs := by
  constructor
  · intro h
    have hblocks := HeadedBlocks.forall₂_of_flatMap_eq (fun diff _ => block_passed roots diff)
      (fun diff _ => block_rebased roots diff) h
    have hunmarked : ∀ diff ∈ diffs, decide (diff.file ≠ sessionMarker) =
        (decide (diff.file ≠ sessionMarker) &&
          !Text.containsSeq diff.commandLine sessionMarker) := by
      intro diff hdiff
      cases hfile : decide (diff.file ≠ sessionMarker) with
      | false => rfl
      | true =>
          obtain ⟨other, hother, heq⟩ :=
            exists_left_of_forall₂ hblocks diff (List.mem_filter.mpr ⟨hdiff, hfile⟩)
          have hcommand : passed roots other.commandLine = diff.commandLine := (List.cons.inj heq).1
          rw [← hcommand, containsSeq_passed_commandLine]
          exact (List.mem_filter.mp hother).2.symm
    have hfilter : (diffs.filter fun diff => decide (diff.file ≠ sessionMarker)) =
        (diffs.filter fun diff => !Text.containsSeq diff.commandLine sessionMarker).filter
          fun diff => decide (diff.file ≠ sessionMarker) := by
      rw [List.filter_filter]
      exact List.filter_congr hunmarked
    have hlength := hblocks.length_eq
    rw [hfilter] at hlength
    have hfiles := List.length_filter_eq_length_iff.mp hlength.symm
    rw [hfilter, List.filter_eq_self.mpr hfiles] at hblocks
    have hkept := List.forall₂_same.mp hblocks
    have hcontains : ∀ diff ∈ diffs, diff.file ≠ sessionMarker →
        Text.containsSeq diff.commandLine sessionMarker = false := by
      intro diff hdiff hfile
      have hboth := hunmarked diff hdiff
      rw [decide_eq_true hfile, Bool.true_and] at hboth
      simpa using hboth.symm
    have hsafe : ∀ diff ∈ diffs, diff.file ≠ sessionMarker →
        Text.endsWith diff.command "\r" = false ∧ ∀ line ∈ diff.rest, line.Safe roots :=
      fun diff hdiff hfile => (passed_lines_iff diff).mp
        (hkept diff (List.mem_filter.mpr ⟨hdiff, by simp [hcontains diff hdiff hfile]⟩))
    refine ⟨fun diff hdiff => ⟨fun hcommand => ?_, fun hfile => ?_⟩,
      fun diff hdiff hfile => (hsafe diff hdiff hfile).1,
      fun diff hdiff hfile => (hsafe diff hdiff hfile).2⟩
    · by_contra hfile
      rw [hcontains diff hdiff hfile] at hcommand
      cases hcommand
    · by_contra hcommand
      have hmem : diff ∈ diffs.filter fun diff =>
          !Text.containsSeq diff.commandLine sessionMarker :=
        List.mem_filter.mpr ⟨hdiff, by simpa using hcommand⟩
      exact of_decide_eq_true (hfiles diff hmem) hfile
  · intro h
    have hfilter : (diffs.filter fun diff => !Text.containsSeq diff.commandLine sessionMarker) =
        diffs.filter (·.file ≠ sessionMarker) := by
      refine List.filter_congr fun diff hdiff => ?_
      rw [Bool.eq_iff_iff, Bool.not_eq_true', decide_eq_true_eq, ← Bool.not_eq_true]
      exact (h.marker diff hdiff).not
    rw [hfilter]
    refine List.flatMap_congr fun diff hdiff => ?_
    obtain ⟨hmem, hfile⟩ := List.mem_filter.mp hdiff
    exact (passed_lines_iff diff).mpr ⟨h.command diff hmem (of_decide_eq_true hfile),
      h.lines diff hmem (of_decide_eq_true hfile)⟩

/-- The patch is the diff without the marker's section and with its headers rebased just
when the diff is safe. -/
theorem patch_keeps_diff_iff (roots : DiffRoots) (diffs : List FileDiff) :
    filterSessionMarker (rewriteDiffPaths (diffText diffs) roots) = rebasedText roots diffs ↔
      PatchSafe roots diffs := by
  rw [patchText_eq, ← sections_eq_iff]
  constructor
  · refine Text.unlines_injective (fun line hline => ?_) fun line hline => ?_
    · obtain ⟨diff, -, hline⟩ := List.mem_flatMap.mp hline
      obtain ⟨inner, hinner, rfl⟩ := List.mem_map.mp hline
      exact oneLine_passed roots (diff.oneLine_lines inner hinner)
    · obtain ⟨diff, -, hline⟩ := List.mem_flatMap.mp hline
      exact oneLine_rebased_lines roots diff line hline
  · intro h
    rw [h]
    rfl

end Sections

section Example

def exampleRoots : DiffRoots := ⟨"/store/pkg", "/edit", by decide, by decide⟩

/-- A change of one line of a file. -/
def oneLineDiff (file old new : String) (hold : Text.OneLine old) (hnew : Text.OneLine new)
    (hfile : ∀ c ∈ file.toList, c ≠ '\t' ∧ c ≠ '\n' ∧ c ≠ '\r') : FileDiff where
  file := file
  command := "-ruN /store/pkg/" ++ file ++ " /edit/" ++ file
  notes := []
  body := some
    { old := ⟨"/store/pkg/" ++ file, none, by simpa using hfile, by simp⟩
      new := ⟨"/edit/" ++ file, none, by simpa using hfile, by simp⟩
      hunks := [⟨"-1 +1 @@", [⟨.removed, old, hold⟩, ⟨.added, new, hnew⟩], by decide⟩] }
  command_oneLine := by
    have hplain : Text.OneLine file := fun hmem => (hfile '\n' hmem).2.1 rfl
    exact oneLine_append (oneLine_append (oneLine_append (by decide) hplain) (by decide)) hplain
  notes_plain := by simp

def windowsDiff : FileDiff :=
  oneLineDiff "a.js" "x\r" "y\r" (by decide) (by decide) (by simp)

def commentDiff : FileDiff :=
  oneLineDiff "a.sql" "-- /store/pkg/b" "x" (by decide) (by decide) (by simp)

/-- A carriage return is lost, and a removed comment is taken for a header. -/
theorem carriage_return_and_comment_damaged :
    filterSessionMarker (rewriteDiffPaths (diffText [windowsDiff]) exampleRoots) =
        "diff -ruN /store/pkg/a.js /edit/a.js\n--- a/a.js\n+++ b/a.js\n@@ -1 +1 @@\n-x\n+y\n" ∧
      rebasedText exampleRoots [windowsDiff] =
        "diff -ruN /store/pkg/a.js /edit/a.js\n--- a/a.js\n+++ b/a.js\n@@ -1 +1 @@\n-x\r\n+y\r\n" ∧
      filterSessionMarker (rewriteDiffPaths (diffText [commentDiff]) exampleRoots) =
        "diff -ruN /store/pkg/a.sql /edit/a.sql\n--- a/a.sql\n+++ b/a.sql\n@@ -1 +1 @@\n--- a/b\n+x\n" ∧
      rebasedText exampleRoots [commentDiff] =
        "diff -ruN /store/pkg/a.sql /edit/a.sql\n--- a/a.sql\n+++ b/a.sql\n@@ -1 +1 @@\n--- /store/pkg/b\n+x\n" := by
  refine ⟨?_, ?_, ?_, ?_⟩
  · decide +kernel
  · decide +kernel
  · decide +kernel
  · decide +kernel

end Example

end Snpm.Patch
