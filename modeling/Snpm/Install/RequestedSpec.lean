import Mathlib
import Snpm.Resolve.Alias
import Snpm.Install.ProjectPlan

/-!
What a package argument `name@spec` is read as. Aliases are looked for first;
any other colon is taken for the end of a protocol, and the last at sign for the
start of the range.
-/
namespace Snpm.Install

open Store (ValidName isUrlSafe not_mem_of_safe)
open Resolve (IsScoped scoped_parts unscoped_safe validName_ne_empty validName_not_mem)

section Marker

variable {n s : String}

/-- The text of an argument. -/
def requestText (n s : String) : String := n ++ String.singleton '@' ++ s

/-- An alias marker: an at sign and a scheme. -/
structure IsMarker (marker scheme : String) : Prop where
  text : marker = "@" ++ scheme
  colon : ':' ∈ scheme.toList
  slash : '/' ∉ scheme.toList

theorem isMarker_npm : IsMarker "@npm:" "npm:" := ⟨by decide, by decide, by decide⟩

theorem isMarker_jsr : IsMarker "@jsr:" "jsr:" := ⟨by decide, by decide, by decide⟩

theorem colon_not_mem (h : ValidName n.toList) : ':' ∉ n.toList :=
  validName_not_mem h (by decide) (by decide) (by decide)

/-- No marker starts in a name. -/
theorem marker_not_start {marker scheme : String} (hmarker : IsMarker marker scheme)
    (h : ValidName n.toList) {front back : List Char} (hsplit : n.toList = front ++ back)
    (hne : back ≠ []) (rest : List Char) : ¬ marker.toList <+: back ++ rest := by
  intro hbegin
  have hlist : marker.toList = '@' :: scheme.toList := by
    rw [hmarker.text]
    simp
  cases back with
  | nil => exact hne rfl
  | cons c back =>
      rw [hlist, List.cons_append, List.cons_prefix_cons] at hbegin
      obtain ⟨hat, hbegin⟩ := hbegin
      have hmem : '@' ∈ n.toList := by
        rw [hsplit, ← hat]
        exact List.mem_append_right front List.mem_cons_self
      have hscoped : IsScoped n := by
        by_contra hnot
        exact not_mem_of_safe (unscoped_safe h hnot) (by decide) hmem
      obtain ⟨scope, base, hn, hscope, hbase⟩ := scoped_parts h hscoped
      -- The only at sign of the name is its first character.
      have hfront : front = [] := by
        cases front with
        | nil => rfl
        | cons d front =>
            rw [hn, List.cons_append, List.cons.injEq] at hsplit
            have hinside : '@' ∈ scope ++ '/' :: base := by
              rw [hsplit.2, ← hat]
              exact List.mem_append_right front List.mem_cons_self
            rcases List.mem_append.mp hinside with hmem | hmem
            · exact absurd hmem (not_mem_of_safe hscope (by decide))
            · cases List.mem_cons.mp hmem with
              | inl heq => exact absurd heq (by decide)
              | inr hmem => exact absurd hmem (not_mem_of_safe hbase (by decide))
      rw [hfront, List.nil_append, hn, List.cons.injEq] at hsplit
      rw [← hsplit.2, List.append_assoc, List.cons_append] at hbegin
      -- The scheme ends before the slash, so the colon is in the scope.
      cases List.prefix_or_prefix_of_prefix hbegin (List.prefix_append scope _) with
      | inl hinscope =>
          exact not_mem_of_safe hscope (by decide) (hinscope.subset hmarker.colon)
      | inr hscopein =>
          obtain ⟨tail, htail⟩ := hscopein
          cases tail with
          | nil =>
              have hcolon := hmarker.colon
              rw [List.append_nil] at htail
              rw [← htail] at hcolon
              exact not_mem_of_safe hscope (by decide) hcolon
          | cons d tail =>
              rw [← htail, List.prefix_append_right_inj, List.cons_prefix_cons] at hbegin
              apply hmarker.slash
              rw [← htail, hbegin.1]
              exact List.mem_append_right scope List.mem_cons_self

variable {marker scheme : String}

theorem requestText_scheme (hmarker : IsMarker marker scheme) (rest : String) :
    requestText n (scheme ++ rest) = n ++ marker ++ rest := by
  rw [requestText, hmarker.text, ← String.append_assoc, ← String.append_assoc]
  rfl

theorem splitAliasAt_scheme (hmarker : IsMarker marker scheme) (h : ValidName n.toList)
    (rest : String) :
    splitAliasAt (requestText n (scheme ++ rest)) marker = some (n, scheme ++ rest) := by
  have hne : marker ≠ "" := by
    rw [hmarker.text]
    simp
  have hfirst : Text.IsFirst marker.toList n.toList rest.toList :=
    fun front back hsplit hback => marker_not_start hmarker h hsplit hback _
  have hdrop : (requestText n (scheme ++ rest)).toList.drop (n.toList.length + 1) =
      (scheme ++ rest).toList := by
    have hlist : (requestText n (scheme ++ rest)).toList =
        (n.toList ++ ['@']) ++ (scheme ++ rest).toList := by
      simp [requestText]
    rw [hlist, List.drop_left' (by simp)]
  have hsplit : Text.splitSeq (requestText n (scheme ++ rest)) marker =
      n :: Text.splitSeq rest marker := by
    rw [requestText_scheme hmarker, Text.splitSeq_first hne hfirst]
  unfold splitAliasAt
  rw [hsplit]
  cases hparts : Text.splitSeq rest marker with
  | nil => exact absurd hparts (Text.splitSeq_ne_nil hne rest)
  | cons part parts =>
      dsimp only
      rw [if_neg (validName_ne_empty h), hdrop, String.ofList_toList]

theorem splitAliasAt_some {spec name range : String} (hmarker : IsMarker marker scheme)
    (h : splitAliasAt spec marker = some (name, range)) : ∃ rest, spec = name ++ marker ++ rest := by
  have hne : marker ≠ "" := by
    rw [hmarker.text]
    simp
  by_cases hsub : marker.toList <:+: spec.toList
  · obtain ⟨before, after, heq, hfirst⟩ := Text.exists_first hsub
    have hspec : spec = String.ofList before ++ marker ++ String.ofList after := by
      rw [← String.toList_inj, heq]
      simp
    have hsplit : Text.splitSeq (String.ofList before ++ marker ++ String.ofList after) marker =
        String.ofList before :: Text.splitSeq (String.ofList after) marker :=
      Text.splitSeq_first hne (by simpa using hfirst)
    rw [← hspec] at hsplit
    unfold splitAliasAt at h
    rw [hsplit] at h
    cases hparts : Text.splitSeq (String.ofList after) marker with
    | nil => exact absurd hparts (Text.splitSeq_ne_nil hne _)
    | cons part parts =>
        rw [hparts] at h
        dsimp only at h
        split at h
        · cases h
        · cases h
          exact ⟨_, hspec⟩
  · unfold splitAliasAt at h
    rw [Text.splitSeq_eq_singleton hsub] at h
    cases h

theorem splitAliasAt_isSome {spec : String} (hmarker : IsMarker marker scheme)
    (hsub : marker.toList <:+: spec.toList) (hhead : ¬ marker.toList <+: spec.toList) :
    ∃ name range, splitAliasAt spec marker = some (name, range) := by
  have hne : marker ≠ "" := by
    rw [hmarker.text]
    simp
  obtain ⟨before, after, heq, hfirst⟩ := Text.exists_first hsub
  have hspec : spec = String.ofList before ++ marker ++ String.ofList after := by
    rw [← String.toList_inj, heq]
    simp
  have hsplit : Text.splitSeq (String.ofList before ++ marker ++ String.ofList after) marker =
      String.ofList before :: Text.splitSeq (String.ofList after) marker :=
    Text.splitSeq_first hne (by simpa using hfirst)
  have hbefore : String.ofList before ≠ "" := by
    intro hempty
    have hnil : before = [] := by simpa using congrArg String.toList hempty
    rw [heq, hnil, List.nil_append] at hhead
    exact hhead (List.prefix_append _ _)
  rw [← hspec] at hsplit
  unfold splitAliasAt
  rw [hsplit]
  cases hparts : Text.splitSeq (String.ofList after) marker with
  | nil => exact absurd hparts (Text.splitSeq_ne_nil hne _)
  | cons part parts =>
      dsimp only
      rw [if_neg hbefore]
      exact ⟨_, _, rfl⟩

theorem splitAliasAt_none {spec : String} (h : ¬ marker.toList <:+: spec.toList) :
    splitAliasAt spec marker = none := by
  unfold splitAliasAt
  rw [Text.splitSeq_eq_singleton h]

/-- A marker in an argument starts at the at sign behind the name, or in the spec. -/
theorem marker_infix (hmarker : IsMarker marker scheme) (h : ValidName n.toList)
    (hsub : marker.toList <:+: (requestText n s).toList) :
    (∃ rest, s = scheme ++ rest) ∨ marker.toList <:+: s.toList := by
  have hlist : (requestText n s).toList = n.toList ++ '@' :: s.toList := by simp [requestText]
  have hmarkerList : marker.toList = '@' :: scheme.toList := by
    rw [hmarker.text]
    simp
  obtain ⟨before, after, heq⟩ := hsub
  rw [hlist, List.append_assoc] at heq
  cases List.append_eq_append_iff.mp heq with
  | inl hinside =>
      obtain ⟨back, hn, hback⟩ := hinside
      cases back with
      | nil =>
          rw [hmarkerList, List.nil_append, List.cons_append, List.cons.injEq] at hback
          left
          refine ⟨String.ofList after, ?_⟩
          rw [← String.toList_inj, ← hback.2]
          simp
      | cons c back =>
          have hbegin : marker.toList <+: (c :: back) ++ '@' :: s.toList := ⟨after, hback⟩
          exact absurd hbegin (marker_not_start hmarker h hn (List.cons_ne_nil c back) _)
  | inr hbehind =>
      obtain ⟨middle, _, hmiddle⟩ := hbehind
      cases middle with
      | nil =>
          rw [hmarkerList, List.nil_append, List.cons_append, List.cons.injEq] at hmiddle
          left
          refine ⟨String.ofList after, ?_⟩
          rw [← String.toList_inj, hmiddle.2]
          simp
      | cons c middle =>
          rw [List.cons_append, List.cons.injEq] at hmiddle
          right
          exact ⟨middle, after, by rw [hmiddle.2, List.append_assoc]⟩

end Marker

section Request

variable {n s : String}

/-- A spec that is read whole: an alias, or a text without colon and at sign. -/
def ReadWhole (s : String) : Prop :=
  (∃ rest, s = "npm:" ++ rest) ∨
    ((∃ rest, s = "jsr:" ++ rest) ∧ ¬ "@npm:".toList <:+: s.toList) ∨
    (':' ∉ s.toList ∧ '@' ∉ s.toList)

/-- The argument gives the name and the spec back. -/
def ReadsBack (n s : String) : Prop :=
  (parseRequestedSpec (requestText n s)).name = n ∧
    (parseRequestedSpec (requestText n s)).range = s

theorem requestText_inj {rest : String} {marker scheme : String} (hmarker : IsMarker marker scheme)
    (h : requestText n s = n ++ marker ++ rest) : s = scheme ++ rest := by
  have hlist := congrArg String.toList h
  rw [hmarker.text] at hlist
  simp only [requestText, String.toList_append, List.append_assoc, List.append_cancel_left_eq]
    at hlist
  have hrest : ['@'] ++ s.toList = ['@'] ++ (scheme.toList ++ rest.toList) := hlist
  rw [← String.toList_inj, String.toList_append]
  exact List.append_cancel_left hrest

theorem splitAliasSpec_some {spec name range : String}
    (h : splitAliasSpec spec = some (name, range)) :
    (∃ rest, spec = name ++ "@npm:" ++ rest) ∨ ∃ rest, spec = name ++ "@jsr:" ++ rest := by
  unfold splitAliasSpec at h
  cases hnpm : splitAliasAt spec "@npm:" with
  | some parts =>
      rw [hnpm, Option.some_or] at h
      cases h
      exact .inl (splitAliasAt_some isMarker_npm hnpm)
  | none =>
      rw [hnpm, Option.none_or] at h
      exact .inr (splitAliasAt_some isMarker_jsr h)

/-- The range that is split off has no at sign. -/
theorem splitPackageSpec_range (spec : String) :
    (splitPackageSpec spec).2 = "latest" ∨ '@' ∉ (splitPackageSpec spec).2.toList := by
  unfold splitPackageSpec
  cases Text.stripPrefix spec "@" with
  | some withoutAt =>
      dsimp only
      cases hsplit : Text.rsplitOnce withoutAt (· = '@') with
      | none => exact .inl rfl
      | some parts =>
          obtain ⟨before, after⟩ := parts
          exact .inr (Text.rsplitOnce_eq_some hsplit).2
  | none =>
      dsimp only
      cases hsplit : Text.rsplitOnce spec (· = '@') with
      | none => exact .inl rfl
      | some parts =>
          obtain ⟨before, after⟩ := parts
          exact .inr (Text.rsplitOnce_eq_some hsplit).2

/-- The range that is split off is a part of the text. -/
theorem splitPackageSpec_length (spec : String) :
    (splitPackageSpec spec).2 = "latest" ∨ (splitPackageSpec spec).2.length ≤ spec.length := by
  unfold splitPackageSpec
  cases hstrip : Text.stripPrefix spec "@" with
  | some withoutAt =>
      have hspec := Text.stripPrefix_eq_some hstrip
      dsimp only
      cases hsplit : Text.rsplitOnce withoutAt (· = '@') with
      | none => exact .inl rfl
      | some parts =>
          obtain ⟨before, after⟩ := parts
          right
          have hparts := (Text.rsplitOnce_eq_some hsplit).1
          rw [hspec, hparts]
          simp only [String.length_append]
          omega
  | none =>
      dsimp only
      cases hsplit : Text.rsplitOnce spec (· = '@') with
      | none => exact .inl rfl
      | some parts =>
          obtain ⟨before, after⟩ := parts
          right
          have hparts := (Text.rsplitOnce_eq_some hsplit).1
          rw [hparts, Option.getD_some]
          simp only [String.length_append]
          omega

/-- A text without colon behind the name is split at the last at sign. -/
theorem splitPackageSpec_request (h : ValidName n.toList) (hat : '@' ∉ s.toList) :
    splitPackageSpec (requestText n s) = (n, s) := by
  unfold splitPackageSpec
  by_cases hscoped : IsScoped n
  · obtain ⟨scope, base, hn, _, _⟩ := scoped_parts h hscoped
    have hname : n = "@" ++ String.ofList (scope ++ '/' :: base) := by
      rw [← String.toList_inj, hn]
      simp
    have htext : requestText n s =
        "@" ++ (String.ofList (scope ++ '/' :: base) ++ String.singleton '@' ++ s) := by
      rw [requestText, hname]
      simp only [String.append_assoc]
    rw [htext, Text.stripPrefix_append]
    dsimp only
    rw [Text.rsplitOnce_append _ _ _ hat, hname]
  · have hfree : '@' ∉ n.toList := not_mem_of_safe (unscoped_safe h hscoped) (by decide)
    have hhead : (requestText n s).toList.head? ≠ "@".toList.head? := by
      cases hcs : n.toList with
      | nil => exact absurd (String.toList_inj.mp hcs) (validName_ne_empty h)
      | cons c cs =>
          intro heq
          have hc : c = '@' := by simpa [requestText, hcs] using heq
          rw [hcs, hc] at hfree
          exact hfree List.mem_cons_self
    rw [Text.stripPrefix_eq_none hhead (by decide)]
    dsimp only
    rw [requestText, Text.rsplitOnce_append _ _ _ hat, Option.getD_some]

/-- An alias that is found behind the name gives the whole spec. -/
theorem readsBack_of_alias (h : splitAliasSpec (requestText n s) = some (n, s)) : ReadsBack n s := by
  unfold ReadsBack parseRequestedSpec
  rw [h]
  exact ⟨rfl, rfl⟩

/-- An alias that is found inside the spec gives another name. -/
theorem spec_of_alias {range : String} (h : splitAliasSpec (requestText n s) = some (n, range)) :
    (∃ rest, s = "npm:" ++ rest) ∨ ∃ rest, s = "jsr:" ++ rest := by
  cases splitAliasSpec_some h with
  | inl hnpm =>
      obtain ⟨rest, hrest⟩ := hnpm
      exact .inl ⟨rest, requestText_inj isMarker_npm hrest⟩
  | inr hjsr =>
      obtain ⟨rest, hrest⟩ := hjsr
      exact .inr ⟨rest, requestText_inj isMarker_jsr hrest⟩

/-- The text before a colon is taken for a protocol, so the range is too short. -/
theorem not_readsBack_of_colon (h : ValidName n.toList)
    (hnone : splitAliasSpec (requestText n s) = none) (hcolon : ':' ∈ s.toList) :
    ¬ ReadsBack n s := by
  intro hreads
  cases hsplit : Text.splitOnce s (· = ':') with
  | none => exact Text.splitOnce_eq_none_iff.mp hsplit hcolon
  | some parts =>
      obtain ⟨before, after⟩ := parts
      obtain ⟨hs, hfree⟩ := Text.splitOnce_eq_some hsplit
      have htext : requestText n s = requestText n before ++ String.singleton ':' ++ after := by
        rw [hs]
        simp only [requestText, String.append_assoc]
      have hfront : ':' ∉ (requestText n before).toList := by
        simp [requestText, colon_not_mem h, hfree]
      have hne : requestText n before ≠ "" := by
        intro hempty
        have hmem : '@' ∈ (requestText n before).toList := by simp [requestText]
        rw [hempty] at hmem
        cases hmem
      have hrange : (splitPackageSpec after).2 = s := by
        have hrange := hreads.2
        unfold parseRequestedSpec at hrange
        rw [hnone] at hrange
        unfold splitProtocolPrefix at hrange
        rw [htext, Text.splitOnce_append _ _ hfront] at hrange
        dsimp only at hrange
        rw [if_neg hne] at hrange
        exact hrange
      cases splitPackageSpec_length after with
      | inl hlatest =>
          rw [hlatest] at hrange
          rw [← hrange] at hcolon
          exact absurd hcolon (by decide)
      | inr hlength =>
          rw [hrange, hs] at hlength
          simp only [String.length_append, String.length_singleton] at hlength
          omega

theorem readsBack_iff_of_plain (h : ValidName n.toList)
    (hnone : splitAliasSpec (requestText n s) = none) (hcolon : ':' ∉ s.toList) :
    ReadsBack n s ↔ '@' ∉ s.toList := by
  have hfree : ':' ∉ (requestText n s).toList := by
    simp [requestText, colon_not_mem h, hcolon]
  have hparse : parseRequestedSpec (requestText n s) =
      ⟨(splitPackageSpec (requestText n s)).1, (splitPackageSpec (requestText n s)).2, none⟩ := by
    unfold parseRequestedSpec
    rw [hnone]
    unfold splitProtocolPrefix
    rw [Text.splitOnce_eq_none_iff.mpr hfree]
  unfold ReadsBack
  rw [hparse]
  constructor
  · intro hreads hat
    have hrange : (splitPackageSpec (requestText n s)).2 = s := hreads.2
    cases splitPackageSpec_range (requestText n s) with
    | inl hlatest =>
        rw [hlatest] at hrange
        rw [← hrange] at hat
        exact absurd hat (by decide)
    | inr hfreeRange =>
        rw [hrange] at hfreeRange
        exact hfreeRange hat
  · intro hat
    rw [splitPackageSpec_request h hat]
    exact ⟨rfl, rfl⟩

theorem colon_of_marker {marker scheme : String} (hmarker : IsMarker marker scheme)
    (h : ValidName n.toList) (hsub : marker.toList <:+: (requestText n s).toList) :
    ':' ∈ s.toList := by
  cases marker_infix hmarker h hsub with
  | inl hstarts =>
      obtain ⟨rest, hrest⟩ := hstarts
      rw [hrest, String.toList_append]
      exact List.mem_append_left _ hmarker.colon
  | inr hinside =>
      apply hinside.subset
      rw [hmarker.text, String.toList_append]
      exact List.mem_append_right _ hmarker.colon

theorem jsr_ne_npm {rest other : String} (h : "jsr:" ++ rest = "npm:" ++ other) : False := by
  have hhead := congrArg (fun s : String => s.toList.head?) h
  simp at hhead

/-- A marker inside the spec is found before the other scheme is looked at. -/
theorem npm_of_infix {range : String} (h : ValidName n.toList)
    (halias : splitAliasSpec (requestText n s) = some (n, range))
    (hsub : "@npm:".toList <:+: s.toList) : ∃ rest, s = "npm:" ++ rest := by
  have hne : n.toList ≠ [] := fun hnil => validName_ne_empty h (String.toList_inj.mp hnil)
  have hlist : (requestText n s).toList = n.toList ++ '@' :: s.toList := by simp [requestText]
  have hhead : ¬ "@npm:".toList <+: (requestText n s).toList := by
    rw [hlist]
    exact marker_not_start isMarker_npm h (List.nil_append n.toList).symm hne _
  have hwhole : "@npm:".toList <:+: (requestText n s).toList := by
    rw [hlist]
    exact hsub.trans ⟨n.toList ++ ['@'], [], by simp⟩
  obtain ⟨name, other, hnpm⟩ := splitAliasAt_isSome isMarker_npm hwhole hhead
  have hname : name = n := by
    unfold splitAliasSpec at halias
    rw [hnpm, Option.some_or, Option.some.injEq, Prod.mk.injEq] at halias
    exact halias.1
  obtain ⟨rest, hrest⟩ := splitAliasAt_some isMarker_npm hnpm
  rw [hname] at hrest
  exact ⟨rest, requestText_inj isMarker_npm hrest⟩

/-- A package argument gives its name and its spec back exactly if the spec is an
alias of the registry, or holds neither colon nor at sign. -/
theorem request_read_iff (h : ValidName n.toList) (s : String) : ReadsBack n s ↔ ReadWhole s := by
  constructor
  · intro hreads
    cases halias : splitAliasSpec (requestText n s) with
    | none =>
        by_cases hcolon : ':' ∈ s.toList
        · exact absurd hreads (not_readsBack_of_colon h halias hcolon)
        · exact .inr (.inr ⟨hcolon, (readsBack_iff_of_plain h halias hcolon).mp hreads⟩)
    | some parts =>
        obtain ⟨name, range⟩ := parts
        have hname : name = n := by
          have hname := hreads.1
          unfold parseRequestedSpec at hname
          rw [halias] at hname
          exact hname
        rw [hname] at halias
        cases spec_of_alias halias with
        | inl hnpm => exact .inl hnpm
        | inr hjsr =>
            by_cases hsub : "@npm:".toList <:+: s.toList
            · obtain ⟨rest, hrest⟩ := hjsr
              obtain ⟨other, hother⟩ := npm_of_infix h halias hsub
              exact (jsr_ne_npm (hrest.symm.trans hother)).elim
            · exact .inr (.inl ⟨hjsr, hsub⟩)
  · intro hwhole
    rcases hwhole with hnpm | ⟨hjsr, hsub⟩ | ⟨hcolon, hat⟩
    · obtain ⟨rest, hrest⟩ := hnpm
      apply readsBack_of_alias
      unfold splitAliasSpec
      rw [hrest, splitAliasAt_scheme isMarker_npm h, Option.some_or]
    · obtain ⟨rest, hrest⟩ := hjsr
      have hnone : splitAliasAt (requestText n s) "@npm:" = none := by
        apply splitAliasAt_none
        intro hmarker
        cases marker_infix isMarker_npm h hmarker with
        | inl hstarts =>
            obtain ⟨other, hother⟩ := hstarts
            exact jsr_ne_npm (hrest.symm.trans hother)
        | inr hinside => exact hsub hinside
      apply readsBack_of_alias
      unfold splitAliasSpec
      rw [hnone, Option.none_or, hrest, splitAliasAt_scheme isMarker_jsr h]
    · have hnone : splitAliasSpec (requestText n s) = none := by
        unfold splitAliasSpec
        rw [splitAliasAt_none fun hmarker => hcolon (colon_of_marker isMarker_npm h hmarker),
          splitAliasAt_none fun hmarker => hcolon (colon_of_marker isMarker_jsr h hmarker),
          Option.none_or]
      exact (readsBack_iff_of_plain h hnone hcolon).mpr hat

theorem scoped_range_read : ReadsBack "@types/node" "^18.0.0" := by
  have hname : ValidName "@types/node".toList :=
    @ValidName.inScope "types".toList "node".toList ⟨by decide, by decide⟩
      (List.all_eq_true.mp (by decide)) (List.all_eq_true.mp (by decide))
  exact (request_read_iff hname "^18.0.0").mpr (.inr (.inr ⟨by decide, by decide⟩))

/-- The protocol of a workspace spec takes the name along. -/
theorem workspace_request_misread :
    ∃ n : String, ValidName n.toList ∧ parseRequestedSpec (requestText n "workspace:*") =
      ⟨"*", "latest", some "foo@workspace"⟩ ∧ ¬ ReadsBack n "workspace:*" := by
  have hparse : parseRequestedSpec (requestText "foo" "workspace:*") =
      ⟨"*", "latest", some "foo@workspace"⟩ := by decide +kernel
  refine ⟨"foo", .bare (by decide) (List.all_eq_true.mp (by decide)) (by decide), hparse, ?_⟩
  intro hreads
  have hrange := hreads.2
  rw [hparse] at hrange
  exact absurd hrange (by decide)

end Request

end Snpm.Install
