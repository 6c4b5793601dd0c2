import Mathlib
import Snpm.Config.Rc
import Snpm.Library.SeqParts

/-!
What the expansion of an rc text is meant to give: its literal characters as they
are, and for each reference the variable's value or the default. The expander
pushes bytes as characters, so it gives that for ASCII literals only.
-/
namespace Snpm.Config

section Segments

/-- A piece of an rc text. -/
inductive Segment where
  | literal (c : Char)
  | reference (name : String) (fallback : Option String)

/-- A variable that is empty is as good as unset. -/
def referenceText (env : Env) (name : String) (fallback : Option String) : List Char :=
  (((env name).filter (· ≠ "")).getD (fallback.getD "")).toList

def Segment.text (env : Env) : Segment → List Char
  | .literal c => [c]
  | .reference name fallback => referenceText env name fallback

def isNameChar (c : Char) : Bool := c = '_' || Text.isAsciiAlphanumeric c

/-- A reference that follows a dollar sign: its name, its default and the rest. -/
inductive IsReference : List Char → String → Option String → List Char → Prop where
  | braced {body rest : List Char} (hne : body ≠ []) (hclose : '}' ∉ body)
      (hplain : ¬ [':', '-'] <:+: body) :
      IsReference ('{' :: (body ++ '}' :: rest)) (String.ofList body) none rest
  | fallback {name default rest : List Char} (hclose : '}' ∉ name ++ default)
      (hfirst : Text.IsFirst [':', '-'] name default) :
      IsReference ('{' :: (name ++ ([':', '-'] ++ default) ++ '}' :: rest)) (String.ofList name)
        (some (String.ofList default)) rest
  | plain {name rest : List Char} (hne : name ≠ []) (hname : ∀ c ∈ name, isNameChar c = true)
      (hend : ∀ c ∈ rest.head?, isNameChar c = false) :
      IsReference (name ++ rest) (String.ofList name) none rest

/-- A text in its pieces; a dollar sign without a reference is a literal. -/
inductive Segmented : List Char → List Segment → Prop where
  | nil : Segmented [] []
  | literal {c : Char} {cs : List Char} {segments : List Segment} (hc : c ≠ '$')
      (h : Segmented cs segments) : Segmented (c :: cs) (.literal c :: segments)
  | reference {cs rest : List Char} {name : String} {fallback : Option String}
      {segments : List Segment} (href : IsReference cs name fallback rest)
      (h : Segmented rest segments) : Segmented ('$' :: cs) (.reference name fallback :: segments)
  | dollar {cs : List Char} {segments : List Segment}
      (hnone : ∀ name fallback rest, ¬ IsReference cs name fallback rest)
      (h : Segmented cs segments) : Segmented ('$' :: cs) (.literal '$' :: segments)

end Segments

section References

variable {env : Env} {cs rest : List Char} {name : String} {fallback : Option String}

/-- The reference that the expander finds, and how many characters it has. -/
def readReference (cs : List Char) : Option (String × Option String × Nat) :=
  (bracedEnvReference cs).or
    (let name := cs.takeWhile isNameChar
     if name = [] then none else some (String.ofList name, none, name.length))

theorem expandReference_eq (env : Env) (cs : List Char) :
    expandReference env cs = match readReference cs with
      | none => (['$'], 0)
      | some (name, fallback, length) => (referenceText env name fallback, length) := by
  unfold expandReference readReference
  cases bracedEnvReference cs with
  | some reference => rfl
  | none =>
      have hname : (cs.takeWhile fun c => c = '_' || Text.isAsciiAlphanumeric c) =
          cs.takeWhile isNameChar := rfl
      dsimp only [Option.none_or]
      rw [hname]
      by_cases hnil : cs.takeWhile isNameChar = []
      · rw [if_pos hnil, if_pos hnil]
      · rw [if_neg hnil, if_neg hnil]
        dsimp only [referenceText]
        cases env (String.ofList (cs.takeWhile isNameChar)) with
        | none => rfl
        | some value =>
            rw [Option.filter_some]
            by_cases hempty : value = ""
            · simp [hempty]
            · simp [hempty]

theorem takeWhile_body {body : List Char} (hclose : '}' ∉ body) :
    (body ++ '}' :: rest).takeWhile (fun c => decide (c ≠ '}')) = body := by
  have hall : ∀ c ∈ body, decide (c ≠ '}') = true :=
    fun c hc => decide_eq_true fun heq => hclose (heq ▸ hc)
  rw [List.takeWhile_append_of_pos hall, List.takeWhile_cons_of_neg (by simp), List.append_nil]

theorem bracedEnvReference_body {body : List Char} (hne : body ≠ []) (hclose : '}' ∉ body) :
    bracedEnvReference ('{' :: (body ++ '}' :: rest)) =
      match Text.splitSeq (String.ofList body) ":-" with
      | name :: fallback :: more =>
          some (name, some (String.intercalate ":-" (fallback :: more)), body.length + 2)
      | _ => some (String.ofList body, none, body.length + 2) := by
  have hmem : '}' ∈ body ++ '}' :: rest := List.mem_append_right body List.mem_cons_self
  rw [bracedEnvReference, takeWhile_body hclose]
  exact if_pos ⟨hmem, hne⟩

theorem isNameChar_brace : isNameChar '{' = false := by decide

theorem readReference_eq (h : IsReference cs name fallback rest) :
    ∃ taken, cs = taken ++ rest ∧ readReference cs = some (name, fallback, taken.length) := by
  cases h with
  | @braced body _ hne hclose hplain =>
      refine ⟨'{' :: (body ++ ['}']), by simp, ?_⟩
      have hsplit : Text.splitSeq (String.ofList body) ":-" = [String.ofList body] := by
        apply Text.splitSeq_eq_singleton
        simpa using hplain
      rw [readReference, bracedEnvReference_body hne hclose, hsplit]
      simp
  | @fallback name default _ hclose hfirst =>
      refine ⟨'{' :: (name ++ ([':', '-'] ++ default) ++ ['}']), by simp, ?_⟩
      have hfree : '}' ∉ name ++ ([':', '-'] ++ default) := by
        simpa using hclose
      have hne : name ++ ([':', '-'] ++ default) ≠ [] := by simp
      have hsplit : Text.splitSeq (String.ofList (name ++ ([':', '-'] ++ default))) ":-" =
          String.ofList name :: Text.splitSeq (String.ofList default) ":-" := by
        rw [String.ofList_append, String.ofList_append, ← String.append_assoc]
        apply Text.splitSeq_first (by decide)
        simpa using hfirst
      have hback : String.intercalate ":-" (Text.splitSeq (String.ofList default) ":-") =
          String.ofList default :=
        Text.intercalate_splitSeq (by decide) _
      rw [readReference, bracedEnvReference_body hne hfree, hsplit]
      cases hparts : Text.splitSeq (String.ofList default) ":-" with
      | nil => exact absurd hparts (Text.splitSeq_ne_nil (by decide) _)
      | cons part parts =>
          rw [hparts] at hback
          dsimp only
          rw [hback, Option.some_or]
          simp [Nat.add_assoc]
  | @plain name _ hne hname hend =>
      refine ⟨name, rfl, ?_⟩
      have hbraced : bracedEnvReference (name ++ rest) = none := by
        cases name with
        | nil => exact absurd rfl hne
        | cons c name =>
            have hc : c ≠ '{' := by
              intro heq
              have := hname c List.mem_cons_self
              rw [heq, isNameChar_brace] at this
              cases this
            rw [List.cons_append]
            unfold bracedEnvReference
            split
            · rename_i heq
              exact absurd (List.cons.inj heq).1 hc
            · rfl
      have htake : (name ++ rest).takeWhile isNameChar = name := by
        rw [List.takeWhile_append_of_pos hname]
        cases rest with
        | nil => simp
        | cons c rest =>
            rw [List.takeWhile_cons_of_neg (by simp [hend c rfl]), List.append_nil]
      rw [readReference, hbraced, Option.none_or]
      dsimp only
      rw [htake, if_neg hne]

theorem exists_braced (h : bracedEnvReference cs ≠ none) :
    ∃ name fallback rest, IsReference cs name fallback rest := by
  unfold bracedEnvReference at h
  split at h
  · rename_i cs
    dsimp only at h
    split at h
    · rename_i hbody
      obtain ⟨hmem, hne⟩ := hbody
      obtain ⟨body, rest, heq, hclose⟩ := List.eq_append_cons_of_mem hmem
      rw [heq, takeWhile_body hclose] at hne
      rw [heq]
      by_cases hsub : [':', '-'] <:+: body
      · obtain ⟨name, default, hparts, hfirst⟩ := Text.exists_first hsub
        rw [hparts] at hclose ⊢
        exact ⟨_, _, _, .fallback (by simpa using hclose) hfirst⟩
      · exact ⟨_, _, _, .braced hne hclose hsub⟩
    · exact absurd rfl h
  · exact absurd rfl h

theorem exists_isReference (h : readReference cs ≠ none) :
    ∃ name fallback rest, IsReference cs name fallback rest := by
  by_cases hbraced : bracedEnvReference cs = none
  · rw [readReference, hbraced, Option.none_or] at h
    dsimp only at h
    have hne : cs.takeWhile isNameChar ≠ [] := by
      intro hnil
      rw [if_pos hnil] at h
      exact h rfl
    have hend : ∀ c ∈ (cs.dropWhile isNameChar).head?, isNameChar c = false := by
      intro c hc
      have hhead := List.head?_dropWhile_not isNameChar cs
      rw [Option.mem_def.mp hc] at hhead
      simpa using hhead
    have hplain := IsReference.plain hne (fun c hc => List.mem_takeWhile_imp hc) hend
    rw [List.takeWhile_append_dropWhile] at hplain
    exact ⟨_, _, _, hplain⟩
  · exact exists_braced hbraced

theorem readReference_none (h : readReference cs = none) (name : String) (fallback : Option String)
    (rest : List Char) : ¬ IsReference cs name fallback rest := by
  intro href
  obtain ⟨taken, _, hread⟩ := readReference_eq href
  rw [h] at hread
  cases hread

theorem IsReference.unique {name' : String} {fallback' : Option String} {rest' : List Char}
    (h : IsReference cs name fallback rest) (h' : IsReference cs name' fallback' rest') :
    name = name' ∧ fallback = fallback' ∧ rest = rest' := by
  obtain ⟨taken, heq, hread⟩ := readReference_eq h
  obtain ⟨taken', heq', hread'⟩ := readReference_eq h'
  rw [hread, Option.some.injEq, Prod.mk.injEq, Prod.mk.injEq] at hread'
  obtain ⟨hname, hfallback, hlength⟩ := hread'
  exact ⟨hname, hfallback, (List.append_inj (heq.symm.trans heq') hlength).2⟩

end References

section Expansion

variable {env : Env} {cs : List Char} {segments : List Segment}

theorem exists_segmented (cs : List Char) : ∃ segments, Segmented cs segments := by
  induction hlength : cs.length using Nat.strong_induction_on generalizing cs with
  | _ n ih =>
      cases cs with
      | nil => exact ⟨[], .nil⟩
      | cons c cs =>
          rw [List.length_cons] at hlength
          obtain ⟨segments, hsegments⟩ := ih cs.length (by omega) cs rfl
          by_cases hc : c = '$'
          · subst hc
            by_cases hread : readReference cs = none
            · exact ⟨_, .dollar (readReference_none hread) hsegments⟩
            · obtain ⟨name, fallback, rest, href⟩ := exists_isReference hread
              obtain ⟨taken, heq, _⟩ := readReference_eq href
              have hshort := congrArg List.length heq
              rw [List.length_append] at hshort
              obtain ⟨others, hothers⟩ := ih rest.length (by omega) rest rfl
              exact ⟨_, .reference href hothers⟩
          · exact ⟨_, .literal hc hsegments⟩

theorem Segmented.unique {others : List Segment} (h : Segmented cs segments)
    (h' : Segmented cs others) : segments = others := by
  induction h generalizing others with
  | nil =>
      cases h'
      rfl
  | literal hc h ih =>
      cases h' with
      | literal _ hrest => rw [ih hrest]
      | reference _ _ => exact absurd rfl hc
      | dollar _ _ => exact absurd rfl hc
  | reference href h ih =>
      cases h' with
      | literal hc _ => exact absurd rfl hc
      | reference href' hrest =>
          obtain ⟨hname, hfallback, heq⟩ := href.unique href'
          subst heq
          rw [hname, hfallback, ih hrest]
      | dollar hnone _ => exact absurd href (hnone _ _ _)
  | dollar hnone h ih =>
      cases h' with
      | literal hc _ => exact absurd rfl hc
      | reference href _ => exact absurd href (hnone _ _ _)
      | dollar _ hrest => rw [ih hrest]

/-- What the expander writes for a piece. -/
def Segment.pushed (env : Env) : Segment → List Char
  | .literal c => pushBytes c
  | .reference name fallback => referenceText env name fallback

theorem expandFrom_skip (taken rest : List Char) :
    expandFrom env taken.length (taken ++ rest) = expandFrom env 0 rest := by
  induction taken with
  | nil => rfl
  | cons c taken ih => exact ih

theorem expandFrom_segmented (h : Segmented cs segments) :
    expandFrom env 0 cs = segments.flatMap (Segment.pushed env) := by
  induction h with
  | nil => rfl
  | literal hc h ih =>
      rw [expandFrom, if_neg hc, ih]
      rfl
  | reference href h ih =>
      obtain ⟨taken, heq, hread⟩ := readReference_eq href
      rw [expandFrom, if_pos rfl, expandReference_eq, hread]
      dsimp only
      rw [heq, expandFrom_skip, ih]
      rfl
  | @dollar cs segments hnone h ih =>
      have hread : readReference cs = none := by
        by_contra hsome
        obtain ⟨name, fallback, rest, href⟩ := exists_isReference hsome
        exact hnone name fallback rest href
      rw [expandFrom, if_pos rfl, expandReference_eq, hread]
      dsimp only
      rw [ih, List.flatMap_cons, Segment.pushed, pushBytes_ascii (by decide)]

def isWide (c : Char) : Bool := 128 ≤ c.toNat

def Segment.isWideLiteral : Segment → Bool
  | .literal c => isWide c
  | .reference _ _ => false

theorem countP_pushed_one (env : Env) (segment : Segment) :
    (segment.text env).countP isWide + [segment].countP Segment.isWideLiteral ≤
      (segment.pushed env).countP isWide := by
  rw [List.countP_singleton]
  cases segment with
  | reference name fallback => exact Nat.le_refl _
  | literal c =>
      by_cases hwide : isWide c = true
      · have hc : 128 ≤ c.toNat := by simpa [isWide] using hwide
        have hall : ∀ d ∈ pushBytes c, isWide d = true := by
          intro d hd
          simpa [isWide] using wide_of_mem_pushBytes hc hd
        have hone : [c].countP isWide = 1 := by rw [List.countP_singleton, if_pos hwide]
        have hliteral : (Segment.literal c).isWideLiteral = true := hwide
        rw [if_pos hliteral, Segment.text, hone, Segment.pushed, List.countP_eq_length.mpr hall,
          pushBytes, List.length_map]
        exact (Text.utf8EncodeChar_wide hc).1
      · have hone : [c].countP isWide = 0 := by rw [List.countP_singleton, if_neg hwide]
        have hliteral : ¬ (Segment.literal c).isWideLiteral = true := hwide
        rw [if_neg hliteral, Segment.text, hone]
        exact Nat.zero_le _

/-- Each literal beyond ASCII makes the expansion longer by at least one such character. -/
theorem countP_pushed (env : Env) (segments : List Segment) :
    (segments.flatMap (Segment.text env)).countP isWide + segments.countP Segment.isWideLiteral ≤
      (segments.flatMap (Segment.pushed env)).countP isWide := by
  induction segments with
  | nil => exact Nat.le_refl _
  | cons segment segments ih =>
      have hone := countP_pushed_one env segment
      have hcons : (segment :: segments).countP Segment.isWideLiteral =
          [segment].countP Segment.isWideLiteral + segments.countP Segment.isWideLiteral := by
        rw [← List.countP_append, List.singleton_append]
      rw [List.flatMap_cons, List.flatMap_cons, List.countP_append, List.countP_append, hcons]
      omega

theorem ascii_of_countP (h : segments.countP Segment.isWideLiteral = 0) :
    ∀ c, .literal c ∈ segments → c.toNat < 128 := by
  intro c hc
  have hnot := List.countP_eq_zero.mp h _ hc
  simpa [Segment.isWideLiteral, isWide] using hnot

theorem pushed_eq_text (h : ∀ c, .literal c ∈ segments → c.toNat < 128) :
    segments.flatMap (Segment.pushed env) = segments.flatMap (Segment.text env) := by
  rw [List.flatMap_def, List.flatMap_def]
  congr 1
  apply List.map_congr_left
  intro segment hsegment
  cases segment with
  | literal c => exact pushBytes_ascii (h c hsegment)
  | reference name fallback => rfl

theorem pushed_eq_text_iff (env : Env) (segments : List Segment) :
    segments.flatMap (Segment.pushed env) = segments.flatMap (Segment.text env) ↔
      ∀ c, .literal c ∈ segments → c.toNat < 128 := by
  constructor
  · intro h
    have hcount := countP_pushed env segments
    rw [h] at hcount
    exact ascii_of_countP (by omega)
  · exact pushed_eq_text

/-- The expansion is the pieces of the text in order: each literal as it is, and
the value or the default of each reference. -/
def ExpandsAsWritten (env : Env) (text : String) : Prop :=
  ∃ segments, Segmented text.toList segments ∧
    expandEnvVars env text = String.ofList (segments.flatMap (Segment.text env))

/-- No character outside the references is beyond ASCII. -/
def LiteralsAscii (text : String) : Prop :=
  ∃ segments, Segmented text.toList segments ∧ ∀ c, .literal c ∈ segments → c.toNat < 128

theorem expandsAsWritten_iff (env : Env) (text : String) :
    ExpandsAsWritten env text ↔ LiteralsAscii text := by
  have hiff : ∀ {segments}, Segmented text.toList segments →
      (expandEnvVars env text = String.ofList (segments.flatMap (Segment.text env)) ↔
        ∀ c, .literal c ∈ segments → c.toNat < 128) := by
    intro segments h
    rw [expandEnvVars, expandFrom_segmented h, ← pushed_eq_text_iff env]
    exact ⟨fun heq => String.ofList_injective heq, fun heq => by rw [heq]⟩
  constructor
  · rintro ⟨segments, h, heq⟩
    exact ⟨segments, h, (hiff h).mp heq⟩
  · rintro ⟨segments, h, hascii⟩
    exact ⟨segments, h, (hiff h).mpr hascii⟩

/-- A text without dollar signs is all literal. -/
theorem segmented_literals (h : '$' ∉ cs) : Segmented cs (cs.map .literal) := by
  induction cs with
  | nil => exact .nil
  | cons c cs ih =>
      rw [List.mem_cons, not_or] at h
      exact .literal (Ne.symm h.1) (ih h.2)

theorem flatMap_literals (cs : List Char) : (cs.map Segment.literal).flatMap (Segment.text env) = cs := by
  induction cs with
  | nil => rfl
  | cons c cs ih => rw [List.map_cons, List.flatMap_cons, ih]; rfl

end Expansion

section Credentials

variable {env : Env}

/-- The keys under which a credential is given. -/
def IsCredentialKey (key : String) : Prop :=
  key = "_auth" ∨ key = "_authToken" ∨
    Text.startsWith key "//" = true ∧
      (Text.endsWith key ":_auth" = true ∨ Text.endsWith key ":_authToken" = true)

/-- The entry of a credential line without references has the value of the line. -/
def StoredAsWritten (env : Env) (line : String) : Prop :=
  ∀ key value, Text.splitOnce line (· = '=') = some (key, value) →
    IsCredentialKey (Text.trim key) → '$' ∉ value.toList →
      parseRcEntry env line = some (Text.trim key, Text.trim value)

/-- The value of a credential line without references is ASCII, and it ends with a
slash only under a key that is a host's. -/
def PlainlyWritten (line : String) : Prop :=
  ∀ key value, Text.splitOnce line (· = '=') = some (key, value) →
    IsCredentialKey (Text.trim key) → '$' ∉ value.toList →
      (∀ c ∈ (Text.trim value).toList, c.toNat < 128) ∧
        (Text.startsWith (Text.trim key) "//" = true ∨ Text.endsWith (Text.trim value) "/" = false)

theorem toList_expandEnvVars {value : String} (h : '$' ∉ value.toList) :
    (expandEnvVars env value).toList =
      (value.toList.map Segment.literal).flatMap (Segment.pushed env) := by
  rw [expandEnvVars, String.toList_ofList, expandFrom_segmented (segmented_literals h)]

/-- A text without dollar signs is expanded to itself when it is ASCII. -/
theorem expandEnvVars_eq_self {value : String} (h : '$' ∉ value.toList)
    (hascii : ∀ c ∈ value.toList, c.toNat < 128) : expandEnvVars env value = value := by
  apply String.toList_inj.mp
  rw [toList_expandEnvVars h, pushed_eq_text, flatMap_literals]
  intro c hc
  obtain ⟨d, hd, heq⟩ := List.mem_map.mp hc
  cases heq
  exact hascii c hd

/-- Characters beyond ASCII are more after the expansion. -/
theorem ascii_of_countP_le (env : Env) {value : String} (h : '$' ∉ value.toList)
    (hle : (expandEnvVars env value).toList.countP isWide ≤ value.toList.countP isWide) :
    ∀ c ∈ value.toList, c.toNat < 128 := by
  intro c hc
  have hcount := countP_pushed env (value.toList.map Segment.literal)
  rw [flatMap_literals, ← toList_expandEnvVars h] at hcount
  have hzero : (value.toList.map Segment.literal).countP Segment.isWideLiteral = 0 := by omega
  exact ascii_of_countP hzero c (List.mem_map.mpr ⟨c, hc, rfl⟩)

theorem exists_of_endsWith {s t : String} (h : Text.endsWith s t = true) :
    ∃ front, s = front ++ t := by
  rw [Text.endsWith, List.isSuffixOf_iff_suffix] at h
  obtain ⟨front, hfront⟩ := h
  refine ⟨String.ofList front, ?_⟩
  apply String.toList_inj.mp
  rw [← hfront]
  simp

theorem storedAsWritten_iff (env : Env) (line : String) :
    StoredAsWritten env line ↔ PlainlyWritten line := by
  unfold StoredAsWritten PlainlyWritten
  refine forall_congr' fun key => forall_congr' fun value => forall_congr' fun hsplit =>
    forall_congr' fun hkey => forall_congr' fun hfree => ?_
  have htrimmed : '$' ∉ (Text.trim value).toList := fun hmem => hfree (Text.mem_of_mem_trim hmem)
  rw [parseRcEntry, hsplit]
  dsimp only
  constructor
  · intro h
    by_cases hcut : Text.endsWith (expandEnvVars env (Text.trim value)) "/" = true ∧
        ¬ Text.startsWith (Text.trim key) "//" = true
    · rw [if_pos hcut, Option.some.injEq, Prod.mk.injEq] at h
      obtain ⟨front, hfront⟩ := exists_of_endsWith hcut.1
      rw [hfront, Text.stripSuffix_append, Option.getD_some] at h
      have hascii : ∀ c ∈ (Text.trim value).toList, c.toNat < 128 := by
        apply ascii_of_countP_le env htrimmed
        have hslash : ("/" : String).toList.countP isWide = 0 := by decide
        rw [hfront, h.2, String.toList_append, List.countP_append, hslash, Nat.add_zero]
      rw [expandEnvVars_eq_self htrimmed hascii, h.2] at hfront
      have hlength := congrArg (fun s => s.toList.length) hfront
      simp at hlength
    · rw [if_neg hcut, Option.some.injEq, Prod.mk.injEq] at h
      have hascii := ascii_of_countP_le env htrimmed (Nat.le_of_eq (by rw [h.2]))
      refine ⟨hascii, ?_⟩
      rw [h.2, not_and_not_right] at hcut
      cases hends : Text.endsWith (Text.trim value) "/" with
      | true => exact .inl (hcut hends)
      | false => exact .inr rfl
  · rintro ⟨hascii, hslash⟩
    rw [expandEnvVars_eq_self htrimmed hascii, if_neg]
    rintro ⟨hends, hstarts⟩
    cases hslash with
    | inl hhost => exact hstarts hhost
    | inr hplain =>
        rw [hends] at hplain
        cases hplain

/-- For the text and for the line, exactly when each is as the code expects it. -/
theorem expansion_faithful_iff (env : Env) (text line : String) :
    (ExpandsAsWritten env text ↔ LiteralsAscii text) ∧
      (StoredAsWritten env line ↔ PlainlyWritten line) :=
  ⟨expandsAsWritten_iff env text, storedAsWritten_iff env line⟩

/-- A token that ends with a slash, as base64 may, and a text beyond ASCII. -/
theorem slash_and_accent_lost :
    ¬ ExpandsAsWritten (fun _ => none) "é" ∧ ¬ StoredAsWritten (fun _ => none) "_auth=dXNlcjpwYXM/" := by
  constructor
  · rintro ⟨segments, hsegmented, h⟩
    have hliterals : Segmented ("é" : String).toList (["é".front].map .literal) := by
      exact segmented_literals (by decide)
    rw [hsegmented.unique hliterals] at h
    revert h
    decide +kernel
  · intro h
    have hstored := h "_auth" "dXNlcjpwYXM/" (by decide +kernel) (.inl (by decide +kernel)) (by decide)
    revert hstored
    decide +kernel

end Credentials

end Snpm.Config
