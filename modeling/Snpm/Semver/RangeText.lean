import Mathlib
import Snpm.Semver.Partial

/-!
How the text of a range reaches the requirement parser when it is made of
operators and versions: nothing is taken for a protocol, a tag or a `v` prefix.
-/
namespace Snpm.Semver

section Source

variable {s : String}

theorem startsWith_head {p : String} {c : Char} (hc : p.toList.head? = some c)
    (h : s.toList.head? ≠ some c) : Text.startsWith s p = false := by
  cases hstart : Text.startsWith s p with
  | false => rfl
  | true =>
      obtain ⟨rest, hrest⟩ := List.isPrefixOf_iff_prefix.mp hstart
      obtain ⟨cs, hcs⟩ := List.head?_eq_some_iff.mp hc
      rw [← hrest, hcs, List.cons_append, List.head?_cons] at h
      exact absurd rfl h

/-- A text that starts with an operator or a version is no tag and no protocol. -/
theorem rangeSource_eq (hne : Text.trim s ≠ "")
    (hhead : ∀ c ∈ (Text.trim s).toList.head?, c ≠ 'l' ∧ c ≠ 'n' ∧ c ≠ 'j') :
    rangeSource s = Text.trim s := by
  have hlatest : Text.trim s ≠ "latest" := by
    intro heq
    exact (hhead 'l' (by rw [heq]; decide)).1 rfl
  have hnpm : Text.startsWith (Text.trim s) "npm:" = false :=
    startsWith_head (by decide) fun heq => (hhead 'n' heq).2.1 rfl
  have hjsr : Text.startsWith (Text.trim s) "jsr:" = false :=
    startsWith_head (by decide) fun heq => (hhead 'j' heq).2.2 rfl
  unfold rangeSource
  dsimp only
  simp only [hne, hlatest, decide_false, Bool.or_self, Bool.false_eq_true, if_false, hnpm, hjsr]

/-- A part without an at sign in front of a version. -/
def withoutAt (part : String) : String :=
  match part.toList with
  | '@' :: second :: rest =>
      if Text.isAsciiDigit second || isOperatorChar second then
        String.ofList (second :: rest)
      else part
  | _ => part

theorem withoutAt_eq_self (h : s.toList.head? ≠ some '@') : withoutAt s = s := by
  unfold withoutAt
  split
  · rename_i second rest heq
    rw [heq] at h
    exact absurd rfl h
  · rfl

theorem normalizePart_def (part : String) : normalizePart part =
    if withoutAt (Text.trim part) = "" || withoutAt (Text.trim part) = "latest" then "*"
    else normalizeAndPart (withoutAt (Text.trim part)) :=
  rfl

theorem normalizePart_eq (hne : Text.trim s ≠ "")
    (hhead : ∀ c ∈ (Text.trim s).toList.head?, c ≠ 'l' ∧ c ≠ '@') :
    normalizePart s = normalizeAndPart (Text.trim s) := by
  have hlatest : Text.trim s ≠ "latest" := by
    intro heq
    exact (hhead 'l' (by rw [heq]; decide)).1 rfl
  have hat : withoutAt (Text.trim s) = Text.trim s :=
    withoutAt_eq_self fun heq => (hhead '@' heq).2 rfl
  rw [normalizePart_def, hat]
  simp only [hne, hlatest, decide_false, Bool.or_self, Bool.false_eq_true, if_false]

end Source

section Tokens

theorem stripVPrefix_eq_self {token : String}
    (h : ∀ d ∈ (token.toList.dropWhile isOperatorChar).head?, d ≠ 'v' ∧ d ≠ 'V') :
    stripVPrefix token = token := by
  unfold stripVPrefix
  dsimp only
  split
  · rename_i v c rest heq
    rw [heq] at h
    have hv := h v rfl
    simp [hv.1, hv.2]
  · rfl

theorem dropWhile_operators {ops rest : List Char} (hops : ∀ c ∈ ops, isOperatorChar c = true)
    (hrest : ∀ c ∈ rest.head?, isOperatorChar c = false) :
    (ops ++ rest).dropWhile isOperatorChar = rest := by
  rw [List.dropWhile_append_of_pos hops]
  cases rest with
  | nil => rfl
  | cons c rest => exact List.dropWhile_cons_of_neg (by simp [hrest c rfl])

theorem not_v_of_part {c : Char}
    (h : (Text.isAsciiDigit c || c = '*' || c = 'x' || c = 'X') = true) : c ≠ 'v' ∧ c ≠ 'V' := by
  constructor
  · intro heq
    rw [heq] at h
    exact absurd h (by decide)
  · intro heq
    rw [heq] at h
    exact absurd h (by decide)

theorem Partial.head_part (p : Partial) : ∀ c ∈ p.text.toList.head?,
    (Text.isAsciiDigit c || c = '*' || c = 'x' || c = 'X') = true := by
  intro c hc
  obtain ⟨d, cs, hlist, hd⟩ := p.exists_head
  rw [hlist, List.head?_cons, Option.mem_def, Option.some.injEq] at hc
  exact hc ▸ hd

/-- Operators before a version hide no `v` prefix. -/
theorem stripVPrefix_version {ops : String} (hops : ∀ c ∈ ops.toList, isOperatorChar c = true)
    (p : Partial) : stripVPrefix (ops ++ p.text) = ops ++ p.text := by
  apply stripVPrefix_eq_self
  rw [String.toList_append, dropWhile_operators hops fun c hc =>
    not_operator_of_part (p.head_part c hc)]
  exact fun c hc => not_v_of_part (p.head_part c hc)

theorem stripVPrefix_text (p : Partial) : stripVPrefix p.text = p.text := by
  have hnone : ∀ c ∈ ("" : String).toList, isOperatorChar c = true := by simp
  have h := stripVPrefix_version hnone p
  rwa [String.empty_append] at h

theorem stripVPrefix_operator (operator : Operator) : stripVPrefix operator.text = operator.text := by
  cases operator <;> decide

theorem Partial.isWord (p : Partial) : Text.IsWord p.text where
  ne_empty := p.text_ne_empty
  free := fun c hc => isPartialChar_visible (p.text_chars c hc)

/-- A character that no full version has. -/
def isListChar (c : Char) : Bool := isOperatorChar c || c = ' ' || c = ','

theorem expandBareMajorMinor_eq_none {c : Char} {s : String} (hc : c ∈ s.toList)
    (hdigit : Text.isAsciiDigit c = false) (hdot : c ≠ '.') : expandBareMajorMinor s = none := by
  unfold expandBareMajorMinor
  cases hsplit : Text.splitOnce s (· = '.') with
  | none => rfl
  | some parts =>
      obtain ⟨major, minor⟩ := parts
      have hs := (Text.splitOnce_eq_some hsplit).1
      have hmem : c ∈ major.toList ∨ c ∈ minor.toList := by
        rw [hs] at hc
        simpa [hdot] using hc
      have hnot : ∀ t : String, c ∈ t.toList → (!t.toList.all Text.isAsciiDigit) = true := by
        intro t ht
        rw [Bool.not_eq_true', List.all_eq_false]
        exact ⟨c, ht, by simp [hdigit]⟩
      have hcond : (decide (major = "") || decide (minor = "") || !major.toList.all Text.isAsciiDigit ||
          !minor.toList.all Text.isAsciiDigit) = true := by
        cases hmem with
        | inl h => simp only [hnot major h, Bool.or_true, Bool.true_or]
        | inr h => simp only [hnot minor h, Bool.or_true]
      change (if (decide (major = "") || decide (minor = "") || !major.toList.all Text.isAsciiDigit ||
          !minor.toList.all Text.isAsciiDigit) = true then none else _) = none
      rw [if_pos hcond]

theorem isPlainExactVersion_eq_false {c : Char} {s : String} (hc : c ∈ s.toList)
    (hlist : isListChar c = true) : isPlainExactVersion s = false := by
  have hcontains : Text.containsChar s (fun c => isOperatorChar c || c = ' ' || c = ',') = true :=
    List.any_eq_true.mpr ⟨c, hc, hlist⟩
  rw [isPlainExactVersion, hcontains]
  simp

/-- An operator, a blank or a comma leaves a requirement text as it is. -/
theorem adjustNodeDefault_eq_self {c : Char} {s : String} (hc : c ∈ s.toList)
    (hlist : isListChar c = true) : adjustNodeDefault s = s := by
  have hdigit : Text.isAsciiDigit c = false ∧ c ≠ '.' := by
    simp only [isListChar, isOperatorChar, Bool.or_eq_true, decide_eq_true_eq] at hlist
    obtain ((((((h | h) | h) | h) | h) | h) | h) := hlist
    · rw [h]; decide
    · rw [h]; decide
    · rw [h]; decide
    · rw [h]; decide
    · rw [h]; decide
    · rw [h]; decide
    · rw [h]; decide
  rw [adjustNodeDefault, isPlainExactVersion_eq_false hc hlist,
    expandBareMajorMinor_eq_none hc hdigit.1 hdigit.2]
  rfl

end Tokens

section Parse

theorem parse_of_one (S : SemverCrate) {original text : String}
    (h : requirementTexts original = [text]) : RangeSet.parse S original =
      match S.parseReq text with
      | .ok req => .ok ⟨original, [req]⟩
      | .error message => .error (message ++ " (" ++ original ++ ")") := by
  unfold RangeSet.parse
  rw [h, List.mapM_cons, List.mapM_nil]
  cases S.parseReq text with
  | error message => rfl
  | ok req => rfl

/-- A range of one requirement admits what the requirement matches. -/
theorem parse_of_read {S : SemverCrate} {view : S.Version → Version}
    {before : String → String → Bool} {original text : String} {cs : List Comparator}
    (htexts : requirementTexts original = [text])
    (hcrate : ReadAsDocumented S view before text) (hread : readRequirement text = some cs) :
    ∃ set, RangeSet.parse S original = .ok set ∧
      ∀ v, set.contains v = requirementMatches before cs (view v) := by
  obtain ⟨req, hreq, hmatches⟩ := hcrate.accepts _ hread
  refine ⟨⟨original, [req]⟩, ?_, ?_⟩
  · rw [parse_of_one S htexts, hreq]
  · intro v
    rw [RangeSet.contains, List.any_cons, List.any_nil, Bool.or_false, hmatches]

end Parse

end Snpm.Semver
