import Mathlib
import Snpm.Library.JsonTokens

/-!
The comments and trailing commas of a `bun.lock`. They are blanked before the
text is read as JSON; a trailing comma is blanked only when nothing but white
space stands between it and the bracket.
-/
namespace Snpm.Compat.Bun

open Json (Token Spaced IsBlanks isBlank StringBody IsScalar Parses Derives Wellformed lex)

section Strip

inductive StripState where
  | plain
  | string
  | escaped
  | lineComment
  | blockComment

def isAsciiWhitespace (c : Char) : Bool :=
  c = ' ' || c = '\t' || c = '\n' || c = '\x0c' || c = '\r'

/-- A closing bracket is next, after white space. -/
def closesNext (cs : List Char) : Bool :=
  match cs.dropWhile isAsciiWhitespace with
  | c :: _ => c = '\x7d' || c = ']'
  | [] => false

/-- Every byte of a character becomes a blank. -/
def blanked (c : Char) : List Char := List.replicate c.utf8Size ' '

def blankedInComment (c : Char) : List Char := if c = '\n' then ['\n'] else blanked c

def stripFrom : StripState → List Char → List Char
  | _, [] => []
  | .string, c :: cs =>
      c :: stripFrom (if c = '\\' then .escaped else if c = '"' then .plain else .string) cs
  | .escaped, c :: cs => c :: stripFrom .string cs
  | .lineComment, c :: cs =>
      if c = '\n' then '\n' :: stripFrom .plain cs else blanked c ++ stripFrom .lineComment cs
  | .blockComment, '*' :: '/' :: cs => ' ' :: ' ' :: stripFrom .plain cs
  | .blockComment, c :: cs => blankedInComment c ++ stripFrom .blockComment cs
  | .plain, '/' :: '/' :: cs => ' ' :: ' ' :: stripFrom .lineComment cs
  | .plain, '/' :: '*' :: cs => ' ' :: ' ' :: stripFrom .blockComment cs
  | .plain, c :: cs =>
      if c = ',' ∧ closesNext cs = true then ' ' :: stripFrom .plain cs
      else c :: stripFrom (if c = '"' then .string else .plain) cs

/-! One equation for each state, so that no later proof unfolds the function. -/

theorem stripFrom_string (c : Char) (cs : List Char) : stripFrom .string (c :: cs) =
    c :: stripFrom (if c = '\\' then .escaped else if c = '"' then .plain else .string) cs := rfl

theorem stripFrom_escaped (c : Char) (cs : List Char) :
    stripFrom .escaped (c :: cs) = c :: stripFrom .string cs := rfl

theorem stripFrom_lineComment (c : Char) (cs : List Char) : stripFrom .lineComment (c :: cs) =
    if c = '\n' then '\n' :: stripFrom .plain cs else blanked c ++ stripFrom .lineComment cs := rfl

theorem stripFrom_blockComment {c : Char} {cs : List Char}
    (h : ∀ rest, c = '*' → cs = '/' :: rest → False) :
    stripFrom .blockComment (c :: cs) = blankedInComment c ++ stripFrom .blockComment cs := by
  rw [stripFrom]
  exact h

theorem stripFrom_openLine (cs : List Char) :
    stripFrom .plain ('/' :: '/' :: cs) = ' ' :: ' ' :: stripFrom .lineComment cs := rfl

theorem stripFrom_openBlock (cs : List Char) :
    stripFrom .plain ('/' :: '*' :: cs) = ' ' :: ' ' :: stripFrom .blockComment cs := rfl

theorem stripFrom_plain {c : Char} (h : c ≠ '/') (cs : List Char) : stripFrom .plain (c :: cs) =
    if c = ',' ∧ closesNext cs = true then ' ' :: stripFrom .plain cs
    else c :: stripFrom (if c = '"' then .string else .plain) cs := by
  rw [stripFrom]
  · exact fun _ heq _ => h heq
  · exact fun _ heq _ => h heq

def stripJsonc (input : String) : String := String.ofList (stripFrom .plain input.toList)

end Strip

section Decoration

/-- What may stand between two tokens. -/
inductive GapItem where
  | blank (c : Char) (h : isBlank c = true)
  | line (text : List Char) (h : '\n' ∉ text)
  | block (text : List Char) (h : ¬ ['*', '/'] <:+: text)

abbrev Gap := List GapItem

def GapItem.text : GapItem → List Char
  | .blank c _ => [c]
  | .line text _ => '/' :: '/' :: (text ++ ['\n'])
  | .block text _ => '/' :: '*' :: (text ++ ['*', '/'])

def GapItem.isComment : GapItem → Bool
  | .blank _ _ => false
  | .line _ _ | .block _ _ => true

def gapText (gap : Gap) : List Char := gap.flatMap GapItem.text

/-- A token, what stands before it, and the trailing comma before a closing
bracket with what follows that comma. -/
structure Item where
  gap : Gap
  trailing : Option Gap
  token : Token
  closes : trailing ≠ none → token.closes = true

def Item.text (item : Item) : List Char :=
  gapText item.gap ++
    ((match item.trailing with
      | none => []
      | some gap => ',' :: gapText gap) ++ item.token.text)

/-- A decorated text; its last line may end with a comment. -/
structure Decoration where
  items : List Item
  gap : Gap
  comment : Option (List Char)
  oneLine : ∀ text ∈ comment, '\n' ∉ text

def Decoration.text (d : Decoration) : List Char :=
  d.items.flatMap Item.text ++ (gapText d.gap ++
    match d.comment with
    | none => []
    | some text => '/' :: '/' :: text)

def Decoration.tokens (d : Decoration) : List Token := d.items.map Item.token

/-- No comment stands between a trailing comma and its bracket. -/
def Decoration.Plain (d : Decoration) : Prop :=
  ∀ item ∈ d.items, ∀ gap ∈ item.trailing, ∀ g ∈ gap, g.isComment = false

instance (d : Decoration) : Decidable d.Plain :=
  inferInstanceAs
    (Decidable (∀ item ∈ d.items, ∀ gap ∈ item.trailing, ∀ g ∈ gap, g.isComment = false))

end Decoration

section Stripped

def GapItem.blanks : GapItem → List Char
  | .blank c _ => [c]
  | .line text _ => ' ' :: ' ' :: (text.flatMap blanked ++ ['\n'])
  | .block text _ => ' ' :: ' ' :: (text.flatMap blankedInComment ++ [' ', ' '])

def gapBlanks (gap : Gap) : List Char := gap.flatMap GapItem.blanks

theorem isBlanks_blanked (c : Char) : IsBlanks (blanked c) := by
  intro b hb
  rw [List.eq_of_mem_replicate hb]
  decide

theorem isBlanks_blankedInComment (c : Char) : IsBlanks (blankedInComment c) := by
  unfold blankedInComment
  split
  · intro b hb
    rw [List.mem_singleton.mp hb]
    decide
  · exact isBlanks_blanked c

theorem isBlanks_append {cs ds : List Char} (hcs : IsBlanks cs) (hds : IsBlanks ds) :
    IsBlanks (cs ++ ds) := by
  intro c hc
  cases List.mem_append.mp hc with
  | inl hc => exact hcs c hc
  | inr hc => exact hds c hc

theorem isBlanks_flatMap {α : Type} {f : α → List Char} {l : List α} (h : ∀ a ∈ l, IsBlanks (f a)) :
    IsBlanks (l.flatMap f) := by
  intro c hc
  obtain ⟨a, ha, hc⟩ := List.mem_flatMap.mp hc
  exact h a ha c hc

theorem isBlanks_spaces : IsBlanks [' ', ' '] := by
  intro c hc
  simp only [List.mem_cons, List.not_mem_nil, or_false, or_self] at hc
  rw [hc]
  decide

theorem isBlanks_newline : IsBlanks ['\n'] := by
  intro c hc
  rw [List.mem_singleton.mp hc]
  decide

theorem isBlanks_gapItem (g : GapItem) : IsBlanks g.blanks := by
  cases g with
  | blank c h =>
      intro b hb
      rw [List.mem_singleton.mp hb]
      exact h
  | line text h =>
      exact isBlanks_append isBlanks_spaces
        (isBlanks_append (isBlanks_flatMap fun c _ => isBlanks_blanked c) isBlanks_newline)
  | block text h =>
      exact isBlanks_append isBlanks_spaces
        (isBlanks_append (isBlanks_flatMap fun c _ => isBlanks_blankedInComment c) isBlanks_spaces)

theorem isBlanks_gap (gap : Gap) : IsBlanks (gapBlanks gap) :=
  isBlanks_flatMap fun g _ => isBlanks_gapItem g

/-- A character that starts nothing is copied. -/
theorem strip_char {c : Char} (hslash : c ≠ '/') (hcomma : c ≠ ',') (hquote : c ≠ '"')
    (rest : List Char) : stripFrom .plain (c :: rest) = c :: stripFrom .plain rest := by
  rw [stripFrom_plain hslash, if_neg fun h => hcomma h.1, if_neg hquote]

theorem strip_line {text : List Char} (h : '\n' ∉ text) (rest : List Char) :
    stripFrom .lineComment (text ++ '\n' :: rest) =
      text.flatMap blanked ++ '\n' :: stripFrom .plain rest := by
  induction text with
  | nil => exact stripFrom_lineComment '\n' rest
  | cons c text ih =>
      have hc : c ≠ '\n' := fun heq => h (heq ▸ List.mem_cons_self)
      rw [List.cons_append, stripFrom_lineComment, if_neg hc, ih fun hmem => h (List.mem_cons_of_mem c hmem),
        List.flatMap_cons, List.append_assoc]

theorem strip_block {text : List Char} (h : ¬ ['*', '/'] <:+: text) (rest : List Char) :
    stripFrom .blockComment (text ++ '*' :: '/' :: rest) =
      text.flatMap blankedInComment ++ ' ' :: ' ' :: stripFrom .plain rest := by
  induction text with
  | nil => rfl
  | cons c text ih =>
      have hrest : ¬ ['*', '/'] <:+: text := fun hsub => h (hsub.trans (List.infix_cons List.infix_rfl))
      rw [List.cons_append, stripFrom_blockComment]
      · rw [ih hrest, List.flatMap_cons, List.append_assoc]
      · intro cs hstar hslash
        -- The comment does not end inside its text.
        cases text with
        | nil => cases hslash
        | cons next text =>
            rw [List.cons_append, List.cons.injEq] at hslash
            rw [hstar, hslash.1] at h
            exact h ⟨[], text, rfl⟩

theorem strip_blank {c : Char} (h : isBlank c = true) (rest : List Char) :
    stripFrom .plain (c :: rest) = c :: stripFrom .plain rest := by
  have hne : ∀ d, isBlank d = false → c ≠ d := by
    intro d hd heq
    rw [heq, hd] at h
    cases h
  exact strip_char (hne '/' (by decide)) (hne ',' (by decide)) (hne '"' (by decide)) rest

theorem strip_gapItem (g : GapItem) (rest : List Char) :
    stripFrom .plain (g.text ++ rest) = g.blanks ++ stripFrom .plain rest := by
  cases g with
  | blank c h => exact strip_blank h rest
  | line text h =>
      rw [GapItem.text, GapItem.blanks, List.cons_append, List.cons_append, stripFrom_openLine,
        List.append_assoc, List.singleton_append, strip_line h]
      simp
  | block text h =>
      rw [GapItem.text, GapItem.blanks, List.cons_append, List.cons_append, stripFrom_openBlock,
        List.append_assoc]
      have hend := strip_block h rest
      rw [List.cons_append, List.cons_append, List.nil_append, hend]
      simp

theorem strip_gap (gap : Gap) (rest : List Char) :
    stripFrom .plain (gapText gap ++ rest) = gapBlanks gap ++ stripFrom .plain rest := by
  induction gap with
  | nil => rfl
  | cons g gap ih =>
      rw [gapText, gapBlanks, List.flatMap_cons, List.flatMap_cons, List.append_assoc,
        strip_gapItem, List.append_assoc]
      exact congrArg (g.blanks ++ ·) ih

theorem strip_string {body : List Char} (h : StringBody body) (rest : List Char) :
    stripFrom .string (body ++ '"' :: rest) = body ++ '"' :: stripFrom .plain rest := by
  induction h with
  | nil => rfl
  | @char c cs hquote hescape _ ih =>
      rw [List.cons_append, stripFrom_string, if_neg hescape, if_neg hquote, ih, List.cons_append]
  | @escape c cs _ ih =>
      rw [List.cons_append, List.cons_append, stripFrom_string, if_pos rfl, stripFrom_escaped, ih,
        List.cons_append, List.cons_append]

theorem strip_bare {text : List Char} (h : ∀ c ∈ text, Json.isBareChar c = true)
    (rest : List Char) : stripFrom .plain (text ++ rest) = text ++ stripFrom .plain rest := by
  induction text with
  | nil => rfl
  | cons c text ih =>
      have hc := h c List.mem_cons_self
      rw [List.cons_append, strip_char (Json.isBareChar_ne hc (by decide))
        (Json.isBareChar_ne hc (by decide)) (Json.isBareChar_ne hc (by decide)),
        ih fun d hd => h d (List.mem_cons_of_mem c hd), List.cons_append]

/-- A token is copied; a comma, unless a bracket comes next. -/
theorem strip_token {token : Token} (hscalar : ∀ text, token = .scalar text → IsScalar text)
    {rest : List Char} (hcomma : token = .comma → closesNext rest = false) :
    stripFrom .plain (token.text ++ rest) = token.text ++ stripFrom .plain rest := by
  cases token with
  | scalar text =>
      cases hscalar text rfl with
      | @quoted body h =>
          have hstart : stripFrom .plain ('"' :: (body ++ ['"']) ++ rest) =
              '"' :: stripFrom .string (body ++ '"' :: rest) := by
            rw [List.cons_append, stripFrom_plain (by decide), List.append_assoc,
              if_neg fun h => absurd h.1 (by decide), if_pos rfl]
            rfl
          rw [Token.text, hstart, strip_string h]
          simp
      | bare _ h => exact strip_bare h rest
  | comma =>
      have hnot : ¬ (',' = ',' ∧ closesNext rest = true) := by
        rw [hcomma rfl]
        exact fun h => Bool.false_ne_true h.2
      rw [Token.text, List.singleton_append, stripFrom_plain (by decide), if_neg hnot,
        if_neg (by decide), List.singleton_append]
  | openObject | closeObject | openArray | closeArray | colon =>
      exact strip_char (by decide) (by decide) (by decide) rest

theorem isAsciiWhitespace_of_blank {c : Char} (h : isBlank c = true) : isAsciiWhitespace c = true := by
  simp only [isBlank, Bool.or_eq_true, decide_eq_true_eq] at h
  simp only [isAsciiWhitespace, Bool.or_eq_true, decide_eq_true_eq]
  tauto

def isPlainGap (gap : Gap) : Bool := gap.all fun g => !g.isComment

theorem closesNext_cons {c : Char} (hc : isAsciiWhitespace c = false) (rest : List Char) :
    closesNext (c :: rest) = (c = '\x7d' || c = ']') := by
  rw [closesNext, List.dropWhile_cons_of_neg (by simp [hc])]

theorem closesNext_gap (gap : Gap) (rest : List Char) :
    closesNext (gapText gap ++ rest) = (isPlainGap gap && closesNext rest) := by
  induction gap with
  | nil => rfl
  | cons g gap ih =>
      cases g with
      | blank c h =>
          have hdrop : closesNext (c :: (gapText gap ++ rest)) = closesNext (gapText gap ++ rest) := by
            rw [closesNext, List.dropWhile_cons_of_pos (isAsciiWhitespace_of_blank h), closesNext]
          exact hdrop.trans ih
      | line text h => exact closesNext_cons (by decide) _
      | block text h => exact closesNext_cons (by decide) _

theorem head_isScalar {text : List Char} (h : IsScalar text) :
    ∃ c rest, text = c :: rest ∧ isAsciiWhitespace c = false ∧ c ≠ '\x7d' ∧ c ≠ ']' := by
  cases h with
  | @quoted body h => exact ⟨'"', body ++ ['"'], rfl, by decide, by decide, by decide⟩
  | bare hne h =>
      cases text with
      | nil => exact absurd rfl hne
      | cons c rest =>
          have hc := h c List.mem_cons_self
          refine ⟨c, rest, rfl, ?_, Json.isBareChar_ne hc (by decide), Json.isBareChar_ne hc (by decide)⟩
          simp [isAsciiWhitespace, Json.isBareChar_ne hc (d := ' ') (by decide),
            Json.isBareChar_ne hc (d := '\t') (by decide),
            Json.isBareChar_ne hc (d := '\n') (by decide),
            Json.isBareChar_ne hc (d := '\x0c') (by decide),
            Json.isBareChar_ne hc (d := '\r') (by decide)]

theorem closesNext_token {token : Token} (hscalar : ∀ text, token = .scalar text → IsScalar text)
    (rest : List Char) : closesNext (token.text ++ rest) = token.closes := by
  cases token with
  | scalar text =>
      obtain ⟨c, front, rfl, hc, hbrace, hbracket⟩ := head_isScalar (hscalar text rfl)
      rw [Token.text, List.cons_append, closesNext_cons hc]
      simp [hbrace, hbracket, Token.closes]
  | openObject | closeObject | openArray | closeArray | colon | comma =>
      exact closesNext_cons (by decide) rest

end Stripped

section Items

/-- What is left of an item: its trailing comma, if a comment hides the bracket,
and its token. -/
def Item.stripped (item : Item) : List Spaced :=
  match item.trailing with
  | none => [⟨gapBlanks item.gap, item.token⟩]
  | some gap =>
      if isPlainGap gap then [⟨gapBlanks item.gap ++ ' ' :: gapBlanks gap, item.token⟩]
      else [⟨gapBlanks item.gap, .comma⟩, ⟨gapBlanks gap, item.token⟩]

def Item.leftTokens (item : Item) : List Token := item.stripped.map Spaced.token

theorem strip_trailing {gap : Gap} {token : Token} (hcloses : token.closes = true)
    (rest : List Char) :
    stripFrom .plain (',' :: (gapText gap ++ (token.text ++ rest))) =
      (if isPlainGap gap then ' ' else ',') :: (gapBlanks gap ++ stripFrom .plain (token.text ++ rest)) := by
  have hscalar : ∀ text, token = .scalar text → IsScalar text := by
    intro text heq
    rw [heq] at hcloses
    cases hcloses
  have hnext : closesNext (gapText gap ++ (token.text ++ rest)) = isPlainGap gap := by
    rw [closesNext_gap, closesNext_token hscalar, hcloses, Bool.and_true]
  rw [stripFrom_plain (by decide), hnext]
  cases isPlainGap gap with
  | true => rw [if_pos ⟨rfl, rfl⟩, if_pos rfl, strip_gap]
  | false =>
      rw [if_neg fun h => Bool.false_ne_true h.2, if_neg (by decide), if_neg Bool.false_ne_true,
        strip_gap]

theorem strip_item {item : Item} {rest : List Char}
    (hscalar : ∀ text, item.token = .scalar text → IsScalar text)
    (hcomma : item.token = .comma → closesNext rest = false) :
    stripFrom .plain (item.text ++ rest) =
      item.stripped.flatMap Spaced.text ++ stripFrom .plain rest := by
  have htoken := strip_token hscalar hcomma
  rw [Item.text, List.append_assoc, strip_gap, Item.stripped]
  cases htrailing : item.trailing with
  | none =>
      rw [List.nil_append, htoken]
      simp [Spaced.text]
  | some gap =>
      have hcloses := item.closes (by rw [htrailing]; exact Option.some_ne_none gap)
      have hstrip : stripFrom .plain (',' :: (gapText gap ++ (item.token.text ++ rest))) =
          (if isPlainGap gap then ' ' else ',') ::
            (gapBlanks gap ++ stripFrom .plain (item.token.text ++ rest)) :=
        strip_trailing hcloses rest
      have hassoc : ((',' :: gapText gap) ++ item.token.text) ++ rest =
          ',' :: (gapText gap ++ (item.token.text ++ rest)) := by simp
      dsimp only
      rw [hassoc, hstrip, htoken]
      cases isPlainGap gap with
      | true => simp [Spaced.text]
      | false => simp [Spaced.text, Token.text]

/-- What follows a comma of the document is no bracket. -/
theorem closesNext_items {items : List Item} {tail : List Char}
    (hscalars : ∀ item ∈ items, ∀ text, item.token = .scalar text → IsScalar text)
    (hne : items ≠ []) (hfirst : ∀ token ∈ (items.map Item.token).head?, token.closes = false) :
    closesNext (items.flatMap Item.text ++ tail) = false := by
  cases items with
  | nil => exact absurd rfl hne
  | cons item items =>
      have hcloses := hfirst item.token rfl
      have htrailing : item.trailing = none := by
        by_contra hsome
        rw [item.closes hsome] at hcloses
        cases hcloses
      rw [List.flatMap_cons, Item.text, htrailing, List.nil_append, List.append_assoc,
        List.append_assoc, closesNext_gap,
        closesNext_token (hscalars item List.mem_cons_self), hcloses, Bool.and_false]

def tailBlanks (d : Decoration) : List Char :=
  gapBlanks d.gap ++
    match d.comment with
    | none => []
    | some text => ' ' :: ' ' :: text.flatMap blanked

theorem strip_lastLine {text : List Char} (h : '\n' ∉ text) :
    stripFrom .lineComment text = text.flatMap blanked := by
  induction text with
  | nil => rfl
  | cons c text ih =>
      have hc : c ≠ '\n' := fun heq => h (heq ▸ List.mem_cons_self)
      rw [stripFrom_lineComment, if_neg hc, ih fun hmem => h (List.mem_cons_of_mem c hmem),
        List.flatMap_cons]

theorem strip_items {items : List Item} (tail : List Char)
    (hscalars : ∀ item ∈ items, ∀ text, item.token = .scalar text → IsScalar text)
    (hchain : (items.map Item.token).IsChain Json.Follows)
    (hlast : ∀ token ∈ (items.map Item.token).getLast?, token ≠ .comma) :
    stripFrom .plain (items.flatMap Item.text ++ tail) =
      (items.flatMap Item.stripped).flatMap Spaced.text ++ stripFrom .plain tail := by
  induction items with
  | nil => rfl
  | cons item items ih =>
      have hrest := fun other hmem => hscalars other (List.mem_cons_of_mem item hmem)
      have hcomma : item.token = .comma → closesNext (items.flatMap Item.text ++ tail) = false := by
        intro heq
        have hne : items ≠ [] := by
          intro hnil
          rw [hnil] at hlast
          exact hlast item.token rfl heq
        refine closesNext_items hrest hne ?_
        intro token htoken
        have hfollows := (List.isChain_cons.mp hchain).1 token htoken
        exact Bool.eq_false_iff.mpr fun hcloses => hfollows.1 ⟨heq, hcloses⟩
      have hlastRest : ∀ token ∈ (items.map Item.token).getLast?, token ≠ .comma := by
        intro token htoken
        apply hlast
        rw [List.map_cons]
        exact List.mem_getLast?_cons htoken
      rw [List.flatMap_cons, List.append_assoc,
        strip_item (hscalars item List.mem_cons_self) hcomma,
        ih hrest (List.isChain_cons.mp hchain).2 hlastRest, List.flatMap_cons, List.flatMap_append,
        List.append_assoc]

theorem strip_tail (d : Decoration) :
    stripFrom .plain
        (gapText d.gap ++
          match d.comment with
          | none => []
          | some text => '/' :: '/' :: text) = tailBlanks d := by
  rw [strip_gap, tailBlanks]
  cases hcomment : d.comment with
  | none => rfl
  | some text =>
      dsimp only
      rw [stripFrom_openLine, strip_lastLine (d.oneLine text hcomment)]

theorem isBlanks_tail (d : Decoration) : IsBlanks (tailBlanks d) := by
  refine isBlanks_append (isBlanks_gap d.gap) ?_
  cases d.comment with
  | none => exact fun c hc => absurd hc List.not_mem_nil
  | some text => exact isBlanks_append isBlanks_spaces (isBlanks_flatMap fun c _ => isBlanks_blanked c)

theorem item_blanks (item : Item) : ∀ s ∈ item.stripped, IsBlanks s.blanks := by
  have hspace : IsBlanks [' '] := fun c hc => isBlanks_spaces c (List.mem_cons_of_mem _ hc)
  intro s hs
  unfold Item.stripped at hs
  split at hs
  · rw [List.mem_singleton.mp hs]
    exact isBlanks_gap item.gap
  · rename_i gap _
    split at hs
    · rw [List.mem_singleton.mp hs]
      exact isBlanks_append (isBlanks_gap item.gap) (isBlanks_append hspace (isBlanks_gap gap))
    · cases List.mem_cons.mp hs with
      | inl heq =>
          rw [heq]
          exact isBlanks_gap item.gap
      | inr hs =>
          rw [List.mem_singleton.mp hs]
          exact isBlanks_gap gap

theorem leftTokens_of_plain {item : Item} (h : ∀ gap ∈ item.trailing, isPlainGap gap = true) :
    item.leftTokens = [item.token] := by
  unfold Item.leftTokens Item.stripped
  split
  · rfl
  · rename_i gap hgap
    rw [if_pos (h gap hgap)]
    rfl

/-- A hidden bracket leaves its comma. -/
theorem leftTokens_of_hidden {item : Item} {gap : Gap} (hgap : item.trailing = some gap)
    (h : isPlainGap gap = false) : item.leftTokens = [.comma, item.token] := by
  unfold Item.leftTokens Item.stripped
  rw [hgap]
  dsimp only
  rw [h]
  rfl

theorem leftTokens_cases (item : Item) :
    item.leftTokens = [item.token] ∨
      (item.leftTokens = [.comma, item.token] ∧ item.token.closes = true) := by
  cases htrailing : item.trailing with
  | none =>
      left
      apply leftTokens_of_plain
      intro gap hgap
      rw [htrailing] at hgap
      cases hgap
  | some gap =>
      cases hplain : isPlainGap gap with
      | true =>
          left
          apply leftTokens_of_plain
          intro other hother
          rw [htrailing] at hother
          cases hother
          exact hplain
      | false =>
          right
          refine ⟨leftTokens_of_hidden htrailing hplain, item.closes ?_⟩
          rw [htrailing]
          exact Option.some_ne_none gap

theorem not_scalar_of_closes {token : Token} (h : token.closes = true) : token.isScalar = false := by
  cases token with
  | scalar text => cases h
  | openObject | closeObject | openArray | closeArray | colon | comma => rfl

/-- The commas that are left are no scalars. -/
theorem leftTokens_scalars (items : List Item) :
    (items.flatMap Item.leftTokens).filter Token.isScalar =
      (items.map Item.token).filter Token.isScalar := by
  induction items with
  | nil => rfl
  | cons item items ih =>
      rw [List.flatMap_cons, List.filter_append, ih, List.map_cons, ← List.singleton_append,
        List.filter_append]
      cases leftTokens_cases item with
      | inl h => rw [h]
      | inr h =>
          rw [h.1]
          rfl

theorem leftTokens_chain {items : List Item} (h : (items.map Item.token).IsChain Json.Follows) :
    (items.flatMap Item.leftTokens).IsChain fun left right =>
      ¬ (left.isScalar = true ∧ right.isScalar = true) := by
  induction items with
  | nil => exact List.isChain_nil
  | cons item items ih =>
      have hchain := List.isChain_cons.mp h
      have hnext : ∀ next ∈ (items.flatMap Item.leftTokens).head?,
          ¬ (item.token.isScalar = true ∧ next.isScalar = true) := by
        intro next hnext
        cases items with
        | nil => cases hnext
        | cons other items =>
            rw [List.flatMap_cons] at hnext
            cases leftTokens_cases other with
            | inl hleft =>
                rw [hleft] at hnext
                cases hnext
                exact (hchain.1 other.token rfl).2
            | inr hleft =>
                rw [hleft.1] at hnext
                cases hnext
                exact fun hboth => Bool.false_ne_true hboth.2
      have hrest := List.isChain_cons.mpr ⟨hnext, ih hchain.2⟩
      rw [List.flatMap_cons]
      cases leftTokens_cases item with
      | inl hleft =>
          rw [hleft]
          exact hrest
      | inr hleft =>
          rw [hleft.1]
          refine List.isChain_cons.mpr ⟨?_, hrest⟩
          exact fun next _ hboth => Bool.false_ne_true hboth.1

end Items

section Parsed

theorem stripped_tokens (items : List Item) :
    (items.flatMap Item.stripped).map Spaced.token = items.flatMap Item.leftTokens := by
  rw [List.map_flatMap]
  rfl

/-- The tokens of a text whose comments and trailing commas are blanked. -/
theorem lex_strip (d : Decoration) (h : Wellformed d.tokens) :
    lex (stripFrom .plain d.text) = some (d.items.flatMap Item.leftTokens) := by
  have hscalars : ∀ item ∈ d.items, ∀ text, item.token = .scalar text → IsScalar text := by
    intro item hitem text htext
    apply h.scalars
    rw [← htext]
    exact List.mem_map_of_mem hitem
  have hlast : ∀ token ∈ (d.items.map Item.token).getLast?, token ≠ .comma := by
    obtain ⟨last, hlast, hcomma⟩ := h.last
    intro token htoken
    rw [Decoration.tokens] at hlast
    rw [Option.mem_def.mp hlast] at htoken
    cases htoken
    exact hcomma
  rw [Decoration.text, strip_items _ hscalars h.chain hlast, strip_tail, ← stripped_tokens]
  apply Json.lex_written
  · intro s hs
    obtain ⟨item, _, hs⟩ := List.mem_flatMap.mp hs
    exact item_blanks item s hs
  · exact isBlanks_tail d
  · intro s hs text htext
    have hmem : .scalar text ∈ (d.items.flatMap Item.leftTokens).filter Token.isScalar := by
      rw [List.mem_filter, ← stripped_tokens, ← htext]
      refine ⟨List.mem_map_of_mem hs, ?_⟩
      rw [htext]
      rfl
    rw [leftTokens_scalars] at hmem
    exact h.scalars text (List.mem_of_mem_filter hmem)
  · rw [stripped_tokens]
    exact leftTokens_chain h.chain

theorem leftTokens_plain {d : Decoration} (h : d.Plain) :
    d.items.flatMap Item.leftTokens = d.tokens := by
  have heach : ∀ item ∈ d.items, item.leftTokens = [item.token] := by
    intro item hitem
    apply leftTokens_of_plain
    intro gap hgap
    rw [isPlainGap, List.all_eq_true]
    intro g hg
    rw [h item hitem gap hgap g hg]
    rfl
  rw [Decoration.tokens, List.map_eq_flatMap, List.flatMap_congr heach]

/-- A comma that is left before a bracket belongs to no value. -/
theorem plain_of_wellformed {d : Decoration}
    (h : Wellformed (d.items.flatMap Item.leftTokens)) : d.Plain := by
  intro item hitem gap hgap
  by_contra hcomment
  have hplain : isPlainGap gap = false := by
    rw [isPlainGap, Bool.eq_false_iff]
    intro hall
    apply hcomment
    intro g hg
    have hnot := List.all_eq_true.mp hall g hg
    simpa using hnot
  have hcloses := item.closes (by rw [Option.mem_def.mp hgap]; exact Option.some_ne_none gap)
  obtain ⟨front, back, hitems⟩ := List.append_of_mem hitem
  have hchain := h.chain
  rw [hitems, List.flatMap_append, List.flatMap_cons, leftTokens_of_hidden hgap hplain] at hchain
  have hpair := (List.isChain_append.mp hchain).2.1
  exact ((List.isChain_cons.mp hpair).1 item.token rfl).1 ⟨rfl, hcloses⟩

/-- The scalars of a decorated text are always kept; its value is the value of
the plain text exactly if no comment hides a bracket from its trailing comma. -/
theorem strip_jsonc_parses_iff {scalar : List Char → Option Json} {J : List Char} {v : Json}
    (hJ : Parses scalar J v) (d : Decoration) (hd : lex J = some d.tokens) :
    (∃ tokens, lex (stripJsonc (String.ofList d.text)).toList = some tokens ∧
        tokens.filter Token.isScalar = d.tokens.filter Token.isScalar) ∧
      ((∀ w, Parses scalar (stripJsonc (String.ofList d.text)).toList w ↔ Parses scalar J w) ↔
        d.Plain) := by
  obtain ⟨tokens, htokens, hv⟩ := hJ
  have heq : tokens = d.tokens := Option.some.inj (htokens.symm.trans hd)
  have hlex : lex (stripJsonc (String.ofList d.text)).toList =
      some (d.items.flatMap Item.leftTokens) := by
    rw [stripJsonc, String.toList_ofList, String.toList_ofList]
    apply lex_strip
    rw [← heq]
    exact Json.derives_wellformed hv
  refine ⟨⟨_, hlex, leftTokens_scalars d.items⟩, ⟨?_, ?_⟩⟩
  · intro hvalues
    obtain ⟨left, hleft, hw⟩ := (hvalues v).mpr ⟨tokens, htokens, hv⟩
    rw [hlex] at hleft
    cases hleft
    exact plain_of_wellformed (Json.derives_wellformed hw)
  · intro hplain w
    unfold Parses
    rw [hlex, hd, leftTokens_plain hplain]

/-- A string without escapes, or a number. -/
def sampleScalar : List Char → Option Json
  | '"' :: cs => some (.string (String.ofList cs.dropLast))
  | cs => some (.number (String.ofList cs))

def sampleTokens : List Token :=
  [.openObject, .scalar ['"', 'a', '"'], .colon, .scalar ['1'], .closeObject]

def sampleValue : Json := .object [("a", .number "1")]

theorem sample_derives : Derives sampleScalar sampleTokens sampleValue := by
  have hbody : StringBody ['a'] := .char (by decide) (by decide) .nil
  have hkey : IsScalar ['"', 'a', '"'] := .quoted hbody
  have hone : IsScalar ['1'] := .bare (List.cons_ne_nil _ _) (List.all_eq_true.mp (by decide))
  refine Derives.object [⟨['"', 'a', '"'], "a", [.scalar ['1']], .number "1"⟩] ?_ ?_
  · intro m hm
    cases List.mem_singleton.mp hm
    exact .scalar hone rfl
  · intro m hm
    cases List.mem_singleton.mp hm
    exact ⟨hkey, rfl⟩

theorem sample_parses : Parses sampleScalar "\x7b\"a\":1\x7d".toList sampleValue :=
  ⟨sampleTokens, by decide +kernel, sample_derives⟩

def bareItem (token : Token) : Item := ⟨[], none, token, fun h => absurd rfl h⟩

/-- The object with a trailing comma; a gap stands between it and the bracket. -/
def sampleDecoration (gap : Gap) : Decoration where
  items :=
    [bareItem .openObject, ⟨[.line "/*".toList (by decide +kernel)], none, .scalar ['"', 'a', '"'],
        fun h => absurd rfl h⟩,
      bareItem .colon, bareItem (.scalar ['1']), ⟨[], some gap, .closeObject, fun _ => rfl⟩]
  gap := []
  comment := some ['c']
  oneLine text h := by
    cases h
    decide

theorem trailing_comma_stripped :
    Parses sampleScalar
      (stripJsonc (String.ofList (sampleDecoration [.blank '\n' rfl]).text)).toList sampleValue := by
  have hplain : (sampleDecoration [.blank '\n' rfl]).Plain := by decide
  exact ((strip_jsonc_parses_iff sample_parses _ (by decide +kernel)).2.mpr hplain sampleValue).mpr
    sample_parses

theorem commented_trailing_comma_kept :
    ∃ (scalar : List Char → Option Json) (J : List Char) (v : Json) (d : Decoration),
      Parses scalar J v ∧ lex J = some d.tokens ∧
        String.ofList d.text = "\x7b///*\n\"a\":1,//\n\x7d//c" ∧
        ∀ w, ¬ Parses scalar (stripJsonc (String.ofList d.text)).toList w := by
  refine ⟨sampleScalar, "\x7b\"a\":1\x7d".toList, sampleValue, sampleDecoration [.line [] (by decide)],
    sample_parses, by decide +kernel, by decide +kernel, ?_⟩
  intro w hw
  obtain ⟨tokens, htokens, hw⟩ := hw
  have hlex : lex (stripJsonc (String.ofList
      (sampleDecoration [.line [] (by decide)]).text)).toList =
      some [.openObject, .scalar ['"', 'a', '"'], .colon, .scalar ['1'], .comma, .closeObject] := by
    decide +kernel
  rw [hlex] at htokens
  cases htokens
  have hchain := (Json.derives_wellformed hw).chain
  simp [Json.Follows, Token.closes] at hchain

end Parsed

end Snpm.Compat.Bun
