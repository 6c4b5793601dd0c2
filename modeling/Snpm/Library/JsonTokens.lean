import Mathlib
import Snpm.Library.Json
import Snpm.Library.TextParts

/-!
The tokens of a JSON text and the grammar over them. The scalars keep their text;
what they denote is given from outside.
-/
namespace Json

inductive Token where
  | openObject
  | closeObject
  | openArray
  | closeArray
  | colon
  | comma
  | scalar (text : List Char)
deriving DecidableEq

namespace Token

def text : Token → List Char
  | openObject => ['\x7b']
  | closeObject => ['\x7d']
  | openArray => ['[']
  | closeArray => [']']
  | colon => [':']
  | comma => [',']
  | scalar text => text

def closes : Token → Bool
  | closeObject | closeArray => true
  | _ => false

def isScalar : Token → Bool
  | scalar _ => true
  | _ => false

end Token

section Lexer

def isBlank (c : Char) : Bool := c = ' ' || c = '\t' || c = '\n' || c = '\r'

def punctuation (c : Char) : Option Token :=
  if c = '\x7b' then some .openObject
  else if c = '\x7d' then some .closeObject
  else if c = '[' then some .openArray
  else if c = ']' then some .closeArray
  else if c = ':' then some .colon
  else if c = ',' then some .comma
  else none

/-- What the lexer is in the middle of, with the characters read so far in
reverse. -/
inductive LexState where
  | between
  | bare (read : List Char)
  | quoted (read : List Char)
  | escaped (read : List Char)

/-- The tokens of the rest of a text; none in the middle of a string at the end. -/
def lexFrom : LexState → List Char → Option (List Token)
  | .between, [] => some []
  | .between, c :: cs =>
      if isBlank c then lexFrom .between cs
      else if c = '"' then lexFrom (.quoted [c]) cs
      else
        match punctuation c with
        | some token => (lexFrom .between cs).map (token :: ·)
        | none => lexFrom (.bare [c]) cs
  | .bare read, [] => some [.scalar read.reverse]
  | .bare read, c :: cs =>
      if isBlank c then (lexFrom .between cs).map (.scalar read.reverse :: ·)
      else if c = '"' then (lexFrom (.quoted [c]) cs).map (.scalar read.reverse :: ·)
      else
        match punctuation c with
        | some token => (lexFrom .between cs).map (.scalar read.reverse :: token :: ·)
        | none => lexFrom (.bare (c :: read)) cs
  | .quoted _, [] => none
  | .quoted read, c :: cs =>
      if c = '\\' then lexFrom (.escaped (c :: read)) cs
      else if c = '"' then (lexFrom .between cs).map (.scalar (c :: read).reverse :: ·)
      else lexFrom (.quoted (c :: read)) cs
  | .escaped _, [] => none
  | .escaped read, c :: cs => lexFrom (.quoted (c :: read)) cs

/-! One equation for each state, so that no later proof unfolds the function. -/

theorem lexFrom_between (c : Char) (cs : List Char) : lexFrom .between (c :: cs) =
    if isBlank c then lexFrom .between cs
    else if c = '"' then lexFrom (.quoted [c]) cs
    else
      match punctuation c with
      | some token => (lexFrom .between cs).map (token :: ·)
      | none => lexFrom (.bare [c]) cs := rfl

theorem lexFrom_bare (read : List Char) (c : Char) (cs : List Char) : lexFrom (.bare read) (c :: cs) =
    if isBlank c then (lexFrom .between cs).map (.scalar read.reverse :: ·)
    else if c = '"' then (lexFrom (.quoted [c]) cs).map (.scalar read.reverse :: ·)
    else
      match punctuation c with
      | some token => (lexFrom .between cs).map (.scalar read.reverse :: token :: ·)
      | none => lexFrom (.bare (c :: read)) cs := rfl

theorem lexFrom_quotedChar (read : List Char) (c : Char) (cs : List Char) :
    lexFrom (.quoted read) (c :: cs) =
      if c = '\\' then lexFrom (.escaped (c :: read)) cs
      else if c = '"' then (lexFrom .between cs).map (.scalar (c :: read).reverse :: ·)
      else lexFrom (.quoted (c :: read)) cs := rfl

theorem lexFrom_escaped (read : List Char) (c : Char) (cs : List Char) :
    lexFrom (.escaped read) (c :: cs) = lexFrom (.quoted (c :: read)) cs := rfl

def lex (text : List Char) : Option (List Token) := lexFrom .between text

end Lexer

section Grammar

/-- What stands between the quotes of a string. -/
inductive StringBody : List Char → Prop where
  | nil : StringBody []
  | char {c : Char} {cs : List Char} (hquote : c ≠ '"') (hescape : c ≠ '\\') (h : StringBody cs) :
      StringBody (c :: cs)
  | escape (c : Char) {cs : List Char} (h : StringBody cs) : StringBody ('\\' :: c :: cs)

def isBareChar (c : Char) : Bool := Text.isAsciiAlphanumeric c || c = '+' || c = '-' || c = '.'

/-- A string with its quotes, or a number or literal. -/
inductive IsScalar : List Char → Prop where
  | quoted {body : List Char} (h : StringBody body) : IsScalar ('"' :: (body ++ ['"']))
  | bare {text : List Char} (hne : text ≠ []) (h : ∀ c ∈ text, isBareChar c = true) : IsScalar text

structure Member where
  key : List Char
  name : String
  tokens : List Token
  value : Json

def Member.all (m : Member) : List Token := .scalar m.key :: .colon :: m.tokens

/-- The tokens of a value. `scalar` reads a scalar; a name is a string scalar. -/
inductive Derives (scalar : List Char → Option Json) : List Token → Json → Prop where
  | scalar {text : List Char} {v : Json} (h : IsScalar text) (hv : scalar text = some v) :
      Derives scalar [.scalar text] v
  | array (items : List (List Token × Json)) (h : ∀ item ∈ items, Derives scalar item.1 item.2) :
      Derives scalar
        (.openArray :: (List.intercalate [.comma] (items.map (·.1)) ++ [.closeArray]))
        (.array (items.map (·.2)))
  | object (members : List Member) (h : ∀ m ∈ members, Derives scalar m.tokens m.value)
      (hkey : ∀ m ∈ members, IsScalar m.key ∧ scalar m.key = some (.string m.name)) :
      Derives scalar
        (.openObject :: (List.intercalate [.comma] (members.map Member.all) ++ [.closeObject]))
        (.object (members.map fun m => (m.name, m.value)))

/-- A text is read as a value. -/
def Parses (scalar : List Char → Option Json) (text : List Char) (v : Json) : Prop :=
  ∃ tokens, lex text = some tokens ∧ Derives scalar tokens v

end Grammar

section Wellformed

/-- No comma comes right before a closing bracket, and no two scalars meet. -/
def Follows (left right : Token) : Prop :=
  ¬ (left = .comma ∧ right.closes = true) ∧ ¬ (left.isScalar = true ∧ right.isScalar = true)

/-- Tokens that start with a value or a key and end with a value. -/
structure Wellformed (tokens : List Token) : Prop where
  chain : tokens.IsChain Follows
  first : ∃ token ∈ tokens.head?, token.closes = false ∧ token ≠ .comma
  last : ∃ token ∈ tokens.getLast?, token ≠ .comma
  scalars : ∀ text, .scalar text ∈ tokens → IsScalar text

variable {scalar : List Char → Option Json} {tokens : List Token} {v : Json}

theorem follows_of_open {left right : Token} (hcomma : left ≠ .comma)
    (hscalar : left.isScalar = false) : Follows left right :=
  ⟨fun h => hcomma h.1, fun h => absurd h.1 (by simp [hscalar])⟩

theorem wellformed_scalar {text : List Char} (h : IsScalar text) :
    Wellformed [.scalar text] where
  chain := List.isChain_singleton _
  first := ⟨_, rfl, rfl, Token.noConfusion⟩
  last := ⟨_, rfl, Token.noConfusion⟩
  scalars other hmem := by
    cases List.mem_singleton.mp hmem
    exact h

/-- Tokens on the two sides of a comma or a colon. -/
theorem wellformed_join {left right : List Token} {sep : Token} (hcloses : sep.closes = false)
    (hscalar : sep.isScalar = false) (hleft : Wellformed left) (hright : Wellformed right) :
    Wellformed (left ++ sep :: right) := by
  obtain ⟨first, hfirst, hfirstToken⟩ := hleft.first
  obtain ⟨last, hlast, hlastToken⟩ := hright.last
  obtain ⟨head, hhead, hheadToken⟩ := hright.first
  refine ⟨?_, ⟨first, ?_, hfirstToken⟩, ⟨last, ?_, hlastToken⟩, ?_⟩
  · refine hleft.chain.append (List.isChain_cons.mpr ⟨?_, hright.chain⟩) ?_
    · intro next hnext
      rw [Option.mem_def.mp hhead] at hnext
      cases hnext
      exact ⟨fun h => absurd h.2 (by simp [hheadToken.1]), fun h => absurd h.1 (by simp [hscalar])⟩
    · intro before _ next hnext
      cases hnext
      exact ⟨fun h => absurd h.2 (by simp [hcloses]), fun h => absurd h.2 (by simp [hscalar])⟩
  · rw [List.head?_append_of_ne_nil]
    · exact hfirst
    · intro hnil
      rw [hnil] at hfirst
      cases hfirst
  · rw [List.getLast?_append_of_ne_nil _ (List.cons_ne_nil sep right), List.getLast?_cons_of_ne_nil]
    · exact hlast
    · intro hnil
      rw [hnil] at hlast
      cases hlast
  · intro text hmem
    cases List.mem_append.mp hmem with
    | inl hmem => exact hleft.scalars text hmem
    | inr hmem =>
        cases List.mem_cons.mp hmem with
        | inl heq =>
            rw [← heq] at hscalar
            cases hscalar
        | inr hmem => exact hright.scalars text hmem

/-- Values that are separated by commas. -/
theorem wellformed_intercalate {parts : List (List Token)} (hne : parts ≠ [])
    (h : ∀ part ∈ parts, Wellformed part) : Wellformed (List.intercalate [.comma] parts) := by
  induction parts with
  | nil => exact absurd rfl hne
  | cons part parts ih =>
      have hpart := h part List.mem_cons_self
      cases parts with
      | nil =>
          rw [List.intercalate_singleton]
          exact hpart
      | cons next parts =>
          have hrest := ih (List.cons_ne_nil next parts)
            fun other hmem => h other (List.mem_cons_of_mem part hmem)
          rw [List.intercalate_cons_cons, List.append_assoc]
          exact wellformed_join rfl rfl hpart hrest

theorem wellformed_wrap {opening closing : Token} {body : List Token}
    (hopening : opening.closes = false ∧ opening ≠ .comma ∧ opening.isScalar = false)
    (hclosing : closing ≠ .comma ∧ closing.isScalar = false)
    (hbody : body = [] ∨ Wellformed body) : Wellformed (opening :: (body ++ [closing])) := by
  have hchain : (body ++ [closing]).IsChain Follows := by
    cases hbody with
    | inl hnil =>
        rw [hnil]
        exact List.isChain_singleton closing
    | inr hbody =>
        refine hbody.chain.append (List.isChain_singleton closing) ?_
        intro before hbefore next hnext
        cases hnext
        obtain ⟨last, hlast, hcomma⟩ := hbody.last
        rw [Option.mem_def.mp hlast] at hbefore
        cases hbefore
        exact ⟨fun h => hcomma h.1, fun h => absurd h.2 (by simp [hclosing.2])⟩
  refine ⟨?_, ⟨opening, rfl, hopening.1, hopening.2.1⟩, ⟨closing, ?_, hclosing.1⟩, ?_⟩
  · refine List.isChain_cons.mpr ⟨?_, hchain⟩
    intro next _
    exact follows_of_open hopening.2.1 hopening.2.2
  · rw [← List.cons_append, List.getLast?_concat]
    rfl
  · intro text hmem
    cases List.mem_cons.mp hmem with
    | inl heq =>
        rw [← heq] at hopening
        cases hopening.2.2
    | inr hmem =>
        cases List.mem_append.mp hmem with
        | inl hmem =>
            cases hbody with
            | inl hnil =>
                rw [hnil] at hmem
                cases hmem
            | inr hbody => exact hbody.scalars text hmem
        | inr hmem =>
            rw [← List.mem_singleton.mp hmem] at hclosing
            cases hclosing.2

theorem intercalate_nil_or {parts : List (List Token)} (h : ∀ part ∈ parts, Wellformed part) :
    List.intercalate [.comma] parts = [] ∨ Wellformed (List.intercalate [.comma] parts) := by
  cases parts with
  | nil => exact .inl rfl
  | cons part parts => exact .inr (wellformed_intercalate (List.cons_ne_nil part parts) h)

theorem derives_wellformed (h : Derives scalar tokens v) : Wellformed tokens := by
  induction h with
  | scalar h hv => exact wellformed_scalar h
  | array items h ih =>
      refine wellformed_wrap ⟨rfl, Token.noConfusion, rfl⟩ ⟨Token.noConfusion, rfl⟩
        (intercalate_nil_or ?_)
      intro part hpart
      obtain ⟨item, hitem, rfl⟩ := List.mem_map.mp hpart
      exact ih item hitem
  | object members h hkey ih =>
      refine wellformed_wrap ⟨rfl, Token.noConfusion, rfl⟩ ⟨Token.noConfusion, rfl⟩
        (intercalate_nil_or ?_)
      intro part hpart
      obtain ⟨m, hm, rfl⟩ := List.mem_map.mp hpart
      exact wellformed_join rfl rfl (wellformed_scalar (hkey m hm).1) (ih m hm)

end Wellformed

section Written

/-- A token and the blanks before it. -/
structure Spaced where
  blanks : List Char
  token : Token

def Spaced.text (s : Spaced) : List Char := s.blanks ++ s.token.text

def IsBlanks (cs : List Char) : Prop := ∀ c ∈ cs, isBlank c = true

def isDelimiter (c : Char) : Bool := isBlank c || c = '"' || (punctuation c).isSome

theorem lexFrom_blanks {blanks rest : List Char} (h : IsBlanks blanks) :
    lexFrom .between (blanks ++ rest) = lexFrom .between rest := by
  induction blanks with
  | nil => rfl
  | cons c blanks ih =>
      rw [List.cons_append, lexFrom_between, if_pos (h c List.mem_cons_self)]
      exact ih fun d hd => h d (List.mem_cons_of_mem c hd)

theorem lexFrom_punctuation {token : Token} (h : token.isScalar = false) (rest : List Char) :
    lexFrom .between (token.text ++ rest) = (lexFrom .between rest).map (token :: ·) := by
  cases token with
  | scalar => cases h
  | openObject | closeObject | openArray | closeArray | colon | comma => rfl

/-- A number or a literal ends where a delimiter stands. -/
theorem lexFrom_bare_end (read : List Char) {rest : List Char}
    (h : ∀ c ∈ rest.head?, isDelimiter c = true) :
    lexFrom (.bare read) rest = (lexFrom .between rest).map (.scalar read.reverse :: ·) := by
  cases rest with
  | nil => rfl
  | cons c cs =>
      rw [lexFrom_bare, lexFrom_between]
      cases hblank : isBlank c with
      | true => rfl
      | false =>
          by_cases hquote : c = '"'
          · rw [if_neg Bool.false_ne_true, if_neg Bool.false_ne_true, if_pos hquote, if_pos hquote]
          · rw [if_neg Bool.false_ne_true, if_neg Bool.false_ne_true, if_neg hquote, if_neg hquote]
            cases hpunctuation : punctuation c with
            | some token =>
                dsimp only
                rw [Option.map_map]
                rfl
            | none =>
                have hdelimiter := h c rfl
                rw [isDelimiter, hblank, hpunctuation] at hdelimiter
                simp [hquote] at hdelimiter

theorem isBareChar_ne {c d : Char} (h : isBareChar c = true) (hd : isBareChar d = false) : c ≠ d := by
  intro heq
  rw [heq, hd] at h
  cases h

theorem lexFrom_bare_char {c : Char} (h : isBareChar c = true) (read rest : List Char) :
    lexFrom (.bare read) (c :: rest) = lexFrom (.bare (c :: read)) rest ∧
      lexFrom .between (c :: rest) = lexFrom (.bare [c]) rest := by
  have hblank : isBlank c = false := by
    simp [isBlank, isBareChar_ne h (d := ' ') (by decide), isBareChar_ne h (d := '\t') (by decide),
      isBareChar_ne h (d := '\n') (by decide), isBareChar_ne h (d := '\r') (by decide)]
  have hquote : c ≠ '"' := isBareChar_ne h (by decide)
  have hpunctuation : punctuation c = none := by
    simp [punctuation, isBareChar_ne h (d := '\x7b') (by decide),
      isBareChar_ne h (d := '\x7d') (by decide), isBareChar_ne h (d := '[') (by decide),
      isBareChar_ne h (d := ']') (by decide), isBareChar_ne h (d := ':') (by decide),
      isBareChar_ne h (d := ',') (by decide)]
  constructor
  · rw [lexFrom_bare, if_neg (by simp [hblank]), if_neg hquote, hpunctuation]
  · rw [lexFrom_between, if_neg (by simp [hblank]), if_neg hquote, hpunctuation]

theorem lexFrom_bare_text {text rest : List Char} (h : ∀ c ∈ text, isBareChar c = true)
    (read : List Char) :
    lexFrom (.bare read) (text ++ rest) = lexFrom (.bare (text.reverse ++ read)) rest := by
  induction text generalizing read with
  | nil => rfl
  | cons c text ih =>
      rw [List.cons_append, (lexFrom_bare_char (h c List.mem_cons_self) read _).1,
        ih (fun d hd => h d (List.mem_cons_of_mem c hd)), List.reverse_cons, List.append_assoc]
      rfl

theorem lexFrom_quoted {body : List Char} (h : StringBody body) (read rest : List Char) :
    lexFrom (.quoted read) (body ++ '"' :: rest) =
      (lexFrom .between rest).map (.scalar (read.reverse ++ body ++ ['"']) :: ·) := by
  induction h generalizing read with
  | nil =>
      rw [List.nil_append, lexFrom_quotedChar, if_neg (by decide), if_pos rfl]
      simp
  | @char c cs hquote hescape _ ih =>
      rw [List.cons_append, lexFrom_quotedChar, if_neg hescape, if_neg hquote, ih]
      simp
  | @escape c cs _ ih =>
      rw [List.cons_append, List.cons_append, lexFrom_quotedChar, if_pos rfl, lexFrom_escaped, ih]
      simp

theorem lexFrom_scalar {text rest : List Char} (h : IsScalar text)
    (hrest : ∀ c ∈ rest.head?, isDelimiter c = true) :
    lexFrom .between (text ++ rest) = (lexFrom .between rest).map (.scalar text :: ·) := by
  cases h with
  | @quoted body hbody =>
      have hstart : lexFrom .between ('"' :: (body ++ ['"']) ++ rest) =
          lexFrom (.quoted ['"']) (body ++ '"' :: rest) := by
        rw [List.cons_append, lexFrom_between, if_neg (by decide), if_pos rfl, List.append_assoc]
        rfl
      rw [hstart, lexFrom_quoted hbody]
      rfl
  | bare hne hbare =>
      cases text with
      | nil => exact absurd rfl hne
      | cons c text =>
          rw [List.cons_append, (lexFrom_bare_char (hbare c List.mem_cons_self) [] _).2,
            lexFrom_bare_text (fun d hd => hbare d (List.mem_cons_of_mem c hd)),
            lexFrom_bare_end _ hrest]
          simp

theorem isDelimiter_of_blank {c : Char} (h : isBlank c = true) : isDelimiter c = true := by
  rw [isDelimiter, h]
  rfl

theorem punctuation_head {token : Token} (h : token.isScalar = false) (rest : List Char) :
    ∀ c ∈ (token.text ++ rest).head?, isDelimiter c = true := by
  intro c hc
  cases token with
  | scalar => cases h
  | openObject | closeObject | openArray | closeArray | colon | comma =>
      cases hc
      decide

/-- What follows a scalar starts with a delimiter. -/
theorem head_delimiter {items : List Spaced} {tail : List Char}
    (hblanks : ∀ item ∈ items, IsBlanks item.blanks) (htail : IsBlanks tail)
    (hnext : ∀ next ∈ (items.map Spaced.token).head?, ¬ next.isScalar = true) :
    ∀ c ∈ (items.flatMap Spaced.text ++ tail).head?, isDelimiter c = true := by
  cases items with
  | nil => exact fun c hc => isDelimiter_of_blank (htail c (List.mem_of_mem_head? hc))
  | cons item items =>
      have hitem := hblanks item List.mem_cons_self
      have htoken : item.token.isScalar = false := by simpa using hnext item.token rfl
      rw [List.flatMap_cons, Spaced.text, List.append_assoc, List.append_assoc]
      cases hb : item.blanks with
      | nil => exact punctuation_head htoken _
      | cons b blanks =>
          intro c hc
          cases hc
          rw [hb] at hitem
          exact isDelimiter_of_blank (hitem b List.mem_cons_self)

/-- Tokens that are written with blanks between them are read again. -/
theorem lex_written {items : List Spaced} {tail : List Char}
    (hblanks : ∀ item ∈ items, IsBlanks item.blanks) (htail : IsBlanks tail)
    (hscalars : ∀ item ∈ items, ∀ text, item.token = .scalar text → IsScalar text)
    (hchain : (items.map Spaced.token).IsChain fun left right =>
      ¬ (left.isScalar = true ∧ right.isScalar = true)) :
    lex (items.flatMap Spaced.text ++ tail) = some (items.map Spaced.token) := by
  unfold lex
  induction items with
  | nil =>
      rw [List.flatMap_nil, List.nil_append, ← List.append_nil tail, lexFrom_blanks htail]
      rfl
  | cons item items ih =>
      have ih := ih (fun other hmem => hblanks other (List.mem_cons_of_mem item hmem))
        (fun other hmem => hscalars other (List.mem_cons_of_mem item hmem))
        (List.isChain_cons.mp hchain).2
      rw [List.flatMap_cons, Spaced.text, List.append_assoc, List.append_assoc,
        lexFrom_blanks (hblanks item List.mem_cons_self)]
      cases htoken : item.token.isScalar with
      | false =>
          rw [lexFrom_punctuation htoken, ih]
          rfl
      | true =>
          cases hitem : item.token with
          | scalar text =>
              have hhead := head_delimiter
                (fun other hmem => hblanks other (List.mem_cons_of_mem item hmem)) htail
                (fun next hnext => (not_and.mp ((List.isChain_cons.mp hchain).1 next hnext)) htoken)
              have hlex := lexFrom_scalar (hscalars item List.mem_cons_self text hitem) hhead
              rw [Token.text, hlex, ih, List.map_cons, hitem]
              rfl
          | openObject | closeObject | openArray | closeArray | colon | comma =>
              rw [hitem] at htoken
              cases htoken

end Written

end Json
