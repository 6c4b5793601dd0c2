import Mathlib

/-!
Token recognition of the POSIX shell. A text is read character by character;
quoting makes a character literal, and an unquoted character that the shell acts
on stays marked in its word or becomes a control token. Later expansions act on
marked characters only, so a word without marks is passed on as it is. Bodies of
here-documents are not told apart.
-/
namespace Shell

inductive WordChar where
  | literal (c : Char)
  | active (c : Char)
deriving DecidableEq

inductive Token where
  | word (chars : List WordChar)
  | control (c : Char)
deriving DecidableEq

/-- The word that stands for exactly this text. -/
def Token.plain (cs : List Char) : Token := .word (cs.map .literal)

inductive Mode where
  | plain
  | escaped
  | single
  | double
  | doubleEscaped
  | comment
deriving DecidableEq

structure Scan where
  mode : Mode
  word : Option (List WordChar)
  done : List Token
deriving DecidableEq

def isBlank (c : Char) : Bool := c == ' ' || c == '\t'

def isOperator (c : Char) : Bool :=
  c == '|' || c == '&' || c == ';' || c == '<' || c == '>' || c == '(' || c == ')'

def backquote : Char := Char.ofNat 96

/-- Characters that start an expansion. -/
def isActive (c : Char) : Bool :=
  c == '$' || c == backquote || c == '*' || c == '?' || c == '[' || c == '~'

def Scan.push (s : Scan) (c : WordChar) : Scan := { s with word := some (s.word.getD [] ++ [c]) }

/-- End the current word. -/
def Scan.delimit (s : Scan) : Scan :=
  match s.word with
  | none => s
  | some chars => { s with word := none, done := s.done ++ [.word chars] }

def Scan.quote (s : Scan) (mode : Mode) : Scan := { s with mode := mode, word := some (s.word.getD []) }

def Scan.enter (s : Scan) (mode : Mode) : Scan := { s with mode := mode }

def Scan.control (s : Scan) (c : Char) : Scan := { s with done := s.done ++ [.control c] }

def stepPlain (s : Scan) (c : Char) : Scan :=
  if isBlank c then s.delimit
  else if c = '\n' || isOperator c then s.delimit.control c
  else if c = '\'' then s.quote .single
  else if c = '"' then s.quote .double
  else if c = '\\' then s.enter .escaped
  else if c = '#' && s.word.isNone then s.enter .comment
  else if isActive c then s.push (.active c)
  else s.push (.literal c)

def step (s : Scan) (c : Char) : Scan :=
  match s.mode with
  | .plain => stepPlain s c
  | .escaped => if c = '\n' then s.enter .plain else (s.push (.literal c)).enter .plain
  | .single => if c = '\'' then s.enter .plain else s.push (.literal c)
  | .double =>
      if c = '"' then s.enter .plain
      else if c = '\\' then s.enter .doubleEscaped
      else if c = '$' || c = backquote then s.push (.active c)
      else s.push (.literal c)
  | .doubleEscaped =>
      if c = '\n' then s.enter .double
      else if c = '$' || c = backquote || c = '"' || c = '\\' then (s.push (.literal c)).enter .double
      else ((s.push (.literal '\\')).push (.literal c)).enter .double
  | .comment => if c = '\n' then (s.enter .plain).control c else s

def scanFrom (s : Scan) (cs : List Char) : Scan := cs.foldl step s

def scan (cs : List Char) : Scan := scanFrom ⟨.plain, none, []⟩ cs

/-- The tokens of a complete text; `none` when a quotation is open at its end. -/
def tokens (cs : List Char) : Option (List Token) :=
  let s := scan cs
  match s.mode with
  | .plain => some s.delimit.done
  | .comment => some s.delimit.done
  | _ => none

theorem scanFrom_append (s : Scan) (cs ds : List Char) :
    scanFrom s (cs ++ ds) = scanFrom (scanFrom s cs) ds := List.foldl_append

theorem scanFrom_cons (s : Scan) (c : Char) (cs : List Char) :
    scanFrom s (c :: cs) = scanFrom (step s c) cs := rfl

/-- The word that is being read after some text was added to it. -/
def Scan.read (s : Scan) (cs : List Char) : Scan :=
  { s with word := some (s.word.getD [] ++ cs.map .literal) }

theorem Scan.read_read (s : Scan) (cs ds : List Char) : (s.read cs).read ds = s.read (cs ++ ds) := by
  simp [Scan.read]

theorem Scan.push_literal (s : Scan) (c : Char) : s.push (.literal c) = s.read [c] := rfl

theorem Scan.delimit_read (done : List Token) (cs : List Char) :
    ((⟨.plain, none, done⟩ : Scan).read cs).delimit = ⟨.plain, none, done ++ [.plain cs]⟩ := by
  simp [Scan.read, Scan.delimit, Token.plain]

theorem tokens_of_plain {cs : List Char} (h : (scan cs).mode = .plain) :
    tokens cs = some (scan cs).delimit.done := by
  simp only [tokens, h]

/-- A character that means itself outside of quotations. -/
def IsPlain (c : Char) : Prop :=
  isBlank c = false ∧ c ≠ '\n' ∧ isOperator c = false ∧ c ≠ '\'' ∧ c ≠ '"' ∧ c ≠ '\\' ∧ c ≠ '#' ∧
    isActive c = false

theorem step_plain {s : Scan} {c : Char} (hmode : s.mode = .plain) (h : IsPlain c) :
    step s c = s.read [c] := by
  obtain ⟨hblank, hline, hop, hsingle, hdouble, hslash, hmark, hactive⟩ := h
  simp [step, hmode, stepPlain, hblank, hline, hop, hsingle, hdouble, hslash, hmark, hactive,
    Scan.push_literal]

/-- Plain characters are read as they stand. -/
theorem scanFrom_plain {s : Scan} {cs : List Char} (hmode : s.mode = .plain)
    (h : ∀ c ∈ cs, IsPlain c) (hne : cs ≠ []) : scanFrom s cs = s.read cs := by
  induction cs generalizing s with
  | nil => exact absurd rfl hne
  | cons c cs ih =>
      rw [scanFrom_cons, step_plain hmode (h c List.mem_cons_self)]
      cases cs with
      | nil => rfl
      | cons d cs =>
          have hread : (s.read [c]).mode = .plain := hmode
          rw [ih hread (fun x hx => h x (List.mem_cons_of_mem _ hx)) (List.cons_ne_nil _ _),
            Scan.read_read]
          rfl

end Shell
