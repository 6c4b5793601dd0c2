import Mathlib
import Snpm.Library.ShellTokens
import Snpm.Library.TextParts

/-!
The arguments of `run` and `exec`, appended to a shell command.
-/
namespace Snpm.Run

def isSafe (c : Char) : Bool :=
  Text.isAsciiAlphanumeric c || c == '_' || c == '-' || c == '.' || c == '/' || c == ':' ||
    c == '=' || c == '@' || c == '%' || c == ',' || c == '+'

/-- What a character becomes between single quotes. -/
def escapeQuote (c : Char) : List Char :=
  if c = '\'' then ['\'', '\\', '\'', '\''] else [c]

def quoteArg (arg : String) : String :=
  if arg ≠ "" && arg.toList.all isSafe then arg
  else "'" ++ String.ofList (arg.toList.flatMap escapeQuote) ++ "'"

def joinArgs (args : List String) : String := " ".intercalate (args.map quoteArg)

/-- The command line of a script with its arguments. -/
def commandText (base : String) (args : List String) : String :=
  if args.isEmpty then base
  else (if base = "" then base else base ++ " ") ++ joinArgs args

open Shell

theorem isPlain_of_isSafe {c : Char} (h : isSafe c = true) : IsPlain c := by
  have hne : ∀ d, isSafe d = false → c ≠ d := by
    intro d hd heq
    rw [heq, hd] at h
    cases h
  refine ⟨?_, hne _ (by decide), ?_, hne _ (by decide), hne _ (by decide), hne _ (by decide),
    hne _ (by decide), ?_⟩
  · simp [isBlank, hne ' ' (by decide), hne '\t' (by decide)]
  · simp [isOperator, hne '|' (by decide), hne '&' (by decide), hne ';' (by decide),
      hne '<' (by decide), hne '>' (by decide), hne '(' (by decide), hne ')' (by decide)]
  · simp [isActive, hne '$' (by decide), hne backquote (by decide), hne '*' (by decide),
      hne '?' (by decide), hne '[' (by decide), hne '~' (by decide)]

/-- Between single quotes every character is literal, the escaped quote too. -/
theorem scanFrom_escaped (chars : List WordChar) (done : List Token) (cs : List Char) :
    scanFrom ⟨.single, some chars, done⟩ (cs.flatMap escapeQuote) =
      ⟨.single, some (chars ++ cs.map .literal), done⟩ := by
  induction cs generalizing chars with
  | nil => simp [scanFrom]
  | cons c cs ih =>
      have hchar : scanFrom ⟨.single, some chars, done⟩ (escapeQuote c) =
          ⟨.single, some (chars ++ [.literal c]), done⟩ := by
        by_cases hquote : c = '\''
        · subst hquote
          rfl
        · simp [escapeQuote, hquote, scanFrom, step, Scan.push]
      rw [List.flatMap_cons, scanFrom_append, hchar, ih, List.append_assoc]
      rfl

/-- A quoted argument is read as one word without marks. -/
theorem scanFrom_quoteArg (arg : String) (done : List Token) :
    scanFrom ⟨.plain, none, done⟩ (quoteArg arg).toList =
      ⟨.plain, some (arg.toList.map .literal), done⟩ := by
  rw [quoteArg]
  by_cases hsafe : (arg ≠ "" && arg.toList.all isSafe) = true
  · rw [if_pos hsafe]
    simp only [Bool.and_eq_true, decide_eq_true_eq, List.all_eq_true] at hsafe
    have hne : arg.toList ≠ [] := fun h => hsafe.1 (String.toList_eq_nil_iff.mp h)
    rw [scanFrom_plain rfl (fun c hc => isPlain_of_isSafe (hsafe.2 c hc)) hne]
    simp [Scan.read]
  · rw [if_neg hsafe]
    have htext : ("'" ++ String.ofList (arg.toList.flatMap escapeQuote) ++ "'").toList =
        '\'' :: (arg.toList.flatMap escapeQuote ++ ['\'']) := by
      simp [String.toList_append]
    have hopen : step ⟨.plain, none, done⟩ '\'' = ⟨.single, some [], done⟩ := rfl
    rw [htext, scanFrom_cons, hopen, scanFrom_append, scanFrom_escaped, List.nil_append]
    rfl

theorem joinArgs_cons (arg next : String) (args : List String) :
    (joinArgs (arg :: next :: args)).toList =
      (quoteArg arg).toList ++ ' ' :: (joinArgs (next :: args)).toList := by
  simp [joinArgs, String.intercalate_cons_cons, String.toList_append]

/-- From between two words, the joined arguments are read as their words. -/
theorem scanFrom_joinArgs (args : List String) (done : List Token) :
    (scanFrom ⟨.plain, none, done⟩ (joinArgs args).toList).mode = .plain ∧
      (scanFrom ⟨.plain, none, done⟩ (joinArgs args).toList).delimit.done =
        done ++ args.map fun arg => .plain arg.toList := by
  induction args generalizing done with
  | nil => simp [joinArgs, scanFrom, Scan.delimit]
  | cons arg args ih =>
      cases args with
      | nil =>
          have hone : joinArgs [arg] = quoteArg arg := by simp [joinArgs]
          rw [hone, scanFrom_quoteArg]
          exact ⟨rfl, rfl⟩
      | cons next args =>
          have hblank : step ⟨.plain, some (arg.toList.map .literal), done⟩ ' ' =
              ⟨.plain, none, done ++ [.plain arg.toList]⟩ := rfl
          obtain ⟨hmode, hdone⟩ := ih (done ++ [.plain arg.toList])
          rw [joinArgs_cons, scanFrom_append, scanFrom_quoteArg, scanFrom_cons, hblank]
          exact ⟨hmode, by rw [hdone, List.append_assoc]; rfl⟩

theorem step_blank {s : Scan} (h : s.mode = .plain) : step s ' ' = ⟨.plain, none, s.delimit.done⟩ := by
  obtain ⟨mode, word, done⟩ := s
  subst h
  cases word with
  | none => rfl
  | some chars => rfl

theorem tokens_joinArgs (args : List String) :
    tokens (joinArgs args).toList = some (args.map fun arg => .plain arg.toList) := by
  obtain ⟨hmode, hdone⟩ := scanFrom_joinArgs args []
  rw [tokens_of_plain hmode, scan, hdone, List.nil_append]

end Snpm.Run
