import Mathlib
import Snpm.Lockfile.Compat.Yarn

/-!
The format of a classic `yarn.lock`, and that the importer reads the blocks of a
text in that format. Texts may stand in quotes; the quotes of the name of a
dependency stay in the block that is read.
-/
namespace Snpm.Compat.Yarn

section Format

/-- What may be written without quotes. -/
structure IsBare (text : String) : Prop where
  nonempty : text ≠ ""
  word : ∀ c ∈ text.toList, Text.isWhitespace c = false
  plain : ∀ c ∈ text.toList, c ≠ '"' ∧ c ≠ ':'
  start : text.toList.head? ≠ some '\''

theorem isBare_of_all {text : String} (hne : text ≠ "") (hstart : text.toList.head? ≠ some '\'')
    (h : text.toList.all (fun c => !Text.isWhitespace c && c ≠ '"' && c ≠ ':') = true) :
    IsBare text := by
  have hall : ∀ c ∈ text.toList, Text.isWhitespace c = false ∧ c ≠ '"' ∧ c ≠ ':' := by
    intro c hc
    have hchar := List.all_eq_true.mp h c hc
    simpa [and_assoc] using hchar
  exact ⟨hne, fun c hc => (hall c hc).1, fun c hc => (hall c hc).2, hstart⟩

inductive Token where
  | bare (text : String) (h : IsBare text)
  | quoted (text : String) (h : '"' ∉ text.toList)

def Token.text : Token → String
  | .bare text _ => text
  | .quoted text _ => text

def Token.written : Token → String
  | .bare text _ => text
  | .quoted text _ => "\"" ++ text ++ "\""

def Token.isBare : Token → Bool
  | .bare _ _ => true
  | .quoted _ _ => false

/-- A line `name range` of a section. -/
structure DependencyLine where
  name : Token
  range : Token
  word : ∀ c ∈ name.text.toList, Text.isWhitespace c = false

def DependencyLine.spec (line : DependencyLine) : String :=
  line.name.text ++ "@" ++ line.range.text

def DependencyLine.written (line : DependencyLine) : String :=
  "    " ++ (line.name.written ++ " " ++ line.range.written)

/-- What stands under the header of a block. -/
inductive Entry where
  | field (key : String) (h : IsBare key) (value : Token)
  | group (name : String) (h : IsBare name) (lines : List DependencyLine)

def isDependencySection (name : String) : Bool :=
  name = "dependencies" || name = "optionalDependencies"

def Entry.lines : Entry → List String
  | .field key _ value => ["  " ++ (key ++ " " ++ value.written)]
  | .group name _ lines => ("  " ++ (name ++ ":")) :: lines.map DependencyLine.written

def Entry.dependencies : Entry → List DependencyLine
  | .field _ _ _ => []
  | .group name _ lines => if isDependencySection name then lines else []

structure BlockText where
  specs : List Token
  entries : List Entry
  named : specs ≠ []
  separated : ∀ spec ∈ specs, spec.text ≠ "" ∧ ',' ∉ spec.text.toList

def BlockText.header (b : BlockText) : String :=
  String.intercalate ", " (b.specs.map Token.written) ++ ":"

def BlockText.lines (b : BlockText) : List String := b.header :: b.entries.flatMap Entry.lines

def BlockText.specTexts (b : BlockText) : List String := b.specs.map Token.text

def BlockText.dependencies (b : BlockText) : List DependencyLine :=
  b.entries.flatMap Entry.dependencies

/-- The content has the lines of the blocks, besides comments and empty lines. -/
def IsWrittenAs (content : String) (blocks : List BlockText) : Prop :=
  (((Text.lines content).map Text.trimEnd).filter fun line => !isSkippedLine line) =
    blocks.flatMap BlockText.lines

end Format

section Tokens

theorem Token.text_free (t : Token) : '"' ∉ t.text.toList := by
  cases t with
  | bare text h =>
      intro hmem
      exact (h.plain '"' hmem).1 rfl
  | quoted text h => exact h

theorem toList_quoted (text : String) :
    ("\"" ++ text ++ "\"").toList = '"' :: (text.toList ++ ['"']) := by
  simp

theorem getLast?_quoted (text : String) :
    ("\"" ++ text ++ "\"").toList.getLast? = some '"' := by
  rw [toList_quoted, ← List.cons_append, List.getLast?_concat]

theorem Token.written_tight (t : Token) : Text.Tight t.written := by
  cases t with
  | bare text h =>
      constructor
      · intro c hc
        exact h.word c (List.mem_of_mem_head? hc)
      · intro c hc
        exact h.word c (List.mem_of_getLast? hc)
  | quoted text h =>
      constructor
      · intro c hc
        rw [Token.written, toList_quoted] at hc
        cases hc
        decide
      · intro c hc
        rw [Token.written, getLast?_quoted] at hc
        cases hc
        decide

theorem Token.written_ne_empty (t : Token) : t.written ≠ "" := by
  cases t with
  | bare text h => exact h.nonempty
  | quoted text h =>
      intro hempty
      have hlist := congrArg String.toList hempty
      rw [Token.written, toList_quoted] at hlist
      cases hlist

theorem Token.written_last (t : Token) : ∀ c ∈ t.written.toList.getLast?, c ≠ ':' := by
  cases t with
  | bare text h =>
      intro c hc
      exact (h.plain c (List.mem_of_getLast? hc)).2
  | quoted text h =>
      intro c hc
      rw [Token.written, getLast?_quoted] at hc
      cases hc
      decide

theorem head_of_isQuotedBy {quote text : String} {q : Char} (hq : quote.toList = [q])
    (h : isQuotedBy quote text = true) : text.toList.head? = some q := by
  rw [isQuotedBy, Bool.and_eq_true, Bool.and_eq_true, Text.startsWith, hq] at h
  obtain ⟨rest, hrest⟩ := List.isPrefixOf_iff_prefix.mp h.1.1
  rw [← hrest]
  rfl

theorem unquote_written (t : Token) : unquote t.written = t.text := by
  cases t with
  | bare text h =>
      have hdouble : ¬ isQuotedBy "\"" text = true := by
        intro hquoted
        have hhead := head_of_isQuotedBy (q := '"') (by decide) hquoted
        exact (h.plain '"' (List.mem_of_mem_head? hhead)).1 rfl
      have hsingle : ¬ isQuotedBy "'" text = true :=
        fun hquoted => h.start (head_of_isQuotedBy (by decide) hquoted)
      rw [Token.written, Token.text, unquote, if_neg]
      rw [Bool.or_eq_true]
      exact not_or.mpr ⟨hdouble, hsingle⟩
  | quoted text h =>
      have hquoted : isQuotedBy "\"" ("\"" ++ text ++ "\"") = true := by
        have hstart : Text.startsWith ("\"" ++ text ++ "\"") "\"" = true := by
          rw [Text.startsWith, toList_quoted]
          rfl
        have hsize : ("\"" ++ text ++ "\"").utf8ByteSize ≥ 2 := by
          rw [String.utf8ByteSize_append, String.utf8ByteSize_append]
          have hone : "\"".utf8ByteSize = 1 := by decide
          omega
        rw [isQuotedBy, hstart, Text.endsWith_append, Bool.and_self, Bool.true_and]
        exact decide_eq_true hsize
      rw [Token.written, Token.text, unquote, hquoted, Bool.true_or, if_pos rfl, toList_quoted,
        List.tail_cons, List.dropLast_concat, String.ofList_toList]

/-- A bare name is written as it is; in quotes it is another text. -/
theorem written_eq_text_iff {t : Token} {name : String} (h : '"' ∉ name.toList) :
    t.written = name ↔ t.isBare = true ∧ t.text = name := by
  cases t with
  | bare text _ => exact ⟨fun heq => ⟨rfl, heq⟩, fun heq => heq.2⟩
  | quoted text _ =>
      constructor
      · intro heq
        rw [← heq, Token.written, toList_quoted] at h
        exact absurd List.mem_cons_self h
      · intro heq
        cases heq.1

theorem parseHeaderSpec_written {header rawSpec : String} {t : Token}
    (hraw : Text.trim rawSpec = t.written) (h : t.text ≠ "") :
    parseHeaderSpec header rawSpec = .ok t.text := by
  rw [parseHeaderSpec, hraw, unquote_written]
  exact if_neg h

theorem comma_not_mem_written {t : Token} (h : ',' ∉ t.text.toList) : ',' ∉ t.written.toList := by
  cases t with
  | bare text _ => exact h
  | quoted text _ =>
      rw [Token.written, toList_quoted]
      intro hmem
      cases List.mem_cons.mp hmem with
      | inl heq => exact absurd heq (by decide)
      | inr hmem =>
          cases List.mem_append.mp hmem with
          | inl hmem => exact h hmem
          | inr hmem => exact absurd (List.mem_singleton.mp hmem) (by decide)

theorem parseHeaderSpecs_written {header : String} {rawSpecs : List String} {specs : List Token}
    (hraw : rawSpecs.map Text.trim = specs.map Token.written)
    (h : ∀ spec ∈ specs, spec.text ≠ "") :
    rawSpecs.mapM (parseHeaderSpec header) = .ok (specs.map Token.text) := by
  induction rawSpecs generalizing specs with
  | nil =>
      cases specs with
      | nil => rfl
      | cons => cases hraw
  | cons rawSpec rawSpecs ih =>
      cases specs with
      | nil => cases hraw
      | cons spec specs =>
          rw [List.map_cons, List.map_cons, List.cons.injEq] at hraw
          rw [List.mapM_cons, parseHeaderSpec_written hraw.1 (h spec List.mem_cons_self),
            ih hraw.2 fun other hmem => h other (List.mem_cons_of_mem spec hmem)]
          rfl

theorem parseClassicHeaderSpecs_written (b : BlockText) :
    parseClassicHeaderSpecs (String.intercalate ", " (b.specs.map Token.written)) =
      .ok b.specTexts := by
  have htokens : ∀ t ∈ b.specs.map Token.written, Text.Tight t ∧ ',' ∉ t.toList := by
    intro t ht
    obtain ⟨spec, hspec, rfl⟩ := List.mem_map.mp ht
    exact ⟨spec.written_tight, comma_not_mem_written (b.separated spec hspec).2⟩
  have hempty : ∀ c ∈ "".toList, Text.isWhitespace c = true :=
    fun c hc => absurd hc List.not_mem_nil
  have hsplit := Text.split_intercalate_comma (fun h => b.named (List.map_eq_nil_iff.mp h)) htokens
    hempty
  rw [String.empty_append] at hsplit
  rw [parseClassicHeaderSpecs, parseHeaderSpecs_written hsplit fun spec h => (b.separated spec h).1]
  exact if_neg fun h => b.named (List.map_eq_nil_iff.mp h)

theorem splitClassicKeyValue_written {key : String} (value : Token)
    (h : ∀ c ∈ key.toList, Text.isWhitespace c = false) :
    splitClassicKeyValue (key ++ " " ++ value.written) = some (key, value.text) := by
  have hsplit := Text.splitOnce_append_of (c := ' ') key value.written h (by decide)
  have hblank : String.singleton ' ' = " " := by decide
  rw [hblank] at hsplit
  rw [splitClassicKeyValue, hsplit, Option.map_some]
  dsimp only
  rw [value.written_tight.trim_eq, unquote_written]

end Tokens

section Lines

theorem indentOf_append {w body : String} (hw : ∀ c ∈ w.toList, Text.isWhitespace c = true)
    (hbody : ∀ c ∈ body.toList.head?, Text.isWhitespace c = false) :
    indentOf (w ++ body) = w.utf8ByteSize := by
  rw [indentOf, Text.trimStart_append hw hbody, String.utf8ByteSize_append]
  omega

theorem spaces_whitespace {w : String} (h : w.toList.all (· = ' ') = true) :
    ∀ c ∈ w.toList, Text.isWhitespace c = true := by
  intro c hc
  have heq : c = ' ' := by simpa using List.all_eq_true.mp h c hc
  rw [heq]
  decide

theorem head_append {s t : String} (hne : s ≠ "")
    (h : ∀ c ∈ s.toList.head?, Text.isWhitespace c = false) :
    ∀ c ∈ (s ++ t).toList.head?, Text.isWhitespace c = false := by
  intro c hc
  have hlist : s.toList ≠ [] := fun hnil => hne (String.toList_eq_nil_iff.mp hnil)
  rw [String.toList_append, List.head?_append_of_ne_nil _ hlist] at hc
  exact h c hc

/-- The block that is read from a block of the text. -/
def insertLine (dependencies : BTreeMap String String) (line : DependencyLine) :
    BTreeMap String String :=
  dependencies.insert line.name.written line.range.text

def Entry.apply (block : ClassicBlock) : Entry → ClassicBlock
  | .field key _ value => { block with fields := block.fields.insert key value.text }
  | .group name _ lines =>
      if isDependencySection name then
        { block with dependencies := lines.foldl insertLine block.dependencies }
      else block

def BlockText.classic (b : BlockText) : ClassicBlock :=
  b.entries.foldl Entry.apply ⟨b.specTexts, ∅, ∅⟩

/-- Reading the lines leads from one state to the other, whatever their numbers. -/
def Runs : List String → Tokenizer → Tokenizer → Prop
  | [], t, u => t = u
  | line :: lines, t, u =>
      ∃ s, (∀ number, writtenLine number line t = .ok s) ∧ Runs lines s u

theorem Runs.append {ls ms : List String} {t s u : Tokenizer} (hleft : Runs ls t s)
    (hright : Runs ms s u) : Runs (ls ++ ms) t u := by
  induction ls generalizing t with
  | nil =>
      cases hleft
      exact hright
  | cons line ls ih =>
      obtain ⟨next, hstep, hrest⟩ := hleft
      exact ⟨next, hstep, ih hrest⟩

theorem headWord {word rest : String} (hne : word ≠ "")
    (h : ∀ c ∈ word.toList, Text.isWhitespace c = false) :
    ∀ c ∈ (word ++ rest).toList.head?, Text.isWhitespace c = false :=
  head_append hne fun c hc => h c (List.mem_of_mem_head? hc)

theorem not_endsWith_colon {front : String} {value : Token} :
    ¬ Text.endsWith (front ++ value.written) ":" = true := by
  intro hends
  have hlast := Text.getLast_of_endsWith (c := ':') hends
  have hlist : value.written.toList ≠ [] :=
    fun hnil => value.written_ne_empty (String.toList_eq_nil_iff.mp hnil)
  rw [String.toList_append, List.getLast?_append_of_ne_nil _ hlist] at hlast
  exact value.written_last ':' hlast rfl

theorem name_written_word (line : DependencyLine) :
    ∀ c ∈ line.name.written.toList, Text.isWhitespace c = false := by
  have hword := line.word
  cases hname : line.name with
  | bare text h => exact h.word
  | quoted text h =>
      rw [hname] at hword
      intro c hc
      rw [Token.written, toList_quoted] at hc
      cases List.mem_cons.mp hc with
      | inl heq =>
          rw [heq]
          decide
      | inr hc =>
          cases List.mem_append.mp hc with
          | inl hc => exact hword c hc
          | inr hc =>
              rw [List.mem_singleton.mp hc]
              decide

theorem writtenLine_dependency {t : Tokenizer} {block : ClassicBlock}
    (hcurrent : t.current = some block) (hin : t.inDependencies = true) (line : DependencyLine)
    (number : Nat) : writtenLine number line.written t =
      .ok ⟨t.blocks, some { block with dependencies := insertLine block.dependencies line }, true⟩ := by
  have hspaces := spaces_whitespace (w := "    ") (by decide)
  have hhead : ∀ c ∈ (line.name.written ++ " " ++ line.range.written).toList.head?,
      Text.isWhitespace c = false := by
    rw [String.append_assoc]
    exact headWord line.name.written_ne_empty (name_written_word line)
  have hindent : indentOf line.written = 4 := indentOf_append hspaces hhead
  have hbody : Text.trimStart line.written = line.name.written ++ " " ++ line.range.written :=
    Text.trimStart_append hspaces hhead
  rw [writtenLine, hindent, if_neg (by decide), hcurrent]
  dsimp only
  rw [if_neg (by decide), if_pos ⟨by decide, hin⟩, hbody, dependencyLine,
    splitClassicKeyValue_written line.range (name_written_word line), hin]
  rfl

section Field

variable {t : Tokenizer} {block : ClassicBlock} (hcurrent : t.current = some block)
include hcurrent

/-- A line that is indented by two blanks. -/
theorem writtenLine_body {body : String}
    (hhead : ∀ c ∈ body.toList.head?, Text.isWhitespace c = false) (number : Nat) :
    writtenLine number ("  " ++ body) t = fieldLine number body t block := by
  have hspaces := spaces_whitespace (w := "  ") (by decide)
  have hindent : indentOf ("  " ++ body) = 2 := indentOf_append hspaces hhead
  rw [writtenLine, hindent, if_neg (by decide), hcurrent]
  dsimp only
  rw [if_pos rfl, Text.trimStart_append hspaces hhead]

theorem writtenLine_field {key : String} (h : IsBare key) (value : Token) (number : Nat) :
    writtenLine number ("  " ++ (key ++ " " ++ value.written)) t =
      .ok ⟨t.blocks, some { block with fields := block.fields.insert key value.text }, false⟩ := by
  have hhead : ∀ c ∈ (key ++ " " ++ value.written).toList.head?, Text.isWhitespace c = false := by
    rw [String.append_assoc]
    exact headWord h.nonempty h.word
  rw [writtenLine_body hcurrent hhead, fieldLine, if_neg not_endsWith_colon,
    splitClassicKeyValue_written value h.word]

theorem writtenLine_group {name : String} (h : IsBare name) (number : Nat) :
    writtenLine number ("  " ++ (name ++ ":")) t =
      .ok ⟨t.blocks, some block, isDependencySection name⟩ := by
  have hlast : ∀ c ∈ name.toList.getLast?, c ≠ ':' :=
    fun c hc => (h.plain c (List.mem_of_getLast? hc)).2
  have hname : Text.trim (Text.trimEndMatches (name ++ ":") ':') = name := by
    have hcolon : ":" = String.singleton ':' := by decide
    rw [hcolon, Text.trimEndMatches_append hlast, Text.trim_eq_self h.word]
  rw [writtenLine_body hcurrent (headWord h.nonempty h.word), fieldLine,
    if_pos (Text.endsWith_append name ":"), hname]
  rfl

end Field

theorem writtenLine_header (b : BlockText) (t : Tokenizer) (number : Nat) :
    writtenLine number b.header t = .ok ⟨t.finished, some ⟨b.specTexts, ∅, ∅⟩, false⟩ := by
  have hnamed : b.specs.map Token.written ≠ [] := fun h => b.named (List.map_eq_nil_iff.mp h)
  have hempty : ∀ text ∈ b.specs.map Token.written, text ≠ "" := by
    intro text htext
    obtain ⟨spec, -, rfl⟩ := List.mem_map.mp htext
    exact spec.written_ne_empty
  have hfirst : ∀ c ∈ (String.intercalate ", " (b.specs.map Token.written)).toList.head?,
      Text.isWhitespace c = false := by
    obtain ⟨text, htext, hhead⟩ := Text.head?_intercalate hnamed hempty
    obtain ⟨spec, -, rfl⟩ := List.mem_map.mp htext
    rw [hhead]
    exact spec.written_tight.first
  obtain ⟨text, htext, hlast⟩ := Text.getLast?_intercalate hnamed hempty
  obtain ⟨spec, -, rfl⟩ := List.mem_map.mp htext
  have hspecs : Text.trim (Text.trimEndMatches b.header ':') =
      String.intercalate ", " (b.specs.map Token.written) := by
    have hcolon : ":" = String.singleton ':' := by decide
    have htight : Text.Tight (String.intercalate ", " (b.specs.map Token.written)) :=
      ⟨hfirst, by rw [hlast]; exact spec.written_tight.last⟩
    rw [BlockText.header, hcolon, Text.trimEndMatches_append (by rw [hlast]; exact spec.written_last),
      htight.trim_eq]
  have hindent : indentOf b.header = 0 := by
    have hhead := head_append (t := ":") (Text.intercalate_ne_empty hnamed hempty) hfirst
    have hzero := indentOf_append (w := "") (fun c hc => absurd hc List.not_mem_nil) hhead
    rw [String.empty_append] at hzero
    exact hzero
  have hends : Text.endsWith b.header ":" = true := Text.endsWith_append _ ":"
  rw [writtenLine, if_pos hindent, headerLine, if_neg (not_not.mpr hends), hspecs,
    parseClassicHeaderSpecs_written]
  rfl

theorem runs_dependencies {t : Tokenizer} {block : ClassicBlock}
    (hcurrent : t.current = some block) (hin : t.inDependencies = true)
    (lines : List DependencyLine) : Runs (lines.map DependencyLine.written) t
      ⟨t.blocks, some { block with dependencies := lines.foldl insertLine block.dependencies },
        true⟩ := by
  induction lines generalizing t block with
  | nil =>
      cases t
      cases hcurrent
      cases hin
      rfl
  | cons line lines ih =>
      have hnext : (⟨t.blocks, some { block with
          dependencies := insertLine block.dependencies line }, true⟩ : Tokenizer).current =
          some { block with dependencies := insertLine block.dependencies line } := rfl
      exact ⟨_, writtenLine_dependency hcurrent hin line, ih hnext rfl⟩

/-- The lines of another section are passed over. -/
theorem runs_skipped {t : Tokenizer} {block : ClassicBlock} (hcurrent : t.current = some block)
    (hin : t.inDependencies = false) (lines : List DependencyLine) :
    Runs (lines.map DependencyLine.written) t t := by
  induction lines with
  | nil => rfl
  | cons line lines ih =>
      refine ⟨t, ?_, ih⟩
      intro number
      have hspaces := spaces_whitespace (w := "    ") (by decide)
      have hhead : ∀ c ∈ (line.name.written ++ " " ++ line.range.written).toList.head?,
          Text.isWhitespace c = false := by
        rw [String.append_assoc]
        exact headWord line.name.written_ne_empty (name_written_word line)
      have hindent : indentOf line.written = 4 := indentOf_append hspaces hhead
      rw [writtenLine, hindent, if_neg (by decide), hcurrent]
      dsimp only
      rw [if_neg (by decide), if_neg (by simp [hin])]

theorem runs_entry {t : Tokenizer} {block : ClassicBlock} (hcurrent : t.current = some block)
    (entry : Entry) :
    ∃ inDependencies, Runs entry.lines t ⟨t.blocks, some (entry.apply block), inDependencies⟩ := by
  cases entry with
  | field key h value => exact ⟨false, _, writtenLine_field hcurrent h value, rfl⟩
  | group name h lines =>
      cases hsection : isDependencySection name with
      | true =>
          refine ⟨true, _, writtenLine_group hcurrent h, ?_⟩
          rw [Entry.apply, if_pos hsection]
          exact runs_dependencies rfl hsection lines
      | false =>
          refine ⟨false, _, writtenLine_group hcurrent h, ?_⟩
          rw [Entry.apply, if_neg (by simp [hsection]), hsection]
          exact runs_skipped rfl rfl lines

theorem runs_entries {t : Tokenizer} {block : ClassicBlock} (hcurrent : t.current = some block)
    (entries : List Entry) :
    ∃ inDependencies, Runs (entries.flatMap Entry.lines) t
      ⟨t.blocks, some (entries.foldl Entry.apply block), inDependencies⟩ := by
  induction entries generalizing t block with
  | nil =>
      refine ⟨t.inDependencies, ?_⟩
      cases t
      cases hcurrent
      rfl
  | cons entry entries ih =>
      obtain ⟨flag, hentry⟩ := runs_entry hcurrent entry
      have hnext : (⟨t.blocks, some (entry.apply block), flag⟩ : Tokenizer).current =
          some (entry.apply block) := rfl
      obtain ⟨inDependencies, hrest⟩ := ih hnext
      rw [List.flatMap_cons]
      exact ⟨inDependencies, hentry.append hrest⟩

theorem runs_block (b : BlockText) (t : Tokenizer) :
    ∃ inDependencies, Runs b.lines t ⟨t.finished, some b.classic, inDependencies⟩ := by
  have hstart : (⟨t.finished, some ⟨b.specTexts, ∅, ∅⟩, false⟩ : Tokenizer).current =
      some ⟨b.specTexts, ∅, ∅⟩ := rfl
  obtain ⟨inDependencies, hentries⟩ := runs_entries hstart b.entries
  exact ⟨inDependencies, _, writtenLine_header b t, hentries⟩

theorem runs_blocks (blocks : List BlockText) (t : Tokenizer) :
    ∃ u, Runs (blocks.flatMap BlockText.lines) t u ∧
      u.finished = t.finished ++ blocks.map BlockText.classic := by
  induction blocks generalizing t with
  | nil => exact ⟨t, rfl, (List.append_nil _).symm⟩
  | cons b blocks ih =>
      obtain ⟨inDependencies, hblock⟩ := runs_block b t
      obtain ⟨u, hrest, hfinished⟩ := ih ⟨t.finished, some b.classic, inDependencies⟩
      rw [List.flatMap_cons]
      refine ⟨u, hblock.append hrest, ?_⟩
      rw [hfinished, List.map_cons]
      simp [Tokenizer.finished]

theorem classicLine_skipped {rawLine : String} {number : Nat} {t : Tokenizer}
    (h : isSkippedLine (Text.trimEnd rawLine) = true) : classicLine t (rawLine, number) = .ok t := by
  unfold classicLine
  dsimp only
  rw [if_pos h]

theorem classicLine_kept {rawLine : String} {number : Nat} {t : Tokenizer}
    (h : isSkippedLine (Text.trimEnd rawLine) = false) :
    classicLine t (rawLine, number) = writtenLine number (Text.trimEnd rawLine) t := by
  unfold classicLine
  dsimp only
  rw [if_neg (by rw [h]; exact Bool.false_ne_true)]

/-- The numbers of the lines and the lines that are skipped do not matter. -/
theorem foldlM_classicLine {rawLines : List String} {t u : Tokenizer} (number : Nat)
    (h : Runs ((rawLines.map Text.trimEnd).filter fun line => !isSkippedLine line) t u) :
    (rawLines.zipIdx number).foldlM classicLine t = .ok u := by
  induction rawLines generalizing t number with
  | nil =>
      cases h
      rfl
  | cons rawLine rawLines ih =>
      rw [List.zipIdx_cons, List.foldlM_cons]
      rw [List.map_cons] at h
      cases hskip : isSkippedLine (Text.trimEnd rawLine) with
      | true =>
          rw [List.filter_cons_of_neg (by simp [hskip])] at h
          rw [classicLine_skipped hskip]
          exact ih (number + 1) h
      | false =>
          rw [List.filter_cons_of_pos (by simp [hskip])] at h
          obtain ⟨next, hstep, h⟩ := h
          rw [classicLine_kept hskip, hstep]
          exact ih (number + 1) h

/-- The blocks of a text in the format are read. -/
theorem tokenizeClassicBlocks_written {content : String} {blocks : List BlockText}
    (h : IsWrittenAs content blocks) :
    tokenizeClassicBlocks content = .ok (blocks.map BlockText.classic) := by
  obtain ⟨u, hruns, hfinished⟩ := runs_blocks blocks .start
  rw [← h] at hruns
  rw [tokenizeClassicBlocks, foldlM_classicLine 1 hruns]
  exact congrArg Except.ok hfinished

end Lines

end Snpm.Compat.Yarn
