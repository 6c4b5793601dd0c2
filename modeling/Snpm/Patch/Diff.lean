import Mathlib
import Snpm.Library.Lines

/-!
The diff that becomes a patch file: a unified diff text with a section for each
file, and the two passes that it goes through line by line.
-/
namespace Snpm.Patch

def sessionMarker : String := ".snpm_patch_session"

def pathComponents (text : String) : List (PathText.Component Char) :=
  PathText.components '/' '.' text.toList

section Rewrite

/-- `Path::strip_prefix`. -/
def stripRoot (pathText root : String) : Option (List (PathText.Component Char)) :=
  if (pathComponents root).isPrefixOf (pathComponents pathText) then
    some ((pathComponents pathText).drop (pathComponents root).length)
  else none

def normalizePatchPath (path : List (PathText.Component Char)) : String :=
  "/".intercalate (path.filterMap fun
    | .normal part => some (String.ofList part)
    | _ => none)

def headerSuffix (suffix : Option String) : String := suffix.elim "" ("\t" ++ ·)

def rewritePatchHeader (line marker root side : String) : Option String :=
  (Text.stripPrefix line marker).bind fun rest =>
    if rest = "/dev/null" ∨ Text.startsWith rest "/dev/null\t" then some line
    else
      let (pathText, suffix) := match Text.splitOnce rest (· = '\t') with
        | some (pathText, suffix) => (pathText, some suffix)
        | none => (rest, none)
      (stripRoot pathText root).map fun relative =>
        marker ++ side ++ "/" ++ normalizePatchPath relative ++ headerSuffix suffix

/-- Directories as `canonicalize` returns them. -/
structure DiffRoots where
  original : String
  modified : String
  original_absolute : original.toList.head? = some '/'
  modified_absolute : modified.toList.head? = some '/'

def rewriteLine (roots : DiffRoots) (line : String) : String :=
  ((rewritePatchHeader line "--- " roots.original "a").or
    (rewritePatchHeader line "+++ " roots.modified "b")).getD line

def rewriteDiffPaths (content : String) (roots : DiffRoots) : String :=
  Text.unlines ((Text.lines content).map (rewriteLine roots))

end Rewrite

section Filter

def filterLines : Bool → List String → List String
  | _, [] => []
  | skipUntilNextDiff, line :: rest =>
      let skipUntilNextDiff :=
        if Text.startsWith line "diff " then Text.containsSeq line sessionMarker
        else skipUntilNextDiff
      if skipUntilNextDiff then filterLines skipUntilNextDiff rest
      else line :: filterLines skipUntilNextDiff rest

def filterSessionMarker (content : String) : String :=
  Text.unlines (filterLines false (Text.lines content))

end Filter

section Format

/-- What a file header says: a path, where names with control characters are quoted,
and what may follow it. -/
structure FileHeader where
  path : String
  suffix : Option String
  path_plain : ∀ c ∈ path.toList, c ≠ '\t' ∧ c ≠ '\n' ∧ c ≠ '\r'
  suffix_oneLine : ∀ text ∈ suffix, Text.OneLine text

inductive HunkMark where
  | context
  | removed
  | added
  | noNewline
deriving DecidableEq

def HunkMark.char : HunkMark → Char
  | .context => ' '
  | .removed => '-'
  | .added => '+'
  | .noNewline => '\\'

/-- A line of a file behind its mark. -/
structure HunkLine where
  mark : HunkMark
  content : String
  oneLine : Text.OneLine content

structure Hunk where
  range : String
  lines : List HunkLine
  range_oneLine : Text.OneLine range

structure DiffBody where
  old : FileHeader
  new : FileHeader
  hunks : List Hunk

/-- The section of a file: the command that compared it, other notes on it, and its
headers and hunks. -/
structure FileDiff where
  file : String
  command : String
  notes : List String
  body : Option DiffBody
  command_oneLine : Text.OneLine command
  notes_plain : ∀ note ∈ notes, Text.OneLine note ∧ Text.startsWith note "diff " = false ∧
    Text.startsWith note "--- " = false ∧ Text.startsWith note "+++ " = false

inductive DiffLine where
  | old (header : FileHeader)
  | new (header : FileHeader)
  | text (line : String)

def DiffLine.line : DiffLine → String
  | .old header => "--- " ++ header.path ++ headerSuffix header.suffix
  | .new header => "+++ " ++ header.path ++ headerSuffix header.suffix
  | .text line => line

def HunkLine.line (l : HunkLine) : String := String.singleton l.mark.char ++ l.content

def Hunk.diffLines (hunk : Hunk) : List DiffLine :=
  .text ("@@ " ++ hunk.range) :: hunk.lines.map fun l => .text l.line

def DiffBody.diffLines (body : DiffBody) : List DiffLine :=
  .old body.old :: .new body.new :: body.hunks.flatMap Hunk.diffLines

def FileDiff.rest (diff : FileDiff) : List DiffLine :=
  diff.notes.map .text ++ (diff.body.map DiffBody.diffLines).getD []

def FileDiff.commandLine (diff : FileDiff) : String := "diff " ++ diff.command

def FileDiff.lines (diff : FileDiff) : List String :=
  diff.commandLine :: diff.rest.map DiffLine.line

def diffText (diffs : List FileDiff) : String := Text.unlines (diffs.flatMap FileDiff.lines)

end Format

section Purpose

/-- A path below the root is told from there, and any other stays. -/
def rebasedPath (root side path : String) : String :=
  if path = "/dev/null" then path
  else ((stripRoot path root).map fun relative =>
    side ++ "/" ++ normalizePatchPath relative).getD path

variable (roots : DiffRoots)

/-- Only the path of a file header changes. -/
def DiffLine.rebased : DiffLine → String
  | .old header => "--- " ++ rebasedPath roots.original "a" header.path ++ headerSuffix header.suffix
  | .new header => "+++ " ++ rebasedPath roots.modified "b" header.path ++ headerSuffix header.suffix
  | .text line => line

def FileDiff.rebased (diff : FileDiff) : List String :=
  diff.commandLine :: diff.rest.map (DiffLine.rebased roots)

/-- The patch without the marker's section, with paths told from the package root. -/
def rebasedText (diffs : List FileDiff) : String :=
  Text.unlines ((diffs.filter (·.file ≠ sessionMarker)).flatMap (FileDiff.rebased roots))

/-- A line that reads like the header of a file below the root. -/
def LikeHeader (marker root line : String) : Prop :=
  ∃ path suffix, line = marker ++ path ++ headerSuffix suffix ∧ '\t' ∉ path.toList ∧
    path ≠ "/dev/null" ∧ (stripRoot path root).isSome = true

/-- The line has no carriage return at its end, and no line of a file reads like a header. -/
def DiffLine.Safe : DiffLine → Prop
  | .old header | .new header => ∀ text ∈ header.suffix, Text.endsWith text "\r" = false
  | .text line => Text.endsWith line "\r" = false ∧ ¬ LikeHeader "--- " roots.original line ∧
      ¬ LikeHeader "+++ " roots.modified line

/-- The marker's name is in the command of the marker's section and of no other, and
what the other sections say is safe. -/
structure PatchSafe (diffs : List FileDiff) : Prop where
  marker : ∀ diff ∈ diffs,
    (Text.containsSeq diff.commandLine sessionMarker = true ↔ diff.file = sessionMarker)
  command : ∀ diff ∈ diffs, diff.file ≠ sessionMarker → Text.endsWith diff.command "\r" = false
  lines : ∀ diff ∈ diffs, diff.file ≠ sessionMarker → ∀ line ∈ diff.rest, line.Safe roots

end Purpose

end Snpm.Patch
