import Mathlib
import Snpm.Library.PathText
import Snpm.Library.TextParts

/-!
The rules of the ignore files that packing reads: how a line becomes a rule and
which paths a rule matches. The glob library is a parameter: what its
constructor accepts, and the matcher it gives.
-/
namespace Snpm.Pack

/-- `Pattern::new` and `Pattern::matches` of the glob library. -/
abbrev NewPattern := String → Option (String → Bool)

/-- A library that knows no wildcards. -/
def comparePattern : NewPattern := fun pattern => some fun text => decide (text = pattern)

structure IgnoreRule where
  base : String
  matcher : String → Bool
  negated : Bool
  directoryOnly : Bool
  componentOnly : Bool

/-- The names among the components of a path text. -/
def normalComponents (text : String) : List String :=
  (PathText.components '/' '.' text.toList).filterMap fun
    | .normal name => some (String.ofList name)
    | _ => none

/-- `Path::file_name`. -/
def fileName (text : String) : Option String :=
  match (PathText.components '/' '.' text.toList).getLast? with
  | some (.normal name) => some (String.ofList name)
  | _ => none

/-- The parts of a path text that are components; a dot counts at the start only. -/
def isComponent (index : Nat) (part : String) : Bool :=
  part ≠ "" && (part ≠ "." || index = 0)

/-- `Path::ancestors` without the path itself and without the empty path: the
texts that end where a component but the last ends, and the root. -/
def properAncestors (text : String) : List String :=
  let parts := Text.split text (· = '/')
  let ends := (List.range parts.length).filter fun i => isComponent i (parts.getD i "")
  (if Text.startsWith text "/" ∧ ends ≠ [] then ["/"] else []) ++
    ends.dropLast.map fun i => "/".intercalate (parts.take (i + 1))

def trimSlashes (value : String) : String := Text.trimMatches value '/'

def normalizePath (path : String) : String := Text.replaceChar path '\\' '/'

def stripBase (candidate base : String) : Option String :=
  if base = "" then some candidate
  else (Text.stripPrefix candidate base).bind (Text.stripPrefix · "/")

def joinBase (base path : String) : String :=
  if base = "" then path else base ++ "/" ++ path

def ruleMatchesPath (rule : IgnoreRule) (candidate : String) : Bool :=
  match stripBase candidate rule.base with
  | none => false
  | some relative =>
      if rule.componentOnly then (normalComponents relative).any rule.matcher
      else rule.matcher relative

def directoryRuleMatchesFile (rule : IgnoreRule) (candidate : String) : Bool :=
  match stripBase candidate rule.base with
  | none => false
  | some relative =>
      (properAncestors relative).any fun ancestor =>
        ruleMatchesPath rule (joinBase rule.base (normalizePath ancestor))

def ruleMatches (rule : IgnoreRule) (candidate : String) (isDir : Bool) : Bool :=
  if rule.directoryOnly then
    if isDir then ruleMatchesPath rule candidate else directoryRuleMatchesFile rule candidate
  else ruleMatchesPath rule candidate

/-- The last rule that matches decides. -/
def isIgnored (path : String) (isDir : Bool) (rules : List IgnoreRule) : Bool :=
  rules.foldl (fun ignored rule =>
    if ruleMatches rule (normalizePath path) isDir then !rule.negated else ignored) false

/-- The rule of a pattern text that has lost its negation. -/
def ruleOfBody (newPattern : NewPattern) (base : String) (negated : Bool) (body : String) :
    Option IgnoreRule :=
  let directoryOnly := Text.endsWith body "/"
  let body := trimSlashes body
  if body = "" then none
  else
    let componentOnly := !Text.containsChar body (· = '/')
    let pattern := if componentOnly then body else Text.trimStartMatches body '/'
    (newPattern pattern).map fun matcher => ⟨base, matcher, negated, directoryOnly, componentOnly⟩

def parseIgnoreRule (newPattern : NewPattern) (line base : String) : Option IgnoreRule :=
  let trimmed := Text.trim line
  if trimmed = "" || Text.startsWith trimmed "#" then none
  else
    match Text.stripPrefix trimmed "!" with
    | some pattern => ruleOfBody newPattern base true (Text.trim pattern)
    | none => ruleOfBody newPattern base false trimmed

def parseIgnoreRules (newPattern : NewPattern) (content dirRelative : String) : List IgnoreRule :=
  (Text.lines content).filterMap (parseIgnoreRule newPattern · (trimSlashes dirRelative))

/-- The names that are never packed. -/
def alwaysSkipped : List String :=
  ["node_modules", ".git", ".hg", ".svn", "CVS", ".snpm", ".DS_Store", ".npmrc", "snpm-lock.yaml",
    "pnpm-lock.yaml", "package-lock.json", "yarn.lock", "bun.lockb", "npm-debug.log",
    "config.gypi", ".lock-wscript"]

/-- Only the last component of the path is looked at. -/
def shouldSkipPath (path : String) : Bool :=
  match fileName path with
  | none => false
  | some name =>
      name ∈ alwaysSkipped || Text.endsWith name ".orig" ||
        (Text.startsWith name "." && Text.endsWith name ".swp") || Text.startsWith name "._" ||
        Text.startsWith name ".wafpickle-"

end Snpm.Pack
