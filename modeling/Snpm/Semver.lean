import Mathlib
import Snpm.Library.Text
import Snpm.Error

/-!
Versions and range sets. The third-party version library is a parameter: its
two parsers, its comparison and its matcher. Everything the repository adds
around it is modelled here: loose version parsing and the rewriting of npm
range syntax into the library's.
-/
namespace Snpm

/-- The operations of the `semver` crate that are used, with error texts. -/
structure SemverCrate where
  Version : Type
  VersionReq : Type
  parseVersion : String → Except String Version
  parseReq : String → Except String VersionReq
  reqMatches : VersionReq → Version → Bool
  cmp : Version → Version → Ordering
  display : Version → String

def normalizeLeadingZeros (input : String) : String :=
  let (versionPart, suffix) :=
    (Text.find input fun c => c = '-' || c = '+').getD (input, "")
  let segments := (Text.split versionPart (· = '.')).map fun segment =>
    let stripped := Text.trimStartMatches segment '0'
    if stripped = "" then "0" else stripped
  ".".intercalate segments ++ suffix

def parseVersion (S : SemverCrate) (input : String) : Except String S.Version :=
  let input := ((Text.stripPrefix input "v").or (Text.stripPrefix input "V")).getD input
  match S.parseVersion input with
  | .ok version => .ok version
  | .error _ => S.parseVersion (normalizeLeadingZeros input)

structure RangeSet (S : SemverCrate) where
  original : String
  ranges : List S.VersionReq

def RangeSet.contains {S : SemverCrate} (set : RangeSet S) (version : S.Version) : Bool :=
  set.ranges.any fun range => S.reqMatches range version

def isOperatorChar (c : Char) : Bool :=
  c = '<' || c = '>' || c = '=' || c = '~' || c = '^'

/-- Drop a `v` between the operator of a token and a digit. -/
def stripVPrefix (token : String) : String :=
  let operator := token.toList.takeWhile isOperatorChar
  match token.toList.dropWhile isOperatorChar with
  | v :: c :: rest =>
      if (v = 'v' || v = 'V') && Text.isAsciiDigit c then
        String.ofList (operator ++ c :: rest)
      else token
  | _ => token

/-- The upper bound is computed in 64-bit arithmetic. -/
def expandHyphenRange (lower upper : String) : String :=
  let lowerFull := match Text.split lower (· = '.') with
    | [major] => major ++ ".0.0"
    | [major, minor] => major ++ "." ++ minor ++ ".0"
    | _ => lower
  match Text.split upper (· = '.') with
  | [major] =>
      let major := (Text.parseU64 major).getD 0
      ">=" ++ lowerFull ++ ", <" ++ toString ((major + 1) % 2 ^ 64) ++ ".0.0"
  | [major, minor] =>
      let minor := (Text.parseU64 minor).getD 0
      ">=" ++ lowerFull ++ ", <" ++ major ++ "." ++ toString ((minor + 1) % 2 ^ 64) ++ ".0"
  | _ => ">=" ++ lowerFull ++ ", <=" ++ upper

def isBareOperator (token : String) : Bool :=
  token = "=" || token = ">" || token = ">=" || token = "<" || token = "<=" || token = "~" ||
    token = "^"

/-- Join tokens with commas, but keep an operator and its version together. -/
def joinTokens : List String → String
  | [] => ""
  | [token] => token
  | token :: rest =>
      token ++ (if isBareOperator token then " " else ", ") ++ joinTokens rest

def normalizeAndPart (part : String) : String :=
  match (Text.splitWhitespace part).map stripVPrefix with
  | [] => part
  | [token] => token
  | [lower, "-", upper] => expandHyphenRange lower upper
  | tokens => joinTokens tokens

def normalizePart (part : String) : String :=
  let part := Text.trim part
  let part := match part.toList with
    | '@' :: second :: rest =>
        if Text.isAsciiDigit second || isOperatorChar second then
          String.ofList (second :: rest)
        else part
    | _ => part
  if part = "" || part = "latest" then "*" else normalizeAndPart part

def isPlainExactVersion (input : String) : Bool :=
  input ≠ "" &&
    !Text.containsChar input (fun c => isOperatorChar c || c = ' ' || c = ',') &&
    !Text.containsChar input (· = '*') &&
    (let versionPart := ((Text.find input fun c => c = '-' || c = '+').map (·.1)).getD input
     (Text.split versionPart (· = '.')).all fun segment => !Text.eqIgnoreAsciiCase segment "x") &&
    2 ≤ input.toList.count '.'

def expandBareMajorMinor (input : String) : Option String := do
  let (major, minor) ← Text.splitOnce input (· = '.')
  if major = "" || minor = "" || !major.toList.all Text.isAsciiDigit ||
      !minor.toList.all Text.isAsciiDigit then none
  else
    let next ← Text.parseU64 minor
    if next + 1 < 2 ^ 64 then
      some (">=" ++ major ++ "." ++ minor ++ ".0, <" ++ major ++ "." ++ toString (next + 1) ++ ".0")
    else none

def adjustNodeDefault (input : String) : String :=
  if isPlainExactVersion input then "=" ++ input
  else (expandBareMajorMinor input).getD input

/-- The range behind an alias target: what follows the last at sign after the
scope, or the wildcard. -/
def extractVersionRange (protocolSpec : String) : String :=
  let rest :=
    if Text.startsWith protocolSpec "@" then
      match Text.splitOnce protocolSpec (· = '/') with
      | some (_, afterSlash) => afterSlash
      | none => String.ofList protocolSpec.toList.tail
    else protocolSpec
  match Text.rsplitOnce rest (· = '@') with
  | some (_, version) =>
      let version := Text.trim version
      if version = "" then "*" else version
  | none => "*"

/-- The text the alternatives are split from. -/
def rangeSource (original : String) : String :=
  let source := Text.trim original
  let source := if source = "" || source = "latest" then "*" else source
  if Text.startsWith source "npm:" || Text.startsWith source "jsr:" then
    match Text.splitOnce source (· = ':') with
    | some (_, rest) => extractVersionRange rest
    | none => source
  else source

/-- The requirement texts handed to the crate, one for each alternative. -/
def requirementTexts (original : String) : List String :=
  let texts := (Text.splitSeq (rangeSource original) "||").filterMap fun part =>
    let normalized := normalizePart part
    if normalized = "" then none else some (adjustNodeDefault normalized)
  if texts = [] then ["*"] else texts

def RangeSet.parse (S : SemverCrate) (original : String) : Except String (RangeSet S) :=
  match (requirementTexts original).mapM S.parseReq with
  | .ok ranges => .ok ⟨original, ranges⟩
  | .error message => .error (message ++ " (" ++ original ++ ")")

def parseRangeSet (S : SemverCrate) (name original : String) : Result (RangeSet S) :=
  match RangeSet.parse S original with
  | .ok set => .ok set
  | .error reason => .error (.semver (name ++ "@" ++ original) reason)

example : requirementTexts "1.2.3" = ["=1.2.3"] := by decide
example : requirementTexts "1.2 || >= v2 <3" = [">=1.2.0, <1.3.0", ">= 2, <3"] := by decide
example : requirementTexts "npm:@scope/a@^1" = ["^1"] := by decide

namespace ReleaseCrate

inductive Op where
  | exact
  | greater
  | greaterEq
  | less
  | lessEq
  | tilde
  | caret
deriving DecidableEq

structure Version where
  major : Nat
  minor : Nat
  patch : Nat
deriving DecidableEq

structure Comparator where
  op : Op
  major : Nat
  minor : Option Nat
  patch : Option Nat
deriving DecidableEq

def number (s : String) : Option Nat :=
  if s.toList.all Text.isAsciiDigit ∧ (s = "0" ∨ s.toList.head? ≠ some '0') then Text.parseU64 s
  else none

def parseVersion (s : String) : Except String Version :=
  match (Text.split s (· = '.')).map number with
  | [some major, some minor, some patch] => .ok ⟨major, minor, patch⟩
  | _ => .error "unexpected character while parsing version"

/-- Operators are tried from the longest. -/
def splitOp (s : String) : Op × String :=
  let op (text : String) (op : Op) := (Text.stripPrefix s text).map fun rest => (op, Text.trim rest)
  ((op ">=" .greaterEq).or <| (op "<=" .lessEq).or <| (op "=" .exact).or <|
    (op ">" .greater).or <| (op "<" .less).or <| (op "~" .tilde).or <| op "^" .caret).getD
    (.caret, s)

def parseComparator (s : String) : Except String Comparator :=
  let (op, rest) := splitOp s
  match (Text.split rest (· = '.')).map number with
  | [some major] => .ok ⟨op, major, none, none⟩
  | [some major, some minor] => .ok ⟨op, major, some minor, none⟩
  | [some major, some minor, some patch] => .ok ⟨op, major, some minor, some patch⟩
  | _ => .error "unexpected character while parsing version requirement"

def parseReq (s : String) : Except String (List Comparator) :=
  if Text.trim s = "*" then .ok []
  else (Text.split s (· = ',')).mapM fun part => parseComparator (Text.trim part)

def matchesExact (c : Comparator) (v : Version) : Bool :=
  v.major = c.major && c.minor.all (v.minor = ·) && c.patch.all (v.patch = ·)

def matchesGreater (c : Comparator) (v : Version) : Bool :=
  if v.major ≠ c.major then v.major > c.major
  else c.minor.any fun minor =>
    if v.minor ≠ minor then v.minor > minor else c.patch.any (v.patch > ·)

def matchesLess (c : Comparator) (v : Version) : Bool :=
  if v.major ≠ c.major then v.major < c.major
  else c.minor.any fun minor =>
    if v.minor ≠ minor then v.minor < minor else c.patch.any (v.patch < ·)

def matchesTilde (c : Comparator) (v : Version) : Bool :=
  v.major = c.major && c.minor.all (v.minor = ·) && c.patch.all (v.patch ≥ ·)

def matchesCaret (c : Comparator) (v : Version) : Bool :=
  v.major = c.major &&
    match c.minor, c.patch with
    | none, _ => true
    | some minor, none => if c.major > 0 then v.minor ≥ minor else v.minor = minor
    | some minor, some patch =>
        if c.major > 0 then v.minor > minor || (v.minor = minor && v.patch ≥ patch)
        else if minor > 0 then v.minor = minor && v.patch ≥ patch
        else v.minor = minor && v.patch = patch

def comparatorMatches (c : Comparator) (v : Version) : Bool :=
  match c.op with
  | .exact => matchesExact c v
  | .greater => matchesGreater c v
  | .greaterEq => matchesExact c v || matchesGreater c v
  | .less => matchesLess c v
  | .lessEq => matchesExact c v || matchesLess c v
  | .tilde => matchesTilde c v
  | .caret => matchesCaret c v

end ReleaseCrate

/-- The crate's behaviour on release versions; pre-release and build parts and
wildcards inside a version are refused here. -/
def releaseCrate : SemverCrate where
  Version := ReleaseCrate.Version
  VersionReq := List ReleaseCrate.Comparator
  parseVersion := ReleaseCrate.parseVersion
  parseReq := ReleaseCrate.parseReq
  reqMatches req v := req.all (ReleaseCrate.comparatorMatches · v)
  cmp a b := (compare a.major b.major).then ((compare a.minor b.minor).then
    (compare a.patch b.patch))
  display v := toString v.major ++ "." ++ toString v.minor ++ "." ++ toString v.patch

/-- Whether a version text satisfies a range text. -/
def rangeAdmits (S : SemverCrate) (range version : String) : Bool :=
  match RangeSet.parse S range, parseVersion S version with
  | .ok set, .ok v => set.contains v
  | _, _ => false

example : rangeAdmits releaseCrate "^1.2.0 || ^3" "1.4.9" = true := by decide
example : rangeAdmits releaseCrate ">=1.2 <2" "v1.4.9" = true := by decide
example : rangeAdmits releaseCrate "~1.2.3" "1.3.0" = false := by decide

end Snpm
