import Mathlib
import Snpm.Library.LineParts
import Snpm.Library.Numerals
import Snpm.Semver

/-!
Requirements of the version crate as its documentation has them: their syntax and
the versions that each operator admits. The crate itself stays a parameter; what
is stated here is what it is expected to do with one requirement text.
-/
namespace Snpm.Semver

inductive Op where
  | exact
  | greater
  | greaterEq
  | less
  | lessEq
  | tilde
  | caret
  | wildcard
deriving DecidableEq

/-- A version; its build part is left out, which no comparison reads. -/
structure Version where
  major : Fin (2 ^ 64)
  minor : Fin (2 ^ 64)
  patch : Fin (2 ^ 64)
  pre : Option String
deriving DecidableEq

structure Comparator where
  op : Op
  major : Nat
  minor : Option Nat
  patch : Option Nat
  pre : Option String
deriving DecidableEq

section Matching

variable (before : String → String → Bool)

/-- A release comes after its pre-releases. -/
def preBefore : Option String → Option String → Bool
  | some p, some q => before p q
  | some _, none => true
  | none, _ => false

def preAtLeast (p q : Option String) : Bool := p = q || preBefore before q p

def matchesExact (c : Comparator) (v : Version) : Bool :=
  v.major.val = c.major && c.minor.all (v.minor.val = ·) && c.patch.all (v.patch.val = ·) &&
    v.pre = c.pre

def matchesGreater (c : Comparator) (v : Version) : Bool :=
  if v.major.val ≠ c.major then v.major.val > c.major
  else c.minor.any fun minor =>
    if v.minor.val ≠ minor then v.minor.val > minor
    else c.patch.any fun patch =>
      if v.patch.val ≠ patch then v.patch.val > patch else preBefore before c.pre v.pre

def matchesLess (c : Comparator) (v : Version) : Bool :=
  if v.major.val ≠ c.major then v.major.val < c.major
  else c.minor.any fun minor =>
    if v.minor.val ≠ minor then v.minor.val < minor
    else c.patch.any fun patch =>
      if v.patch.val ≠ patch then v.patch.val < patch else preBefore before v.pre c.pre

def matchesTilde (c : Comparator) (v : Version) : Bool :=
  v.major.val = c.major && c.minor.all (v.minor.val = ·) &&
    if c.patch.any (v.patch.val ≠ ·) then c.patch.any (v.patch.val > ·)
    else preAtLeast before v.pre c.pre

def matchesCaret (c : Comparator) (v : Version) : Bool :=
  v.major.val = c.major &&
    match c.minor, c.patch with
    | none, _ => true
    | some minor, none => if c.major > 0 then v.minor.val ≥ minor else v.minor.val = minor
    | some minor, some patch =>
        if c.major > 0 ∧ v.minor.val ≠ minor then v.minor.val > minor
        else if v.minor.val ≠ minor then false
        else if v.patch.val ≠ patch then (c.major > 0 || minor > 0) && v.patch.val > patch
        else preAtLeast before v.pre c.pre

def comparatorMatches (c : Comparator) (v : Version) : Bool :=
  match c.op with
  | .exact => matchesExact c v
  | .wildcard => matchesExact c v
  | .greater => matchesGreater before c v
  | .greaterEq => matchesExact c v || matchesGreater before c v
  | .less => matchesLess before c v
  | .lessEq => matchesExact c v || matchesLess before c v
  | .tilde => matchesTilde before c v
  | .caret => matchesCaret before c v

/-- A comparator that names a pre-release of the same version. -/
def admitsPre (c : Comparator) (v : Version) : Bool :=
  c.major = v.major.val && c.minor = some v.minor.val && c.patch = some v.patch.val && c.pre.isSome

/-- A pre-release is admitted only beside a comparator that names one. -/
def requirementMatches (cs : List Comparator) (v : Version) : Bool :=
  cs.all (comparatorMatches before · v) && (v.pre.isNone || cs.any (admitsPre · v))

end Matching

section Syntax

def readNumber (s : String) : Option Nat :=
  if s.toList.all Text.isAsciiDigit ∧ (s = "0" ∨ s.toList.head? ≠ some '0') then Text.parseU64 s
  else none

def isWildcard (s : String) : Bool := s = "*" || s = "x" || s = "X"

/-- A number, or a wildcard. -/
def readPart (s : String) : Option (Option Nat) :=
  if isWildcard s then some none else (readNumber s).map some

def isIdentifierChar (c : Char) : Bool := Text.isAsciiAlphanumeric c || c = '-'

def isIdentifier (s : String) : Bool := s ≠ "" && s.toList.all isIdentifierChar

/-- Numeric identifiers of a pre-release have no leading zero. -/
def isPre (s : String) : Bool :=
  (Text.split s (· = '.')).all fun part =>
    isIdentifier part &&
      (part = "0" || part.toList.head? ≠ some '0' || part.toList.any fun c => !Text.isAsciiDigit c)

def isBuild (s : String) : Bool := (Text.split s (· = '.')).all isIdentifier

/-- What follows the numbers: a pre-release, a build part, both or nothing. -/
def readTag (s : String) : Option (Option String) :=
  let (front, build) := match Text.splitOnce s (· = '+') with
    | some (front, build) => (front, some build)
    | none => (s, none)
  if build.all isBuild then
    if front = "" then some none
    else match Text.stripPrefix front "-" with
      | some pre => if isPre pre then some (some pre) else none
      | none => none
  else none

def operators : List (String × Op) :=
  [(">=", .greaterEq), ("<=", .lessEq), ("=", .exact), (">", .greater), ("<", .less), ("~", .tilde),
    ("^", .caret)]

def readOp (s : String) : Option Op × String :=
  (operators.findSome? fun (text, op) => (Text.stripPrefix s text).map fun rest => (some op, rest)).getD
    (none, s)

/-- Without an operator the default is the caret, or the wildcard after one. -/
def buildComparator (op : Option Op) (parts : List (Option Nat)) (tag : String) : Option Comparator :=
  match parts with
  | [some major, some minor, some patch] =>
      (readTag tag).map fun pre => ⟨op.getD .caret, major, some minor, some patch, pre⟩
  | parts =>
      if tag ≠ "" then none
      else match parts with
        | [some major] => some ⟨op.getD .caret, major, none, none, none⟩
        | [some major, some minor] => some ⟨op.getD .caret, major, some minor, none, none⟩
        | [some major, none] => some ⟨op.getD .wildcard, major, none, none, none⟩
        | [some major, none, none] => some ⟨op.getD .wildcard, major, none, none, none⟩
        | [some major, some minor, none] => some ⟨op.getD .wildcard, major, some minor, none, none⟩
        | _ => none

def readComparator (s : String) : Option Comparator :=
  let (op, rest) := readOp s
  let rest := Text.trim rest
  let (core, tag) := (Text.find rest fun c => c = '-' || c = '+').getD (rest, "")
  ((Text.split core (· = '.')).mapM readPart).bind fun parts => buildComparator op parts tag

/-- At most 32 comparators, or a wildcard alone, which admits every release. -/
def readRequirement (s : String) : Option (List Comparator) :=
  let s := Text.trim s
  if isWildcard s then some []
  else
    let parts := (Text.split s (· = ',')).map Text.trim
    if parts.length ≤ 32 then parts.mapM readComparator else none

/-- The crate reads a requirement text as documented: the versions are seen through
`view`, and pre-releases are compared by `before`. -/
structure ReadAsDocumented (S : SemverCrate) (view : S.Version → Version)
    (before : String → String → Bool) (text : String) : Prop where
  accepts : ∀ cs, readRequirement text = some cs → ∃ req, S.parseReq text = .ok req ∧
    ∀ v, S.reqMatches req v = requirementMatches before cs (view v)
  rejects : readRequirement text = none → ∃ error, S.parseReq text = .error error

end Syntax

section Crate

/-- A version text: three numbers and a tag. -/
def readVersion (s : String) : Option Version :=
  let (core, tag) := (Text.find s fun c => c = '-' || c = '+').getD (s, "")
  match (Text.split core (· = '.')).map readNumber with
  | [some major, some minor, some patch] =>
      if h : major < 2 ^ 64 ∧ minor < 2 ^ 64 ∧ patch < 2 ^ 64 then
        (readTag tag).map fun pre => ⟨⟨major, h.1⟩, ⟨minor, h.2.1⟩, ⟨patch, h.2.2⟩, pre⟩
      else none
  | _ => none

def orUnexpected {α : Type} : Option α → Except String α
  | some value => .ok value
  | none => .error "unexpected character"

/-- A crate that does what the documentation says and no more. -/
def documentedCrate (before : String → String → Bool) : SemverCrate where
  Version := Version
  VersionReq := List Comparator
  parseVersion s := orUnexpected (readVersion s)
  parseReq s := orUnexpected (readRequirement s)
  reqMatches := requirementMatches before
  cmp a b := (compare a.major b.major).then ((compare a.minor b.minor).then
    ((compare a.patch b.patch).then
      (if a.pre = b.pre then .eq else if preBefore before a.pre b.pre then .lt else .gt)))
  display v := toString v.major.val ++ "." ++ toString v.minor.val ++ "." ++ toString v.patch.val ++
    (v.pre.map fun pre => "-" ++ pre).getD ""

theorem documentedCrate_reads (before : String → String → Bool) (text : String) :
    ReadAsDocumented (documentedCrate before) id before text where
  accepts cs h := ⟨cs, congrArg orUnexpected h, fun _ => rfl⟩
  rejects h := ⟨_, congrArg orUnexpected h⟩

end Crate

end Snpm.Semver
