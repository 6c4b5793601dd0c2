import Mathlib
import Snpm.Library.OrderedMap
import Snpm.Library.Text

/-!
Dependency requests: which package a name and a spec denote. A spec may be
replaced by an override, may name a local workspace project, may carry a
protocol of its own, and otherwise is a range for the name it stands beside.
-/
namespace Snpm

structure RegistryProtocol where
  name : String
deriving DecidableEq

namespace RegistryProtocol

def npm : RegistryProtocol := ⟨"npm"⟩

def git : RegistryProtocol := ⟨"git"⟩

def jsr : RegistryProtocol := ⟨"jsr"⟩

def file : RegistryProtocol := ⟨"file"⟩

def custom (name : String) : RegistryProtocol := ⟨name⟩

end RegistryProtocol

structure DepRequest where
  source : String
  range : String
  protocol : RegistryProtocol
deriving DecidableEq

namespace Resolve

def hexValue (b : UInt8) : Option UInt8 :=
  if 48 ≤ b ∧ b ≤ 57 then some (b - 48)
  else if 97 ≤ b ∧ b ≤ 102 then some (b - 87)
  else if 65 ≤ b ∧ b ≤ 70 then some (b - 55)
  else none

/-- A percent sign without two hexadecimal digits stands for itself. -/
def percentDecode : List UInt8 → List UInt8
  | 37 :: a :: b :: rest =>
      match hexValue a, hexValue b with
      | some high, some low => (high * 16 + low) :: percentDecode rest
      | _, _ => 37 :: percentDecode (a :: b :: rest)
  | b :: rest => b :: percentDecode rest
  | [] => []

/-- Percent decoding; a text whose decoded bytes are not UTF-8 stays as it is. -/
def urlDecode (text : String) : String :=
  let bytes : ByteArray := ⟨(percentDecode text.toUTF8.data.toList).toArray⟩
  (String.fromUTF8? bytes).getD text

def isHostedRepository (repo : String) : Bool :=
  match Text.split repo (· = '/') with
  | [owner, name] => owner ≠ "" && name ≠ ""
  | _ => false

def beforeHash (text : String) : String :=
  ((Text.splitOnce text (· = '#')).map (·.1)).getD text

def matchesHostedGitUrl (spec host : String) : Bool :=
  match Text.stripPrefix (Text.trim spec) host with
  | none => false
  | some rest => isHostedRepository (Text.trimMatches (beforeHash rest) '/')

def looksLikeHostedGitUrl (spec : String) : Bool :=
  matchesHostedGitUrl spec "https://github.com/" ||
    matchesHostedGitUrl spec "https://gitlab.com/" ||
    matchesHostedGitUrl spec "https://bitbucket.org/"

def looksLikeHostedGitShorthand (spec : String) : Bool :=
  let trimmed := Text.trim spec
  if trimmed = "" || Text.startsWith trimmed "@" || Text.startsWith trimmed "." ||
      Text.startsWith trimmed "/" || Text.containsSeq trimmed "://" ||
      Text.containsChar trimmed (fun c => c = '\\' || c = ' ') then false
  else isHostedRepository (beforeHash trimmed)

def isGitProtocolPrefix (scheme : String) : Bool :=
  scheme ∈ ["git", "git+http", "git+https", "git+rsync", "git+ftp", "git+file", "git+ssh", "ssh",
    "github", "gitlab", "bitbucket"]

/-- Free of the characters that name, scope or locate a package. -/
def hasNoNameChars (value : String) : Bool :=
  value ≠ "" && !Text.containsChar value fun c => c = '@' || c = '/' || c = ':'

/-- The name and range behind a registry protocol: `name@range`, or a name. -/
def splitRegistryTarget (protocol : RegistryProtocol) (rest : String) : DepRequest :=
  match Text.rsplitOnce rest (· = '@') with
  | none => ⟨rest, "latest", protocol⟩
  | some (name, version) =>
      ⟨if name = "" then rest else name, if version = "" then "latest" else version, protocol⟩

def schemeProtocol (scheme : String) : RegistryProtocol :=
  if scheme = "npm" then .npm
  else if scheme = "jsr" then .jsr
  else if scheme = "file" ∨ scheme = "link" ∨ scheme = "portal" then .file
  else .custom scheme

/-- A spec with a scheme that is not a patch and not a hosted repository. -/
def splitSchemeSpec (spec : String) : Option DepRequest := do
  let (scheme, rest) ← Text.splitOnce spec (· = ':')
  if scheme = "" ∨ rest = "" then none
  else if isGitProtocolPrefix scheme then some ⟨scheme ++ ":" ++ rest, "latest", .git⟩
  else if schemeProtocol scheme = .file then some ⟨rest, "latest", .file⟩
  else some (splitRegistryTarget (schemeProtocol scheme) rest)

/-- The locator `name@inner` of a patch target, with a scoped name kept whole. -/
def splitPatchLocator (target : String) : Option (String × String) :=
  let parts :=
    if Text.startsWith target "@" then do
      let (scope, rest) ← Text.splitOnce target (· = '/')
      let (name, inner) ← Text.splitOnce rest (· = '@')
      some (scope ++ "/" ++ name, inner)
    else Text.splitOnce target (· = '@')
  match parts with
  | some (name, inner) => if name = "" ∨ inner = "" then none else some (name, inner)
  | none => none

/-- The registry target of a patch locator; `again` splits a spec that carries
a name of its own. -/
def splitPatchRegistryTarget (again : String → Option DepRequest) (name rest : String)
    (protocol : RegistryProtocol) : DepRequest :=
  if rest = "" then ⟨name, "latest", protocol⟩
  else if hasNoNameChars rest then ⟨name, rest, protocol⟩
  else (again (protocol.name ++ ":" ++ rest)).getD ⟨name, rest, protocol⟩

def splitPatchLocatorSpec (again : String → Option DepRequest) (name inner : String) :
    DepRequest :=
  match Text.stripPrefix inner "npm:", Text.stripPrefix inner "jsr:" with
  | some rest, _ => splitPatchRegistryTarget again name rest .npm
  | none, some rest => splitPatchRegistryTarget again name rest .jsr
  | none, none => (again inner).getD ⟨name, inner, .npm⟩

def splitPatchProtocolSpec (again : String → Option DepRequest) (spec : String) :
    Option DepRequest := do
  let target := beforeHash (← Text.stripPrefix spec "patch:")
  if target = "" then none
  else
    let decoded := urlDecode target
    match splitPatchLocator decoded with
    | some (name, inner) => some (splitPatchLocatorSpec again name inner)
    | none => again decoded

/-- Patch specs nest. Every layer is shorter than the one around it by its
prefix, so the length of the spec is fuel enough. -/
def splitProtocolSpecWithin : Nat → String → Option DepRequest
  | 0, _ => none
  | fuel + 1, spec =>
      if looksLikeHostedGitUrl spec then some ⟨spec, "latest", .git⟩
      else (splitPatchProtocolSpec (splitProtocolSpecWithin fuel) spec).or (splitSchemeSpec spec)

def splitProtocolSpec (spec : String) : Option DepRequest :=
  splitProtocolSpecWithin (spec.length + 1) spec

/-- An override for the name, or for the name at this protocol and range. -/
def selectOverride (name range : String) (protocol : RegistryProtocol)
    (overrides : Option (BTreeMap String String)) : Option String := do
  let overrides ← overrides
  (overrides[name]?).or <|
    (overrides[name ++ "@" ++ protocol.name ++ ":" ++ range]?).or
      overrides[name ++ "@" ++ range]?

def looksLikeRegistryRange (value : String) : Bool :=
  hasNoNameChars value &&
    match value.toList.head? with
    | some c => Text.isAsciiDigit c || c ∈ ['^', '~', '=', '>', '<', '*', 'x', 'X']
    | none => false

def packageLessRange (rest : String) : Option String :=
  if rest = "" then some "latest"
  else if looksLikeRegistryRange rest then some rest
  else none

/-- A registry protocol followed by a range only; the name is the edge's. -/
def splitPackageLessRegistrySpec (spec : String) : Option (RegistryProtocol × String) :=
  (((Text.stripPrefix spec "npm:").bind packageLessRange).map fun range => (.npm, range)).or
    (((Text.stripPrefix spec "jsr:").bind packageLessRange).map fun range => (.jsr, range))

def splitWorkspaceSpec (spec : String) : Option String :=
  (Text.stripPrefix spec "workspace:").map fun rest =>
    let rest := Text.trim rest
    if rest ∈ ["", "*", "^", "~"] then "*" else rest

def resolveLocalWorkspaceSource (name spec : String)
    (workspaceSources : Option (BTreeMap String String)) : Option String :=
  if Text.startsWith spec "workspace:" then workspaceSources.bind (·[name]?) else none

def overriddenRange (name range : String) (protocol : RegistryProtocol)
    (overrides : Option (BTreeMap String String)) : String :=
  (selectOverride name range protocol overrides).getD range

/-- The request that a spec denotes once overrides are applied. -/
def requestOf (name spec : String) (protocol : RegistryProtocol)
    (workspaceSources : Option (BTreeMap String String)) : DepRequest :=
  match resolveLocalWorkspaceSource name spec workspaceSources with
  | some source => ⟨source, "latest", .file⟩
  | none =>
  match splitWorkspaceSpec spec with
  | some range => ⟨name, range, .npm⟩
  | none =>
  match splitPackageLessRegistrySpec spec with
  | some (protocol, range) => ⟨name, range, protocol⟩
  | none =>
  match splitProtocolSpec spec with
  | some request => request
  | none =>
      if protocol.name = "git" then ⟨spec, "latest", protocol⟩
      else ⟨name, spec, protocol⟩

def buildDepRequest (name range : String) (protocol : RegistryProtocol)
    (overrides workspaceSources : Option (BTreeMap String String)) : DepRequest :=
  requestOf name (overriddenRange name range protocol overrides) protocol workspaceSources

example : buildDepRequest "my-h3" "npm:h3@^2.0.0" .npm none none = ⟨"h3", "^2.0.0", .npm⟩ := by
  decide +kernel
example : buildDepRequest "brace" "npm:^1.1.7" .npm none none = ⟨"brace", "^1.1.7", .npm⟩ := by
  decide +kernel
example : splitProtocolSpec "patch:typedoc@npm%3A4.4.0#~/.yarn/typedoc.patch" =
    some ⟨"typedoc", "4.4.0", .npm⟩ := by
  decide +kernel

end Resolve
end Snpm
