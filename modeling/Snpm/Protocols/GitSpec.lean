import Mathlib
import Snpm.Error
import Snpm.Library.TextParts

/-!
Git dependency specs: the committish after the last hash, and the repository URL
behind shorthands and short forms of an ssh URL.
-/
namespace Snpm.Git

structure GitSpec where
  repo : String
  committish : Option String
deriving DecidableEq

def splitCommittish (value : String) : String × Option String :=
  match Text.rsplitOnce value (· = '#') with
  | none => (value, none)
  | some (base, committish) =>
      (Text.trim base, if Text.trim committish = "" then none else some (Text.trim committish))

def normalizeGitColon (rest : String) : Except String String :=
  let cleaned := Text.trim rest
  if cleaned = "" then .error "git: URL is missing a repo"
  else if Text.startsWith cleaned "//" then .ok ("git:" ++ cleaned)
  else if Text.containsSeq cleaned "://" then .ok cleaned
  else if Text.containsChar cleaned (· = '@') then .ok cleaned
  else
    match Text.splitOnce cleaned (· = ':') with
    | some (host, path) =>
        if host = "" ∨ path = "" then .error ("git: URL is invalid: " ++ cleaned)
        else .ok ("ssh://git@" ++ host ++ "/" ++ path)
    | none => .ok ("git://" ++ cleaned)

/-- The path that an ssh URL gives in the place of a port. -/
def correctSshUrl (url : String) : String :=
  match Text.stripPrefix url "ssh://" with
  | none => url
  | some rest =>
      let (authHost, path) := (Text.splitOnce rest (· = '/')).getD (rest, "")
      match Text.rsplitOnce authHost (· = ':') with
      | none => url
      | some (left, candidate) =>
          if candidate = "" ∨ candidate.toList.all Text.isAsciiDigit then url
          else if path = "" then "ssh://" ++ left ++ "/" ++ candidate
          else "ssh://" ++ left ++ "/" ++ candidate ++ "/" ++ path

def looksLikeBareHostedRepo (spec : String) : Bool :=
  if spec = "" || Text.startsWith spec "@" || Text.startsWith spec "." || Text.startsWith spec "/" ||
      Text.containsSeq spec "://" || Text.containsChar spec (· = '\\') ||
      Text.containsChar spec (· = ' ') then false
  else
    match Text.split spec (· = '/') with
    | [owner, name] => owner ≠ "" && name ≠ ""
    | _ => false

/-- The host of a shorthand and the text after it. -/
def hostedRepo (trimmed : String) : Option (String × String) :=
  match Text.stripPrefix trimmed "github:", Text.stripPrefix trimmed "gitlab:",
    Text.stripPrefix trimmed "bitbucket:" with
  | some repo, _, _ => some ("github.com", repo)
  | none, some repo, _ => some ("gitlab.com", repo)
  | none, none, some repo => some ("bitbucket.org", repo)
  | none, none, none =>
      if looksLikeBareHostedRepo trimmed then some ("github.com", trimmed) else none

def normalizeHostedRepo (raw : String) : Option String :=
  (hostedRepo (Text.trim raw)).bind fun (host, repo) =>
    let repo := Text.trimMatches (Text.trim repo) '/'
    if repo = "" then none
    else some ("https://" ++ host ++ "/" ++ (Text.stripSuffix repo ".git").getD repo ++ ".git")

/-- The URL of a repository that is not written with `git:` or no longer is. -/
def normalizeRepo (repo : String) : String :=
  (normalizeHostedRepo repo).getD (correctSshUrl repo)

def normalizeGitRepo (raw : String) : Except String String :=
  let repo := Text.trim raw
  if repo = "" then .error "git repo URL is empty"
  else
    let repo := (Text.stripPrefix repo "git+").getD repo
    match Text.stripPrefix repo "git:" with
    | none => .ok (normalizeRepo repo)
    | some rest =>
        match normalizeGitColon rest with
        | .error reason => .error reason
        | .ok repo => .ok (normalizeRepo repo)

def parseGitSpec (raw : String) : Result GitSpec :=
  let trimmed := Text.trim raw
  if trimmed = "" then .error (.resolutionFailed raw "latest" "git spec is empty")
  else
    match normalizeGitRepo (splitCommittish trimmed).1 with
    | .error reason => .error (.resolutionFailed raw "latest" reason)
    | .ok repo => .ok ⟨repo, (splitCommittish trimmed).2⟩

example : (parseGitSpec "github:acme/pkg#main").toOption =
    some ⟨"https://github.com/acme/pkg.git", some "main"⟩ := by
  decide +kernel

example : (parseGitSpec "ssh://git@example.com:acme/pkg.git").toOption =
    some ⟨"ssh://git@example.com/acme/pkg.git", none⟩ := by
  decide +kernel

end Snpm.Git
