import Mathlib
import Snpm.Config.HostAuth
import Snpm.Library.Lines

/-!
Credentials in the user's rc file: `login` drops the lines of a host and adds
one, `logout` drops the lines of a host. The file is its text; `none` stands for
a path that is no file.
-/
namespace Snpm.Auth

open Config (hostFromUrl)

def registryHost (registryUrl : String) : Result String :=
  match hostFromUrl registryUrl with
  | some host => .ok host
  | none => .error (.auth ("invalid registry URL: " ++ registryUrl))

def validateScope (scopeName : Option String) : Result (Option String) :=
  match (scopeName.map Text.trim).filter (· ≠ "") with
  | none => .ok none
  | some name =>
      if ¬ Text.startsWith name "@" then
        .error (.auth ("scope must start with @ (got: " ++ name ++ ")"))
      else if name = "@" then .error (.auth "scope cannot be just @")
      else .ok (some name)

def matchesAuthLine (line host : String) : Bool :=
  if ¬ Text.startsWith line "//" ∨ ¬ Text.containsSeq line ":_authToken=" then false
  else
    match Text.stripPrefix line "//" with
    | none => false
    | some afterSlashes =>
        let hostPart :=
          Text.trimEndMatches ((Text.splitSeq afterSlashes ":_authToken").headD "") '/'
        hostPart = host || Text.startsWith hostPart (host ++ "/")

def matchesScopeLine (line : String) (scopeName : Option String) : Bool :=
  match scopeName with
  | none => false
  | some name =>
      Text.startsWith line "@" && Text.trim ((Text.splitSeq line ":registry=").headD "") = name

def shouldKeepLine (line host : String) (scopeName : Option String) : Bool :=
  let trimmed := Text.trim line
  trimmed ≠ "" && !matchesAuthLine trimmed host && !matchesScopeLine trimmed scopeName

def readRcFile (file : Option String) : List String := Text.lines (file.getD "")

def writeRcFile (lines : List String) : String :=
  if lines = [] then "" else String.intercalate "\n" lines ++ "\n"

def chosenRegistry (defaultRegistry : String) (registry : Option String) : String :=
  (registry.filter fun value => Text.trim value ≠ "").getD defaultRegistry

def credentialLine (host token : String) : String := "//" ++ host ++ "/:_authToken=" ++ token

def scopeLines (scopeName : Option String) (registryUrl : String) : List String :=
  (scopeName.map fun name => name ++ ":registry=" ++ registryUrl).toList

/-- What the rc file holds afterwards. -/
def saveCredentials (defaultRegistry : String) (registry : Option String) (token : String)
    (scopeName : Option String) (file : Option String) : Result String := do
  let token := Text.trim token
  if token = "" then .error (.auth "token cannot be empty")
  else
    let registryUrl := chosenRegistry defaultRegistry registry
    let host ← registryHost registryUrl
    let validated ← validateScope scopeName
    let lines := (readRcFile file).filter fun line => shouldKeepLine line host validated
    .ok (writeRcFile (lines ++ [credentialLine host token] ++ scopeLines validated registryUrl))

/-- What the rc file holds afterwards; a path that is no file stays so. -/
def logout (defaultRegistry : String) (registry : Option String) (scopeName : Option String)
    (file : Option String) : Result (Option String) := do
  let registryUrl := chosenRegistry defaultRegistry registry
  let host ← registryHost registryUrl
  let validated ← validateScope scopeName
  match file with
  | none => .ok none
  | some _ =>
      let original := readRcFile file
      let filtered := original.filter fun line => shouldKeepLine line host validated
      if filtered.length = original.length then
        .error (.auth ("no credentials found for " ++ registryUrl))
      else .ok (some (writeRcFile filtered))

theorem writeRcFile_eq_unlines (lines : List String) : writeRcFile lines = Text.unlines lines := by
  unfold writeRcFile
  split
  next hempty =>
      rw [hempty]
      decide
  next hne => exact (Text.unlines_eq_intercalate hne).symm

example : matchesAuthLine "//registry.npmjs.org:_authToken=abc" "registry.npmjs.org" = true := by
  decide +kernel

example : matchesAuthLine "//gitlab.company.com/api/:_authToken=abc" "gitlab.com" = false := by
  decide +kernel

end Snpm.Auth
