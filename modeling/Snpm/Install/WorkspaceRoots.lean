import Mathlib
import Snpm.Install.Files
import Snpm.Install.Manifest

/-!
The root specs of a workspace. Every member contributes its own roots, and
ranges that two members declare for one name are merged into one.
-/
namespace Snpm.Install

variable (S : SemverCrate)

def isRangeSigil (c : Char) : Bool :=
  c = '^' || c = '~' || c = '=' || c = '>' || c = '<'

def isVersion (text : String) : Bool := (parseVersion S text).toOption.isSome

def normalizeFloorVersion (token : String) : Option String :=
  let token := Text.trim token
  if token = "" then none
  else if isVersion S token then some token
  else
    let normalized := match Text.split token (· = '.') with
      | [major] => if (Text.parseU64 major).isSome then some (major ++ ".0.0") else none
      | [major, minor] =>
          if (Text.parseU64 major).isSome ∧ (Text.parseU64 minor).isSome then
            some (major ++ "." ++ minor ++ ".0")
          else none
      | _ => none
    normalized.bind fun text => if isVersion S text then some text else none

/-- The first token of a range that reads as a version. -/
def rangeFloor (range : String) : Option String :=
  (Text.split range fun c => Text.isWhitespace c || c = ',' || c = '|').findSome? fun token =>
    let token := String.ofList ((Text.trim token).toList.dropWhile isRangeSigil)
    if token = "" then none else normalizeFloorVersion S token

def isExactVersion (range : String) : Bool :=
  isVersion S (Text.trimStartMatches range '=')

def specificityRank (range : String) : Nat :=
  let trimmed := Text.trim range
  if isExactVersion S trimmed then 3
  else if Text.startsWith trimmed "~" then 2
  else if Text.startsWith trimmed "^" then 1
  else 0

/-- The range with the higher floor, else the more specific one. -/
def chooseMoreSpecific (existing incoming existingFloor incomingFloor : String) : String :=
  let bySpecificity :=
    if specificityRank S existing < specificityRank S incoming then incoming else existing
  match parseVersion S existingFloor, parseVersion S incomingFloor with
  | .ok existingVersion, .ok incomingVersion =>
      match S.cmp existingVersion incomingVersion with
      | .lt => incoming
      | .gt => existing
      | .eq => bySpecificity
  | _, _ => bySpecificity

inductive RangeMerge where
  | compatible (range : String)
  | exclusive (range : String)

def RangeMerge.range : RangeMerge → String
  | .compatible range => range
  | .exclusive range => range

def mergeWorkspaceRanges (existing incoming : String) : Option RangeMerge :=
  if existing = incoming then some (.compatible existing)
  else if Text.startsWith existing "file:" || Text.startsWith incoming "file:" then none
  else do
    let existingRanges ← (RangeSet.parse S existing).toOption
    let incomingRanges ← (RangeSet.parse S incoming).toOption
    let existingRaw ← rangeFloor S existing
    let incomingRaw ← rangeFloor S incoming
    let existingFloor ← (parseVersion S existingRaw).toOption
    let incomingFloor ← (parseVersion S incomingRaw).toOption
    let chosen := chooseMoreSpecific S existing incoming existingRaw incomingRaw
    match existingRanges.contains incomingFloor, incomingRanges.contains existingFloor with
    | true, true => some (.compatible chosen)
    | true, false => some (.compatible incoming)
    | false, true => some (.compatible existing)
    | false, false => some (.exclusive chosen)

/-- A relative file range becomes absolute: it belongs to its declaring member. -/
def resolveWorkspaceRange (files : FileView) (name range : String) (memberRoot : PathBuf) :
    Result String :=
  match Text.stripPrefix range "file:" with
  | none => .ok range
  | some path =>
      if Text.startsWith path "/" then .ok range
      else
        let absolute := memberRoot.join path
        match files.canonicalize absolute with
        | .ok canonical => .ok ("file:" ++ canonical)
        | .error error => .error (.resolutionFailed name range
            ("Failed to resolve file path " ++ absolute ++ ": " ++ error))

def insertWorkspaceRootDep (files : FileView) (workspaceRoot memberRoot : PathBuf)
    (combined : BTreeMap String String) (dep : String × String) :
    Result (BTreeMap String String) := do
  let resolved ← resolveWorkspaceRange files dep.1 dep.2 memberRoot
  match combined[dep.1]? with
  | none => .ok (combined.insert dep.1 resolved)
  | some existing =>
      match mergeWorkspaceRanges S existing resolved with
      | some merged => .ok (combined.insert dep.1 merged.range)
      | none => .error (.workspaceConfig workspaceRoot
          ("dependency " ++ dep.1 ++ " has conflicting ranges " ++ existing ++ " and " ++
            resolved ++ " across workspace projects"))

/-- Overrides apply to a member's spec before it is merged. -/
def memberSpec (workspace : Workspace) (overrides : BTreeMap String String) (name range : String) :
    Result (Option String) := do
  let range := (Resolve.selectOverride name range .npm (some overrides)).getD range
  match (workspace.projectByName name).bind (·.manifest.version) with
  | some version =>
      if Text.startsWith range "workspace:" then
        let normalized ← normalizeWorkspaceSpec name range version
        .ok (some (if normalized = "" then version else normalized))
      else .ok (some range)
  | none => .ok (some range)

def applyMemberSpecs (workspace : Workspace) (overrides deps : BTreeMap String String) :
    Result (BTreeMap String String) := do
  let applied ← applySpecs S (some workspace) none deps
  BTreeMap.filterMapM (memberSpec workspace overrides) applied

def memberDevSpecs (workspace : Workspace) (overrides : BTreeMap String String) (member : Project)
    (includeDev : Bool) : Result (BTreeMap String String) :=
  if includeDev then applyMemberSpecs S workspace overrides member.manifest.devDependencies
  else .ok ∅

def buildMemberRootSpecs (workspace : Workspace) (overrides : BTreeMap String String)
    (member : Project) (includeDev : Bool) : Result RootSpecSet := do
  let dependencies ← applyMemberSpecs S workspace overrides member.manifest.dependencies
  let optional ← applyMemberSpecs S workspace overrides member.manifest.optionalDependencies
  let development ← memberDevSpecs S workspace overrides member includeDev
  .ok (buildProjectRootSpecs dependencies development optional includeDev)

/-- An optional root of one member is required as soon as another requires it. -/
def insertOptionalRoot (files : FileView) (workspaceRoot memberRoot : PathBuf) (specs : RootSpecSet)
    (dep : String × String) : Result RootSpecSet := do
  if specs.required.contains dep.1 then
    let required ← insertWorkspaceRootDep S files workspaceRoot memberRoot specs.required dep
    .ok { specs with required := required }
  else
    let optional ← insertWorkspaceRootDep S files workspaceRoot memberRoot specs.optional dep
    .ok { specs with optional := optional }

def collectMember (files : FileView) (workspace : Workspace) (includeDev : Bool)
    (overrides : BTreeMap String String) (specs : RootSpecSet) (member : Project) :
    Result RootSpecSet := do
  let memberSpecs ← buildMemberRootSpecs S workspace overrides member includeDev
  let required ← memberSpecs.required.toList.foldlM
    (insertWorkspaceRootDep S files workspace.root member.root) specs.required
  memberSpecs.optional.toList.foldlM (insertOptionalRoot S files workspace.root member.root)
    { specs with required := required }

def collectWorkspaceRootSpecsWithOverrides (files : FileView) (workspace : Workspace)
    (includeDev : Bool) (overrides : BTreeMap String String) : Result RootSpecSet :=
  workspace.projects.foldlM (collectMember S files workspace includeDev overrides) ⟨∅, ∅⟩

example : (mergeWorkspaceRanges releaseCrate "^1.0.0" "~1.2.0").map (·.range) = some "~1.2.0" := by
  decide +kernel

end Snpm.Install
