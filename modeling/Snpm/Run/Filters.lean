import Mathlib
import Snpm.Library.QueueWalk
import Snpm.Library.TextParts
import Snpm.Project
import Snpm.Store.Naming

/-!
The filters of workspace commands: how a selector is read, which projects it
stands for, and how the selectors are combined. The projects are numbered in the
order of the workspace.
-/
namespace Snpm.Run

inductive BaseSelector where
  | changedSince (revision : String)
  | path (path : PathBuf)
  | nameGlob (pattern : String)
  | name (name : String)
deriving DecidableEq

structure Selector where
  base : BaseSelector
  includeDependencies : Bool
  includeDependents : Bool
  excludeSelf : Bool
  exclude : Bool
  prodOnly : Bool
deriving DecidableEq

/-- The glob library, and `git diff --name-only` with its output or the reason of
its failure. -/
structure FilterWorld where
  globPattern : String → Option (String → Bool)
  gitDiff : PathBuf → String → Except String String

section Parse

def isAbsolutePath (path : PathBuf) : Bool := Text.startsWith path "/"

def normalizeSelectorPath (selector : String) : Except String PathBuf :=
  let relative := Text.trimEndMatches (Text.trimEndMatches selector '/') '\\'
  let normalized :=
    ((Text.stripPrefix relative "./").or (Text.stripPrefix relative ".\\")).getD relative
  if normalized = "" then .error "empty path selector" else .ok normalized

def isPathSelector (raw : String) : Bool :=
  Text.startsWith raw "./" || Text.startsWith raw ".\\" || Text.startsWith raw "../" ||
    Text.startsWith raw "..\\" || Text.startsWith raw "/" || isAbsolutePath raw ||
    Text.endsWith raw "\\" || Text.endsWith raw "/" || Text.containsChar raw (· = '\\')

def parseBase (raw : String) : Except String BaseSelector :=
  if Text.startsWith raw "[" && Text.endsWith raw "]" && 2 < raw.length then
    .ok (.changedSince (String.ofList (raw.toList.tail.dropLast)))
  else if isPathSelector raw then (normalizeSelectorPath raw).map .path
  else if Text.containsChar raw fun c => c = '*' || c = '?' then .ok (.nameGlob raw)
  else .ok (.name raw)

/-- A mark that was stripped, and the text without it. -/
def stripMark (raw : String) (stripped : Option String) : Bool × String :=
  match stripped with
  | some selector => (true, selector)
  | none => (false, raw)

def parseSelector (raw : String) (prodOnly : Bool) : Except String Selector :=
  if raw = "" then .error "empty --filter selector"
  else
    let (exclude, raw) := stripMark raw (Text.stripPrefix raw "!")
    if raw = "" then .error "empty --filter selector"
    else
      let (includeDependents, raw) := stripMark raw (Text.stripPrefix raw "...")
      let (excludeSelfFromDependents, raw) := stripMark raw (Text.stripPrefix raw "^")
      let (includeDependencies, raw) := stripMark raw (Text.stripSuffix raw "...")
      let (excludeSelfFromDependencies, raw) := stripMark raw (Text.stripSuffix raw "^")
      let excludeSelf := excludeSelfFromDependencies || excludeSelfFromDependents
      if raw = "" then .error "empty --filter selector"
      else if excludeSelf && !(includeDependencies || includeDependents) then
        .error "selector '^' can only be used with dependency graph operators"
      else
        (parseBase raw).map fun base =>
          ⟨base, includeDependencies, includeDependents, excludeSelf, exclude, prodOnly⟩

def parseEffectiveFilters (filters filterProds : List String) : Except String (List Selector) := do
  let selectors ← filters.mapM (parseSelector · false)
  let prodSelectors ← filterProds.mapM (parseSelector · true)
  .ok (selectors ++ prodSelectors)

end Parse

section Graph

variable (projects : List Project)

abbrev Index (projects : List Project) := Fin projects.length

def outgoingDependencies (project : Project) (prodOnly : Bool) : BTreeSet String :=
  let manifest := project.manifest
  if prodOnly then .ofList (manifest.dependencies.keys ++ manifest.optionalDependencies.keys) compare
  else
    .ofList (manifest.dependencies.keys ++ manifest.devDependencies.keys ++
      manifest.optionalDependencies.keys) compare

def indexByName : BTreeMap String (Index projects) :=
  BTreeMap.collect ((List.finRange projects.length).filterMap fun i =>
    (projects.get i).manifest.name.map fun name => (name, i))

def outgoing (prodOnly : Bool) (i : Index projects) : List (Index projects) :=
  (outgoingDependencies (projects.get i) prodOnly).toList.filterMap ((indexByName projects)[·]?)

/-- Every edge is entered at its target, too. -/
def incoming (prodOnly : Bool) (target : Index projects) : List (Index projects) :=
  (List.finRange projects.length).flatMap fun i =>
    (outgoing projects prodOnly i).filterMap fun found => if found = target then some i else none

def walkDependencies (seeds : Finset (Index projects)) (prodOnly : Bool) :
    Finset (Index projects) :=
  QueueWalk.walk (outgoing projects prodOnly) (∅, seeds.sort (· ≤ ·))

def walkDependents (seeds : Finset (Index projects)) (prodOnly : Bool) :
    Finset (Index projects) :=
  QueueWalk.walk (incoming projects prodOnly) (∅, seeds.sort (· ≤ ·))

end Graph

section Select

variable (world : FilterWorld) (workspace : Workspace)

def pathStartsWith (path target : PathBuf) : Bool :=
  target.components.isPrefixOf path.components

def patternMatches (pattern value : String) : Bool :=
  match world.globPattern pattern with
  | some matcher => matcher value
  | none => Text.containsSeq value pattern

def selectorMatches (project : Project) (base : BaseSelector) : Bool :=
  match base with
  | .name name => project.manifest.name = some name
  | .nameGlob pattern =>
      match project.manifest.name with
      | some name => patternMatches world pattern name
      | none => false
  | .path relative =>
      let target := if isAbsolutePath relative then relative else workspace.root.join relative
      pathStartsWith project.root target
  | .changedSince _ => false

def changedSince (revision : String) : Result (Finset (Index workspace.projects)) :=
  match world.gitDiff workspace.root revision with
  | .error reason => .error (.workspaceConfig workspace.root reason)
  | .ok output =>
      let changed := ((Text.lines output).map Text.trim).filter (· ≠ "")
      .ok (Finset.univ.filter fun i => changed.any fun line =>
        pathStartsWith (workspace.root.join line) (workspace.projects.get i).root)

/-- The projects a selector starts from. -/
def baseMatches (base : BaseSelector) : Result (Finset (Index workspace.projects)) :=
  match base with
  | .changedSince revision => changedSince world workspace revision
  | base => .ok (Finset.univ.filter fun i =>
      selectorMatches world workspace (workspace.projects.get i) base)

/-- The walks go out from the projects the selector starts from. -/
def expandFrom (projects : List Project) (selector : Selector) (original : Finset (Index projects)) :
    Finset (Index projects) :=
  let included := original
  let included := if selector.includeDependencies then
    included ∪ walkDependencies projects original selector.prodOnly else included
  let included := if selector.includeDependents then
    included ∪ walkDependents projects original selector.prodOnly else included
  if selector.excludeSelf then included \ original else included

def expandSelector (selector : Selector) : Result (Finset (Index workspace.projects)) := do
  let original ← baseMatches world workspace selector.base
  .ok (expandFrom workspace.projects selector original)

/-- The included and the excluded projects. -/
def applySelector
    (state : Finset (Index workspace.projects) × Finset (Index workspace.projects))
    (selector : Selector) :
    Result (Finset (Index workspace.projects) × Finset (Index workspace.projects)) := do
  let found ← expandSelector world workspace selector
  if selector.exclude then .ok (state.1, state.2 ∪ found) else .ok (state.1 ∪ found, state.2)

def applySelectors (selectors : List Selector) : Result (Finset (Index workspace.projects)) := do
  let hasPositive := selectors.any fun selector => !selector.exclude
  let start := if hasPositive then ∅ else Finset.univ
  let state ← selectors.foldlM (applySelector world workspace) (start, ∅)
  .ok (state.1 \ state.2)

/-- The projects with some numbers, in workspace order. -/
def projectsAt (projects : List Project) (selected : Finset (Index projects)) : List Project :=
  ((List.finRange projects.length).filter (· ∈ selected)).map projects.get

def selectWorkspaceProjects (filters filterProds : List String) : Result (List Project) :=
  if filters = [] ∧ filterProds = [] then .ok workspace.projects
  else
    match parseEffectiveFilters filters filterProds with
    | .error reason => .error (.workspaceConfig workspace.root reason)
    | .ok selectors =>
        if selectors = [] then .ok []
        else do
          let selected ← applySelectors world workspace selectors
          .ok (projectsAt workspace.projects selected)

end Select

example : parseSelector "!...^@app/*^..." true =
    .ok ⟨.nameGlob "@app/*", true, true, true, true, true⟩ := by decide +kernel
example : parseSelector "./packages/" false =
    .ok ⟨.path "packages", false, false, false, false, false⟩ := by decide +kernel

end Snpm.Run
