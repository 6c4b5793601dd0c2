import Mathlib
import Snpm.Config.Runtime
import Snpm.Library.Json
import Snpm.Lockfile

/-!
The import of an npm lockfile of version 2 or 3: install paths, links, and the
root and the packages of the lockfile that is built from them.
-/
namespace Snpm.Compat.Npm

open Config (RuntimeConfig registryUrlForPackageName)

structure RawNpmPackage where
  name : Option String
  version : Option String
  resolved : Option String
  integrity : Option String
  link : Bool
  dependencies : BTreeMap String String
  devDependencies : BTreeMap String String
  optionalDependencies : BTreeMap String String
  peerDependencies : BTreeMap String String
  /-- The peers that `peerDependenciesMeta` names, and whether each is optional. -/
  peerDependenciesMeta : BTreeMap String Bool
  bundledDependencies : Option BundledDependencies
  bundleDependencies : Option BundledDependencies
  bin : Option Json
  workspaces : List String

def RawNpmPackage.empty : RawNpmPackage where
  name := none
  version := none
  resolved := none
  integrity := none
  link := false
  dependencies := ∅
  devDependencies := ∅
  optionalDependencies := ∅
  peerDependencies := ∅
  peerDependenciesMeta := ∅
  bundledDependencies := none
  bundleDependencies := none
  bin := none
  workspaces := []

structure PackageEntry where
  installPath : String
  name : String
  version : String
  lockKey : String
deriving DecidableEq

inductive DependencyResolution where
  | packageKey (key : String)
  | workspaceMember
  | missing
deriving DecidableEq

section Paths

def stripDotSlash : List Char → List Char
  | '.' :: '/' :: rest => stripDotSlash rest
  | cs => cs

def normalizeLockfilePath (path : String) : String :=
  Text.trimEndMatches (String.ofList (stripDotSlash (Text.replaceChar path '\\' '/').toList)) '/'

def containsNodeModules (path : String) : Bool :=
  path = "node_modules" || Text.startsWith path "node_modules/" ||
    Text.containsSeq path "/node_modules/"

def parentPath (path : String) : Option String :=
  if path = "" then none
  else
    match Text.rsplitOnce path (· = '/') with
    | some (parent, _) => some parent
    | none => some ""

/-- The part after the last slash. -/
def lastComponent (path : String) : String :=
  match Text.rsplitOnce path (· = '/') with
  | some (_, name) => name
  | none => path

def dependencyCandidate (base depName : String) : String :=
  if base = "" ∨ base = "node_modules" then "node_modules/" ++ depName
  else if lastComponent base = "node_modules" then base ++ "/" ++ depName
  else base ++ "/node_modules/" ++ depName

/-- The directory and those above it; every step drops a character. -/
def ancestorsFrom : Nat → String → List String
  | 0, base => [base]
  | fuel + 1, base =>
      match parentPath base with
      | none => [base]
      | some parent => base :: ancestorsFrom fuel parent

def ancestors (path : String) : List String := ancestorsFrom path.length path

/-- The candidates of the directory and those above it, each once. -/
def dependencyCandidatePaths (sourceInstallPath depName : String) : List String :=
  (((ancestors sourceInstallPath).map fun base => dependencyCandidate base depName) ++
    ["node_modules/" ++ depName]).eraseDups

/-- What follows the last `node_modules/` of a path. -/
def nodeModulesTail (path : String) : Option String :=
  if Text.containsSeq path "node_modules/" then
    (Text.splitSeq path "node_modules/").getLast?
  else none

def packageNameFromInstallPath (installPath : String) : Option String :=
  (nodeModulesTail (normalizeLockfilePath installPath)).bind fun tail =>
    if tail = "" then none
    else
      match Text.stripPrefix tail "@" with
      | some rest =>
          (Text.splitOnce rest (· = '/')).map fun (scopeName, after) =>
            "@" ++ scopeName ++ "/" ++ Text.firstPart after (· = '/')
      | none => some (Text.firstPart tail (· = '/'))

/-- The file name of the lockfile, for messages. -/
def lockfileName (path : PathBuf) : String :=
  let name := lastComponent path
  if name = "" then "package-lock.json" else name

def displaySourceLabel (label : String) : String := if label = "" then "." else label

end Paths

section Entries

variable (path : PathBuf)

def normalizePackages (raw : BTreeMap String RawNpmPackage) : BTreeMap String RawNpmPackage :=
  BTreeMap.collect (raw.toList.map fun entry => (normalizeLockfilePath entry.1, entry.2))

def collectWorkspaceMemberPaths (rootEntry : RawNpmPackage)
    (packagesByPath : BTreeMap String RawNpmPackage) : BTreeSet String :=
  if rootEntry.workspaces = [] then ∅
  else
    Std.ExtTreeSet.ofList (packagesByPath.keys.filter fun p => p ≠ "" && !containsNodeModules p)
      compare

def linkTarget (installPath : String) (package : RawNpmPackage) : Result (Option String) :=
  if ¬ package.link then .ok none
  else
    match (package.resolved.map normalizeLockfilePath).filter (· ≠ "") with
    | some target => .ok (some target)
    | none => .error (.lockfile path (lockfileName path ++ " link entry `" ++ installPath ++
        "` is missing a resolved target"))

def collectLinkTargets (packagesByPath : BTreeMap String RawNpmPackage) :
    Result (BTreeMap String String) :=
  BTreeMap.filterMapM (linkTarget path) packagesByPath

def insertLinkName (names : BTreeMap String (BTreeSet String)) (link : String × String) :
    BTreeMap String (BTreeSet String) :=
  match packageNameFromInstallPath link.1 with
  | none => names
  | some name => names.insert link.2 ((names.getD link.2 ∅).insert name)

def collectLinkNamesByTarget (linkTargetsByPath : BTreeMap String String) :
    BTreeMap String (BTreeSet String) :=
  linkTargetsByPath.toList.foldl insertLinkName ∅

def nameFromLinks (installPath : String) (linkNames : Option (BTreeSet String)) :
    Result (Option String) :=
  match (linkNames.getD ∅).toList with
  | [] => .ok none
  | [name] => .ok (some name)
  | names => .error (.lockfile path (lockfileName path ++ " local package entry `" ++ installPath ++
      "` is linked from multiple names: " ++ String.intercalate ", " names))

def resolvePackageName (installPath : String) (package : RawNpmPackage)
    (linkNames : Option (BTreeSet String)) : Result String :=
  match package.name.filter (· ≠ ""), packageNameFromInstallPath installPath with
  | some name, _ => .ok name
  | none, some name => .ok name
  | none, none => do
      match ← nameFromLinks path installPath linkNames with
      | some name => .ok name
      | none =>
          if lastComponent installPath = "" then
            .error (.lockfile path (lockfileName path ++ " package entry `" ++ installPath ++
              "` is missing a package name"))
          else .ok (lastComponent installPath)

def packageEntry (workspaceMemberPaths : BTreeSet String)
    (linkNamesByTarget : BTreeMap String (BTreeSet String)) (installPath : String)
    (package : RawNpmPackage) : Result (Option PackageEntry) :=
  if installPath = "" ∨ package.link = true ∨ installPath ∈ workspaceMemberPaths then .ok none
  else do
    let name ← resolvePackageName path installPath package linkNamesByTarget[installPath]?
    match package.version.filter (· ≠ "") with
    | some version => .ok (some ⟨installPath, name, version, Lockfile.packageKey name version⟩)
    | none => .error (.lockfile path (lockfileName path ++ " package entry `" ++ installPath ++
        "` is missing a version"))

/-- The entries by install path, in its order. -/
def collectPackageEntries (packagesByPath : BTreeMap String RawNpmPackage)
    (workspaceMemberPaths : BTreeSet String)
    (linkNamesByTarget : BTreeMap String (BTreeSet String)) :
    Result (BTreeMap String PackageEntry) :=
  BTreeMap.filterMapM (packageEntry path workspaceMemberPaths linkNamesByTarget) packagesByPath

def insertLinkKey (workspaceMemberPaths : BTreeSet String) (keys : BTreeMap String String)
    (link : String × String) : Result (BTreeMap String String) :=
  if link.2 ∈ workspaceMemberPaths then .ok keys
  else
    match keys[link.2]? with
    | some key => .ok (keys.insert link.1 key)
    | none => .error (.lockfile path (lockfileName path ++ " link entry `" ++ link.1 ++
        "` points to missing package entry `" ++ link.2 ++ "`"))

def buildInstallPathMap (packageEntries : BTreeMap String PackageEntry)
    (linkTargetsByPath : BTreeMap String String) (workspaceMemberPaths : BTreeSet String) :
    Result (BTreeMap String String) :=
  linkTargetsByPath.toList.foldlM (insertLinkKey path workspaceMemberPaths)
    (packageEntries.map fun _ entry => entry.lockKey)

end Entries

section Resolution

/-- What the dependencies of an entry are resolved with. -/
structure Installed where
  keys : BTreeMap String String
  links : BTreeMap String String
  members : BTreeSet String

def resolveCandidate (installed : Installed) (candidate : String) : Option DependencyResolution :=
  match installed.keys[candidate]?, installed.links[candidate]? with
  | some key, _ => some (.packageKey key)
  | none, some target => if target ∈ installed.members then some .workspaceMember else none
  | none, none => none

def resolveDependency (installed : Installed) (depName sourceInstallPath : String) :
    DependencyResolution :=
  ((dependencyCandidatePaths sourceInstallPath depName).findSome? (resolveCandidate installed)).getD
    .missing

end Resolution

section Packages

variable (path : PathBuf) (config : RuntimeConfig)

def buildLocalFileUrl (projectRoot : PathBuf) (relativePath : String) : String :=
  "file://" ++ projectRoot.join relativePath

def localFileUrl (projectRoot : PathBuf) (resolved : String) : Option String :=
  let resolved := Text.trim resolved
  if resolved = "" then none
  else
    match Text.stripPrefix resolved "file://", Text.stripPrefix resolved "file:" with
    | some filePath, _ => some ("file://" ++ filePath)
    | none, some filePath => some (buildLocalFileUrl projectRoot filePath)
    | none, none =>
        if Text.startsWith resolved "http://" ∨ Text.startsWith resolved "https://" ∨
          Text.containsSeq resolved "://" then none
        else some (buildLocalFileUrl projectRoot resolved)

def encodePackageName (name : String) : String :=
  if Text.startsWith name "@" then
    String.ofList (name.toList.flatMap fun c => if c = '/' then ['%', '2', 'F'] else [c])
  else name

def deriveRegistryTarball (name version : String) : Option String :=
  if Text.containsSeq version "://" ∨ Text.startsWith version "file:" ∨
    Text.startsWith version "link:" ∨ Text.startsWith version "workspace:" ∨
    Text.containsSeq version "#" then none
  else
    some (Text.trimEndMatches (registryUrlForPackageName config name) '/' ++ "/" ++
      encodePackageName name ++ "/-/" ++ lastComponent name ++ "-" ++ version ++ ".tgz")

def buildPackageTarball (projectRoot : PathBuf) (entry : PackageEntry) (raw : RawNpmPackage) :
    String :=
  let fallback :=
    if ¬ containsNodeModules entry.installPath then
      "file://" ++ projectRoot.join entry.installPath
    else (deriveRegistryTarball config entry.name entry.version).getD ""
  match raw.resolved with
  | none => fallback
  | some resolved =>
      if Text.startsWith resolved "http://" ∨ Text.startsWith resolved "https://" then resolved
      else (localFileUrl projectRoot resolved).getD fallback

def hasBin : Json → Bool
  | .string text => text ≠ ""
  | .object members => !members.isEmpty
  | _ => false

def bundledIsEmpty : BundledDependencies → Bool
  | .list names => names.isEmpty
  | .all value => !value

def requiredPeerDependencies (peers : BTreeMap String String) (optionalNames : String → Bool) :
    BTreeMap String String :=
  peers.filter fun name _ => !optionalNames name

def requiredDependencyKey (installed : Installed) (entry : PackageEntry) (depName _range : String) :
    Result (Option String) :=
  match resolveDependency installed depName entry.installPath with
  | .packageKey key => .ok (some key)
  | .workspaceMember | .missing =>
      .error (.lockfile path (lockfileName path ++ " dependency `" ++ depName ++ "` from `" ++
        entry.installPath ++ "` could not be resolved from the imported lockfile"))

def optionalDependencyKey (installed : Installed) (entry : PackageEntry) (depName _range : String) :
    Option String :=
  match resolveDependency installed depName entry.installPath with
  | .packageKey key => some key
  | .workspaceMember | .missing => none

/-- An optional dependency takes the place of a required one of its name. -/
def packageDependencies (installed : Installed) (entry : PackageEntry) (raw : RawNpmPackage) :
    Result (BTreeMap String String) := do
  let required ← BTreeMap.filterMapM (requiredDependencyKey path installed entry) raw.dependencies
  .ok (required ∪ raw.optionalDependencies.filterMap (optionalDependencyKey installed entry))

def lockPackage (projectRoot : PathBuf) (entry : PackageEntry) (raw : RawNpmPackage)
    (dependencies : BTreeMap String String) : LockPackage where
  name := entry.name
  version := entry.version
  tarball := buildPackageTarball config projectRoot entry raw
  integrity := raw.integrity
  dependencies := dependencies
  peerDependencies :=
    requiredPeerDependencies raw.peerDependencies fun name => raw.peerDependenciesMeta.getD name false
  bundledDependencies :=
    (raw.bundledDependencies.or raw.bundleDependencies).filter fun value => !bundledIsEmpty value
  hasBin := raw.bin.any hasBin
  bin := none

/-- The directory of the lockfile. -/
def projectRoot (path : PathBuf) : PathBuf :=
  match Text.rsplitOnce path (· = '/') with
  | some (parent, _) => if parent = "" then "/" else parent
  | none => ""

def insertPackage (packagesByPath : BTreeMap String RawNpmPackage) (installed : Installed)
    (packages : BTreeMap String LockPackage) (entry : PackageEntry) :
    Result (BTreeMap String LockPackage) :=
  match packagesByPath[entry.installPath]? with
  | none => .error (.lockfile path (lockfileName path ++ " package entry `" ++ entry.installPath ++
      "` disappeared during import"))
  | some raw => do
      let dependencies ← packageDependencies path installed entry raw
      let package := lockPackage config (projectRoot path) entry raw dependencies
      match packages[entry.lockKey]? with
      | none => .ok (packages.insert entry.lockKey package)
      | some existing =>
          if existing = package then .ok packages
          else .error (.lockfile path (lockfileName path ++
            " contains multiple package variants that collapse to the same snpm package key `" ++
            entry.lockKey ++ "`"))

def buildPackages (packagesByPath : BTreeMap String RawNpmPackage)
    (packageEntries : BTreeMap String PackageEntry) (installed : Installed) :
    Result (BTreeMap String LockPackage) :=
  packageEntries.values.foldlM (insertPackage path config packagesByPath installed) ∅

end Packages

section Root

variable (path : PathBuf)

def rootDependency (depName requested : String) (resolved : PackageId) (isOptional : Bool) :
    LockRootDependency where
  requested := requested
  package := if resolved.name = depName then none else some resolved.name
  version := some resolved.version
  optional := isOptional

def buildOptionalRootDependency (depName requested : String) (resolved : Option String) :
    LockRootDependency :=
  match resolved.bind Lockfile.splitDepKey with
  | some id => rootDependency depName requested id true
  | none => ⟨requested, none, none, true⟩

def buildRequiredRootDependency (depName requested depKey : String) : Result LockRootDependency :=
  match Lockfile.splitDepKey depKey with
  | some id => .ok (rootDependency depName requested id false)
  | none => .error (.lockfile path ("unsupported resolved dependency key `" ++ depKey ++ "`"))

def rootConflictError (sourceLabel depName left right : String) : SnpmError :=
  .lockfile path (lockfileName path ++ " entry `" ++ displaySourceLabel sourceLabel ++
    "` declares dependency `" ++ depName ++ "` with conflicting values `" ++ left ++ "` and `" ++
    right ++ "`")

/-- The values of a field in two declarations: the one that is there, if they agree. -/
def mergeField (sourceLabel depName : String) (existing incoming : Option String) :
    Result (Option String) :=
  match existing, incoming with
  | some left, some right =>
      if left = right then .ok (some left)
      else .error (rootConflictError path sourceLabel depName left right)
  | some left, none => .ok (some left)
  | none, incoming => .ok incoming

def mergeRootDependency (sourceLabel depName : String) (incoming : LockRootDependency)
    (root : BTreeMap String LockRootDependency) : Result (BTreeMap String LockRootDependency) :=
  match root[depName]? with
  | none => .ok (root.insert depName incoming)
  | some existing =>
      if existing.requested ≠ incoming.requested then
        .error (rootConflictError path sourceLabel depName existing.requested incoming.requested)
      else do
        let package ← mergeField path sourceLabel depName existing.package incoming.package
        let version ← mergeField path sourceLabel depName existing.version incoming.version
        .ok (root.insert depName
          ⟨existing.requested, package, version, existing.optional && incoming.optional⟩)

/-- The root entry of one declaration; `none` for a member that is left out. -/
def incomingRootDependency (sourceLabel depName requested : String)
    (isOptional allowWorkspaceMembers : Bool) :
    DependencyResolution → Result (Option LockRootDependency)
  | .packageKey key =>
      if isOptional then .ok (some (buildOptionalRootDependency depName requested (some key)))
      else (buildRequiredRootDependency path depName requested key).map some
  | .workspaceMember =>
      if allowWorkspaceMembers then .ok none
      else if isOptional then .ok (some (buildOptionalRootDependency depName requested none))
      else .error (.lockfile path (lockfileName path ++ " dependency `" ++ depName ++ "` from `" ++
        sourceLabel ++ "` resolves to an unsupported workspace member link"))
  | .missing =>
      if isOptional then .ok (some (buildOptionalRootDependency depName requested none))
      else .error (.lockfile path (lockfileName path ++ " root dependency `" ++ depName ++
        "` from `" ++ sourceLabel ++ "` could not be resolved from the imported lockfile"))

/-- One declaration of a block. -/
structure Declaration where
  sourceLabel : String
  sourceInstallPath : String
  depName : String
  requested : String
  isOptional : Bool

def insertDeclaration (allowWorkspaceMembers : Bool) (installed : Installed)
    (root : BTreeMap String LockRootDependency) (d : Declaration) :
    Result (BTreeMap String LockRootDependency) := do
  let incoming ← incomingRootDependency path d.sourceLabel d.depName d.requested d.isOptional
    allowWorkspaceMembers (resolveDependency installed d.depName d.sourceInstallPath)
  match incoming with
  | none => .ok root
  | some incoming => mergeRootDependency path d.sourceLabel d.depName incoming root

def blockDeclarations (sourceLabel sourceInstallPath : String) (block : BTreeMap String String)
    (isOptional : Bool) : List Declaration :=
  block.toList.map fun dep => ⟨sourceLabel, sourceInstallPath, dep.1, dep.2, isOptional⟩

/-- The blocks of an entry, in the order in which they are inserted. -/
def entryDeclarations (sourceLabel sourceInstallPath : String) (package : RawNpmPackage) :
    List Declaration :=
  blockDeclarations sourceLabel sourceInstallPath package.dependencies false ++
    blockDeclarations sourceLabel sourceInstallPath package.devDependencies false ++
    blockDeclarations sourceLabel sourceInstallPath package.optionalDependencies true

def buildRootFromEntry (package : RawNpmPackage) (installed : Installed) : Result LockRoot := do
  let dependencies ← (entryDeclarations "." "" package).foldlM
    (insertDeclaration path false installed) ∅
  .ok ⟨dependencies⟩

def insertMember (packagesByPath : BTreeMap String RawNpmPackage) (installed : Installed)
    (root : BTreeMap String LockRootDependency) (memberPath : String) :
    Result (BTreeMap String LockRootDependency) :=
  match packagesByPath[memberPath]? with
  | none => .error (.lockfile path (lockfileName path ++ " workspace member entry `" ++ memberPath ++
      "` disappeared during import"))
  | some member =>
      (entryDeclarations memberPath memberPath member).foldlM
        (insertDeclaration path true installed) root

def buildWorkspaceRoot (packagesByPath : BTreeMap String RawNpmPackage) (installed : Installed) :
    Result LockRoot := do
  let dependencies ← installed.members.toList.foldlM (insertMember path packagesByPath installed) ∅
  .ok ⟨dependencies⟩

end Root

/-- What the root and the packages are built from. -/
def installedPackages (path : PathBuf) (rootEntry : RawNpmPackage)
    (packagesByPath : BTreeMap String RawNpmPackage) :
    Result (BTreeMap String PackageEntry × Installed) := do
  let members := collectWorkspaceMemberPaths rootEntry packagesByPath
  let links ← collectLinkTargets path packagesByPath
  let entries ← collectPackageEntries path packagesByPath members (collectLinkNamesByTarget links)
  let keys ← buildInstallPathMap path entries links members
  .ok (entries, ⟨keys, links, members⟩)

/-- The import of the `packages` of a lockfile of version 2 or 3. -/
def readPackages (path : PathBuf) (config : RuntimeConfig) (raw : BTreeMap String RawNpmPackage) :
    Result Lockfile :=
  let packagesByPath := normalizePackages raw
  match packagesByPath[""]? with
  | none => .error (.lockfile path (lockfileName path ++ " is missing the root package entry"))
  | some rootEntry => do
      let (entries, installed) ← installedPackages path rootEntry packagesByPath
      let packages ← buildPackages path config packagesByPath entries installed
      let root ← if rootEntry.workspaces = [] then buildRootFromEntry path rootEntry installed
        else buildWorkspaceRoot path packagesByPath installed
      .ok ⟨Lockfile.lockfileVersion, root, packages⟩

/-- The configuration without environment variables and files. -/
def plainConfig : RuntimeConfig := Config.fromEnv (fun _ => none) none [] []

theorem exists_of_isOk {result : Result Lockfile} (h : result.isOk = true) :
    ∃ lockfile, result = .ok lockfile := by
  cases result with
  | error => cases h
  | ok lockfile => exact ⟨lockfile, rfl⟩

theorem eq_ok_of_toOption {result : Result Lockfile} {lockfile : Lockfile}
    (h : result.toOption = some lockfile) : result = .ok lockfile := by
  cases result with
  | error => cases h
  | ok found =>
      cases h
      rfl

end Snpm.Compat.Npm
