import Mathlib
import Snpm.Install.Manifest
import Snpm.Library.LineParts
import Snpm.Lockfile.Compat.Npm

/-!
The import of a classic `yarn.lock`: its lines, the blocks that they are read
as, and the lockfile that is built from the blocks.
-/
namespace Snpm.Compat.Yarn

open Config (RuntimeConfig)
open Install (RootSpecSet)
open Npm (projectRoot deriveRegistryTarball)

structure ClassicBlock where
  specs : List String
  fields : BTreeMap String String
  dependencies : BTreeMap String String

structure ClassicPackageSeed where
  depPath : String
  name : String
  version : String
  tarball : String
  integrity : Option String
  declaredDependencies : BTreeMap String String

section Tokens

def isQuotedBy (quote text : String) : Bool :=
  Text.startsWith text quote && Text.endsWith text quote && text.utf8ByteSize ≥ 2

/-- The text without its quotes, if it stands in a pair of them. -/
def unquote (text : String) : String :=
  if isQuotedBy "\"" text || isQuotedBy "'" text then
    String.ofList text.toList.tail.dropLast
  else text

def parseHeaderSpec (header rawSpec : String) : Except String String :=
  let spec := unquote (Text.trim rawSpec)
  if spec = "" then .error ("empty spec in header `" ++ header ++ "`") else .ok spec

def parseClassicHeaderSpecs (header : String) : Except String (List String) := do
  let specs ← (Text.split header (· = ',')).mapM (parseHeaderSpec header)
  if specs = [] then .error ("no specs parsed from header `" ++ header ++ "`") else .ok specs

def splitClassicKeyValue (line : String) : Option (String × String) :=
  (Text.splitOnce line Text.isWhitespace).map fun (key, value) => (key, unquote (Text.trim value))

def splitSpecNameAndRange (spec : String) : Option (String × String) :=
  match Text.stripPrefix spec "@" with
  | some rest => do
      let (scopeName, afterSlash) ← Text.splitOnce rest (· = '/')
      let (name, range) ← Text.splitOnce afterSlash (· = '@')
      some ("@" ++ scopeName ++ "/" ++ name, range)
  | none => Text.splitOnce spec (· = '@')

/-- The name of the package that a spec is about, behind an alias. -/
def parseClassicIdentity (spec : String) : Option String := do
  let (outerName, range) ← splitSpecNameAndRange spec
  match Text.stripPrefix range "npm:" with
  | some inner => (splitSpecNameAndRange inner).map (·.1)
  | none => some outerName

end Tokens

section Blocks

structure Tokenizer where
  blocks : List ClassicBlock
  current : Option ClassicBlock
  inDependencies : Bool

def Tokenizer.start : Tokenizer := ⟨[], none, false⟩

/-- The block that is being read is closed. -/
def Tokenizer.finished (t : Tokenizer) : List ClassicBlock := t.blocks ++ t.current.toList

def isSkippedLine (line : String) : Bool :=
  Text.trim line = "" || Text.startsWith (Text.trimStart line) "#"

def headerLine (lineNumber : Nat) (line : String) (t : Tokenizer) : Except String Tokenizer :=
  if ¬ Text.endsWith line ":" then
    .error ("line " ++ toString lineNumber ++ ": expected block header ending in `:`")
  else do
    let specs ← parseClassicHeaderSpecs (Text.trim (Text.trimEndMatches line ':'))
    .ok ⟨t.finished, some ⟨specs, ∅, ∅⟩, false⟩

def fieldLine (lineNumber : Nat) (body : String) (t : Tokenizer) (block : ClassicBlock) :
    Except String Tokenizer :=
  if Text.endsWith body ":" then
    let sectionName := Text.trim (Text.trimEndMatches body ':')
    .ok ⟨t.blocks, some block,
      sectionName = "dependencies" || sectionName = "optionalDependencies"⟩
  else
    match splitClassicKeyValue body with
    | none => .error ("line " ++ toString lineNumber ++ ": could not parse `" ++ body ++ "`")
    | some (key, value) =>
        .ok ⟨t.blocks, some { block with fields := block.fields.insert key value }, false⟩

def dependencyLine (lineNumber : Nat) (body : String) (t : Tokenizer) (block : ClassicBlock) :
    Except String Tokenizer :=
  match splitClassicKeyValue body with
  | none =>
      .error ("line " ++ toString lineNumber ++ ": could not parse dependency `" ++ body ++ "`")
  | some (name, value) =>
      .ok ⟨t.blocks, some { block with dependencies := block.dependencies.insert name value },
        t.inDependencies⟩

def indentOf (line : String) : Nat := line.utf8ByteSize - (Text.trimStart line).utf8ByteSize

def writtenLine (lineNumber : Nat) (line : String) (t : Tokenizer) : Except String Tokenizer :=
  if indentOf line = 0 then headerLine lineNumber line t
  else
    match t.current with
    | none => .error ("line " ++ toString lineNumber ++
        ": encountered indented content before any block header")
    | some block =>
        if indentOf line = 2 then fieldLine lineNumber (Text.trimStart line) t block
        else if indentOf line ≥ 4 ∧ t.inDependencies = true then
          dependencyLine lineNumber (Text.trimStart line) t block
        else .ok t

def classicLine (t : Tokenizer) (numbered : String × Nat) : Except String Tokenizer :=
  let line := Text.trimEnd numbered.1
  if isSkippedLine line then .ok t else writtenLine numbered.2 line t

def tokenizeClassicBlocks (content : String) : Except String (List ClassicBlock) := do
  let t ← ((Text.lines content).zipIdx 1).foldlM classicLine .start
  .ok t.finished

end Blocks

section Packages

variable (path : PathBuf) (config : RuntimeConfig)

def stripHashFragment (value : String) : String := Text.firstPart value (· = '#')

def localFileUrl (projectRoot : PathBuf) (relativePath : String) : Option String :=
  let trimmed := Text.trim relativePath
  if trimmed = "" then none
  else
    let trimmed := (Text.stripPrefix trimmed "file:").getD trimmed
    let trimmed := (Text.stripPrefix trimmed "link:").getD trimmed
    some ("file://" ++ projectRoot.join trimmed)

def classicTarball (projectRoot : PathBuf) (name version : String) (resolved : Option String) :
    Option String :=
  match resolved with
  | none => deriveRegistryTarball config name version
  | some resolved =>
      if Text.startsWith resolved "http://" ∨ Text.startsWith resolved "https://" then
        some (stripHashFragment resolved)
      else if Text.startsWith resolved "file:" ∨ Text.startsWith resolved "link:" then
        localFileUrl projectRoot
          (stripHashFragment (Text.trimStartSeq (Text.trimStartSeq resolved "file:") "link:"))
      else deriveRegistryTarball config name version

/-- What is collected from the blocks. -/
structure ClassicSeeds where
  specToDepPath : BTreeMap String String
  seenDepPaths : BTreeSet String
  packageSeeds : List ClassicPackageSeed

def parsedIdentity (spec : String) : Result String :=
  match parseClassicIdentity spec with
  | some name => .ok name
  | none =>
      .error (.lockfile path ("could not parse package name from yarn.lock spec `" ++ spec ++ "`"))

def insertSpec (block : ClassicBlock) (packageName depPath : String)
    (specToDepPath : BTreeMap String String) (spec : String) : Result (BTreeMap String String) := do
  let name ← parsedIdentity path spec
  if name ≠ packageName then
    .error (.lockfile path ("yarn.lock block " ++ Text.debugTexts block.specs ++
      " resolves multiple package names"))
  else .ok (specToDepPath.insert spec depPath)

def packageSeed (block : ClassicBlock) (name version : String) : ClassicPackageSeed where
  depPath := name ++ "@" ++ version
  name := name
  version := version
  tarball := (classicTarball config (projectRoot path) name version block.fields["resolved"]?).getD ""
  integrity := block.fields["integrity"]?
  declaredDependencies := block.dependencies

/-- A block whose package was seen before adds its specs only. -/
def addSeed (seeds : ClassicSeeds) (specToDepPath : BTreeMap String String)
    (seed : ClassicPackageSeed) : ClassicSeeds :=
  if seed.depPath ∈ seeds.seenDepPaths then { seeds with specToDepPath := specToDepPath }
  else ⟨specToDepPath, seeds.seenDepPaths.insert seed.depPath, seeds.packageSeeds ++ [seed]⟩

def addBlock (seeds : ClassicSeeds) (block : ClassicBlock) : Result ClassicSeeds :=
  match block.fields["version"]? with
  | none => .error (.lockfile path ("yarn.lock block " ++ Text.debugTexts block.specs ++
      " is missing a version"))
  | some version => do
      let name ← parsedIdentity path (block.specs.headD "")
      let specToDepPath ← block.specs.foldlM (insertSpec path block name (name ++ "@" ++ version))
        seeds.specToDepPath
      .ok (addSeed seeds specToDepPath (packageSeed path config block name version))

def classicCandidates (name range : String) : List String := [name ++ "@" ++ range]

def resolveSpecCandidates (candidates : List String) (specToDepPath : BTreeMap String String) :
    Option String :=
  candidates.findSome? fun candidate => specToDepPath[candidate]?

def resolveDependencies (declaredDependencies specToDepPath : BTreeMap String String) :
    BTreeMap String String :=
  declaredDependencies.filterMap fun name range =>
    resolveSpecCandidates (classicCandidates name range) specToDepPath

def lockPackage (specToDepPath : BTreeMap String String) (seed : ClassicPackageSeed) :
    LockPackage where
  name := seed.name
  version := seed.version
  tarball := seed.tarball
  integrity := seed.integrity
  dependencies := resolveDependencies seed.declaredDependencies specToDepPath
  peerDependencies := ∅
  bundledDependencies := none
  hasBin := false
  bin := none

end Packages

section Root

variable (path : PathBuf)

def splitDepPath (depPath : String) : Option PackageId := Lockfile.splitDepKey depPath

def resolvedRootDependency (name requested depPath : String) (isOptional : Bool) :
    Result LockRootDependency :=
  match splitDepPath depPath with
  | none => .error (.lockfile path ("unsupported resolved dependency key `" ++ depPath ++ "`"))
  | some resolved => .ok (Npm.rootDependency name requested resolved isOptional)

def requiredRootDependency (specToDepPath : BTreeMap String String) (name requested : String) :
    Result (Option LockRootDependency) :=
  match resolveSpecCandidates (classicCandidates name requested) specToDepPath with
  | none => .error (.lockfile path ("yarn.lock root dependency `" ++ name ++ "` -> `" ++ requested ++
      "` could not be resolved from the imported lockfile"))
  | some depPath => (resolvedRootDependency path name requested depPath false).map some

def optionalRootDependency (specToDepPath : BTreeMap String String) (name requested : String) :
    Result (Option LockRootDependency) :=
  match resolveSpecCandidates (classicCandidates name requested) specToDepPath with
  | none => .ok (some ⟨requested, none, none, true⟩)
  | some depPath => (resolvedRootDependency path name requested depPath true).map some

/-- An optional dependency takes the place of a required one of its name. -/
def buildRootFromSpecs (rootSpecs : RootSpecSet) (specToDepPath : BTreeMap String String) :
    Result LockRoot := do
  let required ← BTreeMap.filterMapM (requiredRootDependency path specToDepPath) rootSpecs.required
  let optional ← BTreeMap.filterMapM (optionalRootDependency path specToDepPath) rootSpecs.optional
  .ok ⟨required ∪ optional⟩

end Root

def parseClassicStr (path : PathBuf) (content : String) (config : RuntimeConfig)
    (rootSpecs : RootSpecSet) : Result Lockfile := do
  let blocks ← (tokenizeClassicBlocks content).mapError (SnpmError.lockfile path)
  let seeds ← blocks.foldlM (addBlock path config) ⟨∅, ∅, []⟩
  let packages := BTreeMap.collect
    (seeds.packageSeeds.map fun seed => (seed.depPath, lockPackage seeds.specToDepPath seed))
  let root ← buildRootFromSpecs path rootSpecs seeds.specToDepPath
  .ok ⟨Lockfile.lockfileVersion, root, packages⟩

end Snpm.Compat.Yarn
