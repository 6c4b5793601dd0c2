import Mathlib
import Snpm.Library.JsonKeeps
import Snpm.Library.TextParts

/-!
The manifest with all its fields: how it is read from a JSON value, and the JSON
object that is written for it.
-/
namespace Snpm.PackageJson

open Json (asString asStrings asMapOf asOptional field ofStrings ofMap ofFields present)

inductive WorkspacesField where
  | patterns (patterns : List String)
  | object (packages : List String) (catalog : BTreeMap String String)
      (catalogs : BTreeMap String (BTreeMap String String))

inductive BinField where
  | single (path : String)
  | map (paths : BTreeMap String String)

structure ManifestPnpm where
  overrides : BTreeMap String String
  patchedDependencies : Option (BTreeMap String String)

inductive SourceMapPolicy where
  | forbid
  | externalOnly
  | allow
deriving DecidableEq

/-- An unsigned integer of 64 bits, as its decimal digits. -/
structure Unsigned where
  text : String
  digits : text.toList ≠ [] ∧ text.toList.all Text.isAsciiDigit = true ∧
    (text.toList.head? = some '0' → text = "0") ∧ Text.digitsValue text.toList < 2 ^ 64

structure ManifestSnpmPublish where
  deny : List String
  allowRisks : List String
  maxFiles : Option Unsigned
  maxBytes : Option Unsigned
  sourceMaps : Option SourceMapPolicy

structure ManifestSnpm where
  overrides : BTreeMap String String
  patchedDependencies : Option (BTreeMap String String)
  publish : Option ManifestSnpmPublish

structure Manifest where
  name : Option String
  version : Option String
  packageManager : Option String
  isPrivate : Bool
  dependencies : BTreeMap String String
  devDependencies : BTreeMap String String
  optionalDependencies : BTreeMap String String
  scripts : BTreeMap String String
  resolutions : BTreeMap String String
  overrides : BTreeMap String Json
  files : Option (List String)
  bin : Option BinField
  main : Option String
  pnpm : Option ManifestPnpm
  snpm : Option ManifestSnpm
  workspaces : Option WorkspacesField
  extra : BTreeMap String Json

section Read

/-- A field of a record that is written as an object, or as an array in the order
of the fields. -/
def recordField {α : Type} (v : Json) (index : Nat) (name : String) (default : α)
    (decode : Json → Option α) : Option α :=
  match v with
  | .object members => field members name default decode
  | .array items =>
      match items[index]? with
      | some item => decode item
      | none => some default
  | _ => none

def isRecord (size : Nat) : Json → Bool
  | .object _ => true
  | .array items => items.length ≤ size
  | _ => false

def readStringMap : Json → Option (BTreeMap String String) := asMapOf asString

def readUnsigned : Json → Option Unsigned
  | .number text =>
      if h : text.toList ≠ [] ∧ text.toList.all Text.isAsciiDigit = true ∧
          (text.toList.head? = some '0' → text = "0") ∧ Text.digitsValue text.toList < 2 ^ 64 then
        some ⟨text, h⟩
      else none
  | _ => none

def sourceMapPolicyOf (name : String) : Option SourceMapPolicy :=
  if name = "forbid" then some .forbid
  else if name = "externalOnly" then some .externalOnly
  else if name = "allow" then some .allow
  else none

/-- A variant is its name, or an object with the name and null. -/
def readSourceMaps : Json → Option SourceMapPolicy
  | .string name => sourceMapPolicyOf name
  | .object [(name, .null)] => sourceMapPolicyOf name
  | _ => none

def readPublish (v : Json) : Option ManifestSnpmPublish :=
  if ¬ isRecord 5 v then none
  else do
    let deny ← recordField v 0 "deny" [] asStrings
    let allowRisks ← recordField v 1 "allowRisks" [] asStrings
    let maxFiles ← recordField v 2 "maxFiles" none (asOptional readUnsigned)
    let maxBytes ← recordField v 3 "maxBytes" none (asOptional readUnsigned)
    let sourceMaps ← recordField v 4 "sourceMaps" none (asOptional readSourceMaps)
    some ⟨deny, allowRisks, maxFiles, maxBytes, sourceMaps⟩

def readPnpm (v : Json) : Option ManifestPnpm :=
  if ¬ isRecord 2 v then none
  else do
    let overrides ← recordField v 0 "overrides" ∅ readStringMap
    let patchedDependencies ← recordField v 1 "patchedDependencies" none (asOptional readStringMap)
    some ⟨overrides, patchedDependencies⟩

def readSnpm (v : Json) : Option ManifestSnpm :=
  if ¬ isRecord 3 v then none
  else do
    let overrides ← recordField v 0 "overrides" ∅ readStringMap
    let patchedDependencies ← recordField v 1 "patchedDependencies" none (asOptional readStringMap)
    let publish ← recordField v 2 "publish" none (asOptional readPublish)
    some ⟨overrides, patchedDependencies, publish⟩

def readBin : Json → Option BinField
  | .string path => some (.single path)
  | v => (readStringMap v).map .map

/-- A field without a default. -/
def requiredField {α : Type} (members : List (String × Json)) (name : String)
    (decode : Json → Option α) : Option α :=
  (field members name none fun v => (decode v).map some).bind id

def readWorkspaces : Json → Option WorkspacesField
  | .array items => (asStrings (.array items)).map .patterns
  | .object members => do
      let packages ← requiredField members "packages" asStrings
      let catalog ← field members "catalog" ∅ readStringMap
      let catalogs ← field members "catalogs" ∅ (asMapOf readStringMap)
      some (.object packages catalog catalogs)
  | _ => none

/-- `deserialize_boolish`. -/
def readBoolish : Json → Option Bool
  | .null => some false
  | .bool value => some value
  | .string text =>
      let value := Text.toAsciiLowercase (Text.trim text)
      if value = "true" then some true else if value = "false" then some false else none
  | _ => none

def knownNames : List String :=
  ["name", "version", "packageManager", "private", "dependencies", "devDependencies",
    "optionalDependencies", "scripts", "resolutions", "overrides", "files", "bin", "main", "pnpm",
    "snpm", "workspaces"]

def extraMembers (members : List (String × Json)) : List (String × Json) :=
  members.filter fun m => m.1 ∉ knownNames

def readManifest : Json → Option Manifest
  | .object members => do
      let name ← field members "name" none (asOptional asString)
      let version ← field members "version" none (asOptional asString)
      let packageManager ← field members "packageManager" none (asOptional asString)
      let isPrivate ← field members "private" false readBoolish
      let dependencies ← field members "dependencies" ∅ readStringMap
      let devDependencies ← field members "devDependencies" ∅ readStringMap
      let optionalDependencies ← field members "optionalDependencies" ∅ readStringMap
      let scripts ← field members "scripts" ∅ readStringMap
      let resolutions ← field members "resolutions" ∅ readStringMap
      let overrides ← field members "overrides" ∅ (asMapOf some)
      let files ← field members "files" none (asOptional asStrings)
      let bin ← field members "bin" none (asOptional readBin)
      let main ← field members "main" none (asOptional asString)
      let pnpm ← field members "pnpm" none (asOptional readPnpm)
      let snpm ← field members "snpm" none (asOptional readSnpm)
      let workspaces ← field members "workspaces" none (asOptional readWorkspaces)
      some ⟨name, version, packageManager, isPrivate, dependencies, devDependencies,
        optionalDependencies, scripts, resolutions, overrides, files, bin, main, pnpm, snpm,
        workspaces, BTreeMap.collect (extraMembers members)⟩
  | _ => none

end Read

section Write

def writeStringMap (m : BTreeMap String String) : Json := ofMap .string m

/-- A map is left out when it is empty. -/
def writtenMap {α : Type} (encode : α → Json) (m : BTreeMap String α) : Option Json :=
  if m.isEmpty then none else some (ofMap encode m)

/-- A list is left out when it is empty. -/
def writtenList (texts : List String) : Option Json :=
  if texts.isEmpty then none else some (ofStrings texts)

def writeUnsigned (n : Unsigned) : Json := .number n.text

def SourceMapPolicy.text : SourceMapPolicy → String
  | .forbid => "forbid"
  | .externalOnly => "externalOnly"
  | .allow => "allow"

def writePublish (publish : ManifestSnpmPublish) : Json :=
  ofFields
    [("deny", writtenList publish.deny), ("allowRisks", writtenList publish.allowRisks),
      ("maxFiles", publish.maxFiles.map writeUnsigned),
      ("maxBytes", publish.maxBytes.map writeUnsigned),
      ("sourceMaps", publish.sourceMaps.map fun policy => .string policy.text)]

def writePnpm (pnpm : ManifestPnpm) : Json :=
  ofFields
    [("overrides", some (writeStringMap pnpm.overrides)),
      ("patchedDependencies", pnpm.patchedDependencies.map writeStringMap)]

def writeSnpm (snpm : ManifestSnpm) : Json :=
  ofFields
    [("overrides", some (writeStringMap snpm.overrides)),
      ("patchedDependencies", snpm.patchedDependencies.map writeStringMap),
      ("publish", snpm.publish.map writePublish)]

def writeBin : BinField → Json
  | .single path => .string path
  | .map paths => writeStringMap paths

def writeWorkspaces : WorkspacesField → Json
  | .patterns patterns => ofStrings patterns
  | .object packages catalog catalogs =>
      ofFields
        [("packages", some (ofStrings packages)), ("catalog", writtenMap .string catalog),
          ("catalogs", writtenMap writeStringMap catalogs)]

def knownFields (m : Manifest) : List (String × Option Json) :=
  [("name", m.name.map .string), ("version", m.version.map .string),
    ("packageManager", m.packageManager.map .string),
    ("private", if m.isPrivate then some (.bool true) else none),
    ("dependencies", writtenMap .string m.dependencies),
    ("devDependencies", writtenMap .string m.devDependencies),
    ("optionalDependencies", writtenMap .string m.optionalDependencies),
    ("scripts", writtenMap .string m.scripts),
    ("resolutions", writtenMap .string m.resolutions),
    ("overrides", writtenMap id m.overrides),
    ("files", m.files.map ofStrings),
    ("bin", m.bin.map writeBin),
    ("main", m.main.map .string),
    ("pnpm", m.pnpm.map writePnpm),
    ("snpm", m.snpm.map writeSnpm),
    ("workspaces", m.workspaces.map writeWorkspaces)]

/-- `to_value`: the fields, then the members that the manifest does not know. -/
def manifestValue (m : Manifest) : BTreeMap String Json :=
  BTreeMap.collect (present (knownFields m) ++ m.extra.toList)

def packageJsonFieldOrder : List String :=
  ["$schema", "name", "displayName", "version", "stableVersion", "private", "description",
    "categories", "keywords", "homepage", "bugs", "repository", "funding", "license", "qna",
    "author", "maintainers", "contributors", "publisher", "sideEffects", "type", "imports",
    "exports", "main", "svelte", "umd:main", "jsdelivr", "unpkg", "module", "source",
    "jsnext:main", "browser", "react-native", "types", "typesVersions", "typings", "style",
    "example", "examplestyle", "assets", "bin", "man", "directories", "files", "workspaces",
    "binary", "scripts", "betterScripts", "l10n", "contributes", "activationEvents", "husky",
    "simple-git-hooks", "pre-commit", "commitlint", "lint-staged", "nano-staged", "config",
    "nodemonConfig", "browserify", "babel", "browserslist", "xo", "prettier", "eslintConfig",
    "eslintIgnore", "npmpkgjsonlint", "npmPackageJsonLintConfig", "npmpackagejsonlint", "release",
    "remarkConfig", "stylelint", "ava", "jest", "jest-junit", "jest-stare", "mocha", "nyc", "c8",
    "tap", "oclif", "resolutions", "overrides", "dependencies", "devDependencies",
    "dependenciesMeta", "peerDependencies", "peerDependenciesMeta", "optionalDependencies",
    "bundledDependencies", "bundleDependencies", "extensionPack", "extensionDependencies", "flat",
    "packageManager", "engines", "engineStrict", "devEngines", "volta", "languageName", "os",
    "cpu", "preferGlobal", "publishConfig", "icon", "badges", "galleryBanner", "preview",
    "markdown", "pnpm", "snpm"]

/-- The members in the canonical order, then the others by name. -/
def orderedEntries (object : BTreeMap String Json) : List (String × Json) :=
  packageJsonFieldOrder.filterMap (fun key => (object[key]?).map fun value => (key, value)) ++
    object.toList.filter fun entry => entry.1 ∉ packageJsonFieldOrder

def formatManifest (m : Manifest) : Json := .object (orderedEntries (manifestValue m))

end Write

end Snpm.PackageJson
