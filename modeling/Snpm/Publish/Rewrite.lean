import Mathlib
import Snpm.Install.Manifest
import Snpm.Library.Json
import Snpm.Library.TextParts

/-!
What publishing does to the `workspace:` and `catalog:` specs of a manifest, which
mean nothing outside the workspace: each becomes a registry range, an alias or the
range of a catalog.
-/
namespace Snpm.Publish

open Install (resolveCatalogSpec)

def depSections : List String :=
  ["dependencies", "devDependencies", "optionalDependencies", "peerDependencies"]

variable (workspace : Option Workspace) (catalog : Option CatalogConfig)

def siblingVersion (name : String) : Result String :=
  match workspace with
  | none => .error (.manifestInvalid "package.json"
      ("dependency " ++ name ++ " uses the workspace: protocol but the project is not in a workspace"))
  | some workspace =>
      match workspace.projectByName name with
      | none => .error (.workspaceConfig workspace.root
          ("workspace dependency " ++ name ++ " was not found among workspace packages"))
      | some project =>
          match project.manifest.version with
          | none => .error (.manifestInvalid project.manifestPath
              ("workspace package " ++ name ++ " has no version to publish against"))
          | some version => .ok version

/-- The aliased form `target@range` behind the protocol. -/
def splitWorkspaceAlias (rest : String) : Option (String × String) :=
  match Text.rsplitOnce rest (· = '@') with
  | none => none
  | some (target, range) => if target = "" then none else some (target, range)

/-- Only the shorthands look at the version of the sibling `name`. -/
def concreteRange (range name : String) : Result String :=
  if range = "" ∨ range = "*" then siblingVersion workspace name
  else if range = "~" then (siblingVersion workspace name).map ("~" ++ ·)
  else if range = "^" then (siblingVersion workspace name).map ("^" ++ ·)
  else .ok range

def rewriteSpec (name spec : String) : Result (Option String) :=
  match Text.stripPrefix spec "workspace:" with
  | some rest =>
      match splitWorkspaceAlias rest with
      | some (target, range) =>
          (concreteRange workspace range target).map fun rewritten =>
            some ("npm:" ++ target ++ "@" ++ rewritten)
      | none => (concreteRange workspace rest name).map some
  | none =>
      if Text.startsWith spec "catalog:" then
        (resolveCatalogSpec name spec workspace catalog).map some
      else .ok none

/-- The members of a section, with whether one was rewritten. -/
def rewriteMembers : List (String × Json) → Result (List (String × Json) × Bool)
  | [] => .ok ([], false)
  | (name, .string spec) :: rest => do
      let rewritten ← rewriteSpec workspace catalog name spec
      let (rest, changed) ← rewriteMembers rest
      .ok ((name, .string (rewritten.getD spec)) :: rest, rewritten.isSome || changed)
  | member :: rest => do
      let (rest, changed) ← rewriteMembers rest
      .ok (member :: rest, changed)

/-- The members of an object of the manifest, rewritten where the object is the section. -/
def rewriteObject (sectionName key : String) (members : List (String × Json)) :
    Result (List (String × Json) × Bool) :=
  if key = sectionName then rewriteMembers workspace catalog members else .ok (members, false)

/-- The members of the manifest, with one section rewritten where it is an object. -/
def rewriteSection (sectionName : String) :
    List (String × Json) → Result (List (String × Json) × Bool)
  | [] => .ok ([], false)
  | (key, .object members) :: rest => do
      let (members, changed) ← rewriteObject workspace catalog sectionName key members
      let (rest, changedRest) ← rewriteSection sectionName rest
      .ok ((key, .object members) :: rest, changed || changedRest)
  | member :: rest => do
      let (rest, changed) ← rewriteSection sectionName rest
      .ok (member :: rest, changed)

def rewriteSections : List String → List (String × Json) → Result (List (String × Json) × Bool)
  | [], manifest => .ok (manifest, false)
  | sectionName :: sections, manifest => do
      let (manifest, changed) ← rewriteSection workspace catalog sectionName manifest
      let (manifest, changedLater) ← rewriteSections sections manifest
      .ok (manifest, changed || changedLater)

/-- The manifest with its monorepo specs replaced, and whether there was one. -/
def rewritePublishedManifest (manifest : Json) : Result (Json × Bool) :=
  match manifest with
  | .object members =>
      (rewriteSections workspace catalog depSections members).map fun (members, changed) =>
        (.object members, changed)
  | other => .ok (other, false)

end Snpm.Publish
