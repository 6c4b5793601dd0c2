import Mathlib
import Snpm.Project
import Snpm.Semver

/-!
Dependencies between the projects of a workspace: when a dependency is linked
to a local project, and which `workspace:` specs are valid.
-/
namespace Snpm

def Workspace.projectByName (workspace : Workspace) (name : String) : Option Project :=
  workspace.projects.find? fun project => project.manifest.name = some name

namespace Install

variable (S : SemverCrate)

/-- The range behind a `workspace:` spec; the empty text admits every version. -/
def normalizeWorkspaceSpec (name spec version : String) : Result String :=
  match Text.stripPrefix spec "workspace:" with
  | none => .error (.workspaceConfig ""
      ("workspace dependency " ++ name ++ " must use workspace: spec, got " ++ spec))
  | some suffix =>
      let trimmed := Text.trim suffix
      if trimmed = "" ∨ trimmed = "*" then .ok ""
      else if trimmed = "^" then .ok ("^" ++ version)
      else if trimmed = "~" then .ok ("~" ++ version)
      else .ok trimmed

def parseLocalVersion (name version : String) : Result S.Version :=
  match parseVersion S version with
  | .ok parsed => .ok parsed
  | .error reason => .error (.semver (name ++ "@" ++ version) reason)

def dependencyNotFound (workspace : Workspace) (name : String) : SnpmError :=
  .workspaceConfig workspace.root
    ("workspace dependency " ++ name ++ " not found in workspace projects")

def validateWorkspaceSpec (workspace : Workspace) (name spec : String) : Result Unit := do
  match workspace.projectByName name with
  | none => .error (dependencyNotFound workspace name)
  | some project =>
      match project.manifest.version with
      | none => .ok ()
      | some version =>
          let range ← normalizeWorkspaceSpec name spec version
          if range = "" then .ok ()
          else
            let ranges ← parseRangeSet S name range
            let parsed ← parseLocalVersion S name version
            if ranges.contains parsed then .ok ()
            else .error (.workspaceConfig workspace.root
              ("workspace dependency " ++ name ++ " with spec " ++ spec ++
                " is not satisfied by local version " ++ version))

/-- A dependency is local when a project of the workspace has its name and a
version in its range; a `workspace:` spec must be satisfied. -/
def isLocalWorkspaceDependency (workspace : Workspace) (name spec : String) : Result Bool := do
  match workspace.projectByName name with
  | none => .ok false
  | some project =>
      if Text.startsWith spec "workspace:" then
        validateWorkspaceSpec S workspace name spec
        .ok true
      else
        match project.manifest.version with
        | none => .ok false
        | some version =>
            match RangeSet.parse S spec with
            | .error _ => .ok false
            | .ok ranges =>
                let parsed ← parseLocalVersion S name version
                .ok (ranges.contains parsed)

end Install
end Snpm
