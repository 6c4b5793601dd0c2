import Mathlib
import Snpm.Error
import Snpm.Resolve.Query

/-!
The ranges that packages declare for their dependencies: the protocol a range
implies, and relative file ranges made absolute against the package they are in.
-/
namespace Snpm.Resolve

def protocolFromRange (range : String) : RegistryProtocol :=
  match splitProtocolSpec range with
  | some request => request.protocol
  | none => if looksLikeHostedGitShorthand range then .git else .npm

/-- Drop separators and current-directory parts from the end of a reversed path. -/
def trimPathTail : List Char → List Char
  | '/' :: rest => trimPathTail rest
  | '.' :: '/' :: rest => trimPathTail ('/' :: rest)
  | path => path

/-- `PathBuf::pop`: a path without a parent stays as it is. -/
def popPath (path : PathBuf) : PathBuf :=
  match trimPathTail path.toList.reverse with
  | [] => path
  | tail =>
      match tail.dropWhile (· ≠ '/') with
      | [] => ""
      | rest =>
          match trimPathTail rest with
          | [] => "/"
          | parent => String.ofList parent.reverse

def pushComponent (path : PathBuf) (component : String) : PathBuf :=
  if component = "" || component = "." then path
  else if component = ".." then popPath path
  else path.join component

def resolveRelativePath (base : PathBuf) (relative : String) : PathBuf :=
  (Text.split relative (· = '/')).foldl pushComponent
    (if Text.startsWith relative "/" then "/" else base)

/-- A file dependency of a package that is itself a directory. -/
def normalizeDependencyRange (tarball depRange : String) : String :=
  match Text.stripPrefix tarball "file://", Text.stripPrefix depRange "file:" with
  | some packagePath, some relativePath =>
      "file:" ++ resolveRelativePath packagePath relativePath
  | _, _ => depRange

example : normalizeDependencyRange "file:///packages/foo" "file:../bar" = "file:/packages/bar" := by
  decide +kernel
example : protocolFromRange "webpack/tooling#v1.26.1" = .git := by
  decide +kernel

end Snpm.Resolve
