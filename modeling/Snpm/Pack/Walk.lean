import Mathlib
import Snpm.Error
import Snpm.Library.DirTree
import Snpm.Library.OrderedMap
import Snpm.Pack.Ignore

/-!
Which files of a project tree are packed through the `files` list of its manifest:
the check of a file that an entry names, and the walk of a directory that an entry
names. Every file of the tree can be read; the content of an ignore file may be no
UTF-8 text. Paths are the names below the project root.
-/
namespace Snpm.Pack

open DirTree

structure RegularFile where
  size : Nat
  /-- The content, where it is UTF-8. -/
  text : Option String

inductive LinkTarget where
  | file (file : RegularFile)
  | other

abbrev Entries := Listing String RegularFile LinkTarget

abbrev RelPath := List String

inductive PackFileReason where
  | manifest
  | manifestFiles
  | defaultScan
  | mandatory
  | mainEntry
  | binEntry
deriving DecidableEq

structure CollectedFile where
  absolutePath : PathBuf
  relativePath : String
  size : Nat
  reason : PackFileReason
deriving DecidableEq

abbrev Files := BTreeMap RelPath CollectedFile

variable (newPattern : NewPattern) (root : PathBuf)

def absolutePath (path : RelPath) : PathBuf := path.foldl PathBuf.join root

def relativePath (path : RelPath) : String := normalizePath ("/".intercalate path)

def addFile (path : RelPath) (file : RegularFile) (reason : PackFileReason) (files : Files) :
    Files :=
  files.insertIfNew path ⟨absolutePath root path, relativePath path, file.size, reason⟩

/-- What a name stands for when links are followed, where that is a file. -/
def isFile (entries : Entries) (name : String) : Option RegularFile :=
  (entries.fileNamed name).or ((entries.linkNamed name).bind fun
    | .file file => some file
    | .other => none)

/-- The ignore file of a directory and its name. -/
def ignoreFile (entries : Entries) : Option (String × RegularFile) :=
  ((isFile entries ".npmignore").map fun file => (".npmignore", file)).or
    ((isFile entries ".gitignore").map fun file => (".gitignore", file))

def loadIgnoreRules (dir : RelPath) (entries : Entries) (honorIgnore : Bool) :
    Result (List IgnoreRule) :=
  if honorIgnore then
    match ignoreFile entries with
    | none => .ok []
    | some (name, file) =>
        match file.text with
        | none => .error (.readFile (absolutePath root (dir ++ [name]))
            "stream did not contain valid UTF-8")
        | some content => .ok (parseIgnoreRules newPattern content (relativePath dir))
  else .ok []

/-- The entries of a directory whose rules are known. -/
def collectEntries (reason : PackFileReason) :
    Entries → RelPath → List IgnoreRule → Files → Result Files
  | .nil, _, _, files => .ok files
  | .file name file rest, dir, rules, files =>
      let relative := relativePath (dir ++ [name])
      if shouldSkipPath relative || isIgnored relative false rules then
        collectEntries reason rest dir rules files
      else collectEntries reason rest dir rules (addFile root (dir ++ [name]) file reason files)
  | .link _ _ rest, dir, rules, files => collectEntries reason rest dir rules files
  | .dir name entries rest, dir, rules, files =>
      let path := dir ++ [name]
      if shouldSkipPath (relativePath path) then collectEntries reason rest dir rules files
      else do
        let own ← loadIgnoreRules newPattern root path entries true
        let files ← collectEntries reason entries path (rules ++ own) files
        collectEntries reason rest dir rules files

/-- The walk of a named directory; it starts with the rules it inherits. -/
def collectDirRecursive (dir : RelPath) (entries : Entries) (files : Files)
    (honorRootIgnore : Bool) (reason : PackFileReason) (inherited : List IgnoreRule) :
    Result Files := do
  let own ← loadIgnoreRules newPattern root dir entries (honorRootIgnore || dir ≠ [])
  collectEntries newPattern root reason entries dir (inherited ++ own) files

def collectDirFilesFilteredFromRoot (dir : RelPath) (entries : Entries) (files : Files)
    (honorRootIgnore : Bool) (reason : PackFileReason) : Result Files :=
  collectDirRecursive newPattern root dir entries files honorRootIgnore reason []

/-- The rules of the directories below `dir` along a path. -/
def collectRulesBelow : RelPath → Entries → RelPath → Result (List IgnoreRule)
  | _, _, [] => .ok []
  | dir, entries, name :: path =>
      match entries.subdir name with
      | none => .ok []
      | some sub => do
          let own ← loadIgnoreRules newPattern root (dir ++ [name]) sub true
          let more ← collectRulesBelow (dir ++ [name]) sub path
          .ok (own ++ more)

/-- The rules from the root down to a directory. -/
def collectRulesForDir (tree : Entries) (dir : RelPath) (honorRootIgnore : Bool) :
    Result (List IgnoreRule) := do
  let own ← loadIgnoreRules newPattern root [] tree honorRootIgnore
  let more ← collectRulesBelow newPattern root [] tree dir
  .ok (own ++ more)

def shouldIncludeFileFromRoot (tree : Entries) (path : RelPath) (honorRootIgnore : Bool) :
    Result Bool :=
  let relative := relativePath path
  if shouldSkipPath relative then .ok false
  else do
    let rules ← collectRulesForDir newPattern root tree path.dropLast honorRootIgnore
    .ok !isIgnored relative false rules

/-- What a lookup of names finds at a path. -/
def entryAt {α : Type} (look : Entries → String → Option α) (tree : Entries) (path : RelPath) :
    Option α :=
  path.getLast?.bind fun name => (tree.dirAt path.dropLast).bind (look · name)

/-- A path that an entry names. A link to a file is checked and never added; what lies
behind a link to a directory is no path of the tree. -/
def addPatternMatch (manifestPath : RelPath) (tree : Entries) (path : RelPath) (files : Files) :
    Result Files :=
  match entryAt isFile tree path, tree.dirAt path with
  | some _, _ =>
      if path = manifestPath then .ok files
      else do
        let included ← shouldIncludeFileFromRoot newPattern root tree path false
        .ok (match included, entryAt Listing.fileNamed tree path with
          | true, some file => addFile root path file .manifestFiles files
          | _, _ => files)
  | none, some entries =>
      collectDirFilesFilteredFromRoot newPattern root path entries files false .manifestFiles
  | none, none => .ok files

/-- `named` gives the paths of the tree that an entry of the list names. -/
def collectManifestFiles (named : String → List RelPath) (manifestPath : RelPath) (tree : Entries)
    (patterns : List String) (files : Files) : Result Files :=
  (patterns.flatMap named).foldlM
    (fun files path => addPatternMatch newPattern root manifestPath tree path files) files

end Snpm.Pack
