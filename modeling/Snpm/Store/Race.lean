import Mathlib
import Snpm.Library.FileTree

/-!
Several calls of `ensure_package` for one package on one store. A call goes
through phases, and a step of a call is one file-system operation on the package
directory or on the call's own staging directory, or its failure. The steps of
different calls interleave in any way. Paths are resolved at the time of each
step, so a call that unpacks in place follows the directory that is there.
-/
namespace Snpm.Store.Race

abbrev Place := FileTree.Place Char

abbrev Content := List UInt8

/-- An entry of a directory; a file that is being written belongs to a call. -/
inductive Entry where
  | dir
  | writing (call : Nat)
  | file (content : Content)
deriving DecidableEq

/-- The entries below a directory, the latest for a place first. -/
abbrev Tree := List (Place × Entry)

def Tree.get (tree : Tree) (p : Place) : Option Entry := tree.lookup p

def Tree.set (tree : Tree) (p : Place) (entry : Entry) : Tree := (p, entry) :: tree

def Tree.keep (tree : Tree) (kept : Place → Bool) : Tree := tree.filter fun e => kept e.1

/-- An entry of the tarball that is unpacked. -/
inductive Item where
  | dir (path : Place)
  | file (path : Place) (content : Content)
deriving DecidableEq

def markerPlace : Place := [".snpm_complete".toList]

def Tree.marked (tree : Tree) : Bool :=
  match tree.get markerPlace with
  | some (.writing _) | some (.file _) => true
  | _ => false

/-- Make a directory and its parents below a base; a file is in the way. -/
def mkdirs (tree : Tree) (base : Place) : Place → Option Tree
  | [] => some tree
  | name :: rest =>
      match tree.get (base ++ [name]) with
      | none => mkdirs (tree.set (base ++ [name]) .dir) (base ++ [name]) rest
      | some .dir => mkdirs tree (base ++ [name]) rest
      | some _ => none

/-- Open a file for writing, replacing one that is there. -/
def openFile (tree : Tree) (call : Nat) (path : Place) : Option Tree :=
  if path = [] ∨ tree.get path = some .dir then none
  else if path.dropLast = [] ∨ tree.get path.dropLast = some .dir then
    some (tree.set path (.writing call))
  else none

/-- Write the content of an open file; a file that was unlinked or replaced
meanwhile gets nothing at its path. -/
def fill (tree : Tree) (call : Nat) (path : Place) (content : Content) : Tree :=
  if tree.get path = some (.writing call) then tree.set path (.file content) else tree

inductive Root where
  | inPlace
  | staged
deriving DecidableEq

/-- How far the current file has come. -/
inductive Progress where
  | ready
  | opening
  | filling
deriving DecidableEq

inductive Phase where
  /-- about to test the marker -/
  | start
  /-- about to test whether the directory is there -/
  | probing
  | creating
  /-- about to make the staging directory -/
  | staging
  | unpacking (root : Root) (done rest : List Item) (progress : Progress)
  /-- unpacking in place has failed -/
  | cleaning
  | renaming
  /-- the rename has failed: about to test the marker -/
  | checking
  | removing
  | retrying
  | marking
  | finished (ok : Bool)
deriving DecidableEq

structure World where
  final : Option Tree
  staging : Nat → Option Tree
  phase : Nat → Phase

inductive Action where
  | advance
  | fail
  /-- remove some entries and go on removing -/
  | removeSome (kept : Place → Bool)

/-- What a step of a call leaves: its phase, the package directory and the
staging directory of the call. -/
structure Outcome where
  phase : Phase
  final : Option Tree
  staging : Option Tree

section Steps

variable (items : List Item) (remote : Bool) (call : Nat) (final staging : Option Tree)

def isMarked (final : Option Tree) : Bool := final.any Tree.marked

/-- A directory can be renamed onto nothing and onto an empty directory. -/
def renameable (final : Option Tree) : Bool := (final.getD []).isEmpty

def rootTree : Root → Option Tree
  | .inPlace => final
  | .staged => staging

def withRoot (root : Root) (tree : Tree) (phase : Phase) : Outcome :=
  match root with
  | .inPlace => ⟨phase, some tree, staging⟩
  | .staged => ⟨phase, final, some tree⟩

/-- A failed extraction: the staging directory goes at once. -/
def failUnpacking : Root → Outcome
  | .inPlace => ⟨.cleaning, final, staging⟩
  | .staged => ⟨.finished false, final, none⟩

def startUnpacking (root : Root) : Outcome :=
  withRoot final staging root [] (.unpacking root [] items .ready)

/-- The next operation on the current entry of the tarball. -/
def unpackStep (root : Root) (done rest : List Item) (progress : Progress) : Outcome :=
  let tree := (rootTree final staging root).getD []
  match rest, progress with
  | [], _ => ⟨if root = .inPlace then .marking else .renaming, final, staging⟩
  | .dir path :: rest, _ =>
      match mkdirs tree [] path with
      | none => failUnpacking final staging root
      | some tree =>
          withRoot final staging root tree (.unpacking root (done ++ [.dir path]) rest .ready)
  | .file path content :: rest, .ready =>
      match mkdirs tree [] path.dropLast with
      | none => failUnpacking final staging root
      | some tree => withRoot final staging root tree
          (.unpacking root done (.file path content :: rest) .opening)
  | .file path content :: rest, .opening =>
      match (rootTree final staging root).bind fun tree => openFile tree call path with
      | none => failUnpacking final staging root
      | some tree => withRoot final staging root tree
          (.unpacking root done (.file path content :: rest) .filling)
  | .file path content :: rest, .filling =>
      let next := Phase.unpacking root (done ++ [.file path content]) rest .ready
      match rootTree final staging root with
      | none => ⟨next, final, staging⟩
      | some tree => withRoot final staging root (fill tree call path content) next

/-- Rename the staging directory onto the package directory. -/
def renameStep (otherwise : Outcome) : Outcome :=
  if renameable final then ⟨.marking, staging, none⟩ else otherwise

def markStep : Outcome :=
  match final with
  | none => ⟨.finished false, none, staging⟩
  | some tree =>
      if tree.get markerPlace = some .dir then ⟨.finished false, some tree, staging⟩
      else ⟨.finished true, some (tree.set markerPlace (.file [])), staging⟩

/-- The steps of a call in a phase; none where an action does not apply. -/
def step : Phase → Action → Option Outcome
  | .start, .advance =>
      some ⟨if isMarked final then .finished true else .probing, final, staging⟩
  | .probing, .advance =>
      some ⟨if remote && !final.isSome then .creating else .staging, final, staging⟩
  | .creating, .advance =>
      some (if final.isSome then ⟨.staging, final, staging⟩
        else startUnpacking items final staging .inPlace)
  | .staging, .advance => some (startUnpacking items final staging .staged)
  | .unpacking root done rest progress, .advance =>
      some (unpackStep call final staging root done rest progress)
  | .unpacking root _ _ _, .fail => some (failUnpacking final staging root)
  | .cleaning, .advance => some ⟨.finished false, none, staging⟩
  | .cleaning, .removeSome kept => some ⟨.cleaning, final.map (·.keep kept), staging⟩
  | .renaming, .advance => some (renameStep final staging ⟨.checking, final, staging⟩)
  | .renaming, .fail => some ⟨.checking, final, staging⟩
  | .checking, .advance =>
      some (if isMarked final then ⟨.marking, final, none⟩ else ⟨.removing, final, staging⟩)
  | .removing, .advance => some ⟨.retrying, none, staging⟩
  | .removing, .removeSome kept => some ⟨.removing, final.map (·.keep kept), staging⟩
  | .removing, .fail => some ⟨.retrying, final, staging⟩
  | .retrying, .advance => some (renameStep final staging ⟨.finished false, final, none⟩)
  | .retrying, .fail => some ⟨.finished false, final, none⟩
  | .marking, .advance => some (markStep final staging)
  | .probing, .fail | .creating, .fail | .staging, .fail | .cleaning, .fail | .marking, .fail =>
      some ⟨.finished false, final, staging⟩
  | _, _ => none

end Steps

/-- One step of one call. -/
def World.next (items : List Item) (remote : Bool) (world : World) (call : Nat) (action : Action) :
    Option World :=
  (step items remote call world.final (world.staging call) (world.phase call) action).map
    fun outcome =>
      { final := outcome.final
        staging := Function.update world.staging call outcome.staging
        phase := Function.update world.phase call outcome.phase }

abbrev Schedule := List (Nat × Action)

def World.run (items : List Item) (remote : Bool) (schedule : Schedule) (world : World) :
    Option World :=
  schedule.foldlM (fun world e => world.next items remote e.1 e.2) world

/-- The content that unpacking leaves at a path: that of the last file with it. -/
def finalContent (items : List Item) (p : Place) : Option Content :=
  items.foldl (fun found item =>
    match item with
    | .dir _ => found
    | .file path content => if path = p then some content else found) none

/-- Every file of the tarball is there with its content. -/
def Contains (items : List Item) (tree : Tree) : Prop :=
  ∀ p content, finalContent items p = some content → tree.get p = some (.file content)

/-- The package directory is marked and has every file. -/
def Completed (items : List Item) (world : World) : Prop :=
  ∃ tree, world.final = some tree ∧ tree.marked = true ∧ Contains items tree

/-- No call has started, and a directory that is marked is complete. What a
crashed call left is there without a marker. -/
structure Initial (items : List Item) (world : World) : Prop where
  phases : ∀ call, world.phase call = .start
  final : ∀ tree, world.final = some tree → tree.marked = true → Contains items tree

end Snpm.Store.Race
