import Mathlib

/-!
The error values that the modelled operations return. A path is its text and a
system error is the text it prints. Variants that only unmodelled commands
raise (publishing, auditing, scripts) are left out.
-/
namespace Snpm

abbrev PathBuf := String

inductive SnpmError where
  | readFile (path : PathBuf) (source : String)
  | writeFile (path : PathBuf) (source : String)
  | resolutionFailed (name range reason : String)
  | manifestMissing (path : PathBuf)
  | manifestInvalid (path : PathBuf) (reason : String)
  | lockfile (path : PathBuf) (reason : String)
  | lockfileWrite (path : PathBuf) (source : String)
  | workspaceConfig (path : PathBuf) (reason : String)
  | semver (value reason : String)
  | storeMissing (name version : String)
  | graphMissing (name version : String)
  | patchNotFound (name reason : String)
  | io (path : PathBuf) (source : String)
  | archive (path : PathBuf) (source : String)
  | tarball (url reason : String)
  | http (url source : String)
  | storeTask (reason : String)
  | offlineRequired (resource : String)
  | auth (reason : String)
  | internal (reason : String)
deriving DecidableEq, Repr

abbrev Result (α : Type) := Except SnpmError α

theorem Result.bind_eq_ok {α β : Type} {x : Result α} {f : α → Result β} {b : β}
    (h : x >>= f = .ok b) : ∃ a, x = .ok a ∧ f a = .ok b := by
  cases x with
  | error e => cases h
  | ok a => exact ⟨a, rfl, h⟩

theorem Result.bind_eq_ok_iff {α β : Type} {x : Result α} {f : α → Result β} {b : β} :
    x >>= f = .ok b ↔ ∃ a, x = .ok a ∧ f a = .ok b := by
  constructor
  · exact bind_eq_ok
  · rintro ⟨a, rfl, h⟩
    exact h

theorem toOption_eq_some {ε α : Type} {x : Except ε α} {a : α} (h : x.toOption = some a) :
    x = .ok a := by
  cases x with
  | error e => cases h
  | ok b =>
      cases h
      rfl

/-- `Path::join` on Unix texts: an absolute right part replaces the left one. -/
def PathBuf.join (base rest : PathBuf) : PathBuf :=
  match rest.toList.head?, base.toList.getLast? with
  | some '/', _ => rest
  | _, none => rest
  | _, some '/' => base ++ rest
  | _, some _ => base ++ "/" ++ rest

end Snpm
