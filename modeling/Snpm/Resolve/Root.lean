import Mathlib
import Snpm.Error
import Snpm.Resolve.Types

/-!
Collecting the roots of a resolution. The tasks of the roots run together, and
their results are taken in the order of the root names: an optional root that
failed is skipped, and the first other failure is the result of the whole.
-/
namespace Snpm.Resolve

/-- What the task of one root contributes. -/
def rootResult (isOptional : Bool) (range : String) : Result PackageId →
    Result (Option RootDependency)
  | .ok id => .ok (some ⟨range, id⟩)
  | .error error => if isOptional then .ok none else .error error

/-- `resolvePackage` gives the result of the task of a root and its range. -/
def resolveRootDependencies (rootDeps : BTreeMap String String)
    (optionalRootNames : BTreeSet String) (resolvePackage : String → String → Result PackageId) :
    Result ResolutionRoot := do
  let dependencies ← BTreeMap.filterMapM (fun name range =>
    rootResult (optionalRootNames.contains name) range (resolvePackage name range)) rootDeps
  .ok ⟨dependencies⟩

/-- A root keeps the range it was requested with, and only an optional root is
missing. -/
theorem root_of_resolveRootDependencies {rootDeps : BTreeMap String String}
    {optionalRootNames : BTreeSet String} {resolvePackage : String → String → Result PackageId}
    {root : ResolutionRoot}
    (h : resolveRootDependencies rootDeps optionalRootNames resolvePackage = .ok root)
    (name : String) :
    (rootDeps[name]? = none → root.dependencies[name]? = none) ∧
      ∀ range, rootDeps[name]? = some range →
        (∃ id, resolvePackage name range = .ok id ∧
            root.dependencies[name]? = some ⟨range, id⟩) ∨
          (optionalRootNames.contains name = true ∧ root.dependencies[name]? = none) := by
  obtain ⟨dependencies, hvisit, hroot⟩ := Result.bind_eq_ok h
  cases hroot
  obtain ⟨hother, hown⟩ := BTreeMap.filterMapM_ok hvisit name
  refine ⟨hother, fun range hrange => ?_⟩
  have hresult := hown range hrange
  cases hid : resolvePackage name range with
  | ok id =>
      rw [hid, rootResult, Except.ok.injEq] at hresult
      exact .inl ⟨id, rfl, hresult.symm⟩
  | error error =>
      rw [hid, rootResult] at hresult
      cases hoptional : optionalRootNames.contains name with
      | false =>
          rw [hoptional] at hresult
          cases hresult
      | true =>
          rw [hoptional, if_pos rfl, Except.ok.injEq] at hresult
          exact .inr ⟨rfl, hresult.symm⟩

end Snpm.Resolve
