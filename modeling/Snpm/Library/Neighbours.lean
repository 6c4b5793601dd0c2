import Mathlib

/-!
Lists in which equal neighbours are dropped, as after sorting.
-/
namespace Neighbours

variable {α : Type} [DecidableEq α]

/-- `Vec::dedup`: of equal neighbours one stays. -/
def dedup : List α → List α
  | [] => []
  | [a] => [a]
  | a :: b :: rest => if a = b then dedup (b :: rest) else a :: dedup (b :: rest)

theorem mem_dedup_iff {a : α} (l : List α) : a ∈ dedup l ↔ a ∈ l := by
  induction l with
  | nil => exact Iff.rfl
  | cons b rest ih =>
      cases rest with
      | nil => exact Iff.rfl
      | cons c rest =>
          rw [dedup]
          split
          next heq =>
              rw [ih, heq]
              simp
          next heq =>
              rw [List.mem_cons, ih]
              exact List.mem_cons.symm

/-- Sorted, with one of each. -/
def sortDedup (cmp : α → α → Ordering) (l : List α) : List α :=
  dedup (l.mergeSort fun a b => (cmp a b).isLE)

theorem mem_sortDedup_iff {cmp : α → α → Ordering} {a : α} (l : List α) :
    a ∈ sortDedup cmp l ↔ a ∈ l := by
  rw [sortDedup, mem_dedup_iff, List.mem_mergeSort]

end Neighbours
