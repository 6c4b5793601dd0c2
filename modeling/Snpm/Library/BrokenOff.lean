import Mathlib

/-!
A list that is worked off from its head until an element stops the work. What was
done before stays, and the element that stops may leave something of its own.
-/
namespace BrokenOff

variable {α : Type} (stops : α → Bool) (leaves : α → List α)

/-- What is there when the work ended. -/
def run : List α → List α
  | [] => []
  | x :: xs =>
      match stops x with
      | true => leaves x
      | false => x :: run xs

variable {stops leaves} {xs : List α}

theorem run_of_free (h : ∀ x ∈ xs, stops x = false) : run stops leaves xs = xs := by
  induction xs with
  | nil => rfl
  | cons x xs ih =>
      rw [List.forall_mem_cons] at h
      simp only [run, h.1, ih h.2]

theorem run_append_of_free (h : ∀ x ∈ xs, stops x = false) (ys : List α) :
    run stops leaves (xs ++ ys) = xs ++ run stops leaves ys := by
  induction xs with
  | nil => rfl
  | cons x xs ih =>
      rw [List.forall_mem_cons] at h
      simp only [List.cons_append, run, h.1, ih h.2]

theorem run_append_of_stops (h : ¬ ∀ x ∈ xs, stops x = false) (ys : List α) :
    run stops leaves (xs ++ ys) = run stops leaves xs := by
  induction xs with
  | nil => exact absurd (fun x hx => absurd hx List.not_mem_nil) h
  | cons x xs ih =>
      cases hx : stops x with
      | true => simp only [List.cons_append, run, hx]
      | false =>
          have hrest : ¬ ∀ y ∈ xs, stops y = false :=
            fun hall => h (List.forall_mem_cons.mpr ⟨hx, hall⟩)
          simp only [List.cons_append, run, hx, ih hrest]

end BrokenOff
