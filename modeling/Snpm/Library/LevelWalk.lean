import Mathlib

/-!
Taking the nodes of a graph level by level: a node is ready when everything it
depends on is done. The nodes that never get ready are those downstream of a
cycle.
-/
namespace LevelWalk

variable {α : Type} [DecidableEq α]

section Waiting

variable (deps : α → List α)

/-- How many dependencies of a node are not done; a repeated one counts each time. -/
def waiting (done : List α) (c : α) : Nat := (deps c).countP fun d => d ∉ done

variable {deps}

theorem waiting_eq_zero_iff {done : List α} {c : α} :
    waiting deps done c = 0 ↔ ∀ d ∈ deps c, d ∈ done := by
  rw [waiting, List.countP_eq_zero]
  simp

theorem countP_not_mem_append {done : List α} {d : α} (hd : d ∉ done) (l : List α) :
    l.countP (fun x => x ∉ done) = l.countP (fun x => x ∉ done ++ [d]) + l.count d := by
  induction l with
  | nil => rfl
  | cons x l ih =>
      rw [List.countP_cons, List.countP_cons, List.count_cons, ih]
      by_cases hx : x = d
      · simp [hx, hd]
        omega
      · by_cases hdone : x ∈ done
        · simp [hx, hdone]
        · simp [hx, hdone]
          omega

/-- Finishing a dependency takes all its occurrences away. -/
theorem waiting_append {done : List α} {d : α} (hd : d ∉ done) (c : α) :
    waiting deps done c = waiting deps (done ++ [d]) c + (deps c).count d :=
  countP_not_mem_append hd (deps c)

end Waiting

section Cycles

variable {r : α → α → Prop} {left : List α}

/-- A way along the relation leads to a cycle. -/
def Downstream (r : α → α → Prop) (a : α) : Prop :=
  ∃ b, Relation.ReflTransGen r a b ∧ Relation.TransGen r b b

theorem reaches_iterate {S : Type} {r : S → S → Prop} {f : S → S} (h : ∀ x, r x (f x)) (x : S)
    (n : Nat) : Relation.ReflTransGen r x (f^[n] x) := by
  induction n with
  | zero => exact .refl
  | succ n ih =>
      rw [Function.iterate_succ_apply']
      exact ih.tail (h _)

/-- In a finite set where everything goes on inside, every way leads to a cycle. -/
theorem downstream_of_stuck (hstuck : ∀ c ∈ left, ∃ d ∈ left, r c d) {c : α} (hc : c ∈ left) :
    Downstream r c := by
  choose f hmem hr using hstuck
  let next : {x // x ∈ left} → {x // x ∈ left} := fun x => ⟨f x.1 x.2, hmem x.1 x.2⟩
  let step : {x // x ∈ left} → {x // x ∈ left} → Prop := fun x y => r x.1 y.1
  have hnext : ∀ x, step x (next x) := fun x => hr x.1 x.2
  obtain ⟨m, n, hne, heq⟩ :=
    Finite.exists_ne_map_eq_of_infinite fun n : Nat => next^[n] ⟨c, hc⟩
  have hloop : ∀ m n : Nat, m < n → next^[m] ⟨c, hc⟩ = next^[n] ⟨c, hc⟩ → Downstream r c := by
    intro m n hlt heq
    have hsplit : next^[n] ⟨c, hc⟩ = next^[n - m - 1] (next (next^[m] ⟨c, hc⟩)) := by
      rw [← Function.iterate_succ_apply' next, ← Function.iterate_add_apply]
      congr 1
      omega
    have hback := reaches_iterate hnext (next (next^[m] ⟨c, hc⟩)) (n - m - 1)
    rw [← hsplit, ← heq] at hback
    have hlift : ∀ x y, step x y → r x.1 y.1 := fun x y h => h
    refine ⟨(next^[m] ⟨c, hc⟩).1, ?_, ?_⟩
    · exact (reaches_iterate hnext ⟨c, hc⟩ m).lift Subtype.val hlift
    · exact .head' (hnext _) (hback.lift Subtype.val hlift)
  cases Nat.lt_or_gt_of_ne hne with
  | inl hlt => exact hloop m n hlt heq
  | inr hgt => exact hloop n m hgt heq.symm

end Cycles

end LevelWalk
