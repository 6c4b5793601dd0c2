import Mathlib

/-!
Counting the members of a list that have a property, when one of them changes.
-/
namespace Counting

variable {α : Type} {p : α → Bool} {l : List α} {i j : Nat} {a b : α}

/-- Two places of a list count for two. -/
theorem two_le_countP (hi : l[i]? = some a) (hj : l[j]? = some b) (hne : i ≠ j) (ha : p a = true)
    (hb : p b = true) : 2 ≤ l.countP p := by
  induction l generalizing i j with
  | nil => cases hi
  | cons x l ih =>
      rw [List.countP_cons]
      have hpositive : ∀ {k : Nat} {c : α}, l[k]? = some c → p c = true → 1 ≤ l.countP p :=
        fun hk hc => List.countP_pos_iff.mpr ⟨_, List.mem_of_getElem? hk, hc⟩
      cases i with
      | zero =>
          cases j with
          | zero => exact absurd rfl hne
          | succ j =>
              cases hi
              rw [if_pos ha]
              have hrest := hpositive hj hb
              omega
      | succ i =>
          cases j with
          | zero =>
              cases hj
              rw [if_pos hb]
              have hrest := hpositive hi ha
              omega
          | succ j =>
              have hrest := ih hi hj (fun heq => hne (congrArg _ heq))
              omega

theorem countP_set (hi : l[i]? = some a) :
    (l.set i b).countP p + (if p a then 1 else 0) = l.countP p + (if p b then 1 else 0) := by
  induction l generalizing i with
  | nil => cases hi
  | cons x l ih =>
      cases i with
      | zero =>
          cases hi
          rw [List.set_cons_zero, List.countP_cons, List.countP_cons]
          omega
      | succ i =>
          have hrest := ih hi
          rw [List.set_cons_succ, List.countP_cons, List.countP_cons]
          omega

end Counting
