import Mathlib

/-!
Families of sets that reach down to a low end: once such a set has a point, it has
everything between its low end and that point. Finitely many of them have a point
in common just if they have one of their low ends in common.
-/
namespace LowEnds

variable {α ι : Type} [LinearOrder α]

/-- The point is in the set, and so is what lies between the low end and the point. -/
def ReachesDown (P : α → Prop) (low x : α) : Prop := low ≤ x ∧ ∀ y, low ≤ y → y ≤ x → P y

/-- The highest of some low ends. -/
def highest (bottom : α) (lows : List α) : α := lows.foldr max bottom

theorem highest_mem (bottom : α) (lows : List α) : highest bottom lows ∈ bottom :: lows := by
  induction lows with
  | nil => exact List.mem_singleton_self _
  | cons low lows ih =>
      change max low (highest bottom lows) ∈ bottom :: low :: lows
      cases max_choice low (highest bottom lows) with
      | inl heq =>
          rw [heq]
          exact List.mem_cons_of_mem _ List.mem_cons_self
      | inr heq =>
          rw [heq]
          cases List.mem_cons.mp ih with
          | inl hbottom =>
              rw [hbottom]
              exact List.mem_cons_self
          | inr hmem => exact List.mem_cons_of_mem _ (List.mem_cons_of_mem _ hmem)

theorem le_highest (bottom : α) {lows : List α} {low : α} (h : low ∈ lows) :
    low ≤ highest bottom lows := by
  induction lows with
  | nil => cases h
  | cons first lows ih =>
      change low ≤ max first (highest bottom lows)
      cases List.mem_cons.mp h with
      | inl heq =>
          rw [heq]
          exact le_max_left _ _
      | inr hmem => exact (ih hmem).trans (le_max_right _ _)

theorem highest_le {bottom x : α} {lows : List α} (hbottom : bottom ≤ x) (h : ∀ low ∈ lows, low ≤ x) :
    highest bottom lows ≤ x := by
  induction lows with
  | nil => exact hbottom
  | cons first lows ih =>
      exact max_le (h first List.mem_cons_self) (ih fun low hlow => h low (List.mem_cons_of_mem _ hlow))

/-- Sets with a common point have a low end, or the bottom, in common. -/
theorem exists_common_low {P : ι → α → Prop} {low : ι → α} {l : List ι} {bottom x : α}
    (hbottom : bottom ≤ x) (h : ∀ i ∈ l, ReachesDown (P i) (low i) x) :
    ∃ m ∈ bottom :: l.map low, m ≤ x ∧ ∀ i ∈ l, P i m := by
  have hle : highest bottom (l.map low) ≤ x := by
    apply highest_le hbottom
    intro end' hend
    obtain ⟨i, hi, rfl⟩ := List.mem_map.mp hend
    exact (h i hi).1
  refine ⟨highest bottom (l.map low), highest_mem _ _, hle, ?_⟩
  intro i hi
  exact (h i hi).2 _ (le_highest _ (List.mem_map_of_mem hi)) hle

end LowEnds
