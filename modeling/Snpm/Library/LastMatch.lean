import Mathlib

/-!
Lists of rules where the last rule that applies decides, and when two readings of
which rules apply come to the same decision.
-/
namespace LastMatch

variable {α β : Type}

/-- The last element that `covers` holds of is one that `accepts` holds of. -/
def Decides (covers accepts : α → Prop) (xs : List α) : Prop :=
  ∃ front x back, xs = front ++ x :: back ∧ covers x ∧ accepts x ∧ ∀ y ∈ back, ¬ covers y

variable {covers covers' accepts : α → Prop} {xs front back : List α} {x : α}

theorem not_decides_nil : ¬ Decides covers accepts [] := by
  intro ⟨front, x, back, heq, _⟩
  simp at heq

theorem decides_append_of_covers (h : covers x) :
    Decides covers accepts (xs ++ [x]) ↔ accepts x := by
  constructor
  · rintro ⟨front, y, back, heq, _, haccepts, hnone⟩
    cases back using List.reverseRecOn with
    | nil =>
        have hlast := List.append_inj_right' heq rfl
        cases hlast
        exact haccepts
    | append_singleton back last =>
        rw [← List.cons_append, ← List.append_assoc] at heq
        have hlast := List.append_inj_right' heq rfl
        cases hlast
        exact absurd h (hnone x (by simp))
  · intro haccepts
    exact ⟨xs, x, [], rfl, h, haccepts, by simp⟩

theorem decides_append_of_not_covers (h : ¬ covers x) :
    Decides covers accepts (xs ++ [x]) ↔ Decides covers accepts xs := by
  constructor
  · rintro ⟨front, y, back, heq, hcovers, haccepts, hnone⟩
    cases back using List.reverseRecOn with
    | nil =>
        have hlast := List.append_inj_right' heq rfl
        cases hlast
        exact absurd hcovers h
    | append_singleton back last =>
        rw [← List.cons_append, ← List.append_assoc] at heq
        have hfront := List.append_inj_left' heq rfl
        exact ⟨front, y, back, hfront, hcovers, haccepts, fun z hz => hnone z (by simp [hz])⟩
  · rintro ⟨front, y, back, rfl, hcovers, haccepts, hnone⟩
    refine ⟨front, y, back ++ [x], by simp, hcovers, haccepts, fun z hz => ?_⟩
    cases List.mem_append.mp hz with
    | inl hback => exact hnone z hback
    | inr hlast =>
        cases List.mem_singleton.mp hlast
        exact h

/-- A fold that keeps the answer of the last element that applies. -/
theorem foldl_eq_true_iff {applies answer : α → Bool} :
    xs.foldl (fun decided x => if applies x then answer x else decided) false = true ↔
      Decides (applies · = true) (answer · = true) xs := by
  induction xs using List.reverseRecOn with
  | nil => simp [not_decides_nil]
  | append_singleton xs x ih =>
      simp only [List.foldl_append, List.foldl_cons, List.foldl_nil]
      by_cases h : applies x = true
      · have hlast : Decides (applies · = true) (answer · = true) (xs ++ [x]) ↔ answer x = true :=
          decides_append_of_covers h
        rw [if_pos h, hlast]
      · have hlast : Decides (applies · = true) (answer · = true) (xs ++ [x]) ↔
            Decides (applies · = true) (answer · = true) xs := decides_append_of_not_covers h
        rw [if_neg h, ih, hlast]

theorem decides_map {f : β → α} {ys : List β} :
    Decides covers accepts (ys.map f) ↔ Decides (covers ∘ f) (accepts ∘ f) ys := by
  induction ys using List.reverseRecOn with
  | nil => simp [not_decides_nil]
  | append_singleton ys y ih =>
      rw [List.map_append, List.map_singleton]
      by_cases h : covers (f y)
      · rw [decides_append_of_covers h, decides_append_of_covers (show (covers ∘ f) y from h)]
        rfl
      · rw [decides_append_of_not_covers h, decides_append_of_not_covers (show ¬ (covers ∘ f) y from h), ih]

theorem decides_congr (h : ∀ x ∈ xs, covers x ↔ covers' x) :
    Decides covers accepts xs ↔ Decides covers' accepts xs := by
  induction xs using List.reverseRecOn with
  | nil => simp [not_decides_nil]
  | append_singleton xs x ih =>
      have hx := h x (by simp)
      have hxs := ih fun y hy => h y (by simp [hy])
      by_cases hc : covers x
      · rw [decides_append_of_covers hc, decides_append_of_covers (hx.mp hc)]
      · rw [decides_append_of_not_covers hc, decides_append_of_not_covers (mt hx.mpr hc), hxs]

/-- The last element that either reading applies is applied by both, or what comes
before it, read the other way, already decides as it says. -/
def Agree (covers covers' accepts : α → Prop) (xs : List α) : Prop :=
  ∀ front x back, xs = front ++ x :: back → (∀ y ∈ back, ¬ covers y ∧ ¬ covers' y) →
    (covers x → ¬ covers' x → (Decides covers' accepts front ↔ accepts x)) ∧
    (covers' x → ¬ covers x → (Decides covers accepts front ↔ accepts x))

theorem agree_append_of_either (h : covers x ∨ covers' x) :
    Agree covers covers' accepts (xs ++ [x]) ↔
      (covers x → ¬ covers' x → (Decides covers' accepts xs ↔ accepts x)) ∧
      (covers' x → ¬ covers x → (Decides covers accepts xs ↔ accepts x)) := by
  constructor
  · intro hagree
    exact hagree xs x [] rfl (by simp)
  · intro hx front y back heq hnone
    cases back using List.reverseRecOn with
    | nil =>
        have hlast := List.append_inj_right' heq rfl
        have hfront := List.append_inj_left' heq rfl
        cases hlast
        subst hfront
        exact hx
    | append_singleton back last =>
        rw [← List.cons_append, ← List.append_assoc] at heq
        have hlast := List.append_inj_right' heq rfl
        cases hlast
        have hneither := hnone x (by simp)
        cases h with
        | inl hc => exact absurd hc hneither.1
        | inr hc => exact absurd hc hneither.2

theorem agree_append_of_neither (h : ¬ covers x) (h' : ¬ covers' x) :
    Agree covers covers' accepts (xs ++ [x]) ↔ Agree covers covers' accepts xs := by
  constructor
  · intro hagree front y back heq hnone
    refine hagree front y (back ++ [x]) (by simp [heq]) fun z hz => ?_
    cases List.mem_append.mp hz with
    | inl hback => exact hnone z hback
    | inr hlast =>
        cases List.mem_singleton.mp hlast
        exact ⟨h, h'⟩
  · intro hagree front y back heq hnone
    cases back using List.reverseRecOn with
    | nil =>
        have hlast := List.append_inj_right' heq rfl
        cases hlast
        exact ⟨fun hc => absurd hc h, fun hc => absurd hc h'⟩
    | append_singleton back last =>
        rw [← List.cons_append, ← List.append_assoc] at heq
        have hfront := List.append_inj_left' heq rfl
        exact hagree front y back hfront fun z hz => hnone z (by simp [hz])

/-- Both readings decide the same exactly when they agree so. -/
theorem decides_iff_decides_iff :
    (Decides covers accepts xs ↔ Decides covers' accepts xs) ↔ Agree covers covers' accepts xs := by
  induction xs using List.reverseRecOn with
  | nil =>
      simp only [not_decides_nil, iff_self, true_iff]
      intro front x back heq
      simp at heq
  | append_singleton xs x ih =>
      by_cases hc : covers x
      · rw [decides_append_of_covers hc, agree_append_of_either (.inl hc)]
        by_cases hc' : covers' x
        · simp [decides_append_of_covers hc', hc, hc']
        · simp only [decides_append_of_not_covers hc', hc, hc', not_false_eq_true, forall_const,
            false_imp_iff, and_true]
          exact iff_comm
      · by_cases hc' : covers' x
        · rw [decides_append_of_not_covers hc, decides_append_of_covers hc',
            agree_append_of_either (.inr hc')]
          simp only [hc, hc', not_false_eq_true, forall_const, false_imp_iff, true_and]
        · rw [decides_append_of_not_covers hc, decides_append_of_not_covers hc',
            agree_append_of_neither hc hc', ih]

end LastMatch
