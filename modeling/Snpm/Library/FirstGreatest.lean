import Mathlib

/-!
The first greatest element of a list under a comparison of keys. It is found by
one scan that replaces the best element only by a greater one.
-/
namespace FirstGreatest

variable {α β : Type} (cmp : β → β → Ordering) (key : α → β)

/-- Keep the best element unless the next is greater. -/
def keepGreater (best : Option α) (a : α) : Option α :=
  match best with
  | none => some a
  | some b => if cmp (key a) (key b) = .gt then some a else some b

def scan (l : List α) : Option α := l.foldl (keepGreater cmp key) none

/-- Everything before is less and nothing after is greater. -/
def IsFirstGreatest (l : List α) (a : α) : Prop :=
  ∃ front back, l = front ++ a :: back ∧ (∀ b ∈ front, cmp (key b) (key a) = .lt) ∧
    ∀ b ∈ back, cmp (key b) (key a) ≠ .gt

theorem scan_concat (l : List α) (a : α) :
    scan cmp key (l ++ [a]) = keepGreater cmp key (scan cmp key l) a := by
  unfold scan
  rw [List.foldl_append]
  rfl

variable {cmp key}

theorem IsFirstGreatest.mem {l : List α} {a : α} (h : IsFirstGreatest cmp key l a) : a ∈ l := by
  obtain ⟨front, back, hl, _, _⟩ := h
  rw [hl]
  exact List.mem_append_right _ List.mem_cons_self

/-- A greater element takes over, and everything before it is less. -/
theorem IsFirstGreatest.replaced [Std.TransCmp cmp] {l : List α} {a b : α}
    (h : IsFirstGreatest cmp key l b) (hgt : cmp (key a) (key b) = .gt) :
    IsFirstGreatest cmp key (l ++ [a]) a := by
  obtain ⟨front, back, hl, hfront, hback⟩ := h
  have hlt : cmp (key b) (key a) = .lt := Std.OrientedCmp.lt_of_gt hgt
  refine ⟨l, [], rfl, ?_, fun c hc => absurd hc List.not_mem_nil⟩
  intro c hc
  rw [hl] at hc
  cases List.mem_append.mp hc with
  | inl hc => exact Std.TransCmp.lt_trans (hfront c hc) hlt
  | inr hc =>
      cases List.mem_cons.mp hc with
      | inl heq =>
          rw [heq]
          exact hlt
      | inr hc =>
          have hle : (cmp (key c) (key b)).isLE = true := Ordering.isLE_iff_ne_gt.mpr (hback c hc)
          exact Std.TransCmp.lt_of_isLE_of_lt hle hlt

theorem IsFirstGreatest.kept {l : List α} {a b : α} (h : IsFirstGreatest cmp key l b)
    (hgt : cmp (key a) (key b) ≠ .gt) : IsFirstGreatest cmp key (l ++ [a]) b := by
  obtain ⟨front, back, hl, hfront, hback⟩ := h
  refine ⟨front, back ++ [a], by rw [hl, List.append_assoc, List.cons_append], hfront, ?_⟩
  intro c hc
  cases List.mem_append.mp hc with
  | inl hc => exact hback c hc
  | inr hc =>
      rw [List.mem_singleton.mp hc]
      exact hgt

/-- The scan finds the first greatest element of a list that is not empty. -/
theorem scan_spec [Std.TransCmp cmp] (key : α → β) (l : List α) :
    match scan cmp key l with
    | none => l = []
    | some a => IsFirstGreatest cmp key l a := by
  induction l using List.reverseRecOn with
  | nil => rfl
  | append_singleton l a ih =>
      rw [scan_concat]
      cases hscan : scan cmp key l with
      | none =>
          rw [hscan] at ih
          rw [ih]
          exact ⟨[], [], rfl, fun b hb => absurd hb List.not_mem_nil,
            fun b hb => absurd hb List.not_mem_nil⟩
      | some b =>
          rw [hscan] at ih
          unfold keepGreater
          dsimp only
          by_cases hgt : cmp (key a) (key b) = .gt
          · rw [if_pos hgt]
            exact ih.replaced hgt
          · rw [if_neg hgt]
            exact ih.kept hgt

theorem scan_eq_none_iff [Std.TransCmp cmp] {l : List α} : scan cmp key l = none ↔ l = [] := by
  have hspec : match scan cmp key l with | none => l = [] | some a => IsFirstGreatest cmp key l a :=
    scan_spec key l
  constructor
  · intro hnone
    rw [hnone] at hspec
    exact hspec
  · intro hnil
    rw [hnil]
    rfl

theorem isFirstGreatest_of_scan [Std.TransCmp cmp] {l : List α} {a : α}
    (h : scan cmp key l = some a) : IsFirstGreatest cmp key l a := by
  have hspec : match scan cmp key l with | none => l = [] | some a => IsFirstGreatest cmp key l a :=
    scan_spec key l
  rw [h] at hspec
  exact hspec

/-- In a list with ascending tags, no other element is greater, and an equal one
has a later tag. -/
theorem IsFirstGreatest.of_pairwise {r : α → α → Prop} {l : List α} {a : α}
    (h : IsFirstGreatest cmp key l a) (hl : l.Pairwise r) {b : α} (hb : b ∈ l) :
    b = a ∨ cmp (key b) (key a) = .lt ∨ (cmp (key b) (key a) = .eq ∧ r a b) := by
  obtain ⟨front, back, rfl, hfront, hback⟩ := h
  cases List.mem_append.mp hb with
  | inl hb => exact .inr (.inl (hfront b hb))
  | inr hb =>
      cases List.mem_cons.mp hb with
      | inl heq => exact .inl heq
      | inr hb =>
          have hr : r a b := (List.pairwise_cons.mp (List.pairwise_append.mp hl).2.1).1 b hb
          cases hcmp : cmp (key b) (key a) with
          | lt => exact .inr (.inl rfl)
          | eq => exact .inr (.inr ⟨rfl, hr⟩)
          | gt => exact absurd hcmp (hback b hb)

end FirstGreatest
