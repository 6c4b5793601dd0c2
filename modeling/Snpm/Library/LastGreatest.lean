import Mathlib

/-!
The last greatest element of a list. It is found by one scan that keeps the best
element only while it is greater than the next. The comparison has to be an
order on the elements of the list only.
-/
namespace LastGreatest

variable {α : Type} (cmp : α → α → Ordering)

/-- The comparison orders the elements with a property. -/
structure OrdersOn (P : α → Prop) : Prop where
  swap : ∀ {a b}, P a → P b → cmp b a = (cmp a b).swap
  trans : ∀ {a b c}, P a → P b → P c → cmp a b ≠ .gt → cmp b c ≠ .gt → cmp a c ≠ .gt

def keepGreater (best a : α) : α := if cmp best a = .gt then best else a

def scan : List α → Option α
  | [] => none
  | a :: rest => some (rest.foldl (keepGreater cmp) a)

/-- Nothing before is greater and everything after is less. -/
def IsLastGreatest (l : List α) (a : α) : Prop :=
  ∃ front back, l = front ++ a :: back ∧ (∀ b ∈ front, cmp b a ≠ .gt) ∧ ∀ b ∈ back, cmp a b = .gt

variable {cmp} {P : α → Prop}

theorem IsLastGreatest.mem {l : List α} {a : α} (h : IsLastGreatest cmp l a) : a ∈ l := by
  obtain ⟨front, back, rfl, -, -⟩ := h
  exact List.mem_append_right front List.mem_cons_self

theorem OrdersOn.refl (horder : OrdersOn cmp P) {a : α} (ha : P a) : cmp a a ≠ .gt := by
  intro hgt
  have hswap := horder.swap ha ha
  rw [hgt] at hswap
  cases hswap

theorem OrdersOn.of_gt (horder : OrdersOn cmp P) {a b : α} (ha : P a) (hb : P b)
    (h : cmp a b = .gt) : cmp b a ≠ .gt := by
  rw [horder.swap ha hb, h]
  decide

/-- Nothing in the list is greater. -/
theorem IsLastGreatest.le (horder : OrdersOn cmp P) {l : List α} (hl : ∀ a ∈ l, P a) {a b : α}
    (h : IsLastGreatest cmp l a) (hb : b ∈ l) : cmp b a ≠ .gt := by
  have ha := hl a h.mem
  obtain ⟨front, back, rfl, hfront, hback⟩ := h
  cases List.mem_append.mp hb with
  | inl hmem => exact hfront b hmem
  | inr hmem =>
      cases List.mem_cons.mp hmem with
      | inl heq =>
          rw [heq]
          exact horder.refl ha
      | inr hafter => exact horder.of_gt ha (hl b hb) (hback b hafter)

theorem foldl_spec (horder : OrdersOn cmp P) (l seen : List α) (a : α)
    (hl : ∀ b ∈ seen ++ l, P b) (h : IsLastGreatest cmp seen a) :
    IsLastGreatest cmp (seen ++ l) (l.foldl (keepGreater cmp) a) := by
  induction l generalizing seen a with
  | nil =>
      rw [List.append_nil]
      exact h
  | cons x l ih =>
      have hseen : ∀ b ∈ seen, P b := fun b hb => hl b (List.mem_append_left _ hb)
      have hx : P x := hl x (List.mem_append_right _ List.mem_cons_self)
      rw [List.append_cons, List.foldl_cons]
      apply ih
      · intro b hb
        apply hl
        rw [List.append_cons]
        exact hb
      · rw [keepGreater]
        by_cases hgt : cmp a x = .gt
        · rw [if_pos hgt]
          obtain ⟨front, back, rfl, hfront, hback⟩ := h
          refine ⟨front, back ++ [x], by rw [List.append_assoc, List.cons_append], hfront, ?_⟩
          intro b hb
          cases List.mem_append.mp hb with
          | inl hmem => exact hback b hmem
          | inr hmem =>
              rw [List.mem_singleton.mp hmem]
              exact hgt
        · rw [if_neg hgt]
          refine ⟨seen, [], rfl, fun b hb => ?_, fun b hb => absurd hb List.not_mem_nil⟩
          exact horder.trans (hseen b hb) (hseen a h.mem) hx (h.le horder hseen hb) hgt

/-- A list that is not empty has a last greatest element, and the scan finds it. -/
theorem scan_spec (horder : OrdersOn cmp P) {l : List α} (hl : ∀ a ∈ l, P a) :
    (l = [] ∧ scan cmp l = none) ∨ ∃ a, scan cmp l = some a ∧ IsLastGreatest cmp l a := by
  cases l with
  | nil => exact .inl ⟨rfl, rfl⟩
  | cons a rest =>
      refine .inr ⟨_, rfl, ?_⟩
      apply foldl_spec horder rest [a] a hl
      exact ⟨[], [], rfl, fun b hb => absurd hb List.not_mem_nil, fun b hb => absurd hb List.not_mem_nil⟩

theorem IsLastGreatest.unique (horder : OrdersOn cmp P) {l : List α} (hl : ∀ a ∈ l, P a) {a b : α}
    (ha : IsLastGreatest cmp l a) (hb : IsLastGreatest cmp l b) : a = b := by
  have hab := ha.le horder hl hb.mem
  have hba := hb.le horder hl ha.mem
  obtain ⟨front, back, hsplit, -, hback⟩ := ha
  obtain ⟨front', back', hsplit', -, hback'⟩ := hb
  rw [hsplit] at hsplit'
  cases List.append_eq_append_iff.mp hsplit' with
  | inl h =>
      obtain ⟨between, rfl, hrest⟩ := h
      cases between with
      | nil => simpa using (List.cons.inj hrest).1
      | cons x between =>
          rw [List.cons_append, List.cons.injEq] at hrest
          have hmem : b ∈ back := by
            rw [hrest.2]
            exact List.mem_append_right _ List.mem_cons_self
          exact absurd (hback b hmem) hba
  | inr h =>
      obtain ⟨between, rfl, hrest⟩ := h
      cases between with
      | nil => simpa using (List.cons.inj hrest).1.symm
      | cons x between =>
          rw [List.cons_append, List.cons.injEq] at hrest
          have hmem : a ∈ back' := by
            rw [hrest.2]
            exact List.mem_append_right _ List.mem_cons_self
          exact absurd (hback' a hmem) hab

theorem scan_eq_some_iff (horder : OrdersOn cmp P) {l : List α} (hl : ∀ a ∈ l, P a) {a : α} :
    scan cmp l = some a ↔ IsLastGreatest cmp l a := by
  constructor
  · intro h
    cases scan_spec horder hl with
    | inl hnil =>
        rw [hnil.2] at h
        cases h
    | inr hsome =>
        obtain ⟨b, hb, hgreatest⟩ := hsome
        rw [h, Option.some.injEq] at hb
        rw [hb]
        exact hgreatest
  · intro h
    cases scan_spec horder hl with
    | inl hnil =>
        rw [hnil.1] at h
        exact absurd h.mem List.not_mem_nil
    | inr hsome =>
        obtain ⟨b, hb, hgreatest⟩ := hsome
        rw [hb, h.unique horder hl hgreatest]

/-- What is chosen among more elements is chosen among fewer, if it is there. -/
theorem IsLastGreatest.sublist {l l' : List α} {a : α} (h : IsLastGreatest cmp l a)
    (hsub : l'.Sublist l) (hnodup : l.Nodup) (ha : a ∈ l') : IsLastGreatest cmp l' a := by
  obtain ⟨front, back, rfl, hfront, hback⟩ := h
  obtain ⟨front', rest', rfl, hfront', hrest'⟩ := List.sublist_append_iff.mp hsub
  have hout : a ∉ front' := by
    intro hmem
    rw [List.nodup_append] at hnodup
    exact hnodup.2.2 a (hfront'.subset hmem) a List.mem_cons_self rfl
  have hin : a ∈ rest' := (List.mem_append.mp ha).resolve_left hout
  cases hrest' with
  | cons _ hskip =>
      rw [List.nodup_append] at hnodup
      exact absurd (hskip.subset hin) (List.nodup_cons.mp hnodup.2.1).1
  | cons_cons _ htail =>
      rename_i back'
      exact ⟨front', back', rfl, fun b hb => hfront b (hfront'.subset hb),
        fun b hb => hback b (htail.subset hb)⟩

end LastGreatest
