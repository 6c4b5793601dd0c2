import Mathlib

/-!
Sequences made of blocks, each of which begins with a marked element and has no
other: how the blocks are told apart again.
-/
namespace HeadedBlocks

variable {σ α β : Type} (marked : σ → Bool)

/-- A marked element and what belongs to it. -/
def Block (block : List σ) : Prop :=
  ∃ head rest, block = head :: rest ∧ marked head = true ∧ ∀ x ∈ rest, marked x = false

variable {marked}

theorem takeWhile_blocks {blocks : List α} {text : α → List σ}
    (h : ∀ a ∈ blocks, Block marked (text a)) :
    (blocks.flatMap text).takeWhile (!marked ·) = [] := by
  cases blocks with
  | nil => rfl
  | cons a blocks =>
      obtain ⟨head, rest, htext, hhead, -⟩ := h a List.mem_cons_self
      rw [List.flatMap_cons, htext, List.cons_append, List.takeWhile_cons_of_neg (by simp [hhead])]

theorem takeWhile_rest {rest tail : List σ} (hrest : ∀ x ∈ rest, marked x = false)
    (htail : tail.takeWhile (!marked ·) = []) :
    (rest ++ tail).takeWhile (!marked ·) = rest := by
  have hall : ∀ x ∈ rest, (!marked x) = true := fun x hx => by simp [hrest x hx]
  rw [List.takeWhile_append_of_pos hall, htail, List.append_nil]

/-- Two sequences of blocks that read the same are the same, block by block. -/
theorem forall₂_of_flatMap_eq {as : List α} {bs : List β} {f : α → List σ} {g : β → List σ}
    (hf : ∀ a ∈ as, Block marked (f a)) (hg : ∀ b ∈ bs, Block marked (g b))
    (h : as.flatMap f = bs.flatMap g) : List.Forall₂ (fun a b => f a = g b) as bs := by
  induction as generalizing bs with
  | nil =>
      cases bs with
      | nil => exact .nil
      | cons b bs =>
          obtain ⟨head, rest, htext, -⟩ := hg b List.mem_cons_self
          rw [List.flatMap_cons, htext] at h
          cases h
  | cons a as ih =>
      obtain ⟨head, rest, hfa, -, hrest⟩ := hf a List.mem_cons_self
      have hfs : ∀ a ∈ as, Block marked (f a) := fun x hx => hf x (List.mem_cons_of_mem _ hx)
      cases bs with
      | nil =>
          rw [List.flatMap_cons, hfa] at h
          cases h
      | cons b bs =>
          obtain ⟨head', rest', hgb, -, hrest'⟩ := hg b List.mem_cons_self
          have hgs : ∀ b ∈ bs, Block marked (g b) := fun x hx => hg x (List.mem_cons_of_mem _ hx)
          rw [List.flatMap_cons, List.flatMap_cons, hfa, hgb, List.cons_append, List.cons_append,
            List.cons.injEq] at h
          obtain ⟨rfl, htails⟩ := h
          have hsame := congrArg (List.takeWhile (!marked ·)) htails
          rw [takeWhile_rest hrest (takeWhile_blocks hfs),
            takeWhile_rest hrest' (takeWhile_blocks hgs)] at hsame
          subst hsame
          exact .cons (hfa.trans hgb.symm) (ih hfs hgs (List.append_cancel_left htails))

end HeadedBlocks
