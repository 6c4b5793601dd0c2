import Mathlib

/-!
A run over a list of entries in which a field of the state is set again and
again, or switched on once and for all.
-/
namespace Overrides

variable {S E V : Type}

/-- The last entry that sets a field decides it. -/
theorem last_wins (step : S → E → S) (field : S → V) (sets : E → Option V)
    (hstep : ∀ s e, field (step s e) = (sets e).getD (field s)) (s : S) (entries : List E) :
    field (entries.foldl step s) = ((entries.filterMap sets).getLast?).getD (field s) := by
  induction entries using List.reverseRecOn with
  | nil => rfl
  | append_singleton entries e ih =>
      rw [List.foldl_append, List.foldl_cons, List.foldl_nil, hstep, ih, List.filterMap_append]
      cases hsets : sets e with
      | none => simp [hsets]
      | some v => simp [hsets]

/-- A switch is on if one entry turns it on. -/
theorem any_switches (step : S → E → S) (switch : S → Bool) (turnsOn : E → Bool)
    (hstep : ∀ s e, switch (step s e) = (switch s || turnsOn e)) (s : S) (entries : List E) :
    switch (entries.foldl step s) = (switch s || entries.any turnsOn) := by
  induction entries generalizing s with
  | nil => simp
  | cons e entries ih => rw [List.foldl_cons, ih, hstep, List.any_cons, Bool.or_assoc]

/-- Two states that are related stay related. -/
theorem foldl_related (step : S → E → S) (related : S → S → Prop) {entries : List E}
    (hstep : ∀ e ∈ entries, ∀ s s', related s s' → related (step s e) (step s' e)) {s s' : S}
    (h : related s s') : related (entries.foldl step s) (entries.foldl step s') := by
  induction entries generalizing s s' with
  | nil => exact h
  | cons e entries ih =>
      refine ih (fun e' he' => hstep e' (List.mem_cons_of_mem e he')) ?_
      exact hstep e List.mem_cons_self s s' h

end Overrides
