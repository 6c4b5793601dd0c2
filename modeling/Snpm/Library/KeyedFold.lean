import Mathlib

/-!
Folds whose steps each touch one key. A state is seen through what it holds for
every key; a step reads and writes the value of its own key and leaves the
others. When no key occurs twice in a list of steps, the fold acts on every key
as at most one step does, and it succeeds when each of its steps would.
-/
namespace KeyedFold

variable {σ K R V ε : Type}

/-- Steps that act on one key, by a partial function of the value there. -/
structure Keyed (view : σ → K → V) (step : σ → K × R → Except ε σ)
    (act : K → R → V → Option V) : Prop where
  acts : ∀ {s s' : σ} {k : K} {r : R}, step s (k, r) = .ok s' →
    act k r (view s k) = some (view s' k) ∧ ∀ n, n ≠ k → view s' n = view s n
  runs : ∀ {s : σ} {k : K} {r : R} {v : V}, act k r (view s k) = some v →
    ∃ s', step s (k, r) = .ok s'

variable {view : σ → K → V} {step : σ → K × R → Except ε σ} {act : K → R → V → Option V}

/-- What a fold did to each key, when each step that succeeded acted on its own. -/
theorem foldlM_acts_of
    (h : ∀ {s s' : σ} {k : K} {r : R}, step s (k, r) = .ok s' →
      act k r (view s k) = some (view s' k) ∧ ∀ n, n ≠ k → view s' n = view s n) {l : List (K × R)} {s s' : σ}
    (hnodup : (l.map (·.1)).Nodup) (hfold : l.foldlM step s = .ok s') :
    (∀ n, n ∉ l.map (·.1) → view s' n = view s n) ∧
      ∀ k r, (k, r) ∈ l → act k r (view s k) = some (view s' k) := by
  induction l generalizing s with
  | nil =>
      cases hfold
      exact ⟨fun _ _ => rfl, fun _ _ hmem => absurd hmem List.not_mem_nil⟩
  | cons p l ih =>
      rw [List.map_cons, List.nodup_cons] at hnodup
      rw [List.foldlM_cons] at hfold
      cases hstep : step s p with
      | error e =>
          rw [hstep] at hfold
          cases hfold
      | ok s₁ =>
          rw [hstep] at hfold
          obtain ⟨hact, hothers⟩ := h hstep
          obtain ⟨hrest, hlist⟩ := ih hnodup.2 hfold
          constructor
          · intro n hn
            rw [List.map_cons, List.mem_cons, not_or] at hn
            rw [hrest n hn.2, hothers n hn.1]
          · intro k r hmem
            cases List.mem_cons.mp hmem with
            | inl heq =>
                subst heq
                rw [hact, hrest _ hnodup.1]
            | inr hmem =>
                have hk : k ≠ p.1 := fun heq => hnodup.1 (heq ▸ List.mem_map_of_mem hmem)
                rw [← hothers k hk]
                exact hlist k r hmem

theorem Keyed.foldlM_acts (h : Keyed view step act) {l : List (K × R)} {s s' : σ}
    (hnodup : (l.map (·.1)).Nodup) (hfold : l.foldlM step s = .ok s') :
    (∀ n, n ∉ l.map (·.1) → view s' n = view s n) ∧
      ∀ k r, (k, r) ∈ l → act k r (view s k) = some (view s' k) :=
  foldlM_acts_of h.acts hnodup hfold

theorem Keyed.foldlM_runs (h : Keyed view step act) {l : List (K × R)} {s : σ}
    (hnodup : (l.map (·.1)).Nodup)
    (hact : ∀ k r, (k, r) ∈ l → ∃ v, act k r (view s k) = some v) :
    ∃ s', l.foldlM step s = .ok s' := by
  induction l generalizing s with
  | nil => exact ⟨s, rfl⟩
  | cons p l ih =>
      rw [List.map_cons, List.nodup_cons] at hnodup
      obtain ⟨v, hv⟩ := hact p.1 p.2 List.mem_cons_self
      obtain ⟨s₁, hstep⟩ := h.runs hv
      have hothers := (h.acts hstep).2
      have hrest : ∀ k r, (k, r) ∈ l → ∃ v, act k r (view s₁ k) = some v := by
        intro k r hmem
        have hk : k ≠ p.1 := fun heq => hnodup.1 (heq ▸ List.mem_map_of_mem hmem)
        rw [hothers k hk]
        exact hact k r (List.mem_cons_of_mem _ hmem)
      obtain ⟨s', hfold⟩ := ih hnodup.2 hrest
      exact ⟨s', by rw [List.foldlM_cons, hstep]; exact hfold⟩

end KeyedFold
