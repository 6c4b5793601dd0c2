import Mathlib

/-!
Systems of tasks that spawn tasks. A step moves one live task, which gets a
smaller measure, and may add finitely many tasks that are smaller than the task
that moved was. Such a system stops, however the steps are chosen: the measures
of the live tasks are a multiset that decreases.
-/
namespace Spawning

variable {σ α μ : Type} [Preorder μ]

/-- A step of one live task, with the tasks that it adds. -/
structure Spawns (live : σ → Finset α) (measure : σ → α → μ) (before after : σ)
    (mover : α) (added : Finset α) : Prop where
  mover_live : mover ∈ live before
  added_new : Disjoint (live before) added
  live_after : ∀ x, x ∈ live after ↔ x ∈ live before ∨ x ∈ added
  kept : ∀ x ∈ live before, x ≠ mover → measure after x = measure before x
  mover_lt : measure after mover < measure before mover
  added_lt : ∀ x ∈ added, measure after x < measure before mover

def measures (live : σ → Finset α) (measure : σ → α → μ) (state : σ) : Multiset μ :=
  (live state).val.map (measure state)

variable [DecidableEq α] {live : σ → Finset α} {measure : σ → α → μ} {before after : σ}
  {mover : α} {added : Finset α}

theorem measures_before (h : Spawns live measure before after mover added) :
    measures live measure before =
      ((live before).erase mover).val.map (measure before) + {measure before mover} := by
  have hsplit : (live before).val = mover ::ₘ ((live before).erase mover).val := by
    rw [Finset.erase_val, Multiset.cons_erase h.mover_live]
  rw [measures, hsplit, Multiset.map_cons, Multiset.add_comm, Multiset.singleton_add]

theorem measures_after (h : Spawns live measure before after mover added) :
    measures live measure after =
      ((live before).erase mover).val.map (measure before) +
        (measure after mover ::ₘ added.val.map (measure after)) := by
  have hlive : live after = (live before).disjUnion added h.added_new := by
    ext x
    rw [h.live_after, Finset.mem_disjUnion]
  have hsplit : (live before).val = mover ::ₘ ((live before).erase mover).val := by
    rw [Finset.erase_val, Multiset.cons_erase h.mover_live]
  have hkept : ((live before).erase mover).val.map (measure after) =
      ((live before).erase mover).val.map (measure before) := by
    apply Multiset.map_congr rfl
    intro x hx
    have hmem := Finset.mem_erase.mp hx
    exact h.kept x hmem.2 hmem.1
  rw [measures, hlive, Finset.disjUnion_val, hsplit, Multiset.map_add, Multiset.map_cons, hkept,
    Multiset.add_cons, Multiset.cons_add]

theorem measures_lt (h : Spawns live measure before after mover added) :
    Multiset.IsDershowitzMannaLT (measures live measure after) (measures live measure before) := by
  refine ⟨_, _, _, Multiset.singleton_ne_zero _, measures_after h, measures_before h, ?_⟩
  intro y hy
  refine ⟨measure before mover, Multiset.mem_singleton_self _, ?_⟩
  rcases Multiset.mem_cons.mp hy with hy | hy
  · rw [hy]
    exact h.mover_lt
  · obtain ⟨x, hx, hxy⟩ := Multiset.mem_map.mp hy
    rw [← hxy]
    exact h.added_lt x hx

/-- No infinite chain of such steps exists. -/
theorem wellFounded [WellFoundedLT μ] {step : σ → σ → Prop}
    (hstep : ∀ before after, step before after →
      ∃ mover added, Spawns live measure before after mover added) :
    WellFounded fun after before => step before after := by
  refine Subrelation.wf ?_ (InvImage.wf (measures live measure)
    Multiset.wellFounded_isDershowitzMannaLT)
  intro after before h
  obtain ⟨mover, added, hspawns⟩ := hstep before after h
  exact measures_lt hspawns

end Spawning
