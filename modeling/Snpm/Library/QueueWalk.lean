import Mathlib

/-!
A breadth-first walk over a finite graph. A node is queued when it is met for the
first time; the nodes the walk starts from are queued but not met.
-/
namespace QueueWalk

variable {α : Type} [DecidableEq α]

section Visit

/-- Meet a node. -/
def visit (state : Finset α × List α) (next : α) : Finset α × List α :=
  if next ∈ state.1 then state else (insert next state.1, state.2 ++ [next])

/-- What a pass over some nodes does to the state. -/
structure Visited (nodes : List α) (state state' : Finset α × List α) : Prop where
  met : ∀ x, x ∈ state'.1 ↔ x ∈ state.1 ∨ x ∈ nodes
  queued : ∀ x, x ∈ state'.2 ↔ x ∈ state.2 ∨ (x ∈ nodes ∧ x ∉ state.1)

theorem visit_visited (state : Finset α × List α) (next : α) :
    Visited [next] state (visit state next) := by
  unfold visit
  by_cases h : next ∈ state.1
  · rw [if_pos h]
    constructor
    · intro x
      rw [List.mem_singleton]
      exact ⟨.inl, fun hx => hx.elim id fun heq => heq ▸ h⟩
    · intro x
      rw [List.mem_singleton]
      exact ⟨.inl, fun hx => hx.elim id fun hnew => absurd (hnew.1 ▸ h) hnew.2⟩
  · rw [if_neg h]
    constructor
    · intro x
      rw [Finset.mem_insert, List.mem_singleton, or_comm]
    · intro x
      rw [List.mem_append, List.mem_singleton]
      constructor
      · exact fun hx => hx.imp_right fun heq => ⟨heq, heq ▸ h⟩
      · exact fun hx => hx.imp_right And.left

theorem foldl_visit_visited (nodes : List α) (state : Finset α × List α) :
    Visited nodes state (nodes.foldl visit state) := by
  induction nodes generalizing state with
  | nil => exact ⟨fun x => by simp, fun x => by simp⟩
  | cons next nodes ih =>
      have hfirst := visit_visited state next
      have hrest := ih (visit state next)
      rw [List.foldl_cons]
      constructor
      · intro x
        rw [hrest.met, hfirst.met, List.mem_singleton, List.mem_cons, or_assoc]
      · intro x
        rw [hrest.queued, hfirst.queued, hfirst.met, List.mem_singleton, List.mem_cons]
        by_cases heq : x = next
        · simp only [heq, true_or, true_and]
          by_cases hmet : next ∈ state.1
          · simp [hmet]
          · simp [hmet]
        · simp [heq]

variable [Fintype α]

/-- The nodes that are left and the queue together. -/
def work (state : Finset α × List α) : Nat := (state.1ᶜ).card + state.2.length

theorem work_visit (state : Finset α × List α) (next : α) : work (visit state next) = work state := by
  unfold visit work
  by_cases h : next ∈ state.1
  · rw [if_pos h]
  · have hcard : (insert next state.1)ᶜ.card + 1 = (state.1ᶜ).card := by
      rw [Finset.compl_insert]
      exact Finset.card_erase_add_one (Finset.mem_compl.mpr h)
    rw [if_neg h]
    dsimp only
    rw [List.length_append, List.length_singleton]
    omega

theorem work_foldl_visit (nodes : List α) (state : Finset α × List α) :
    work (nodes.foldl visit state) = work state := by
  induction nodes generalizing state with
  | nil => rfl
  | cons next nodes ih => rw [List.foldl_cons, ih, work_visit]

end Visit

section Walk

def walk [Fintype α] (next : α → List α) (state : Finset α × List α) : Finset α :=
  match state with
  | (met, []) => met
  | (met, current :: pending) => walk next ((next current).foldl visit (met, pending))
termination_by work state
decreasing_by
  rw [work_foldl_visit]
  exact Nat.lt_succ_self _

def Edge (next : α → List α) (x y : α) : Prop := y ∈ next x

variable [Fintype α] {next : α → List α}

/-- The result contains what was met and what follows a queued or new node. -/
theorem walk_closed (next : α → List α) (state : Finset α × List α) :
    (∀ x ∈ state.1, x ∈ walk next state) ∧
      (∀ x ∈ state.2, ∀ y ∈ next x, y ∈ walk next state) ∧
      ∀ x ∈ walk next state, x ∉ state.1 → ∀ y ∈ next x, y ∈ walk next state := by
  fun_induction walk next state with
  | case1 met =>
      exact ⟨fun x hx => hx, fun x hx => absurd hx List.not_mem_nil, fun x hx hnot => absurd hx hnot⟩
  | case2 met current pending ih =>
      have hvisited := foldl_visit_visited (next current) (met, pending)
      obtain ⟨hmet, hqueued, hnew⟩ := ih
      refine ⟨?_, ?_, ?_⟩
      · exact fun x hx => hmet x ((hvisited.met x).mpr (.inl hx))
      · intro x hx y hy
        cases List.mem_cons.mp hx with
        | inl heq =>
            rw [heq] at hy
            exact hmet y ((hvisited.met y).mpr (.inr hy))
        | inr hpending => exact hqueued x ((hvisited.queued x).mpr (.inl hpending)) y hy
      · intro x hx hnot y hy
        by_cases hfound : x ∈ ((next current).foldl visit (met, pending)).1
        · have hnodes := ((hvisited.met x).mp hfound).resolve_left hnot
          exact hqueued x ((hvisited.queued x).mpr (.inr ⟨hnodes, hnot⟩)) y hy
        · exact hnew x hx hfound y hy

/-- Whatever the walk meets follows a queued node. -/
theorem walk_sound (next : α → List α) (state : Finset α × List α) :
    ∀ y ∈ walk next state,
      y ∈ state.1 ∨ ∃ x ∈ state.2, Relation.TransGen (Edge next) x y := by
  fun_induction walk next state with
  | case1 met =>
      exact fun y hy => .inl hy
  | case2 met current pending ih =>
      have hvisited := foldl_visit_visited (next current) (met, pending)
      intro y hy
      cases ih y hy with
      | inl hmet =>
          refine ((hvisited.met y).mp hmet).imp_right fun hnext => ?_
          exact ⟨current, List.mem_cons_self, .single hnext⟩
      | inr hreached =>
          obtain ⟨x, hx, hxy⟩ := hreached
          right
          cases (hvisited.queued x).mp hx with
          | inl hpending => exact ⟨x, List.mem_cons_of_mem current hpending, hxy⟩
          | inr hnew => exact ⟨current, List.mem_cons_self, .head hnew.1 hxy⟩

/-- The walk from some nodes meets exactly what follows them. -/
theorem mem_walk_iff {seeds : List α} {y : α} :
    y ∈ walk next (∅, seeds) ↔ ∃ x ∈ seeds, Relation.TransGen (Edge next) x y := by
  obtain ⟨_, hqueued, hnew⟩ := walk_closed next ((∅, seeds) : Finset α × List α)
  constructor
  · intro hy
    exact (walk_sound next (∅, seeds) y hy).resolve_left (Finset.notMem_empty y)
  · intro hy
    obtain ⟨x, hx, hxy⟩ := hy
    induction hxy with
    | single hstep => exact hqueued x hx _ hstep
    | tail _ hstep ih => exact hnew _ ih (Finset.notMem_empty _) _ hstep

/-- With the nodes it starts from, the walk is the reflexive closure. -/
theorem mem_union_walk_iff {seeds : Finset α} {pending : List α} (h : ∀ x, x ∈ pending ↔ x ∈ seeds)
    {y : α} :
    y ∈ seeds ∪ walk next (∅, pending) ↔ ∃ x ∈ seeds, Relation.ReflTransGen (Edge next) x y := by
  rw [Finset.mem_union, mem_walk_iff]
  constructor
  · intro hy
    cases hy with
    | inl hseed => exact ⟨y, hseed, .refl⟩
    | inr hreached =>
        obtain ⟨x, hx, hxy⟩ := hreached
        exact ⟨x, (h x).mp hx, hxy.to_reflTransGen⟩
  · intro hy
    obtain ⟨x, hx, hxy⟩ := hy
    cases Relation.reflTransGen_iff_eq_or_transGen.mp hxy with
    | inl heq => exact .inl (heq ▸ hx)
    | inr htrans => exact .inr ⟨x, (h x).mpr hx, htrans⟩

end Walk

end QueueWalk
