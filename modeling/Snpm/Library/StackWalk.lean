import Mathlib

/-!
A walk over a graph with an explicit stack. A node is popped, skipped when it
was seen before, and otherwise looked up and replaced by its successors. The
walk succeeds when every node it meets can be looked up, which is the case when
every node reachable from the stack can.
-/
namespace StackWalk

variable {α : Type} (successors : α → Option (List α))

section Walk

variable [DecidableEq α]

/-- The last successor is on top of the stack. -/
def walk : Nat → List α → List α → Bool
  | 0, _, _ => false
  | _ + 1, [], _ => true
  | fuel + 1, x :: stack, seen =>
      if x ∈ seen then walk fuel stack seen
      else
        match successors x with
        | none => false
        | some next => walk fuel (next.reverse ++ stack) (x :: seen)

end Walk

def Edge (x y : α) : Prop := ∃ next, successors x = some next ∧ y ∈ next

abbrev Reaches : α → α → Prop := Relation.ReflTransGen (Edge successors)

/-- How many successors a node has. -/
def degree (x : α) : Nat := ((successors x).getD []).length

section Work

variable [DecidableEq α]

/-- The pops that are left when `nodes` are all the nodes there are. -/
def work (nodes seen stack : List α) : Nat :=
  stack.length + ((nodes.filter (· ∉ seen)).map (degree successors)).sum

theorem sum_filter_cons {successors : α → Option (List α)} {nodes seen : List α} {x : α} (hnodup : nodes.Nodup) (hx : x ∈ nodes)
    (hseen : x ∉ seen) :
    ((nodes.filter (· ∉ seen)).map (degree successors)).sum =
      degree successors x + ((nodes.filter (· ∉ x :: seen)).map (degree successors)).sum := by
  induction nodes with
  | nil => exact absurd hx List.not_mem_nil
  | cons y nodes ih =>
      rw [List.nodup_cons] at hnodup
      by_cases hy : y = x
      · subst hy
        have hrest : nodes.filter (· ∉ y :: seen) = nodes.filter (· ∉ seen) := by
          apply List.filter_congr
          intro z hz
          have hne : z ≠ y := fun heq => hnodup.1 (heq ▸ hz)
          simp [hne]
        have hhead : (y :: nodes).filter (· ∉ seen) = y :: nodes.filter (· ∉ seen) :=
          List.filter_cons_of_pos (by simpa using hseen)
        have htail : (y :: nodes).filter (· ∉ y :: seen) = nodes.filter (· ∉ y :: seen) :=
          List.filter_cons_of_neg (by simp)
        rw [hhead, htail, hrest, List.map_cons, List.sum_cons]
      · have hmem : x ∈ nodes := (List.mem_cons.mp hx).resolve_left (Ne.symm hy)
        have hrest := ih hnodup.2 hmem
        by_cases hyseen : y ∈ seen
        · simpa [hyseen] using hrest
        · simp only [List.filter_cons, hyseen, List.mem_cons, hy, or_self, not_false_eq_true,
            decide_true, if_true, List.map_cons, List.sum_cons] at hrest ⊢
          omega

/-- Visiting a node takes it off the stack and its successors off the rest. -/
theorem work_visit {successors : α → Option (List α)} {nodes seen stack next : List α} {x : α} (hnodup : nodes.Nodup)
    (hx : x ∈ nodes) (hseen : x ∉ seen) (hnext : successors x = some next) :
    work successors nodes (x :: seen) (next.reverse ++ stack) + 1 =
      work successors nodes seen (x :: stack) := by
  have hsum : ((nodes.filter (· ∉ seen)).map (degree successors)).sum =
      degree successors x + ((nodes.filter (· ∉ x :: seen)).map (degree successors)).sum :=
    sum_filter_cons hnodup hx hseen
  have hdegree : degree successors x = next.length := by
    rw [degree, hnext]
    rfl
  simp only [work, List.length_append, List.length_reverse, List.length_cons]
  omega

end Work

/-- Every successor of a seen node was seen or is on the stack. -/
def Frontier (successors : α → Option (List α)) (seen stack : List α) : Prop :=
  ∀ x ∈ seen, ∃ next, successors x = some next ∧ ∀ y ∈ next, y ∈ seen ∨ y ∈ stack

variable {successors}

theorem Frontier.visit {seen stack next : List α} {x : α} (h : Frontier successors seen (x :: stack))
    (hnext : successors x = some next) :
    Frontier successors (x :: seen) (next.reverse ++ stack) := by
  intro y hy
  cases List.mem_cons.mp hy with
  | inl heq =>
      subst heq
      exact ⟨next, hnext, fun z hz => .inr (List.mem_append_left _ (List.mem_reverse.mpr hz))⟩
  | inr hy =>
      obtain ⟨found, hfound, hall⟩ := h y hy
      refine ⟨found, hfound, fun z hz => ?_⟩
      rcases hall z hz with hz | hz
      · exact .inl (List.mem_cons_of_mem _ hz)
      · cases List.mem_cons.mp hz with
        | inl heq => exact .inl (heq ▸ List.mem_cons_self)
        | inr hz => exact .inr (List.mem_append_right _ hz)

theorem Frontier.skip {seen stack : List α} {x : α} (h : Frontier successors seen (x :: stack))
    (hx : x ∈ seen) : Frontier successors seen stack := by
  intro y hy
  obtain ⟨found, hfound, hall⟩ := h y hy
  refine ⟨found, hfound, fun z hz => ?_⟩
  rcases hall z hz with hz | hz
  · exact .inl hz
  · cases List.mem_cons.mp hz with
    | inl heq => exact .inl (heq ▸ hx)
    | inr hz => exact .inr hz

/-- What was seen once the stack is empty is closed under edges. -/
theorem Frontier.reaches {seen : List α} (h : Frontier successors seen []) {x y : α}
    (hx : x ∈ seen) (hreach : Reaches successors x y) : (successors y).isSome := by
  have hseen : y ∈ seen := by
    induction hreach with
    | refl => exact hx
    | tail _ hedge ih =>
        obtain ⟨next, hnext, hmem⟩ := hedge
        obtain ⟨found, hfound, hall⟩ := h _ ih
        rw [hnext] at hfound
        cases hfound
        exact (hall _ hmem).resolve_right List.not_mem_nil
  obtain ⟨next, hnext, -⟩ := h y hseen
  rw [hnext]
  rfl

variable [DecidableEq α]

theorem reaches_of_walk {fuel : Nat} {stack seen : List α} (hfrontier : Frontier successors seen stack)
    (h : walk successors fuel stack seen = true) {x y : α} (hx : x ∈ seen ∨ x ∈ stack)
    (hreach : Reaches successors x y) : (successors y).isSome := by
  induction fuel generalizing stack seen with
  | zero => cases h
  | succ fuel ih =>
      cases stack with
      | nil => exact hfrontier.reaches (hx.resolve_right List.not_mem_nil) hreach
      | cons z stack =>
          rw [walk] at h
          by_cases hz : z ∈ seen
          · rw [if_pos hz] at h
            refine ih (hfrontier.skip hz) h ?_
            rcases hx with hx | hx
            · exact .inl hx
            · cases List.mem_cons.mp hx with
              | inl heq => exact .inl (heq ▸ hz)
              | inr hx => exact .inr hx
          · rw [if_neg hz] at h
            cases hnext : successors z with
            | none =>
                rw [hnext] at h
                cases h
            | some next =>
                rw [hnext] at h
                refine ih (hfrontier.visit hnext) h ?_
                rcases hx with hx | hx
                · exact .inl (List.mem_cons_of_mem _ hx)
                · cases List.mem_cons.mp hx with
                  | inl heq => exact .inl (heq ▸ List.mem_cons_self)
                  | inr hx => exact .inr (List.mem_append_right _ hx)

theorem walk_of_reaches {nodes : List α} (hnodup : nodes.Nodup)
    (hnodes : ∀ x, (successors x).isSome → x ∈ nodes) {fuel : Nat} {stack seen : List α}
    (hfuel : work successors nodes seen stack < fuel)
    (h : ∀ x ∈ stack, ∀ y, Reaches successors x y → (successors y).isSome) :
    walk successors fuel stack seen = true := by
  induction fuel generalizing stack seen with
  | zero => exact absurd hfuel (Nat.not_lt_zero _)
  | succ fuel ih =>
      cases stack with
      | nil => rfl
      | cons x stack =>
          rw [walk]
          by_cases hx : x ∈ seen
          · rw [if_pos hx]
            apply ih
            · simp only [work, List.length_cons] at hfuel ⊢
              omega
            · exact fun y hy => h y (List.mem_cons_of_mem _ hy)
          · rw [if_neg hx]
            have hsome := h x List.mem_cons_self x .refl
            obtain ⟨next, hnext⟩ := Option.isSome_iff_exists.mp hsome
            have hwork : work successors nodes (x :: seen) (next.reverse ++ stack) + 1 =
                work successors nodes seen (x :: stack) :=
              work_visit hnodup (hnodes x hsome) hx hnext
            rw [hnext]
            apply ih
            · omega
            · intro y hy z hreach
              cases List.mem_append.mp hy with
              | inl hy =>
                  exact h x List.mem_cons_self z
                    (.head ⟨next, hnext, List.mem_reverse.mp hy⟩ hreach)
              | inr hy => exact h y (List.mem_cons_of_mem _ hy) z hreach

/-- With fuel for every node, a walk from one node succeeds exactly when all
that is reachable from it can be looked up. -/
theorem walk_iff {nodes : List α} (hnodup : nodes.Nodup)
    (hnodes : ∀ x, (successors x).isSome → x ∈ nodes) (x : α) :
    walk successors (work successors nodes [] [x] + 1) [x] [] = true ↔
      ∀ y, Reaches successors x y → (successors y).isSome := by
  constructor
  · intro h y hreach
    exact reaches_of_walk (fun _ hz => absurd hz List.not_mem_nil) h
      (.inr (List.mem_singleton_self x)) hreach
  · intro h
    apply walk_of_reaches hnodup hnodes (Nat.lt_succ_self _)
    intro y hy z hreach
    rw [List.mem_singleton.mp hy] at hreach
    exact h z hreach

end StackWalk
