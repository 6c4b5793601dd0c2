import Mathlib

/-!
A depth-first walk that enumerates paths. A node is entered unless it is already
on the path that leads to it, and every entry is reported with the labels of
that path. The nodes that are reported are the nodes that can be reached, also
when the graph is cyclic.
-/
namespace TrailWalk

variable {K L N : Type} (lookup : K → Option N) (children : N → List (L × K))

section Walk

variable [DecidableEq K]

/-- The entries below an edge, with the labels of their paths. -/
def walk : Nat → List L → List K → L × K → List (List L × N)
  | 0, _, _, _ => []
  | fuel + 1, path, trail, edge =>
      match lookup edge.2 with
      | none => []
      | some node =>
          if edge.2 ∈ trail then []
          else (path ++ [edge.1], node) ::
            (children node).flatMap (walk fuel (path ++ [edge.1]) (edge.2 :: trail))

end Walk

/-- One complete walk below an edge, by the steps it takes. -/
inductive Walked : List L → List K → L × K → List (List L × N) → Prop
  | missing {path : List L} {trail : List K} {edge : L × K} :
      lookup edge.2 = none → Walked path trail edge []
  | met {path : List L} {trail : List K} {edge : L × K} {node : N} :
      lookup edge.2 = some node → edge.2 ∈ trail → Walked path trail edge []
  | entered {path : List L} {trail : List K} {edge : L × K} {node : N}
      (below : L × K → List (List L × N)) :
      lookup edge.2 = some node → edge.2 ∉ trail →
      (∀ child ∈ children node, Walked (path ++ [edge.1]) (edge.2 :: trail) child (below child)) →
      Walked path trail edge ((path ++ [edge.1], node) :: (children node).flatMap below)

def Edge (x y : K) : Prop := ∃ node, lookup x = some node ∧ ∃ label, (label, y) ∈ children node

abbrev Reaches : K → K → Prop := Relation.ReflTransGen (Edge lookup children)

/-- Reachable through nodes that are not on the trail. -/
abbrev ReachesOff (trail : List K) : K → K → Prop :=
  Relation.ReflTransGen fun x y => Edge lookup children x y ∧ y ∉ trail

variable {lookup children}

theorem reachesOff_nil {x y : K} : ReachesOff lookup children [] x y ↔ Reaches lookup children x y := by
  simp only [ReachesOff, Reaches, List.not_mem_nil, not_false_eq_true, and_true]

/-- A walk to another node avoids a node or leaves it for the last time. -/
theorem reachesOff_split {trail : List K} {x a b : K} (h : ReachesOff lookup children trail a b)
    (hb : b ≠ x) :
    ReachesOff lookup children (x :: trail) a b ∨
      ∃ c, Edge lookup children x c ∧ c ∉ x :: trail ∧
        ReachesOff lookup children (x :: trail) c b := by
  induction h using Relation.ReflTransGen.head_induction_on with
  | refl => exact .inl .refl
  | head hstep hrest ih =>
      rename_i a c
      cases ih with
      | inr hlast => exact .inr hlast
      | inl hoff =>
          by_cases hc : c = x
          · subst hc
            cases hoff.cases_head with
            | inl heq => exact absurd heq.symm hb
            | inr hnext =>
                obtain ⟨d, hd, hdb⟩ := hnext
                exact .inr ⟨d, hd.1, hd.2, hdb⟩
          · refine .inl (.head ⟨hstep.1, ?_⟩ hoff)
            rw [List.mem_cons, not_or]
            exact ⟨hc, hstep.2⟩

theorem reachesOff_step {trail : List K} {x y : K} (h : ReachesOff lookup children trail x y)
    (hne : y ≠ x) :
    ∃ c, Edge lookup children x c ∧ c ∉ x :: trail ∧
      ReachesOff lookup children (x :: trail) c y := by
  cases reachesOff_split h hne with
  | inr hlast => exact hlast
  | inl hoff =>
      cases hoff.cases_head with
      | inl heq => exact absurd heq.symm hne
      | inr hnext =>
          obtain ⟨c, hc, hcy⟩ := hnext
          exact ⟨c, hc.1, hc.2, hcy⟩

theorem lookup_isSome_of_reachesOff {trail : List K} {x y : K} {node : N}
    (h : ReachesOff lookup children trail x y) (hy : lookup y = some node) :
    ∃ m, lookup x = some m := by
  cases h.cases_head with
  | inl heq => exact ⟨node, heq ▸ hy⟩
  | inr hnext =>
      obtain ⟨c, hc, -⟩ := hnext
      obtain ⟨m, hm, -⟩ := hc.1
      exact ⟨m, hm⟩

section Entries

variable [DecidableEq K]

theorem mem_walk_succ {fuel : Nat} {path : List L} {trail : List K} {edge : L × K}
    {entry : List L × N} :
    entry ∈ walk lookup children (fuel + 1) path trail edge ↔
      ∃ node, lookup edge.2 = some node ∧ edge.2 ∉ trail ∧
        (entry = (path ++ [edge.1], node) ∨ ∃ child ∈ children node,
          entry ∈ walk lookup children fuel (path ++ [edge.1]) (edge.2 :: trail) child) := by
  rw [walk]
  cases hnode : lookup edge.2 with
  | none => simp
  | some node =>
      by_cases htrail : edge.2 ∈ trail
      · simp [htrail]
      · simp [htrail, List.mem_flatMap]

/-- Whatever is entered can be reached. -/
theorem reaches_of_mem_walk {fuel : Nat} {path : List L} {trail : List K} {edge : L × K}
    {entry : List L × N} (h : entry ∈ walk lookup children fuel path trail edge) :
    ∃ y, Reaches lookup children edge.2 y ∧ lookup y = some entry.2 := by
  induction fuel generalizing path trail edge with
  | zero => simp [walk] at h
  | succ fuel ih =>
      obtain ⟨node, hnode, -, hentry⟩ := mem_walk_succ.mp h
      cases hentry with
      | inl heq => exact ⟨edge.2, .refl, by rw [hnode, heq]⟩
      | inr hchild =>
          obtain ⟨child, hmem, hin⟩ := hchild
          obtain ⟨y, hy, hlook⟩ := ih hin
          exact ⟨y, .head ⟨node, hnode, child.1, hmem⟩ hy, hlook⟩

/-- The nodes of a graph that a trail leaves open. -/
def unvisited (nodes trail : List K) : Nat := (nodes.filter (· ∉ trail)).length

theorem unvisited_cons_lt {nodes trail : List K} {x : K} (hx : x ∈ nodes) (htrail : x ∉ trail) :
    unvisited nodes (x :: trail) < unvisited nodes trail := by
  have hfilter : nodes.filter (· ∉ x :: trail) =
      (nodes.filter (· ∉ trail)).filter (· ≠ x) := by
    rw [List.filter_filter]
    apply List.filter_congr
    intro y _
    simp only [List.mem_cons, not_or, ne_eq, Bool.decide_and]
  rw [unvisited, unvisited, hfilter]
  apply List.length_filter_lt_length_iff_exists.mpr
  exact ⟨x, List.mem_filter.mpr ⟨hx, by simpa using htrail⟩, by simp⟩

/-- With fuel for every open node, everything that can be reached is entered. -/
theorem mem_walk_of_reachesOff {nodes : List K} (hnodes : ∀ x node, lookup x = some node → x ∈ nodes)
    {fuel : Nat} {path : List L} {trail : List K} {edge : L × K} {y : K} {node : N}
    (hfuel : unvisited nodes trail < fuel) (htrail : edge.2 ∉ trail)
    (h : ReachesOff lookup children trail edge.2 y) (hy : lookup y = some node) :
    ∃ labels, (labels, node) ∈ walk lookup children fuel path trail edge := by
  induction fuel generalizing path trail edge with
  | zero => exact absurd hfuel (Nat.not_lt_zero _)
  | succ fuel ih =>
      obtain ⟨m, hm⟩ := lookup_isSome_of_reachesOff h hy
      by_cases heq : y = edge.2
      · subst heq
        exact ⟨path ++ [edge.1], mem_walk_succ.mpr ⟨node, hy, htrail, .inl rfl⟩⟩
      · obtain ⟨c, ⟨m', hm', label, hchild⟩, hc, hcy⟩ := reachesOff_step h heq
        rw [hm, Option.some.injEq] at hm'
        subst hm'
        have hless := unvisited_cons_lt (hnodes _ _ hm) htrail
        have hopen : unvisited nodes (edge.2 :: trail) < fuel := by omega
        have hbelow : ∃ labels, (labels, node) ∈ walk lookup children fuel (path ++ [edge.1])
            (edge.2 :: trail) (label, c) := ih hopen hc hcy
        obtain ⟨labels, hlabels⟩ := hbelow
        exact ⟨labels, mem_walk_succ.mpr ⟨m, hm, htrail, .inr ⟨(label, c), hchild, hlabels⟩⟩⟩

/-- With fuel for every open node, the walk comes to its end. -/
theorem walked_walk {nodes : List K} (hnodes : ∀ x node, lookup x = some node → x ∈ nodes)
    {fuel : Nat} {path : List L} {trail : List K} {edge : L × K}
    (hfuel : unvisited nodes trail < fuel) :
    Walked lookup children path trail edge (walk lookup children fuel path trail edge) := by
  induction fuel generalizing path trail edge with
  | zero => exact absurd hfuel (Nat.not_lt_zero _)
  | succ fuel ih =>
      rw [walk]
      cases hnode : lookup edge.2 with
      | none => exact .missing hnode
      | some node =>
          dsimp only
          split
          next htrail => exact .met hnode htrail
          next htrail =>
              have hless := unvisited_cons_lt (hnodes _ _ hnode) htrail
              exact .entered _ hnode htrail fun child _ => ih (by omega)

/-- Fuel beyond the open nodes changes nothing. -/
theorem walk_fuel {nodes : List K} (hnodes : ∀ x node, lookup x = some node → x ∈ nodes)
    {fuel more : Nat} {path : List L} {trail : List K} {edge : L × K}
    (hfuel : unvisited nodes trail < fuel) (hmore : fuel ≤ more) :
    walk lookup children more path trail edge = walk lookup children fuel path trail edge := by
  induction fuel generalizing more path trail edge with
  | zero => exact absurd hfuel (Nat.not_lt_zero _)
  | succ fuel ih =>
      obtain ⟨more, rfl⟩ : ∃ k, more = k + 1 := ⟨more - 1, by omega⟩
      rw [walk, walk]
      cases hnode : lookup edge.2 with
      | none => rfl
      | some node =>
          dsimp only
          split
          next => rfl
          next htrail =>
              have hless := unvisited_cons_lt (hnodes _ _ hnode) htrail
              congr 1
              apply congrArg fun f => (children node).flatMap f
              funext child
              exact ih (by omega) (Nat.le_of_succ_le_succ hmore)

/-- The entries below an edge are the nodes that can be reached from it. -/
theorem mem_walk_iff {nodes : List K} (hnodes : ∀ x node, lookup x = some node → x ∈ nodes)
    {fuel : Nat} {edge : L × K} {node : N} (hfuel : nodes.length < fuel) :
    (∃ labels, (labels, node) ∈ walk lookup children fuel [] [] edge) ↔
      ∃ y, Reaches lookup children edge.2 y ∧ lookup y = some node := by
  constructor
  · intro h
    obtain ⟨labels, hlabels⟩ := h
    exact reaches_of_mem_walk hlabels
  · intro h
    obtain ⟨y, hreach, hy⟩ := h
    have hopen : unvisited nodes [] < fuel := by
      apply Nat.lt_of_le_of_lt _ hfuel
      exact List.length_filter_le _ _
    exact mem_walk_of_reachesOff hnodes hopen List.not_mem_nil (reachesOff_nil.mpr hreach) hy

end Entries

end TrailWalk
