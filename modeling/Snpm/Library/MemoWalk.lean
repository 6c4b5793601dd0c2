import Mathlib
import Snpm.Library.OrderedMap

/-!
Memoised depth-first evaluation with a cut. A node's value is built from the
values of its edges' targets; finished nodes are remembered, and a node met
again while it is still being evaluated yields a cut value that is not
remembered. The graph may be cyclic.

The results say what a remembered value is made of, when the cut can be
reached, and that on a cycle some value does not depend on all of the data
behind it.
-/
namespace MemoWalk

variable {K E A V : Type}

/-- What one evaluation does at a node and at an edge. -/
structure Walk (K E A V : Type) where
  edges : K → List E
  target : E → K
  start : K → A
  feed : A → E → V → A
  finish : A → V
  cut : K → V

structure State (K V : Type) [Ord K] where
  done : BTreeMap K V
  visiting : BTreeSet K

/-- A walk that leaves a node has a step to another node. -/
theorem exists_step_ne {r : K → K → Prop} {a b : K} (h : Relation.ReflTransGen r a b)
    (hne : a ≠ b) : ∃ c, r a c ∧ c ≠ a ∧ Relation.ReflTransGen r c b := by
  induction h using Relation.ReflTransGen.head_induction_on with
  | refl => exact absurd rfl hne
  | head hac hcb ih =>
      rename_i a c
      by_cases hca : c = a
      · subst hca
        exact ih hne
      · exact ⟨c, hac, hca, hcb⟩

variable [Ord K] [Std.TransOrd K]

def visitEdges (w : Walk K E A V) (visit : K → State K V → Option (V × State K V)) :
    List E → A → State K V → Option (A × State K V)
  | [], acc, s => some (acc, s)
  | e :: es, acc, s =>
      (visit (w.target e) s).bind fun r => visitEdges w visit es (w.feed acc e r.1) r.2

/-- Evaluate one node; `none` only when the fuel runs out. -/
def visit (w : Walk K E A V) : Nat → K → State K V → Option (V × State K V)
  | 0, _, _ => none
  | fuel + 1, k, s =>
      match s.done[k]? with
      | some v => some (v, s)
      | none =>
          if k ∈ s.visiting then some (w.cut k, s)
          else
            (visitEdges w (visit w fuel) (w.edges k) (w.start k)
              ⟨s.done, s.visiting.insert k⟩).map fun r =>
                (w.finish r.1, ⟨r.2.done.insert k (w.finish r.1), r.2.visiting.erase k⟩)

/-- Evaluate a list of nodes one after the other. -/
def visitAll (w : Walk K E A V) (fuel : Nat) : List K → State K V → Option (State K V)
  | [], s => some s
  | k :: ks, s => (visit w fuel k s).bind fun r => visitAll w fuel ks r.2

omit [Std.TransOrd K] in
theorem visitEdges_append (w : Walk K E A V)
    (visit : K → State K V → Option (V × State K V)) (left right : List E) (acc : A)
    (s : State K V) :
    visitEdges w visit (left ++ right) acc s =
      (visitEdges w visit left acc s).bind fun r => visitEdges w visit right r.1 r.2 := by
  induction left generalizing acc s with
  | nil => rfl
  | cons e left ih => simp only [List.cons_append, visitEdges, ih, Option.bind_assoc]

/-- What a successful visit can have done. -/
theorem visit_cases {w : Walk K E A V} {fuel : Nat} {k : K} {s s' : State K V} {v : V}
    (h : visit w (fuel + 1) k s = some (v, s')) :
    (s.done[k]? = some v ∧ s' = s) ∨
    (s.done[k]? = none ∧ k ∈ s.visiting ∧ v = w.cut k ∧ s' = s) ∨
    (s.done[k]? = none ∧ k ∉ s.visiting ∧ ∃ acc t,
      visitEdges w (visit w fuel) (w.edges k) (w.start k) ⟨s.done, s.visiting.insert k⟩ =
        some (acc, t) ∧
      v = w.finish acc ∧ s' = ⟨t.done.insert k v, t.visiting.erase k⟩) := by
  simp only [visit] at h
  split at h
  case h_1 found heq =>
    simp only [Option.some.injEq, Prod.mk.injEq] at h
    exact .inl ⟨h.1 ▸ heq, h.2.symm⟩
  case h_2 heq =>
    split at h
    case isTrue hk =>
      simp only [Option.some.injEq, Prod.mk.injEq] at h
      exact .inr (.inl ⟨heq, hk, h.1.symm, h.2.symm⟩)
    case isFalse hk =>
      obtain ⟨⟨acc, t⟩, hloop, hr⟩ := Option.map_eq_some_iff.mp h
      simp only [Prod.mk.injEq] at hr
      refine .inr (.inr ⟨heq, hk, acc, t, hloop, hr.1.symm, ?_⟩)
      rw [← hr.2, hr.1]

/-- Rule induction over a successful visit: one property of visits, one of the
loop over edges. -/
theorem visit_induct {w : Walk K E A V} {P : K → State K V → V → State K V → Prop}
    {Q : List E → A → State K V → A → State K V → Prop}
    (remembered : ∀ k s v, s.done[k]? = some v → P k s v s)
    (cut : ∀ k s, s.done[k]? = none → k ∈ s.visiting → P k s (w.cut k) s)
    (node : ∀ k s acc t, s.done[k]? = none → k ∉ s.visiting →
      Q (w.edges k) (w.start k) ⟨s.done, s.visiting.insert k⟩ acc t →
      P k s (w.finish acc) ⟨t.done.insert k (w.finish acc), t.visiting.erase k⟩)
    (nil : ∀ acc s, Q [] acc s acc s)
    (cons : ∀ e es acc s v s₁ acc' s', P (w.target e) s v s₁ →
      Q es (w.feed acc e v) s₁ acc' s' → Q (e :: es) acc s acc' s')
    (fuel : Nat) {k : K} {s s' : State K V} {v : V}
    (h : visit w fuel k s = some (v, s')) : P k s v s' := by
  induction fuel generalizing k s s' v with
  | zero => simp [visit] at h
  | succ fuel ih =>
      obtain ⟨hk, rfl⟩ | ⟨hk, hv, rfl, rfl⟩ | ⟨hk, hv, acc, t, hloop, rfl, rfl⟩ := visit_cases h
      · exact remembered k _ v hk
      · exact cut k _ hk hv
      · refine node k s acc t hk hv ?_
        have loop : ∀ (es : List E) (acc : A) (s : State K V) (acc' : A) (s' : State K V),
            visitEdges w (visit w fuel) es acc s = some (acc', s') → Q es acc s acc' s' := by
          intro es
          induction es with
          | nil =>
              intro acc s acc' s' h
              simp only [visitEdges, Option.some.injEq, Prod.mk.injEq] at h
              exact h.1 ▸ h.2 ▸ nil acc s
          | cons e es ihes =>
              intro acc s acc' s' h
              obtain ⟨⟨u, s₁⟩, hvisit, hrest⟩ := Option.bind_eq_some_iff.mp h
              exact cons e es acc s u s₁ acc' s' (ih hvisit) (ihes _ _ _ _ hrest)
        exact loop _ _ _ _ _ hloop

/-- The effect of a run on the bookkeeping: open nodes are restored and keep
their entry, and remembered values persist. -/
structure Extends (s s' : State K V) : Prop where
  visiting : s'.visiting = s.visiting
  done : ∀ (j : K) (u : V), s.done[j]? = some u → s'.done[j]? = some u
  fresh : ∀ j ∈ s.visiting, s'.done[j]? = s.done[j]?

theorem Extends.refl (s : State K V) : Extends s s :=
  ⟨rfl, fun _ _ h => h, fun _ _ => rfl⟩

theorem Extends.trans {s t r : State K V} (h : Extends s t) (h' : Extends t r) :
    Extends s r where
  visiting := h'.visiting.trans h.visiting
  done j u hj := h'.done j u (h.done j u hj)
  fresh j hj := (h'.fresh j (h.visiting ▸ hj)).trans (h.fresh j hj)

theorem Extends.of_none {s s' : State K V} (h : Extends s s') {y : K}
    (hy : s'.done[y]? = none) : s.done[y]? = none := by
  cases hs : s.done[y]? with
  | none => rfl
  | some u => rw [h.done y u hs] at hy; cases hy

variable [Std.LawfulEqOrd K]

/-- Finishing a node after its edges. -/
theorem Extends.close {s t : State K V} {k : K} {v : V} (hk : s.done[k]? = none)
    (hv : k ∉ s.visiting) (h : Extends ⟨s.done, s.visiting.insert k⟩ t) :
    Extends s ⟨t.done.insert k v, t.visiting.erase k⟩ where
  visiting := by
    have hvis : t.visiting = s.visiting.insert k := h.visiting
    apply Std.ExtTreeSet.ext_mem
    intro j
    simp only [hvis, Std.ExtTreeSet.mem_erase, Std.ExtTreeSet.mem_insert,
      Std.LawfulEqCmp.compare_eq_iff_eq, ne_eq]
    constructor
    · rintro ⟨hne, hj | hj⟩
      · exact absurd hj hne
      · exact hj
    · intro hj
      exact ⟨fun heq => hv (heq ▸ hj), .inr hj⟩
  done := by
    intro j u hj
    have hne : k ≠ j := fun heq => by rw [heq, hj] at hk; cases hk
    simp only [Std.ExtTreeMap.getElem?_insert, Std.LawfulEqCmp.compare_eq_iff_eq, hne, if_false]
    exact h.done j u hj
  fresh := by
    intro j hj
    have hne : k ≠ j := fun heq => hv (heq ▸ hj)
    simp only [Std.ExtTreeMap.getElem?_insert, Std.LawfulEqCmp.compare_eq_iff_eq, hne, if_false]
    exact h.fresh j (Std.ExtTreeSet.mem_insert.mpr (.inr hj))

/-- A visited node is remembered, unless it was open. -/
theorem visit_extends {w : Walk K E A V} {fuel : Nat} {k : K} {s s' : State K V} {v : V}
    (h : visit w fuel k s = some (v, s')) :
    Extends s s' ∧ (s'.done[k]? = some v ∨ k ∈ s.visiting ∧ v = w.cut k) := by
  refine visit_induct (w := w)
    (P := fun k s v s' => Extends s s' ∧ (s'.done[k]? = some v ∨ k ∈ s.visiting ∧ v = w.cut k))
    (Q := fun _ _ s _ s' => Extends s s') ?_ ?_ ?_ ?_ ?_ fuel h
  · intro k s v hk
    exact ⟨.refl s, .inl hk⟩
  · intro k s _ hv
    exact ⟨.refl s, .inr ⟨hv, rfl⟩⟩
  · intro k s acc t hk hv ht
    exact ⟨ht.close hk hv, .inl (by simp)⟩
  · intro _ s
    exact .refl s
  · intro e es acc s v s₁ acc' s' h₁ h₂
    exact h₁.1.trans h₂

theorem visitEdges_extends {w : Walk K E A V} {fuel : Nat} {es : List E} {acc acc' : A}
    {s s' : State K V} (h : visitEdges w (visit w fuel) es acc s = some (acc', s')) :
    Extends s s' ∧ ∀ e ∈ es, (∃ v, s'.done[w.target e]? = some v) ∨ w.target e ∈ s.visiting := by
  induction es generalizing acc s with
  | nil =>
      simp only [visitEdges, Option.some.injEq, Prod.mk.injEq] at h
      exact ⟨h.2 ▸ .refl s, by simp⟩
  | cons e es ih =>
      obtain ⟨⟨v, s₁⟩, hvisit, hrest⟩ := Option.bind_eq_some_iff.mp h
      obtain ⟨hext, hdone⟩ := visit_extends hvisit
      obtain ⟨hext', hdone'⟩ := ih hrest
      refine ⟨hext.trans hext', ?_⟩
      intro e' he'
      rcases List.mem_cons.mp he' with rfl | he'
      · rcases hdone with hd | ⟨hv, -⟩
        · exact .inl ⟨v, hext'.done _ _ hd⟩
        · exact .inr hv
      · exact hext.visiting ▸ hdone' e' he'

theorem visitAll_extends {w : Walk K E A V} {fuel : Nat} {ks : List K} {s s' : State K V}
    (h : visitAll w fuel ks s = some s') : Extends s s' := by
  induction ks generalizing s with
  | nil =>
      simp only [visitAll, Option.some.injEq] at h
      exact h ▸ .refl s
  | cons k ks ih =>
      obtain ⟨⟨v, s₁⟩, hvisit, hrest⟩ := Option.bind_eq_some_iff.mp h
      exact (visit_extends hvisit).1.trans (ih hrest)

/-- On a cycle of two nodes the second one is built from the cut of the first. -/
theorem visitAll_two_cycle {w : Walk K E A V} {a b : K} {ea eb : E} (hne : a ≠ b)
    (ha : w.edges a = [ea]) (hta : w.target ea = b) (hb : w.edges b = [eb])
    (htb : w.target eb = a) :
    ∃ s, visitAll w 3 [a, b] ⟨∅, ∅⟩ = some s ∧
      s.done[b]? = some (w.finish (w.feed (w.start b) eb (w.cut a))) ∧
      s.done[a]? = some (w.finish (w.feed (w.start a) ea
        (w.finish (w.feed (w.start b) eb (w.cut a))))) := by
  simp only [visitAll, visit, visitEdges, ha, hb, hta, htb]
  simp [hne, Std.ExtTreeMap.getElem_insert]

section Fuel

open Classical

/-- Open nodes are pairwise different, so the depth of a run is bounded by the
number of nodes that have edges at all. -/
theorem visit_isSome {w : Walk K E A V} (nodes : Finset K)
    (hnodes : ∀ k, w.edges k ≠ [] → k ∈ nodes) {fuel : Nat} {k : K} {s : State K V}
    (hfuel : (nodes.filter (· ∉ s.visiting)).card < fuel) :
    (visit w fuel k s).isSome := by
  induction fuel generalizing k s with
  | zero => omega
  | succ fuel ih =>
      simp only [visit]
      split
      · rfl
      · split
        · rfl
        · rename_i hv
          have loop : ∀ (es : List E) (acc : A) (t : State K V),
              (nodes.filter (· ∉ t.visiting)).card < fuel →
              (visitEdges w (visit w fuel) es acc t).isSome := by
            intro es
            induction es with
            | nil => simp [visitEdges]
            | cons e es ihes =>
                intro acc t ht
                obtain ⟨⟨v, t₁⟩, hvisit⟩ := Option.isSome_iff_exists.mp (ih (k := w.target e) ht)
                have hext := (visit_extends hvisit).1
                simp only [visitEdges, hvisit, Option.bind_some]
                exact ihes _ _ (hext.visiting ▸ ht)
          rw [Option.isSome_map]
          by_cases hedges : w.edges k = []
          · simp [hedges, visitEdges]
          · refine loop _ _ _ (Nat.lt_of_lt_of_le (Finset.card_lt_card ?_) (Nat.lt_succ_iff.mp hfuel))
            rw [Finset.ssubset_iff_of_subset]
            · refine ⟨k, ?_, ?_⟩
              · exact Finset.mem_filter.mpr ⟨hnodes k hedges, hv⟩
              · simp
            · intro j hj
              simp only [Finset.mem_filter, Std.ExtTreeSet.mem_insert, not_or] at hj ⊢
              exact ⟨hj.1, hj.2.2⟩

theorem visitAll_isSome {w : Walk K E A V} (nodes : Finset K)
    (hnodes : ∀ k, w.edges k ≠ [] → k ∈ nodes) {fuel : Nat} {ks : List K} {s : State K V}
    (hfuel : (nodes.filter (· ∉ s.visiting)).card < fuel) :
    (visitAll w fuel ks s).isSome := by
  induction ks generalizing s with
  | nil => rfl
  | cons k ks ih =>
      obtain ⟨⟨v, s₁⟩, hvisit⟩ := Option.isSome_iff_exists.mp (visit_isSome nodes hnodes (k := k) hfuel)
      simp only [visitAll, hvisit, Option.bind_some]
      exact ih ((visit_extends hvisit).1.visiting ▸ hfuel)

end Fuel

/-- One edge of the walked graph. -/
def Walk.Step (w : Walk K E A V) (a b : K) : Prop := ∃ e ∈ w.edges a, w.target e = b

def Walk.Reaches (w : Walk K E A V) : K → K → Prop := Relation.ReflTransGen w.Step

/-- Feed the edges' values in order. -/
def Walk.gather (w : Walk K E A V) (acc : A) (es : List E) (vs : List V) : A :=
  (es.zip vs).foldl (fun acc p => w.feed acc p.1 p.2) acc

/-- Where the value of an edge of `k` comes from: the target's remembered
value, or a cut at a target that `k` is reachable from. -/
def Token (w : Walk K E A V) (done : BTreeMap K V) (k : K) (e : E) (v : V) : Prop :=
  done[w.target e]? = some v ∨ v = w.cut (w.target e) ∧ w.Reaches (w.target e) k

/-- Every remembered value is built from tokens. -/
def Explained (w : Walk K E A V) (done : BTreeMap K V) : Prop :=
  ∀ (k : K) (v : V), done[k]? = some v → ∃ vs, List.Forall₂ (Token w done k) (w.edges k) vs ∧
    v = w.finish (w.gather (w.start k) (w.edges k) vs)

omit [Std.LawfulEqOrd K] in
theorem explained_empty (w : Walk K E A V) : Explained w ∅ := by
  intro k v h
  simp at h

omit [Std.LawfulEqOrd K] in
theorem Token.mono {w : Walk K E A V} {done done' : BTreeMap K V} {k : K} {e : E} {v : V}
    (hmono : ∀ (j : K) (u : V), done[j]? = some u → done'[j]? = some u)
    (h : Token w done k e v) : Token w done' k e v :=
  h.imp (hmono _ _) id

theorem Explained.insert {w : Walk K E A V} {done : BTreeMap K V} {k : K} {vs : List V}
    (h : Explained w done) (hk : done[k]? = none)
    (hvs : List.Forall₂ (Token w done k) (w.edges k) vs) :
    Explained w (done.insert k (w.finish (w.gather (w.start k) (w.edges k) vs))) := by
  set v := w.finish (w.gather (w.start k) (w.edges k) vs)
  have hmono : ∀ (j : K) (u : V), done[j]? = some u → (done.insert k v)[j]? = some u := by
    intro j u hj
    have hne : k ≠ j := fun heq => by rw [heq, hj] at hk; cases hk
    simpa [Std.ExtTreeMap.getElem?_insert, hne] using hj
  intro j u hj
  by_cases heq : k = j
  · subst heq
    refine ⟨vs, hvs.imp fun _ _ => Token.mono hmono, ?_⟩
    simpa [Std.ExtTreeMap.getElem?_insert, eq_comm] using hj
  · obtain ⟨us, hus, rfl⟩ := h j u (by simpa [Std.ExtTreeMap.getElem?_insert, heq] using hj)
    exact ⟨us, hus.imp fun _ _ => Token.mono hmono, rfl⟩

/-- Open nodes are ancestors of the node being evaluated, so a cut is only
taken on a cycle. -/
theorem visit_explained {w : Walk K E A V} {fuel : Nat} {k : K} {s s' : State K V} {v : V}
    (h : visit w fuel k s = some (v, s')) (hopen : ∀ a ∈ s.visiting, w.Reaches a k)
    (hs : Explained w s.done) : Explained w s'.done := by
  refine (visit_induct (w := w)
    (P := fun k s v s' => (∀ a ∈ s.visiting, w.Reaches a k) → Explained w s.done →
      Explained w s'.done ∧ Extends s s' ∧
        (s'.done[k]? = some v ∨ k ∈ s.visiting ∧ v = w.cut k))
    (Q := fun es acc s acc' s' => ∀ k, (∀ e ∈ es, e ∈ w.edges k) →
      (∀ a ∈ s.visiting, w.Reaches a k) → Explained w s.done →
      Explained w s'.done ∧ Extends s s' ∧ ∃ vs, List.Forall₂ (Token w s'.done k) es vs ∧
        acc' = w.gather acc es vs)
    ?_ ?_ ?_ ?_ ?_ fuel h hopen hs).1
  · intro k s v hk _ hs
    exact ⟨hs, .refl s, .inl hk⟩
  · intro k s _ hv _ hs
    exact ⟨hs, .refl s, .inr ⟨hv, rfl⟩⟩
  · intro k s acc t hk hv ht hopen hs
    have hopen' : ∀ a ∈ s.visiting.insert k, w.Reaches a k := by
      intro a ha
      rcases Std.ExtTreeSet.mem_insert.mp ha with heq | ha
      · rw [Std.LawfulEqCmp.compare_eq_iff_eq.mp heq]
        exact .refl
      · exact hopen a ha
    obtain ⟨hexp, hext, vs, hvs, rfl⟩ := ht k (fun _ he => he) hopen' hs
    have hnone : t.done[k]? = none := (hext.fresh k (by simp)).trans hk
    exact ⟨hexp.insert hnone hvs, hext.close hk hv, .inl (by simp)⟩
  · intro acc s k _ _ hs
    exact ⟨hs, .refl s, [], .nil, rfl⟩
  · intro e es acc s v s₁ acc' s' h₁ h₂ k hes hopen hs
    have hstep : w.Step k (w.target e) := ⟨e, hes e (by simp), rfl⟩
    obtain ⟨hexp₁, hext₁, hv⟩ := h₁ (fun a ha => (hopen a ha).tail hstep) hs
    obtain ⟨hexp₂, hext₂, vs, hvs, rfl⟩ := h₂ k (fun e' he' => hes e' (by simp [he']))
      (fun a ha => hopen a (hext₁.visiting ▸ ha)) hexp₁
    refine ⟨hexp₂, hext₁.trans hext₂, v :: vs, .cons ?_ hvs, rfl⟩
    exact hv.imp (hext₂.done _ _) fun ⟨hv, heq⟩ => ⟨heq, hopen _ hv⟩

theorem visitAll_explained {w : Walk K E A V} {fuel : Nat} {ks : List K} {s s' : State K V}
    (h : visitAll w fuel ks s = some s') (hopen : ∀ a, a ∉ s.visiting)
    (hs : Explained w s.done) :
    Explained w s'.done ∧ ∀ k ∈ ks, ∃ v, s'.done[k]? = some v := by
  induction ks generalizing s with
  | nil =>
      simp only [visitAll, Option.some.injEq] at h
      exact ⟨h ▸ hs, by simp⟩
  | cons k ks ih =>
      obtain ⟨⟨v, s₁⟩, hvisit, hrest⟩ := Option.bind_eq_some_iff.mp h
      obtain ⟨hext, hdone⟩ := visit_extends hvisit
      have hexp := visit_explained hvisit (fun a ha => absurd ha (hopen a)) hs
      obtain ⟨hexp', hkeys⟩ := ih hrest (hext.visiting ▸ hopen) hexp
      refine ⟨hexp', ?_⟩
      intro j hj
      rcases List.mem_cons.mp hj with rfl | hj
      · rcases hdone with hd | ⟨hv, -⟩
        · exact ⟨v, (visitAll_extends hrest).done _ _ hd⟩
        · exact absurd hv (hopen _)
      · exact hkeys j hj

/-- The same walk with other starting accumulators. -/
def Walk.withStart (w : Walk K E A V) (start : K → A) : Walk K E A V :=
  { w with start := start }

section Agree

variable {w : Walk K E A V} {y : K} {start : K → A}

private theorem visitEdges_agree_of {fuel : Nat}
    (ih : ∀ {k : K} {s s' : State K V} {v : V}, visit w fuel k s = some (v, s') →
      s'.done[y]? = none → visit (w.withStart start) fuel k s = some (v, s'))
    {es : List E} {acc acc' : A} {s s' : State K V}
    (h : visitEdges w (visit w fuel) es acc s = some (acc', s')) (hy : s'.done[y]? = none) :
    ∃ vs, acc' = w.gather acc es vs ∧ ∀ other : A,
      visitEdges (w.withStart start) (visit (w.withStart start) fuel) es other s =
        some (w.gather other es vs, s') := by
  induction es generalizing acc s with
  | nil =>
      simp only [visitEdges, Option.some.injEq, Prod.mk.injEq] at h
      exact ⟨[], h.1.symm, fun other => by simp [visitEdges, Walk.gather, h.2]⟩
  | cons e es ihes =>
      obtain ⟨⟨v, s₁⟩, hvisit, hrest⟩ := Option.bind_eq_some_iff.mp h
      obtain ⟨vs, rfl, hother⟩ := ihes hrest
      have hy₁ : s₁.done[y]? = none := (visitEdges_extends hrest).1.of_none hy
      refine ⟨v :: vs, rfl, fun other => ?_⟩
      have hvisit' : visit (w.withStart start) fuel ((w.withStart start).target e) s =
          some (v, s₁) := ih hvisit hy₁
      simp only [visitEdges, hvisit', Option.bind_some]
      exact hother _

/-- As long as a node is not finished, its starting accumulator is not used. -/
theorem visit_agree (hstart : ∀ k, k ≠ y → start k = w.start k) {fuel : Nat} {k : K}
    {s s' : State K V} {v : V} (h : visit w fuel k s = some (v, s'))
    (hy : s'.done[y]? = none) : visit (w.withStart start) fuel k s = some (v, s') := by
  induction fuel generalizing k s s' v with
  | zero => simp [visit] at h
  | succ fuel ih =>
      obtain ⟨hk, rfl⟩ | ⟨hk, hv, rfl, rfl⟩ | ⟨hk, hv, acc, t, hloop, rfl, rfl⟩ := visit_cases h
      · simp only [visit, hk]
      · simp only [visit, hk, hv, if_true]
        rfl
      · have hne : k ≠ y := by
          rintro rfl
          simp at hy
        have hy' : t.done[y]? = none := by
          simpa [Std.ExtTreeMap.getElem?_insert, hne] using hy
        obtain ⟨vs, rfl, hother⟩ := visitEdges_agree_of ih hloop hy'
        have hother := hother (w.start k)
        rw [← hstart k hne] at hother
        have hloop' : visitEdges (w.withStart start) (visit (w.withStart start) fuel)
            ((w.withStart start).edges k) ((w.withStart start).start k)
            ⟨s.done, s.visiting.insert k⟩ = some (w.gather (start k) (w.edges k) vs, t) := hother
        simp only [visit, hk, hv, if_false, hloop', Option.map_some, hstart k hne]
        rfl

theorem visitEdges_agree (hstart : ∀ k, k ≠ y → start k = w.start k) {fuel : Nat}
    {es : List E} {acc acc' : A} {s s' : State K V}
    (h : visitEdges w (visit w fuel) es acc s = some (acc', s')) (hy : s'.done[y]? = none) :
    ∃ vs, acc' = w.gather acc es vs ∧ ∀ other : A,
      visitEdges (w.withStart start) (visit (w.withStart start) fuel) es other s =
        some (w.gather other es vs, s') :=
  visitEdges_agree_of (visit_agree hstart) h hy

end Agree

section Cycle

variable (w : Walk K E A V) (C : Set K)

def Untouched (s : State K V) : Prop := ∀ c ∈ C, s.done[c]? = none ∧ c ∉ s.visiting

/-- Two final states disagree about `y` and agree about the targets of `y`
inside the set. -/
structure Blind (y : K) (s t : State K V) : Prop where
  differs : ∃ u u', s.done[y]? = some u ∧ t.done[y]? = some u' ∧ u ≠ u'
  agrees : ∀ e ∈ w.edges y, w.target e ∈ C → w.target e ≠ y →
    ∃ u, s.done[w.target e]? = some u ∧ t.done[w.target e]? = some u

variable {w C}

omit [Std.LawfulEqOrd K] in
theorem Blind.mono {y : K} {s s' t t' : State K V} (h : Blind w C y s t)
    (hs : Extends s s') (ht : Extends t t') : Blind w C y s' t' where
  differs := by
    obtain ⟨u, u', hu, hu', hne⟩ := h.differs
    exact ⟨u, u', hs.done _ _ hu, ht.done _ _ hu', hne⟩
  agrees e he hC hne := by
    obtain ⟨u, hu, hu'⟩ := h.agrees e he hC hne
    exact ⟨u, hs.done _ _ hu, ht.done _ _ hu'⟩

variable {start : K → K → A} (hstart : ∀ y k, k ≠ y → start y k = w.start k)
  (hdiff : ∀ y ∈ C, ∀ vs, w.finish (w.gather (w.start y) (w.edges y) vs) ≠
    w.finish (w.gather (start y y) (w.edges y) vs))
include hstart hdiff

omit hdiff in
private theorem visitEdges_blind_of {fuel : Nat}
    (ih : ∀ {k : K} {s s' : State K V} {v : V}, visit w fuel k s = some (v, s') →
      Untouched C s → ¬ Untouched C s' → ∃ y ∈ C, ∀ v' t,
        visit (w.withStart (start y)) fuel k s = some (v', t) → Blind w C y s' t)
    {es : List E} {acc acc' : A} {s s' : State K V}
    (h : visitEdges w (visit w fuel) es acc s = some (acc', s')) (hs : Untouched C s)
    (hs' : ¬ Untouched C s') :
    ∃ y ∈ C, ∀ other other' t,
      visitEdges (w.withStart (start y)) (visit (w.withStart (start y)) fuel) es other s =
        some (other', t) → Blind w C y s' t := by
  induction es generalizing acc s with
  | nil =>
      simp only [visitEdges, Option.some.injEq, Prod.mk.injEq] at h
      exact absurd (h.2 ▸ hs) hs'
  | cons e es ihes =>
      obtain ⟨⟨v, s₁⟩, hvisit, hrest⟩ := Option.bind_eq_some_iff.mp h
      by_cases hs₁ : Untouched C s₁
      · obtain ⟨y, hy, hblind⟩ := ihes hrest hs₁
        refine ⟨y, hy, fun other other' t ht => ?_⟩
        obtain ⟨⟨v', t₁⟩, hvisit', hrest'⟩ := Option.bind_eq_some_iff.mp ht
        have hsame : visit (w.withStart (start y)) fuel (w.target e) s = some (v, s₁) :=
          visit_agree (hstart y) hvisit (hs₁ y hy).1
        rw [show (w.withStart (start y)).target e = w.target e from rfl, hsame] at hvisit'
        simp only [Option.some.injEq, Prod.mk.injEq] at hvisit'
        obtain ⟨rfl, rfl⟩ := hvisit'
        exact hblind _ _ _ hrest'
      · obtain ⟨y, hy, hblind⟩ := ih hvisit hs hs₁
        refine ⟨y, hy, fun other other' t ht => ?_⟩
        obtain ⟨⟨v', t₁⟩, hvisit', hrest'⟩ := Option.bind_eq_some_iff.mp ht
        exact (hblind _ _ hvisit').mono (visitEdges_extends hrest).1 (visitEdges_extends hrest').1

/-- The first node of the set that a run meets is open while its successors in
the set are finished, so their values do not depend on it. -/
theorem visit_blind {fuel : Nat} {k : K} {s s' : State K V} {v : V}
    (h : visit w fuel k s = some (v, s')) (hs : Untouched C s) (hs' : ¬ Untouched C s') :
    ∃ y ∈ C, ∀ v' t, visit (w.withStart (start y)) fuel k s = some (v', t) →
      Blind w C y s' t := by
  induction fuel generalizing k s s' v with
  | zero => simp [visit] at h
  | succ fuel ih =>
      obtain ⟨hk, rfl⟩ | ⟨hk, hv, rfl, rfl⟩ | ⟨hk, hv, acc, t, hloop, rfl, rfl⟩ := visit_cases h
      · exact absurd hs hs'
      · exact absurd hs hs'
      · obtain ⟨hext, htargets⟩ := visitEdges_extends hloop
        have hnone : t.done[k]? = none := (hext.fresh k (by simp)).trans hk
        have hnode : ∀ y v' t', visit (w.withStart (start y)) (fuel + 1) k s = some (v', t') →
            ∃ other t₂, visitEdges (w.withStart (start y)) (visit (w.withStart (start y)) fuel)
              (w.edges k) (start y k) ⟨s.done, s.visiting.insert k⟩ = some (other, t₂) ∧
              v' = w.finish other ∧ t' = ⟨t₂.done.insert k v', t₂.visiting.erase k⟩ := by
          intro y v' t' ht'
          obtain ⟨hk', -⟩ | ⟨-, hv', -⟩ | ⟨-, -, other, t₂, hloop', hv', ht'⟩ := visit_cases ht'
          · rw [hk] at hk'
            cases hk'
          · exact absurd hv' hv
          · exact ⟨other, t₂, hloop', hv', ht'⟩
        by_cases hkC : k ∈ C
        · refine ⟨k, hkC, fun v' t' ht' => ?_⟩
          obtain ⟨other, t₂, hloop', rfl, rfl⟩ := hnode k v' t' ht'
          obtain ⟨vs, rfl, hother⟩ := visitEdges_agree (hstart k) hloop hnone
          rw [hother (start k k)] at hloop'
          simp only [Option.some.injEq, Prod.mk.injEq] at hloop'
          obtain ⟨rfl, rfl⟩ := hloop'
          constructor
          · exact ⟨_, _, by simp, by simp, hdiff k hkC vs⟩
          · intro e he hC hne
            have hne' : k ≠ w.target e := fun heq => hne heq.symm
            rcases htargets e he with ⟨u, hu⟩ | hopen
            · exact ⟨u, by simpa [Std.ExtTreeMap.getElem?_insert, hne'] using hu,
                by simpa [Std.ExtTreeMap.getElem?_insert, hne'] using hu⟩
            · rcases Std.ExtTreeSet.mem_insert.mp hopen with heq | hopen
              · exact absurd (Std.LawfulEqCmp.compare_eq_iff_eq.mp heq) hne'
              · exact absurd hopen (hs _ hC).2
        · have hs₀ : Untouched C (⟨s.done, s.visiting.insert k⟩ : State K V) := by
            intro c hc
            refine ⟨(hs c hc).1, fun hmem => ?_⟩
            rcases Std.ExtTreeSet.mem_insert.mp hmem with heq | hmem
            · exact hkC (Std.LawfulEqCmp.compare_eq_iff_eq.mp heq ▸ hc)
            · exact (hs c hc).2 hmem
          have ht : ¬ Untouched C t := by
            intro ht
            refine hs' fun c hc => ?_
            have hne : k ≠ c := fun heq => hkC (heq ▸ hc)
            refine ⟨by simpa [Std.ExtTreeMap.getElem?_insert, hne] using (ht c hc).1, ?_⟩
            intro hmem
            exact (ht c hc).2 (Std.ExtTreeSet.mem_erase.mp hmem).2
          obtain ⟨y, hy, hblind⟩ := visitEdges_blind_of hstart ih hloop hs₀ ht
          refine ⟨y, hy, fun v' t' ht' => ?_⟩
          obtain ⟨other, t₂, hloop', rfl, rfl⟩ := hnode y v' t' ht'
          have hb := hblind _ _ _ hloop'
          have hne : ∀ c ∈ C, k ≠ c := fun c hc heq => hkC (heq ▸ hc)
          constructor
          · obtain ⟨u, u', hu, hu', hdiffers⟩ := hb.differs
            exact ⟨u, u', by simpa [Std.ExtTreeMap.getElem?_insert, hne y hy] using hu,
              by simpa [Std.ExtTreeMap.getElem?_insert, hne y hy] using hu', hdiffers⟩
          · intro e he hC hney
            obtain ⟨u, hu, hu'⟩ := hb.agrees e he hC hney
            exact ⟨u, by simpa [Std.ExtTreeMap.getElem?_insert, hne _ hC] using hu,
              by simpa [Std.ExtTreeMap.getElem?_insert, hne _ hC] using hu'⟩

theorem visitAll_blind {fuel : Nat} {ks : List K} {s s' : State K V}
    (h : visitAll w fuel ks s = some s') (hs : Untouched C s) (hs' : ¬ Untouched C s') :
    ∃ y ∈ C, ∀ t, visitAll (w.withStart (start y)) fuel ks s = some t →
      Blind w C y s' t := by
  induction ks generalizing s with
  | nil =>
      simp only [visitAll, Option.some.injEq] at h
      exact absurd (h ▸ hs) hs'
  | cons k ks ih =>
      obtain ⟨⟨v, s₁⟩, hvisit, hrest⟩ := Option.bind_eq_some_iff.mp h
      by_cases hs₁ : Untouched C s₁
      · obtain ⟨y, hy, hblind⟩ := ih hrest hs₁
        refine ⟨y, hy, fun t ht => hblind t ?_⟩
        obtain ⟨⟨v', t₁⟩, hvisit', hrest'⟩ := Option.bind_eq_some_iff.mp ht
        rw [visit_agree (hstart y) hvisit (hs₁ y hy).1] at hvisit'
        simp only [Option.some.injEq, Prod.mk.injEq] at hvisit'
        obtain ⟨rfl, rfl⟩ := hvisit'
        exact hrest'
      · obtain ⟨y, hy, hblind⟩ := visit_blind hstart hdiff hvisit hs hs₁
        refine ⟨y, hy, fun t ht => ?_⟩
        obtain ⟨⟨v', t₁⟩, hvisit', hrest'⟩ := Option.bind_eq_some_iff.mp ht
        exact (hblind _ _ hvisit').mono (visitAll_extends hrest) (visitAll_extends hrest')

end Cycle

end MemoWalk
