import Mathlib
import Snpm.Library.MemoWalk

/-!
Memoised evaluation without cycles. Where no node reaches itself the cut is
never taken, and what a run remembers is the solution of the plain recursion,
whatever the run started with and in which order it went.
-/
namespace MemoWalk

variable {K E A V : Type} {w : Walk K E A V} {f : K → V} {R : Set K}

/-- No node reaches itself by an edge. -/
def Walk.Acyclic (w : Walk K E A V) : Prop := ∀ k, ¬ Relation.TransGen w.Step k k

/-- The value of a node, given the values of the others. -/
def Walk.unfold (w : Walk K E A V) (f : K → V) (k : K) : V :=
  w.finish ((w.edges k).foldl (fun acc e => w.feed acc e (f (w.target e))) (w.start k))

/-- The function solves the recursion on a set of nodes. -/
def Walk.SolvesOn (w : Walk K E A V) (R : Set K) (f : K → V) : Prop := ∀ k ∈ R, f k = w.unfold f k

def Walk.ClosedUnder (w : Walk K E A V) (R : Set K) : Prop := ∀ k ∈ R, ∀ e ∈ w.edges k, w.target e ∈ R

theorem gather_map (acc : A) (es : List E) :
    w.gather acc es (es.map fun e => f (w.target e)) =
      es.foldl (fun acc e => w.feed acc e (f (w.target e))) acc := by
  rw [Walk.gather, List.zip_map_right, List.foldl_map]
  induction es generalizing acc with
  | nil => rfl
  | cons e es ih => exact ih _

variable [Ord K] [Std.TransOrd K] {done : BTreeMap K V}

/-- Without cycles an edge is always explained by a remembered value. -/
theorem Token.remembered (hacyclic : w.Acyclic) {k : K} {e : E} {v : V} (he : e ∈ w.edges k)
    (h : Token w done k e v) : done[w.target e]? = some v := by
  cases h with
  | inl hdone => exact hdone
  | inr hcut => exact absurd (Relation.TransGen.head' ⟨e, he, rfl⟩ hcut.2) (hacyclic k)

theorem forall_remembered (hacyclic : w.Acyclic) {k : K} {es : List E} {vs : List V}
    (hes : ∀ e ∈ es, e ∈ w.edges k) (h : List.Forall₂ (Token w done k) es vs)
    (hf : ∀ e ∈ es, ∀ v, done[w.target e]? = some v → v = f (w.target e)) :
    vs = es.map fun e => f (w.target e) := by
  induction h with
  | nil => rfl
  | cons htoken _ ih =>
      have hhead := hes _ List.mem_cons_self
      rw [List.map_cons, ih (fun e he => hes e (List.mem_cons_of_mem _ he))
        fun e he => hf e (List.mem_cons_of_mem _ he),
        hf _ List.mem_cons_self _ (htoken.remembered hacyclic hhead)]

/-- What a run over all nodes with edges remembers solves the recursion. -/
theorem Explained.solves (h : Explained w done) (hacyclic : w.Acyclic)
    (hall : ∀ k, w.edges k ≠ [] → k ∈ done) :
    w.SolvesOn Set.univ fun k => (done[k]?).getD (w.finish (w.start k)) := by
  intro k _
  dsimp only
  cases hdone : done[k]? with
  | none =>
      have hedges : w.edges k = [] := by
        by_contra hne
        obtain ⟨v, hv⟩ := BTreeMap.mem_iff_exists.mp (hall k hne)
        rw [hdone] at hv
        cases hv
      simp only [Walk.unfold, hedges, List.foldl_nil, Option.getD_none]
  | some v =>
      obtain ⟨vs, hvs, rfl⟩ := h k v hdone
      have hmap : vs = (w.edges k).map fun e =>
          (done[w.target e]?).getD (w.finish (w.start (w.target e))) := by
        refine forall_remembered (f := fun j => (done[j]?).getD (w.finish (w.start j))) hacyclic
          (fun _ he => he) hvs fun e _ u hu => ?_
        rw [hu, Option.getD_some]
      rw [Option.getD_some, Walk.unfold, hmap]
      exact congrArg w.finish (gather_map (f := fun j => (done[j]?).getD (w.finish (w.start j))) _ _)

variable [Std.LawfulEqOrd K]

/-- Descending along edges between remembered nodes ends. -/
theorem wellFounded_remembered (hacyclic : w.Acyclic) :
    WellFounded fun a b : {k : K // k ∈ done} => Relation.TransGen w.Step b.1 a.1 := by
  have hfinite : Finite {k : K // k ∈ done} := by
    refine Set.Finite.to_subtype (Set.Finite.subset (List.finite_toSet done.keys) ?_)
    intro k hk
    exact Std.ExtTreeMap.mem_keys.mpr hk
  have htrans : IsTrans {k : K // k ∈ done} fun a b => Relation.TransGen w.Step b.1 a.1 :=
    ⟨fun _ _ _ hab hbc => hbc.trans hab⟩
  have hirrefl : Std.Irrefl fun a b : {k : K // k ∈ done} => Relation.TransGen w.Step b.1 a.1 :=
    ⟨fun a => hacyclic a.1⟩
  exact Finite.wellFounded_of_trans_of_irrefl _

/-- On a closed set, remembered values are those of any solution. -/
theorem Explained.eq_solution (h : Explained w done) (hacyclic : w.Acyclic)
    (hclosed : w.ClosedUnder R) (hf : w.SolvesOn R f) {k : K} {v : V} (hk : k ∈ R)
    (hdone : done[k]? = some v) : v = f k := by
  have hwf : WellFounded fun a b : {k : K // k ∈ done} => Relation.TransGen w.Step b.1 a.1 :=
    wellFounded_remembered hacyclic
  have hall : ∀ j : {k : K // k ∈ done}, j.1 ∈ R → ∀ v, done[j.1]? = some v → v = f j.1 := by
    intro j
    induction j using hwf.induction with
    | h j ih =>
        intro hj v hv
        obtain ⟨vs, hvs, rfl⟩ := h j.1 v hv
        have hmap : vs = (w.edges j.1).map fun e => f (w.target e) := by
          refine forall_remembered hacyclic (fun _ he => he) hvs fun e he u hu => ?_
          exact ih ⟨w.target e, BTreeMap.mem_iff_exists.mpr ⟨u, hu⟩⟩
            (Relation.TransGen.single ⟨e, he, rfl⟩) (hclosed j.1 hj e he) u hu
        rw [hf j.1 hj, Walk.unfold, hmap, gather_map]
  exact hall ⟨k, BTreeMap.mem_iff_exists.mpr ⟨v, hdone⟩⟩ hk v hdone

end MemoWalk
