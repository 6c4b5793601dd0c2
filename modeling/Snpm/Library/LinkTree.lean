import Mathlib

/-!
Directory entries at a fixed set of locations. An entry is a plain file, a
directory with some content, or a symbolic link to another location. Locations
do not lie inside one another, so writing one leaves the others alone. Links
are followed for a bounded number of hops, as an operating system does.
-/
namespace LinkTree

variable {P D : Type}

inductive Node (P D : Type) where
  | file
  | dir (content : D)
  | link (target : P)
deriving DecidableEq

def Node.isLink : Node P D → Bool
  | .link _ => true
  | _ => false

def Tree (P D : Type) := P → Option (Node P D)

/-- The hops after which following links is given up. -/
def linkLimit : Nat := 40

def follow (tree : Tree P D) : Nat → P → Option (Node P D)
  | 0, _ => none
  | hops + 1, p =>
      match tree p with
      | some (.link target) => follow tree hops target
      | node => node

/-- The entry a path leads to. -/
def Tree.stat (tree : Tree P D) (p : P) : Option (Node P D) := follow tree linkLimit p

def Tree.exists (tree : Tree P D) (p : P) : Bool := (tree.stat p).isSome

variable [DecidableEq P]

def Tree.write (tree : Tree P D) (p : P) (node : Node P D) : Tree P D :=
  fun q => if q = p then some node else tree q

def Tree.remove (tree : Tree P D) (p : P) : Tree P D :=
  fun q => if q = p then none else tree q

@[simp] theorem write_self (tree : Tree P D) (p : P) (node : Node P D) :
    tree.write p node p = some node := by
  simp [Tree.write]

theorem write_other (tree : Tree P D) {p q : P} (node : Node P D) (h : q ≠ p) :
    tree.write p node q = tree q := by
  simp [Tree.write, h]

theorem remove_other (tree : Tree P D) {p q : P} (h : q ≠ p) :
    tree.remove p q = tree q := by
  simp [Tree.remove, h]

omit [DecidableEq P] in
theorem stat_of_not_link {tree : Tree P D} {p : P}
    (h : ∀ target, tree p ≠ some (.link target)) : tree.stat p = tree p := by
  have hlimit : linkLimit = 39 + 1 := rfl
  rw [Tree.stat, hlimit, follow]
  split
  · rename_i target heq
    exact absurd heq (h target)
  · rfl

section Batch

variable {K Err : Type}

/-- Run a task for every key in turn. All tasks run; the first error is kept. -/
def runAll (task : Tree P D → K → Except Err Unit × Tree P D) :
    List K → Tree P D → Except Err Unit × Tree P D
  | [], tree => (.ok (), tree)
  | k :: ks, tree =>
      let first := task tree k
      let rest := runAll task ks first.2
      (first.1.bind fun _ => rest.1, rest.2)

variable {task : Tree P D → K → Except Err Unit × Tree P D} {loc : K → P}

/-- A task that only writes its own location. -/
def Local (task : Tree P D → K → Except Err Unit × Tree P D) (loc : K → P) : Prop :=
  ∀ tree k p, p ≠ loc k → (task tree k).2 p = tree p

omit [DecidableEq P] in
theorem runAll_other (hlocal : Local task loc) {ks : List K} {tree : Tree P D} {p : P}
    (hp : ∀ k ∈ ks, p ≠ loc k) : (runAll task ks tree).2 p = tree p := by
  induction ks generalizing tree with
  | nil => rfl
  | cons k ks ih =>
      have hfirst := hlocal tree k p (hp k List.mem_cons_self)
      exact (ih fun j hj => hp j (List.mem_cons_of_mem _ hj)).trans hfirst

omit [DecidableEq P] in
/-- In a batch over different locations every task sees its own location as it
was at the start, and its effect there is the final one. -/
theorem runAll_at (hlocal : Local task loc) {ks : List K} (hks : (ks.map loc).Nodup)
    {tree : Tree P D} {k : K} (hk : k ∈ ks) :
    ∃ before, before (loc k) = tree (loc k) ∧
      (∀ p, (∀ j, p ≠ loc j) → before p = tree p) ∧
      (runAll task ks tree).2 (loc k) = (task before k).2 (loc k) ∧
      ((runAll task ks tree).1 = .ok () → (task before k).1 = .ok ()) := by
  induction ks generalizing tree with
  | nil => cases hk
  | cons j ks ih =>
      obtain ⟨hj, hnodup⟩ := List.nodup_cons.mp hks
      have hne : ∀ i ∈ ks, loc j ≠ loc i := fun i hi h => hj (h ▸ List.mem_map_of_mem hi)
      have hok : (runAll task (j :: ks) tree).1 = .ok () →
          (task tree j).1 = .ok () ∧ (runAll task ks (task tree j).2).1 = .ok () := by
        intro h
        simp only [runAll] at h
        cases hfirst : (task tree j).1 with
        | error e => simp [hfirst, Except.bind] at h
        | ok u => exact ⟨rfl, by simpa [hfirst, Except.bind] using h⟩
      cases List.mem_cons.mp hk with
      | inl heq =>
          subst heq
          refine ⟨tree, rfl, fun _ _ => rfl, ?_, fun h => (hok h).1⟩
          change (runAll task ks (task tree k).2).2 (loc k) = (task tree k).2 (loc k)
          exact runAll_other hlocal hne
      | inr hmem =>
          obtain ⟨before, hbefore, hframe, hfinal, hresult⟩ := ih hnodup hmem
          refine ⟨before, ?_, ?_, hfinal, fun h => hresult (hok h).2⟩
          · rw [hbefore]
            exact hlocal tree j _ (hne k hmem).symm
          · exact fun p hp => (hframe p hp).trans (hlocal tree j p (hp j))

omit [DecidableEq P] in
/-- The error of a batch is that of one of its tasks. -/
theorem runAll_error {ks : List K} {tree : Tree P D} {e : Err}
    (h : (runAll task ks tree).1 = .error e) :
    ∃ k ∈ ks, ∃ before, (task before k).1 = .error e := by
  induction ks generalizing tree with
  | nil => cases h
  | cons k ks ih =>
      simp only [runAll] at h
      cases hfirst : (task tree k).1 with
      | error first =>
          rw [hfirst] at h
          cases h
          exact ⟨k, List.mem_cons_self, tree, hfirst⟩
      | ok u =>
          rw [hfirst] at h
          obtain ⟨j, hj, before, hbefore⟩ := ih h
          exact ⟨j, List.mem_cons_of_mem _ hj, before, hbefore⟩

end Batch

end LinkTree
