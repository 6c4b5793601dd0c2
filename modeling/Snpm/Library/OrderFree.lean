import Mathlib
import Snpm.Library.OrderedMap

/-!
Folds that may fail and whose order does not matter. When two steps may change
places, so may any steps of a list; a keyed merge is such a step when the merge
of the values of one key is.
-/
namespace OrderFree

variable {ε σ α : Type}

/-- Both succeed, with the same value, or both fail. -/
def Same : Except ε σ → Except ε σ → Prop
  | .ok s, .ok t => s = t
  | .error _, .error _ => True
  | _, _ => False

theorem Same.refl (x : Except ε σ) : Same x x := by
  cases x with
  | error e => trivial
  | ok s => rfl

theorem Same.symm {x y : Except ε σ} (h : Same x y) : Same y x := by
  cases x with
  | error e => cases y with
    | error e' => trivial
    | ok t => exact h
  | ok s => cases y with
    | error e' => exact h
    | ok t => exact Eq.symm h

theorem Same.trans {x y z : Except ε σ} (hxy : Same x y) (hyz : Same y z) : Same x z := by
  cases y with
  | error e =>
      cases x with
      | error e' => cases z with
        | error e'' => trivial
        | ok u => exact hyz
      | ok s => exact False.elim hxy
  | ok t =>
      cases x with
      | error e' => exact False.elim hxy
      | ok s =>
          have heq : s = t := hxy
          rw [heq]
          exact hyz

theorem Same.of_error {x y : Except ε σ} {e e' : ε} (hx : x = .error e) (hy : y = .error e') :
    Same x y := by
  rw [hx, hy]
  trivial

theorem Same.bind {τ : Type} {x y : Except ε σ} {f g : σ → Except ε τ} (h : Same x y)
    (hfg : ∀ s, Same (f s) (g s)) : Same (x >>= f) (y >>= g) := by
  cases x with
  | error e => cases y with
    | error e' => trivial
    | ok t => exact False.elim h
  | ok s => cases y with
    | error e' => exact False.elim h
    | ok t =>
        have heq : s = t := h
        rw [heq]
        exact hfg t

/-- Two steps may change places. -/
def Commutes (step : σ → α → Except ε σ) : Prop :=
  ∀ s a b, Same (step s a >>= fun t => step t b) (step s b >>= fun t => step t a)

theorem foldlM_perm {step : σ → α → Except ε σ} (h : Commutes step) {l l' : List α}
    (hperm : l.Perm l') (s : σ) : Same (l.foldlM step s) (l'.foldlM step s) := by
  induction hperm generalizing s with
  | nil => exact Same.refl _
  | cons a _ ih =>
      rw [List.foldlM_cons, List.foldlM_cons]
      exact (Same.refl _).bind ih
  | swap a b l =>
      rw [List.foldlM_cons, List.foldlM_cons]
      have hswap := (h s b a).bind fun t => Same.refl (l.foldlM step t)
      simpa only [List.foldlM_cons, bind_assoc] using hswap
  | trans _ _ ih₁ ih₂ => exact (ih₁ s).trans (ih₂ s)

/-- The error of a fold is the error of one of its steps. -/
theorem foldlM_error {step : σ → α → Except ε σ} {l : List α} {s : σ} {e : ε}
    (h : l.foldlM step s = .error e) : ∃ t, ∃ a ∈ l, step t a = .error e := by
  induction l generalizing s with
  | nil => cases h
  | cons a l ih =>
      rw [List.foldlM_cons] at h
      cases hstep : step s a with
      | error e' =>
          rw [hstep] at h
          cases h
          exact ⟨s, a, List.mem_cons_self, hstep⟩
      | ok t =>
          rw [hstep] at h
          obtain ⟨u, b, hb, herror⟩ := ih h
          exact ⟨u, b, List.mem_cons_of_mem a hb, herror⟩

section Merge

variable {K V : Type} [Ord K] [Std.TransOrd K]
  (key : α → K) (value : α → V) (combine : V → α → Except ε V)

/-- Put the value of an element under its key, or combine it with what is there. -/
def merge (m : BTreeMap K V) (a : α) : Except ε (BTreeMap K V) :=
  match m[key a]? with
  | none => .ok (m.insert (key a) (value a))
  | some v => (combine v a).map fun w => m.insert (key a) w

variable {key value combine}

theorem merge_new {m : BTreeMap K V} {a : α} (h : m[key a]? = none) :
    merge key value combine m a = .ok (m.insert (key a) (value a)) := by
  rw [merge, h]

theorem merge_old {m : BTreeMap K V} {a : α} {v : V} (h : m[key a]? = some v) :
    merge key value combine m a = (combine v a).map fun w => m.insert (key a) w := by
  rw [merge, h]

variable [Std.LawfulEqOrd K] [DecidableEq K]

theorem insert_comm (m : BTreeMap K V) {k k' : K} (h : k ≠ k') (v w : V) :
    (m.insert k v).insert k' w = (m.insert k' w).insert k v := by
  apply Std.ExtTreeMap.ext_getElem?
  intro n
  simp only [BTreeMap.getElem?_insert_self_or]
  by_cases hk : k = n
  · rw [if_pos hk, if_pos hk, if_neg fun hk' => h (hk.trans hk'.symm)]
  · rw [if_neg hk, if_neg hk]

theorem insert_insert (m : BTreeMap K V) (k : K) (v w : V) :
    (m.insert k v).insert k w = m.insert k w := by
  apply Std.ExtTreeMap.ext_getElem?
  intro n
  simp only [BTreeMap.getElem?_insert_self_or]
  split
  · rfl
  · rfl

theorem getElem?_insert_other (m : BTreeMap K V) {k k' : K} (h : k ≠ k') (v : V) :
    (m.insert k v)[k']? = m[k']? := by
  rw [BTreeMap.getElem?_insert_self_or, if_neg h]

theorem getElem?_insert_key (m : BTreeMap K V) (k : K) (v : V) : (m.insert k v)[k]? = some v := by
  rw [BTreeMap.getElem?_insert_self_or, if_pos rfl]

/-- What two merges under one key leave there. -/
theorem merge_twice (m : BTreeMap K V) {a b : α} (hkey : key a = key b) :
    (merge key value combine m a >>= fun n => merge key value combine n b) =
      ((match m[key a]? with
        | none => combine (value a) b
        | some v => combine v a >>= fun w => combine w b).map fun w => m.insert (key a) w) := by
  have hnext : ∀ v, merge key value combine (m.insert (key a) v) b =
      (combine v b).map fun w => m.insert (key a) w := by
    intro v
    rw [merge_old (v := v) (by rw [← hkey, getElem?_insert_key])]
    rw [← hkey]
    simp only [insert_insert]
  cases hfound : m[key a]? with
  | none =>
      rw [merge_new hfound]
      exact hnext _
  | some v =>
      rw [merge_old hfound]
      dsimp only
      cases combine v a with
      | error e => rfl
      | ok w => exact hnext w

/-- Merges under different keys may always change places. -/
theorem merge_apart (m : BTreeMap K V) {a b : α} (hkey : key a ≠ key b) :
    Same (merge key value combine m a >>= fun n => merge key value combine n b)
      (merge key value combine m b >>= fun n => merge key value combine n a) := by
  have hput : ∀ (c d : α), key c ≠ key d → ∀ v,
      merge key value combine (m.insert (key c) v) d =
        (merge key value combine m d).map fun n => n.insert (key c) v := by
    intro c d hcd v
    cases hd : m[key d]? with
    | none =>
        rw [merge_new hd, merge_new ((getElem?_insert_other m hcd v).trans hd)]
        exact congrArg Except.ok (insert_comm m hcd v _)
    | some w =>
        rw [merge_old hd, merge_old ((getElem?_insert_other m hcd v).trans hd)]
        cases combine w d with
        | error e => rfl
        | ok u => exact congrArg Except.ok (insert_comm m hcd v u)
  have hone : ∀ c : α, (∃ v, merge key value combine m c = .ok (m.insert (key c) v)) ∨
      ∃ e, merge key value combine m c = .error e := by
    intro c
    cases hc : m[key c]? with
    | none => exact .inl ⟨_, merge_new hc⟩
    | some v =>
        rw [merge_old hc]
        cases combine v c with
        | error e => exact .inr ⟨e, rfl⟩
        | ok w => exact .inl ⟨w, rfl⟩
  have hba := Ne.symm hkey
  cases hone a with
  | inl hok =>
      obtain ⟨v, hv⟩ := hok
      cases hone b with
      | inl hok' =>
          obtain ⟨w, hw⟩ := hok'
          have hleft : merge key value combine (m.insert (key a) v) b =
              .ok ((m.insert (key b) w).insert (key a) v) := by rw [hput a b hkey, hw]; rfl
          have hright : merge key value combine (m.insert (key b) w) a =
              .ok ((m.insert (key a) v).insert (key b) w) := by rw [hput b a hba, hv]; rfl
          rw [hv, hw]
          change Same (merge key value combine (m.insert (key a) v) b)
            (merge key value combine (m.insert (key b) w) a)
          rw [hleft, hright]
          exact insert_comm m hba w v
      | inr herror =>
          obtain ⟨e, he⟩ := herror
          have hleft : merge key value combine (m.insert (key a) v) b = .error e := by
            rw [hput a b hkey, he]; rfl
          rw [hv, he]
          exact Same.of_error hleft rfl
  | inr herror =>
      obtain ⟨e, he⟩ := herror
      rw [he]
      cases hone b with
      | inl hok' =>
          obtain ⟨w, hw⟩ := hok'
          have hright : merge key value combine (m.insert (key b) w) a = .error e := by
            rw [hput b a hba, he]; rfl
          rw [hw]
          exact Same.of_error rfl hright
      | inr herror' =>
          obtain ⟨e', he'⟩ := herror'
          rw [he']
          trivial

/-- A keyed merge may be done in any order when the values of one key may be
combined in any order. -/
theorem merge_commutes
    (hfirst : ∀ a b, key a = key b → Same (combine (value a) b) (combine (value b) a))
    (hlater : ∀ v a b, key a = key b →
      Same (combine v a >>= fun w => combine w b) (combine v b >>= fun w => combine w a)) :
    Commutes (merge key value combine) := by
  intro m a b
  by_cases hkey : key a = key b
  · rw [merge_twice m hkey, merge_twice m hkey.symm, ← hkey]
    have hmap : ∀ {x y : Except ε V}, Same x y →
        Same (x.map fun w => m.insert (key a) w) (y.map fun w => m.insert (key a) w) :=
      fun h => h.bind fun _ => Same.refl _
    apply hmap
    cases m[key a]? with
    | none => exact hfirst a b hkey
    | some v => exact hlater v a b hkey
  · exact merge_apart m hkey

end Merge

end OrderFree
