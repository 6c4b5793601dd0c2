import Mathlib

/-!
Ordered maps and sets under their Rust names. Both are the extensional tree
containers of the standard library, so equality of maps is equality of their
contents and iteration is in ascending key order.
-/

abbrev BTreeMap (K V : Type) [Ord K] := Std.ExtTreeMap K V compare

abbrev BTreeSet (K : Type) [Ord K] := Std.ExtTreeSet K compare

namespace BTreeMap

variable {K V : Type} [Ord K] [Std.TransOrd K]

/-- Collect pairs in order; a later pair replaces an earlier one of its key. -/
def collect (pairs : List (K × V)) : BTreeMap K V :=
  pairs.foldl (fun m p => m.insert p.1 p.2) ∅

theorem mem_keys_iff [Std.LawfulEqOrd K] {m : BTreeMap K V} {k : K} :
    k ∈ m.keys ↔ ∃ v, m[k]? = some v := by
  rw [Std.ExtTreeMap.mem_keys]
  exact Std.ExtTreeMap.mem_iff_isSome_getElem?.trans Option.isSome_iff_exists

theorem getElem?_insert_self_or [Std.LawfulEqOrd K] [DecidableEq K] (m : BTreeMap K V) (k k' : K) (v : V) :
    (m.insert k v)[k']? = if k = k' then some v else m[k']? := by
  rw [Std.ExtTreeMap.getElem?_insert]
  simp only [Std.LawfulEqCmp.compare_eq_iff_eq]

theorem foldl_insert_mem [DecidableEq K] [Std.LawfulEqOrd K] {pairs : List (K × V)} {k : K} {v : V}
    {m : BTreeMap K V} (h : (pairs.foldl (fun m p => m.insert p.1 p.2) m)[k]? = some v) :
    (k, v) ∈ pairs ∨ m[k]? = some v := by
  induction pairs generalizing m with
  | nil => exact .inr h
  | cons p pairs ih =>
      rw [List.foldl_cons] at h
      rcases ih h with hmem | hinsert
      · exact .inl (List.mem_cons_of_mem _ hmem)
      · rw [getElem?_insert_self_or] at hinsert
        split at hinsert
        next heq =>
            cases hinsert
            exact .inl (heq ▸ List.mem_cons_self)
        next => exact .inr hinsert

theorem mem_of_getElem?_collect [DecidableEq K] [Std.LawfulEqOrd K] {pairs : List (K × V)} {k : K}
    {v : V} (h : (collect pairs)[k]? = some v) : (k, v) ∈ pairs := by
  refine (foldl_insert_mem h).resolve_right ?_
  rw [Std.ExtTreeMap.getElem?_empty]
  exact (Option.some_ne_none v).symm

theorem foldl_insert_agree [DecidableEq K] [Std.LawfulEqOrd K] {pairs : List (K × V)} {k : K} {v : V}
    (hagree : ∀ p ∈ pairs, p.1 = k → p.2 = v) {m : BTreeMap K V}
    (h : m[k]? = some v ∨ (k, v) ∈ pairs) :
    (pairs.foldl (fun m p => m.insert p.1 p.2) m)[k]? = some v := by
  induction pairs generalizing m with
  | nil => simpa using h
  | cons p pairs ih =>
      rw [List.foldl_cons]
      apply ih (fun q hq => hagree q (List.mem_cons_of_mem _ hq))
      rw [getElem?_insert_self_or]
      by_cases hp : p.1 = k
      · rw [if_pos hp, hagree p List.mem_cons_self hp]
        exact .inl rfl
      · rw [if_neg hp]
        refine h.imp_right fun hmem => (List.mem_cons.mp hmem).resolve_left ?_
        exact fun heq => hp (heq ▸ rfl)

/-- Pairs that never give one key two values are all kept. -/
theorem getElem?_collect [DecidableEq K] [Std.LawfulEqOrd K] {pairs : List (K × V)}
    (hagree : ∀ p ∈ pairs, ∀ q ∈ pairs, p.1 = q.1 → p.2 = q.2) (k : K) (v : V) :
    (collect pairs)[k]? = some v ↔ (k, v) ∈ pairs :=
  ⟨mem_of_getElem?_collect,
    fun h => foldl_insert_agree (fun q hq heq => hagree q hq _ h heq) (.inr h)⟩

theorem values_eq_map_snd_toList (m : BTreeMap K V) : m.values = m.toList.map (·.2) := by
  obtain ⟨⟨q⟩⟩ := m
  induction q using Quotient.inductionOn with
  | h t =>
      change t.inner.values = (Std.DTreeMap.Internal.Impl.Const.toList t.inner).map (·.2)
      rw [Std.DTreeMap.Internal.Impl.values_eq_map_snd,
        Std.DTreeMap.Internal.Impl.Const.toList_eq_toListModel_map]
      simp

theorem mem_values_iff [Std.LawfulEqOrd K] {m : BTreeMap K V} {v : V} :
    v ∈ m.values ↔ ∃ k : K, m[k]? = some v := by
  rw [values_eq_map_snd_toList, List.mem_map]
  constructor
  · rintro ⟨p, hp, rfl⟩
    exact ⟨p.1, Std.ExtTreeMap.mem_toList_iff_getElem?_eq_some.mp hp⟩
  · rintro ⟨k, hk⟩
    exact ⟨(k, v), Std.ExtTreeMap.mem_toList_iff_getElem?_eq_some.mpr hk, rfl⟩

theorem mem_iff_exists {m : BTreeMap K V} {k : K} : k ∈ m ↔ ∃ v, m[k]? = some v := by
  rw [Std.ExtTreeMap.mem_iff_isSome_getElem?, Option.isSome_iff_exists]

/-- Maps with the same keys have the same size. -/
theorem size_eq_of_mem_iff {W : Type} [Std.LawfulEqOrd K] {m : BTreeMap K V} {n : BTreeMap K W}
    (h : ∀ k : K, k ∈ m ↔ k ∈ n) : m.size = n.size := by
  rw [← Std.ExtTreeMap.length_keys, ← Std.ExtTreeMap.length_keys]
  apply List.Perm.length_eq
  rw [List.perm_ext_iff_of_nodup Std.ExtTreeMap.nodup_keys Std.ExtTreeMap.nodup_keys]
  intro k
  rw [Std.ExtTreeMap.mem_keys, Std.ExtTreeMap.mem_keys, h k]

/-- A map whose keys are all in a map that is no larger has the same keys. -/
theorem mem_of_size_le {W : Type} [Std.LawfulEqOrd K] {m : BTreeMap K V} {n : BTreeMap K W}
    (hsub : ∀ k : K, k ∈ m → k ∈ n) (hsize : n.size ≤ m.size) {k : K} (hk : k ∈ n) : k ∈ m := by
  have hsubperm : m.keys.Subperm n.keys := by
    apply List.subperm_of_subset Std.ExtTreeMap.nodup_keys
    intro k hk
    exact Std.ExtTreeMap.mem_keys.mpr (hsub k (Std.ExtTreeMap.mem_keys.mp hk))
  have hperm : m.keys.Perm n.keys := by
    apply hsubperm.perm_of_length_le
    rw [Std.ExtTreeMap.length_keys, Std.ExtTreeMap.length_keys]
    exact hsize
  exact Std.ExtTreeMap.mem_keys.mp (hperm.mem_iff.mpr (Std.ExtTreeMap.mem_keys.mpr hk))

section FilterMapM

variable {W ε : Type}

def filterMapStep (f : K → V → Except ε (Option W)) (acc : BTreeMap K W) (p : K × V) :
    Except ε (BTreeMap K W) :=
  match f p.1 p.2 with
  | .error e => .error e
  | .ok none => .ok acc
  | .ok (some w) => .ok (acc.insert p.1 w)

/-- Visit the entries in key order; keep what the visitor returns and stop at
its first error. -/
def filterMapM (f : K → V → Except ε (Option W)) (m : BTreeMap K V) : Except ε (BTreeMap K W) :=
  m.toList.foldlM (filterMapStep f) ∅

theorem foldlM_filterMapStep [Std.LawfulEqOrd K] {f : K → V → Except ε (Option W)}
    {l : List (K × V)} {acc r : BTreeMap K W} (hnodup : (l.map (·.1)).Nodup)
    (h : l.foldlM (filterMapStep f) acc = .ok r) :
    (∀ k, k ∉ l.map (·.1) → r[k]? = acc[k]?) ∧
      ∀ k v, (k, v) ∈ l → acc[k]? = none → f k v = .ok r[k]? := by
  induction l generalizing acc with
  | nil =>
      cases h
      simp
  | cons p l ih =>
      rw [List.map_cons, List.nodup_cons] at hnodup
      rw [List.foldlM_cons] at h
      have hother : ∀ (w : W) (k : K), k ≠ p.1 → (acc.insert p.1 w)[k]? = acc[k]? := by
        intro w k hk
        rw [Std.ExtTreeMap.getElem?_insert, if_neg]
        rw [Std.LawfulEqCmp.compare_eq_iff_eq]
        exact fun heq => hk heq.symm
      cases hf : f p.1 p.2 with
      | error e => simp [filterMapStep, hf, bind, Except.bind] at h
      | ok entry =>
          obtain ⟨acc', hstep, hkept, hown⟩ : ∃ acc', filterMapStep f acc p = .ok acc' ∧
              (∀ k, k ≠ p.1 → acc'[k]? = acc[k]?) ∧
              (acc[p.1]? = none → acc'[p.1]? = entry) := by
            cases entry with
            | none => exact ⟨acc, by simp [filterMapStep, hf], fun _ _ => rfl, fun hnone => hnone⟩
            | some w =>
                exact ⟨acc.insert p.1 w, by simp [filterMapStep, hf], hother w,
                  fun _ => by simp⟩
          rw [hstep] at h
          obtain ⟨hrest, hlist⟩ := ih hnodup.2 h
          constructor
          · intro k hk
            rw [List.map_cons, List.mem_cons, not_or] at hk
            rw [hrest k hk.2, hkept k hk.1]
          · intro k v hmem hnone
            cases List.mem_cons.mp hmem with
            | inl heq =>
                subst heq
                rw [hf, hrest _ hnodup.1, hown hnone]
            | inr hmem =>
                have hk : k ≠ p.1 := by
                  intro heq
                  exact hnodup.1 (heq ▸ List.mem_map_of_mem hmem)
                exact hlist k v hmem (by rw [hkept k hk, hnone])

/-- A successful visit returns for each entry what the visitor returned. -/
theorem filterMapM_ok [Std.LawfulEqOrd K] {f : K → V → Except ε (Option W)} {m : BTreeMap K V}
    {r : BTreeMap K W} (h : filterMapM f m = .ok r) (k : K) :
    (m[k]? = none → r[k]? = none) ∧ ∀ v, m[k]? = some v → f k v = .ok r[k]? := by
  have hnodup : (m.toList.map (·.1)).Nodup := by
    rw [Std.ExtTreeMap.map_fst_toList_eq_keys]
    exact Std.ExtTreeMap.nodup_keys
  obtain ⟨hother, hown⟩ := foldlM_filterMapStep hnodup h
  constructor
  · intro hnone
    rw [hother k, Std.ExtTreeMap.getElem?_empty]
    rw [Std.ExtTreeMap.map_fst_toList_eq_keys, mem_keys_iff, hnone]
    simp
  · intro v hv
    exact hown k v (Std.ExtTreeMap.mem_toList_iff_getElem?_eq_some.mpr hv)
      Std.ExtTreeMap.getElem?_empty

end FilterMapM

end BTreeMap
