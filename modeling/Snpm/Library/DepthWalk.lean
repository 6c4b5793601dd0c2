import Mathlib

/-!
A depth-first walk that threads a state through the nodes it enters. Every node has
a mark, and a node is entered unless its mark is set; two nodes may share a mark.
Entering a node and listing its children may fail, which ends the walk.
-/
namespace DepthWalk

variable {N M S E : Type}

inductive Fault (E : Type) where
  | outOfFuel
  | failed (error : E)

section Walk

variable [DecidableEq M] (mark : N → M) (enter : N → S → Except E S)
  (children : N → Except E (List N))

/-- The step into a node: what it does to the state, and where it leads. -/
def step (n : N) (s : S) : Except (Fault E) (S × List N) :=
  match enter n s with
  | .error error => .error (.failed error)
  | .ok s =>
      match children n with
      | .error error => .error (.failed error)
      | .ok next => .ok (s, next)

def walk : Nat → N → List M × S → Except (Fault E) (List M × S)
  | 0, _, _ => .error .outOfFuel
  | fuel + 1, n, st =>
      if mark n ∈ st.1 then .ok st
      else do
        let (s, next) ← step enter children n st.2
        next.foldlM (fun st child => walk fuel child st) (mark n :: st.1, s)

def walkAll (fuel : Nat) (roots : List N) (st : List M × S) : Except (Fault E) (List M × S) :=
  roots.foldlM (fun st root => walk mark enter children fuel root st) st

end Walk

variable {mark : N → M} {enter : N → S → Except E S} {children : N → Except E (List N)}

/-- An edge of the graph that is walked. -/
def Edge (children : N → Except E (List N)) (x y : N) : Prop :=
  ∃ next, children x = .ok next ∧ y ∈ next

abbrev Reaches (children : N → Except E (List N)) : N → N → Prop :=
  Relation.ReflTransGen (Edge children)

/-- What a walk from some nodes did: the nodes it entered, in order. -/
structure Entered (mark : N → M) (enter : N → S → Except E S)
    (children : N → Except E (List N)) (roots : List N) (st st' : List M × S)
    (entered : List N) : Prop where
  state : entered.foldlM (fun s n => enter n s) st.2 = .ok st'.2
  marks : ∀ m, m ∈ st'.1 ↔ m ∈ st.1 ∨ ∃ x ∈ entered, mark x = m
  once : (entered.map mark).Nodup
  fresh : ∀ x ∈ entered, mark x ∉ st.1
  reached : ∀ x ∈ entered, ∃ root ∈ roots, Reaches children root x
  listed : ∀ x ∈ entered, ∃ next, children x = .ok next
  closed : ∀ x ∈ entered, ∀ y, Edge children x y → mark y ∈ st'.1
  roots : ∀ root ∈ roots, mark root ∈ st'.1

theorem Entered.nil (st : List M × S) : Entered mark enter children [] st st [] := by
  constructor <;> simp [pure, Except.pure]

/-- One walk after another. -/
theorem Entered.append {roots more : List N} {st st' st'' : List M × S} {entered later : List N}
    (h : Entered mark enter children roots st st' entered)
    (h' : Entered mark enter children more st' st'' later) :
    Entered mark enter children (roots ++ more) st st'' (entered ++ later) := by
  have hmono : ∀ m, m ∈ st'.1 → m ∈ st''.1 := fun m hm => (h'.marks m).mpr (.inl hm)
  constructor
  · rw [List.foldlM_append, h.state]
    exact h'.state
  · intro m
    rw [h'.marks, h.marks]
    simp only [List.mem_append, or_and_right, exists_or, or_assoc]
  · rw [List.map_append]
    refine List.Nodup.append h.once h'.once ?_
    intro m hm hm'
    obtain ⟨x, hx, hmark⟩ := List.mem_map.mp hm
    obtain ⟨y, hy, hmark'⟩ := List.mem_map.mp hm'
    refine h'.fresh y hy ((h.marks (mark y)).mpr (.inr ⟨x, hx, ?_⟩))
    rw [hmark, hmark']
  · intro x hx
    rcases List.mem_append.mp hx with hold | hnew
    · exact h.fresh x hold
    · exact fun hm => h'.fresh x hnew ((h.marks _).mpr (.inl hm))
  · intro x hx
    rcases List.mem_append.mp hx with hold | hnew
    · obtain ⟨root, hroot, hreach⟩ := h.reached x hold
      exact ⟨root, List.mem_append_left _ hroot, hreach⟩
    · obtain ⟨root, hroot, hreach⟩ := h'.reached x hnew
      exact ⟨root, List.mem_append_right _ hroot, hreach⟩
  · intro x hx
    rcases List.mem_append.mp hx with hold | hnew
    · exact h.listed x hold
    · exact h'.listed x hnew
  · intro x hx y hedge
    rcases List.mem_append.mp hx with hold | hnew
    · exact hmono _ (h.closed x hold y hedge)
    · exact h'.closed x hnew y hedge
  · intro root hroot
    rcases List.mem_append.mp hroot with hold | hnew
    · exact hmono _ (h.roots root hold)
    · exact h'.roots root hnew

/-- Entering a node and walking from its children. -/
theorem Entered.into {n : N} {next : List N} {marked : List M} {s s' : S} {st' : List M × S}
    {entered : List N} (hfresh : mark n ∉ marked) (henter : enter n s = .ok s')
    (hnext : children n = .ok next)
    (h : Entered mark enter children next (mark n :: marked, s') st' entered) :
    Entered mark enter children [n] (marked, s) st' (n :: entered) := by
  constructor
  · rw [List.foldlM_cons, henter]
    exact h.state
  · intro m
    rw [h.marks]
    simp only [List.mem_cons, exists_eq_or_imp]
    constructor
    · rintro ((heq | hold) | hnew)
      · exact .inr (.inl heq.symm)
      · exact .inl hold
      · exact .inr (.inr hnew)
    · rintro (hold | heq | hnew)
      · exact .inl (.inr hold)
      · exact .inl (.inl heq.symm)
      · exact .inr hnew
  · rw [List.map_cons, List.nodup_cons]
    refine ⟨fun hm => ?_, h.once⟩
    obtain ⟨x, hx, hmark⟩ := List.mem_map.mp hm
    exact h.fresh x hx (by simp [hmark])
  · intro x hx
    rcases List.mem_cons.mp hx with heq | hrest
    · rw [heq]
      exact hfresh
    · exact fun hm => h.fresh x hrest (List.mem_cons_of_mem _ hm)
  · intro x hx
    rcases List.mem_cons.mp hx with heq | hrest
    · exact ⟨n, List.mem_singleton.mpr rfl, heq ▸ .refl⟩
    · obtain ⟨child, hchild, hreach⟩ := h.reached x hrest
      exact ⟨n, List.mem_singleton.mpr rfl, .head ⟨next, hnext, hchild⟩ hreach⟩
  · intro x hx
    rcases List.mem_cons.mp hx with heq | hrest
    · exact ⟨next, heq ▸ hnext⟩
    · exact h.listed x hrest
  · intro x hx y hedge
    rcases List.mem_cons.mp hx with heq | hrest
    · obtain ⟨found, hfound, hmem⟩ := hedge
      rw [heq, hnext, Except.ok.injEq] at hfound
      exact h.roots y (hfound ▸ hmem)
    · exact h.closed x hrest y hedge
  · intro root hroot
    rw [List.mem_singleton.mp hroot, h.marks]
    exact .inl List.mem_cons_self

/-- Where no two nodes that can be reached share a mark, the nodes that are entered
are the nodes that can be reached. -/
theorem Entered.mem_iff {roots : List N} {s : S} {st' : List M × S} {entered : List N}
    (h : Entered mark enter children roots ([], s) st' entered)
    (hmark : ∀ x y, (∃ root ∈ roots, Reaches children root x) →
      (∃ root ∈ roots, Reaches children root y) → mark x = mark y → x = y) {x : N} :
    x ∈ entered ↔ ∃ root ∈ roots, Reaches children root x := by
  have hmarked : ∀ y, (∃ root ∈ roots, Reaches children root y) → mark y ∈ st'.1 →
      y ∈ entered := by
    intro y hy hm
    rcases (h.marks _).mp hm with hnone | ⟨z, hz, heq⟩
    · cases hnone
    · rw [← hmark z y (h.reached z hz) hy heq]
      exact hz
  refine ⟨h.reached x, ?_⟩
  rintro ⟨root, hroot, hreach⟩
  induction hreach with
  | refl => exact hmarked root ⟨root, hroot, .refl⟩ (h.roots root hroot)
  | tail hbefore hedge ih =>
      exact hmarked _ ⟨root, hroot, .tail hbefore hedge⟩ (h.closed _ ih _ hedge)

/-- What each node of a list enters, the list enters. -/
theorem entered_foldlM {visit : List M × S → N → Except (Fault E) (List M × S)}
    (hvisit : ∀ n st st', visit st n = .ok st' →
      ∃ entered, Entered mark enter children [n] st st' entered)
    {roots : List N} {st st' : List M × S} (h : roots.foldlM visit st = .ok st') :
    ∃ entered, Entered mark enter children roots st st' entered := by
  induction roots generalizing st with
  | nil =>
      cases h
      exact ⟨[], .nil _⟩
  | cons root roots ih =>
      rw [List.foldlM_cons] at h
      cases hroot : visit st root with
      | error fault =>
          rw [hroot] at h
          cases h
      | ok middle =>
          rw [hroot] at h
          obtain ⟨entered, hentered⟩ := hvisit root st middle hroot
          obtain ⟨later, hlater⟩ := ih h
          exact ⟨entered ++ later, hentered.append hlater⟩

theorem foldlM_ne_outOfFuel {visit : List M × S → N → Except (Fault E) (List M × S)}
    (inv : List M × S → Prop) {nodes : List N} {st : List M × S} (hst : inv st)
    (hvisit : ∀ n ∈ nodes, ∀ st, inv st → visit st n ≠ .error .outOfFuel)
    (hkeeps : ∀ n ∈ nodes, ∀ st st', inv st → visit st n = .ok st' → inv st') :
    nodes.foldlM visit st ≠ .error .outOfFuel := by
  induction nodes generalizing st with
  | nil =>
      intro h
      cases h
  | cons n nodes ih =>
      rw [List.foldlM_cons]
      have hfirst := hvisit n List.mem_cons_self st hst
      cases hn : visit st n with
      | error fault =>
          rw [hn] at hfirst
          exact hfirst
      | ok middle =>
          exact ih (hkeeps n List.mem_cons_self st middle hst hn)
            (fun other hmem => hvisit other (List.mem_cons_of_mem _ hmem))
            (fun other hmem => hkeeps other (List.mem_cons_of_mem _ hmem))

variable [DecidableEq M]

theorem step_eq_ok {n : N} {s s' : S} {next : List N}
    (h : step enter children n s = .ok (s', next)) :
    enter n s = .ok s' ∧ children n = .ok next := by
  simp only [step] at h
  cases henter : enter n s with
  | error error =>
      rw [henter] at h
      cases h
  | ok found =>
      rw [henter] at h
      cases hnext : children n with
      | error error =>
          simp only [hnext] at h
          cases h
      | ok listed =>
          simp only [hnext] at h
          cases h
          exact ⟨rfl, rfl⟩

theorem entered_walk {fuel : Nat} {n : N} {st st' : List M × S}
    (h : walk mark enter children fuel n st = .ok st') :
    ∃ entered, Entered mark enter children [n] st st' entered := by
  induction fuel generalizing n st st' with
  | zero => cases h
  | succ fuel ih =>
      obtain ⟨marked, s⟩ := st
      rw [walk] at h
      split at h
      next hmarked =>
          cases h
          exact ⟨[], by constructor <;> simp_all [pure, Except.pure]⟩
      next hfresh =>
          cases hstep : step enter children n s with
          | error fault =>
              simp only [hstep] at h
              cases h
          | ok found =>
              obtain ⟨s', next⟩ := found
              simp only [hstep] at h
              obtain ⟨henter, hnext⟩ := step_eq_ok hstep
              obtain ⟨entered, hentered⟩ := entered_foldlM (fun n st st' => ih) h
              exact ⟨n :: entered, .into hfresh henter hnext hentered⟩

theorem entered_walkAll {fuel : Nat} {roots : List N} {st st' : List M × S}
    (h : walkAll mark enter children fuel roots st = .ok st') :
    ∃ entered, Entered mark enter children roots st st' entered :=
  entered_foldlM (fun _ _ _ => entered_walk) h

theorem filter_marks_mono {U : Finset M} {marked more : List M} (h : ∀ m ∈ marked, m ∈ more) :
    (U.filter (· ∉ more)).card ≤ (U.filter (· ∉ marked)).card := by
  refine Finset.card_le_card fun m hm => ?_
  rw [Finset.mem_filter] at hm ⊢
  exact ⟨hm.1, fun hmarked => hm.2 (h m hmarked)⟩

theorem filter_marks_lt {U : Finset M} {marked : List M} {m : M} (hm : m ∈ U)
    (hfresh : m ∉ marked) :
    (U.filter (· ∉ m :: marked)).card < (U.filter (· ∉ marked)).card := by
  refine Finset.card_lt_card (Finset.ssubset_iff_of_subset ?_ |>.mpr ⟨m, ?_, ?_⟩)
  · intro x hx
    rw [Finset.mem_filter] at hx ⊢
    exact ⟨hx.1, fun hmarked => hx.2 (List.mem_cons_of_mem _ hmarked)⟩
  · exact Finset.mem_filter.mpr ⟨hm, hfresh⟩
  · simp

/-- As many levels as there are marks are enough: each level sets one. -/
theorem walk_ne_outOfFuel {U : Finset M} {fuel : Nat} {n : N} {st : List M × S}
    (hU : ∀ x, Reaches children n x → mark x ∈ U)
    (hfuel : (U.filter (· ∉ st.1)).card < fuel) :
    walk mark enter children fuel n st ≠ .error .outOfFuel := by
  induction fuel generalizing n st with
  | zero => exact absurd hfuel (Nat.not_lt_zero _)
  | succ fuel ih =>
      obtain ⟨marked, s⟩ := st
      rw [walk]
      split
      next =>
          intro h
          cases h
      next hfresh =>
          cases hstep : step enter children n s with
          | error fault =>
              simp only [step] at hstep
              split at hstep
              next => cases hstep; exact fun h => by cases h
              next =>
                  split at hstep
                  next => cases hstep; exact fun h => by cases h
                  next => cases hstep
          | ok found =>
              obtain ⟨s', next⟩ := found
              obtain ⟨-, hnext⟩ := step_eq_ok hstep
              refine foldlM_ne_outOfFuel (fun st => ∀ m ∈ mark n :: marked, m ∈ st.1)
                (fun m hm => hm) ?_ ?_
              · intro child hchild st hst
                refine ih (fun x hx => hU x (.head ⟨next, hnext, hchild⟩ hx)) ?_
                have hless := filter_marks_lt (hU n .refl) hfresh
                have hmono := filter_marks_mono (U := U) hst
                exact Nat.lt_of_le_of_lt hmono (Nat.lt_of_lt_of_le hless (Nat.le_of_lt_succ hfuel))
              · intro child _ st st' hst hvisit m hm
                obtain ⟨entered, hentered⟩ := entered_walk hvisit
                exact (hentered.marks m).mpr (.inl (hst m hm))

theorem walkAll_ne_outOfFuel {U : Finset M} {fuel : Nat} {roots : List N} {st : List M × S}
    (hU : ∀ root ∈ roots, ∀ x, Reaches children root x → mark x ∈ U) (hfuel : U.card < fuel) :
    walkAll mark enter children fuel roots st ≠ .error .outOfFuel := by
  refine foldlM_ne_outOfFuel (fun _ => True) trivial ?_ (fun _ _ _ _ _ _ => trivial)
  intro root hroot st _
  exact walk_ne_outOfFuel (hU root hroot)
    (Nat.lt_of_le_of_lt (Finset.card_le_card (Finset.filter_subset _ _)) hfuel)

end DepthWalk
