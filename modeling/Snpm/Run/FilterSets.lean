import Mathlib
import Snpm.Run.Filters

/-!
The projects that a list of selectors stands for. The two walks are the closures
of one relation and of its inverse, also where projects depend on one another in
a circle.
-/
namespace Snpm.Run

section Closure

variable {projects : List Project}

/-- No two projects have one name. -/
def DistinctNames (projects : List Project) : Prop :=
  ∀ (i j : Index projects) name, (projects.get i).manifest.name = some name →
    (projects.get j).manifest.name = some name → i = j

/-- A project depends on another one by its name. -/
def Depends (projects : List Project) (prodOnly : Bool) (i j : Index projects) : Prop :=
  ∃ name, (projects.get j).manifest.name = some name ∧
    name ∈ outgoingDependencies (projects.get i) prodOnly

theorem indexByName_iff (h : DistinctNames projects) (name : String) (j : Index projects) :
    (indexByName projects)[name]? = some j ↔ (projects.get j).manifest.name = some name := by
  have hpair : ∀ (key : String) (i : Index projects),
      (key, i) ∈ (List.finRange projects.length).filterMap (fun i =>
        (projects.get i).manifest.name.map fun name => (name, i)) ↔
      (projects.get i).manifest.name = some key := by
    intro key i
    rw [List.mem_filterMap]
    constructor
    · intro hmem
      obtain ⟨k, _, hk⟩ := hmem
      obtain ⟨found, hfound, heq⟩ := Option.map_eq_some_iff.mp hk
      cases heq
      exact hfound
    · intro hname
      exact ⟨i, List.mem_finRange i, by rw [hname]; rfl⟩
  unfold indexByName
  rw [BTreeMap.getElem?_collect, hpair]
  intro p hp q hq heq
  obtain ⟨key, i⟩ := p
  obtain ⟨other, k⟩ := q
  have hp := (hpair key i).mp hp
  have hq := (hpair other k).mp hq
  cases heq
  exact h i k key hp hq

theorem mem_outgoing_iff (h : DistinctNames projects) {prodOnly : Bool} {i j : Index projects} :
    j ∈ outgoing projects prodOnly i ↔ Depends projects prodOnly i j := by
  unfold outgoing Depends
  rw [List.mem_filterMap]
  constructor
  · intro hmem
    obtain ⟨name, hname, hindex⟩ := hmem
    exact ⟨name, (indexByName_iff h name j).mp hindex, Std.ExtTreeSet.mem_toList.mp hname⟩
  · intro hdep
    obtain ⟨name, hname, hmem⟩ := hdep
    exact ⟨name, Std.ExtTreeSet.mem_toList.mpr hmem, (indexByName_iff h name j).mpr hname⟩

theorem mem_incoming_iff {prodOnly : Bool} {i j : Index projects} :
    i ∈ incoming projects prodOnly j ↔ j ∈ outgoing projects prodOnly i := by
  unfold incoming
  rw [List.mem_flatMap]
  constructor
  · intro hmem
    obtain ⟨k, _, hk⟩ := hmem
    obtain ⟨found, hfound, heq⟩ := List.mem_filterMap.mp hk
    split at heq
    · rename_i htarget
      cases heq
      rw [← htarget]
      exact hfound
    · cases heq
  · intro hmem
    exact ⟨i, List.mem_finRange i, List.mem_filterMap.mpr ⟨j, hmem, if_pos rfl⟩⟩

theorem mem_seeds_sort {seeds : Finset (Index projects)} (i : Index projects) :
    i ∈ seeds.sort (· ≤ ·) ↔ i ∈ seeds := Finset.mem_sort _

/-- What follows the seeds along dependencies, with the seeds. -/
theorem mem_dependencies_iff (h : DistinctNames projects) {seeds : Finset (Index projects)}
    {prodOnly : Bool} {i : Index projects} :
    i ∈ seeds ∪ walkDependencies projects seeds prodOnly ↔
      ∃ s ∈ seeds, Relation.ReflTransGen (Depends projects prodOnly) s i := by
  have hedge : QueueWalk.Edge (outgoing projects prodOnly) = Depends projects prodOnly := by
    funext i j
    exact propext (mem_outgoing_iff h)
  unfold walkDependencies
  rw [QueueWalk.mem_union_walk_iff mem_seeds_sort, hedge]

theorem mem_dependents_iff (h : DistinctNames projects) {seeds : Finset (Index projects)}
    {prodOnly : Bool} {i : Index projects} :
    i ∈ seeds ∪ walkDependents projects seeds prodOnly ↔
      ∃ s ∈ seeds, Relation.ReflTransGen (Depends projects prodOnly) i s := by
  have hedge : QueueWalk.Edge (incoming projects prodOnly) =
      Function.swap (Depends projects prodOnly) := by
    funext i j
    exact propext (mem_incoming_iff.trans (mem_outgoing_iff h))
  unfold walkDependents
  rw [QueueWalk.mem_union_walk_iff mem_seeds_sort, hedge]
  constructor
  · intro hs
    obtain ⟨s, hs, hreach⟩ := hs
    exact ⟨s, hs, Relation.reflTransGen_swap.mp hreach⟩
  · intro hs
    obtain ⟨s, hs, hreach⟩ := hs
    exact ⟨s, hs, Relation.reflTransGen_swap.mpr hreach⟩

end Closure

section Sets

variable {world : FilterWorld} {workspace : Workspace}

/-- What a selector adds to the projects it starts from. -/
def InClosure (projects : List Project) (selector : Selector) (seeds : Finset (Index projects))
    (i : Index projects) : Prop :=
  i ∈ seeds ∨
    (selector.includeDependencies = true ∧
      ∃ s ∈ seeds, Relation.ReflTransGen (Depends projects selector.prodOnly) s i) ∨
    (selector.includeDependents = true ∧
      ∃ s ∈ seeds, Relation.ReflTransGen (Depends projects selector.prodOnly) i s)

/-- The set of a selector. -/
def InSelector (world : FilterWorld) (workspace : Workspace) (selector : Selector)
    (i : Index workspace.projects) : Prop :=
  ∃ seeds, baseMatches world workspace selector.base = .ok seeds ∧
    InClosure workspace.projects selector seeds i ∧ ¬ (selector.excludeSelf = true ∧ i ∈ seeds)

theorem mem_expandFrom_iff {projects : List Project} (h : DistinctNames projects)
    {selector : Selector} {seeds : Finset (Index projects)} {i : Index projects} :
    i ∈ expandFrom projects selector seeds ↔
      InClosure projects selector seeds i ∧ ¬ (selector.excludeSelf = true ∧ i ∈ seeds) := by
  have hdependencies : i ∈ seeds ∪ walkDependencies projects seeds selector.prodOnly ↔ _ :=
    mem_dependencies_iff h
  have hdependents : i ∈ seeds ∪ walkDependents projects seeds selector.prodOnly ↔ _ :=
    mem_dependents_iff h
  rw [Finset.mem_union] at hdependencies hdependents
  unfold expandFrom InClosure
  rw [← hdependencies, ← hdependents]
  cases selector.includeDependencies <;> cases selector.includeDependents <;>
    cases selector.excludeSelf <;> simp <;> tauto

/-- One selector adds its set to the included or to the excluded projects. -/
theorem applySelector_ok (h : DistinctNames workspace.projects) {selector : Selector}
    {state state' : Finset (Index workspace.projects) × Finset (Index workspace.projects)}
    (happly : applySelector world workspace state selector = .ok state') :
    (∃ seeds, baseMatches world workspace selector.base = .ok seeds) ∧
      (∀ i, i ∈ state'.1 ↔
        i ∈ state.1 ∨ (selector.exclude = false ∧ InSelector world workspace selector i)) ∧
      ∀ i, i ∈ state'.2 ↔
        i ∈ state.2 ∨ (selector.exclude = true ∧ InSelector world workspace selector i) := by
  unfold applySelector at happly
  obtain ⟨found, hfound, happly⟩ := Result.bind_eq_ok happly
  obtain ⟨seeds, hseeds, hfound⟩ := Result.bind_eq_ok hfound
  cases hfound
  have hmem : ∀ i, i ∈ expandFrom workspace.projects selector seeds ↔
      InSelector world workspace selector i := by
    intro i
    rw [mem_expandFrom_iff h]
    constructor
    · exact fun hi => ⟨seeds, hseeds, hi⟩
    · intro hi
      obtain ⟨other, hother, hi⟩ := hi
      rw [hseeds] at hother
      cases hother
      exact hi
  refine ⟨⟨seeds, hseeds⟩, ?_⟩
  cases hexclude : selector.exclude with
  | true =>
      rw [hexclude, if_pos rfl] at happly
      cases happly
      refine ⟨fun i => by simp, fun i => ?_⟩
      rw [Finset.mem_union, hmem]
      simp
  | false =>
      rw [hexclude, if_neg Bool.false_ne_true] at happly
      cases happly
      refine ⟨fun i => ?_, fun i => by simp⟩
      rw [Finset.mem_union, hmem]
      simp

theorem applySelector_isOk {selector : Selector} {seeds : Finset (Index workspace.projects)}
    (hseeds : baseMatches world workspace selector.base = .ok seeds)
    (state : Finset (Index workspace.projects) × Finset (Index workspace.projects)) :
    ∃ state', applySelector world workspace state selector = .ok state' := by
  unfold applySelector expandSelector
  rw [hseeds]
  cases selector.exclude with
  | true => exact ⟨_, rfl⟩
  | false => exact ⟨_, rfl⟩

/-- A list of selectors adds up their sets, whatever their order. -/
theorem foldlM_applySelector_ok (h : DistinctNames workspace.projects) (selectors : List Selector)
    {state state' : Finset (Index workspace.projects) × Finset (Index workspace.projects)}
    (happly : selectors.foldlM (applySelector world workspace) state = .ok state') :
    (∀ selector ∈ selectors, ∃ seeds, baseMatches world workspace selector.base = .ok seeds) ∧
      (∀ i, i ∈ state'.1 ↔ i ∈ state.1 ∨ ∃ selector ∈ selectors, selector.exclude = false ∧
        InSelector world workspace selector i) ∧
      ∀ i, i ∈ state'.2 ↔ i ∈ state.2 ∨ ∃ selector ∈ selectors, selector.exclude = true ∧
        InSelector world workspace selector i := by
  induction selectors generalizing state with
  | nil =>
      cases happly
      exact ⟨fun selector hmem => absurd hmem List.not_mem_nil, fun i => by simp, fun i => by simp⟩
  | cons selector selectors ih =>
      rw [List.foldlM_cons] at happly
      obtain ⟨middle, hfirst, happly⟩ := Result.bind_eq_ok happly
      obtain ⟨hbase, hincluded, hexcluded⟩ := applySelector_ok h hfirst
      obtain ⟨hbases, hincludedRest, hexcludedRest⟩ := ih happly
      refine ⟨?_, ?_, ?_⟩
      · intro other hmem
        cases List.mem_cons.mp hmem with
        | inl heq => exact heq ▸ hbase
        | inr hmem => exact hbases other hmem
      · intro i
        rw [hincludedRest, hincluded, or_assoc, List.exists_mem_cons_iff]
      · intro i
        rw [hexcludedRest, hexcluded, or_assoc, List.exists_mem_cons_iff]

theorem foldlM_applySelector_isOk (selectors : List Selector)
    (h : ∀ selector ∈ selectors, ∃ seeds, baseMatches world workspace selector.base = .ok seeds)
    (state : Finset (Index workspace.projects) × Finset (Index workspace.projects)) :
    ∃ state', selectors.foldlM (applySelector world workspace) state = .ok state' := by
  induction selectors generalizing state with
  | nil => exact ⟨state, rfl⟩
  | cons selector selectors ih =>
      obtain ⟨seeds, hseeds⟩ := h selector List.mem_cons_self
      obtain ⟨middle, hmiddle⟩ := applySelector_isOk hseeds state
      obtain ⟨state', hstate'⟩ :=
        ih (fun other hmem => h other (List.mem_cons_of_mem selector hmem)) middle
      refine ⟨state', ?_⟩
      rw [List.foldlM_cons, hmiddle]
      exact hstate'

/-- The union of the positive sets, or every project, without the negative sets. -/
def Chosen (world : FilterWorld) (workspace : Workspace) (selectors : List Selector)
    (i : Index workspace.projects) : Prop :=
  ((∀ selector ∈ selectors, selector.exclude = true) ∨
      ∃ selector ∈ selectors, selector.exclude = false ∧ InSelector world workspace selector i) ∧
    ¬ ∃ selector ∈ selectors, selector.exclude = true ∧ InSelector world workspace selector i

theorem applySelectors_ok (h : DistinctNames workspace.projects) {selectors : List Selector}
    {selected : Finset (Index workspace.projects)}
    (happly : applySelectors world workspace selectors = .ok selected) :
    (∀ selector ∈ selectors, ∃ seeds, baseMatches world workspace selector.base = .ok seeds) ∧
      ∀ i, i ∈ selected ↔ Chosen world workspace selectors i := by
  unfold applySelectors at happly
  obtain ⟨state, hstate, happly⟩ := Result.bind_eq_ok happly
  cases happly
  obtain ⟨hbases, hincluded, hexcluded⟩ := foldlM_applySelector_ok h selectors hstate
  refine ⟨hbases, fun i => ?_⟩
  rw [Finset.mem_sdiff, hincluded, hexcluded, Chosen]
  cases hpositive : selectors.any fun selector => !selector.exclude with
  | true =>
      obtain ⟨positive, hmem, hexclude⟩ := List.any_eq_true.mp hpositive
      have hnotAll : ¬ ∀ selector ∈ selectors, selector.exclude = true := by
        intro hall
        rw [hall positive hmem] at hexclude
        cases hexclude
      simp [hnotAll]
  | false =>
      have hall : ∀ selector ∈ selectors, selector.exclude = true := by
        intro selector hmem
        have hnot := List.any_eq_false.mp hpositive selector hmem
        simpa using hnot
      simp only [Bool.false_eq_true, if_false, Finset.mem_univ, true_or, true_and,
        Finset.notMem_empty, false_or]
      exact (and_iff_right (.inl hall)).symm

theorem applySelectors_isOk {selectors : List Selector}
    (h : ∀ selector ∈ selectors, ∃ seeds, baseMatches world workspace selector.base = .ok seeds) :
    ∃ selected, applySelectors world workspace selectors = .ok selected := by
  unfold applySelectors
  obtain ⟨state, hstate⟩ := foldlM_applySelector_isOk selectors h
    (if selectors.any fun selector => !selector.exclude then ∅ else Finset.univ, ∅)
  dsimp only
  rw [hstate]
  exact ⟨_, rfl⟩

end Sets

section Selected

variable {world : FilterWorld} {workspace : Workspace}

theorem mapM_ok_iff {ε α β : Type} {f : α → Except ε β} {xs : List α} {ys : List β} :
    xs.mapM f = .ok ys ↔ List.Forall₂ (fun x y => f x = .ok y) xs ys := by
  induction xs generalizing ys with
  | nil =>
      rw [List.forall₂_nil_left_iff]
      exact ⟨fun h => by cases h; rfl, fun h => by rw [h]; rfl⟩
  | cons x xs ih =>
      rw [List.mapM_cons, List.forall₂_cons_left_iff]
      cases hx : f x with
      | error e =>
          constructor
          · exact fun h => nomatch h
          · intro h
            obtain ⟨y, _, hy, _⟩ := h
            cases hy
      | ok y =>
          cases hxs : xs.mapM f with
          | error e =>
              constructor
              · exact fun h => nomatch h
              · intro h
                obtain ⟨_, rest, _, hrest, _⟩ := h
                rw [ih.mpr hrest] at hxs
                cases hxs
          | ok rest =>
              have hrest := ih.mp hxs
              constructor
              · intro h
                cases h
                exact ⟨y, rest, rfl, hrest, rfl⟩
              · intro h
                obtain ⟨other, others, hother, hothers, heq⟩ := h
                rw [ih.mpr hothers] at hxs
                cases hother
                cases hxs
                rw [heq]
                rfl

theorem parseEffectiveFilters_ok_iff {filters filterProds : List String}
    {selectors : List Selector} :
    parseEffectiveFilters filters filterProds = .ok selectors ↔ ∃ all prod,
      List.Forall₂ (fun raw selector => parseSelector raw false = .ok selector) filters all ∧
      List.Forall₂ (fun raw selector => parseSelector raw true = .ok selector) filterProds prod ∧
      selectors = all ++ prod := by
  unfold parseEffectiveFilters
  constructor
  · intro h
    cases hall : filters.mapM (parseSelector · false) with
    | error e =>
        rw [hall] at h
        cases h
    | ok all =>
        cases hprod : filterProds.mapM (parseSelector · true) with
        | error e =>
            rw [hall, hprod] at h
            cases h
        | ok prod =>
            rw [hall, hprod] at h
            cases h
            exact ⟨all, prod, mapM_ok_iff.mp hall, mapM_ok_iff.mp hprod, rfl⟩
  · intro h
    obtain ⟨all, prod, hall, hprod, heq⟩ := h
    rw [mapM_ok_iff.mpr hall, mapM_ok_iff.mpr hprod, heq]
    rfl

/-- No selectors are read from no filters only. -/
theorem parseEffectiveFilters_nil_iff {filters filterProds : List String} {selectors : List Selector}
    (h : parseEffectiveFilters filters filterProds = .ok selectors) :
    selectors = [] ↔ filters = [] ∧ filterProds = [] := by
  obtain ⟨all, prod, hall, hprod, heq⟩ := parseEffectiveFilters_ok_iff.mp h
  rw [heq, List.append_eq_nil_iff, ← List.length_eq_zero_iff, ← hall.length_eq,
    ← List.length_eq_zero_iff, ← hprod.length_eq, List.length_eq_zero_iff, List.length_eq_zero_iff]

/-- Reordered filters are read as the selectors in another order. -/
theorem parseEffectiveFilters_perm {filters filters' filterProds filterProds' : List String}
    (hfilters : filters'.Perm filters) (hprods : filterProds'.Perm filterProds)
    {selectors : List Selector} (h : parseEffectiveFilters filters filterProds = .ok selectors) :
    ∃ selectors', parseEffectiveFilters filters' filterProds' = .ok selectors' ∧
      selectors'.Perm selectors := by
  obtain ⟨all, prod, hall, hprod, heq⟩ := parseEffectiveFilters_ok_iff.mp h
  obtain ⟨all', hall', hperm⟩ := List.perm_comp_forall₂ hfilters hall
  obtain ⟨prod', hprod', hpermProd⟩ := List.perm_comp_forall₂ hprods hprod
  refine ⟨all' ++ prod', parseEffectiveFilters_ok_iff.mpr ⟨all', prod', hall', hprod', rfl⟩, ?_⟩
  rw [heq]
  exact hperm.append hpermProd

theorem projectsAt_univ (projects : List Project) :
    projectsAt projects Finset.univ = projects := by
  unfold projectsAt
  rw [List.filter_eq_self.mpr (by simp)]
  exact List.map_getElem_finRange projects

/-- The selection of a list of filters, once they are read. -/
theorem selectWorkspaceProjects_eq {filters filterProds : List String} {selectors : List Selector}
    (hparse : parseEffectiveFilters filters filterProds = .ok selectors)
    {selected : Finset (Index workspace.projects)}
    (happly : applySelectors world workspace selectors = .ok selected) :
    selectWorkspaceProjects world workspace filters filterProds =
      .ok (projectsAt workspace.projects selected) := by
  unfold selectWorkspaceProjects
  by_cases hnone : filters = [] ∧ filterProds = []
  · have hnil := (parseEffectiveFilters_nil_iff hparse).mpr hnone
    rw [hnil] at happly
    cases happly
    rw [if_pos hnone]
    have hall : projectsAt workspace.projects (Finset.univ \ ∅) = workspace.projects := by
      rw [Finset.sdiff_empty, projectsAt_univ]
    exact congrArg Except.ok hall.symm
  · rw [if_neg hnone, hparse]
    dsimp only
    rw [if_neg fun hnil => hnone ((parseEffectiveFilters_nil_iff hparse).mp hnil), happly]
    rfl

theorem parsed_of_selectWorkspaceProjects {filters filterProds : List String} {found : List Project}
    (h : selectWorkspaceProjects world workspace filters filterProds = .ok found) :
    ∃ selectors selected, parseEffectiveFilters filters filterProds = .ok selectors ∧
      applySelectors world workspace selectors = .ok selected := by
  by_cases hnone : filters = [] ∧ filterProds = []
  · rw [hnone.1, hnone.2]
    exact ⟨[], _, rfl, rfl⟩
  · unfold selectWorkspaceProjects at h
    rw [if_neg hnone] at h
    cases hparse : parseEffectiveFilters filters filterProds with
    | error reason =>
        rw [hparse] at h
        cases h
    | ok selectors =>
        rw [hparse] at h
        dsimp only at h
        rw [if_neg fun hnil => hnone ((parseEffectiveFilters_nil_iff hparse).mp hnil)] at h
        obtain ⟨selected, hselected, _⟩ := Result.bind_eq_ok h
        exact ⟨selectors, selected, rfl, hselected⟩

theorem chosen_perm {selectors selectors' : List Selector} (h : selectors'.Perm selectors)
    (i : Index workspace.projects) :
    Chosen world workspace selectors' i ↔ Chosen world workspace selectors i := by
  unfold Chosen
  simp only [h.mem_iff]

/-- The projects with some numbers are listed by ascending numbers. -/
theorem projectsAt_indices (projects : List Project) (selected : Finset (Index projects)) :
    ∃ indices : List (Index projects), projectsAt projects selected = indices.map projects.get ∧
      indices.Pairwise (· < ·) ∧ ∀ i, i ∈ indices ↔ i ∈ selected := by
  refine ⟨(List.finRange projects.length).filter (· ∈ selected), rfl, ?_, ?_⟩
  · exact (List.pairwise_lt_finRange projects.length).filter _
  · intro i
    simp

/-- The selection is the union of the positive sets without the negative sets, in
the order of the workspace and whatever the order of the selectors; the walks are
the closures of one relation and its inverse. -/
theorem select_projects_exact (world : FilterWorld) (workspace : Workspace)
    (hnames : DistinctNames workspace.projects) (filters filterProds : List String) :
    (∀ selectors, parseEffectiveFilters filters filterProds = .ok selectors →
      (∀ selector ∈ selectors, ∃ seeds, baseMatches world workspace selector.base = .ok seeds) →
      ∃ indices : List (Index workspace.projects),
        selectWorkspaceProjects world workspace filters filterProds =
          .ok (indices.map workspace.projects.get) ∧
        indices.Pairwise (· < ·) ∧ ∀ i, i ∈ indices ↔ Chosen world workspace selectors i) ∧
    (∀ found, selectWorkspaceProjects world workspace filters filterProds = .ok found →
      (∃ selectors, parseEffectiveFilters filters filterProds = .ok selectors ∧
        ∀ selector ∈ selectors, ∃ seeds,
          baseMatches world workspace selector.base = .ok seeds) ∧
      ∀ filters' filterProds' : List String, filters'.Perm filters → filterProds'.Perm filterProds →
        selectWorkspaceProjects world workspace filters' filterProds' = .ok found) ∧
    (∀ (seeds : Finset (Index workspace.projects)) (prodOnly : Bool) i,
      (i ∈ seeds ∪ walkDependencies workspace.projects seeds prodOnly ↔
        ∃ s ∈ seeds, Relation.ReflTransGen (Depends workspace.projects prodOnly) s i) ∧
      (i ∈ seeds ∪ walkDependents workspace.projects seeds prodOnly ↔
        ∃ s ∈ seeds, Relation.ReflTransGen (Depends workspace.projects prodOnly) i s)) ∧
    ∀ (prodOnly : Bool) (i j : Index workspace.projects),
      j ∈ {i} ∪ walkDependencies workspace.projects {i} prodOnly ↔
        i ∈ {j} ∪ walkDependents workspace.projects {j} prodOnly := by
  refine ⟨?_, ?_, fun seeds prodOnly i => ⟨mem_dependencies_iff hnames, mem_dependents_iff hnames⟩, ?_⟩
  · intro selectors hparse hbases
    obtain ⟨selected, happly⟩ := applySelectors_isOk hbases
    obtain ⟨indices, heq, hsorted, hmem⟩ := projectsAt_indices workspace.projects selected
    refine ⟨indices, ?_, hsorted, ?_⟩
    · rw [selectWorkspaceProjects_eq hparse happly, heq]
    · intro i
      rw [hmem]
      exact (applySelectors_ok hnames happly).2 i
  · intro found hfound
    obtain ⟨selectors, selected, hparse, happly⟩ := parsed_of_selectWorkspaceProjects hfound
    obtain ⟨hbases, hmem⟩ := applySelectors_ok hnames happly
    refine ⟨⟨selectors, hparse, hbases⟩, ?_⟩
    intro filters' filterProds' hfilters hprods
    obtain ⟨selectors', hparse', hperm⟩ := parseEffectiveFilters_perm hfilters hprods hparse
    obtain ⟨selected', happly'⟩ :=
      applySelectors_isOk fun selector hmem => hbases selector (hperm.mem_iff.mp hmem)
    have hsame : selected' = selected := by
      ext i
      rw [hmem, (applySelectors_ok hnames happly').2]
      exact chosen_perm hperm i
    rw [selectWorkspaceProjects_eq hparse' happly', hsame, ← hfound]
    exact (selectWorkspaceProjects_eq hparse happly).symm
  · intro prodOnly i j
    rw [mem_dependencies_iff hnames, mem_dependents_iff hnames]
    simp

def namedProject (name dependency : String) : Project :=
  ⟨"/ws/" ++ name, "/ws/" ++ name ++ "/package.json",
    { Manifest.empty with name := some name, dependencies := BTreeMap.collect [(dependency, "*")] }⟩

/-- Two projects that depend on each other. -/
def circle : Workspace where
  root := "/ws"
  projects := [namedProject "a" "b", namedProject "b" "a"]
  config := ⟨∅, ∅, [], [], none, none⟩

theorem circle_names : DistinctNames circle.projects := by
  intro i j name hi hj
  have hname : ∀ k : Index circle.projects,
      (k.val = 0 ∧ (circle.projects.get k).manifest.name = some "a") ∨
        (k.val = 1 ∧ (circle.projects.get k).manifest.name = some "b") := by
    decide
  have hne : "a" ≠ "b" := by decide
  apply Fin.ext
  rcases hname i with ⟨hi', hiName⟩ | ⟨hi', hiName⟩
  · rcases hname j with ⟨hj', hjName⟩ | ⟨hj', hjName⟩
    · rw [hi', hj']
    · rw [hiName] at hi
      rw [hjName, ← hi] at hj
      exact absurd (Option.some.inj hj).symm hne
  · rcases hname j with ⟨hj', hjName⟩ | ⟨hj', hjName⟩
    · rw [hiName] at hi
      rw [hjName, ← hi] at hj
      exact absurd (Option.some.inj hj) hne
    · rw [hi', hj']

theorem circle_selected :
    ∃ indices : List (Index circle.projects),
      selectWorkspaceProjects ⟨fun _ => none, fun _ _ => .error "no repository"⟩ circle
          ["a^..."] [] = .ok (indices.map circle.projects.get) ∧
        indices.Pairwise (· < ·) ∧ ∀ i, i ∈ indices ↔
          Chosen ⟨fun _ => none, fun _ _ => .error "no repository"⟩ circle
            [⟨.name "a", true, false, true, false, false⟩] i := by
  refine (select_projects_exact ⟨fun _ => none, fun _ _ => .error "no repository"⟩ circle
    circle_names ["a^..."] []).1 _ (by decide +kernel) ?_
  intro selector hmem
  rw [List.mem_singleton.mp hmem]
  exact ⟨_, rfl⟩

end Selected

end Snpm.Run
