import Mathlib
import Snpm.Lifecycle.Chunks

/-!
What the chunks of jobs contain and how they are ordered. The counters of a pass
are the numbers of dependencies that are not done; with them the levels are those
of the dependency graph on the names.
-/
namespace Snpm.Lifecycle

open LevelWalk (waiting waiting_append waiting_eq_zero_iff Downstream downstream_of_stuck)

section Counters

variable {byName : BTreeMap String DepScriptJob}

theorem inSetDeps_eq_nil {name : String} (h : byName[name]? = none) : inSetDeps byName name = [] := by
  unfold inSetDeps
  rw [h]

theorem mem_inSetDeps {name dep : String} (h : dep ∈ inSetDeps byName name) :
    dep ∈ byName ∧ dep ≠ name := by
  unfold inSetDeps at h
  cases hjob : byName[name]? with
  | none =>
      rw [hjob] at h
      cases h
  | some job =>
      rw [hjob] at h
      simp only [List.mem_filter, Bool.and_eq_true, decide_eq_true_eq,
        Std.ExtTreeMap.contains_iff_mem] at h
      exact ⟨h.2.2, h.2.1⟩

/-- A pass over the dependencies of one job adds it once for each of them. -/
theorem addConsumers_count (name : String) (deps : List String)
    (dependents : BTreeMap String (List String)) (d c : String) :
    (((deps.foldl (addConsumer name) dependents)[d]?).getD []).count c =
      ((dependents[d]?).getD []).count c + if c = name then deps.count d else 0 := by
  induction deps generalizing dependents with
  | nil => simp
  | cons dep deps ih =>
      have hinsert : (((addConsumer name dependents dep)[d]?).getD []).count c =
          ((dependents[d]?).getD []).count c + if c = name ∧ dep = d then 1 else 0 := by
        unfold addConsumer
        rw [BTreeMap.getElem?_insert_self_or]
        by_cases hdep : dep = d
        · subst hdep
          rw [if_pos rfl, Option.getD_some, List.count_append, List.count_singleton]
          by_cases hname : c = name
          · simp [hname]
          · simp [hname, Ne.symm hname]
        · rw [if_neg hdep]
          simp [hdep]
      rw [List.foldl_cons, ih, hinsert, List.count_cons]
      by_cases hname : c = name
      · by_cases hdep : dep = d
        · simp [hname, hdep]
          omega
        · simp [hname, hdep]
      · simp [hname]

/-- The consumers of a name are the jobs that depend on it, each as often as it
does. -/
theorem dependentsOf_count {names : List String} (hnodup : names.Nodup) (d c : String) :
    (((dependentsOf byName names)[d]?).getD []).count c =
      if c ∈ names then (inSetDeps byName c).count d else 0 := by
  have hfold : ∀ (names : List String) (dependents : BTreeMap String (List String)), names.Nodup →
      (((names.foldl (fun dependents name =>
          (inSetDeps byName name).foldl (addConsumer name) dependents) dependents)[d]?).getD
            []).count c =
        ((dependents[d]?).getD []).count c +
          if c ∈ names then (inSetDeps byName c).count d else 0 := by
    intro names
    induction names with
    | nil => simp
    | cons name names ih =>
        intro dependents hnodup
        have hparts := List.nodup_cons.mp hnodup
        rw [List.foldl_cons, ih _ hparts.2, addConsumers_count]
        by_cases hname : c = name
        · subst hname
          simp [hparts.1]
        · simp [hname]
  have hall := hfold names ∅ hnodup
  rw [dependentsOf, hall]
  simp

/-- A list of consumers lowers each degree by its occurrences, and the names that
reach zero get ready once. -/
theorem release_spec (consumers : List String) (degrees : BTreeMap String Nat) (next : List String)
    (hknown : ∀ c ∈ consumers, c ∈ degrees)
    (hle : ∀ c n, degrees[c]? = some n → consumers.count c ≤ n) :
    (∀ c : String, (consumers.foldl releaseConsumer (degrees, next)).1[c]? =
        (degrees[c]?).map (· - consumers.count c)) ∧
      ∃ pushed, (consumers.foldl releaseConsumer (degrees, next)).2 = next ++ pushed ∧
        pushed.Nodup ∧ ∀ c, c ∈ pushed ↔ c ∈ consumers ∧ degrees[c]? = some (consumers.count c) := by
  induction consumers generalizing degrees next with
  | nil => exact ⟨fun c => by simp, [], by simp, List.nodup_nil, by simp⟩
  | cons x consumers ih =>
      obtain ⟨degree, hdegree⟩ := BTreeMap.mem_iff_exists.mp (hknown x List.mem_cons_self)
      have hpos : consumers.count x + 1 ≤ degree := by
        have hcount := hle x degree hdegree
        rwa [List.count_cons_self] at hcount
      have hstep : releaseConsumer (degrees, next) x = (degrees.insert x (degree - 1),
          if degree - 1 = 0 then next ++ [x] else next) := by
        unfold releaseConsumer
        rw [hdegree]
      have hinsert : ∀ c : String, (degrees.insert x (degree - 1))[c]? =
          if x = c then some (degree - 1) else degrees[c]? :=
        fun c => BTreeMap.getElem?_insert_self_or degrees x c (degree - 1)
      have hknown' : ∀ c ∈ consumers, c ∈ degrees.insert x (degree - 1) := by
        intro c hc
        rw [Std.ExtTreeMap.mem_insert]
        exact .inr (hknown c (List.mem_cons_of_mem x hc))
      have hle' : ∀ c n, (degrees.insert x (degree - 1))[c]? = some n → consumers.count c ≤ n := by
        intro c n hc
        rw [hinsert] at hc
        by_cases hx : x = c
        · rw [if_pos hx, Option.some.injEq] at hc
          rw [← hx]
          omega
        · rw [if_neg hx] at hc
          have hcount := hle c n hc
          rwa [List.count_cons_of_ne hx] at hcount
      obtain ⟨hdegrees, pushed, hpushed, hnodup, hmem⟩ :=
        ih (degrees.insert x (degree - 1)) (if degree - 1 = 0 then next ++ [x] else next) hknown' hle'
      rw [List.foldl_cons, hstep]
      refine ⟨?_, ?_⟩
      · intro c
        rw [hdegrees, hinsert]
        by_cases hx : x = c
        · subst hx
          rw [if_pos rfl, hdegree, List.count_cons_self, Option.map_some, Option.map_some]
          congr 1
          omega
        · rw [if_neg hx, List.count_cons_of_ne hx]
      · have hother : ∀ c, x ≠ c → (c ∈ pushed ↔
            c ∈ x :: consumers ∧ degrees[c]? = some ((x :: consumers).count c)) := by
          intro c hx
          rw [hmem, hinsert, if_neg hx, List.count_cons_of_ne hx, List.mem_cons]
          simp [Ne.symm hx]
        have hself : x ∈ pushed ↔ x ∈ consumers ∧ degree - 1 = consumers.count x := by
          rw [hmem, hinsert, if_pos rfl, Option.some.injEq]
        by_cases hzero : degree - 1 = 0
        · have hfresh : x ∉ consumers := by
            intro hx
            have hcount := List.count_pos_iff.mpr hx
            omega
          refine ⟨x :: pushed, by rw [hpushed, if_pos hzero, List.append_assoc]; rfl,
            List.nodup_cons.mpr ⟨fun hx => hfresh (hself.mp hx).1, hnodup⟩, ?_⟩
          intro c
          by_cases hx : x = c
          · subst hx
            have hcount := List.count_eq_zero.mpr hfresh
            rw [hdegree, List.count_cons_self, hcount, Option.some.injEq]
            exact ⟨fun _ => ⟨List.mem_cons_self, by omega⟩, fun _ => List.mem_cons_self⟩
          · rw [List.mem_cons, or_iff_right (Ne.symm hx)]
            exact hother c hx
        · refine ⟨pushed, by rw [hpushed, if_neg hzero], hnodup, ?_⟩
          intro c
          by_cases hx : x = c
          · subst hx
            rw [hself, hdegree, List.count_cons_self, Option.some.injEq]
            constructor
            · intro h
              exact ⟨List.mem_cons_self, by omega⟩
            · intro h
              exact ⟨List.count_pos_iff.mp (by omega), by omega⟩
          · exact hother c hx

end Counters

section Rounds

variable {byName : BTreeMap String DepScriptJob} {done : List String}

/-- The state between two rounds: the counters are those of the names that are
done, and exactly the names with nothing to wait for are ready. -/
structure LevelInv (byName : BTreeMap String DepScriptJob) (done : List String) (seq : Sequencer)
    (ready : List String) : Prop where
  jobs : ∀ n : String, seq.byName[n]? = if n ∈ done then none else byName[n]?
  consumers : ∀ n, n ∉ done → ∀ c,
    ((seq.dependents[n]?).getD []).count c = (inSetDeps byName c).count n
  degrees : ∀ c : String,
    seq.inDegree[c]? = (byName[c]?).map fun _ => waiting (inSetDeps byName) done c
  ready_iff : ∀ c, c ∈ ready ↔
    c ∈ byName ∧ c ∉ done ∧ ∀ d ∈ inSetDeps byName c, d ∈ done
  ready_nodup : ready.Nodup
  closed : ∀ c ∈ done, c ∈ byName ∧ ∀ d ∈ inSetDeps byName c, d ∈ done

/-- The state inside a round, after the names that were visited. -/
structure RoundInv (byName : BTreeMap String DepScriptJob) (done visited : List String)
    (round : Round) : Prop where
  jobs : ∀ n : String, round.byName[n]? = if n ∈ done ++ visited then none else byName[n]?
  consumers : ∀ n, n ∉ done ++ visited → ∀ c,
    ((round.dependents[n]?).getD []).count c = (inSetDeps byName c).count n
  degrees : ∀ c : String, round.inDegree[c]? =
    (byName[c]?).map fun _ => waiting (inSetDeps byName) (done ++ visited) c
  chunk : round.chunk = visited.filterMap (byName[·]?)
  next_iff : ∀ c, c ∈ round.nextReady ↔ c ∈ byName ∧
    (∀ d ∈ inSetDeps byName c, d ∈ done ++ visited) ∧ ¬ ∀ d ∈ inSetDeps byName c, d ∈ done
  next_nodup : round.nextReady.Nodup

theorem RoundInv.visit {visited : List String} {round : Round} {name : String}
    (h : RoundInv byName done visited round) (hnew : name ∉ done ++ visited) :
    RoundInv byName done (visited ++ [name]) (visitReady round name) := by
  have hcount := h.consumers name hnew
  have hknown : ∀ c ∈ (round.dependents[name]?).getD [], c ∈ round.inDegree := by
    intro c hc
    have hpos : 0 < (inSetDeps byName c).count name := by
      rw [← hcount]
      exact List.count_pos_iff.mpr hc
    rw [BTreeMap.mem_iff_exists, h.degrees]
    cases hjob : byName[c]? with
    | none =>
        rw [inSetDeps_eq_nil hjob] at hpos
        cases hpos
    | some job => exact ⟨_, rfl⟩
  have hle : ∀ c n, round.inDegree[c]? = some n →
      ((round.dependents[name]?).getD []).count c ≤ n := by
    intro c n hn
    rw [h.degrees] at hn
    obtain ⟨job, _, hn⟩ := Option.map_eq_some_iff.mp hn
    rw [hcount, ← hn, waiting_append hnew]
    exact Nat.le_add_left _ _
  obtain ⟨hdegrees, pushed, hpushed, hnodup, hmem⟩ :=
    release_spec _ round.inDegree round.nextReady hknown hle
  have hfresh : ∀ c, c ∈ pushed ↔ c ∈ byName ∧ name ∈ inSetDeps byName c ∧
      ∀ d ∈ inSetDeps byName c, d ∈ done ++ visited ++ [name] := by
    intro c
    rw [hmem, ← List.count_pos_iff, hcount, List.count_pos_iff, h.degrees, BTreeMap.mem_iff_exists]
    cases hjob : byName[c]? with
    | none => simp
    | some job =>
        rw [Option.map_some, Option.some.injEq, waiting_append hnew, ← waiting_eq_zero_iff]
        simp
  constructor
  · intro n
    have herase : (visitReady round name).byName[n]? = if name = n then none else round.byName[n]? := by
      change (round.byName.erase name)[n]? = _
      rw [Std.ExtTreeMap.getElem?_erase]
      simp only [Std.LawfulEqCmp.compare_eq_iff_eq]
    rw [herase, h.jobs]
    by_cases hname : name = n
    · simp [hname]
    · simp [hname, Ne.symm hname]
  · intro n hn c
    rw [← List.append_assoc, List.mem_append, not_or, List.mem_singleton] at hn
    have herase : (visitReady round name).dependents[n]? = round.dependents[n]? := by
      change (round.dependents.erase name)[n]? = _
      rw [Std.ExtTreeMap.getElem?_erase, if_neg]
      rw [Std.LawfulEqCmp.compare_eq_iff_eq]
      exact Ne.symm hn.2
    rw [herase]
    exact h.consumers n hn.1 c
  · intro c
    have hrelease : (visitReady round name).inDegree[c]? = _ := hdegrees c
    rw [hrelease, h.degrees, Option.map_map, hcount, ← List.append_assoc]
    congr 1
    funext job
    simp only [Function.comp_apply]
    rw [waiting_append hnew, Nat.add_sub_cancel]
  · change round.chunk ++ (round.byName[name]?).toList = _
    rw [h.chunk, h.jobs, if_neg hnew, List.filterMap_append]
    cases hjob : byName[name]? with
    | none => simp [hjob]
    | some job => simp [hjob]
  · intro c
    have hnext : (visitReady round name).nextReady = round.nextReady ++ pushed := hpushed
    rw [hnext, List.mem_append, h.next_iff, hfresh, ← List.append_assoc]
    constructor
    · intro hready
      cases hready with
      | inl hbefore =>
          exact ⟨hbefore.1, fun d hd => List.mem_append_left _ (hbefore.2.1 d hd), hbefore.2.2⟩
      | inr hnow =>
          refine ⟨hnow.1, hnow.2.2, ?_⟩
          exact fun hall => hnew (List.mem_append_left _ (hall name hnow.2.1))
    · intro hready
      by_cases hname : name ∈ inSetDeps byName c
      · exact .inr ⟨hready.1, hname, hready.2.1⟩
      · left
        refine ⟨hready.1, ?_, hready.2.2⟩
        intro d hd
        cases List.mem_append.mp (hready.2.1 d hd) with
        | inl hbefore => exact hbefore
        | inr heq =>
            rw [List.mem_singleton.mp heq] at hd
            exact absurd hd hname
  · have hnext : (visitReady round name).nextReady = round.nextReady ++ pushed := hpushed
    rw [hnext]
    refine h.next_nodup.append hnodup ?_
    intro c hc hpush
    obtain ⟨_, hname, _⟩ := (hfresh c).mp hpush
    exact hnew (((h.next_iff c).mp hc).2.1 name hname)

/-- A round visits the ready names. -/
theorem LevelInv.round {seq : Sequencer} {ready : List String}
    (h : LevelInv byName done seq ready) : RoundInv byName done ready (runRound seq ready) := by
  have hfold : ∀ (names visited : List String) (round : Round), names.Nodup →
      (∀ n ∈ names, n ∉ done ++ visited) → RoundInv byName done visited round →
        RoundInv byName done (visited ++ names) (names.foldl visitReady round) := by
    intro names
    induction names with
    | nil =>
        intro visited round _ _ hround
        rw [List.append_nil]
        exact hround
    | cons name names ih =>
        intro visited round hnodup hnew hround
        have hparts := List.nodup_cons.mp hnodup
        have hnext : ∀ n ∈ names, n ∉ done ++ (visited ++ [name]) := by
          intro n hn
          rw [← List.append_assoc, List.mem_append, not_or, List.mem_singleton]
          refine ⟨hnew n (List.mem_cons_of_mem name hn), ?_⟩
          intro heq
          rw [heq] at hn
          exact hparts.1 hn
        have hrest := ih (visited ++ [name]) (visitReady round name) hparts.2 hnext
          (hround.visit (hnew name List.mem_cons_self))
        rw [List.append_assoc] at hrest
        exact hrest
  have hstart : RoundInv byName done [] { seq with chunk := [], nextReady := [] } := by
    constructor
    · simpa using h.jobs
    · simpa using h.consumers
    · simpa using h.degrees
    · rfl
    · intro c
      rw [List.append_nil]
      exact ⟨fun hc => absurd hc List.not_mem_nil, fun hc => absurd hc.2.1 hc.2.2⟩
    · exact List.nodup_nil
  refine hfold ready [] _ h.ready_nodup ?_ hstart
  intro n hn
  rw [List.append_nil]
  exact ((h.ready_iff n).mp hn).2.1

/-- After a round its names are done. -/
theorem LevelInv.step {seq : Sequencer} {ready : List String} (h : LevelInv byName done seq ready) :
    LevelInv byName (done ++ ready) (runRound seq ready).toSequencer
      (runRound seq ready).nextReady := by
  have hround := h.round
  refine ⟨hround.jobs, hround.consumers, hround.degrees, ?_, hround.next_nodup, ?_⟩
  · intro c
    rw [hround.next_iff]
    constructor
    · intro hc
      refine ⟨hc.1, ?_, hc.2.1⟩
      intro hmem
      cases List.mem_append.mp hmem with
      | inl hdone => exact hc.2.2 (h.closed c hdone).2
      | inr hready => exact hc.2.2 ((h.ready_iff c).mp hready).2.2
    · intro hc
      refine ⟨hc.1, hc.2.2, ?_⟩
      intro hall
      apply hc.2.1
      exact List.mem_append_right _ ((h.ready_iff c).mpr
        ⟨hc.1, fun hdone => hc.2.1 (List.mem_append_left _ hdone), hall⟩)
  · intro c hc
    cases List.mem_append.mp hc with
    | inl hdone =>
        have hclosed := h.closed c hdone
        exact ⟨hclosed.1, fun d hd => List.mem_append_left _ (hclosed.2 d hd)⟩
    | inr hready =>
        have hiff := (h.ready_iff c).mp hready
        exact ⟨hiff.1, fun d hd => List.mem_append_left _ (hiff.2.2 d hd)⟩

end Rounds

section Levels

variable {byName : BTreeMap String DepScriptJob}

def jobsOf (byName : BTreeMap String DepScriptJob) (names : List String) : List DepScriptJob :=
  names.filterMap (byName[·]?)

/-- The names behind a result: levels in which every name comes after what it
depends on, and the names that are left all wait for one another. -/
structure Layers (byName : BTreeMap String DepScriptJob) (done : List String)
    (result : List (List DepScriptJob) × BTreeMap String DepScriptJob)
    (names : List (List String)) : Prop where
  chunks : result.1 = names.map (jobsOf byName)
  nodup : names.flatten.Nodup
  fresh : ∀ c ∈ names.flatten, c ∈ byName ∧ c ∉ done
  ordered : ∀ front level back, names = front ++ level :: back → ∀ c ∈ level,
    ∀ d ∈ inSetDeps byName c, d ∈ done ++ front.flatten
  left : ∀ n : String, result.2[n]? = if n ∈ done ++ names.flatten then none else byName[n]?
  stuck : ∀ c ∈ byName, c ∉ done ++ names.flatten →
    ∃ d ∈ inSetDeps byName c, d ∉ done ++ names.flatten

theorem LevelInv.finished {done : List String} {seq : Sequencer}
    (h : LevelInv byName done seq []) : Layers byName done ([], seq.byName) [] := by
  refine ⟨rfl, List.nodup_nil, fun c hc => absurd hc List.not_mem_nil, ?_, ?_, ?_⟩
  · intro front level back heq
    exact absurd heq.symm (List.append_ne_nil_of_right_ne_nil _ (List.cons_ne_nil _ _))
  · rw [List.flatten_nil, List.append_nil]
    exact h.jobs
  · intro c hc hdone
    rw [List.flatten_nil, List.append_nil] at hdone ⊢
    by_contra hnone
    have hall : ∀ d ∈ inSetDeps byName c, d ∈ done := by
      intro d hd
      by_contra hnot
      exact hnone ⟨d, hd, hnot⟩
    exact absurd ((h.ready_iff c).mpr ⟨hc, hdone, hall⟩) List.not_mem_nil

/-- A level in front of the levels of the rest. -/
theorem LevelInv.layer {done ready : List String} {seq : Sequencer}
    {result : List (List DepScriptJob) × BTreeMap String DepScriptJob} {names : List (List String)}
    (h : LevelInv byName done seq ready) (hrest : Layers byName (done ++ ready) result names) :
    Layers byName done (jobsOf byName ready :: result.1, result.2) (ready :: names) := by
  have hflat : done ++ (ready :: names).flatten = done ++ ready ++ names.flatten := by
    rw [List.flatten_cons, List.append_assoc]
  refine ⟨?_, ?_, ?_, ?_, ?_, ?_⟩
  · rw [hrest.chunks, List.map_cons]
  · rw [List.flatten_cons]
    refine h.ready_nodup.append hrest.nodup ?_
    intro c hready hlater
    exact (hrest.fresh c hlater).2 (List.mem_append_right _ hready)
  · intro c hc
    rw [List.flatten_cons] at hc
    cases List.mem_append.mp hc with
    | inl hready =>
        have hiff := (h.ready_iff c).mp hready
        exact ⟨hiff.1, hiff.2.1⟩
    | inr hlater =>
        have hfresh := hrest.fresh c hlater
        exact ⟨hfresh.1, fun hdone => hfresh.2 (List.mem_append_left _ hdone)⟩
  · intro front level back heq c hc d hd
    cases front with
    | nil =>
        rw [List.nil_append, List.cons.injEq] at heq
        rw [← heq.1] at hc
        exact List.mem_append_left _ (((h.ready_iff c).mp hc).2.2 d hd)
    | cons first front =>
        rw [List.cons_append, List.cons.injEq] at heq
        have hbefore := hrest.ordered front level back heq.2 c hc d hd
        rw [← heq.1, List.flatten_cons, ← List.append_assoc]
        exact hbefore
  · intro n
    rw [hflat]
    exact hrest.left n
  · intro c hc hnot
    rw [hflat] at hnot ⊢
    exact hrest.stuck c hc hnot

/-- The levels of a run, by the rounds it makes. -/
theorem levels_layers {done : List String} (seq : Sequencer) (ready : List String)
    (h : LevelInv byName done seq ready) : ∃ names, Layers byName done (levels seq ready) names := by
  induction seq, ready using levels.induct generalizing done with
  | case1 seq =>
      rw [levels, if_pos rfl]
      exact ⟨[], h.finished⟩
  | case2 seq ready hready round =>
      rename_i ih
      obtain ⟨names, hnames⟩ := ih h.step
      have hchunk : (runRound seq ready).chunk = jobsOf byName ready := h.round.chunk
      have hne : jobsOf byName ready ≠ [] := by
        cases ready with
        | nil => exact absurd rfl hready
        | cons name ready =>
            obtain ⟨job, hjob⟩ := BTreeMap.mem_iff_exists.mp
              ((h.ready_iff name).mp List.mem_cons_self).1
            rw [jobsOf, List.filterMap_cons, hjob]
            exact List.cons_ne_nil _ _
      refine ⟨ready :: names, ?_⟩
      rw [levels, if_neg hready]
      dsimp only
      rw [hchunk, if_neg hne]
      exact h.layer hnames

end Levels

section Start

variable {byName : BTreeMap String DepScriptJob}

theorem keys_visit (order : HashOrder) (m : BTreeMap String DepScriptJob) :
    (order.visit m.keys).Nodup ∧ ∀ n : String, n ∈ order.visit m.keys ↔ n ∈ m :=
  ⟨(order.perm m.keys).nodup_iff.mpr Std.ExtTreeMap.nodup_keys,
    fun _ => (order.perm m.keys).mem_iff.trans Std.ExtTreeMap.mem_keys⟩

theorem inDegrees_getElem? (c : String) :
    (inDegrees byName)[c]? = (byName[c]?).map fun _ => waiting (inSetDeps byName) [] c := by
  unfold inDegrees waiting
  rw [Std.ExtTreeMap.getElem?_map]
  simp

/-- The counters of the first pass. -/
theorem levelInv_start (jobOrder degreeOrder : HashOrder) (byName : BTreeMap String DepScriptJob) :
    LevelInv byName []
      ⟨byName, dependentsOf byName (jobOrder.visit byName.keys), inDegrees byName⟩
      ((degreeOrder.visit (inDegrees byName).keys).filter fun name =>
        (inDegrees byName)[name]? = some 0) := by
  have hkeys : (inDegrees byName).keys = byName.keys := Std.ExtTreeMap.keys_map
  obtain ⟨hnodup, hmem⟩ := keys_visit degreeOrder byName
  rw [hkeys]
  refine ⟨fun n => by simp, ?_, inDegrees_getElem?, ?_, hnodup.filter _, ?_⟩
  · intro n _ c
    obtain ⟨hnodup, hmem⟩ := keys_visit jobOrder byName
    change (((dependentsOf byName (jobOrder.visit byName.keys))[n]?).getD []).count c = _
    rw [dependentsOf_count hnodup]
    by_cases hc : c ∈ jobOrder.visit byName.keys
    · rw [if_pos hc]
    · have hnone : byName[c]? = none := Std.ExtTreeMap.getElem?_eq_none fun h => hc ((hmem c).mpr h)
      rw [if_neg hc, inSetDeps_eq_nil hnone, List.count_nil]
  · intro c
    rw [List.mem_filter, hmem, decide_eq_true_eq, inDegrees_getElem?]
    constructor
    · intro h
      obtain ⟨hc, hzero⟩ := h
      obtain ⟨job, _, hzero⟩ := Option.map_eq_some_iff.mp hzero
      exact ⟨hc, List.not_mem_nil, waiting_eq_zero_iff.mp hzero⟩
    · intro h
      obtain ⟨hc, _, hall⟩ := h
      obtain ⟨job, hjob⟩ := BTreeMap.mem_iff_exists.mp hc
      rw [hjob, Option.map_some, waiting_eq_zero_iff.mpr hall]
      exact ⟨hc, rfl⟩
  · exact fun c hc => absurd hc List.not_mem_nil

end Start

section Result

/-- The names behind the chunks: the levels, and the chunk of those that wait for
one another. -/
structure ChunkNames (byName : BTreeMap String DepScriptJob) (chunks : List (List DepScriptJob))
    (names tail : List (List String)) : Prop where
  chunks : chunks = (names ++ tail).map (jobsOf byName)
  nodup : (names ++ tail).flatten.Nodup
  mem_iff : ∀ c, c ∈ (names ++ tail).flatten ↔ c ∈ byName
  ordered : ∀ front level back, names = front ++ level :: back → ∀ c ∈ level,
    ∀ d ∈ inSetDeps byName c, d ∈ front.flatten
  stuck : ∀ c ∈ tail.flatten, ∃ d ∈ inSetDeps byName c, d ∈ tail.flatten

theorem topologicalChunks_names (jobOrder degreeOrder cycleOrder : HashOrder)
    (jobs : List DepScriptJob) :
    ∃ names tail, ChunkNames (jobsByName jobs)
      (topologicalChunks jobOrder degreeOrder cycleOrder jobs) names tail := by
  unfold topologicalChunks
  dsimp only
  generalize jobsByName jobs = byName
  obtain ⟨names, hlayers⟩ := levels_layers _ _ (levelInv_start jobOrder degreeOrder byName)
  generalize levels _ _ = result at hlayers
  obtain ⟨hnodup, hmem⟩ := keys_visit cycleOrder result.2
  have hleft : ∀ c, c ∈ cycleOrder.visit result.2.keys ↔ c ∈ byName ∧ c ∉ names.flatten := by
    intro c
    rw [hmem, BTreeMap.mem_iff_exists, hlayers.left, List.nil_append, BTreeMap.mem_iff_exists]
    by_cases hc : c ∈ names.flatten
    · simp [hc]
    · simp [hc]
  have hordered : ∀ front level back, names = front ++ level :: back → ∀ c ∈ level,
      ∀ d ∈ inSetDeps byName c, d ∈ front.flatten := by
    intro front level back heq c hc d hd
    simpa using hlayers.ordered front level back heq c hc d hd
  by_cases hempty : result.2.isEmpty = true
  · have hnil : cycleOrder.visit result.2.keys = [] := by
      rw [List.eq_nil_iff_forall_not_mem]
      intro c hc
      rw [hmem, Std.ExtTreeMap.isEmpty_iff.mp hempty] at hc
      exact absurd hc Std.ExtTreeMap.not_mem_empty
    rw [hnil] at hleft
    rw [if_pos hempty]
    refine ⟨names, [], ?_, ?_, ?_, hordered, fun c hc => absurd hc List.not_mem_nil⟩
    · rw [List.append_nil]
      exact hlayers.chunks
    · rw [List.append_nil]
      exact hlayers.nodup
    · intro c
      rw [List.append_nil]
      constructor
      · exact fun hc => (hlayers.fresh c hc).1
      · intro hc
        by_contra hnot
        exact absurd ((hleft c).mpr ⟨hc, hnot⟩) List.not_mem_nil
  · rw [if_neg hempty]
    have hjobs : (cycleOrder.visit result.2.keys).filterMap (result.2[·]?) =
        jobsOf byName (cycleOrder.visit result.2.keys) := by
      apply List.filterMap_congr
      intro c hc
      rw [hlayers.left, List.nil_append, if_neg ((hleft c).mp hc).2]
    refine ⟨names, [cycleOrder.visit result.2.keys], ?_, ?_, ?_, hordered, ?_⟩
    · rw [hjobs, hlayers.chunks, List.map_append, List.map_singleton]
    · rw [List.flatten_append, List.flatten_singleton]
      exact hlayers.nodup.append hnodup fun c hc hlast => ((hleft c).mp hlast).2 hc
    · intro c
      rw [List.flatten_append, List.flatten_singleton, List.mem_append, hleft]
      constructor
      · intro hc
        exact hc.elim (fun hc => (hlayers.fresh c hc).1) And.left
      · intro hc
        by_cases hnames : c ∈ names.flatten
        · exact .inl hnames
        · exact .inr ⟨hc, hnames⟩
    · intro c hc
      rw [List.flatten_singleton] at hc ⊢
      have hparts := (hleft c).mp hc
      obtain ⟨d, hd, hnot⟩ := hlayers.stuck c hparts.1 (by simpa using hparts.2)
      exact ⟨d, hd, (hleft d).mpr ⟨(mem_inSetDeps hd).1, by simpa using hnot⟩⟩

end Result

section Jobs

variable {jobs : List DepScriptJob}

theorem jobsByName_some {n : String} {job : DepScriptJob} (h : (jobsByName jobs)[n]? = some job) :
    job ∈ jobs ∧ job.name = n := by
  have hmem := BTreeMap.mem_of_getElem?_collect h
  obtain ⟨other, hother, heq⟩ := List.mem_map.mp hmem
  cases heq
  exact ⟨hother, rfl⟩

/-- With distinct names every job is found under its own. -/
theorem jobsByName_of_mem (hnodup : (jobs.map DepScriptJob.name).Nodup) {job : DepScriptJob}
    (h : job ∈ jobs) : (jobsByName jobs)[job.name]? = some job := by
  refine (BTreeMap.getElem?_collect ?_ _ _).mpr (List.mem_map_of_mem h)
  intro p hp q hq hname
  obtain ⟨a, ha, rfl⟩ := List.mem_map.mp hp
  obtain ⟨b, hb, rfl⟩ := List.mem_map.mp hq
  exact List.inj_on_of_nodup_map hnodup ha hb hname

theorem mem_jobsOf {names : List String} {job : DepScriptJob}
    (h : job ∈ jobsOf (jobsByName jobs) names) :
    job.name ∈ names ∧ job ∈ jobs := by
  obtain ⟨n, hn, hjob⟩ := List.mem_filterMap.mp h
  obtain ⟨hmem, hname⟩ := jobsByName_some hjob
  rw [hname]
  exact ⟨hn, hmem⟩

/-- The jobs under known names have these names. -/
theorem jobsOf_names {names : List String} (h : ∀ n ∈ names, n ∈ jobsByName jobs) :
    (jobsOf (jobsByName jobs) names).map DepScriptJob.name = names := by
  induction names with
  | nil => rfl
  | cons n names ih =>
      obtain ⟨job, hjob⟩ := BTreeMap.mem_iff_exists.mp (h n List.mem_cons_self)
      have hrest := ih fun m hm => h m (List.mem_cons_of_mem n hm)
      unfold jobsOf at hrest ⊢
      rw [List.filterMap_cons, hjob]
      dsimp only
      rw [List.map_cons, hrest, (jobsByName_some hjob).2]

theorem jobsOf_flatten (byName : BTreeMap String DepScriptJob) (names : List (List String)) :
    (names.map (jobsOf byName)).flatten = jobsOf byName names.flatten := by
  unfold jobsOf
  rw [List.filterMap_flatten]

/-- The chunks hold one job for each name. -/
theorem chunks_flatten_names {chunks : List (List DepScriptJob)} {names tail : List (List String)}
    (h : ChunkNames (jobsByName jobs) chunks names tail) :
    chunks.flatten.map DepScriptJob.name = (names ++ tail).flatten := by
  rw [h.chunks, jobsOf_flatten]
  exact jobsOf_names fun n hn => (h.mem_iff n).mp hn

/-- A member of two lists of a disjoint family is in one list. -/
theorem index_unique {ls : List (List String)} (h : ls.flatten.Nodup) {i k : Nat}
    {as bs : List String} (hi : ls[i]? = some as) (hk : ls[k]? = some bs) {x : String}
    (ha : x ∈ as) (hb : x ∈ bs) : i = k := by
  have hdisjoint := (List.nodup_flatten.mp h).2
  obtain ⟨hilt, hieq⟩ := List.getElem?_eq_some_iff.mp hi
  obtain ⟨hklt, hkeq⟩ := List.getElem?_eq_some_iff.mp hk
  by_contra hne
  cases Nat.lt_or_gt_of_ne hne with
  | inl hlt =>
      have hpair := List.pairwise_iff_getElem.mp hdisjoint i k hilt hklt hlt
      rw [hieq, hkeq] at hpair
      exact hpair ha hb
  | inr hgt =>
      have hpair := List.pairwise_iff_getElem.mp hdisjoint k i hklt hilt hgt
      rw [hieq, hkeq] at hpair
      exact hpair hb ha

end Jobs

section Ordered

/-- A job depends on another job of the list. -/
def DependsOn (jobs : List DepScriptJob) (a b : DepScriptJob) : Prop :=
  a ∈ jobs ∧ b ∈ jobs ∧ b.name ∈ a.depNames ∧ b.name ≠ a.name

/-- Every job runs once, and a job that is not downstream of a cycle runs in a later
chunk than the jobs it depends on. -/
structure ChunksOrdered (jobs : List DepScriptJob) (chunks : List (List DepScriptJob)) : Prop where
  once : chunks.flatten.Perm jobs
  later : ∀ a b, DependsOn jobs a b → ¬ Downstream (DependsOn jobs) a →
    ∀ (i k : Nat) (as bs : List DepScriptJob), chunks[i]? = some as → a ∈ as →
      chunks[k]? = some bs → b ∈ bs → k < i

variable {jobs : List DepScriptJob} {chunks : List (List DepScriptJob)}
  {names tail : List (List String)}

theorem mem_inSetDeps_of_dependsOn (hnodup : (jobs.map DepScriptJob.name).Nodup)
    {a b : DepScriptJob} (h : DependsOn jobs a b) :
    b.name ∈ inSetDeps (jobsByName jobs) a.name := by
  obtain ⟨ha, hb, hdep, hne⟩ := h
  unfold inSetDeps
  rw [jobsByName_of_mem hnodup ha]
  have hmem : b.name ∈ jobsByName jobs :=
    BTreeMap.mem_iff_exists.mpr ⟨b, jobsByName_of_mem hnodup hb⟩
  simp [hdep, hne, hmem]

theorem dependsOn_of_mem_inSetDeps {a : DepScriptJob}
    (ha : (jobsByName jobs)[a.name]? = some a) {d : String}
    (h : d ∈ inSetDeps (jobsByName jobs) a.name) :
    ∃ b, (jobsByName jobs)[d]? = some b ∧ DependsOn jobs a b := by
  obtain ⟨hmem, hne⟩ := mem_inSetDeps h
  obtain ⟨b, hb⟩ := BTreeMap.mem_iff_exists.mp hmem
  obtain ⟨hbmem, hbname⟩ := jobsByName_some hb
  unfold inSetDeps at h
  rw [ha] at h
  refine ⟨b, hb, (jobsByName_some ha).1, hbmem, ?_, ?_⟩
  · rw [hbname]
    exact List.mem_of_mem_filter h
  · rw [hbname]
    exact hne

/-- What is left to the last chunk is downstream of a cycle. -/
theorem downstream_of_tail (hnodup : (jobs.map DepScriptJob.name).Nodup)
    (h : ChunkNames (jobsByName jobs) chunks names tail) {a : DepScriptJob} (ha : a ∈ jobs)
    (htail : a.name ∈ tail.flatten) : Downstream (DependsOn jobs) a := by
  have hmem : ∀ b ∈ jobs, b.name ∈ tail.flatten →
      b ∈ jobsOf (jobsByName jobs) tail.flatten := by
    intro b hb hname
    exact List.mem_filterMap.mpr ⟨b.name, hname, jobsByName_of_mem hnodup hb⟩
  have hstuck : ∀ c ∈ jobsOf (jobsByName jobs) tail.flatten,
      ∃ d ∈ jobsOf (jobsByName jobs) tail.flatten, DependsOn jobs c d := by
    intro c hc
    obtain ⟨hname, hcmem⟩ := mem_jobsOf hc
    obtain ⟨d, hd, hdtail⟩ := h.stuck c.name hname
    obtain ⟨b, hb, hdepends⟩ := dependsOn_of_mem_inSetDeps (jobsByName_of_mem hnodup hcmem) hd
    obtain ⟨hbmem, hbname⟩ := jobsByName_some hb
    refine ⟨b, hmem b hbmem ?_, hdepends⟩
    rw [hbname]
    exact hdtail
  exact downstream_of_stuck hstuck (hmem a ha htail)

/-- The names of a chunk. -/
theorem chunk_names (h : ChunkNames (jobsByName jobs) chunks names tail) {i : Nat}
    {as : List DepScriptJob} (hi : chunks[i]? = some as) :
    ∃ level, (names ++ tail)[i]? = some level ∧ as = jobsOf (jobsByName jobs) level := by
  rw [h.chunks, List.getElem?_map] at hi
  obtain ⟨level, hlevel, heq⟩ := Option.map_eq_some_iff.mp hi
  exact ⟨level, hlevel, heq.symm⟩

theorem later_of_names (hnodup : (jobs.map DepScriptJob.name).Nodup)
    (h : ChunkNames (jobsByName jobs) chunks names tail) {a b : DepScriptJob}
    (hdep : DependsOn jobs a b) (hcycle : ¬ Downstream (DependsOn jobs) a) {i k : Nat}
    {as bs : List DepScriptJob} (hi : chunks[i]? = some as) (ha : a ∈ as)
    (hk : chunks[k]? = some bs) (hb : b ∈ bs) : k < i := by
  obtain ⟨aNames, hilevel, heq⟩ := chunk_names h hi
  obtain ⟨bNames, hklevel, heq'⟩ := chunk_names h hk
  rw [heq] at ha
  rw [heq'] at hb
  have haName := (mem_jobsOf ha).1
  have hbName := (mem_jobsOf hb).1
  by_cases hin : i < names.length
  · rw [List.getElem?_append_left hin] at hilevel
    have hsplit : names = names.take i ++ aNames :: names.drop (i + 1) := by
      obtain ⟨hlt, hget⟩ := List.getElem?_eq_some_iff.mp hilevel
      rw [← hget, List.getElem_cons_drop, List.take_append_drop]
    have hfront := h.ordered _ _ _ hsplit a.name haName b.name
      (mem_inSetDeps_of_dependsOn hnodup hdep)
    obtain ⟨level, hlevel, hmem⟩ := List.mem_flatten.mp hfront
    obtain ⟨m, hm⟩ := List.mem_iff_getElem?.mp hlevel
    rw [List.getElem?_take] at hm
    split at hm
    · rename_i hlt
      have hat : (names ++ tail)[m]? = some level := by
        rw [List.getElem?_append_left (by omega)]
        exact hm
      have heqIndex := index_unique h.nodup hat hklevel hmem hbName
      omega
    · cases hm
  · rw [List.getElem?_append_right (Nat.le_of_not_lt hin)] at hilevel
    have htail : a.name ∈ tail.flatten :=
      List.mem_flatten.mpr ⟨aNames, List.mem_of_getElem? hilevel, haName⟩
    exact absurd (downstream_of_tail hnodup h hdep.1 htail) hcycle

/-- Every job runs once, and after the jobs it depends on, exactly if no two jobs
have one package name. -/
theorem chunks_ordered_iff (jobOrder degreeOrder cycleOrder : HashOrder)
    (jobs : List DepScriptJob) :
    ChunksOrdered jobs (topologicalChunks jobOrder degreeOrder cycleOrder jobs) ↔
      (jobs.map DepScriptJob.name).Nodup := by
  obtain ⟨names, tail, h⟩ := topologicalChunks_names jobOrder degreeOrder cycleOrder jobs
  generalize topologicalChunks jobOrder degreeOrder cycleOrder jobs = chunks at h
  have hnames := chunks_flatten_names h
  constructor
  · intro hordered
    refine (hordered.once.map DepScriptJob.name).nodup_iff.mp ?_
    rw [hnames]
    exact h.nodup
  · intro hnodup
    refine ⟨?_, fun a b hdep hcycle i k as bs hi ha hk hb =>
      later_of_names hnodup h hdep hcycle hi ha hk hb⟩
    have hflat : chunks.flatten.Nodup := by
      apply List.Nodup.of_map DepScriptJob.name
      rw [hnames]
      exact h.nodup
    rw [List.perm_ext_iff_of_nodup hflat (List.Nodup.of_map _ hnodup)]
    intro job
    rw [h.chunks, jobsOf_flatten]
    constructor
    · exact fun hjob => (mem_jobsOf hjob).2
    · intro hjob
      have hfound := jobsByName_of_mem hnodup hjob
      refine List.mem_filterMap.mpr ⟨job.name, ?_, hfound⟩
      exact (h.mem_iff job.name).mpr (BTreeMap.mem_iff_exists.mpr ⟨job, hfound⟩)

def nativeJobs : List DepScriptJob :=
  [⟨"native", some "1.0.0", "node_modules/native", []⟩,
    ⟨"native", some "2.0.0", "node_modules/app/node_modules/native", []⟩]

/-- Two versions of a package leave one job. -/
theorem second_version_lost :
    nativeJobs.length = 2 ∧ ∀ jobOrder degreeOrder cycleOrder : HashOrder,
      (topologicalChunks jobOrder degreeOrder cycleOrder nativeJobs).flatten.length = 1 ∧
        ¬ ChunksOrdered nativeJobs (topologicalChunks jobOrder degreeOrder cycleOrder nativeJobs) := by
  refine ⟨rfl, ?_⟩
  intro jobOrder degreeOrder cycleOrder
  obtain ⟨names, tail, h⟩ := topologicalChunks_names jobOrder degreeOrder cycleOrder nativeJobs
  generalize topologicalChunks jobOrder degreeOrder cycleOrder nativeJobs = chunks at h
  have hlength : chunks.flatten.length = 1 := by
    have hperm : (names ++ tail).flatten.Perm (jobsByName nativeJobs).keys := by
      rw [List.perm_ext_iff_of_nodup h.nodup Std.ExtTreeMap.nodup_keys]
      intro c
      rw [h.mem_iff, Std.ExtTreeMap.mem_keys]
    have hkeys : (jobsByName nativeJobs).keys.length = 1 := by decide +kernel
    rw [← hkeys, ← hperm.length_eq, ← chunks_flatten_names h, List.length_map]
  refine ⟨hlength, fun hordered => ?_⟩
  have htwo := hordered.once.length_eq
  rw [hlength] at htwo
  cases htwo

end Ordered

end Snpm.Lifecycle
