import Mathlib
import Snpm.Install.WorkspaceRoots
import Snpm.Library.KeyedFold

/-!
The order in which workspace members are visited. Collecting the root specs
acts on every package name by itself, so the question whether the order matters
is settled name by name: on which sections the members use, and on merging the
ranges they declare.
-/
namespace Snpm.Install

variable (S : SemverCrate)

/-- The section of a member that a name is taken from. -/
inductive RootSection where
  | required
  | optional
deriving DecidableEq

/-- What is collected for one name. -/
structure NameSpecs where
  required : Option String
  optional : Option String
deriving DecidableEq

def RootSpecSet.at (specs : RootSpecSet) (name : String) : NameSpecs :=
  ⟨specs.required[name]?, specs.optional[name]?⟩

/-- Merge a range into what is there. Nothing comes of a range that could not be
resolved, nor of two ranges that cannot be merged. -/
def mergeInto (current range : Option String) : Option String :=
  range.bind fun range =>
    match current with
    | none => some range
    | some existing => (mergeWorkspaceRanges S existing range).map (·.range)

def nameRequired (range : Option String) (specs : NameSpecs) : Option NameSpecs :=
  (mergeInto S specs.required range).map fun merged => ⟨some merged, specs.optional⟩

def nameOptional (range : Option String) (specs : NameSpecs) : Option NameSpecs :=
  if specs.required.isSome then nameRequired S range specs
  else (mergeInto S specs.optional range).map fun merged => ⟨specs.required, some merged⟩

def nameStep (specs : NameSpecs) : Option (RootSection × Option String) → Option NameSpecs
  | none => some specs
  | some (.required, range) => nameRequired S range specs
  | some (.optional, range) => nameOptional S range specs

section Collect

variable (files : FileView) (workspace : Workspace) (includeDev : Bool)
  (overrides : BTreeMap String String)

/-- The root specs when the members are visited in this order. -/
def collectInOrder (order : List Project) : Result RootSpecSet :=
  order.foldlM (collectMember S files workspace includeDev overrides) ⟨∅, ∅⟩

theorem collectInOrder_projects :
    collectInOrder S files workspace includeDev overrides workspace.projects =
      collectWorkspaceRootSpecsWithOverrides S files workspace includeDev overrides := rfl

/-- The range of a member for a name, when it can be resolved. -/
def resolvedRange (memberRoot : PathBuf) (name range : String) : Option String :=
  (resolveWorkspaceRange files name range memberRoot).toOption

/-- What a member with these specs declares for a name. -/
def declaredIn (memberRoot : PathBuf) (specs : RootSpecSet) (name : String) :
    Option (RootSection × Option String) :=
  match specs.required[name]?, specs.optional[name]? with
  | some range, _ => some (.required, resolvedRange files memberRoot name range)
  | none, some range => some (.optional, resolvedRange files memberRoot name range)
  | none, none => none

def declared (name : String) (member : Project) : Option (RootSection × Option String) :=
  match buildMemberRootSpecs S workspace overrides member includeDev with
  | .error _ => none
  | .ok specs => declaredIn files member.root specs name

/-- The ranges that the members declare for a name, in order. -/
def declaredRanges (name : String) (order : List Project) : List (Option String) :=
  (order.filterMap (declared S files workspace includeDev overrides name)).map (·.2)

/-- Merge ranges in the order given. -/
def mergeRanges (ranges : List (Option String)) : Option (Option String) :=
  ranges.foldlM (fun current range => (mergeInto S current range).map some) none

end Collect

section Pointwise

variable (files : FileView) (workspaceRoot memberRoot : PathBuf)

theorem insertWorkspaceRootDep_keyed :
    KeyedFold.Keyed (fun (combined : BTreeMap String String) (name : String) => combined[name]?)
      (insertWorkspaceRootDep S files workspaceRoot memberRoot)
      (fun name range current =>
        (mergeInto S current (resolvedRange files memberRoot name range)).map some) := by
  constructor
  · intro combined combined' name range h
    obtain ⟨resolved, hresolved, h⟩ := Result.bind_eq_ok h
    have hinsert : ∃ merged, mergeInto S combined[name]? (some resolved) = some merged ∧
        combined' = combined.insert name merged := by
      cases hcurrent : combined[name]? with
      | none =>
          simp only [hcurrent] at h
          exact ⟨resolved, rfl, (Except.ok.inj h).symm⟩
      | some existing =>
          simp only [hcurrent] at h
          cases hmerge : mergeWorkspaceRanges S existing resolved with
          | none =>
              rw [hmerge] at h
              cases h
          | some merged =>
              rw [hmerge] at h
              exact ⟨merged.range, by rw [mergeInto, Option.bind_some]; simp [hmerge],
                (Except.ok.inj h).symm⟩
    obtain ⟨merged, hmerged, rfl⟩ := hinsert
    have hrange : resolvedRange files memberRoot name range = some resolved := by
      rw [resolvedRange, hresolved]
      rfl
    constructor
    · rw [hrange, hmerged, BTreeMap.getElem?_insert_self_or, if_pos rfl]
      rfl
    · intro n hn
      rw [BTreeMap.getElem?_insert_self_or, if_neg hn.symm]
  · intro combined name range value h
    obtain ⟨merged, hmerged, -⟩ := Option.map_eq_some_iff.mp h
    obtain ⟨resolved, hrange, hmerged⟩ := Option.bind_eq_some_iff.mp hmerged
    have hresolved : resolveWorkspaceRange files name range memberRoot = .ok resolved := by
      rw [resolvedRange] at hrange
      cases hresult : resolveWorkspaceRange files name range memberRoot with
      | error e =>
          rw [hresult] at hrange
          cases hrange
      | ok text =>
          rw [hresult] at hrange
          cases hrange
          rfl
    rw [insertWorkspaceRootDep, hresolved]
    cases hcurrent : combined[name]? with
    | none => exact ⟨_, by simp [bind, Except.bind]; rfl⟩
    | some existing =>
        rw [hcurrent] at hmerged
        obtain ⟨outcome, houtcome, -⟩ := Option.map_eq_some_iff.mp hmerged
        exact ⟨_, by simp [houtcome, bind, Except.bind]; rfl⟩

theorem insertOptionalRoot_keyed :
    KeyedFold.Keyed RootSpecSet.at (insertOptionalRoot S files workspaceRoot memberRoot)
      (fun name range => nameOptional S (resolvedRange files memberRoot name range)) := by
  have hinsert := insertWorkspaceRootDep_keyed S files workspaceRoot memberRoot
  have hcontains : ∀ (specs : RootSpecSet) (name : String),
      specs.required.contains name = (specs.at name).required.isSome := by
    intro specs name
    exact Std.ExtTreeMap.contains_eq_isSome_getElem?
  constructor
  · intro specs specs' name range h
    unfold insertOptionalRoot at h
    rw [nameOptional, nameRequired]
    cases hrequired : specs.required.contains name with
    | true =>
        rw [if_pos hrequired] at h
        obtain ⟨required, hok, h⟩ := Result.bind_eq_ok h
        cases h
        obtain ⟨hact, hothers⟩ := hinsert.acts hok
        rw [hcontains] at hrequired
        rw [if_pos hrequired]
        obtain ⟨merged, hmerged, hvalue⟩ := Option.map_eq_some_iff.mp hact
        constructor
        · rw [RootSpecSet.at, hmerged, Option.map_some, RootSpecSet.at, ← hvalue]
        · intro n hn
          rw [RootSpecSet.at, RootSpecSet.at, hothers n hn]
    | false =>
        rw [if_neg (by simp [hrequired])] at h
        obtain ⟨optional, hok, h⟩ := Result.bind_eq_ok h
        cases h
        obtain ⟨hact, hothers⟩ := hinsert.acts hok
        rw [hcontains] at hrequired
        rw [if_neg (by simp [hrequired])]
        obtain ⟨merged, hmerged, hvalue⟩ := Option.map_eq_some_iff.mp hact
        constructor
        · rw [RootSpecSet.at, hmerged, Option.map_some, RootSpecSet.at, ← hvalue]
        · intro n hn
          rw [RootSpecSet.at, RootSpecSet.at, hothers n hn]
  · intro specs name range value h
    unfold insertOptionalRoot
    rw [nameOptional, nameRequired] at h
    cases hrequired : specs.required.contains name with
    | true =>
        rw [if_pos (by rw [← hcontains, hrequired])] at h
        obtain ⟨merged, hmerged, -⟩ := Option.map_eq_some_iff.mp h
        obtain ⟨required, hok⟩ := hinsert.runs (s := specs.required) (k := name) (r := range)
          (Option.map_eq_some_iff.mpr ⟨merged, hmerged, rfl⟩)
        exact ⟨_, by rw [if_pos rfl, hok]; rfl⟩
    | false =>
        rw [if_neg (by rw [← hcontains, hrequired]; simp)] at h
        obtain ⟨merged, hmerged, -⟩ := Option.map_eq_some_iff.mp h
        obtain ⟨optional, hok⟩ := hinsert.runs (s := specs.optional) (k := name) (r := range)
          (Option.map_eq_some_iff.mpr ⟨merged, hmerged, rfl⟩)
        exact ⟨_, by rw [if_neg (by simp), hok]; rfl⟩

end Pointwise

section Members

variable (files : FileView) (workspace : Workspace) (includeDev : Bool)
  (overrides : BTreeMap String String)

theorem nodup_names (specs : BTreeMap String String) : (specs.toList.map (·.1)).Nodup := by
  rw [Std.ExtTreeMap.map_fst_toList_eq_keys]
  exact Std.ExtTreeMap.nodup_keys

theorem mem_names_iff {specs : BTreeMap String String} {name : String} :
    name ∈ specs.toList.map (·.1) ↔ ∃ range, specs[name]? = some range := by
  rw [Std.ExtTreeMap.map_fst_toList_eq_keys, BTreeMap.mem_keys_iff]

/-- The two sections of a member never share a name. -/
theorem optional_of_member {member : Project} {memberSpecs : RootSpecSet}
    (h : buildMemberRootSpecs S workspace overrides member includeDev = .ok memberSpecs)
    {name range : String} (hoptional : memberSpecs.optional[name]? = some range) :
    memberSpecs.required[name]? = none := by
  obtain ⟨dependencies, -, h⟩ := Result.bind_eq_ok h
  obtain ⟨optional, -, h⟩ := Result.bind_eq_ok h
  obtain ⟨development, -, h⟩ := Result.bind_eq_ok h
  cases h
  have hmem : name ∈ optional := by
    rw [Std.ExtTreeMap.mem_iff_isSome_getElem?]
    exact Option.isSome_iff_exists.mpr ⟨range, hoptional⟩
  rw [getElem?_required, if_pos hmem]

theorem collectMember_acts {specs specs' : RootSpecSet} {member : Project}
    (h : collectMember S files workspace includeDev overrides specs member = .ok specs') :
    (∃ memberSpecs,
        buildMemberRootSpecs S workspace overrides member includeDev = .ok memberSpecs) ∧
      ∀ name, nameStep S (specs.at name)
        (declared S files workspace includeDev overrides name member) = some (specs'.at name) := by
  obtain ⟨memberSpecs, hbuild, h⟩ := Result.bind_eq_ok h
  obtain ⟨required, hrequired, hoptional⟩ := Result.bind_eq_ok h
  refine ⟨⟨memberSpecs, hbuild⟩, fun name => ?_⟩
  obtain ⟨hsame, hmerged⟩ := (insertWorkspaceRootDep_keyed S files workspace.root
    member.root).foldlM_acts (nodup_names _) hrequired
  obtain ⟨hsame', hmerged'⟩ := (insertOptionalRoot_keyed S files workspace.root
    member.root).foldlM_acts (nodup_names _) hoptional
  rw [declared, hbuild]
  simp only [declaredIn]
  cases hr : memberSpecs.required[name]? with
  | some range =>
      have hnot : name ∉ memberSpecs.optional.toList.map (·.1) := by
        rw [mem_names_iff]
        rintro ⟨other, hother⟩
        rw [optional_of_member S workspace includeDev overrides hbuild hother] at hr
        cases hr
      have hact := hmerged name range (Std.ExtTreeMap.mem_toList_iff_getElem?_eq_some.mpr hr)
      obtain ⟨merged, hm, hvalue⟩ := Option.map_eq_some_iff.mp hact
      rw [hsame' name hnot, nameStep, nameRequired, RootSpecSet.at, hm, Option.map_some, hvalue]
      rfl
  | none =>
      have hkept : required[name]? = specs.required[name]? := by
        apply hsame
        rw [mem_names_iff, hr]
        simp
      cases ho : memberSpecs.optional[name]? with
      | some range =>
          have hact := hmerged' name range (Std.ExtTreeMap.mem_toList_iff_getElem?_eq_some.mpr ho)
          rw [RootSpecSet.at, hkept] at hact
          exact hact
      | none =>
          rw [nameStep, hsame' name (by rw [mem_names_iff, ho]; simp), RootSpecSet.at,
            RootSpecSet.at, hkept]

theorem collectMember_runs {specs : RootSpecSet} {member : Project} {memberSpecs : RootSpecSet}
    (hbuild : buildMemberRootSpecs S workspace overrides member includeDev = .ok memberSpecs)
    (hstep : ∀ name, ∃ next, nameStep S (specs.at name)
      (declared S files workspace includeDev overrides name member) = some next) :
    ∃ specs', collectMember S files workspace includeDev overrides specs member = .ok specs' := by
  have hdeclared : ∀ name, declared S files workspace includeDev overrides name member =
      declaredIn files member.root memberSpecs name := by
    intro name
    rw [declared, hbuild]
  obtain ⟨required, hrequired⟩ := (insertWorkspaceRootDep_keyed S files workspace.root
      member.root).foldlM_runs (s := specs.required) (nodup_names memberSpecs.required) (by
    intro name range hmem
    have hr := Std.ExtTreeMap.mem_toList_iff_getElem?_eq_some.mp hmem
    obtain ⟨next, hnext⟩ := hstep name
    simp only [hdeclared, declaredIn, hr, nameStep, nameRequired] at hnext
    obtain ⟨merged, hmerged, -⟩ := Option.map_eq_some_iff.mp hnext
    exact ⟨some merged, Option.map_eq_some_iff.mpr ⟨merged, hmerged, rfl⟩⟩)
  have hsame := ((insertWorkspaceRootDep_keyed S files workspace.root
    member.root).foldlM_acts (nodup_names _) hrequired).1
  obtain ⟨specs', hoptional⟩ := (insertOptionalRoot_keyed S files workspace.root
      member.root).foldlM_runs (s := { specs with required := required })
      (nodup_names memberSpecs.optional) (by
    intro name range hmem
    have ho := Std.ExtTreeMap.mem_toList_iff_getElem?_eq_some.mp hmem
    have hr := optional_of_member S workspace includeDev overrides hbuild ho
    have hkept : required[name]? = specs.required[name]? := by
      apply hsame
      rw [mem_names_iff, hr]
      simp
    obtain ⟨next, hnext⟩ := hstep name
    simp only [hdeclared, declaredIn, hr, ho, nameStep] at hnext
    exact ⟨next, by rw [RootSpecSet.at, hkept]; exact hnext⟩)
  refine ⟨specs', ?_⟩
  simp only [collectMember, hbuild, bind, Except.bind, hrequired]
  exact hoptional

/-- Collecting in an order is, for every name, running through what the members
declare for it in that order. -/
theorem collect_acts {order : List Project} {specs specs' : RootSpecSet}
    (h : order.foldlM (collectMember S files workspace includeDev overrides) specs = .ok specs')
    (name : String) :
    (order.map (declared S files workspace includeDev overrides name)).foldlM (nameStep S)
      (specs.at name) = some (specs'.at name) := by
  induction order generalizing specs with
  | nil =>
      cases h
      rfl
  | cons member order ih =>
      rw [List.foldlM_cons] at h
      obtain ⟨next, hmember, hrest⟩ := Result.bind_eq_ok h
      rw [List.map_cons, List.foldlM_cons,
        (collectMember_acts S files workspace includeDev overrides hmember).2 name]
      exact ih hrest

theorem collect_builds {order : List Project} {specs specs' : RootSpecSet}
    (h : order.foldlM (collectMember S files workspace includeDev overrides) specs = .ok specs') :
    ∀ member ∈ order, ∃ memberSpecs,
      buildMemberRootSpecs S workspace overrides member includeDev = .ok memberSpecs := by
  induction order generalizing specs with
  | nil => exact fun member hmem => absurd hmem List.not_mem_nil
  | cons first order ih =>
      rw [List.foldlM_cons] at h
      obtain ⟨next, hmember, hrest⟩ := Result.bind_eq_ok h
      intro member hmem
      cases List.mem_cons.mp hmem with
      | inl heq =>
          rw [heq]
          exact (collectMember_acts S files workspace includeDev overrides hmember).1
      | inr hmem => exact ih hrest member hmem

theorem collect_runs {order : List Project} {specs : RootSpecSet}
    (hbuilds : ∀ member ∈ order, ∃ memberSpecs,
      buildMemberRootSpecs S workspace overrides member includeDev = .ok memberSpecs)
    (hnames : ∀ name, ∃ last,
      (order.map (declared S files workspace includeDev overrides name)).foldlM (nameStep S)
        (specs.at name) = some last) :
    ∃ specs', order.foldlM (collectMember S files workspace includeDev overrides) specs =
      .ok specs' := by
  induction order generalizing specs with
  | nil => exact ⟨specs, rfl⟩
  | cons member order ih =>
      obtain ⟨memberSpecs, hbuild⟩ := hbuilds member List.mem_cons_self
      have hfirst : ∀ name, ∃ next, nameStep S (specs.at name)
          (declared S files workspace includeDev overrides name member) = some next ∧
          ∃ last, (order.map (declared S files workspace includeDev overrides name)).foldlM
            (nameStep S) next = some last := by
        intro name
        obtain ⟨last, hlast⟩ := hnames name
        rw [List.map_cons, List.foldlM_cons] at hlast
        obtain ⟨next, hnext, hrest⟩ := Option.bind_eq_some_iff.mp hlast
        exact ⟨next, hnext, last, hrest⟩
      obtain ⟨next, hmember⟩ := collectMember_runs S files workspace includeDev overrides hbuild
        fun name => (hfirst name).imp fun _ h => h.1
      obtain ⟨specs', hrest⟩ := ih (fun m hm => hbuilds m (List.mem_cons_of_mem _ hm)) (by
        intro name
        obtain ⟨value, hvalue, hlast⟩ := hfirst name
        rw [(collectMember_acts S files workspace includeDev overrides hmember).2 name,
          Option.some.injEq] at hvalue
        rw [hvalue]
        exact hlast)
      exact ⟨specs', by rw [List.foldlM_cons, hmember]; exact hrest⟩

end Members

section Names

variable {S}

theorem nameRequired_isSome {range : Option String} {specs specs' : NameSpecs}
    (h : nameRequired S range specs = some specs') :
    specs'.required.isSome ∧ specs'.optional = specs.optional := by
  obtain ⟨merged, -, rfl⟩ := Option.map_eq_some_iff.mp h
  exact ⟨rfl, rfl⟩

/-- What is there stays there, and a required declaration leaves its mark. -/
theorem nameStep_keeps {specs specs' : NameSpecs}
    {declaration : Option (RootSection × Option String)}
    (h : nameStep S specs declaration = some specs') :
    (specs.required.isSome → specs'.required.isSome) ∧
      (specs.optional.isSome → specs'.optional.isSome) ∧
      ∀ range, declaration = some (.required, range) → specs'.required.isSome := by
  match declaration with
  | none =>
      cases h
      exact ⟨id, id, fun _ h => by cases h⟩
  | some (.required, range) =>
      obtain ⟨hsome, hsame⟩ := nameRequired_isSome h
      exact ⟨fun _ => hsome, fun ho => hsame ▸ ho, fun _ _ => hsome⟩
  | some (.optional, range) =>
      rw [nameStep, nameOptional] at h
      split at h
      next =>
          obtain ⟨hsome, hsame⟩ := nameRequired_isSome h
          exact ⟨fun _ => hsome, fun ho => hsame ▸ ho, fun _ _ => hsome⟩
      next =>
          obtain ⟨merged, -, rfl⟩ := Option.map_eq_some_iff.mp h
          exact ⟨id, fun _ => rfl, fun _ h => by cases h⟩

theorem foldlM_nameStep_keeps {declarations : List (Option (RootSection × Option String))}
    {specs specs' : NameSpecs} (h : declarations.foldlM (nameStep S) specs = some specs') :
    (specs.required.isSome → specs'.required.isSome) ∧
      (specs.optional.isSome → specs'.optional.isSome) ∧
      ∀ range, some (.required, range) ∈ declarations → specs'.required.isSome := by
  induction declarations generalizing specs with
  | nil =>
      cases h
      exact ⟨id, id, fun _ hmem => absurd hmem List.not_mem_nil⟩
  | cons declaration declarations ih =>
      rw [List.foldlM_cons] at h
      obtain ⟨next, hnext, hrest⟩ := Option.bind_eq_some_iff.mp h
      obtain ⟨hreq, hopt, hmark⟩ := nameStep_keeps hnext
      obtain ⟨hreq', hopt', hmark'⟩ := ih hrest
      refine ⟨fun hr => hreq' (hreq hr), fun ho => hopt' (hopt ho), fun range hmem => ?_⟩
      cases List.mem_cons.mp hmem with
      | inl heq => exact hreq' (hmark range heq.symm)
      | inr hmem => exact hmark' range hmem

/-- Every declaration leaves a mark in one of the sections. -/
theorem foldlM_nameStep_marks {declarations : List (Option (RootSection × Option String))}
    {specs specs' : NameSpecs} (h : declarations.foldlM (nameStep S) specs = some specs')
    {place : RootSection} {range : Option String} (hmem : some (place, range) ∈ declarations) :
    specs'.required.isSome ∨ specs'.optional.isSome := by
  induction declarations generalizing specs with
  | nil => exact absurd hmem List.not_mem_nil
  | cons declaration declarations ih =>
      rw [List.foldlM_cons] at h
      obtain ⟨next, hnext, hrest⟩ := Option.bind_eq_some_iff.mp h
      cases List.mem_cons.mp hmem with
      | inr hmem => exact ih hrest hmem
      | inl heq =>
          obtain ⟨hreq, hopt, -⟩ := foldlM_nameStep_keeps hrest
          subst heq
          cases place with
          | required => exact .inl (hreq (nameRequired_isSome hnext).1)
          | optional =>
              rw [nameStep, nameOptional] at hnext
              split at hnext
              next => exact .inl (hreq (nameRequired_isSome hnext).1)
              next =>
                  obtain ⟨merged, -, rfl⟩ := Option.map_eq_some_iff.mp hnext
                  exact .inr (hopt rfl)

/-- Declarations of the required section alone are merged among themselves. -/
theorem foldlM_nameStep_required {declarations : List (Option (RootSection × Option String))}
    (hall : ∀ range, some (.optional, range) ∉ declarations) (specs : NameSpecs) :
    declarations.foldlM (nameStep S) specs =
      (((declarations.filterMap id).map (·.2)).foldlM
        (fun current range => (mergeInto S current range).map some) specs.required).map
          fun required => ⟨required, specs.optional⟩ := by
  induction declarations generalizing specs with
  | nil => rfl
  | cons declaration declarations ih =>
      have hrest : ∀ range, some (.optional, range) ∉ declarations :=
        fun range hmem => hall range (List.mem_cons_of_mem _ hmem)
      match declaration with
      | none => exact ih hrest specs
      | some (.optional, range) => exact absurd List.mem_cons_self (hall range)
      | some (.required, range) =>
          rw [List.foldlM_cons, nameStep, nameRequired]
          cases hmerged : mergeInto S specs.required range with
          | none => simp [hmerged]
          | some merged =>
              have hnext := ih hrest ⟨some merged, specs.optional⟩
              simp only [List.filterMap_cons, id, List.map_cons, List.foldlM_cons, hmerged,
                Option.map_some, Option.bind_eq_bind, Option.bind_some]
              exact hnext

/-- Declarations of the optional section alone as well. -/
theorem foldlM_nameStep_optional {declarations : List (Option (RootSection × Option String))}
    (hall : ∀ range, some (.required, range) ∉ declarations) (optional : Option String) :
    declarations.foldlM (nameStep S) ⟨none, optional⟩ =
      (((declarations.filterMap id).map (·.2)).foldlM
        (fun current range => (mergeInto S current range).map some) optional).map
          fun optional => ⟨none, optional⟩ := by
  induction declarations generalizing optional with
  | nil => rfl
  | cons declaration declarations ih =>
      have hrest : ∀ range, some (.required, range) ∉ declarations :=
        fun range hmem => hall range (List.mem_cons_of_mem _ hmem)
      match declaration with
      | none => exact ih hrest optional
      | some (.required, range) => exact absurd List.mem_cons_self (hall range)
      | some (.optional, range) =>
          rw [List.foldlM_cons, nameStep, nameOptional, if_neg (by simp)]
          cases hmerged : mergeInto S optional range with
          | none => simp [hmerged]
          | some merged =>
              have hnext := ih hrest (some merged)
              simp only [List.filterMap_cons, id, List.map_cons, List.foldlM_cons, hmerged,
                Option.map_some, Option.bind_eq_bind, Option.bind_some]
              exact hnext

end Names

section Order

variable (files : FileView) (workspace : Workspace) (includeDev : Bool)
  (overrides : BTreeMap String String)

/-- The collected maps share no name, are the same in every order of the
members, and require what any member requires. -/
def CollectsAlike : Prop :=
  ∀ order specs, order.Perm workspace.projects →
    collectInOrder S files workspace includeDev overrides order = .ok specs →
    (∀ name ∈ specs.required, name ∉ specs.optional) ∧
    (∀ order', order'.Perm workspace.projects →
      collectInOrder S files workspace includeDev overrides order' = .ok specs) ∧
    ∀ member ∈ workspace.projects, ∀ memberSpecs,
      buildMemberRootSpecs S workspace overrides member includeDev = .ok memberSpecs →
        ∀ name ∈ memberSpecs.required, name ∈ specs.required

/-- No name is required by one member and optional for another, and the ranges
declared for a name have one merge, whatever the order. -/
structure OrderFree : Prop where
  one_section : ∀ member ∈ workspace.projects, ∀ other ∈ workspace.projects,
    ∀ name range range',
      declared S files workspace includeDev overrides name member = some (.required, range) →
        declared S files workspace includeDev overrides name other ≠ some (.optional, range')
  one_merge : ∀ name order, order.Perm workspace.projects →
    mergeRanges S (declaredRanges S files workspace includeDev overrides name order) =
      mergeRanges S (declaredRanges S files workspace includeDev overrides name workspace.projects)

variable {S files workspace includeDev overrides}

theorem filterMap_declared (name : String) (order : List Project) :
    ((order.map (declared S files workspace includeDev overrides name)).filterMap id).map (·.2) =
      declaredRanges S files workspace includeDev overrides name order := by
  rw [declaredRanges, List.filterMap_map, Function.id_comp]

/-- With one section for each name, a name holds the merge of its ranges in that
section and nothing in the other. -/
theorem OrderFree.name_specs (h : OrderFree S files workspace includeDev overrides)
    (name : String) :
    ∃ place : Option String → NameSpecs,
      (place = (⟨·, none⟩) ∨ place = (⟨none, ·⟩)) ∧
      ∀ order : List Project, order.Perm workspace.projects →
        (order.map (declared S files workspace includeDev overrides name)).foldlM (nameStep S)
            ⟨none, none⟩ =
          (mergeRanges S (declaredRanges S files workspace includeDev overrides name
            workspace.projects)).map place := by
  by_cases hrequired : ∃ member ∈ workspace.projects, ∃ range,
      declared S files workspace includeDev overrides name member = some (.required, range)
  · obtain ⟨member, hmember, range, hdeclared⟩ := hrequired
    refine ⟨_, .inl rfl, fun order horder => ?_⟩
    rw [← h.one_merge name order horder, ← filterMap_declared, foldlM_nameStep_required]
    · rfl
    · intro range' hmem
      obtain ⟨other, hother, heq⟩ := List.mem_map.mp hmem
      exact h.one_section member hmember other (horder.mem_iff.mp hother) name range range'
        hdeclared heq
  · refine ⟨_, .inr rfl, fun order horder => ?_⟩
    rw [← h.one_merge name order horder, ← filterMap_declared, foldlM_nameStep_optional]
    · rfl
    · intro range hmem
      obtain ⟨member, hmember, heq⟩ := List.mem_map.mp hmem
      exact hrequired ⟨member, horder.mem_iff.mp hmember, range, heq⟩

theorem RootSpecSet.ext_at {specs specs' : RootSpecSet} (h : ∀ name, specs.at name = specs'.at name) :
    specs = specs' := by
  obtain ⟨required, optional⟩ := specs
  obtain ⟨required', optional'⟩ := specs'
  have hrequired : required = required' :=
    Std.ExtTreeMap.ext_getElem? fun name => congrArg NameSpecs.required (h name)
  have hoptional : optional = optional' :=
    Std.ExtTreeMap.ext_getElem? fun name => congrArg NameSpecs.optional (h name)
  rw [hrequired, hoptional]

theorem at_empty (name : String) : (⟨∅, ∅⟩ : RootSpecSet).at name = ⟨none, none⟩ := by
  rw [RootSpecSet.at, Std.ExtTreeMap.getElem?_empty]

theorem nameSpecs_of_collect {order : List Project} {specs : RootSpecSet}
    (h : collectInOrder S files workspace includeDev overrides order = .ok specs) (name : String) :
    (order.map (declared S files workspace includeDev overrides name)).foldlM (nameStep S)
      ⟨none, none⟩ = some (specs.at name) := by
  rw [← at_empty name]
  exact collect_acts S files workspace includeDev overrides h name

/-- Every order of an order-free workspace gives what one of them gives. -/
theorem OrderFree.collect_eq (h : OrderFree S files workspace includeDev overrides)
    {order order' : List Project} (horder : order.Perm workspace.projects)
    (horder' : order'.Perm workspace.projects) {specs : RootSpecSet}
    (hok : collectInOrder S files workspace includeDev overrides order = .ok specs) :
    collectInOrder S files workspace includeDev overrides order' = .ok specs := by
  have hnames : ∀ name,
      (order'.map (declared S files workspace includeDev overrides name)).foldlM (nameStep S)
        ((⟨∅, ∅⟩ : RootSpecSet).at name) = some (specs.at name) := by
    intro name
    obtain ⟨place, -, hplace⟩ := h.name_specs name
    rw [at_empty, hplace order' horder', ← hplace order horder]
    exact nameSpecs_of_collect hok name
  have hbuilds := collect_builds S files workspace includeDev overrides hok
  obtain ⟨specs', hok'⟩ := collect_runs S files workspace includeDev overrides
    (fun member hmember => hbuilds member (horder.mem_iff.mpr (horder'.mem_iff.mp hmember)))
    fun name => ⟨_, hnames name⟩
  have hsame : specs' = specs := by
    apply RootSpecSet.ext_at
    intro name
    have hname := collect_acts S files workspace includeDev overrides hok' name
    rw [hnames name, Option.some.injEq] at hname
    exact hname.symm
  rw [← hsame]
  exact hok'

theorem OrderFree.disjoint (h : OrderFree S files workspace includeDev overrides)
    {order : List Project} (horder : order.Perm workspace.projects) {specs : RootSpecSet}
    (hok : collectInOrder S files workspace includeDev overrides order = .ok specs) :
    ∀ name ∈ specs.required, name ∉ specs.optional := by
  intro name hrequired hoptional
  have hname := nameSpecs_of_collect hok name
  obtain ⟨place, hsection, hplace⟩ := h.name_specs name
  rw [hplace order horder] at hname
  obtain ⟨merged, -, heq⟩ := Option.map_eq_some_iff.mp hname
  rw [Std.ExtTreeMap.mem_iff_isSome_getElem?] at hrequired hoptional
  cases hsection with
  | inl hreq =>
      have hnone : none = specs.optional[name]? := congrArg NameSpecs.optional (hreq ▸ heq)
      rw [← hnone] at hoptional
      cases hoptional
  | inr hopt =>
      have hnone : none = specs.required[name]? := congrArg NameSpecs.required (hopt ▸ heq)
      rw [← hnone] at hrequired
      cases hrequired

theorem required_of_member {order : List Project} {specs : RootSpecSet}
    (hok : collectInOrder S files workspace includeDev overrides order = .ok specs)
    {member : Project} (hmember : member ∈ order) {memberSpecs : RootSpecSet}
    (hbuild : buildMemberRootSpecs S workspace overrides member includeDev = .ok memberSpecs)
    {name : String} (hname : name ∈ memberSpecs.required) : name ∈ specs.required := by
  rw [Std.ExtTreeMap.mem_iff_isSome_getElem?, Option.isSome_iff_exists] at hname
  obtain ⟨range, hrange⟩ := hname
  have hdeclared : declared S files workspace includeDev overrides name member =
      some (.required, resolvedRange files member.root name range) := by
    simp only [declared, hbuild, declaredIn, hrange]
  have hkeeps := foldlM_nameStep_keeps (nameSpecs_of_collect hok name)
  rw [Std.ExtTreeMap.mem_iff_isSome_getElem?]
  exact hkeeps.2.2 _ (List.mem_map.mpr ⟨member, hmember, hdeclared⟩)

/-- What a member declares is a root of the workspace. -/
theorem root_of_member {order : List Project} {specs : RootSpecSet}
    (hok : collectInOrder S files workspace includeDev overrides order = .ok specs)
    {member : Project} (hmember : member ∈ order) {memberSpecs : RootSpecSet}
    (hbuild : buildMemberRootSpecs S workspace overrides member includeDev = .ok memberSpecs)
    {name : String} (hname : name ∈ memberSpecs.required ∪ memberSpecs.optional) :
    name ∈ specs.required ∪ specs.optional := by
  have hdeclared : ∃ place range,
      declared S files workspace includeDev overrides name member = some (place, range) := by
    simp only [declared, hbuild, declaredIn]
    cases hrequired : memberSpecs.required[name]? with
    | some range => exact ⟨_, _, rfl⟩
    | none =>
        cases hoptional : memberSpecs.optional[name]? with
        | some range => exact ⟨_, _, rfl⟩
        | none =>
            rw [BTreeMap.mem_iff_exists, Std.ExtTreeMap.getElem?_union, hrequired,
              hoptional] at hname
            obtain ⟨_, hname⟩ := hname
            cases hname
  obtain ⟨place, range, hdeclared⟩ := hdeclared
  have hmarks := foldlM_nameStep_marks (nameSpecs_of_collect hok name)
    (List.mem_map.mpr ⟨member, hmember, hdeclared⟩)
  rw [Std.ExtTreeMap.mem_union_iff, Std.ExtTreeMap.mem_iff_isSome_getElem?,
    Std.ExtTreeMap.mem_iff_isSome_getElem?]
  exact hmarks

/-- Visiting a member with an optional declaration first puts the name there for
good, so that another member's requirement leaves it in both maps. -/
theorem CollectsAlike.one_section (h : CollectsAlike S files workspace includeDev overrides)
    {order : List Project} {specs : RootSpecSet} (horder : order.Perm workspace.projects)
    (hok : collectInOrder S files workspace includeDev overrides order = .ok specs)
    {member other : Project} (hmember : member ∈ workspace.projects)
    (hother : other ∈ workspace.projects) {name : String} {range range' : Option String}
    (hrequires :
      declared S files workspace includeDev overrides name member = some (.required, range)) :
    declared S files workspace includeDev overrides name other ≠ some (.optional, range') := by
  intro hoptional
  obtain ⟨before, after, hsplit⟩ := List.append_of_mem hother
  have hfirst : (other :: (before ++ after)).Perm workspace.projects := by
    rw [hsplit]
    exact List.perm_middle.symm
  have hrest : member ∈ before ++ after := by
    refine (List.mem_cons.mp (hfirst.mem_iff.mpr hmember)).resolve_left fun heq => ?_
    rw [heq, hoptional] at hrequires
    cases hrequires
  have hok' := (h order specs horder hok).2.1 _ hfirst
  have hfold := nameSpecs_of_collect hok' name
  rw [List.map_cons, List.foldlM_cons, hoptional, nameStep, nameOptional, if_neg (by simp)] at hfold
  obtain ⟨next, hnext, hfold⟩ := Option.bind_eq_some_iff.mp hfold
  obtain ⟨merged, -, rfl⟩ := Option.map_eq_some_iff.mp hnext
  obtain ⟨-, hkept, hmark⟩ := foldlM_nameStep_keeps hfold
  have hdisjoint := (h order specs horder hok).1 name
  rw [Std.ExtTreeMap.mem_iff_isSome_getElem?, Std.ExtTreeMap.mem_iff_isSome_getElem?] at hdisjoint
  exact hdisjoint (hmark range (List.mem_map.mpr ⟨member, hrest, hrequires⟩)) (hkept rfl)

theorem CollectsAlike.one_merge (h : CollectsAlike S files workspace includeDev overrides)
    {start : List Project} {specs : RootSpecSet} (hstart : start.Perm workspace.projects)
    (hok : collectInOrder S files workspace includeDev overrides start = .ok specs)
    (name : String) {order : List Project} (horder : order.Perm workspace.projects) :
    mergeRanges S (declaredRanges S files workspace includeDev overrides name order) =
      mergeRanges S (declaredRanges S files workspace includeDev overrides name
        workspace.projects) := by
  have hall : ∀ order' : List Project, order'.Perm workspace.projects →
      (order'.map (declared S files workspace includeDev overrides name)).foldlM (nameStep S)
        ⟨none, none⟩ = some (specs.at name) :=
    fun order' horder' => nameSpecs_of_collect ((h start specs hstart hok).2.1 order' horder') name
  have hself := List.Perm.refl workspace.projects
  by_cases hrequired : ∃ member ∈ workspace.projects, ∃ range,
      declared S files workspace includeDev overrides name member = some (.required, range)
  · obtain ⟨member, hmember, range, hdeclared⟩ := hrequired
    have hmerge : ∀ order', order'.Perm workspace.projects →
        mergeRanges S (declaredRanges S files workspace includeDev overrides name order') =
          some (specs.at name).required := by
      intro order' horder'
      have hfold := hall order' horder'
      rw [foldlM_nameStep_required, filterMap_declared] at hfold
      · obtain ⟨required, hmerged, heq⟩ := Option.map_eq_some_iff.mp hfold
        rw [← congrArg NameSpecs.required heq]
        exact hmerged
      · intro range' hmem
        obtain ⟨other, hother, heq⟩ := List.mem_map.mp hmem
        exact h.one_section hstart hok hmember (horder'.mem_iff.mp hother) hdeclared heq
    rw [hmerge order horder, hmerge _ hself]
  · have hmerge : ∀ order', order'.Perm workspace.projects →
        mergeRanges S (declaredRanges S files workspace includeDev overrides name order') =
          some (specs.at name).optional := by
      intro order' horder'
      have hfold := hall order' horder'
      rw [foldlM_nameStep_optional, filterMap_declared] at hfold
      · obtain ⟨optional, hmerged, heq⟩ := Option.map_eq_some_iff.mp hfold
        rw [← congrArg NameSpecs.optional heq]
        exact hmerged
      · intro range hmem
        obtain ⟨member, hmember, heq⟩ := List.mem_map.mp hmem
        exact hrequired ⟨member, horder'.mem_iff.mp hmember, range, heq⟩
    rw [hmerge order horder, hmerge _ hself]

end Order

/-- One member has `a` as an optional dependency and another requires it. -/
def twoSections : Workspace where
  root := "/ws"
  projects :=
    [⟨"/ws/web", "/ws/web/package.json", { Manifest.empty with
        optionalDependencies := BTreeMap.collect [("a", "^1.0.0")] }⟩,
      ⟨"/ws/api", "/ws/api/package.json", { Manifest.empty with
        dependencies := BTreeMap.collect [("a", "^1.0.0")] }⟩]
  config := ⟨∅, ∅, [], [], none, none⟩

end Snpm.Install
