import Mathlib
import Snpm.Linker.Layout
import Snpm.Linker.Link

/-!
The root `node_modules` over sequences of installs. What a successful install leaves
under a name is what its own graph asks for there, whatever earlier installs of other
graphs and modes left, failed ones included.
-/
namespace Snpm.Linker

open LinkTree

variable {H : Digest.Hash} {S : SemverCrate} {input last : LinkInput} {disk : Disk}
  {name : String} {id : PackageId}

/-- The package that an install leaves under a name: a hoisted one before a selected
root. -/
def expectedPackage (input : LinkInput) (name : String) : Option PackageId :=
  (hoistPick (hoistingMode input) input.graph name).or
    (((selectedRoots input).find? (·.1 = name)).map (·.2.resolved))

/-- The disk after a sequence of links, failed ones included. -/
def runLinks (H : Digest.Hash) (S : SemverCrate) (installs : List LinkInput) (disk : Disk) : Disk :=
  installs.foldl (fun disk input => (link H S input disk).2) disk

theorem populate_nodeModule (input : PopulateInput) (disk : Disk) (name : String) :
    (populateVirtualStore H S input disk).2 (.nodeModule name) = disk (.nodeModule name) := by
  have hshared : (populateSharedVirtualStoreForPackages H S input disk).2 (.nodeModule name) =
      disk (.nodeModule name) :=
    runAll_other (populateSharedPackage_local input) fun id hid => by simp [sharedLocation]
  simp only [populateVirtualStore]
  split
  next => exact hshared
  next =>
      refine Eq.trans (runAll_other (populatePackage_local input) fun id hid => ?_) hshared
      simp

/-- A name is left as it was, free, or linked into the virtual store. -/
def Handled (name : String) (before after : Disk) : Prop :=
  after (.nodeModule name) = before (.nodeModule name) ∨ after (.nodeModule name) = none ∨
    ∃ id, after (.nodeModule name) = some (.link (.view id))

theorem Handled.refl (name : String) (disk : Disk) : Handled name disk disk := .inl rfl

theorem Handled.trans {first second third : Disk} (h : Handled name first second)
    (h' : Handled name second third) : Handled name first third := by
  cases h' with
  | inl hsame =>
      simp only [Handled, hsame]
      exact h
  | inr hdone => exact .inr hdone

/-- A batch of tasks on different names handles every name if its tasks do. -/
theorem handled_runAll {K : Type} {task : Disk → K → Result Unit × Disk} {nameOf : K → String}
    (hlocal : Local task fun k => .nodeModule (nameOf k)) {ks : List K}
    (htask : ∀ disk k, Handled (nameOf k) disk (task disk k).2) (disk : Disk) (name : String) :
    Handled name disk (runAll task ks disk).2 := by
  induction ks generalizing disk with
  | nil => exact .refl name disk
  | cons k ks ih =>
      refine Handled.trans ?_ (ih (task disk k).2)
      by_cases hname : name = nameOf k
      · rw [hname]
        exact htask disk k
      · exact .inl (hlocal disk k _ fun heq => hname (Loc.nodeModule.inj heq))

theorem populate_handled (H : Digest.Hash) (S : SemverCrate) (input : PopulateInput) (disk : Disk)
    (name : String) : Handled name disk (populateVirtualStore H S input disk).2 :=
  .inl (populate_nodeModule input disk name)

variable (input) in
theorem prune_handled (keep : List String) (disk : Disk) (name : String) :
    Handled name disk (pruneStaleRootEntries input keep disk) := by
  simp only [Handled, pruneStaleRootEntries]
  split
  next => exact .inr (.inl rfl)
  next => exact .inl rfl

section Symlinks

variable (hsymlinks : input.symlinks = true)

include hsymlinks

theorem relink_link (disk : Disk) (target loc : Loc) :
    (relink input.toPopulateInput disk target loc).2 loc = some (.link target) := by
  simp only [relink, linkOrCopy, hsymlinks, if_true]
  split
  next hcorrect =>
      simp only [symlinkIsCorrect, Bool.and_eq_true, decide_eq_true_eq] at hcorrect
      exact hcorrect.1
  next => exact write_self _ _ _

theorem linkNodeModule_handled (missing : SnpmError) (disk : Disk) (name : String)
    (id : PackageId) : Handled name disk (linkNodeModule input missing disk name id).2 := by
  simp only [linkNodeModule]
  split
  next => exact .inl rfl
  next target hpath =>
      simp only [projectPaths, Option.ite_none_right_eq_some, Option.some.injEq] at hpath
      refine .inr (.inr ⟨id, ?_⟩)
      rw [hpath.2]
      exact relink_link hsymlinks disk target _

theorem linkNodeModule_link {missing : SnpmError}
    (h : (linkNodeModule input missing disk name id).1 = .ok ()) :
    (linkNodeModule input missing disk name id).2 (.nodeModule name) =
      some (.link (.view id)) := by
  simp only [linkNodeModule] at h ⊢
  split at h
  next => cases h
  next target hpath =>
      simp only [projectPaths, Option.ite_none_right_eq_some, Option.some.injEq] at hpath
      rw [hpath.2]
      exact relink_link hsymlinks disk target _

theorem linkRootDependencies_handled (roots : List (String × RootDependency)) (disk : Disk)
    (name : String) : Handled name disk (linkRootDependencies input roots disk).2 :=
  handled_runAll (linkRootDependency_local input)
    (fun disk r => linkNodeModule_handled hsymlinks _ disk r.1 r.2.resolved) disk name

theorem hoistPackages_handled (mode : HoistingMode) (disk : Disk) (name : String) :
    Handled name disk (hoistPackages input mode disk).2 := by
  simp only [hoistPackages]
  split
  next => exact .refl name disk
  next =>
      exact handled_runAll (linkHoistedPackage_local input)
        (fun disk h => linkNodeModule_handled hsymlinks _ disk h.1 h.2) disk name

/-- An install handles every name, however it ends. -/
theorem link_handled (H : Digest.Hash) (S : SemverCrate) (disk : Disk) (name : String) :
    Handled name disk (link H S input disk).2 := by
  simp only [link]
  split
  next => exact .refl name disk
  next =>
      have hpopulated := populate_handled H S input.toPopulateInput disk name
      split
      next => exact hpopulated
      next =>
          have hpruned := hpopulated.trans
            (prune_handled input ((selectedRoots input).map (·.1)) _ name)
          have hroots := hpruned.trans
            (linkRootDependencies_handled hsymlinks (selectedRoots input) _ name)
          split
          next => exact hroots
          next =>
              split
              next => exact hroots
              next => exact hroots.trans (hoistPackages_handled hsymlinks (hoistingMode input) _ name)

end Symlinks

theorem runLinks_handled {installs : List LinkInput}
    (hsymlinks : ∀ input ∈ installs, input.symlinks = true) (disk : Disk) (name : String) :
    Handled name disk (runLinks H S installs disk) := by
  induction installs generalizing disk with
  | nil => exact .refl name disk
  | cons input installs ih =>
      have hfirst := link_handled (hsymlinks input List.mem_cons_self) H S disk name
      exact hfirst.trans (ih (fun i hi => hsymlinks i (List.mem_cons_of_mem _ hi)) _)

/-- A successful link: which disk the roots are linked in. -/
theorem link_ok_pruned (hok : (link H S input disk).1 = .ok ()) :
    (linkRootDependencies input (selectedRoots input)
        (pruneStaleRootEntries input ((selectedRoots input).map (·.1))
          (populateVirtualStore H S input.toPopulateInput disk).2)).1 = .ok () ∧
      link H S input disk = hoistPackages input (hoistingMode input)
        (linkRootDependencies input (selectedRoots input)
          (pruneStaleRootEntries input ((selectedRoots input).map (·.1))
            (populateVirtualStore H S input.toPopulateInput disk).2)).2 := by
  simp only [link] at hok ⊢
  cases hcreate : input.createError with
  | some error => simp [hcreate] at hok
  | none =>
      simp only [hcreate] at hok ⊢
      cases hpopulated : (populateVirtualStore H S input.toPopulateInput disk).1 with
      | error error => simp [hpopulated] at hok
      | ok u =>
          simp only [hpopulated] at hok ⊢
          cases hlinked : (linkRootDependencies input (selectedRoots input)
              (pruneStaleRootEntries input ((selectedRoots input).map (·.1))
                (populateVirtualStore H S input.toPopulateInput disk).2)).1 with
          | error error => simp [hlinked] at hok
          | ok u =>
              refine ⟨rfl, ?_⟩
              simp only
              split
              next hmode => simp [hoistPackages, hmode]
              next => rfl

theorem linkRootDependencies_link (hsymlinks : input.symlinks = true)
    (hok : (linkRootDependencies input (selectedRoots input) disk).1 = .ok ())
    {r : String × RootDependency} (hr : r ∈ selectedRoots input) :
    (linkRootDependencies input (selectedRoots input) disk).2 (.nodeModule r.1) =
      some (.link (.view r.2.resolved)) := by
  obtain ⟨before, _, _, hfinal, hresult⟩ := runAll_at (linkRootDependency_local input)
    (selectedRoots_nodup input) hr
  exact hfinal.trans (linkNodeModule_link hsymlinks (hresult hok))

theorem hoistPackages_link {mode : HoistingMode} (hsymlinks : input.symlinks = true)
    (hok : (hoistPackages input mode disk).1 = .ok ())
    (hpick : hoistPick mode input.graph name = some id) :
    (hoistPackages input mode disk).2 (.nodeModule name) = some (.link (.view id)) := by
  simp only [hoistPackages] at hok ⊢
  split at hok
  next hmode =>
      rw [hmode] at hpick
      cases hpick
  next hmode =>
      obtain ⟨before, _, _, hfinal, hresult⟩ := runAll_at (linkHoistedPackage_local input)
        (toHoist_nodup mode input.graph) (mem_toHoist.mpr hpick)
      rw [if_neg hmode]
      exact hfinal.trans (linkNodeModule_link hsymlinks (hresult hok))

/-- What a successful install leaves under a name that it is asked for. -/
theorem link_at_expected (hsymlinks : input.symlinks = true)
    (hok : (link H S input disk).1 = .ok ()) (hexpected : expectedPackage input name = some id) :
    (link H S input disk).2 (.nodeModule name) = some (.link (.view id)) := by
  have hpruned := link_ok_pruned hok
  rw [hpruned.2] at hok ⊢
  cases hpick : hoistPick (hoistingMode input) input.graph name with
  | some hoisted =>
      simp only [expectedPackage, hpick, Option.some_or, Option.some.injEq] at hexpected
      rw [← hexpected]
      exact hoistPackages_link hsymlinks hok hpick
  | none =>
      simp only [expectedPackage, hpick, Option.none_or, Option.map_eq_some_iff] at hexpected
      obtain ⟨r, hfound, hresolved⟩ := hexpected
      have hname : r.1 = name := by simpa using List.find?_some hfound
      have hlink := linkRootDependencies_link hsymlinks hpruned.1 (List.mem_of_find?_eq_some hfound)
      rw [(hoistPackages_leadsTo hok name).2 hpick, ← hresolved, ← hname]
      exact hlink

/-- What a successful install leaves under a name that it is not asked for. -/
theorem link_at_unexpected (hok : (link H S input disk).1 = .ok ())
    (hexpected : expectedPackage input name = none) :
    (link H S input disk).2 (.nodeModule name) =
      if isStale input [] disk name then none else disk (.nodeModule name) := by
  have hpruned := link_ok_pruned hok
  rw [hpruned.2] at hok ⊢
  simp only [expectedPackage, Option.or_eq_none_iff, Option.map_eq_none_iff,
    List.find?_eq_none, decide_eq_true_eq] at hexpected
  have hroots : ∀ r ∈ selectedRoots input, Loc.nodeModule name ≠ .nodeModule r.1 :=
    fun r hr heq => hexpected.2 r hr (Loc.nodeModule.inj heq).symm
  have hkeep : ((selectedRoots input).map (·.1)).contains name = false := by
    simp only [List.contains_eq_mem, decide_eq_false_iff_not, List.mem_map]
    rintro ⟨r, hr, hname⟩
    exact hexpected.2 r hr hname
  rw [(hoistPackages_leadsTo hok name).2 hexpected.1, linkRootDependencies,
    runAll_other (linkRootDependency_local input) hroots]
  simp only [pruneStaleRootEntries, isStale, populate_nodeModule, hkeep]
  rfl

/-- After a successful install, whatever was installed before: a name that the graph
asks for is a link to its package, and no other name is a link into a virtual store.
What is there besides has been there from the beginning. -/
theorem link_converges {installs : List LinkInput}
    (hsymlinks : ∀ input ∈ installs ++ [last], input.symlinks = true)
    (hok : (link H S last (runLinks H S installs disk)).1 = .ok ()) (name : String) :
    (∀ id, expectedPackage last name = some id →
      (link H S last (runLinks H S installs disk)).2 (.nodeModule name) =
        some (.link (.view id))) ∧
    (expectedPackage last name = none → isListed name = true →
      (link H S last (runLinks H S installs disk)).2 (.nodeModule name) = none ∨
      ((link H S last (runLinks H S installs disk)).2 (.nodeModule name) =
          disk (.nodeModule name) ∧
        ∀ target, disk (.nodeModule name) = some (.link target) →
          leadsIntoVirtualStore last target = false)) := by
  have hlast := hsymlinks last (by simp)
  refine ⟨fun id hexpected => link_at_expected hlast hok hexpected, fun hexpected hlisted => ?_⟩
  have hafter := link_at_unexpected hok hexpected
  have hbefore := runLinks_handled (H := H) (S := S)
    (fun i hi => hsymlinks i (List.mem_append_left _ hi)) disk name
  rw [hafter]
  split
  next => exact .inl rfl
  next hkept =>
      simp only [isStale, hlisted, List.contains_nil, Bool.not_false, Bool.true_and] at hkept
      cases hbefore with
      | inr hmade =>
          cases hmade with
          | inl hnone => exact .inl hnone
          | inr hlink =>
              obtain ⟨id, hlink⟩ := hlink
              rw [hlink] at hkept
              exact absurd rfl hkept
      | inl hsame =>
          refine .inr ⟨hsame, fun target htarget => ?_⟩
          rw [hsame, htarget] at hkept
          exact Bool.eq_false_iff.mpr hkept

/-- The first project without its dependency on `foo`, and without hoisting. -/
def linkWithoutFoo : LinkInput where
  toPopulateInput := { (linkTwoVersions .none).toPopulateInput with
    graph := { twoVersions with root := ⟨BTreeMap.collect [("a", ⟨"^1.0.0", pkgA⟩)]⟩ } }
  project := (linkTwoVersions .none).project
  includeDev := true
  createError := none
  inVirtualStore _ := false

theorem link_converges_withoutFoo :
    (link Digest.unaryHash releaseCrate linkWithoutFoo
      (runLinks Digest.unaryHash releaseCrate [linkTwoVersions .all] fun _ => none)).2
        (.nodeModule "a") = some (.link (.view pkgA)) ∧
    (link Digest.unaryHash releaseCrate linkWithoutFoo
      (runLinks Digest.unaryHash releaseCrate [linkTwoVersions .all] fun _ => none)).2
        (.nodeModule "foo") = none := by
  have hsymlinks : ∀ input ∈ [linkTwoVersions .all] ++ [linkWithoutFoo], input.symlinks = true := by
    simp [linkTwoVersions, linkWithoutFoo]
  have hok : (link Digest.unaryHash releaseCrate linkWithoutFoo
      (runLinks Digest.unaryHash releaseCrate [linkTwoVersions .all] fun _ => none)).1 = .ok () := by
    decide +kernel
  have hfoo := (link_converges hsymlinks hok "foo").2 (by decide +kernel) (by decide +kernel)
  refine ⟨(link_converges hsymlinks hok "a").1 pkgA (by decide +kernel), ?_⟩
  cases hfoo with
  | inl hnone => exact hnone
  | inr hkept => exact hkept.1

end Snpm.Linker
