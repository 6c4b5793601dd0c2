import Mathlib
import Snpm.Store.Race

/-!
When the interleaved calls keep the package directory whole. A call that unpacks
in place must be alone with the directory: no other call may rename onto it or
remove it meanwhile. If no step disturbs another call in this way, a marked
directory is complete and stays so; if one does, a marked directory can be
partial, and a failing call can remove what another one completed.
-/
namespace Snpm.Store.Race

section Trees

variable {tree tree' : Tree} {items : List Item}

@[simp] theorem get_set_self (tree : Tree) (p : Place) (entry : Entry) :
    (tree.set p entry).get p = some entry := by
  simp [Tree.set, Tree.get]

theorem get_set_other (tree : Tree) (entry : Entry) {p q : Place} (h : q ≠ p) :
    (tree.set p entry).get q = tree.get q := by
  have hne : (q == p) = false := by simpa using h
  simp [Tree.set, Tree.get, List.lookup, hne]

theorem get_keep (tree : Tree) (kept : Place → Bool) (p : Place) :
    (tree.keep kept).get p = if kept p then tree.get p else none := by
  induction tree with
  | nil => simp [Tree.keep, Tree.get]
  | cons e tree ih =>
      have hcons : (Tree.keep (e :: tree) kept) =
          if kept e.1 then e :: Tree.keep tree kept else Tree.keep tree kept := by
        simp [Tree.keep, List.filter_cons]
      cases heq : p == e.1 with
      | true =>
          have hp : p = e.1 := by simpa using heq
          subst hp
          rw [hcons]
          split
          · simp [Tree.get, List.lookup]
          · rename_i hkept
            rw [ih, if_neg hkept]
      | false =>
          have hget : ∀ l : Tree, Tree.get (e :: l) p = Tree.get l p := by
            intro l
            simp [Tree.get, List.lookup, heq]
          rw [hcons, hget, ← ih]
          split
          · exact hget _
          · rfl

theorem marked_keep {kept : Place → Bool} (h : tree.marked = false) :
    (tree.keep kept).marked = false := by
  unfold Tree.marked at h ⊢
  rw [get_keep]
  cases kept markerPlace with
  | true => exact h
  | false => rfl

/-- Marking depends on the entry at the marker's place only. -/
theorem marked_congr (h : tree'.get markerPlace = tree.get markerPlace) :
    tree'.marked = tree.marked := by
  simp only [Tree.marked, h]

theorem marked_of_dir (h : tree.get markerPlace = some .dir) : tree.marked = false := by
  simp [Tree.marked, h]

theorem mkdirs_get {base path : Place} (h : mkdirs tree base path = some tree') (p : Place) :
    tree'.get p = tree.get p ∨ (tree.get p = none ∧ tree'.get p = some .dir) := by
  induction path generalizing tree base with
  | nil =>
      cases h
      exact .inl rfl
  | cons name rest ih =>
      unfold mkdirs at h
      split at h
      · rename_i hnone
        cases decEq p (base ++ [name]) with
        | isTrue heq =>
            subst heq
            right
            refine ⟨hnone, ?_⟩
            cases ih h with
            | inl hsame => rw [hsame, get_set_self]
            | inr hnew => exact hnew.2
        | isFalse hne =>
            have hrest := ih h
            rwa [get_set_other _ _ hne] at hrest
      · exact ih h
      · cases h

theorem marked_mkdirs {path : Place} (h : mkdirs tree [] path = some tree')
    (hfree : tree.marked = false) : tree'.marked = false := by
  cases mkdirs_get h markerPlace with
  | inl hsame => rw [marked_congr hsame, hfree]
  | inr hdir => exact marked_of_dir hdir.2

theorem Contains.mkdirs {path : Place} (h : Contains items tree)
    (hmade : Race.mkdirs tree [] path = some tree') : Contains items tree' := by
  intro p content hcontent
  have hfile := h p content hcontent
  cases mkdirs_get hmade p with
  | inl hsame => rw [hsame, hfile]
  | inr hnew =>
      rw [hnew.1] at hfile
      cases hfile

theorem finalContent_dir (items : List Item) (path p : Place) :
    finalContent (items ++ [.dir path]) p = finalContent items p := by
  simp [finalContent]

theorem finalContent_file (items : List Item) (path p : Place) (content : Content) :
    finalContent (items ++ [.file path content]) p =
      if path = p then some content else finalContent items p := by
  simp [finalContent]

/-- No content is at a path that no file of the tarball has. -/
theorem finalContent_none {items : List Item} {p : Place}
    (h : ∀ content, Item.file p content ∉ items) : finalContent items p = none := by
  induction items using List.reverseRecOn with
  | nil => rfl
  | append_singleton items item ih =>
      have hitems : ∀ content, Item.file p content ∉ items :=
        fun content hmem => h content (List.mem_append_left _ hmem)
      cases item with
      | dir path => rw [finalContent_dir, ih hitems]
      | file path content =>
          have hne : path ≠ p := by
            intro heq
            subst heq
            exact h content (List.mem_append_right _ List.mem_cons_self)
          rw [finalContent_file, if_neg hne, ih hitems]

theorem contains_nil (tree : Tree) : Contains [] tree := fun _ _ h => by cases h

end Trees

section Invariant

/-- What a tree holds while a call unpacks into it. -/
def Progressed (call : Nat) (tree : Tree) (done : List Item) : List Item → Progress → Prop
  | .file path _ :: _, .filling =>
      tree.get path = some (.writing call) ∧
        ∀ p content, finalContent done p = some content → p ≠ path →
          tree.get p = some (.file content)
  | _, _ => Contains done tree

/-- What holds of the directories in the phase of a call. -/
def CallOk (items : List Item) (call : Nat) (final staging : Option Tree) : Phase → Prop
  | .unpacking root done rest progress =>
      items = done ++ rest ∧ ∃ tree, rootTree final staging root = some tree ∧
        Progressed call tree done rest progress ∧ (root = .inPlace → tree.marked = false)
  | .renaming | .checking | .removing | .retrying =>
      ∃ tree, staging = some tree ∧ Contains items tree
  | .marking => ∃ tree, final = some tree ∧ Contains items tree
  | _ => True

def inPlace : Phase → Bool
  | .unpacking .inPlace _ _ _ => true
  | _ => false

/-- The phases between making the package directory and marking it. -/
def busy (phase : Phase) : Bool := inPlace phase || phase = .marking

structure Inv (items : List Item) (world : World) : Prop where
  marked : ∀ tree, world.final = some tree → tree.marked = true → Contains items tree
  calls : ∀ call, CallOk items call world.final (world.staging call) (world.phase call)
  alone : ∀ call other, inPlace (world.phase call) = true → other ≠ call →
    busy (world.phase other) = false

def removes : Phase → Action → Bool
  | .cleaning, .advance | .cleaning, .removeSome _ => true
  | .removing, .advance | .removing, .removeSome _ => true
  | _, _ => false

def renames (final : Option Tree) : Phase → Action → Bool
  | .renaming, .advance | .retrying, .advance => renameable final
  | _, _ => false

/-- A step that removes from the package directory although it is marked or
another call is busy with it, or that renames onto it while another call unpacks
in place. -/
def Disturbs (world : World) (call : Nat) (action : Action) : Prop :=
  (removes (world.phase call) action = true ∧
    (isMarked world.final = true ∨ ∃ other, other ≠ call ∧ busy (world.phase other) = true)) ∨
  (renames world.final (world.phase call) action = true ∧
    ∃ other, other ≠ call ∧ inPlace (world.phase other) = true)

variable {items : List Item} {call : Nat} {final staging : Option Tree}

theorem busy_of_inPlace {phase : Phase} (h : inPlace phase = true) : busy phase = true := by
  simp [busy, h]

section Unpack

variable {root : Root} {done rest : List Item} {progress : Progress} {tree : Tree}

theorem Progressed.contains (h : Progressed call tree done rest progress)
    (hprogress : progress ≠ .filling ∨ ∀ path content more, rest ≠ .file path content :: more) :
    Contains done tree := by
  unfold Progressed at h
  split at h
  · rename_i path content more
    cases hprogress with
    | inl hne => exact absurd rfl hne
    | inr hne => exact absurd rfl (hne path content more)
  · exact h

/-- An open file that is filled completes its entry. -/
theorem contains_fill {path : Place} {content : Content} {more : List Item}
    (h : Progressed call tree done (.file path content :: more) .filling) :
    Contains (done ++ [.file path content]) (fill tree call path content) := by
  obtain ⟨hopen, hothers⟩ := h
  intro p found hfound
  rw [finalContent_file] at hfound
  rw [fill, if_pos hopen]
  split at hfound
  · rename_i heq
    subst heq
    cases hfound
    exact get_set_self _ _ _
  · rename_i hne
    rw [get_set_other _ _ (Ne.symm hne)]
    exact hothers p found hfound (Ne.symm hne)

theorem openFile_some {path : Place} {tree' : Tree} (h : openFile tree call path = some tree') :
    tree' = tree.set path (.writing call) := by
  unfold openFile at h
  split at h
  · cases h
  · split at h
    · cases h
      rfl
    · cases h

/-- An operation on an entry of the tarball fails, finds no further entry, or
goes on. -/
theorem unpackStep_cases (hitems : items = done ++ rest)
    (hmarker : ∀ content, Item.file markerPlace content ∉ items)
    (hroot : rootTree final staging root = some tree)
    (h : Progressed call tree done rest progress) :
    unpackStep call final staging root done rest progress = failUnpacking final staging root ∨
    (Contains items tree ∧ unpackStep call final staging root done rest progress =
      ⟨if root = .inPlace then .marking else .renaming, final, staging⟩) ∨
    ∃ tree' done' rest' progress', unpackStep call final staging root done rest progress =
        withRoot final staging root tree' (.unpacking root done' rest' progress') ∧
      items = done' ++ rest' ∧ Progressed call tree' done' rest' progress' ∧
      (tree.marked = false → tree'.marked = false) := by
  unfold unpackStep
  rw [hroot]
  dsimp only [Option.getD_some]
  cases rest with
  | nil =>
      right
      left
      refine ⟨?_, rfl⟩
      rw [hitems, List.append_nil]
      exact h.contains (.inr nofun)
  | cons item rest =>
      cases item with
      | dir path =>
          have hdone : Contains done tree := h.contains (.inr nofun)
          dsimp only
          split
          · exact .inl rfl
          · rename_i made hmade
            refine .inr (.inr ⟨made, _, rest, .ready, rfl, by simp [hitems], ?_, marked_mkdirs hmade⟩)
            have hmade' : Contains (done ++ [.dir path]) made := by
              intro p content hcontent
              rw [finalContent_dir] at hcontent
              exact hdone.mkdirs hmade p content hcontent
            cases rest with
            | nil => exact hmade'
            | cons next rest => cases next <;> exact hmade'
      | file path content =>
          have hpath : path ≠ markerPlace := by
            intro heq
            subst heq
            exact hmarker content (hitems ▸ List.mem_append_right _ List.mem_cons_self)
          cases progress with
          | ready =>
              have hdone : Contains done tree := h.contains (.inl nofun)
              dsimp only
              split
              · exact .inl rfl
              · rename_i made hmade
                exact .inr (.inr ⟨made, done, _, .opening, rfl, hitems, hdone.mkdirs hmade,
                  marked_mkdirs hmade⟩)
          | opening =>
              have hdone : Contains done tree := h.contains (.inl nofun)
              dsimp only [Option.bind_some]
              split
              · exact .inl rfl
              · rename_i opened hopened
                have heq := openFile_some hopened
                subst heq
                refine .inr (.inr ⟨_, done, _, .filling, rfl, hitems, ⟨get_set_self _ _ _, ?_⟩, ?_⟩)
                · intro p found hfound hne
                  rw [get_set_other _ _ hne]
                  exact hdone p found hfound
                · intro hfree
                  rwa [marked_congr (get_set_other _ _ (Ne.symm hpath))]
          | filling =>
              refine .inr (.inr ⟨_, _, rest, .ready, rfl, by simp [hitems], ?_, ?_⟩)
              · have hfilled := contains_fill h
                cases rest with
                | nil => exact hfilled
                | cons next rest => cases next <;> exact hfilled
              · intro hfree
                have hopen : tree.get path = some (.writing call) := h.1
                rw [fill, if_pos hopen]
                rwa [marked_congr (get_set_other _ _ (Ne.symm hpath))]

end Unpack

/-- What a step of a call keeps, where `unpacks` and `works` say that another
call unpacks in place or is busy. -/
structure StepOk (items : List Item) (call : Nat) (unpacks works : Prop) (final : Option Tree)
    (outcome : Outcome) : Prop where
  own : CallOk items call outcome.final outcome.staging outcome.phase
  marked : ∀ tree, outcome.final = some tree → tree.marked = true → Contains items tree
  keeps : isMarked final = true → isMarked outcome.final = true
  others : outcome.final = final ∨ ¬ works ∨
    (¬ unpacks ∧ ∃ tree, outcome.final = some tree ∧ Contains items tree)
  alone : inPlace outcome.phase = true → ¬ works
  apart : busy outcome.phase = true → ¬ unpacks

/-- What a call can rely on before it takes a step. -/
structure Ready (items : List Item) (call : Nat) (unpacks works : Prop)
    (final staging : Option Tree) (phase : Phase) : Prop where
  own : CallOk items call final staging phase
  marked : ∀ tree, final = some tree → tree.marked = true → Contains items tree
  unpacks_works : unpacks → works
  unpacks_unmarked : unpacks → isMarked final = false
  works_final : works → final.isSome = true
  alone : inPlace phase = true → ¬ works
  apart : busy phase = true → ¬ unpacks

section StepOk

variable {unpacks works : Prop} {phase : Phase}

theorem isMarked_true : isMarked final = true ↔ ∃ tree, final = some tree ∧ tree.marked = true := by
  cases final <;> simp [isMarked]

theorem contains_setMarker {tree : Tree} {entry : Entry}
    (hmarker : ∀ content, Item.file markerPlace content ∉ items) (h : Contains items tree) :
    Contains items (tree.set markerPlace entry) := by
  intro p content hcontent
  have hne : p ≠ markerPlace := by
    intro heq
    subst heq
    rw [finalContent_none hmarker] at hcontent
    cases hcontent
  rw [get_set_other _ _ hne]
  exact h p content hcontent

/-- A step that leaves the package directory alone. -/
theorem Ready.idle (h : Ready items call unpacks works final staging phase) {next : Phase}
    {staging' : Option Tree} (hnext : busy next = false)
    (hown : CallOk items call final staging' next) :
    StepOk items call unpacks works final ⟨next, final, staging'⟩ where
  own := hown
  marked := h.marked
  keeps := id
  others := .inl rfl
  alone := by
    intro hplace
    rw [busy_of_inPlace hplace] at hnext
    cases hnext
  apart := by
    intro hbusy
    rw [hnext] at hbusy
    cases hbusy

/-- A step of a call that is alone with the directory. -/
theorem Ready.alone_step (h : Ready items call unpacks works final staging phase)
    (halone : ¬ works) {outcome : Outcome}
    (hown : CallOk items call outcome.final outcome.staging outcome.phase)
    (hmarked : ∀ tree, outcome.final = some tree → tree.marked = true → Contains items tree)
    (hkeeps : isMarked final = true → isMarked outcome.final = true) :
    StepOk items call unpacks works final outcome where
  own := hown
  marked := hmarked
  keeps := hkeeps
  others := .inr (.inl halone)
  alone := fun _ => halone
  apart := fun _ hunpacks => halone (h.unpacks_works hunpacks)

theorem Ready.failUnpacking (h : Ready items call unpacks works final staging phase) (root : Root) :
    StepOk items call unpacks works final (failUnpacking final staging root) := by
  cases root with
  | inPlace => exact h.idle rfl trivial
  | staged => exact h.idle rfl trivial

/-- Unpacking goes on in the tree it works on. -/
theorem Ready.withRoot (h : Ready items call unpacks works final staging phase) {root : Root}
    {tree : Tree} {done rest : List Item} {progress : Progress}
    (halone : root = .inPlace → ¬ works ∧ isMarked final = false ∧ tree.marked = false)
    (hitems : items = done ++ rest) (hprogress : Progressed call tree done rest progress) :
    StepOk items call unpacks works final
      (withRoot final staging root tree (.unpacking root done rest progress)) := by
  cases root with
  | inPlace =>
      have ⟨hworks, hunmarked, hfree⟩ := halone rfl
      refine h.alone_step hworks ⟨hitems, tree, rfl, hprogress, fun _ => hfree⟩ ?_ ?_
      · intro found hfound hmarked
        cases hfound
        rw [hfree] at hmarked
        cases hmarked
      · intro hmarked
        rw [hunmarked] at hmarked
        cases hmarked
  | staged => exact h.idle rfl ⟨hitems, tree, rfl, hprogress, nofun⟩

theorem contains_progressed (tree : Tree) : Progressed call tree [] items .ready := by
  cases items with
  | nil => exact contains_nil tree
  | cons item rest => cases item <;> exact contains_nil tree

theorem Ready.startUnpacking (h : Ready items call unpacks works final staging phase) {root : Root}
    (hroot : root = .inPlace → final = none) :
    StepOk items call unpacks works final (startUnpacking items final staging root) := by
  refine h.withRoot ?_ rfl (contains_progressed [])
  intro hplace
  have hnone := hroot hplace
  refine ⟨?_, by simp [hnone, isMarked], rfl⟩
  intro hworks
  have hsome := h.works_final hworks
  rw [hnone] at hsome
  cases hsome

theorem Ready.unpackStep {root : Root} {done rest : List Item} {progress : Progress}
    (hmarker : ∀ content, Item.file markerPlace content ∉ items)
    (h : Ready items call unpacks works final staging (.unpacking root done rest progress)) :
    StepOk items call unpacks works final
      (unpackStep call final staging root done rest progress) := by
  have ⟨hitems, tree, hroot, hprogress, hfree⟩ := h.own
  have hunmarked : root = .inPlace → isMarked final = false := by
    intro hplace
    have hunmarked := hfree hplace
    subst hplace
    have hfinal : final = some tree := hroot
    simp [isMarked, hfinal, hunmarked]
  have halone : root = .inPlace → ¬ works := by
    intro hplace
    subst hplace
    exact h.alone rfl
  cases unpackStep_cases hitems hmarker hroot hprogress with
  | inl hfail =>
      rw [hfail]
      exact h.failUnpacking root
  | inr hgoes =>
      cases hgoes with
      | inl hdone =>
          rw [hdone.2]
          cases root with
          | inPlace => exact h.alone_step (halone rfl) ⟨tree, hroot, hdone.1⟩ h.marked id
          | staged => exact h.idle rfl ⟨tree, hroot, hdone.1⟩
      | inr hnext =>
          have ⟨made, done', rest', progress', heq, hitems', hmade, hkept⟩ := hnext
          rw [heq]
          refine h.withRoot ?_ hitems' hmade
          intro hplace
          exact ⟨halone hplace, hunmarked hplace, hkept (hfree hplace)⟩

/-- The rename of a complete tree, where no other call unpacks in place. -/
theorem Ready.renameStep (h : Ready items call unpacks works final staging phase)
    {otherwise : Outcome} (hstaged : ∃ tree, staging = some tree ∧ Contains items tree)
    (hquiet : renameable final = true → ¬ unpacks)
    (hother : StepOk items call unpacks works final otherwise) :
    StepOk items call unpacks works final (renameStep final staging otherwise) := by
  have ⟨tree, hstaging, hcontains⟩ := hstaged
  unfold Race.renameStep
  split
  · rename_i hempty
    subst hstaging
    refine ⟨⟨tree, rfl, hcontains⟩, ?_, ?_, .inr (.inr ⟨hquiet hempty, tree, rfl, hcontains⟩),
      nofun, fun _ => hquiet hempty⟩
    · intro found hfound _
      cases hfound
      exact hcontains
    · intro hmarked
      have ⟨old, hold, hoccupied⟩ := isMarked_true.mp hmarked
      subst hold
      have hnil : old = [] := by simpa [renameable] using hempty
      subst hnil
      cases hoccupied
  · exact hother

theorem Ready.markStep (hmarker : ∀ content, Item.file markerPlace content ∉ items)
    (h : Ready items call unpacks works final staging .marking) :
    StepOk items call unpacks works final (markStep final staging) := by
  have ⟨tree, hfinal, hcontains⟩ := h.own
  subst hfinal
  dsimp only [Race.markStep]
  split
  · exact h.idle rfl trivial
  · have hset : Contains items (tree.set markerPlace (.file [])) :=
      contains_setMarker hmarker hcontains
    refine ⟨trivial, ?_, ?_, .inr (.inr ⟨h.apart rfl, _, rfl, hset⟩), nofun, nofun⟩
    · intro found hfound _
      cases hfound
      exact hset
    · intro _
      simp [isMarked, Tree.marked]

/-- Removing from a directory that is not marked and that no other call is busy
with. -/
theorem Ready.remove (h : Ready items call unpacks works final staging phase) {next : Phase}
    {final' : Option Tree} (hquiet : isMarked final = false ∧ ¬ works)
    (hfinal : isMarked final' = false) (hown : CallOk items call final' staging next) :
    StepOk items call unpacks works final ⟨next, final', staging⟩ := by
  refine h.alone_step hquiet.2 hown ?_ ?_
  · intro tree htree hmarked
    have hisMarked := isMarked_true.mpr ⟨tree, htree, hmarked⟩
    rw [hfinal] at hisMarked
    cases hisMarked
  · intro hmarked
    rw [hquiet.1] at hmarked
    cases hmarked

theorem isMarked_keep {kept : Place → Bool} (h : isMarked final = false) :
    isMarked (final.map (·.keep kept)) = false := by
  cases final with
  | none => rfl
  | some tree => exact marked_keep (by simpa [isMarked] using h)

/-- What an undisturbed step may do, by the phase of its call. -/
theorem Ready.step {remote : Bool} {action : Action} {outcome : Outcome}
    (hmarker : ∀ content, Item.file markerPlace content ∉ items)
    (h : Ready items call unpacks works final staging phase)
    (hremoves : removes phase action = true → isMarked final = false ∧ ¬ works)
    (hrenames : renames final phase action = true → ¬ unpacks)
    (hstep : Race.step items remote call final staging phase action = some outcome) :
    StepOk items call unpacks works final outcome := by
  unfold Race.step at hstep
  split at hstep
  -- the tests before anything is made
  · cases hstep
    split
    · exact h.idle rfl trivial
    · exact h.idle rfl trivial
  · cases hstep
    split
    · exact h.idle rfl trivial
    · exact h.idle rfl trivial
  · cases hstep
    split
    · exact h.idle rfl trivial
    · rename_i hnone
      exact h.startUnpacking fun _ => by simpa using hnone
  · cases hstep
    exact h.startUnpacking nofun
  -- unpacking, and the clean-up after it fails
  · cases hstep
    exact h.unpackStep hmarker
  · cases hstep
    exact h.failUnpacking _
  · cases hstep
    exact h.remove (hremoves rfl) rfl trivial
  · cases hstep
    exact h.remove (hremoves rfl) (isMarked_keep (hremoves rfl).1) trivial
  -- the staged tree takes its place
  · cases hstep
    exact h.renameStep h.own hrenames (h.idle rfl h.own)
  · cases hstep
    exact h.idle rfl h.own
  · cases hstep
    split
    · rename_i hmarked
      have ⟨tree, hfinal, htree⟩ := isMarked_true.mp hmarked
      refine ⟨⟨tree, hfinal, h.marked tree hfinal htree⟩, h.marked, id, .inl rfl, nofun, ?_⟩
      intro _ hunpacks
      rw [h.unpacks_unmarked hunpacks] at hmarked
      cases hmarked
    · exact h.idle rfl h.own
  · cases hstep
    exact h.remove (hremoves rfl) rfl h.own
  · cases hstep
    exact h.remove (hremoves rfl) (isMarked_keep (hremoves rfl).1) h.own
  · cases hstep
    exact h.idle rfl h.own
  · cases hstep
    exact h.renameStep h.own hrenames (h.idle rfl trivial)
  · cases hstep
    exact h.idle rfl trivial
  · cases hstep
    exact h.markStep hmarker
  · cases hstep
    exact h.idle rfl trivial
  · cases hstep
    exact h.idle rfl trivial
  · cases hstep
    exact h.idle rfl trivial
  · cases hstep
    exact h.idle rfl trivial
  · cases hstep
    exact h.idle rfl trivial
  · cases hstep

end StepOk

section Runs

variable {world world' : World} {remote : Bool} {action : Action} {schedule : Schedule}

/-- Another call unpacks in place. -/
def World.Unpacks (world : World) (call : Nat) : Prop :=
  ∃ other, other ≠ call ∧ inPlace (world.phase other) = true

/-- Another call is busy with the package directory. -/
def World.Works (world : World) (call : Nat) : Prop :=
  ∃ other, other ≠ call ∧ busy (world.phase other) = true

theorem isMarked_false_of {tree : Tree} (hfinal : final = some tree) (h : tree.marked = false) :
    isMarked final = false := by
  simp [isMarked, hfinal, h]

/-- The directory that a call unpacks into in place. -/
theorem CallOk.inPlace {phase : Phase} (h : CallOk items call final staging phase)
    (hplace : inPlace phase = true) : ∃ tree, final = some tree ∧ tree.marked = false := by
  unfold Race.inPlace at hplace
  split at hplace
  · have ⟨_, tree, hroot, _, hfree⟩ := h
    exact ⟨tree, hroot, hfree rfl⟩
  · cases hplace

theorem CallOk.busy {phase : Phase} (h : CallOk items call final staging phase)
    (hbusy : busy phase = true) : final.isSome = true := by
  cases hplace : Race.inPlace phase with
  | true =>
      have ⟨tree, hfinal, _⟩ := h.inPlace hplace
      simp [hfinal]
  | false =>
      have hmarking : phase = .marking := by simpa [Race.busy, hplace] using hbusy
      subst hmarking
      have ⟨tree, hfinal, _⟩ := h
      simp [hfinal]

theorem Inv.ready (h : Inv items world) (call : Nat) :
    Ready items call (world.Unpacks call) (world.Works call) world.final (world.staging call)
      (world.phase call) where
  own := h.calls call
  marked := h.marked
  unpacks_works := by
    intro ⟨other, hne, hplace⟩
    exact ⟨other, hne, busy_of_inPlace hplace⟩
  unpacks_unmarked := by
    intro ⟨other, _, hplace⟩
    have ⟨_, hfinal, hfree⟩ := (h.calls other).inPlace hplace
    exact isMarked_false_of hfinal hfree
  works_final := by
    intro ⟨other, _, hbusy⟩
    exact (h.calls other).busy hbusy
  alone := by
    intro hplace ⟨other, hne, hbusy⟩
    rw [h.alone call other hplace hne] at hbusy
    cases hbusy
  apart := by
    intro hbusy ⟨other, hne, hplace⟩
    rw [h.alone other call hplace (Ne.symm hne)] at hbusy
    cases hbusy

/-- A step of another call keeps what holds of a call. -/
theorem CallOk.others {final' : Option Tree} {other : Nat} {phase : Phase}
    (h : CallOk items other final staging phase)
    (hothers : final' = final ∨ Race.busy phase = false ∨
      (Race.inPlace phase = false ∧ ∃ tree, final' = some tree ∧ Contains items tree)) :
    CallOk items other final' staging phase := by
  cases hothers with
  | inl hsame =>
      subst hsame
      exact h
  | inr hchanged =>
      cases phase with
      | unpacking root done rest progress =>
          cases root with
          | inPlace =>
              cases hchanged with
              | inl hidle => cases hidle
              | inr hplace => cases hplace.1
          | staged => exact h
      | marking =>
          cases hchanged with
          | inl hidle => cases hidle
          | inr hcomplete => exact hcomplete.2
      | _ => exact h

theorem Inv.next (hmarker : ∀ content, Item.file markerPlace content ∉ items)
    (h : Inv items world) (hquiet : ¬ Disturbs world call action)
    (hnext : world.next items remote call action = some world') :
    Inv items world' ∧ (isMarked world.final = true → isMarked world'.final = true) := by
  have ⟨outcome, hstep, hworld⟩ := Option.map_eq_some_iff.mp hnext
  have hok : StepOk items call (world.Unpacks call) (world.Works call) world.final outcome := by
    refine (h.ready call).step hmarker ?_ ?_ hstep
    · intro hremoves
      constructor
      · cases hmarked : isMarked world.final with
        | false => rfl
        | true => exact absurd (.inl ⟨hremoves, .inl hmarked⟩) hquiet
      · intro hworks
        exact hquiet (.inl ⟨hremoves, .inr hworks⟩)
    · intro hrenames hunpacks
      exact hquiet (.inr ⟨hrenames, hunpacks⟩)
  subst hworld
  refine ⟨⟨hok.marked, ?_, ?_⟩, hok.keeps⟩
  · intro other
    dsimp only
    cases decEq other call with
    | isTrue heq =>
        subst heq
        simpa using hok.own
    | isFalse hne =>
        rw [Function.update_of_ne hne, Function.update_of_ne hne]
        refine (h.calls other).others ?_
        cases hok.others with
        | inl hsame => exact .inl hsame
        | inr hchanged =>
            right
            cases hchanged with
            | inl hidle =>
                left
                exact Bool.eq_false_iff.mpr fun hbusy => hidle ⟨other, hne, hbusy⟩
            | inr hcomplete =>
                right
                refine ⟨?_, hcomplete.2⟩
                exact Bool.eq_false_iff.mpr fun hplace => hcomplete.1 ⟨other, hne, hplace⟩
  · intro first second hplace hne
    dsimp only at hplace ⊢
    cases decEq first call with
    | isTrue hfirst =>
        subst hfirst
        rw [Function.update_self] at hplace
        rw [Function.update_of_ne hne]
        exact Bool.eq_false_iff.mpr fun hbusy => hok.alone hplace ⟨second, hne, hbusy⟩
    | isFalse hfirst =>
        rw [Function.update_of_ne hfirst] at hplace
        cases decEq second call with
        | isTrue hsecond =>
            subst hsecond
            rw [Function.update_self]
            exact Bool.eq_false_iff.mpr fun hbusy => hok.apart hbusy ⟨first, hfirst, hplace⟩
        | isFalse hsecond =>
            rw [Function.update_of_ne hsecond]
            exact h.alone first second hplace hne

theorem Initial.inv (h : Initial items world) : Inv items world where
  marked := h.final
  calls := by
    intro call
    rw [h.phases call]
    trivial
  alone := by
    intro call other hplace _
    rw [h.phases call] at hplace
    cases hplace

/-- No step of the run disturbs another call. -/
def Undisturbed (items : List Item) (remote : Bool) : Schedule → World → Prop
  | [], _ => True
  | (call, action) :: rest, world =>
      ¬ Disturbs world call action ∧
        ∀ world', world.next items remote call action = some world' →
          Undisturbed items remote rest world'

theorem Inv.run (hmarker : ∀ content, Item.file markerPlace content ∉ items)
    (h : Inv items world) (hquiet : Undisturbed items remote schedule world)
    (hrun : world.run items remote schedule = some world') :
    Inv items world' ∧ (isMarked world.final = true → isMarked world'.final = true) := by
  induction schedule generalizing world with
  | nil =>
      cases hrun
      exact ⟨h, id⟩
  | cons e rest ih =>
      have ⟨middle, hnext, hrest⟩ := Option.bind_eq_some_iff.mp hrun
      have hstep := h.next hmarker hquiet.1 hnext
      have htail := ih hstep.1 (hquiet.2 middle hnext) hrest
      exact ⟨htail.1, htail.2 ∘ hstep.2⟩

theorem Undisturbed.of_append {first second : Schedule}
    (h : Undisturbed items remote (first ++ second) world) {middle : World}
    (hrun : world.run items remote first = some middle) :
    Undisturbed items remote first world ∧ Undisturbed items remote second middle := by
  induction first generalizing world with
  | nil =>
      cases hrun
      exact ⟨trivial, h⟩
  | cons e rest ih =>
      have ⟨between, hnext, hrest⟩ := Option.bind_eq_some_iff.mp hrun
      have htail := ih (h.2 between hnext) hrest
      refine ⟨⟨h.1, ?_⟩, htail.2⟩
      intro next hother
      have heq : between = next := Option.some_inj.mp (hnext.symm.trans hother)
      subst heq
      exact htail.1

end Runs

end Invariant

section Overlap

def indexPlace : Place := ["index.js".toList]

def manifestPlace : Place := ["package.json".toList]

/-- A tarball with two files. -/
def twoFiles : List Item := [.file indexPlace [1], .file manifestPlace [2]]

/-- A store without the package. -/
def emptyWorld : World := ⟨none, fun _ => none, fun _ => .start⟩

def steps (call count : Nat) : Schedule := List.replicate count (call, .advance)

theorem emptyWorld_initial (items : List Item) : Initial items emptyWorld where
  phases := fun _ => rfl
  final := nofun

theorem twoFiles_unmarked (content : Content) : Item.file markerPlace content ∉ twoFiles := by
  intro hmem
  have hpath : ∀ item ∈ twoFiles, item ≠ .file markerPlace content := by
    simp [twoFiles, indexPlace, manifestPlace, markerPlace]
  exact hpath _ hmem rfl

/-- A call that nobody overlaps with and that removes nothing. -/
theorem undisturbed_alone {items : List Item} {remote : Bool} {call count : Nat} {world : World}
    (hothers : ∀ other, other ≠ call → world.phase other = .start)
    (hkeeps : ∀ k < count, ∀ reached, world.run items remote (steps call k) = some reached →
      removes (reached.phase call) .advance = false) :
    Undisturbed items remote (steps call count) world := by
  induction count generalizing world with
  | zero => trivial
  | succ count ih =>
      constructor
      · intro hdisturbs
        cases hdisturbs with
        | inl hremoves =>
            rw [hkeeps 0 (Nat.succ_pos count) world rfl] at hremoves
            cases hremoves.1
        | inr hrenames =>
            have ⟨other, hne, hplace⟩ := hrenames.2
            rw [hothers other hne] at hplace
            cases hplace
      · intro next hnext
        refine ih ?_ ?_
        · intro other hne
          have ⟨outcome, _, hworld⟩ := Option.map_eq_some_iff.mp hnext
          subst hworld
          dsimp only
          rw [Function.update_of_ne hne]
          exact hothers other hne
        · intro k hk reached hreached
          refine hkeeps (k + 1) (Nat.succ_lt_succ hk) reached ?_
          unfold World.run steps at hreached ⊢
          rw [List.replicate_succ, List.foldlM_cons]
          exact Option.bind_eq_some_iff.mpr ⟨next, hnext, hreached⟩

theorem steps_add (call first second : Nat) :
    steps call first ++ steps call second = steps call (first + second) :=
  List.replicate_append_replicate

/-- The second call finds the directory of the first, stages a copy, and removes
what the first has unpacked so far. -/
def removedMeanwhile : Schedule :=
  steps 0 3 ++ steps 1 3 ++ steps 0 3 ++ steps 1 10 ++ steps 0 5

/-- The second call renames its copy onto the empty directory of the first and
completes it. -/
def completedMeanwhile : Schedule := steps 0 3 ++ steps 1 12

/-- The first call then fails and cleans up. -/
def failsAfterwards : Schedule := [(0, .fail), (0, .advance)]

end Overlap

end Snpm.Store.Race
