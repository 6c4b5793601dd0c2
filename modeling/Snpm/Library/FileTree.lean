import Mathlib
import Snpm.Library.PathText

/-!
A file system with symbolic links. A place is the list of names that lead to an
entry from the root without passing a link; resolving a path follows links to
the place the path denotes. An operation that resolves a path to a place below
a directory without links stays below that directory.
-/
namespace FileTree

open PathText

variable {α D : Type}

abbrev Place (α : Type) := List (List α)

abbrev Path (α : Type) := List (Component α)

inductive Node (α D : Type) where
  | file (content : D)
  | dir
  | link (target : Path α)

/-- The entry at each place; the root is a directory and has no entry. -/
def Files (α D : Type) := Place α → Option (Node α D)

inductive Refusal where
  | notFound
  | notDirectory
  | alreadyExists
  | tooManyLinks
  | other (reason : String)
deriving DecidableEq

/-- One component of a path, from the directory that the earlier ones denote. -/
def step (fs : Files α D) (follow : Place α → Path α → Except Refusal (Place α)) (p : Place α) :
    Component α → Except Refusal (Place α)
  | .rootDir => .ok []
  | .curDir => .ok p
  | .parentDir => .ok p.dropLast
  | .normal name =>
      match fs (p ++ [name]) with
      | none => .error .notFound
      | some (.file _) => .error .notDirectory
      | some .dir => .ok (p ++ [name])
      | some (.link target) => follow p target

/-- The directory that a path denotes; links nest up to a limit. -/
def walk (fs : Files α D) : Nat → Place α → Path α → Except Refusal (Place α)
  | 0, p, path => path.foldlM (step fs fun _ _ => .error .tooManyLinks) p
  | depth + 1, p, path => path.foldlM (step fs (walk fs depth)) p

def linkDepth : Nat := 40

def Files.resolveDir (fs : Files α D) (path : Path α) : Except Refusal (Place α) :=
  walk fs linkDepth [] path

def Files.isDir (fs : Files α D) (path : Path α) : Bool := (fs.resolveDir path).isOk

section Operations

variable [DecidableEq α]

def Files.set (fs : Files α D) (p : Place α) (node : Node α D) : Files α D :=
  fun q => if q = p then some node else fs q

/-- Create a directory. Beyond what the tree decides the system may refuse. -/
def mkdir (refuse : Files α D → Path α → Option String) (fs : Files α D) (path : Path α) :
    Except Refusal Unit × Files α D :=
  match path.getLast? with
  | some (.normal name) =>
      match fs.resolveDir path.dropLast with
      | .error refusal => (.error refusal, fs)
      | .ok parent =>
          if (fs (parent ++ [name])).isSome then (.error .alreadyExists, fs)
          else
            match refuse fs path with
            | some reason => (.error (.other reason), fs)
            | none => (.ok (), fs.set (parent ++ [name]) .dir)
  | _ =>
      match fs.resolveDir path with
      | .error refusal => (.error refusal, fs)
      | .ok _ => (.error .alreadyExists, fs)

/-- A directory that cannot be made is no error when it is there. -/
def orExists (path : Path α) :
    Except Refusal Unit × Files α D → Except Refusal Unit × Files α D
  | (.ok (), fs) => (.ok (), fs)
  | (.error refusal, fs) => (if fs.isDir path then .ok () else .error refusal, fs)

/-- `create_dir_all`, by recursion on the reversed path. -/
def createDirAllRev (refuse : Files α D → Path α → Option String) (fs : Files α D) :
    Path α → Except Refusal Unit × Files α D
  | [] => (.ok (), fs)
  | last :: parent =>
      match mkdir refuse fs (last :: parent).reverse with
      | (.error .notFound, fs) =>
          match createDirAllRev refuse fs parent with
          | (.error refusal, fs) => (.error refusal, fs)
          | (.ok (), fs) => orExists (last :: parent).reverse (mkdir refuse fs (last :: parent).reverse)
      | result => orExists (last :: parent).reverse result

def createDirAll (refuse : Files α D → Path α → Option String) (fs : Files α D) (path : Path α) :
    Except Refusal Unit × Files α D :=
  createDirAllRev refuse fs path.reverse

end Operations

section Walk

variable {fs fs' : Files α D}

theorem walk_append (depth : Nat) (p : Place α) (a b : Path α) :
    walk fs depth p (a ++ b) = walk fs depth p a >>= fun q => walk fs depth q b := by
  cases depth with
  | zero => simp [walk, List.foldlM_append]
  | succ depth => simp [walk, List.foldlM_append]

theorem foldlM_mono {f g : Place α → Component α → Except Refusal (Place α)}
    (h : ∀ p c q, f p c = .ok q → g p c = .ok q) {path : Path α} {p q : Place α}
    (hwalk : path.foldlM f p = .ok q) : path.foldlM g p = .ok q := by
  induction path generalizing p with
  | nil => exact hwalk
  | cons c path ih =>
      rw [List.foldlM_cons] at hwalk ⊢
      cases hfirst : f p c with
      | error refusal =>
          rw [hfirst] at hwalk
          cases hwalk
      | ok mid =>
          rw [hfirst] at hwalk
          rw [h p c mid hfirst]
          exact ih hwalk

/-- Directories and links are kept. -/
structure Keeps (fs fs' : Files α D) : Prop where
  dirs : ∀ p, fs p = some .dir → fs' p = some .dir
  links : ∀ p target, fs p = some (.link target) → fs' p = some (.link target)

theorem step_mono (hkeeps : Keeps fs fs') {f g : Place α → Path α → Except Refusal (Place α)}
    (hfollow : ∀ p path q, f p path = .ok q → g p path = .ok q) (p : Place α) (c : Component α)
    (q : Place α) (h : step fs f p c = .ok q) : step fs' g p c = .ok q := by
  cases c with
  | rootDir | curDir | parentDir => exact h
  | normal name =>
      simp only [step] at h ⊢
      cases hnode : fs (p ++ [name]) with
      | none => simp [hnode] at h
      | some node =>
          rw [hnode] at h
          cases node with
          | file content => cases h
          | dir =>
              rw [hkeeps.dirs _ hnode]
              exact h
          | link target =>
              rw [hkeeps.links _ target hnode]
              exact hfollow p target q h

/-- A path that resolves still resolves to the same place when directories and
links are kept. -/
theorem walk_mono (hkeeps : Keeps fs fs') {depth : Nat} {p q : Place α} {path : Path α}
    (h : walk fs depth p path = .ok q) : walk fs' depth p path = .ok q := by
  induction depth generalizing p q path with
  | zero => exact foldlM_mono (step_mono hkeeps fun _ _ _ hf => hf) h
  | succ depth ih => exact foldlM_mono (step_mono hkeeps fun _ _ _ hf => ih hf) h

theorem resolveDir_mono (hkeeps : Keeps fs fs') {path : Path α} {q : Place α}
    (h : fs.resolveDir path = .ok q) : fs'.resolveDir path = .ok q :=
  walk_mono hkeeps h

/-- No link at or below a place. -/
def LinkFree (fs : Files α D) (place : Place α) : Prop :=
  ∀ p target, place <+: p → fs p ≠ some (.link target)

/-- Below a place without links the names of a path lead where they say. -/
theorem walk_names {place : Place α} (hfree : LinkFree fs place) {depth : Nat} {p q : Place α} (hp : place <+: p)
    {names : List (List α)} (h : walk fs depth p (names.map .normal) = .ok q) : q = p ++ names := by
  have hfold : ∀ (f : Place α → Path α → Except Refusal (Place α)) (names : List (List α))
      (p : Place α), place <+: p → (names.map Component.normal).foldlM (step fs f) p = .ok q →
        q = p ++ names := by
    intro f names
    induction names with
    | nil =>
        intro p _ h
        cases h
        simp
    | cons name names ih =>
        intro p hp h
        have hbelow : place <+: p ++ [name] := hp.trans (List.prefix_append _ _)
        rw [List.map_cons, List.foldlM_cons] at h
        simp only [step] at h
        cases hnode : fs (p ++ [name]) with
        | none => simp [hnode, bind, Except.bind] at h
        | some node =>
            rw [hnode] at h
            cases node with
            | file content => cases h
            | dir => simpa using ih (p ++ [name]) hbelow h
            | link target => exact absurd hnode (hfree _ target hbelow)
  cases depth with
  | zero => exact hfold _ names p hp h
  | succ depth => exact hfold _ names p hp h

end Walk

section Containment

variable {fs fs' fs'' : Files α D} {place : Place α} {root : Path α}

/-- A change that stays strictly below a place, keeps directories and makes no
links. -/
structure Contained (place : Place α) (fs fs' : Files α D) : Prop where
  outside : ∀ p, ¬ (place <+: p ∧ p ≠ place) → fs' p = fs p
  dirs : ∀ p, fs p = some .dir → fs' p = some .dir
  links : ∀ p target, fs' p = some (.link target) → fs p = some (.link target)

theorem Contained.refl (place : Place α) (fs : Files α D) : Contained place fs fs :=
  ⟨fun _ _ => rfl, fun _ h => h, fun _ _ h => h⟩

theorem Contained.trans (h : Contained place fs fs') (h' : Contained place fs' fs'') :
    Contained place fs fs'' :=
  ⟨fun p hp => (h'.outside p hp).trans (h.outside p hp), fun p hp => h'.dirs p (h.dirs p hp),
    fun p target hp => h.links p target (h'.links p target hp)⟩

/-- A path denotes a directory with no links at or below it. -/
structure Rooted (fs : Files α D) (root : Path α) (place : Place α) : Prop where
  resolves : fs.resolveDir root = .ok place
  free : LinkFree fs place

theorem Contained.keeps (h : Contained place fs fs') (hfree : LinkFree fs place) :
    Keeps fs fs' where
  dirs := h.dirs
  links p target hp := by
    rw [h.outside p fun hbelow => hfree p target hbelow.1 hp]
    exact hp

theorem Rooted.contained (hroot : Rooted fs root place) (h : Contained place fs fs') :
    Rooted fs' root place where
  resolves := resolveDir_mono (h.keeps hroot.free) hroot.resolves
  free p target hp hlink := hroot.free p target hp (h.links p target hlink)

theorem Rooted.resolve_names (hroot : Rooted fs root place) {names : List (List α)} {q : Place α}
    (h : fs.resolveDir (root ++ names.map .normal) = .ok q) : q = place ++ names := by
  have hresolves : walk fs linkDepth [] root = .ok place := hroot.resolves
  rw [Files.resolveDir, walk_append, hresolves] at h
  exact walk_names hroot.free (List.prefix_refl place) h

variable [DecidableEq α]

theorem contained_set {p : Place α} {node : Node α D} (hbelow : place <+: p ∧ p ≠ place)
    (hdir : fs p ≠ some .dir) (hnode : ∀ target, node ≠ .link target) :
    Contained place fs (fs.set p node) where
  outside q hq := by
    have hne : q ≠ p := fun heq => hq (heq ▸ hbelow)
    simp [Files.set, hne]
  dirs q hq := by
    have hne : q ≠ p := fun heq => hdir (heq ▸ hq)
    simpa [Files.set, hne] using hq
  links q target hq := by
    simp only [Files.set] at hq
    split at hq
    · exact absurd (Option.some.inj hq) (hnode target)
    · exact hq

variable {refuse : Files α D → Path α → Option String}

theorem mkdir_resolved {path : Path α} {q : Place α} (h : fs.resolveDir path = .ok q) :
    mkdir refuse fs path = (.error .alreadyExists, fs) := by
  unfold mkdir
  split
  · rename_i name hlast
    obtain ⟨init, hinit⟩ := List.getLast?_eq_some_iff.mp hlast
    subst hinit
    rw [List.dropLast_concat]
    rw [Files.resolveDir, walk_append] at h
    cases hparent : walk fs linkDepth [] init with
    | error refusal =>
        rw [hparent] at h
        cases h
    | ok parent =>
        rw [hparent] at h
        have hentry : (fs (parent ++ [name])).isSome = true := by
          have hnone : fs (parent ++ [name]) ≠ none := by
            intro hnone
            simp [linkDepth, walk, step, hnone, bind, Except.bind] at h
          exact Option.isSome_iff_ne_none.mpr hnone
        simp [Files.resolveDir, hparent, hentry]
  · simp [h]

/-- Making the directories of a path that already denotes one changes nothing. -/
theorem createDirAll_resolved {path : Path α} {q : Place α} (h : fs.resolveDir path = .ok q) :
    createDirAll refuse fs path = (.ok (), fs) := by
  unfold createDirAll
  cases hrev : path.reverse with
  | nil => rfl
  | cons last parent =>
      have hpath : (last :: parent).reverse = path := by rw [← hrev, List.reverse_reverse]
      unfold createDirAllRev
      rw [hpath, mkdir_resolved h]
      simp [orExists, Files.isDir, h, Except.isOk, Except.toBool]

theorem mkdir_contained (refuse : Files α D → Path α → Option String)
    (hroot : Rooted fs root place) (names : List (List α)) :
    Contained place fs (mkdir refuse fs (root ++ names.map .normal)).2 := by
  cases List.eq_nil_or_concat names with
  | inl hnil =>
      subst hnil
      rw [List.map_nil, List.append_nil, mkdir_resolved hroot.resolves]
      exact Contained.refl _ _
  | inr hconcat =>
      obtain ⟨init, name, hnames⟩ := hconcat
      subst hnames
      have hpath : root ++ (init.concat name).map Component.normal =
          (root ++ init.map Component.normal) ++ [.normal name] := by simp
      unfold mkdir
      rw [hpath, List.getLast?_concat, List.dropLast_concat]
      dsimp only
      split
      · exact Contained.refl _ _
      · rename_i parent hparent
        have hplace := hroot.resolve_names hparent
        subst hplace
        split
        · exact Contained.refl _ _
        · rename_i hfresh
          split
          · exact Contained.refl _ _
          · refine contained_set ⟨?_, ?_⟩ ?_ nofun
            · rw [List.append_assoc]
              exact List.prefix_append _ _
            · intro heq
              simpa using congrArg List.length heq
            · intro hdir
              rw [hdir] at hfresh
              exact hfresh rfl

omit [DecidableEq α] in
theorem orExists_snd (path : Path α) (result : Except Refusal Unit × Files α D) :
    (orExists path result).2 = result.2 := by
  unfold orExists
  split <;> rfl

/-- Making the directories of a path below a root stays below the root. -/
theorem createDirAll_contained (hroot : Rooted fs root place) (names : List (List α)) :
    Contained place fs (createDirAll refuse fs (root ++ names.map .normal)).2 := by
  induction names using List.reverseRecOn generalizing fs with
  | nil =>
      rw [List.map_nil, List.append_nil, createDirAll_resolved hroot.resolves]
      exact Contained.refl _ _
  | append_singleton init name ih =>
      have hpath : (root ++ (init ++ [name]).map Component.normal).reverse =
          .normal name :: (root ++ init.map Component.normal).reverse := by simp
      have hself : (Component.normal name :: (root ++ init.map Component.normal).reverse).reverse =
          root ++ (init ++ [name]).map Component.normal := by rw [← hpath, List.reverse_reverse]
      have hfirst := mkdir_contained refuse hroot (init ++ [name])
      unfold createDirAll
      rw [hpath]
      unfold createDirAllRev
      rw [hself]
      split
      · rename_i fs₁ hmkdir
        rw [hmkdir] at hfirst
        have hparent := ih (hroot.contained hfirst)
        split
        · rename_i refusal fs₂ hrec
          rw [createDirAll, hrec] at hparent
          exact hfirst.trans hparent
        · rename_i fs₂ hrec
          rw [createDirAll, hrec] at hparent
          have hsofar := hfirst.trans hparent
          rw [orExists_snd]
          exact hsofar.trans (mkdir_contained refuse (hroot.contained hsofar) (init ++ [name]))
      · rw [orExists_snd]
        exact hfirst

end Containment

end FileTree
