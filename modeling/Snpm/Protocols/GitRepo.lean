import Mathlib
import Snpm.Protocols.GitSpec

/-!
The clones of git repositories. A spec has a directory in the cache that is
named after its text, and a clone in that directory is used again whatever
repository it was cloned from. Two specs share a directory when their texts
differ in characters that are neither letters nor digits only.
-/
namespace Snpm.Git

/-- The letters and digits of a character set; among the ASCII characters the
usual ones. -/
structure CharClass where
  isAlphanumeric : Char → Bool
  ascii : ∀ c : Char, c.toNat < 128 → isAlphanumeric c = Text.isAsciiAlphanumeric c

def asciiClass : CharClass := ⟨Text.isAsciiAlphanumeric, fun _ _ => rfl⟩

/-- What the git commands of one resolution do: a command fails with a text. -/
structure Commands where
  ensureDirError : Option String
  fetchRevision : Option String
  fetchAll : Option String
  cloneBranch : Option String
  clone : Option String
  checkout : Option String
  remoteHead : Option String

/-- The repository that the clone in a directory of the cache was made from. -/
abbrev Clones := PathBuf → Option String

section Prepare

variable (chars : CharClass) (cacheDir : PathBuf)

def safeName (url : String) : String :=
  String.ofList (url.toList.map fun c => if chars.isAlphanumeric c then c else '_')

def repoCacheDir (url : String) : PathBuf := (cacheDir.join "git").join (safeName chars url)

def rejectOptionLike (value raw : String) : Result Unit :=
  if Text.startsWith value "-" then
    .error (.resolutionFailed raw value "git repository/committish must not start with '-'")
  else .ok ()

def rejectCommittish (committish : Option String) (raw : String) : Result Unit :=
  match committish with
  | none => .ok ()
  | some committish => rejectOptionLike committish raw

def gitCommand (raw range action : String) (failure : Option String) : Result Unit :=
  match failure with
  | none => .ok ()
  | some stderr =>
      .error (.resolutionFailed raw range ("git " ++ action ++ " failed: " ++ Text.trim stderr))

/-- The revision first, when there is one, and everything if that fails. -/
def revisionOrAll (committish : Option String) (revisionFailure : Option String)
    (all : Result Unit) : Result Unit :=
  if committish.isSome ∧ revisionFailure.isNone then .ok () else all

def fetchRepo (commands : Commands) (committish : Option String) (raw : String) : Result Unit :=
  revisionOrAll committish commands.fetchRevision
    (gitCommand raw "latest" "fetch" commands.fetchAll)

def cloneRepo (commands : Commands) (committish : Option String) (raw : String) : Result Unit :=
  revisionOrAll committish commands.cloneBranch (gitCommand raw "latest" "clone" commands.clone)

def checkoutRepo (commands : Commands) (committish : Option String) (raw : String) : Result Unit :=
  gitCommand raw (committish.getD (commands.remoteHead.getD "HEAD")) "checkout" commands.checkout

/-- What a resolution leaves: its result, the clones, and the repositories whose
clones it fetched into or checked out of. -/
structure Prepared where
  result : Result PathBuf
  clones : Clones
  used : List String

/-- Check out of the clone of a repository. -/
def checkoutClone (commands : Commands) (spec : GitSpec) (raw : String) (dir : PathBuf)
    (clones : Clones) (origin : String) : Prepared :=
  ⟨(checkoutRepo commands spec.committish raw).map fun _ => dir.join "repo", clones, [origin]⟩

/-- Fetch into the clone that is there, or make one. -/
def prepareClone (commands : Commands) (spec : GitSpec) (raw : String) (dir : PathBuf)
    (clones : Clones) : Prepared :=
  match clones dir with
  | some origin =>
      match fetchRepo commands spec.committish raw with
      | .error error => ⟨.error error, clones, [origin]⟩
      | .ok () => checkoutClone commands spec raw dir clones origin
  | none =>
      match cloneRepo commands spec.committish raw with
      | .error error => ⟨.error error, clones, []⟩
      | .ok () =>
          checkoutClone commands spec raw dir (Function.update clones dir (some spec.repo)) spec.repo

def prepareRepo (commands : Commands) (clones : Clones) (dir : PathBuf) (spec : GitSpec)
    (raw : String) : Prepared :=
  match rejectOptionLike spec.repo raw, rejectCommittish spec.committish raw,
    commands.ensureDirError with
  | .error error, _, _ => ⟨.error error, clones, []⟩
  | .ok (), .error error, _ => ⟨.error error, clones, []⟩
  | .ok (), .ok (), some source => ⟨.error (.io dir source), clones, []⟩
  | .ok (), .ok (), none => prepareClone commands spec raw dir clones

/-- `fetch_package` up to the repository directory. -/
def fetchPackage (clones : Clones) (raw : String) (commands : Commands) : Prepared :=
  match parseGitSpec raw with
  | .error error => ⟨.error error, clones, []⟩
  | .ok spec => prepareRepo commands clones (repoCacheDir chars cacheDir raw) spec raw

/-- Resolutions one after the other, each with what it used. -/
def fetchAll (clones : Clones) : List (String × Commands) → List (String × List String)
  | [] => []
  | (raw, commands) :: rest =>
      let prepared := fetchPackage chars cacheDir clones raw commands
      (raw, prepared.used) :: fetchAll prepared.clones rest

end Prepare

section Names

variable {chars : CharClass} {cacheDir : PathBuf} {a b : String}

/-- Two characters that the name of a directory does not tell apart. -/
def Alike (chars : CharClass) (c d : Char) : Prop :=
  c = d ∨ (chars.isAlphanumeric c = false ∧ chars.isAlphanumeric d = false)

/-- Two specs of one length that are alike in every place. -/
def Collide (chars : CharClass) (a b : String) : Prop :=
  List.Forall₂ (Alike chars) a.toList b.toList

theorem underscore_replaced (chars : CharClass) : chars.isAlphanumeric '_' = false := by
  rw [chars.ascii '_' (by decide)]
  decide

/-- What stands for a character in the name of a directory. -/
def safeChar (chars : CharClass) (c : Char) : Char :=
  if chars.isAlphanumeric c then c else '_'

theorem safeChar_eq_iff {c d : Char} : safeChar chars c = safeChar chars d ↔ Alike chars c d := by
  unfold safeChar Alike
  cases hc : chars.isAlphanumeric c with
  | true =>
      cases hd : chars.isAlphanumeric d with
      | true => simp
      | false =>
          have hne : c ≠ d := by
            intro heq
            rw [heq, hd] at hc
            cases hc
          have hunderscore : c ≠ '_' := by
            intro heq
            rw [heq, underscore_replaced] at hc
            cases hc
          simp [hne, hunderscore]
  | false =>
      cases hd : chars.isAlphanumeric d with
      | true =>
          have hne : c ≠ d := by
            intro heq
            rw [heq, hd] at hc
            cases hc
          have hunderscore : '_' ≠ d := by
            intro heq
            rw [← heq, underscore_replaced] at hd
            cases hd
          simp [hne, hunderscore]
      | false => simp

theorem safeName_eq_iff : safeName chars a = safeName chars b ↔ Collide chars a b := by
  unfold safeName Collide
  rw [String.ofList_inj]
  have hmap : ∀ cs ds : List Char, cs.map (safeChar chars) = ds.map (safeChar chars) ↔
      List.Forall₂ (Alike chars) cs ds := by
    intro cs
    induction cs with
    | nil =>
        intro ds
        cases ds with
        | nil => simp
        | cons d ds => simp
    | cons c cs ih =>
        intro ds
        cases ds with
        | nil => simp
        | cons d ds =>
            rw [List.map_cons, List.map_cons, List.cons_eq_cons, List.forall₂_cons,
              safeChar_eq_iff, ih]
  exact hmap _ _

theorem join_inj {base x y : PathBuf} (hx : x.toList.head? ≠ some '/')
    (hy : y.toList.head? ≠ some '/') : PathBuf.join base x = PathBuf.join base y ↔ x = y := by
  refine ⟨?_, fun heq => heq ▸ rfl⟩
  have hjoin : ∀ rest : PathBuf, rest.toList.head? ≠ some '/' → PathBuf.join base rest =
      (match base.toList.getLast? with
        | none => ""
        | some '/' => base
        | some _ => base ++ "/") ++ rest := by
    intro rest hrest
    unfold PathBuf.join
    split
    · rename_i hslash
      exact absurd hslash hrest
    · rename_i hbase _
      rw [hbase]
      simp
    · rename_i hbase _
      rw [hbase]
      rfl
    · rename_i c hne hbase _
      rw [hbase]
      split
      · rename_i hnone
        cases hnone
      · rename_i hslash
        exact absurd (Option.some_inj.mp hslash) hne
      · rfl
  intro heq
  rw [hjoin x hx, hjoin y hy] at heq
  have hlists := congrArg String.toList heq
  rw [String.toList_append, String.toList_append] at hlists
  exact String.toList_inj.mp (List.append_cancel_left hlists)

theorem safeName_head (chars : CharClass) (url : String) :
    (safeName chars url).toList.head? ≠ some '/' := by
  intro hhead
  rw [safeName, String.toList_ofList, List.head?_map] at hhead
  have ⟨c, _, hc⟩ := Option.map_eq_some_iff.mp hhead
  split at hc
  · rename_i halnum
    rw [hc, chars.ascii '/' (by decide)] at halnum
    cases halnum
  · cases hc

/-- Two specs share a directory exactly if they collide. -/
theorem repoCacheDir_eq_iff :
    repoCacheDir chars cacheDir a = repoCacheDir chars cacheDir b ↔ Collide chars a b := by
  rw [repoCacheDir, repoCacheDir, join_inj (safeName_head chars a) (safeName_head chars b),
    safeName_eq_iff]

end Names

section Runs

variable {chars : CharClass} {cacheDir dir : PathBuf} {clones : Clones} {raw : String}
  {commands : Commands} {spec : GitSpec} {seen : List String}

/-- Every clone was made for a spec that names its directory and its repository. -/
def Owned (chars : CharClass) (cacheDir : PathBuf) (seen : List String) (clones : Clones) : Prop :=
  ∀ dir origin, clones dir = some origin → ∃ raw ∈ seen, ∃ spec, parseGitSpec raw = .ok spec ∧
    dir = repoCacheDir chars cacheDir raw ∧ origin = spec.repo

/-- No two of the specs share a directory unless they name one repository. -/
def Apart (chars : CharClass) (specs : List String) : Prop :=
  ∀ a ∈ specs, ∀ b ∈ specs, ∀ specA specB, parseGitSpec a = .ok specA → parseGitSpec b = .ok specB →
    specA.repo ≠ specB.repo → ¬ Collide chars a b

/-- What a resolution does to the clones and what it uses of them. -/
structure Touches (clones : Clones) (dir : PathBuf) (repo : String) (prepared : Prepared) : Prop where
  leaves : prepared.clones = clones ∨ prepared.clones = Function.update clones dir (some repo)
  uses : ∀ origin ∈ prepared.used, clones dir = some origin ∨ origin = repo

theorem prepareClone_touches : Touches clones dir spec.repo
    (prepareClone commands spec raw dir clones) := by
  unfold prepareClone
  split
  · rename_i origin horigin
    split
    · refine ⟨.inl rfl, ?_⟩
      intro used hused
      rw [List.mem_singleton.mp hused]
      exact .inl horigin
    · refine ⟨.inl rfl, ?_⟩
      intro used hused
      rw [List.mem_singleton.mp hused]
      exact .inl horigin
  · split
    · exact ⟨.inl rfl, nofun⟩
    · refine ⟨.inr rfl, ?_⟩
      intro used hused
      exact .inr (List.mem_singleton.mp hused)

theorem prepareRepo_touches : Touches clones dir spec.repo
    (prepareRepo commands clones dir spec raw) := by
  unfold prepareRepo
  split
  · exact ⟨.inl rfl, nofun⟩
  · exact ⟨.inl rfl, nofun⟩
  · exact ⟨.inl rfl, nofun⟩
  · exact prepareClone_touches

/-- A resolution keeps the clones owned and uses clones of its own repository. -/
theorem fetchPackage_owned (commands : Commands) (hapart : Apart chars (raw :: seen))
    (h : Owned chars cacheDir seen clones) :
    Owned chars cacheDir (raw :: seen) (fetchPackage chars cacheDir clones raw commands).clones ∧
      ∀ origin ∈ (fetchPackage chars cacheDir clones raw commands).used,
        ∃ spec, parseGitSpec raw = .ok spec ∧ origin = spec.repo := by
  have hmore : Owned chars cacheDir (raw :: seen) clones := by
    intro dir origin horigin
    have ⟨owner, hmem, hrest⟩ := h dir origin horigin
    exact ⟨owner, List.mem_cons_of_mem raw hmem, hrest⟩
  unfold fetchPackage
  cases hparse : parseGitSpec raw with
  | error error => exact ⟨hmore, nofun⟩
  | ok spec =>
      have htouches : Touches clones (repoCacheDir chars cacheDir raw) spec.repo
          (prepareRepo commands clones (repoCacheDir chars cacheDir raw) spec raw) :=
        prepareRepo_touches
      constructor
      · cases htouches.leaves with
        | inl hsame =>
            dsimp only
            rw [hsame]
            exact hmore
        | inr hupdate =>
            dsimp only
            rw [hupdate]
            intro dir origin horigin
            cases decEq dir (repoCacheDir chars cacheDir raw) with
            | isTrue heq =>
                subst heq
                rw [Function.update_self] at horigin
                cases horigin
                exact ⟨raw, List.mem_cons_self, spec, hparse, rfl, rfl⟩
            | isFalse hne =>
                rw [Function.update_of_ne hne] at horigin
                exact hmore dir origin horigin
      · intro origin hused
        refine ⟨spec, rfl, ?_⟩
        cases htouches.uses origin hused with
        | inr hown => exact hown
        | inl hclone =>
            have ⟨owner, hmem, owned, howned, hdir, horigin⟩ := h _ origin hclone
            by_contra hne
            have hrepos : spec.repo ≠ owned.repo := fun heq => hne (horigin.trans heq.symm)
            exact hapart raw List.mem_cons_self owner (List.mem_cons_of_mem raw hmem) spec owned
              hparse howned hrepos (repoCacheDir_eq_iff.mp hdir)

theorem Apart.mono {specs specs' : List String} (h : Apart chars specs)
    (hsub : ∀ a ∈ specs', a ∈ specs) : Apart chars specs' :=
  fun a ha b hb => h a (hsub a ha) b (hsub b hb)

theorem fetchAll_owned (seen : List String) (requests : List (String × Commands))
    (hapart : Apart chars (seen ++ requests.map (·.1)))
    (h : Owned chars cacheDir seen clones) :
    ∀ step ∈ fetchAll chars cacheDir clones requests, ∀ origin ∈ step.2,
      ∃ spec, parseGitSpec step.1 = .ok spec ∧ origin = spec.repo := by
  induction requests generalizing seen clones with
  | nil => nofun
  | cons request requests ih =>
      have hnow : Apart chars (request.1 :: seen) := by
        refine hapart.mono ?_
        intro a ha
        cases List.mem_cons.mp ha with
        | inl heq => simp [heq]
        | inr hmem => exact List.mem_append_left _ hmem
      have hstep := fetchPackage_owned request.2 hnow h
      have hrest := ih (request.1 :: seen) (hapart.mono fun a ha => by
        simp only [List.cons_append, List.mem_cons, List.mem_append] at ha
        simp only [List.map_cons, List.mem_append, List.mem_cons]
        tauto) hstep.1
      intro step hmem
      cases List.mem_cons.mp hmem with
      | inl heq =>
          subst heq
          exact hstep.2
      | inr htail => exact hrest step htail

/-- Two specs of different repositories have different directories exactly if
they do not collide, and resolutions of specs that do not collide never use the
clone of another repository. -/
theorem git_cache_separates_iff (chars : CharClass) (cacheDir : PathBuf) :
    (∀ a b specA specB, parseGitSpec a = .ok specA → parseGitSpec b = .ok specB →
      specA.repo ≠ specB.repo →
      (repoCacheDir chars cacheDir a ≠ repoCacheDir chars cacheDir b ↔ ¬ Collide chars a b)) ∧
    ∀ requests : List (String × Commands), Apart chars (requests.map (·.1)) →
      ∀ step ∈ fetchAll chars cacheDir (fun _ => none) requests, ∀ origin ∈ step.2,
        ∃ spec, parseGitSpec step.1 = .ok spec ∧ origin = spec.repo := by
  constructor
  · intro a b specA specB _ _ _
    exact not_congr repoCacheDir_eq_iff
  · intro requests hapart
    exact fetchAll_owned [] requests hapart (fun _ _ hnone => by cases hnone)

/-- Git commands that succeed. -/
def succeeding : Commands := ⟨none, none, none, none, none, none, none⟩

/-- The second of two specs is resolved in the clone of the first. -/
theorem resolved_in_other_clone :
    ((parseGitSpec "https://git.example/acme/a-b.git").toOption.map (·.repo) =
        some "https://git.example/acme/a-b.git" ∧
      (parseGitSpec "https://git.example/acme/a.b.git").toOption.map (·.repo) =
        some "https://git.example/acme/a.b.git") ∧
    repoCacheDir asciiClass "/cache" "https://git.example/acme/a-b.git" =
      repoCacheDir asciiClass "/cache" "https://git.example/acme/a.b.git" ∧
    fetchAll asciiClass "/cache" (fun _ => none)
        [("https://git.example/acme/a-b.git", succeeding),
          ("https://git.example/acme/a.b.git", succeeding)] =
      [("https://git.example/acme/a-b.git", ["https://git.example/acme/a-b.git"]),
        ("https://git.example/acme/a.b.git", ["https://git.example/acme/a-b.git"])] := by
  decide +kernel

end Runs

end Snpm.Git
