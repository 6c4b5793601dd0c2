import Mathlib
import Snpm.Library.DepthWalk
import Snpm.Library.Json
import Snpm.Lifecycle.Chunks
import Snpm.Linker.Locality

/-!
The search for packages with lifecycle scripts. The walk follows links: a directory
is known by its canonical path and taken once. A directory with a manifest is a
package, and what it holds is looked for in its own `node_modules`; any other
directory is searched itself. The scripts of a package run when the configuration
allows them and no earlier result can be restored.
-/
namespace Snpm.Lifecycle

open DepthWalk

section Manifest

def getMember (value : Json) (name : String) : Option Json :=
  match value with
  | .object members => Json.member members name
  | _ => none

def asStr : Json → Option String
  | .string text => some text
  | _ => none

def packageName (value : Json) : Option String := (getMember value "name").bind asStr

def packageVersion (value : Json) : Option String := (getMember value "version").bind asStr

/-- The names of the members of an object, in the order of its map. -/
def objectKeys : Json → Option (List String)
  | .object members => some (BTreeMap.collect members).keys
  | _ => none

def packageScripts (value : Json) : Option (List String) :=
  (getMember value "scripts").bind objectKeys

def packageRuntimeDepNames (value : Json) : List String :=
  ["dependencies", "optionalDependencies", "peerDependencies"].flatMap fun key =>
    ((getMember value key).bind objectKeys).getD []

def dependencyLifecycleScriptNames : List String := ["preinstall", "install", "postinstall"]

def hasLifecycleScripts (scripts : List String) : Bool :=
  dependencyLifecycleScriptNames.any (scripts.contains ·)

end Manifest

/-- An entry of a directory: its name and the canonical path of the directory that
it is or leads to. -/
structure DirEntry where
  fileName : String
  target : Option PathBuf

/-- The installed directories as the walk reads them. -/
structure Installed where
  readDir : PathBuf → Result (List DirEntry)
  manifest : PathBuf → Option (Result Json)
  nodeModules : PathBuf → Option PathBuf

section Inspect

/-- What the side-effects cache answers for a package: whether it restored an earlier
result, or was there already; a failure to restore counts as a miss. -/
abbrev SideEffects := String → String → PathBuf → Result Bool

inductive Inspection where
  | ignored
  | blocked (name : String)
  | restored
  | run (job : DepScriptJob)

variable (config : SnpmConfig) (workspace : Option Workspace) (sideEffects : SideEffects)

def inspection (pkgRoot : PathBuf) (value : Json) : Result Inspection :=
  match (packageName value).filter (· ≠ ""), packageScripts value with
  | some name, some scripts =>
      if !hasLifecycleScripts scripts then .ok .ignored
      else if !Linker.isDepScriptAllowed config workspace name then .ok (.blocked name)
      else
        let version := (packageVersion value).filter (· ≠ "")
        let job := ⟨name, version, pkgRoot, packageRuntimeDepNames value⟩
        match version with
        | none => .ok (.run job)
        | some text => do
            let restored ← sideEffects name text pkgRoot
            .ok (if restored then .restored else .run job)
  | _, _ => .ok .ignored

structure Found where
  jobs : List DepScriptJob
  blocked : List String
  blockedSeen : BTreeSet String

def record (found : Found) : Inspection → Found
  | .ignored | .restored => found
  | .blocked name =>
      if found.blockedSeen.contains name then found
      else { found with
        blocked := found.blocked ++ [name], blockedSeen := found.blockedSeen.insert name }
  | .run job => { found with jobs := found.jobs ++ [job] }

end Inspect

section Walk

/-- A directory that is searched, or that is a package. -/
inductive Node where
  | scan (dir : PathBuf)
  | package (dir : PathBuf)
deriving DecidableEq

def Node.dir : Node → PathBuf
  | scan dir | package dir => dir

variable (config : SnpmConfig) (workspace : Option Workspace) (sideEffects : SideEffects)
  (tree : Installed)

def inspect (dir : PathBuf) : Result Inspection :=
  match tree.manifest dir with
  | some value => do inspection config workspace sideEffects dir (← value)
  | none => .ok .ignored

def enter (node : Node) (found : Found) : Result Found :=
  match node with
  | .scan _ => .ok found
  | .package dir => do
      let result ← inspect config workspace sideEffects tree dir
      .ok (record found result)

def entryNode (entry : DirEntry) : Option Node :=
  match entry.target with
  | none => none
  | some dir =>
      if entry.fileName = ".bin" then none
      else if (tree.manifest dir).isSome then some (.package dir)
      else some (.scan dir)

def children : Node → Result (List Node)
  | .scan dir => do
      let entries ← tree.readDir dir
      .ok (entries.filterMap (entryNode tree))
  | .package dir => .ok ((tree.nodeModules dir).toList.map .scan)

def walkNodeModules (fuel : Nat) (roots : List PathBuf) :
    Except (Fault SnpmError) (List PathBuf × Found) :=
  walkAll Node.dir (enter config workspace sideEffects tree) (children tree) fuel
    (roots.map .scan) ([], ⟨[], [], ∅⟩)

end Walk

section Record

variable {found : Found} {results : List Inspection}

def Inspection.job? : Inspection → Option DepScriptJob
  | .run job => some job
  | _ => none

def Inspection.blocked? : Inspection → Option String
  | .blocked name => some name
  | _ => none

/-- The names that were seen are those of the list, each there once. -/
structure Found.Ok (found : Found) : Prop where
  once : found.blocked.Nodup
  seen : ∀ name, name ∈ found.blockedSeen ↔ name ∈ found.blocked

theorem Found.Ok.record (h : found.Ok) (result : Inspection) : (record found result).Ok := by
  cases result with
  | ignored => exact h
  | restored => exact h
  | run job => exact ⟨h.once, h.seen⟩
  | blocked name =>
      simp only [Lifecycle.record]
      split
      next => exact h
      next hnew =>
          have hfresh : name ∉ found.blocked := by
            rw [← h.seen]
            simpa using hnew
          refine ⟨?_, ?_⟩
          · simp only
            refine List.Nodup.append h.once (List.nodup_singleton name) ?_
            intro other hold heq
            exact hfresh (List.mem_singleton.mp heq ▸ hold)
          · intro other
            simp only [Std.ExtTreeSet.mem_insert, List.mem_append, List.mem_singleton, h.seen,
              Std.LawfulEqCmp.compare_eq_iff_eq]
            constructor
            · rintro (heq | hold)
              · exact .inr heq.symm
              · exact .inl hold
            · rintro (hold | heq)
              · exact .inr hold
              · exact .inl heq.symm

theorem mem_blocked_record (h : found.Ok) (result : Inspection) (name : String) :
    name ∈ (record found result).blocked ↔
      name ∈ found.blocked ∨ result.blocked? = some name := by
  cases result with
  | blocked other =>
      simp only [record, Inspection.blocked?, Option.some.injEq]
      split
      next hseen =>
          have hmem : other ∈ found.blocked := (h.seen other).mp (by simpa using hseen)
          constructor
          · exact .inl
          · rintro (hold | heq)
            · exact hold
            · exact heq ▸ hmem
      next => simp [eq_comm]
  | _ => simp [record, Inspection.blocked?]

theorem foldl_record (h : found.Ok) : (results.foldl record found).Ok ∧
    (results.foldl record found).jobs = found.jobs ++ results.filterMap Inspection.job? ∧
    ∀ name, name ∈ (results.foldl record found).blocked ↔
      name ∈ found.blocked ∨ ∃ result ∈ results, result.blocked? = some name := by
  induction results generalizing found with
  | nil => simp [h]
  | cons result results ih =>
      obtain ⟨hok, hjobs, hblocked⟩ := ih (h.record result)
      refine ⟨hok, ?_, ?_⟩
      · rw [List.foldl_cons, hjobs]
        cases result with
        | blocked name =>
            simp only [record, Inspection.job?, List.filterMap_cons]
            split <;> rfl
        | _ => simp [record, Inspection.job?, List.filterMap_cons]
      · intro name
        rw [List.foldl_cons, hblocked, mem_blocked_record h]
        simp only [List.mem_cons, exists_eq_or_imp, or_assoc]

end Record

section Exact

variable {config : SnpmConfig} {workspace : Option Workspace} {sideEffects : SideEffects}
  {tree : Installed} {fuel : Nat} {roots : List PathBuf} {entered : List Node}
  {found found' : Found}

def Node.packageDir? : Node → Option PathBuf
  | .package dir => some dir
  | .scan _ => none

/-- What entering some nodes finds is what the inspections of the packages say. -/
theorem results_of_enter
    (h : entered.foldlM (fun s n => enter config workspace sideEffects tree n s) found =
      .ok found') :
    ∃ results, List.Forall₂ (fun dir result => inspect config workspace sideEffects tree dir =
        .ok result) (entered.filterMap Node.packageDir?) results ∧
      found' = results.foldl record found := by
  induction entered generalizing found with
  | nil =>
      cases h
      exact ⟨[], .nil, rfl⟩
  | cons node entered ih =>
      rw [List.foldlM_cons] at h
      obtain ⟨middle, henter, hrest⟩ := Result.bind_eq_ok h
      obtain ⟨results, hresults, hfound⟩ := ih hrest
      cases node with
      | scan dir =>
          cases henter
          exact ⟨results, hresults, hfound⟩
      | package dir =>
          obtain ⟨result, hresult, hrecord⟩ := Result.bind_eq_ok henter
          cases hrecord
          exact ⟨result :: results, .cons hresult hresults, hfound⟩

theorem mem_of_forall₂ {α β : Type} {r : α → β → Prop} {as : List α} {bs : List β}
    (h : List.Forall₂ r as bs) :
    (∀ a ∈ as, ∃ b ∈ bs, r a b) ∧ ∀ b ∈ bs, ∃ a ∈ as, r a b := by
  induction h with
  | nil => simp
  | @cons a b as bs hab hrest ih =>
      refine ⟨?_, ?_⟩
      · intro x hx
        rcases List.mem_cons.mp hx with heq | hmem
        · exact ⟨b, List.mem_cons_self, heq ▸ hab⟩
        · obtain ⟨y, hy, hxy⟩ := ih.1 x hmem
          exact ⟨y, List.mem_cons_of_mem _ hy, hxy⟩
      · intro y hy
        rcases List.mem_cons.mp hy with heq | hmem
        · exact ⟨a, List.mem_cons_self, heq ▸ hab⟩
        · obtain ⟨x, hx, hxy⟩ := ih.2 y hmem
          exact ⟨x, List.mem_cons_of_mem _ hx, hxy⟩

theorem inspection_job {dir : PathBuf} {job : DepScriptJob}
    (h : inspect config workspace sideEffects tree dir = .ok (.run job)) :
    job.pkgRoot = dir ∧ Linker.isDepScriptAllowed config workspace job.name = true := by
  simp only [inspect] at h
  split at h
  next value hvalue =>
      obtain ⟨json, -, h⟩ := Result.bind_eq_ok h
      simp only [inspection] at h
      split at h
      next name scripts hname hscripts =>
          split at h
          next => cases h
          next =>
              split at h
              next => cases h
              next hallowed =>
                  have hallowed : Linker.isDepScriptAllowed config workspace name = true := by
                    simpa using hallowed
                  split at h
                  next =>
                      cases h
                      exact ⟨rfl, hallowed⟩
                  next =>
                      obtain ⟨restored, -, h⟩ := Result.bind_eq_ok h
                      cases restored with
                      | true => cases h
                      | false =>
                          cases h
                          exact ⟨rfl, hallowed⟩
      next => cases h
  next => cases h

/-- The jobs of packages in different directories are in different directories. -/
theorem jobs_nodup {dirs : List PathBuf} {results : List Inspection} (hnodup : dirs.Nodup)
    (h : List.Forall₂ (fun dir result => inspect config workspace sideEffects tree dir =
      .ok result) dirs results) :
    ((results.filterMap Inspection.job?).map DepScriptJob.pkgRoot).Nodup := by
  induction h with
  | nil => simp
  | @cons dir result dirs results hresult hrest ih =>
      obtain ⟨hdir, hdirs⟩ := List.nodup_cons.mp hnodup
      cases result with
      | run job =>
          simp only [List.filterMap_cons, Inspection.job?, List.map_cons, List.nodup_cons]
          refine ⟨?_, ih hdirs⟩
          intro hmem
          obtain ⟨other, hother, hroot⟩ := List.mem_map.mp hmem
          obtain ⟨found, hfound, hjob⟩ := List.mem_filterMap.mp hother
          obtain ⟨dir', hdir', hinspect⟩ := (mem_of_forall₂ hrest).2 found hfound
          cases found with
          | run job' =>
              cases hjob
              rw [← (inspection_job hresult).1, ← hroot, (inspection_job hinspect).1] at hdir
              exact hdir hdir'
          | _ => cases hjob
      | _ => exact ih hdirs

def Reached (tree : Installed) (roots : List PathBuf) (node : Node) : Prop :=
  ∃ root ∈ roots.map Node.scan, Reaches (children tree) root node

/-- A node that can be reached is a package when it is so by its manifest. -/
theorem reached_package (dir : PathBuf) (h : Reached tree roots (.package dir)) :
    (tree.manifest dir).isSome = true := by
  obtain ⟨root, hroot, hreach⟩ := h
  cases hreach with
  | refl =>
      obtain ⟨path, -, hpath⟩ := List.mem_map.mp hroot
      cases hpath
  | @tail before _ _ hedge =>
      obtain ⟨next, hnext, hmem⟩ := hedge
      cases before with
      | scan path =>
          obtain ⟨entries, -, hentries⟩ := Result.bind_eq_ok hnext
          cases hentries
          obtain ⟨entry, -, hentry⟩ := List.mem_filterMap.mp hmem
          simp only [entryNode] at hentry
          split at hentry
          next => cases hentry
          next =>
              split_ifs at hentry with hbin hmanifest
              · cases hentry
                exact hmanifest
              · cases hentry
      | package path =>
          cases hnext
          obtain ⟨nested, -, hnested⟩ := List.mem_map.mp hmem
          cases hnested

/-- The walk ends, and finds each package that can be reached once: a package whose
scripts are not allowed is reported once by name, one whose scripts are to run gives
one job, and no other package does. All of them are found as long as no directory
that is searched has a manifest itself. -/
theorem walk_exact :
    (∀ dirs : Finset PathBuf, (∀ node, Reached tree roots node → node.dir ∈ dirs) →
      dirs.card < fuel →
      walkNodeModules config workspace sideEffects tree fuel roots ≠ .error .outOfFuel) ∧
    ∀ visited found, walkNodeModules config workspace sideEffects tree fuel roots =
        .ok (visited, found) →
      found.blocked.Nodup ∧ (found.jobs.map DepScriptJob.pkgRoot).Nodup ∧
      (∀ name ∈ found.blocked, ∃ dir, Reached tree roots (.package dir) ∧
        inspect config workspace sideEffects tree dir = .ok (.blocked name)) ∧
      (∀ job ∈ found.jobs, Reached tree roots (.package job.pkgRoot) ∧
        inspect config workspace sideEffects tree job.pkgRoot = .ok (.run job)) ∧
      ((∀ dir, Reached tree roots (.scan dir) → tree.manifest dir = none) →
        ∀ dir, Reached tree roots (.package dir) →
          ∃ result, inspect config workspace sideEffects tree dir = .ok result ∧
            (∀ name, result = .blocked name → name ∈ found.blocked) ∧
            ∀ job, result = .run job → job ∈ found.jobs) := by
  refine ⟨?_, ?_⟩
  · intro dirs hdirs hfuel
    exact walkAll_ne_outOfFuel (fun root hroot x hx => hdirs x ⟨root, hroot, hx⟩) hfuel
  · intro visited found h
    obtain ⟨entered, hentered⟩ := entered_walkAll h
    obtain ⟨results, hresults, hfound⟩ := results_of_enter hentered.state
    obtain ⟨hok, hjobs, hblocked⟩ :=
      @foldl_record ⟨[], [], ∅⟩ results ⟨List.nodup_nil, by simp⟩
    obtain ⟨hsome, hfrom⟩ := mem_of_forall₂ hresults
    have hreached : ∀ dir ∈ entered.filterMap Node.packageDir?,
        Reached tree roots (.package dir) := by
      intro dir hdir
      obtain ⟨node, hnode, hpackage⟩ := List.mem_filterMap.mp hdir
      cases node with
      | scan path => cases hpackage
      | package path =>
          cases hpackage
          exact hentered.reached _ hnode
    have hnodup : (entered.filterMap Node.packageDir?).Nodup := by
      have honce := hentered.once
      refine List.Nodup.filterMap ?_ (List.Nodup.of_map _ honce)
      intro a b dir ha hb
      cases a with
      | scan => cases ha
      | package =>
          cases b with
          | scan => cases hb
          | package =>
              cases ha
              cases hb
              rfl
    simp only [List.nil_append] at hjobs
    simp only [List.not_mem_nil, false_or] at hblocked
    rw [← hfound] at hok hjobs hblocked
    refine ⟨hok.once, hjobs ▸ jobs_nodup hnodup hresults, ?_, ?_, ?_⟩
    · intro name hname
      obtain ⟨result, hresult, hblock⟩ := (hblocked name).mp hname
      obtain ⟨dir, hdir, hinspect⟩ := hfrom result hresult
      cases result with
      | blocked other =>
          cases hblock
          exact ⟨dir, hreached dir hdir, hinspect⟩
      | _ => cases hblock
    · intro job hjob
      rw [hjobs] at hjob
      obtain ⟨result, hresult, heq⟩ := List.mem_filterMap.mp hjob
      obtain ⟨dir, hdir, hinspect⟩ := hfrom result hresult
      cases result with
      | run other =>
          cases heq
          rw [(inspection_job hinspect).1]
          exact ⟨hreached dir hdir, hinspect⟩
      | _ => cases heq
    · intro hmixed dir hdir
      have hmark : ∀ x y, Reached tree roots x → Reached tree roots y → x.dir = y.dir → x = y := by
        intro x y hx hy heq
        cases x with
        | scan path =>
            cases y with
            | scan path' => exact congrArg Node.scan heq
            | package path' =>
                have hsome := reached_package path' hy
                rw [← show path = path' from heq, hmixed path hx] at hsome
                cases hsome
        | package path =>
            cases y with
            | scan path' =>
                have hsome := reached_package path hx
                rw [show path = path' from heq, hmixed path' hy] at hsome
                cases hsome
            | package path' => exact congrArg Node.package heq
      have hmem : .package dir ∈ entered := (hentered.mem_iff hmark).mpr hdir
      obtain ⟨result, hresult, hinspect⟩ := hsome dir (List.mem_filterMap.mpr ⟨_, hmem, rfl⟩)
      refine ⟨result, hinspect, ?_, ?_⟩
      · intro name heq
        exact (hblocked name).mpr ⟨result, hresult, by rw [heq]; rfl⟩
      · intro job heq
        rw [hjobs]
        exact List.mem_filterMap.mpr ⟨result, hresult, by rw [heq]; rfl⟩

def nativeManifest (name : String) : Json :=
  .object [("name", .string name), ("scripts", .object [("postinstall", .string "make")])]

/-- A package whose `node_modules` leads back to it, and a package that is blocked. -/
def linkedTree : Installed where
  readDir dir :=
    if dir = "node_modules" then
      .ok [⟨".bin", some "node_modules/.bin"⟩, ⟨"addon", some "store/addon"⟩]
    else .ok [⟨"addon", some "store/addon"⟩, ⟨"tool", some "store/tool"⟩]
  manifest dir :=
    if dir = "store/addon" then some (.ok (nativeManifest "addon"))
    else if dir = "store/tool" then some (.ok (nativeManifest "tool"))
    else none
  nodeModules dir := if dir = "store/addon" then some "store/node_modules" else none

def addonConfig : SnpmConfig :=
  ⟨.none, .ofList ["addon"] compare, ∅, "data", none, false, "^"⟩

theorem walk_exact_linkedTree : ∃ visited found,
    walkNodeModules addonConfig none (fun _ _ _ => .ok false) linkedTree 5 ["node_modules"] =
      .ok (visited, found) ∧
    found.jobs.map DepScriptJob.pkgRoot = ["store/addon"] ∧ found.blocked = ["tool"] ∧
    ∀ job ∈ found.jobs, Reached linkedTree ["node_modules"] (.package job.pkgRoot) := by
  have hrun : ((walkNodeModules addonConfig none (fun _ _ _ => .ok false) linkedTree 5
      ["node_modules"]).toOption.any fun result =>
        result.2.jobs.map DepScriptJob.pkgRoot = ["store/addon"] ∧ result.2.blocked = ["tool"]) =
          true := by
    decide +kernel
  obtain ⟨⟨visited, found⟩, hok, hfound⟩ := (Option.any_eq_true _ _).mp hrun
  have hok := toOption_eq_some hok
  have hfound := of_decide_eq_true hfound
  refine ⟨visited, found, hok, hfound.1, hfound.2, fun job hjob => ?_⟩
  exact ((walk_exact.2 visited found hok).2.2.2.1 job hjob).1

end Exact

end Snpm.Lifecycle
