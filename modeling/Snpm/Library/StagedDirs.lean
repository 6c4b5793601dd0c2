import Mathlib
import Snpm.Library.CrashLogic
import Snpm.Library.OrderedMap

/-!
Directories by name, each with its files, and the operations that fill a directory under
a passing name and rename it when it is done. Removing a directory can stop with some of
its files gone, writing a file with some of its text written; a rename is done or not.
-/
namespace StagedDirs

open CrashLogic

abbrev Dir (V : Type) := BTreeMap String V

abbrev Dirs (V : Type) := BTreeMap String (Dir V)

variable {V : Type}

/-- What can be left of a directory that is being removed. -/
def Within (d' d : Dir V) : Prop :=
  ∀ (file : String) (v : V), d'[file]? = some v → d[file]? = some v

section Operations

variable {ε : Type} (error : ε)

def removeDirAll (name : String) : Prog (Dirs V) ε Unit :=
  .write (fun s s' => ∃ d d', s[name]? = some d ∧ Within d' d ∧ s' = s.insert name d')
    fun s => if s.contains name then .ok (s.erase name) else .error error

def createDirAll (name : String) : Prog (Dirs V) ε Unit :=
  .write (fun _ _ => False) fun s => .ok (if s.contains name then s else s.insert name ∅)

/-- A file is written with what can be there of it before it is complete. -/
def writeFile (partOf : V → V → Prop) (name file : String) (v : V) : Prog (Dirs V) ε Unit :=
  .write
    (fun s s' => ∃ d part, s[name]? = some d ∧ partOf part v ∧
      s' = s.insert name (d.insert file part))
    fun s =>
      match s[name]? with
      | some d => .ok (s.insert name (d.insert file v))
      | none => .error error

/-- A directory with files is not replaced. -/
def rename (source destination : String) : Prog (Dirs V) ε Unit :=
  .write (fun _ _ => False) fun s =>
    match s[source]? with
    | some d =>
        if (s[destination]?).all (·.isEmpty) then .ok ((s.erase source).insert destination d)
        else .error error
    | none => .error error

def clear (name : String) : Prog (Dirs V) ε Unit := do
  if ← Prog.read fun s => .ok (s.contains name) then removeDirAll error name

/-- Mark a filled directory as complete and give it its name. -/
def publish (marker : String) (empty : V) (staged name : String) : Prog (Dirs V) ε Unit := do
  writeFile error (· = ·) staged marker empty
  clear error name
  rename error staged name

end Operations

section Triples

variable {ε : Type} {error : ε} {partOf : V → V → Prop} {name file : String} {v : V}
  {s₀ : Dirs V} {before crash : Option (Dir V) → Prop}

/-- One directory satisfies a condition, and the others are those of a given store. -/
def At (name : String) (s₀ : Dirs V) (P : Option (Dir V) → Prop) (s : Dirs V) : Prop :=
  P s[name]? ∧ ∀ other, other ≠ name → s[other]? = s₀[other]?

theorem At.start {P : Option (Dir V) → Prop} (h : P s₀[name]?) : At name s₀ P s₀ :=
  ⟨h, fun _ _ => rfl⟩

theorem At.mono {P Q : Option (Dir V) → Prop} {s : Dirs V} (h : At name s₀ P s) (hPQ : ∀ o, P o → Q o) :
    At name s₀ Q s := ⟨hPQ _ h.1, h.2⟩

theorem At.insert {P Q : Option (Dir V) → Prop} {s : Dirs V} {d : Dir V} (h : At name s₀ P s)
    (hd : Q (some d)) : At name s₀ Q (s.insert name d) := by
  refine ⟨?_, fun other hother => ?_⟩
  · rw [BTreeMap.getElem?_insert_self_or, if_pos rfl]
    exact hd
  · rw [BTreeMap.getElem?_insert_self_or, if_neg hother.symm]
    exact h.2 other hother

theorem At.erase {P Q : Option (Dir V) → Prop} {s : Dirs V} (h : At name s₀ P s) (hnone : Q none) :
    At name s₀ Q (s.erase name) := by
  refine ⟨?_, fun other hother => ?_⟩
  · rw [Std.ExtTreeMap.getElem?_erase_self]
    exact hnone
  · rw [Std.ExtTreeMap.getElem?_erase]
    simp only [Std.LawfulEqCmp.compare_eq_iff_eq, if_neg hother.symm]
    exact h.2 other hother

variable (name s₀ before crash) in
theorem clear_triple (hbefore : ∀ o, before o → crash o) (hnone : crash none)
    (hwithin : ∀ d d', before (some d) → Within d' d → crash (some d')) :
    Triple (At name s₀ before) (At name s₀ crash) (clear error name)
      fun _ => At name s₀ (· = none) := by
  have hread : Triple (At name s₀ before) (At name s₀ crash)
      (Prog.read fun s => .ok (s.contains name) : Prog (Dirs V) ε Bool)
      fun found s => At name s₀ before s ∧ found = s.contains name :=
    .read (fun s hs => hs.mono hbefore) fun s found hs hok => by
      cases hok
      exact ⟨hs, rfl⟩
  refine hread.bind fun found => ?_
  cases found with
  | false =>
      refine .pure () fun s hs => ⟨hs.1.mono hbefore, ?_, hs.1.2⟩
      have habsent := hs.2
      rw [Std.ExtTreeMap.contains_eq_isSome_getElem?] at habsent
      exact Option.isSome_eq_false_iff.mp habsent.symm |> Option.isNone_iff_eq_none.mp
  | true =>
      refine .write (fun s hs => hs.1.mono hbefore) ?_ ?_
      · intro s s' hs hhalf
        obtain ⟨d, d', hd, hpart, heq⟩ := hhalf
        subst heq
        have hold := hs.1.1
        rw [hd] at hold
        exact hs.1.insert (hwithin d d' hold hpart)
      · intro s s' hs hok
        rw [if_pos hs.2.symm] at hok
        cases hok
        exact ⟨hs.1.erase hnone, hs.1.erase rfl⟩

theorem createDirAll_triple (hnone : crash none) (hempty : crash (some ∅)) :
    Triple (At name s₀ (· = none)) (At name s₀ crash) (createDirAll name : Prog (Dirs V) ε Unit)
      fun _ => At name s₀ (· = some ∅) := by
  refine .write ?_ (fun _ _ _ hhalf => hhalf.elim) ?_
  · intro s hs
    refine hs.mono fun o ho => ?_
    rw [ho]
    exact hnone
  · intro s s' hs hok
    have habsent : s.contains name = false := by
      rw [Std.ExtTreeMap.contains_eq_isSome_getElem?, hs.1]
      rfl
    simp only [habsent, Bool.false_eq_true, if_false, Except.ok.injEq] at hok
    subst hok
    exact ⟨hs.insert hempty, hs.insert rfl⟩

variable (name s₀ before crash) in
theorem writeFile_triple (hbefore : ∀ o, before o → crash o)
    (hpart : ∀ d part, before (some d) → partOf part v → crash (some (d.insert file part)))
    (hwhole : ∀ d, before (some d) → crash (some (d.insert file v))) :
    Triple (At name s₀ before) (At name s₀ crash) (writeFile error partOf name file v)
      fun _ => At name s₀ fun o => ∃ d, before (some d) ∧ o = some (d.insert file v) := by
  refine .write (fun s hs => hs.mono hbefore) ?_ ?_
  · intro s s' hs hhalf
    obtain ⟨d, part, hd, hprefix, heq⟩ := hhalf
    subst heq
    have hold := hs.1
    rw [hd] at hold
    exact hs.insert (hpart d part hold hprefix)
  · intro s s' hs hok
    have hold := hs.1
    cases hd : s[name]? with
    | none => simp [hd] at hok
    | some d =>
        simp only [hd, Except.ok.injEq] at hok
        subst hok
        rw [hd] at hold
        exact ⟨hs.insert (hwhole d hold), hs.insert ⟨d, hold, rfl⟩⟩

end Triples

section Sound

variable {ε : Type} {error : ε} {good : String → Dir V → Prop}
  {marker staged name : String} {empty : V} {ready : Dir V → Prop}

/-- Every directory is good under its name. -/
def Sound (good : String → Dir V → Prop) (s : Dirs V) : Prop :=
  ∀ (name : String) (d : Dir V), s[name]? = some d → good name d

theorem Sound.of_at {s₀ s : Dirs V} (h : Sound good s₀)
    (hat : At name s₀ (fun o => ∀ d, o = some d → good name d) s) : Sound good s := by
  intro other d hd
  by_cases hother : other = name
  · subst hother
    exact hat.1 d hd
  · rw [hat.2 other hother] at hd
    exact h other d hd

theorem Sound.moved {s s' : Dirs V} {d : Dir V} (h : Sound good s)
    (hothers : ∀ other, other ≠ name → s'[other]? = s[other]?) (hd : good name d) :
    Sound good ((s'.erase staged).insert name d) := by
  intro other e he
  rw [BTreeMap.getElem?_insert_self_or] at he
  split at he
  next heq =>
      subst heq
      rw [← Option.some.inj he]
      exact hd
  next hother =>
      rw [Std.ExtTreeMap.getElem?_erase] at he
      split at he
      next => cases he
      next =>
          rw [hothers other (Ne.symm hother)] at he
          exact h other e he

/-- What is left of a directory while it is removed is good. -/
def Removable (good : String → Dir V → Prop) (name : String) (s : Dirs V) : Prop :=
  ∀ d d', s[name]? = some d → Within d' d → good name d'

theorem clear_sound {s₀ : Dirs V} (hsound : Sound good s₀) (hremovable : Removable good name s₀) :
    Triple (· = s₀) (Sound good) (clear error name) fun _ => At name s₀ (· = none) := by
  refine (clear_triple name s₀ (· = s₀[name]?) (fun o => ∀ d, o = some d → good name d)
    ?_ ?_ ?_).consequence ?_ ?_ ?_
  · intro o ho d hd
    exact hsound name d (ho.symm.trans hd)
  · intro d hd
    cases hd
  · intro d d' hd hwithin e he
    rw [← Option.some.inj he]
    exact hremovable d d' hd.symm hwithin
  · intro s hs
    rw [hs]
    exact At.start rfl
  · exact fun s hs => hsound.of_at hs
  · exact fun _ _ hs => hs

variable (error good marker empty ready) in
/-- A staged directory is published without a moment at which a directory is not good. -/
theorem publish_triple (hne : staged ≠ name)
    (hready : ∀ d, ready d → good name (d.insert marker empty) ∧ good staged (d.insert marker empty)) :
    Triple
      (fun s => Sound good s ∧ Removable good name s ∧ ∃ d, s[staged]? = some d ∧ ready d)
      (Sound good) (publish error marker empty staged name)
      fun _ s => Sound good s ∧ ∃ d, s[name]? = some (d.insert marker empty) ∧ ready d := by
  refine .each fun s₀ hpre => ?_
  obtain ⟨hsound, hremovable, d, hd, hd_ready⟩ := hpre
  have hwritten : Triple (· = s₀) (Sound good) (writeFile error (· = ·) staged marker empty)
      fun _ => At staged s₀ (· = some (d.insert marker empty)) := by
    refine (writeFile_triple staged s₀ (· = some d) (fun o => ∀ e, o = some e → good staged e)
      ?_ ?_ ?_).consequence ?_ ?_ ?_
    · intro o ho e he
      rw [ho, Option.some.injEq] at he
      rw [← he]
      exact hsound staged d hd
    · intro e part he hpart f hf
      rw [← Option.some.inj hf, Option.some.inj he, hpart]
      exact (hready d hd_ready).2
    · intro e he f hf
      rw [← Option.some.inj hf, Option.some.inj he]
      exact (hready d hd_ready).2
    · intro s hs
      rw [hs]
      exact At.start hd
    · exact fun s hs => hsound.of_at hs
    · intro u s hs
      refine hs.mono fun o ho => ?_
      obtain ⟨e, he, heq⟩ := ho
      rw [heq, Option.some.inj he]
  refine hwritten.bind fun _ => .each fun s₁ hs₁ => ?_
  have hsound₁ : Sound good s₁ := by
    refine hsound.of_at (hs₁.mono fun o ho e he => ?_)
    rw [ho] at he
    rw [← Option.some.inj he]
    exact (hready d hd_ready).2
  have hcleared : Triple (· = s₁) (Sound good) (clear error name)
      fun _ => At name s₁ (· = none) :=
    clear_sound hsound₁ fun e e' he => hremovable e e' ((hs₁.2 name hne.symm).symm.trans he)
  refine hcleared.bind fun _ => .write ?_ (fun _ _ _ hhalf => hhalf.elim) ?_
  · intro s hs
    refine hsound₁.of_at (hs.mono fun o ho e he => ?_)
    rw [ho] at he
    cases he
  · intro s s' hs hok
    have hstaged : s[staged]? = some (d.insert marker empty) := (hs.2 staged hne).trans hs₁.1
    have hfree : s[name]? = none := hs.1
    simp only [hstaged, hfree, Option.all_none, if_true, Except.ok.injEq] at hok
    subst hok
    have hname : ((s.erase staged).insert name (d.insert marker empty))[name]? =
        some (d.insert marker empty) := by
      rw [BTreeMap.getElem?_insert_self_or, if_pos rfl]
    have hfinal : Sound good ((s.erase staged).insert name (d.insert marker empty)) :=
      hsound₁.moved hs.2 (hready d hd_ready).1
    exact ⟨hfinal, hfinal, d, hname, hd_ready⟩

end Sound

end StagedDirs
