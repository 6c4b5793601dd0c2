import Mathlib
import Snpm.Install.WorkspaceRoots

/-!
What the merge of two members' ranges promises. The merged range is one of the
two, picked by their floors; it satisfies both members when the picked range
lies within the other one.
-/
namespace Snpm.Install

variable (S : SemverCrate)

/-- The range parses and admits the version. -/
def Admits (range : String) (version : S.Version) : Prop :=
  ∃ set, RangeSet.parse S range = .ok set ∧ set.contains version = true

/-- A range that can be merged, with its alternatives and its floor. -/
structure Floored (range : String) (set : RangeSet S) (raw : String) (floor : S.Version) :
    Prop where
  notFile : Text.startsWith range "file:" = false
  parsed : RangeSet.parse S range = .ok set
  found : rangeFloor S range = some raw
  version : parseVersion S raw = .ok floor

/-- The floors speak for the incoming range: the existing range admits its
floor, and it is the only one to do so, or has the higher floor, or is more
specific from the same floor on. -/
def TakesIncoming (existing incoming : String) : Prop :=
  ∃ existingSet incomingSet existingRaw incomingRaw existingFloor incomingFloor,
    Floored S existing existingSet existingRaw existingFloor ∧
    Floored S incoming incomingSet incomingRaw incomingFloor ∧
    existingSet.contains incomingFloor = true ∧
    (incomingSet.contains existingFloor = false ∨
      S.cmp existingFloor incomingFloor = .lt ∨
      S.cmp existingFloor incomingFloor = .eq ∧
        specificityRank S existing < specificityRank S incoming)

/-- The floors speak for the existing range. -/
def TakesExisting (existing incoming : String) : Prop :=
  ∃ existingSet incomingSet existingRaw incomingRaw existingFloor incomingFloor,
    Floored S existing existingSet existingRaw existingFloor ∧
    Floored S incoming incomingSet incomingRaw incomingFloor ∧
    incomingSet.contains existingFloor = true ∧
    (existingSet.contains incomingFloor = false ∨
      S.cmp existingFloor incomingFloor = .gt ∨
      S.cmp existingFloor incomingFloor = .eq ∧
        specificityRank S incoming ≤ specificityRank S existing)

variable {S}

theorem floored_of_merge {existing incoming : String} {merged : RangeMerge}
    (hne : existing ≠ incoming) (h : mergeWorkspaceRanges S existing incoming = some merged) :
    ∃ existingSet incomingSet existingRaw incomingRaw existingFloor incomingFloor,
      Floored S existing existingSet existingRaw existingFloor ∧
      Floored S incoming incomingSet incomingRaw incomingFloor := by
  rw [mergeWorkspaceRanges, if_neg hne] at h
  split at h
  next => cases h
  next hfile =>
      simp only [Bool.or_eq_true, not_or, Bool.not_eq_true] at hfile
      obtain ⟨existingSet, hexistingSet, h⟩ := Option.bind_eq_some_iff.mp h
      obtain ⟨incomingSet, hincomingSet, h⟩ := Option.bind_eq_some_iff.mp h
      obtain ⟨existingRaw, hexistingRaw, h⟩ := Option.bind_eq_some_iff.mp h
      obtain ⟨incomingRaw, hincomingRaw, h⟩ := Option.bind_eq_some_iff.mp h
      obtain ⟨existingFloor, hexistingFloor, h⟩ := Option.bind_eq_some_iff.mp h
      obtain ⟨incomingFloor, hincomingFloor, -⟩ := Option.bind_eq_some_iff.mp h
      exact ⟨existingSet, incomingSet, existingRaw, incomingRaw, existingFloor, incomingFloor,
        ⟨hfile.1, toOption_eq_some hexistingSet, hexistingRaw, toOption_eq_some hexistingFloor⟩,
        ⟨hfile.2, toOption_eq_some hincomingSet, hincomingRaw, toOption_eq_some hincomingFloor⟩⟩

section Floored

variable {existing incoming : String} {existingSet incomingSet : RangeSet S}
  {existingRaw incomingRaw : String} {existingFloor incomingFloor : S.Version}
  (hexisting : Floored S existing existingSet existingRaw existingFloor)
  (hincoming : Floored S incoming incomingSet incomingRaw incomingFloor)
include hexisting hincoming

theorem chooseMoreSpecific_floored :
    chooseMoreSpecific S existing incoming existingRaw incomingRaw =
      match S.cmp existingFloor incomingFloor with
      | .lt => incoming
      | .gt => existing
      | .eq => if specificityRank S existing < specificityRank S incoming then incoming
          else existing := by
  rewrite [chooseMoreSpecific, hexisting.version, hincoming.version]
  rfl

/-- The merge of two mergeable ranges, without its guards. -/
theorem merge_floored (hne : existing ≠ incoming) :
    mergeWorkspaceRanges S existing incoming =
      match existingSet.contains incomingFloor, incomingSet.contains existingFloor with
      | true, true =>
          some (.compatible (chooseMoreSpecific S existing incoming existingRaw incomingRaw))
      | true, false => some (.compatible incoming)
      | false, true => some (.compatible existing)
      | false, false =>
          some (.exclusive (chooseMoreSpecific S existing incoming existingRaw incomingRaw)) := by
  rw [mergeWorkspaceRanges, if_neg hne, hexisting.notFile, hincoming.notFile]
  simp only [Bool.or_self, Bool.false_eq_true, if_false]
  rw [hexisting.parsed, hincoming.parsed, hexisting.found, hincoming.found]
  cases haccepts : existingSet.contains incomingFloor <;>
    cases hadmitted : incomingSet.contains existingFloor <;>
      simp only [Except.toOption, Option.bind_eq_bind, Option.bind_some, hexisting.version,
        hincoming.version, haccepts, hadmitted]

theorem merge_eq_incoming (hne : existing ≠ incoming)
    (haccepts : existingSet.contains incomingFloor = true)
    (hpick : incomingSet.contains existingFloor = false ∨
      S.cmp existingFloor incomingFloor = .lt ∨
      S.cmp existingFloor incomingFloor = .eq ∧
        specificityRank S existing < specificityRank S incoming) :
    mergeWorkspaceRanges S existing incoming = some (.compatible incoming) := by
  rw [merge_floored hexisting hincoming hne, chooseMoreSpecific_floored hexisting hincoming,
    haccepts]
  cases hback : incomingSet.contains existingFloor with
  | false => rfl
  | true =>
      rcases hpick with hfalse | hlt | ⟨heq, hrank⟩
      · rw [hback] at hfalse
        cases hfalse
      · rw [hlt]
      · simp only [heq, if_pos hrank]

theorem merge_eq_existing (hne : existing ≠ incoming)
    (haccepts : incomingSet.contains existingFloor = true)
    (hpick : existingSet.contains incomingFloor = false ∨
      S.cmp existingFloor incomingFloor = .gt ∨
      S.cmp existingFloor incomingFloor = .eq ∧
        specificityRank S incoming ≤ specificityRank S existing) :
    mergeWorkspaceRanges S existing incoming = some (.compatible existing) := by
  rw [merge_floored hexisting hincoming hne, chooseMoreSpecific_floored hexisting hincoming,
    haccepts]
  cases hforth : existingSet.contains incomingFloor with
  | false => rfl
  | true =>
      rcases hpick with hfalse | hgt | ⟨heq, hrank⟩
      · rw [hforth] at hfalse
        cases hfalse
      · rw [hgt]
      · simp only [heq, if_neg (Nat.not_lt.mpr hrank)]

/-- A compatible merge is one of the two picks. -/
theorem pick_of_compatible {merged : String} (hne : existing ≠ incoming)
    (h : mergeWorkspaceRanges S existing incoming = some (.compatible merged)) :
    merged = incoming ∧ TakesIncoming S existing incoming ∨
      merged = existing ∧ TakesExisting S existing incoming := by
  rw [merge_floored hexisting hincoming hne, chooseMoreSpecific_floored hexisting hincoming] at h
  cases hforth : existingSet.contains incomingFloor with
  | false =>
      cases hback : incomingSet.contains existingFloor with
      | false =>
          rw [hforth, hback] at h
          cases h
      | true =>
          rw [hforth, hback] at h
          cases h
          exact .inr ⟨rfl, _, _, _, _, _, _, hexisting, hincoming, hback, .inl hforth⟩
  | true =>
      cases hback : incomingSet.contains existingFloor with
      | false =>
          rw [hforth, hback] at h
          cases h
          exact .inl ⟨rfl, _, _, _, _, _, _, hexisting, hincoming, hforth, .inl hback⟩
      | true =>
          rw [hforth, hback] at h
          simp only [Option.some.injEq, RangeMerge.compatible.injEq] at h
          cases hcmp : S.cmp existingFloor incomingFloor with
          | lt =>
              simp only [hcmp] at h
              exact .inl ⟨h.symm, _, _, _, _, _, _, hexisting, hincoming, hforth, .inr (.inl hcmp)⟩
          | gt =>
              simp only [hcmp] at h
              exact .inr ⟨h.symm, _, _, _, _, _, _, hexisting, hincoming, hback, .inr (.inl hcmp)⟩
          | eq =>
              simp only [hcmp] at h
              split at h
              next hrank =>
                  exact .inl ⟨h.symm, _, _, _, _, _, _, hexisting, hincoming, hforth,
                    .inr (.inr ⟨hcmp, hrank⟩)⟩
              next hrank =>
                  exact .inr ⟨h.symm, _, _, _, _, _, _, hexisting, hincoming, hback,
                    .inr (.inr ⟨hcmp, Nat.not_lt.mp hrank⟩)⟩

end Floored

/-- The range that the floors speak for lies within the other one. -/
structure PickNested (S : SemverCrate) (existing incoming : String) : Prop where
  incoming_within : TakesIncoming S existing incoming →
    ∀ version, Admits S incoming version → Admits S existing version
  existing_within : TakesExisting S existing incoming →
    ∀ version, Admits S existing version → Admits S incoming version

end Snpm.Install
