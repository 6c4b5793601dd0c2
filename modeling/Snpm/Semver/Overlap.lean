import Mathlib
import Snpm.Library.LowEnds
import Snpm.Semver.Precedence

/-!
Whether two requirements admit a version in common. Among releases every comparator
admits an interval, among the pre-releases of one release an interval of pre-releases;
so it is enough to try the low ends of the comparators.
-/
namespace Snpm.Semver

section Releases

/-- A comparator as a text gives it: 64-bit numbers, and none behind a missing one. -/
structure IsWritten (c : Comparator) : Prop where
  major : c.major < 2 ^ 64
  minor : ∀ m ∈ c.minor, m < 2 ^ 64
  patch : ∀ p ∈ c.patch, p < 2 ^ 64 ∧ c.minor ≠ none
  pre : ∀ q ∈ c.pre, c.patch ≠ none ∧ isPre q = true

/-- The place of a release among all releases. -/
def place (major minor patch : Nat) : Nat := major * 2 ^ 128 + minor * 2 ^ 64 + patch

def Version.place (v : Version) : Nat := Semver.place v.major.val v.minor.val v.patch.val

def releaseAt (n : Nat) : Version where
  major := ⟨n / 2 ^ 128 % 2 ^ 64, Nat.mod_lt _ (by decide)⟩
  minor := ⟨n / 2 ^ 64 % 2 ^ 64, Nat.mod_lt _ (by decide)⟩
  patch := ⟨n % 2 ^ 64, Nat.mod_lt _ (by decide)⟩
  pre := none

def Comparator.place (c : Comparator) : Nat :=
  Semver.place c.major (c.minor.getD 0) (c.patch.getD 0)

/-- How many releases the written numbers stand for. -/
def Comparator.width (c : Comparator) : Nat :=
  match c.minor, c.patch with
  | some _, some _ => 1
  | some _, none => 2 ^ 64
  | none, _ => 2 ^ 128

/-- The first release that is admitted, if any is. -/
def releaseLow (c : Comparator) : Nat :=
  match c.op with
  | .greater => if c.pre = none then c.place + c.width else c.place
  | .less => 0
  | .lessEq => 0
  | _ => c.place

/-- The first release behind those that are admitted. -/
def releaseHigh (c : Comparator) : Nat :=
  match c.op with
  | .exact => if c.pre = none then c.place + c.width else 0
  | .wildcard => if c.pre = none then c.place + c.width else 0
  | .greater => 2 ^ 192
  | .greaterEq => 2 ^ 192
  | .less => c.place
  | .lessEq => if c.pre = none then c.place + c.width else c.place
  | .tilde =>
      match c.minor with
      | none => place (c.major + 1) 0 0
      | some minor => place c.major (minor + 1) 0
  | .caret =>
      match c.minor, c.patch with
      | none, _ => place (c.major + 1) 0 0
      | some minor, none =>
          if c.major > 0 then place (c.major + 1) 0 0 else place c.major (minor + 1) 0
      | some minor, some patch =>
          if c.major > 0 then place (c.major + 1) 0 0
          else if minor > 0 then place c.major (minor + 1) 0
          else place c.major minor (patch + 1)

theorem place_releaseAt {n : Nat} (h : n < 2 ^ 192) : (releaseAt n).place = n := by
  unfold Version.place releaseAt place
  dsimp only
  omega

theorem place_lt (v : Version) : v.place < 2 ^ 192 := by
  have hmajor := v.major.isLt
  have hminor := v.minor.isLt
  have hpatch := v.patch.isLt
  unfold Version.place place
  omega

theorem releaseAt_place {v : Version} (h : v.pre = none) : releaseAt v.place = v := by
  obtain ⟨major, minor, patch, pre⟩ := v
  cases h
  have hmajor := major.isLt
  have hminor := minor.isLt
  have hpatch := patch.isLt
  unfold releaseAt Version.place place
  dsimp only
  congr 1
  · apply Fin.ext
    dsimp only
    omega
  · apply Fin.ext
    dsimp only
    omega
  · apply Fin.ext
    dsimp only
    omega

variable {before : String → String → Bool} {i j k : Fin (2 ^ 64)} {op : Op} {a : Nat}
  {pre : Option String}

/-! What each operator admits among the releases, for one, two and three written numbers. -/

theorem exact_one : matchesExact ⟨op, a, none, none, pre⟩ ⟨i, j, k, none⟩ = true ↔
    pre = none ∧ place a 0 0 ≤ place i j k ∧ place i j k < place a 0 0 + 2 ^ 128 := by
  have hj := j.isLt
  have hk := k.isLt
  unfold matchesExact place
  cases pre with
  | none =>
      simp only [Option.all_none, Bool.and_true, decide_true, decide_eq_true_eq, true_and]
      omega
  | some q => simp

theorem exact_two {b : Nat} (hb : b < 2 ^ 64) :
    matchesExact ⟨op, a, some b, none, pre⟩ ⟨i, j, k, none⟩ = true ↔
      pre = none ∧ place a b 0 ≤ place i j k ∧ place i j k < place a b 0 + 2 ^ 64 := by
  have hj := j.isLt
  have hk := k.isLt
  unfold matchesExact place
  cases pre with
  | none =>
      simp only [Option.all_none, Option.all_some, Bool.and_true, decide_true, Bool.and_eq_true,
        decide_eq_true_eq, true_and]
      omega
  | some q => simp

theorem exact_three {b c : Nat} (hb : b < 2 ^ 64) (hc : c < 2 ^ 64) :
    matchesExact ⟨op, a, some b, some c, pre⟩ ⟨i, j, k, none⟩ = true ↔
      pre = none ∧ place a b c ≤ place i j k ∧ place i j k < place a b c + 1 := by
  have hj := j.isLt
  have hk := k.isLt
  unfold matchesExact place
  cases pre with
  | none =>
      simp only [Option.all_some, Bool.and_true, decide_true, Bool.and_eq_true,
        decide_eq_true_eq, true_and]
      omega
  | some q => simp

theorem greater_one : matchesGreater before ⟨op, a, none, none, pre⟩ ⟨i, j, k, none⟩ = true ↔
    place a 0 0 + 2 ^ 128 ≤ place i j k := by
  have hj := j.isLt
  have hk := k.isLt
  unfold matchesGreater place
  by_cases hi : i.val = a
  · simp only [hi, ne_eq, not_true_eq_false, if_false, Option.any_none, Bool.false_eq_true, false_iff]
    omega
  · simp only [hi, ne_eq, not_false_eq_true, if_true, decide_eq_true_eq]
    omega

theorem greater_two {b : Nat} (hb : b < 2 ^ 64) :
    matchesGreater before ⟨op, a, some b, none, pre⟩ ⟨i, j, k, none⟩ = true ↔
      place a b 0 + 2 ^ 64 ≤ place i j k := by
  have hj := j.isLt
  have hk := k.isLt
  unfold matchesGreater place
  by_cases hi : i.val = a
  · by_cases hminor : j.val = b
    · simp only [hi, hminor, ne_eq, not_true_eq_false, if_false, Option.any_some, Option.any_none,
        Bool.false_eq_true, false_iff]
      omega
    · simp only [hi, hminor, ne_eq, not_true_eq_false, not_false_eq_true, if_false, if_true,
        Option.any_some, decide_eq_true_eq]
      omega
  · simp only [hi, ne_eq, not_false_eq_true, if_true, decide_eq_true_eq]
    omega

theorem greater_three {b c : Nat} (hb : b < 2 ^ 64) (hc : c < 2 ^ 64) :
    matchesGreater before ⟨op, a, some b, some c, pre⟩ ⟨i, j, k, none⟩ = true ↔
      (if pre = none then place a b c + 1 else place a b c) ≤ place i j k := by
  have hj := j.isLt
  have hk := k.isLt
  unfold matchesGreater place
  by_cases hi : i.val = a
  · by_cases hminor : j.val = b
    · by_cases hpatch : k.val = c
      · cases pre with
        | none =>
            simp only [hi, hminor, hpatch, ne_eq, not_true_eq_false, if_false, if_true,
              Option.any_some, preBefore, Bool.false_eq_true, false_iff]
            omega
        | some q =>
            simp only [hi, hminor, hpatch, ne_eq, not_true_eq_false, if_false, Option.any_some,
              preBefore, true_iff, reduceCtorEq]
            omega
      · simp only [hi, hminor, hpatch, ne_eq, not_true_eq_false, not_false_eq_true, if_false,
          if_true, Option.any_some, decide_eq_true_eq]
        split <;> omega
    · simp only [hi, hminor, ne_eq, not_true_eq_false, not_false_eq_true, if_false, if_true,
        Option.any_some, decide_eq_true_eq]
      split <;> omega
  · simp only [hi, ne_eq, not_false_eq_true, if_true, decide_eq_true_eq]
    split <;> omega

theorem less_one : matchesLess before ⟨op, a, none, none, pre⟩ ⟨i, j, k, none⟩ = true ↔
    place i j k < place a 0 0 := by
  have hj := j.isLt
  have hk := k.isLt
  unfold matchesLess place
  by_cases hi : i.val = a
  · simp only [hi, ne_eq, not_true_eq_false, if_false, Option.any_none, Bool.false_eq_true, false_iff]
    omega
  · simp only [hi, ne_eq, not_false_eq_true, if_true, decide_eq_true_eq]
    omega

theorem less_two {b : Nat} (hb : b < 2 ^ 64) :
    matchesLess before ⟨op, a, some b, none, pre⟩ ⟨i, j, k, none⟩ = true ↔
      place i j k < place a b 0 := by
  have hj := j.isLt
  have hk := k.isLt
  unfold matchesLess place
  by_cases hi : i.val = a
  · by_cases hminor : j.val = b
    · simp only [hi, hminor, ne_eq, not_true_eq_false, if_false, Option.any_some, Option.any_none,
        Bool.false_eq_true, false_iff]
      omega
    · simp only [hi, hminor, ne_eq, not_true_eq_false, not_false_eq_true, if_false, if_true,
        Option.any_some, decide_eq_true_eq]
      omega
  · simp only [hi, ne_eq, not_false_eq_true, if_true, decide_eq_true_eq]
    omega

theorem less_three {b c : Nat} (hb : b < 2 ^ 64) (hc : c < 2 ^ 64) :
    matchesLess before ⟨op, a, some b, some c, pre⟩ ⟨i, j, k, none⟩ = true ↔
      place i j k < place a b c := by
  have hj := j.isLt
  have hk := k.isLt
  unfold matchesLess place
  by_cases hi : i.val = a
  · by_cases hminor : j.val = b
    · by_cases hpatch : k.val = c
      · simp only [hi, hminor, hpatch, ne_eq, not_true_eq_false, if_false, Option.any_some,
          preBefore, Bool.false_eq_true, false_iff]
        omega
      · simp only [hi, hminor, hpatch, ne_eq, not_true_eq_false, not_false_eq_true, if_false,
          if_true, Option.any_some, decide_eq_true_eq]
        omega
    · simp only [hi, hminor, ne_eq, not_true_eq_false, not_false_eq_true, if_false, if_true,
        Option.any_some, decide_eq_true_eq]
      omega
  · simp only [hi, ne_eq, not_false_eq_true, if_true, decide_eq_true_eq]
    omega

/-- A release comes behind every pre-release and itself. -/
theorem preAtLeast_none (pre : Option String) : preAtLeast before none pre = true := by
  cases pre with
  | none => rfl
  | some q => rfl

theorem tilde_one : matchesTilde before ⟨op, a, none, none, pre⟩ ⟨i, j, k, none⟩ = true ↔
    place a 0 0 ≤ place i j k ∧ place i j k < place (a + 1) 0 0 := by
  have hj := j.isLt
  have hk := k.isLt
  unfold matchesTilde place
  simp only [preAtLeast_none, Option.all_none, Option.any_none, Bool.false_eq_true, if_false,
    Bool.and_true, decide_eq_true_eq]
  omega

theorem tilde_two {b : Nat} (hb : b < 2 ^ 64) :
    matchesTilde before ⟨op, a, some b, none, pre⟩ ⟨i, j, k, none⟩ = true ↔
      place a b 0 ≤ place i j k ∧ place i j k < place a (b + 1) 0 := by
  have hj := j.isLt
  have hk := k.isLt
  unfold matchesTilde place
  simp only [preAtLeast_none, Option.all_some, Option.any_none, Bool.false_eq_true, if_false,
    Bool.and_true, Bool.and_eq_true, decide_eq_true_eq]
  omega

theorem tilde_three {b c : Nat} (hb : b < 2 ^ 64) (hc : c < 2 ^ 64) :
    matchesTilde before ⟨op, a, some b, some c, pre⟩ ⟨i, j, k, none⟩ = true ↔
      place a b c ≤ place i j k ∧ place i j k < place a (b + 1) 0 := by
  have hj := j.isLt
  have hk := k.isLt
  unfold matchesTilde place
  by_cases hpatch : k.val = c
  · simp only [hpatch, preAtLeast_none, Option.all_some, Option.any_some, ne_eq, not_true_eq_false,
      decide_false, Bool.false_eq_true, if_false, Bool.and_true, Bool.and_eq_true, decide_eq_true_eq]
    omega
  · simp only [hpatch, Option.all_some, Option.any_some, ne_eq, not_false_eq_true, decide_true,
      if_true, Bool.and_eq_true, decide_eq_true_eq]
    omega

theorem caret_one {patch : Option Nat} :
    matchesCaret before ⟨op, a, none, patch, pre⟩ ⟨i, j, k, none⟩ = true ↔
      place a 0 0 ≤ place i j k ∧ place i j k < place (a + 1) 0 0 := by
  have hj := j.isLt
  have hk := k.isLt
  unfold matchesCaret place
  simp only [Bool.and_true, decide_eq_true_eq]
  omega

theorem caret_two {b : Nat} (hb : b < 2 ^ 64) :
    matchesCaret before ⟨op, a, some b, none, pre⟩ ⟨i, j, k, none⟩ = true ↔
      place a b 0 ≤ place i j k ∧
        place i j k < if a > 0 then place (a + 1) 0 0 else place a (b + 1) 0 := by
  have hj := j.isLt
  have hk := k.isLt
  unfold matchesCaret place
  by_cases ha : a > 0
  · simp only [ha, if_true, Bool.and_eq_true, decide_eq_true_eq]
    omega
  · simp only [ha, if_false, Bool.and_eq_true, decide_eq_true_eq]
    omega

theorem caret_three {b c : Nat} (hb : b < 2 ^ 64) (hc : c < 2 ^ 64) :
    matchesCaret before ⟨op, a, some b, some c, pre⟩ ⟨i, j, k, none⟩ = true ↔
      place a b c ≤ place i j k ∧
        place i j k < if a > 0 then place (a + 1) 0 0
          else if b > 0 then place a (b + 1) 0 else place a b (c + 1) := by
  have hj := j.isLt
  have hk := k.isLt
  unfold matchesCaret place
  by_cases ha : a > 0
  · by_cases hminor : j.val = b
    · by_cases hpatch : k.val = c
      · simp only [ha, hminor, hpatch, preAtLeast_none, ne_eq, not_true_eq_false, and_false, if_false,
          if_true, Bool.and_true, decide_eq_true_eq]
        omega
      · simp only [ha, hminor, hpatch, ne_eq, not_true_eq_false, not_false_eq_true, and_false,
          if_false, if_true, decide_true, Bool.true_or, Bool.true_and, Bool.and_eq_true,
          decide_eq_true_eq]
        omega
    · simp only [ha, hminor, ne_eq, not_false_eq_true, and_self, if_true, Bool.and_eq_true,
        decide_eq_true_eq]
      omega
  · by_cases hminor : j.val = b
    · by_cases hpatch : k.val = c
      · simp only [ha, hminor, hpatch, preAtLeast_none, ne_eq, not_true_eq_false, false_and, if_false,
          Bool.and_true, decide_eq_true_eq]
        split <;> omega
      · by_cases hb0 : b > 0
        · simp only [ha, hminor, hpatch, hb0, ne_eq, not_true_eq_false, not_false_eq_true, false_and,
            if_false, if_true, decide_true, decide_false, Bool.or_true, Bool.true_and,
            Bool.and_eq_true, decide_eq_true_eq]
          omega
        · simp only [ha, hminor, hpatch, hb0, ne_eq, not_true_eq_false, not_false_eq_true, false_and,
            if_false, if_true, decide_false, Bool.or_self, Bool.false_and, Bool.and_false,
            Bool.false_eq_true, false_iff]
          omega
    · simp only [ha, hminor, ne_eq, not_false_eq_true, false_and, if_false, if_true, Bool.and_false,
        Bool.false_eq_true, false_iff]
      split <;> omega

end Releases

end Snpm.Semver
