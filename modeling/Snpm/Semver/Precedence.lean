import Mathlib
import Snpm.Library.Words
import Snpm.Semver.Requirement

/-!
The precedence of pre-releases: their identifiers are compared one after the other,
numbers by their value and before words, and a beginning comes before what goes on.
-/
namespace Snpm.Semver

section Keys

def isNumeric (s : String) : Bool := s ≠ "" && s.toList.all Text.isAsciiDigit

def codes (s : String) : List Nat := s.toList.map Char.toNat

/-- Numbers have no leading zeros, so the longer one is the greater. -/
def identifierKey (s : String) : List Nat :=
  if isNumeric s then 0 :: s.length :: codes s else 1 :: codes s

def precedenceKey (pre : String) : List (List Nat) :=
  (Text.split pre (· = '.')).map identifierKey

/-- The first pre-release comes before the second. -/
def precedes (p q : String) : Bool := decide (precedenceKey p < precedenceKey q)

theorem codes_injective {s t : String} (h : codes s = codes t) : s = t := by
  have hlist := List.map_injective_iff.mpr (fun a b hab => Char.toNat_inj.mp hab) h
  exact String.toList_inj.mp hlist

theorem identifierKey_injective {s t : String} (h : identifierKey s = identifierKey t) : s = t := by
  unfold identifierKey at h
  split at h
  · split at h
    · rw [List.cons.injEq, List.cons.injEq] at h
      exact codes_injective h.2.2
    · rw [List.cons.injEq] at h
      exact absurd h.1 (by decide)
  · split at h
    · rw [List.cons.injEq] at h
      exact absurd h.1 (by decide)
    · rw [List.cons.injEq] at h
      exact codes_injective h.2

theorem precedenceKey_injective {p q : String} (h : precedenceKey p = precedenceKey q) : p = q := by
  have hsplit : Text.split p (· = '.') = Text.split q (· = '.') :=
    List.map_injective_iff.mpr (fun a b hab => identifierKey_injective hab) h
  rw [← Text.intercalate_split p '.', ← Text.intercalate_split q '.', hsplit]

/-- No identifier comes before the number zero. -/
theorem identifierKey_zero_le (s : String) : identifierKey "0" ≤ identifierKey s := by
  have hzero : identifierKey "0" = [0, 1, 48] := by decide
  rw [hzero, ← not_lt]
  intro hlt
  unfold identifierKey at hlt
  split at hlt
  · rename_i hnumeric
    rw [isNumeric, Bool.and_eq_true, decide_eq_true_eq] at hnumeric
    rw [List.cons_lt_cons_iff, List.cons_lt_cons_iff] at hlt
    cases hlist : s.toList with
    | nil => exact hnumeric.1 (String.toList_inj.mp hlist)
    | cons c cs =>
        have hlength : s.length = cs.length + 1 := by
          rw [← String.length_toList, hlist, List.length_cons]
        have hdigit := List.all_eq_true.mp hnumeric.2 c (by rw [hlist]; exact List.mem_cons_self)
        rw [Text.isAsciiDigit, Bool.and_eq_true, decide_eq_true_eq, decide_eq_true_eq] at hdigit
        have hlow : 48 ≤ c.toNat := hdigit.1
        have hcodes : codes s = c.toNat :: cs.map Char.toNat := by
          rw [codes, hlist, List.map_cons]
        rw [hcodes, List.cons_lt_cons_iff] at hlt
        obtain (h | ⟨-, h | ⟨-, h | ⟨-, h⟩⟩⟩) := hlt
        · omega
        · omega
        · omega
        · exact absurd h (List.not_lt_nil _)
  · rw [List.cons_lt_cons_iff] at hlt
    obtain (h | ⟨h, -⟩) := hlt
    · omega
    · omega

theorem precedenceKey_zero_le (p : String) : precedenceKey "0" ≤ precedenceKey p := by
  have hzero : precedenceKey "0" = [identifierKey "0"] := by decide
  rw [hzero, precedenceKey, ← not_lt]
  cases hsplit : Text.split p (· = '.') with
  | nil => exact absurd hsplit (Text.split_ne_nil _ _)
  | cons first rest =>
      rw [List.map_cons, List.cons_lt_cons_iff]
      intro hlt
      cases hlt with
      | inl hfirst => exact absurd hfirst (not_lt.mpr (identifierKey_zero_le first))
      | inr hrest => exact absurd hrest.2 (List.not_lt_nil _)

/-- Nothing lies between a list and its extension by a least element. -/
theorem append_least_le {α : Type} [LinearOrder α] {least : α} {l k : List α} (h : l < k)
    (hleast : ∀ a ∈ k, least ≤ a) : l ++ [least] ≤ k := by
  induction l generalizing k with
  | nil =>
      cases k with
      | nil => exact absurd h (List.not_lt_nil _)
      | cons a k =>
          rw [List.nil_append, ← not_lt, List.cons_lt_cons_iff]
          intro hlt
          cases hlt with
          | inl ha => exact absurd ha (not_lt.mpr (hleast a List.mem_cons_self))
          | inr hk => exact absurd hk.2 (List.not_lt_nil _)
  | cons b l ih =>
      cases k with
      | nil => exact absurd h (List.not_lt_nil _)
      | cons a k =>
          rw [List.cons_lt_cons_iff] at h
          rw [List.cons_append, ← not_lt, List.cons_lt_cons_iff]
          intro hlt
          have hrest := fun hl : l < k => ih hl fun c hc => hleast c (List.mem_cons_of_mem a hc)
          obtain (hba | ⟨hba, hlk⟩) := h
          · obtain (hab | ⟨hab, -⟩) := hlt
            · exact absurd hab (not_lt.mpr hba.le)
            · exact absurd hab (ne_of_gt hba)
          · obtain (hab | ⟨-, hkl⟩) := hlt
            · exact absurd hab (not_lt.mpr (le_of_eq hba))
            · exact absurd hkl (not_lt.mpr (hrest hlk))

/-- The least pre-release behind another. -/
def preSuccessor (pre : String) : String := pre ++ "." ++ "0"

theorem split_concat (s t : String) (c : Char) (h : c ∉ t.toList) :
    Text.split (s ++ String.singleton c ++ t) (· = c) = Text.split s (· = c) ++ [t] := by
  have hlist : (s ++ String.singleton c ++ t).toList = s.toList ++ c :: t.toList := by simp
  have hone : t.toList.splitOnP (fun x => decide (x = c)) = [t.toList] := by
    apply List.splitOnP_eq_singleton
    intro x hx
    have hne : x ≠ c := fun heq => h (heq ▸ hx)
    simp [hne]
  rw [Text.split, hlist, List.splitOnP_append_cons _ _ (by simp), hone, List.map_append,
    List.map_singleton, String.ofList_toList]
  rfl

theorem precedenceKey_successor (pre : String) :
    precedenceKey (preSuccessor pre) = precedenceKey pre ++ [identifierKey "0"] := by
  have hdot : ("." : String) = String.singleton '.' := by decide
  rw [precedenceKey, preSuccessor, hdot, split_concat _ _ _ (by decide), List.map_append,
    List.map_singleton, precedenceKey]

theorem precedenceKey_successor_le {p q : String} (h : precedenceKey p < precedenceKey q) :
    precedenceKey (preSuccessor p) ≤ precedenceKey q := by
  rw [precedenceKey_successor]
  apply append_least_le h
  intro a ha
  obtain ⟨s, _, rfl⟩ := List.mem_map.mp ha
  exact identifierKey_zero_le s

theorem lt_precedenceKey_successor (p : String) :
    precedenceKey p < precedenceKey (preSuccessor p) := by
  rw [precedenceKey_successor]
  induction precedenceKey p with
  | nil => exact List.nil_lt_cons _ _
  | cons a l ih =>
      rw [List.cons_append, List.cons_lt_cons_iff]
      exact .inr ⟨rfl, ih⟩

theorem precedes_iff {p q : String} : precedes p q = true ↔ precedenceKey p < precedenceKey q :=
  decide_eq_true_iff

theorem isPre_successor {pre : String} (h : isPre pre = true) : isPre (preSuccessor pre) = true := by
  have hdot : ("." : String) = String.singleton '.' := by decide
  rw [isPre, preSuccessor, hdot, split_concat _ _ _ (by decide), List.all_append, Bool.and_eq_true]
  refine ⟨h, by decide⟩

example : precedes "alpha.2" "alpha.11" = true ∧ precedes "11" "a" = true := by decide

end Keys

end Snpm.Semver
