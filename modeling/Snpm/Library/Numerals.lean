import Mathlib
import Snpm.Library.Text

/-!
Decimal numerals: what the digits of a number are read as.
-/
namespace Text

variable {n : Nat}

theorem isAsciiDigit_of_isDigit {c : Char} (h : c.isDigit = true) : isAsciiDigit c = true := by
  rw [Char.isDigit, Bool.and_eq_true, decide_eq_true_eq, decide_eq_true_eq] at h
  rw [isAsciiDigit, Bool.and_eq_true, decide_eq_true_eq, decide_eq_true_eq]
  exact h

theorem isAsciiDigit_of_mem_repr {c : Char} (h : c ∈ (toString n).toList) : isAsciiDigit c = true := by
  rw [Nat.toString_eq_repr, Nat.toList_repr] at h
  exact isAsciiDigit_of_isDigit (Nat.isDigit_of_mem_toDigits (by decide) (by decide) h)

theorem repr_ne_nil (n : Nat) : (toString n).toList ≠ [] := by
  rw [Nat.toString_eq_repr, Nat.toList_repr]
  exact Nat.toDigits_ne_nil

theorem digitsValue_repr (n : Nat) : digitsValue (toString n).toList = n := by
  rw [Nat.toString_eq_repr, Nat.toList_repr]
  exact Nat.ofDigitChars_ten_toDigits

theorem not_mem_repr {c : Char} (hc : isAsciiDigit c = false) : c ∉ (toString n).toList := by
  intro hmem
  rw [isAsciiDigit_of_mem_repr hmem] at hc
  cases hc

/-- A numeral without its plus sign. -/
def unsigned : List Char → List Char
  | '+' :: rest => rest
  | cs => cs

theorem unsigned_eq_self {cs : List Char} (h : cs.head? ≠ some '+') : unsigned cs = cs := by
  unfold unsigned
  split
  · exact absurd rfl h
  · rfl

theorem parseU64_eq (s : String) : parseU64 s =
    if unsigned s.toList ≠ [] ∧ (unsigned s.toList).all isAsciiDigit ∧
        digitsValue (unsigned s.toList) < 2 ^ 64 then
      some (digitsValue (unsigned s.toList))
    else none :=
  rfl

theorem parseU64_of_digits {s : String} (hne : s ≠ "") (hall : ∀ c ∈ s.toList, isAsciiDigit c = true) :
    parseU64 s = if digitsValue s.toList < 2 ^ 64 then some (digitsValue s.toList) else none := by
  have hlist : s.toList ≠ [] := fun hnil => hne (String.toList_inj.mp hnil)
  have hhead : s.toList.head? ≠ some '+' := by
    intro heq
    have hdigit := hall '+' (List.mem_of_head? heq)
    exact absurd hdigit (by decide)
  have hdigits : s.toList.all isAsciiDigit = true := List.all_eq_true.mpr hall
  rw [parseU64_eq, unsigned_eq_self hhead]
  by_cases hlt : digitsValue s.toList < 2 ^ 64
  · rw [if_pos hlt, if_pos ⟨hlist, hdigits, hlt⟩]
  · rw [if_neg hlt, if_neg fun h => hlt h.2.2]

theorem parseU64_repr (n : Nat) : parseU64 (toString n) = if n < 2 ^ 64 then some n else none := by
  have hne : toString n ≠ "" := fun h => repr_ne_nil n (congrArg String.toList h)
  rw [parseU64_of_digits hne fun c hc => isAsciiDigit_of_mem_repr hc, digitsValue_repr]

/-- A numeral starts with a zero only when it is zero. -/
theorem head_repr (n : Nat) : toString n = "0" ∨ (toString n).toList.head? ≠ some '0' := by
  induction n using Nat.strong_induction_on with
  | _ n ih =>
      by_cases hlt : n < 10
      · interval_cases n <;> decide
      · right
        have hsmall := ih (n / 10) (by omega)
        have hne : (n / 10).repr.toList ≠ [] := repr_ne_nil (n / 10)
        rw [Nat.toString_eq_repr, Nat.repr_eq_repr_append_repr (by omega), String.toList_append,
          List.head?_append_of_ne_nil _ hne]
        cases hsmall with
        | inr hhead => simpa using hhead
        | inl hzero =>
            have hvalue := digitsValue_repr (n / 10)
            rw [hzero] at hvalue
            have : n / 10 = 0 := by
              rw [← hvalue]
              decide
            omega

end Text
