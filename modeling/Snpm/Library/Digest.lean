import Mathlib

/-!
Collision-free hashing. A hash is idealised as an injective map from texts to
texts over the lower-case hexadecimal alphabet. Feeding text in pieces is
concatenation, so a hasher state is the text fed so far. Texts stand for their
UTF-8 bytes: that encoding is injective and commutes with concatenation.
-/
namespace Digest

def hexDigits : List Char :=
  ['0', '1', '2', '3', '4', '5', '6', '7', '8', '9', 'a', 'b', 'c', 'd', 'e', 'f']

/-- A digest function without collisions, printed in hexadecimal. -/
structure Hash where
  hex : String → String
  injective : Function.Injective hex
  alphabet : ∀ text, ∀ c ∈ (hex text).toList, c ∈ hexDigits

theorem Hash.not_mem_of_not_digit (H : Hash) (text : String) {c : Char}
    (h : c ∉ hexDigits) : c ∉ (H.hex text).toList :=
  fun hc => h (H.alphabet text c hc)

/-- One code point in unary, closed by a zero. -/
def unary (c : Char) : List Char := List.replicate c.toNat '1' ++ ['0']

theorem unary_prefix_injective {c d : Char} {s t : List Char}
    (h : unary c ++ s = unary d ++ t) : c = d ∧ s = t := by
  simp only [unary, List.append_assoc, List.singleton_append] at h
  have key : ∀ (m n : Nat), List.replicate m '1' ++ '0' :: s = List.replicate n '1' ++ '0' :: t →
      m = n ∧ s = t := by
    intro m
    induction m with
    | zero =>
        intro n h
        cases n with
        | zero => simpa using h
        | succ n => simp [List.replicate_succ] at h
    | succ m ih =>
        intro n h
        cases n with
        | zero => simp [List.replicate_succ] at h
        | succ n =>
            simp only [List.replicate_succ, List.cons_append, List.cons.injEq, true_and] at h
            obtain ⟨rfl, rfl⟩ := ih n h
            exact ⟨rfl, rfl⟩
  obtain ⟨hc, rfl⟩ := key _ _ h
  exact ⟨Char.toNat_inj.mp hc, rfl⟩

/-- Printing every code point in unary is a collision-free hash, so the
interface is inhabited. -/
def unaryHash : Hash where
  hex text := String.ofList (text.toList.flatMap unary)
  injective := by
    intro s t h
    have h : s.toList.flatMap unary = t.toList.flatMap unary := by
      simpa using congrArg String.toList h
    have key : ∀ a b : List Char, a.flatMap unary = b.flatMap unary → a = b := by
      intro a
      induction a with
      | nil =>
          intro b h
          cases b with
          | nil => rfl
          | cons d b => simp [unary] at h
      | cons c a ih =>
          intro b h
          cases b with
          | nil => simp [unary] at h
          | cons d b =>
              simp only [List.flatMap_cons] at h
              obtain ⟨rfl, htail⟩ := unary_prefix_injective h
              rw [ih b htail]
    exact String.toList_inj.mp (key _ _ h)
  alphabet := by
    intro text c hc
    simp only [String.toList_ofList, List.mem_flatMap, unary, List.mem_append,
      List.mem_replicate, List.mem_singleton] at hc
    obtain ⟨_, _, h⟩ := hc
    rcases h with ⟨_, rfl⟩ | rfl <;> decide

end Digest
