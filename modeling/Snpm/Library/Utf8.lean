import Mathlib

/-!
Texts and their UTF-8 bytes: one byte for an ASCII character, several for any
other, and four at most.
-/
namespace Text

section Char

variable {c : Char}

theorem utf8EncodeChar_ascii (h : c.toNat < 128) :
    String.utf8EncodeChar c = [UInt8.ofNat c.toNat] := by
  have hval : c.val.toNat = c.toNat := rfl
  unfold String.utf8EncodeChar
  rw [hval]
  exact if_pos (by omega)

/-- The bytes of a character beyond ASCII are beyond ASCII, and there are several. -/
theorem utf8EncodeChar_wide (h : 128 ≤ c.toNat) :
    2 ≤ (String.utf8EncodeChar c).length ∧ ∀ byte ∈ String.utf8EncodeChar c, 128 ≤ byte.toNat := by
  have hval : c.val.toNat = c.toNat := rfl
  unfold String.utf8EncodeChar
  dsimp only
  rw [hval, if_neg (by omega)]
  split
  · simp only [List.length_cons, List.length_nil, List.forall_mem_cons, UInt8.toNat_ofNat']
    refine ⟨by omega, by omega, by omega, by simp⟩
  · split
    · simp only [List.length_cons, List.length_nil, List.forall_mem_cons, UInt8.toNat_ofNat']
      refine ⟨by omega, by omega, by omega, by omega, by simp⟩
    · simp only [List.length_cons, List.length_nil, List.forall_mem_cons, UInt8.toNat_ofNat']
      refine ⟨by omega, by omega, by omega, by omega, by omega, by simp⟩

end Char

section Bytes

/-- The bytes of a text. -/
def utf8 (s : String) : List UInt8 := s.toUTF8.data.toList

theorem utf8_ofList (cs : List Char) : utf8 (String.ofList cs) = cs.flatMap String.utf8EncodeChar := by
  simp [utf8, List.utf8Encode]

theorem length_utf8 (s : String) : (utf8 s).length = s.utf8ByteSize := by
  rw [utf8, Array.length_toList]
  rfl

theorem fromUTF8?_utf8 (s : String) : String.fromUTF8? ⟨(utf8 s).toArray⟩ = some s := by
  have hvalid : s.toUTF8.IsValidUTF8 := s.isValidUTF8
  exact dif_pos hvalid

/-- Bytes that decode are the bytes of what they decode to. -/
theorem utf8_of_fromUTF8? {bytes : List UInt8} {s : String}
    (h : String.fromUTF8? ⟨bytes.toArray⟩ = some s) : utf8 s = bytes := by
  unfold String.fromUTF8? at h
  split at h
  · cases h
    rfl
  · cases h

theorem utf8ByteSize_of_fromUTF8? {bytes : List UInt8} {s : String}
    (h : String.fromUTF8? ⟨bytes.toArray⟩ = some s) : s.utf8ByteSize = bytes.length := by
  unfold String.fromUTF8? at h
  split at h
  · cases h
    simp [String.fromUTF8, ByteArray.size]
  · cases h

theorem utf8ByteSize_le (s : String) : s.utf8ByteSize ≤ 4 * s.length := by
  rw [← String.ofList_toList (s := s)]
  induction s.toList with
  | nil => decide
  | cons c cs ih =>
      have hcons : String.ofList (c :: cs) = String.singleton c ++ String.ofList cs := by simp
      have hchar := c.utf8Size_le_four
      rw [hcons, String.utf8ByteSize_append, String.length_append, String.utf8ByteSize_singleton,
        String.length_singleton]
      omega

end Bytes

section Slices

/-- The characters behind a byte offset, if the offset is at a character. -/
def charsFrom : List Char → Nat → Option (List Char)
  | cs, 0 => some cs
  | [], _ + 1 => none
  | c :: cs, offset + 1 =>
      if c.utf8Size ≤ offset + 1 then charsFrom cs (offset + 1 - c.utf8Size) else none

/-- `&text[offset..]`; `none` stands for its panic. -/
def sliceFrom (s : String) (offset : Nat) : Option String :=
  (charsFrom s.toList offset).map String.ofList

/-- The byte offset of the first place where a part stands. -/
def firstOffset (part : List Char) : List Char → Option Nat
  | [] => if part.isPrefixOf [] then some 0 else none
  | c :: cs =>
      if part.isPrefixOf (c :: cs) then some 0
      else (firstOffset part cs).map fun found => found + c.utf8Size

/-- `str::find` of a text. -/
def findSeq (s part : String) : Option Nat := firstOffset part.toList s.toList

theorem utf8ByteSize_cons (c : Char) (cs : List Char) :
    (String.ofList (c :: cs)).utf8ByteSize = c.utf8Size + (String.ofList cs).utf8ByteSize := by
  have hcons : String.ofList (c :: cs) = String.singleton c ++ String.ofList cs := by simp
  rw [hcons, String.utf8ByteSize_append, String.utf8ByteSize_singleton]

theorem charsFrom_append (front rest : List Char) :
    charsFrom (front ++ rest) (String.ofList front).utf8ByteSize = some rest := by
  induction front with
  | nil => rw [List.nil_append, String.ofList_nil, String.utf8ByteSize_empty, charsFrom]
  | cons c front ih =>
      rw [utf8ByteSize_cons]
      have hpos := c.utf8Size_pos
      obtain ⟨size, hsize⟩ : ∃ size, c.utf8Size = size + 1 := ⟨c.utf8Size - 1, by omega⟩
      have hoffset : c.utf8Size + (String.ofList front).utf8ByteSize =
          size + (String.ofList front).utf8ByteSize + 1 := by omega
      rw [hoffset, List.cons_append, charsFrom, if_pos (by omega), ← ih]
      congr 1
      omega

/-- Slicing behind a beginning of the text gives what follows it. -/
theorem sliceFrom_append (front rest : String) :
    sliceFrom (front ++ rest) front.utf8ByteSize = some rest := by
  have h := charsFrom_append front.toList rest.toList
  rw [String.ofList_toList] at h
  rw [sliceFrom, String.toList_append, h, Option.map_some, String.ofList_toList]

theorem firstOffset_eq_none {part cs : List Char} (h : firstOffset part cs = none) :
    ¬ part <:+: cs := by
  induction cs with
  | nil =>
      intro hinfix
      simp [firstOffset, List.infix_nil.mp hinfix] at h
  | cons c cs ih =>
      rw [firstOffset] at h
      split at h
      · cases h
      · rename_i hbegin
        rw [Option.map_eq_none_iff] at h
        intro hinfix
        cases List.infix_cons_iff.mp hinfix with
        | inl hpart => exact hbegin (List.isPrefixOf_iff_prefix.mpr hpart)
        | inr hrest => exact ih h hrest

/-- What is found is the first place: what follows any other place is shorter. -/
theorem firstOffset_eq_some {part cs : List Char} {found : Nat}
    (h : firstOffset part cs = some found) :
    ∃ skip rest, cs = skip ++ (part ++ rest) ∧ found = (String.ofList skip).utf8ByteSize ∧
      ∀ skip' rest', cs = skip' ++ (part ++ rest') → rest' <:+ rest := by
  induction cs generalizing found with
  | nil =>
      rw [firstOffset] at h
      split at h
      · rename_i hbegin
        have hnil : part = [] := by simpa using hbegin
        subst hnil
        cases h
        refine ⟨[], [], rfl, rfl, fun skip' rest' heq => ?_⟩
        have hrest : rest' = [] := by simpa using (List.append_eq_nil_iff.mp heq.symm).2
        rw [hrest]
      · cases h
  | cons c cs ih =>
      rw [firstOffset] at h
      split at h
      · rename_i hbegin
        cases h
        obtain ⟨rest, hrest⟩ := List.isPrefixOf_iff_prefix.mp hbegin
        refine ⟨[], rest, hrest.symm, rfl, fun skip' rest' heq => ?_⟩
        have hwhole : rest' <:+ c :: cs := ⟨skip' ++ part, by rw [heq, List.append_assoc]⟩
        have hlong : rest <:+ c :: cs := ⟨part, hrest⟩
        apply List.suffix_of_suffix_length_le hwhole hlong
        have hlen := congrArg List.length (hrest.trans heq)
        simp only [List.length_append] at hlen
        omega
      · rename_i hbegin
        obtain ⟨before, hbefore, rfl⟩ := Option.map_eq_some_iff.mp h
        obtain ⟨skip, rest, rfl, rfl, hfirst⟩ := ih hbefore
        refine ⟨c :: skip, rest, rfl, ?_, ?_⟩
        · rw [utf8ByteSize_cons, Nat.add_comm]
        · intro skip' rest' heq
          cases skip' with
          | nil => exact absurd (List.isPrefixOf_iff_prefix.mpr ⟨rest', heq.symm⟩) hbegin
          | cons d skip' =>
              rw [List.cons_append, List.cons.injEq] at heq
              exact hfirst skip' rest' heq.2

end Slices

/-- A character that has begun: the bytes it still wants, the bounds of the next
one, and the bits read so far. -/
structure Begun where
  wanted : Nat
  lower : Nat
  upper : Nat
  bits : Nat

def replacement : Char := Char.ofNat 0xFFFD

/-- What a byte begins, if anything. -/
def beginByte (b : Nat) : Option (Char ⊕ Begun) :=
  if b < 0x80 then some (.inl (Char.ofNat b))
  else if 0xC2 ≤ b ∧ b ≤ 0xDF then some (.inr ⟨1, 0x80, 0xBF, b - 0xC0⟩)
  else if 0xE0 ≤ b ∧ b ≤ 0xEF then
    some (.inr ⟨2, if b = 0xE0 then 0xA0 else 0x80, if b = 0xED then 0x9F else 0xBF, b - 0xE0⟩)
  else if 0xF0 ≤ b ∧ b ≤ 0xF4 then
    some (.inr ⟨3, if b = 0xF0 then 0x90 else 0x80, if b = 0xF4 then 0x8F else 0xBF, b - 0xF0⟩)
  else none

/-- A sequence that breaks off is one replacement character, and the byte that
broke it is read afresh. -/
def lossyChars : Option Begun → List UInt8 → List Char
  | none, [] => []
  | some _, [] => [replacement]
  | begun, b :: rest =>
      let fresh (before : List Char) : List Char :=
        match beginByte b.toNat with
        | none => before ++ replacement :: lossyChars none rest
        | some (.inl c) => before ++ c :: lossyChars none rest
        | some (.inr next) => before ++ lossyChars (some next) rest
      match begun with
      | none => fresh []
      | some p =>
          if p.lower ≤ b.toNat ∧ b.toNat ≤ p.upper then
            let bits := p.bits * 64 + (b.toNat - 0x80)
            if p.wanted = 1 then Char.ofNat bits :: lossyChars none rest
            else lossyChars (some ⟨p.wanted - 1, 0x80, 0xBF, bits⟩) rest
          else fresh [replacement]

/-- `String::from_utf8_lossy`. -/
def fromUtf8Lossy (bytes : List UInt8) : String := String.ofList (lossyChars none bytes)

end Text
