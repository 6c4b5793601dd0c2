import Mathlib
import Snpm.Library.Utf8

/-!
Decoding bytes that need not be UTF-8: no NUL comes out where none went in. A
character that has begun will have a code point in the range of its lead byte, which
holds neither zero nor a surrogate.
-/
namespace Text

/-- What the wanted bytes can make of a character that has begun. -/
structure Begun.Sound (p : Begun) : Prop where
  wanted : p.wanted = 1 ∨ p.wanted = 2 ∨ p.wanted = 3
  bounds : 0x80 ≤ p.lower ∧ p.upper ≤ 0xBF
  nonzero : 0 < p.bits * 64 + (p.lower - 0x80)
  valid : (p.bits * 64 + (p.upper - 0x80) + 1) * 64 ^ (p.wanted - 1) ≤ 0xD800 ∨
    0xE000 ≤ (p.bits * 64 + (p.lower - 0x80)) * 64 ^ (p.wanted - 1) ∧
      (p.bits * 64 + (p.upper - 0x80) + 1) * 64 ^ (p.wanted - 1) ≤ 0x110000

theorem beginByte_sound {b : Nat} {next : Begun} (h : beginByte b = some (.inr next)) :
    next.Sound := by
  unfold beginByte at h
  split at h
  next => cases h
  next =>
      split at h
      next hb =>
          cases h
          refine ⟨.inl rfl, ⟨Nat.le_refl _, Nat.le_refl _⟩, ?_, .inl ?_⟩
          · dsimp only
            omega
          · dsimp only
            omega
      next =>
          split at h
          next hb =>
              cases h
              refine ⟨.inr (.inl rfl), ?_, ?_, ?_⟩
              · dsimp only
                constructor <;> split <;> omega
              · dsimp only
                split <;> omega
              · dsimp only
                split <;> split <;> omega
          next =>
              split at h
              next hb =>
                  cases h
                  refine ⟨.inr (.inr rfl), ?_, ?_, .inr ?_⟩
                  · dsimp only
                    constructor <;> split <;> omega
                  · dsimp only
                    split <;> omega
                  · dsimp only
                    split <;> split <;> omega
              next => cases h

theorem beginByte_char {b : Nat} {c : Char} (hb : b ≠ 0) (h : beginByte b = some (.inl c)) :
    c ≠ '\x00' := by
  unfold beginByte at h
  split at h
  next hsmall =>
      cases h
      intro hzero
      have hnat := congrArg Char.toNat hzero
      rw [Char.toNat_ofNat, if_pos (.inl (by omega))] at hnat
      exact hb hnat
  next =>
      split at h
      next => cases h
      next =>
          split at h
          next => cases h
          next =>
              split at h
              next => cases h
              next => cases h

theorem Begun.Sound.next {p : Begun} (h : p.Sound) {b : Nat} (hb : p.lower ≤ b ∧ b ≤ p.upper)
    (hmore : p.wanted ≠ 1) :
    Begun.Sound ⟨p.wanted - 1, 0x80, 0xBF, p.bits * 64 + (b - 0x80)⟩ := by
  obtain ⟨hwanted, hbounds, hnonzero, hvalid⟩ := h
  obtain ⟨wanted, lower, upper, bits⟩ := p
  dsimp only at hwanted hbounds hnonzero hvalid hb hmore ⊢
  have hlow : bits * 64 + (lower - 0x80) ≤ bits * 64 + (b - 0x80) := by omega
  have hhigh : bits * 64 + (b - 0x80) ≤ bits * 64 + (upper - 0x80) := by omega
  generalize bits * 64 + (lower - 0x80) = low at *
  generalize bits * 64 + (upper - 0x80) = high at *
  generalize bits * 64 + (b - 0x80) = here at *
  rcases hwanted with rfl | rfl | rfl
  · exact absurd rfl hmore
  · have hspan : 64 ^ (2 - 1) = 64 := rfl
    have hlast : 64 ^ (2 - 1 - 1) = 1 := rfl
    rw [hspan] at hvalid
    refine ⟨.inl rfl, ⟨Nat.le_refl _, Nat.le_refl _⟩, ?_, ?_⟩
    · dsimp only
      omega
    · dsimp only
      rw [hlast]
      omega
  · have hspan : 64 ^ (3 - 1) = 4096 := rfl
    have hlast : 64 ^ (3 - 1 - 1) = 64 := rfl
    rw [hspan] at hvalid
    refine ⟨.inr (.inl rfl), ⟨Nat.le_refl _, Nat.le_refl _⟩, ?_, ?_⟩
    · dsimp only
      omega
    · have hlower : (here * 64 + (0x80 - 0x80)) * 64 = here * 4096 := by ring
      have hupper : (here * 64 + (0xBF - 0x80) + 1) * 64 = (here + 1) * 4096 := by ring
      dsimp only
      rw [hlast, hlower, hupper]
      cases hvalid with
      | inl hsmall =>
          left
          linarith
      | inr hlarge =>
          right
          constructor <;> linarith

theorem Begun.Sound.last {p : Begun} (h : p.Sound) {b : Nat} (hb : p.lower ≤ b ∧ b ≤ p.upper)
    (hdone : p.wanted = 1) : Char.ofNat (p.bits * 64 + (b - 0x80)) ≠ '\x00' := by
  obtain ⟨-, hbounds, hnonzero, hvalid⟩ := h
  rw [hdone] at hvalid
  intro hzero
  have hnat := congrArg Char.toNat hzero
  have hchar : Nat.isValidChar (p.bits * 64 + (b - 0x80)) := by
    unfold Nat.isValidChar
    omega
  rw [Char.toNat_ofNat, if_pos hchar] at hnat
  have hz : Char.toNat '\x00' = 0 := rfl
  omega

/-- A character that was not gone on with is replaced, and the byte begins anew. -/
theorem lossyChars_anew {p : Begun} {b : UInt8} (h : ¬ (p.lower ≤ b.toNat ∧ b.toNat ≤ p.upper))
    (rest : List UInt8) :
    lossyChars (some p) (b :: rest) = replacement :: lossyChars none (b :: rest) := by
  simp only [lossyChars, if_neg h]
  cases beginByte b.toNat with
  | none => rfl
  | some found =>
      cases found with
      | inl c => rfl
      | inr next => rfl

/-- No NUL comes out where no NUL byte went in. -/
theorem nul_not_mem_lossyChars {bytes : List UInt8} (hbytes : (0 : UInt8) ∉ bytes)
    (begun : Option Begun) (hbegun : ∀ p, begun = some p → p.Sound) :
    '\x00' ∉ lossyChars begun bytes := by
  induction bytes generalizing begun with
  | nil =>
      cases begun with
      | none => simp [lossyChars]
      | some p => simp [lossyChars, replacement]
  | cons b rest ih =>
      rw [List.mem_cons, not_or] at hbytes
      have hb : b.toNat ≠ 0 := fun h => hbytes.1 (UInt8.toNat_inj.mp h).symm
      have hrest := ih hbytes.2
      have hfresh : '\x00' ∉ lossyChars none (b :: rest) := by
        simp only [lossyChars]
        cases hbegin : beginByte b.toNat with
        | none => simp [hrest none (by simp), replacement]
        | some found =>
            cases found with
            | inl c =>
                have hc := (beginByte_char hb hbegin).symm
                simp [hc, hrest none (by simp)]
            | inr next =>
                refine hrest (some next) fun p hp => ?_
                cases hp
                exact beginByte_sound hbegin
      cases begun with
      | none => exact hfresh
      | some p =>
          have hp := hbegun p rfl
          by_cases hbound : p.lower ≤ b.toNat ∧ b.toNat ≤ p.upper
          · simp only [lossyChars, if_pos hbound]
            by_cases hdone : p.wanted = 1
            · rw [if_pos hdone, List.mem_cons, not_or]
              exact ⟨(hp.last hbound hdone).symm, hrest none (by simp)⟩
            · rw [if_neg hdone]
              refine hrest _ fun q hq => ?_
              cases hq
              exact hp.next hbound hdone
          · rw [lossyChars_anew hbound, List.mem_cons, not_or]
            exact ⟨by decide, hfresh⟩

end Text
