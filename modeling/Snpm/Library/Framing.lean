import Mathlib

/-!
Terminator-framed concatenation. A list of fields is written field by field,
each followed by one terminator symbol. When no field contains the terminator
the written sequence determines the fields, and it determines a trailing
unterminated field as well. Nothing here depends on what is framed.
-/
namespace Framing

variable {α : Type*}

/-- Write every field followed by the terminator. -/
def frame (stop : α) (fields : List (List α)) : List α :=
  fields.flatMap fun field => field ++ [stop]

def Free (stop : α) (fields : List (List α)) : Prop :=
  ∀ field ∈ fields, stop ∉ field

@[simp] theorem frame_nil (stop : α) : frame stop [] = [] := rfl

@[simp] theorem frame_cons (stop : α) (field : List α) (fields : List (List α)) :
    frame stop (field :: fields) = field ++ stop :: frame stop fields := by
  simp [frame]

@[simp] theorem frame_append (stop : α) (left right : List (List α)) :
    frame stop (left ++ right) = frame stop left ++ frame stop right := by
  simp [frame]

@[simp] theorem free_nil (stop : α) : Free stop ([] : List (List α)) := by
  simp [Free]

@[simp] theorem free_cons (stop : α) (field : List α) (fields : List (List α)) :
    Free stop (field :: fields) ↔ stop ∉ field ∧ Free stop fields := by
  simp [Free]

@[simp] theorem free_append (stop : α) (left right : List (List α)) :
    Free stop (left ++ right) ↔ Free stop left ∧ Free stop right := by
  simp only [Free, List.mem_append]
  constructor
  · exact fun h => ⟨fun f hf => h f (.inl hf), fun f hf => h f (.inr hf)⟩
  · rintro ⟨hl, hr⟩ f (hf | hf)
    · exact hl f hf
    · exact hr f hf

/-- The first terminator splits a sequence in only one way. -/
theorem split_at_stop {stop : α} {a b as bs : List α}
    (ha : stop ∉ a) (hb : stop ∉ b) (h : a ++ stop :: as = b ++ stop :: bs) :
    a = b ∧ as = bs := by
  induction a generalizing b with
  | nil =>
      cases b with
      | nil => simpa using h
      | cons x b =>
          simp only [List.nil_append, List.cons_append, List.cons.injEq] at h
          exact absurd (h.1 ▸ List.mem_cons_self) hb
  | cons x a ih =>
      cases b with
      | nil =>
          simp only [List.nil_append, List.cons_append, List.cons.injEq] at h
          exact absurd (h.1 ▸ List.mem_cons_self) ha
      | cons y b =>
          simp only [List.cons_append, List.cons.injEq] at h
          obtain ⟨rfl, h⟩ := h
          obtain ⟨rfl, rfl⟩ := ih (List.not_mem_of_not_mem_cons ha)
            (List.not_mem_of_not_mem_cons hb) h
          exact ⟨rfl, rfl⟩

/-- Framed fields followed by a terminator-free tail determine both parts. -/
theorem frame_tail_injective {stop : α} {fs gs : List (List α)} {t u : List α}
    (hf : Free stop fs) (hg : Free stop gs) (ht : stop ∉ t) (hu : stop ∉ u)
    (h : frame stop fs ++ t = frame stop gs ++ u) : fs = gs ∧ t = u := by
  induction fs generalizing gs with
  | nil =>
      cases gs with
      | nil => simpa using h
      | cons g gs =>
          simp only [frame_nil, List.nil_append, frame_cons] at h
          exact absurd (h ▸ by simp : stop ∈ t) ht
  | cons f fs ih =>
      cases gs with
      | nil =>
          simp only [frame_nil, List.nil_append, frame_cons] at h
          exact absurd (h ▸ by simp : stop ∈ u) hu
      | cons g gs =>
          rw [free_cons] at hf hg
          simp only [frame_cons, List.append_assoc, List.cons_append] at h
          obtain ⟨rfl, htail⟩ := split_at_stop hf.1 hg.1 h
          obtain ⟨rfl, rfl⟩ := ih hf.2 hg.2 htail
          exact ⟨rfl, rfl⟩

theorem frame_injective {stop : α} {fs gs : List (List α)}
    (hf : Free stop fs) (hg : Free stop gs) (h : frame stop fs = frame stop gs) :
    fs = gs :=
  (frame_tail_injective hf hg (List.not_mem_nil) (List.not_mem_nil)
    (by simpa using h)).1

end Framing
