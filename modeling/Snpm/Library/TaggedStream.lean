import Mathlib
import Snpm.Library.Framing

/-!
Records written one after another: a key, a tag and a payload, with a stop behind
the key and behind the tag and nothing behind the payload. Key and tag are free of
the stop, the payload is arbitrary. Such a stream does not tell where a payload
ends: it determines the records up to payloads that spill over into later records.
-/
namespace TaggedStream

variable {α K : Type*}

structure Record (α K : Type*) where
  key : List α
  tag : K
  payload : List α

section Stream

variable (stop : α) (word : K → List α)

def Record.write (r : Record α K) : List α :=
  r.key ++ stop :: (word r.tag ++ stop :: r.payload)

def stream (rs : List (Record α K)) : List α := rs.flatMap (Record.write stop word)

/-- Keys and tags are free of the stop. -/
def Clean (rs : List (Record α K)) : Prop := ∀ r ∈ rs, stop ∉ r.key ∧ stop ∉ word r.tag

/-- Behind a common beginning, the payload of a record of `ts` goes on where `rs`
has further records that are written the same. -/
def Spill (rs ts : List (Record α K)) : Prop :=
  ∃ (common : List (Record α K)) (key : List α) (tag : K) (payload more : List α)
    (rest rest' : List (Record α K)),
    rs = common ++ ⟨key, tag, payload⟩ :: rest ∧
      ts = common ++ ⟨key, tag, payload ++ more⟩ :: rest' ∧ more ≠ [] ∧
      stream stop word rest = more ++ stream stop word rest'

end Stream

variable {stop : α} {word : K → List α}

@[simp] theorem stream_nil : stream stop word ([] : List (Record α K)) = [] := rfl

@[simp] theorem stream_cons (r : Record α K) (rs : List (Record α K)) :
    stream stop word (r :: rs) = r.write stop word ++ stream stop word rs := rfl

@[simp] theorem stream_append (rs ts : List (Record α K)) :
    stream stop word (rs ++ ts) = stream stop word rs ++ stream stop word ts := by
  simp [stream]

theorem write_append (r : Record α K) (tail : List α) :
    r.write stop word ++ tail = r.key ++ stop :: (word r.tag ++ stop :: (r.payload ++ tail)) := by
  simp [Record.write]

theorem Spill.cons {rs ts : List (Record α K)} (r : Record α K) (h : Spill stop word rs ts) :
    Spill stop word (r :: rs) (r :: ts) := by
  obtain ⟨common, key, tag, payload, more, rest, rest', rfl, rfl, hmore, hrest⟩ := h
  exact ⟨r :: common, key, tag, payload, more, rest, rest', rfl, rfl, hmore, hrest⟩

theorem Spill.stream_eq {rs ts : List (Record α K)} (h : Spill stop word rs ts) :
    stream stop word rs = stream stop word ts := by
  obtain ⟨common, key, tag, payload, more, rest, rest', rfl, rfl, -, hrest⟩ := h
  simp [Record.write, hrest]

/-- Nothing spills over within one list of records. -/
theorem not_spill_self (rs : List (Record α K)) : ¬Spill stop word rs rs := by
  intro h
  obtain ⟨common, key, tag, payload, more, rest, rest', hrs, hts, hmore, -⟩ := h
  rw [hrs, List.append_cancel_left_eq, List.cons.injEq, Record.mk.injEq] at hts
  exact hmore (List.self_eq_append_right.mp hts.1.2.2)

/-- Two clean lists of records are written the same exactly when they are the same or
a payload of one spills over into later records of the other. -/
theorem stream_eq_iff (hword : Function.Injective word) {rs ts : List (Record α K)}
    (hrs : Clean stop word rs) (hts : Clean stop word ts) :
    stream stop word rs = stream stop word ts ↔
      rs = ts ∨ Spill stop word rs ts ∨ Spill stop word ts rs := by
  constructor
  · intro h
    induction rs generalizing ts with
    | nil =>
        cases ts with
        | nil => exact .inl rfl
        | cons t ts =>
            rw [stream_nil, stream_cons, write_append] at h
            simp at h
    | cons r rs ih =>
        cases ts with
        | nil =>
            rw [stream_nil, stream_cons, write_append] at h
            simp at h
        | cons t ts =>
            obtain ⟨hkey, htag⟩ := hrs r List.mem_cons_self
            obtain ⟨hkey', htag'⟩ := hts t List.mem_cons_self
            rw [stream_cons, stream_cons, write_append, write_append] at h
            obtain ⟨hkeys, hbehind⟩ := Framing.split_at_stop hkey hkey' h
            obtain ⟨hwords, hpayloads⟩ := Framing.split_at_stop htag htag' hbehind
            obtain ⟨key, tag, payload⟩ := r
            obtain ⟨key', tag', payload'⟩ := t
            have htags : tag = tag' := hword hwords
            dsimp only at hkeys hpayloads
            subst hkeys htags
            cases List.append_eq_append_iff.mp hpayloads with
            | inl hlonger =>
                obtain ⟨more, rfl, hrest⟩ := hlonger
                by_cases hmore : more = []
                · subst hmore
                  rw [List.append_nil]
                  cases ih (fun r hr => hrs r (List.mem_cons_of_mem _ hr))
                    (fun r hr => hts r (List.mem_cons_of_mem _ hr)) hrest with
                  | inl hsame => exact .inl (hsame ▸ rfl)
                  | inr hspill => exact .inr (hspill.imp (Spill.cons _) (Spill.cons _))
                · exact .inr (.inl ⟨[], key, tag, payload, more, rs, ts, rfl, rfl, hmore, hrest⟩)
            | inr hshorter =>
                obtain ⟨more, rfl, hrest⟩ := hshorter
                by_cases hmore : more = []
                · subst hmore
                  rw [List.append_nil]
                  cases ih (fun r hr => hrs r (List.mem_cons_of_mem _ hr))
                    (fun r hr => hts r (List.mem_cons_of_mem _ hr)) hrest.symm with
                  | inl hsame => exact .inl (hsame ▸ rfl)
                  | inr hspill => exact .inr (hspill.imp (Spill.cons _) (Spill.cons _))
                · exact .inr (.inr ⟨[], key, tag, payload', more, ts, rs, rfl, rfl, hmore, hrest⟩)
  · rintro (rfl | hspill | hspill)
    · rfl
    · exact hspill.stream_eq
    · exact hspill.stream_eq.symm

end TaggedStream
