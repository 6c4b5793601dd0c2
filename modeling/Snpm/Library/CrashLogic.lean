import Mathlib

/-!
Programs on a store that can be cut short. A program is what it does to a store that it
is left to finish with, and the stores it can leave when it is cut short on the way. A
triple has a condition for the store at every such moment beside those before and after.
-/
namespace CrashLogic

structure Outcome (σ ε α : Type) where
  crashed : σ → Prop
  result : Except ε α
  final : σ

def Prog (σ ε α : Type) := σ → Outcome σ ε α

variable {σ ε α β : Type}

namespace Prog

def pure (a : α) : Prog σ ε α := fun s => ⟨fun _ => False, .ok a, s⟩

/-- An error ends the program; between the parts it can be cut short as well. -/
def bind (p : Prog σ ε α) (f : α → Prog σ ε β) : Prog σ ε β := fun s =>
  match (p s).result with
  | .error e => ⟨(p s).crashed, .error e, (p s).final⟩
  | .ok a => ⟨fun s' => (p s).crashed s' ∨ s' = (p s).final ∨ (f a (p s).final).crashed s',
      (f a (p s).final).result, (f a (p s).final).final⟩

instance : Monad (Prog σ ε) where
  pure := Prog.pure
  bind := Prog.bind

/-- A look at the store. -/
def read (f : σ → Except ε α) : Prog σ ε α := fun s => ⟨fun _ => False, f s, s⟩

/-- A write, with what it can leave half done. -/
def write (halfDone : σ → σ → Prop) (f : σ → Except ε σ) : Prog σ ε Unit := fun s =>
  match f s with
  | .error e => ⟨fun _ => False, .error e, s⟩
  | .ok s' => ⟨halfDone s, .ok (), s'⟩

def fail (e : ε) : Prog σ ε α := read fun _ => .error e

def lift (result : Except ε α) : Prog σ ε α := read fun _ => result

end Prog

/-- From a store with `pre` the program leaves `crash` whenever it stops, and `post` when
it succeeds. -/
structure Triple (pre crash : σ → Prop) (p : Prog σ ε α) (post : α → σ → Prop) : Prop where
  crashed : ∀ s s', pre s → (p s).crashed s' → crash s'
  final : ∀ s, pre s → crash (p s).final
  ends : ∀ s a, pre s → (p s).result = .ok a → post a (p s).final

namespace Triple

variable {pre pre' crash crash' : σ → Prop} {p : Prog σ ε α} {f : α → Prog σ ε β}
  {between : α → σ → Prop} {post post' : β → σ → Prop} {q : Prog σ ε β}

theorem consequence (h : Triple pre crash q post) (hpre : ∀ s, pre' s → pre s)
    (hcrash : ∀ s, crash s → crash' s) (hpost : ∀ b s, post b s → post' b s) :
    Triple pre' crash' q post' where
  crashed s s' hs hcrashed := hcrash s' (h.crashed s s' (hpre s hs) hcrashed)
  final s hs := hcrash _ (h.final s (hpre s hs))
  ends s b hs hok := hpost b _ (h.ends s b (hpre s hs) hok)

/-- A triple may be shown for each store apart. -/
theorem each (h : ∀ s, pre s → Triple (· = s) crash q post) : Triple pre crash q post where
  crashed s s' hs := (h s hs).crashed s s' rfl
  final s hs := (h s hs).final s rfl
  ends s b hs := (h s hs).ends s b rfl

/-- What holds apart from the store may be used for the rest of a program. -/
theorem given {φ : Prop} (h : φ → Triple pre crash q post) :
    Triple (fun s => pre s ∧ φ) crash q post where
  crashed s s' hs := (h hs.2).crashed s s' hs.1
  final s hs := (h hs.2).final s hs.1
  ends s b hs := (h hs.2).ends s b hs.1

theorem pure (b : β) (h : ∀ s, pre s → crash s ∧ post b s) :
    Triple pre crash (Pure.pure b : Prog σ ε β) post where
  crashed _ _ _ hcrashed := hcrashed.elim
  final s hs := (h s hs).1
  ends s a hs hok := by
    cases hok
    exact (h s hs).2

theorem bind (hp : Triple pre crash p between)
    (hf : ∀ a, Triple (between a) crash (f a) post) : Triple pre crash (p >>= f) post := by
  have hcases : ∀ s, (∃ e, (p s).result = .error e ∧ (p >>= f) s =
        ⟨(p s).crashed, .error e, (p s).final⟩) ∨
      ∃ a, (p s).result = .ok a ∧ (p >>= f) s =
        ⟨fun s' => (p s).crashed s' ∨ s' = (p s).final ∨ (f a (p s).final).crashed s',
          (f a (p s).final).result, (f a (p s).final).final⟩ := by
    intro s
    cases hresult : (p s).result with
    | error e => exact .inl ⟨e, rfl, by simp [Bind.bind, Prog.bind, hresult]⟩
    | ok a => exact .inr ⟨a, rfl, by simp [Bind.bind, Prog.bind, hresult]⟩
  refine ⟨fun s s' hs hcrashed => ?_, fun s hs => ?_, fun s b hs hok => ?_⟩
  · cases hcases s with
    | inl herror =>
        obtain ⟨e, _, heq⟩ := herror
        rw [heq] at hcrashed
        exact hp.crashed s s' hs hcrashed
    | inr hmid =>
        obtain ⟨a, hresult, heq⟩ := hmid
        rw [heq] at hcrashed
        cases hcrashed with
        | inl hfirst => exact hp.crashed s s' hs hfirst
        | inr hlater =>
            cases hlater with
            | inl hbetween =>
                rw [hbetween]
                exact hp.final s hs
            | inr hsecond => exact (hf a).crashed _ s' (hp.ends s a hs hresult) hsecond
  · cases hcases s with
    | inl herror =>
        obtain ⟨e, _, heq⟩ := herror
        rw [heq]
        exact hp.final s hs
    | inr hmid =>
        obtain ⟨a, hresult, heq⟩ := hmid
        rw [heq]
        exact (hf a).final _ (hp.ends s a hs hresult)
  · cases hcases s with
    | inl herror =>
        obtain ⟨e, _, heq⟩ := herror
        rw [heq] at hok
        cases hok
    | inr hmid =>
        obtain ⟨a, hresult, heq⟩ := hmid
        rw [heq] at hok ⊢
        exact (hf a).ends _ b (hp.ends s a hs hresult) hok

theorem read {g : σ → Except ε β} (h : ∀ s, pre s → crash s)
    (hpost : ∀ s b, pre s → g s = .ok b → post b s) : Triple pre crash (Prog.read g) post where
  crashed _ _ _ hcrashed := hcrashed.elim
  final := h
  ends := hpost

theorem lift {result : Except ε β} (h : ∀ s, pre s → crash s) :
    Triple pre crash (Prog.lift result) fun b s => pre s ∧ result = .ok b :=
  read h fun _ _ hs hok => ⟨hs, hok⟩

theorem fail {e : ε} (h : ∀ s, pre s → crash s) :
    Triple pre crash (Prog.fail e : Prog σ ε β) post :=
  read h fun _ _ _ hok => by cases hok

theorem write {halfDone : σ → σ → Prop} {g : σ → Except ε σ} {done : Unit → σ → Prop}
    (h : ∀ s, pre s → crash s) (hhalf : ∀ s s', pre s → halfDone s s' → crash s')
    (hdone : ∀ s s', pre s → g s = .ok s' → crash s' ∧ done () s') :
    Triple pre crash (Prog.write halfDone g) done := by
  refine ⟨fun s s' hs hcrashed => ?_, fun s hs => ?_, fun s u hs hok => ?_⟩
  · simp only [Prog.write] at hcrashed
    split at hcrashed
    next => exact hcrashed.elim
    next => exact hhalf s s' hs hcrashed
  · simp only [Prog.write]
    split
    next => exact h s hs
    next s' hg => exact (hdone s s' hs hg).1
  · simp only [Prog.write] at hok ⊢
    split at hok
    next => cases hok
    next s' hg => exact (hdone s s' hs hg).2

end Triple

/-- A store that a program leaves, finished or cut short. -/
def Leaves (p : Prog σ ε α) (s s' : σ) : Prop := s' = (p s).final ∨ (p s).crashed s'

theorem Triple.leaves {pre crash : σ → Prop} {p : Prog σ ε α} {post : α → σ → Prop} {s s' : σ}
    (h : Triple pre crash p post) (hs : pre s) (hleaves : Leaves p s s') : crash s' := by
  cases hleaves with
  | inl hfinal =>
      rw [hfinal]
      exact h.final s hs
  | inr hcrashed => exact h.crashed s s' hs hcrashed

/-- Runs of programs of a family one after the other, each finished or cut short. -/
inductive Run (family : Prog σ ε α → Prop) : σ → σ → Prop where
  | nil (s : σ) : Run family s s
  | call {first last next : σ} (p : Prog σ ε α) :
      Run family first last → family p → Leaves p last next → Run family first next

/-- What every program keeps, finished or cut short, holds after every run. -/
theorem Run.keeps {family : Prog σ ε α → Prop} {kept : σ → Prop} {first last : σ}
    (hrun : Run family first last) (hfirst : kept first)
    (h : ∀ p, family p → ∃ post, Triple kept kept p post) : kept last := by
  induction hrun with
  | nil => exact hfirst
  | call p hbefore hfamily hleaves ih =>
      obtain ⟨post, htriple⟩ := h p hfamily
      exact htriple.leaves ih hleaves

end CrashLogic
