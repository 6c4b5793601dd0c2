import Mathlib

/-!
A recursion whose body calls itself at most once, on an argument that is
computed before the call. Where the argument shrinks, the recursion ends, every
fuel above the size gives one value, and this value is the only solution of the
recursion's equation.
-/
namespace SingleCall

variable {α β : Type} (body : (α → β) → α → β) (next : α → Option α) (size : α → Nat)

/-- `y` is the argument of the call made at `x`. -/
def Calls (y x : α) : Prop := y ∈ next x

/-- The body uses its recursive value at the next argument only. -/
def AsksNext : Prop :=
  ∀ (again other : α → β) (x : α), (∀ y ∈ next x, again y = other y) → body again x = body other x

def Shrinks : Prop := ∀ x, ∀ y ∈ next x, size y < size x

/-- The recursion cut off at a depth. -/
def within (base : α → β) : Nat → α → β
  | 0 => base
  | fuel + 1 => body (within base fuel)

section Ends

variable {body next size}

theorem calls_wellFounded (h : Shrinks next size) : WellFounded (Calls next) := by
  apply Subrelation.wf (r := InvImage (· < ·) size)
  · intro y x hcall
    exact h x y hcall
  · exact InvImage.wf size Nat.lt_wfRel.wf

/-- Every depth above the size gives one value. -/
theorem within_eq (hasks : AsksNext body next) (hsize : Shrinks next size) (base : α → β)
    (fuel : Nat) : ∀ {other : Nat} {x : α}, size x < fuel → size x < other →
      within body base fuel x = within body base other x := by
  induction fuel with
  | zero =>
      intro other x hfuel
      exact absurd hfuel (Nat.not_lt_zero _)
  | succ fuel ih =>
      intro other x hfuel hother
      cases other with
      | zero => exact absurd hother (Nat.not_lt_zero _)
      | succ other =>
          apply hasks
          intro y hy
          have hless := hsize x y hy
          exact ih (by omega) (by omega)

/-- A depth above the size of each argument solves the equation. -/
theorem within_solves (hasks : AsksNext body next) (hsize : Shrinks next size) (base : α → β)
    {depth : α → Nat} (hdepth : ∀ x, size x < depth x) (x : α) :
    within body base (depth x) x = body (fun y => within body base (depth y) y) x := by
  have hsucc : within body base (depth x) x = within body base (size x + 1) x :=
    within_eq hasks hsize base _ (hdepth x) (Nat.lt_succ_self _)
  rw [hsucc]
  apply hasks
  intro y hy
  exact within_eq hasks hsize base _ (hsize x y hy) (hdepth y)

/-- Two solutions of the equation are one. -/
theorem solution_unique (hasks : AsksNext body next) (hsize : Shrinks next size) {f g : α → β}
    (hf : ∀ x, f x = body f x) (hg : ∀ x, g x = body g x) (x : α) : f x = g x := by
  induction x using (calls_wellFounded hsize).induction with
  | _ x ih =>
      rw [hf, hg]
      exact hasks f g x ih

end Ends

end SingleCall
