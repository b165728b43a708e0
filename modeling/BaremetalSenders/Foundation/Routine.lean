import Mathlib.Logic.Basic

/-!
Routines that go on after some of their outcomes only.

A routine may change a world and has an outcome. `handle p m f` does `m`
and goes on with `f` if the outcome satisfies `p`; any other outcome is the
outcome of the whole, in the world that `m` left. With one kind of outcome that
satisfies `p` this is the sequencing of exceptions, and any set of outcomes can
be the one that is handled: the three laws of a monad hold for each of them,
with the outcomes that satisfy `p` for its values.
-/

namespace BaremetalSenders

variable {W O : Type*}

/-- What happens in a world: the outcome, and the world after it. -/
abbrev Routine (W O : Type*) := W → O × W

namespace Routine

/-- The outcome is there already. -/
def done (o : O) : Routine W O := fun w => (o, w)

/-- Go on after the outcomes that satisfy `p`. -/
def handle (p : O → Bool) (m : Routine W O) (f : O → Routine W O) : Routine W O :=
  fun w => if p (m w).1 then f (m w).1 (m w).2 else m w

variable {p : O → Bool} {m : Routine W O} {f g : O → Routine W O} {o : O} {w : W}

theorem handle_eq (h : p (m w).1 = true) : handle p m f w = f (m w).1 (m w).2 := if_pos h

/-- An outcome that is not handled is passed through. -/
theorem handle_eq_self (h : p (m w).1 = false) : handle p m f w = m w := if_neg (by simp [h])

theorem handle_done (h : p o = true) : handle p (done o) f = f o := by
  funext w
  exact handle_eq h

theorem handle_done_right : handle p m done = m := by
  funext w
  cases h : p (m w).1 with
  | true => exact handle_eq h
  | false => exact handle_eq_self h

theorem handle_assoc :
    handle p (handle p m f) g = handle p m fun o => handle p (f o) g := by
  funext w
  cases h : p (m w).1 with
  | true => simp only [handle, h, if_true]
  | false => simp only [handle, h, Bool.false_eq_true, if_false]

/-- Only what is done after the outcomes that are handled matters. -/
theorem handle_congr (h : ∀ o, p o = true → f o = g o) : handle p m f = handle p m g := by
  funext w
  simp only [handle]
  split
  · next hp => rw [h _ hp]
  · rfl

end Routine

end BaremetalSenders
