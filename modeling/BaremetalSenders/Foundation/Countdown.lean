import Mathlib.Data.Fintype.Card
import Mathlib.Data.Finset.Card

/-!
Counting down the parties that have not arrived.

A join is implemented by a counter that starts at the number of parties and is
decremented by each of them once; whoever brings it to zero is the last. What
makes this right is that the counter is at all times the number of parties
that have not arrived, whatever else distinguishes them. The phases of the
parties are a function, and a step changes it in one place.
-/

namespace BaremetalSenders

variable {ι β : Type*} [Fintype ι]

/-- The number of parties whose phase is not one of an arrived party. -/
def remaining (arrived : β → Bool) (phase : ι → β) : ℕ :=
  (Finset.univ.filter fun i => arrived (phase i) = false).card

variable {arrived : β → Bool} {phase : ι → β} {i : ι} {b : β}

/-- The counter is zero exactly when all have arrived. -/
theorem remaining_eq_zero : remaining arrived phase = 0 ↔ ∀ i, arrived (phase i) = true := by
  simp [remaining, Finset.card_eq_zero, Finset.filter_eq_empty_iff]

theorem remaining_of_none_arrived (h : ∀ i, arrived (phase i) = false) :
    remaining arrived phase = Fintype.card ι := by
  rw [remaining, Finset.filter_true_of_mem fun i _ => h i, Finset.card_univ]

variable [DecidableEq ι]

omit [Fintype ι] in
/-- A step of a party that does not change how `f` sees it changes nothing `f` sees. -/
theorem view_update {γ : Type*} {f : β → γ} (h : f b = f (phase i)) (j : ι) :
    f (Function.update phase i b j) = f (phase j) := by
  rcases eq_or_ne j i with rfl | hne
  · rw [Function.update_self, h]
  · rw [Function.update_of_ne hne]

/-- A step of a party that does not arrive leaves the counter alone. -/
theorem remaining_update (h : arrived b = arrived (phase i)) :
    remaining arrived (Function.update phase i b) = remaining arrived phase := by
  refine congrArg Finset.card (Finset.filter_congr fun j _ => ?_)
  rw [view_update h]

/-- A party that arrives is counted down. -/
theorem remaining_arrive (hb : arrived b = true) (hi : arrived (phase i) = false) :
    remaining arrived (Function.update phase i b) + 1 = remaining arrived phase := by
  have hsame : (Finset.univ.filter fun j => arrived (Function.update phase i b j) = false) =
      (Finset.univ.filter fun j => arrived (phase j) = false).erase i := by
    ext j
    rcases eq_or_ne j i with rfl | hne
    · simp [hb]
    · simp [hne]
  rw [remaining, hsame, remaining]
  exact Finset.card_erase_add_one (by simp [hi])

end BaremetalSenders
