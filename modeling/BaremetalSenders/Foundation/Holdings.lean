import BaremetalSenders.Foundation.Ledger
import Mathlib.Algebra.BigOperators.Group.Finset.Piecewise
import Mathlib.Algebra.BigOperators.Group.List.Basic
import Mathlib.Data.Multiset.AddSub

/-!
What several places hold together, when one of them changes.

The places are the entries of a finite family or of a list, and what a place
holds is measured in a commutative monoid: a multiset of items, a number. The
laws are stated without subtraction, with what the place held before on one
side and what it holds now on the other.

Where the items are spread over several places, the ledger is kept up to order:
`Booked` says what a line of the ledger does to the multiset of all of them.
-/

namespace BaremetalSenders

variable {ι β M : Type*} [AddCommMonoid M]

theorem sum_update_add [Fintype ι] [DecidableEq ι] (f : ι → β → M) (q : ι → β) (i : ι) (x : β) :
    ∑ j, f j (Function.update q i x j) + f i (q i) = ∑ j, f j (q j) + f i x := by
  have hchange : (fun j => f j (Function.update q i x j)) =
      Function.update (fun j => f j (q j)) i (f i x) := by
    funext j
    by_cases hj : j = i
    · subst hj
      simp
    · simp [hj]
  rw [hchange, Finset.sum_update_of_mem (Finset.mem_univ i)]
  have hold : f i (q i) + ∑ j ∈ Finset.univ \ {i}, f j (q j) = ∑ j, f j (q j) := by
    rw [← Finset.sum_update_of_mem (Finset.mem_univ i)]
    exact Finset.sum_congr rfl fun j _ => by rw [Function.update_eq_self]
  rw [← hold, add_assoc, add_comm (f i x), add_comm (f i (q i))]

theorem sum_map_set_add {l : List β} {i : ℕ} {x : β} (f : β → M) (h : l[i]? = some x) (y : β) :
    ((l.set i y).map f).sum + f x = (l.map f).sum + f y := by
  induction l generalizing i with
  | nil => simp at h
  | cons z l ih =>
      cases i with
      | zero =>
          obtain rfl : z = x := by simpa using h
          simp only [List.set_cons_zero, List.map_cons, List.sum_cons]
          ac_rfl
      | succ i =>
          have hi : l[i]? = some x := by simpa using h
          simp only [List.set_cons_succ, List.map_cons, List.sum_cons, add_assoc, ih hi]

namespace Ledger

variable {α : Type*} [DecidableEq α]

/-- How the items held change with a line of the ledger, or without one. -/
def Booked (o : Option (Entry α)) (m m' : Multiset α) : Prop :=
  match o with
  | some (.arm x) => m' = m + {x}
  | some (.settle x) => m' + {x} = m
  | none => m' = m

/-- A ledger that lists what is held accepts the next line, unless it arms an
item that is held already. -/
theorem run_of_booked {o : Option (Entry α)} {m m' : Multiset α} {q : List α}
    (hq : (q : Multiset α) = m) (hb : Booked o m m') (hnew : ∀ x, o = some (.arm x) → x ∉ m) :
    ∃ q', Run step q o.toList q' ∧ (q' : Multiset α) = m' := by
  subst hq
  match o with
  | some (.arm x) =>
      refine ⟨q ++ [x], ?_, hb.symm ▸ rfl⟩
      simpa using hnew x rfl
  | some (.settle x) =>
      have hmem : x ∈ q := by
        rw [← Multiset.mem_coe, ← hb]
        simp
      refine ⟨q.erase x, by simpa using hmem, ?_⟩
      rw [← Multiset.coe_erase, ← hb, add_comm, Multiset.singleton_add, Multiset.erase_cons_head]
  | none => exact ⟨q, by simp, hb.symm⟩

end Ledger

end BaremetalSenders
