import Mathlib.Data.List.Nodup

/-!
Singly linked lists in a heap of `next` pointers.

`Linked next h xs` says that following `next` from the head `h` one meets the
nodes `xs`, in this order, and then the null pointer. A list only depends on
the pointers of its own nodes, and pushing a node at the front is the only way
the developments above make it longer.
-/

namespace BaremetalSenders

variable {α : Type*}

/-- The nodes met from the head `h`. -/
def Linked (next : α → Option α) : Option α → List α → Prop
  | h, [] => h = none
  | h, x :: xs => h = some x ∧ Linked next (next x) xs

variable {next next' : α → Option α} {h : Option α} {xs : List α} {x : α}

theorem Linked.congr (hl : Linked next h xs) (hnext : ∀ x ∈ xs, next' x = next x) :
    Linked next' h xs := by
  induction xs generalizing h with
  | nil => exact hl
  | cons x xs ih =>
      refine ⟨hl.1, ?_⟩
      rw [hnext x (by simp)]
      exact ih hl.2 fun y hy => hnext y (List.mem_cons_of_mem x hy)

theorem Linked.push (hl : Linked next h xs) (hx : x ∉ xs) (hhead : next' x = h)
    (hnext : ∀ y, y ≠ x → next' y = next y) : Linked next' (some x) (x :: xs) := by
  refine ⟨rfl, ?_⟩
  rw [hhead]
  exact hl.congr fun y hy => hnext y fun e => hx (e ▸ hy)

theorem Linked.head_eq (hl : Linked next h xs) : h = xs.head? := by
  cases xs with
  | nil => exact hl
  | cons x xs => exact hl.1

/-- The pointer of a node leads to the node behind it. -/
theorem Linked.next_eq {ys zs : List α} (hl : Linked next h (ys ++ x :: zs)) :
    next x = zs.head? := by
  induction ys generalizing h with
  | nil => exact hl.2.head_eq
  | cons y ys ih => exact ih hl.2

end BaremetalSenders
