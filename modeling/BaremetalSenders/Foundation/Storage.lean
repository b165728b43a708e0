import Mathlib.Logic.Function.Basic
import Mathlib.Data.List.Basic

/-!
Nested storage: objects that hold at most one other object at a time, in a
variant or an optional, which can hold another one in turn.

A place is where an object is, by the way to it from the outermost one, the
innermost step first. The objects that an object holds one after the other are
numbered, so a place is given to one object only, and the object is alive as
long as each of those around it still holds the one on the way to it. Looking
at an inactive alternative of a variant is looking at a place where nothing is
alive any more.
-/

namespace BaremetalSenders

/-- The way to an object: the number of the object in the one that holds it, and
the way to that. -/
abbrev Place := List ℕ

/-- `x` is the place of an object around the one at `y`. -/
def Place.around (x : Place) : Place → Bool
  | [] => false
  | _ :: y => y == x || Place.around x y

/-- What the objects hold, and how often something has been put into them since
they have been made. An object is made with number 0 in it, and holds nothing
that has not been put into it. -/
structure Slots where
  active : Place → Option ℕ
  made : Place → ℕ
  le_made : ∀ x k, active x = some k → k ≤ made x

namespace Slots

def init : Slots where
  active := fun _ => some 0
  made := fun _ => 0
  le_made := by
    intro x k h
    exact Nat.le_of_eq (Option.some.inj h).symm

/-- What is in the object at `x` is destroyed, and a new object made in it. -/
def emplace (m : Slots) (x : Place) : Slots where
  active := Function.update m.active x (some (m.made x + 1))
  made := Function.update m.made x (m.made x + 1)
  le_made := by
    intro y k h
    by_cases hy : y = x
    · subst hy
      rw [Function.update_self] at h ⊢
      exact Nat.le_of_eq (Option.some.inj h).symm
    · rw [Function.update_of_ne hy] at h ⊢
      exact m.le_made y k h

def reset (m : Slots) (x : Place) : Slots where
  active := Function.update m.active x none
  made := m.made
  le_made := by
    intro y k h
    by_cases hy : y = x
    · subst hy
      rw [Function.update_self] at h
      cases h
    · rw [Function.update_of_ne hy] at h
      exact m.le_made y k h

/-- The object that was made at `y` is there. -/
def alive (m : Slots) : Place → Bool
  | [] => true
  | k :: y => m.active y == some k && m.alive y

/-- There has been an object at `y`. -/
def Known (m : Slots) : Place → Prop
  | [] => True
  | k :: y => k ≤ m.made y ∧ m.Known y

/-- `m'` is `m` with something else, or nothing, in the object at `x`. -/
structure Replaced (m : Slots) (x : Place) (m' : Slots) : Prop where
  active : ∀ y, y ≠ x → m'.active y = m.active y
  made : ∀ y, m.made y ≤ m'.made y
  new : ∀ k, m'.active x = some k → m.made x < k

variable {m m' : Slots} {x y : Place}

theorem replaced_emplace (m : Slots) (x : Place) : Replaced m x (m.emplace x) where
  active y hy := Function.update_of_ne hy _ _
  made y := by
    by_cases hy : y = x
    · subst hy
      simp [emplace]
    · simp [emplace, hy]
  new k hk := by
    obtain rfl : m.made x + 1 = k := by simpa [emplace] using hk
    exact Nat.lt_succ_self _

theorem replaced_reset (m : Slots) (x : Place) : Replaced m x (m.reset x) where
  active y hy := Function.update_of_ne hy _ _
  made _ := Nat.le_refl _
  new k hk := by simp [reset] at hk

/-- The object at `x` and those that are not in it do not notice. -/
theorem Replaced.alive_eq (h : Replaced m x m') (hy : x.around y = false) :
    m'.alive y = m.alive y := by
  induction y with
  | nil => rfl
  | cons k y ih =>
      obtain ⟨hne, hy⟩ : (y == x) = false ∧ x.around y = false := by
        simpa [Place.around] using hy
      rw [alive, alive, ih hy, h.active y (by simpa using hne)]

theorem Known.replaced (h : Replaced m x m') (hy : m.Known y) : m'.Known y := by
  induction y with
  | nil => exact True.intro
  | cons k y ih => exact ⟨Nat.le_trans hy.1 (h.made y), ih hy.2⟩

/-- What was in the object at `x` is gone. -/
theorem Replaced.dead (h : Replaced m x m') (hy : x.around y = true) (hknown : m.Known y) :
    m'.alive y = false := by
  induction y with
  | nil => cases hy
  | cons k y ih =>
      rw [alive, Bool.and_eq_false_iff]
      rcases Bool.or_eq_true_iff.mp hy with heq | hy
      · left
        obtain rfl : y = x := by simpa using heq
        by_contra hactive
        have := h.new k (by simpa using hactive)
        exact absurd hknown.1 (by omega)
      · exact .inr (ih hy hknown.2)

/-- What is gone does not come back. -/
theorem Replaced.dead_of_dead (h : Replaced m x m') (hdead : m.alive y = false)
    (hknown : m.Known y) : m'.alive y = false := by
  cases hy : x.around y with
  | true => exact h.dead hy hknown
  | false => rwa [h.alive_eq hy]

/-! ### Places that hold places -/

theorem suffix_of_around (h : x.around y = true) : x <:+ y := by
  induction y with
  | nil => cases h
  | cons k y ih =>
      rcases Bool.or_eq_true_iff.mp h with heq | h
      · obtain rfl : y = x := by simpa using heq
        exact List.suffix_cons k y
      · exact (ih h).trans (List.suffix_cons k y)

@[simp] theorem around_cons_self (k : ℕ) (x : Place) : x.around (k :: x) = true := by
  simp [Place.around]

theorem around_cons (k : ℕ) (h : x.around y = true) : x.around (k :: y) = true := by
  simp [Place.around, h]

theorem around_irrefl_of_suffix (h : y <:+ x) : x.around y = false := by
  induction y with
  | nil => rfl
  | cons k y ih =>
      have hy : y <:+ x := (List.suffix_cons k y).trans h
      have hne : y ≠ x := by
        rintro rfl
        have := h.length_le
        exact absurd this (by simp)
      simp [Place.around, hne, ih hy]

theorem alive_of_suffix (h : x <:+ y) (hy : m.alive y = true) : m.alive x = true := by
  induction y with
  | nil =>
      obtain rfl := List.suffix_nil.mp h
      rfl
  | cons k y ih =>
      rcases List.suffix_cons_iff.mp h with rfl | h
      · exact hy
      · exact ih h (Bool.and_eq_true_iff.mp hy).2

theorem Known.of_suffix (h : x <:+ y) (hy : m.Known y) : m.Known x := by
  induction y with
  | nil =>
      obtain rfl := List.suffix_nil.mp h
      exact True.intro
  | cons k y ih =>
      rcases List.suffix_cons_iff.mp h with rfl | h
      · exact hy
      · exact ih h hy.2

/-- Nothing has been put into the object at `x` or into those in it. -/
def Fresh (m : Slots) (x : Place) : Prop :=
  ∀ y, x <:+ y → m.active y = some 0 ∧ m.made y = 0

/-- The places that have not been given to an object are fresh. -/
def Untouched (m : Slots) : Prop := ∀ x k, m.made x < k → m.Fresh (k :: x)

theorem Fresh.inner (h : m.Fresh x) (k : ℕ) : m.Fresh (k :: x) :=
  fun y hy => h y ((List.suffix_cons k x).trans hy)

theorem Untouched.replaced (h : m.Untouched) (hrep : Replaced m x m') (hx : m.Known x)
    (hmade : ∀ y, y ≠ x → m'.made y = m.made y) : m'.Untouched := by
  intro y k hk y' hy'
  have hfresh := h y k (Nat.lt_of_le_of_lt (hrep.made y) hk)
  have hne : y' ≠ x := by
    rintro rfl
    have hknown := (hx.of_suffix hy').1
    exact absurd (hrep.made y) (by omega)
  rw [hrep.active y' hne, hmade y' hne]
  exact hfresh y' hy'

theorem Untouched.emplace (h : m.Untouched) (hx : m.Known x) : (m.emplace x).Untouched :=
  h.replaced (replaced_emplace m x) hx fun _ hy => Function.update_of_ne hy _ _

theorem Untouched.reset (h : m.Untouched) (hx : m.Known x) : (m.reset x).Untouched :=
  h.replaced (replaced_reset m x) hx fun _ _ => rfl

theorem Untouched.fresh_emplaced (h : m.Untouched) (hx : m.Known x) :
    (m.emplace x).Fresh ((m.made x + 1) :: x) := by
  intro y hy
  have hne : y ≠ x := by
    rintro rfl
    exact absurd hy.length_le (by simp)
  have hfresh := h x (m.made x + 1) (Nat.lt_succ_self _) y hy
  simpa [Slots.emplace, hne] using hfresh

theorem alive_emplaced (h : m.alive x = true) :
    (m.emplace x).alive ((m.made x + 1) :: x) = true := by
  rw [alive, (replaced_emplace m x).alive_eq (around_irrefl_of_suffix (List.suffix_refl x)), h]
  simp [emplace]

theorem known_active {k : ℕ} (h : m.Known x) (hk : m.active x = some k) : m.Known (k :: x) :=
  ⟨m.le_made x k hk, h⟩

theorem alive_active {k : ℕ} (h : m.alive x = true) (hk : m.active x = some k) :
    m.alive (k :: x) = true := by
  simp [alive, h, hk]

theorem known_emplaced (h : m.Known x) : (m.emplace x).Known ((m.made x + 1) :: x) :=
  ⟨by simp [emplace], h.replaced (replaced_emplace m x)⟩

end Slots

end BaremetalSenders
