import Mathlib.Data.List.Induction
import Mathlib.Data.List.Nodup
import Mathlib.Logic.Function.Basic

/-!
Intrusive doubly linked lists.

The links live in the nodes, so one table of links is shared by every list
object, and a list object is nothing but a head and a tail pointer. An
operation is called on a list object and on a node, and it writes the node's
neighbours and that object's ends. It cannot know whether the node is really
in that list. This is the point at which pointers differ from abstract lists:
`remove` called on the wrong list object still unlinks an interior node, and
corrupts both objects for a node at an end.

`Holds h l xs` says that in the links `h` the list object `l` is the list `xs`.
Each operation has one theorem about the object it is called on and one that
says which links it leaves alone, from which the other objects are framed.
-/

namespace BaremetalSenders.IntrusiveList

variable {α : Type*}

structure Links (α : Type*) where
  next : α → Option α
  prev : α → Option α

structure Ends (α : Type*) where
  head : Option α
  tail : Option α
  deriving DecidableEq

def Ends.empty : Ends α := ⟨none, none⟩

variable {h h' : Links α} {l l' : Ends α} {p q v : Option α} {n : α} {xs ys a b : List α}

/-! ### What a list object holds -/

/-- The nodes `xs` are linked in this order, the first one back to `p` and the
last one forward to `q`. -/
def Seg (h : Links α) : Option α → List α → Option α → Prop
  | _, [], _ => True
  | p, x :: xs, q => h.prev x = p ∧ h.next x = xs.head?.or q ∧ Seg h (some x) xs q

theorem seg_append :
    Seg h p (xs ++ ys) q ↔ Seg h p xs (ys.head?.or q) ∧ Seg h (xs.getLast?.or p) ys q := by
  induction xs generalizing p with
  | nil => simp [Seg]
  | cons x xs ih =>
      have hlast : (x :: xs).getLast?.or p = xs.getLast?.or (some x) := by
        cases hx : xs.getLast? <;> simp [List.getLast?_cons, hx]
      simp only [List.cons_append, Seg, ih, hlast, List.head?_append, Option.or_assoc,
        and_assoc]

/-- A segment only depends on the links of its own nodes. -/
theorem Seg.frame (hs : Seg h p xs q)
    (hag : ∀ x ∈ xs, h'.prev x = h.prev x ∧ h'.next x = h.next x) : Seg h' p xs q := by
  induction xs generalizing p with
  | nil => trivial
  | cons x xs ih =>
      obtain ⟨hp, hn, hrest⟩ := hs
      have hx := hag x (List.mem_cons_self ..)
      exact ⟨hx.1.trans hp, hx.2.trans hn,
        ih hrest fun y hy => hag y (List.mem_cons_of_mem _ hy)⟩

/-- In the links `h` the list object `l` is the list `xs`. -/
structure Holds (h : Links α) (l : Ends α) (xs : List α) : Prop where
  head : l.head = xs.head?
  tail : l.tail = xs.getLast?
  seg : Seg h none xs none
  nodup : xs.Nodup

theorem holds_empty : Holds h (Ends.empty : Ends α) [] :=
  ⟨rfl, rfl, trivial, List.nodup_nil⟩

theorem Holds.head_eq_none_iff (hl : Holds h l xs) : l.head = none ↔ xs = [] := by
  simp [hl.head]

/-- Frame rule: a list object survives every write to the links of other nodes. -/
theorem Holds.frame (hl : Holds h l xs)
    (hag : ∀ x ∈ xs, h'.prev x = h.prev x ∧ h'.next x = h.next x) : Holds h' l xs :=
  ⟨hl.head, hl.tail, hl.seg.frame hag, hl.nodup⟩

theorem Holds.head_next (hl : Holds h l (n :: xs)) : l.head.bind h.next = xs.head? := by
  have hn : h.next n = xs.head? := by simpa using hl.seg.2.1
  simp [hl.head, hn]

/-- The neighbours a node of a list is linked to. -/
theorem Holds.neighbours (hl : Holds h l (a ++ n :: b)) :
    h.prev n = a.getLast? ∧ h.next n = b.head? := by
  have hs := (seg_append.mp hl.seg).2
  exact ⟨by simpa using hs.1, by simpa using hs.2.1⟩

theorem Holds.nodup_remove (hl : Holds h l (a ++ n :: b)) : (a ++ b).Nodup :=
  hl.nodup.sublist ((List.Sublist.refl a).append (List.sublist_cons_self n b))

/-! ### Writing a link field -/

section FieldUpdates

variable [DecidableEq α]

/-- `n->next = v`; nothing happens when `n` is null. -/
def Links.setNext (h : Links α) (n v : Option α) : Links α :=
  match n with
  | none => h
  | some x => { h with next := Function.update h.next x v }

/-- `n->prev = v`; nothing happens when `n` is null. -/
def Links.setPrev (h : Links α) (n v : Option α) : Links α :=
  match n with
  | none => h
  | some x => { h with prev := Function.update h.prev x v }

variable (h : Links α) (n v : Option α) (x : α)

@[simp] theorem prev_setNext : (h.setNext n v).prev = h.prev := by
  cases n <;> rfl

@[simp] theorem next_setPrev : (h.setPrev n v).next = h.next := by
  cases n <;> rfl

@[simp] theorem next_setNext_same : (h.setNext (some x) v).next x = v := by
  simp [Links.setNext]

@[simp] theorem prev_setPrev_same : (h.setPrev (some x) v).prev x = v := by
  simp [Links.setPrev]

theorem next_setNext_of_ne (hx : n ≠ some x) : (h.setNext n v).next x = h.next x := by
  cases n with
  | none => rfl
  | some y => simp [Links.setNext, Function.update_of_ne (fun e => hx (by rw [e]) : x ≠ y)]

theorem prev_setPrev_of_ne (hx : n ≠ some x) : (h.setPrev n v).prev x = h.prev x := by
  cases n with
  | none => rfl
  | some y => simp [Links.setPrev, Function.update_of_ne (fun e => hx (by rw [e]) : x ≠ y)]

end FieldUpdates

/-! ### The operations -/

variable [DecidableEq α]

/-- Append `n`. Its old link fields are overwritten. -/
def pushBack (h : Links α) (l : Ends α) (n : α) : Links α × Ends α :=
  (((h.setPrev (some n) l.tail).setNext (some n) none).setNext l.tail (some n),
    ⟨if l.tail = none then some n else l.head, some n⟩)

/-- Drop the first node. The list must not be empty. -/
def popFront (h : Links α) (l : Ends α) : Links α × Ends α :=
  let q := l.head.bind h.next
  (h.setPrev q none, ⟨q, if q = none then none else l.tail⟩)

/-- Unlink `n`: join its neighbours, and where it has none on a side move that
end of the list object the operation was called on. -/
def remove (h : Links α) (l : Ends α) (n : α) : Links α × Ends α :=
  ((h.setNext (h.prev n) (h.next n)).setPrev (h.next n) (h.prev n),
    ⟨if h.prev n = none then h.next n else l.head,
      if h.next n = none then h.prev n else l.tail⟩)

/-- Redirecting the last node of a segment. -/
theorem Seg.setNext_last (hs : Seg h p xs q) (hnd : xs.Nodup) :
    Seg (h.setNext xs.getLast? v) p xs v := by
  induction xs using List.reverseRecOn with
  | nil => trivial
  | append_singleton xs z _ =>
      have hz : z ∉ xs := fun hz => (List.nodup_append.mp hnd).2.2 z hz z (by simp) rfl
      rw [seg_append] at hs ⊢
      obtain ⟨hfront, hprev, -, -⟩ := hs
      refine ⟨hfront.frame fun x hx => ⟨by simp, next_setNext_of_ne _ _ _ _ ?_⟩, ?_⟩
      · intro e
        have : z = x := by simpa using e
        exact hz (this ▸ hx)
      · exact ⟨by simpa using hprev, by simp, trivial⟩

/-- Redirecting the first node of a segment. -/
theorem Seg.setPrev_head (hs : Seg h p xs q) (hnd : xs.Nodup) :
    Seg (h.setPrev xs.head? v) v xs q := by
  cases xs with
  | nil => trivial
  | cons x xs =>
      obtain ⟨-, hn, hrest⟩ := hs
      refine ⟨by simp, by simpa using hn, hrest.frame fun y hy => ⟨?_, by simp⟩⟩
      have hxy : x ≠ y := fun e => (List.nodup_cons.mp hnd).1 (e ▸ hy)
      exact prev_setPrev_of_ne _ _ _ _ (by simpa using hxy)

theorem Holds.pushBack (hl : Holds h l xs) (hn : n ∉ xs) :
    Holds (pushBack h l n).1 (pushBack h l n).2 (xs ++ [n]) := by
  have hnd : (xs ++ [n]).Nodup :=
    List.nodup_append.mpr ⟨hl.nodup, by simp, fun a ha b hb e => hn (by simp_all)⟩
  refine ⟨?_, by simp [IntrusiveList.pushBack], ?_, hnd⟩
  · cases xs <;> simp [IntrusiveList.pushBack, hl.tail, hl.head]
  · have htail : l.tail ≠ some n := fun e =>
      hn (List.mem_of_getLast? (hl.tail ▸ e))
    rw [seg_append]
    constructor
    · have hold : Seg ((h.setPrev (some n) l.tail).setNext (some n) none) none xs none := by
        refine hl.seg.frame fun x hx => ?_
        have hne : some n ≠ some x := fun e => hn (Option.some.inj e ▸ hx)
        exact ⟨by simp [prev_setPrev_of_ne _ _ _ _ hne],
          by simp [next_setNext_of_ne _ _ _ _ hne]⟩
      simpa [IntrusiveList.pushBack, hl.tail] using hold.setNext_last (v := some n) hl.nodup
    · refine ⟨by simp [IntrusiveList.pushBack, hl.tail], ?_, trivial⟩
      simp [IntrusiveList.pushBack, next_setNext_of_ne _ _ _ _ htail]

theorem pushBack_agree (hl : Holds h l xs) {x : α} (hx : x ∉ xs) (hxn : x ≠ n) :
    (pushBack h l n).1.prev x = h.prev x ∧ (pushBack h l n).1.next x = h.next x := by
  have hne : some n ≠ some x := fun e => hxn (Option.some.inj e).symm
  have htail : l.tail ≠ some x := fun e => hx (List.mem_of_getLast? (hl.tail ▸ e))
  simp [pushBack, prev_setPrev_of_ne _ _ _ _ hne, next_setNext_of_ne _ _ _ _ hne,
    next_setNext_of_ne _ _ _ _ htail]

theorem Holds.popFront (hl : Holds h l (n :: xs)) :
    Holds (popFront h l).1 (popFront h l).2 xs := by
  have hnd := (List.nodup_cons.mp hl.nodup).2
  refine ⟨by simp [IntrusiveList.popFront, hl.head_next], ?_, ?_, hnd⟩
  · cases xs <;> simp [IntrusiveList.popFront, hl.head_next, hl.tail, List.getLast?_cons]
  · simpa [IntrusiveList.popFront, hl.head_next] using hl.seg.2.2.setPrev_head (v := none) hnd

theorem popFront_agree (hl : Holds h l xs) {x : α} (hx : x ∉ xs) :
    (popFront h l).1.prev x = h.prev x ∧ (popFront h l).1.next x = h.next x := by
  refine ⟨prev_setPrev_of_ne _ _ _ _ fun e => ?_, by simp [popFront]⟩
  cases xs with
  | nil => simp [hl.head] at e
  | cons y ys =>
      rw [hl.head_next] at e
      exact hx (List.mem_cons_of_mem _ (List.mem_of_mem_head? e))

/-- Unlinking a node joins what was before it to what was after it, whichever
list object the operation is called on. -/
theorem Holds.seg_remove (hl : Holds h l (a ++ n :: b)) (l' : Ends α) :
    Seg (IntrusiveList.remove h l' n).1 none (a ++ b) none := by
  obtain ⟨hp, hq⟩ := hl.neighbours
  obtain ⟨ha, -, -, hb⟩ := seg_append.mp hl.seg
  obtain ⟨hnda, hndb, hdisj⟩ := List.nodup_append.mp hl.nodup
  have hndb' := (List.nodup_cons.mp hndb).2
  have hab : ∀ x ∈ a, x ∉ b := fun x hx hxb =>
    hdisj x hx x (List.mem_cons_of_mem _ hxb) rfl
  rw [seg_append]
  constructor
  · have hseg := ha.setNext_last (v := b.head?) hnda
    simp only [IntrusiveList.remove, hp, hq, Option.or_none]
    refine hseg.frame fun x hx => ⟨prev_setPrev_of_ne _ _ _ _ fun e => ?_, by simp⟩
    exact hab x hx (List.mem_of_mem_head? e)
  · have hold : Seg (h.setNext a.getLast? b.head?) (some n) b none := by
      refine hb.frame fun x hx => ⟨by simp, next_setNext_of_ne _ _ _ _ fun e => ?_⟩
      exact hab x (List.mem_of_getLast? e) hx
    simpa [IntrusiveList.remove, hp, hq] using hold.setPrev_head (v := a.getLast?) hndb'

theorem Holds.remove (hl : Holds h l (a ++ n :: b)) :
    Holds (remove h l n).1 (remove h l n).2 (a ++ b) := by
  obtain ⟨hp, hq⟩ := hl.neighbours
  refine ⟨?_, ?_, hl.seg_remove l, hl.nodup_remove⟩
  · cases a <;> simp [IntrusiveList.remove, hp, hq, hl.head]
  · cases b <;> simp [IntrusiveList.remove, hp, hq, hl.tail, List.getLast?_cons]

/-- Removing an interior node through another list object does what was meant:
the node leaves its list, and the ends of neither object move. -/
theorem Holds.remove_interior (hl : Holds h l (a ++ n :: b)) (ha : a ≠ []) (hb : b ≠ [])
    (l' : Ends α) :
    Holds (IntrusiveList.remove h l' n).1 l (a ++ b) ∧ (IntrusiveList.remove h l' n).2 = l' := by
  obtain ⟨hp, hq⟩ := hl.neighbours
  have hp' : h.prev n ≠ none := by simpa [hp] using ha
  have hq' : h.next n ≠ none := by simpa [hq] using hb
  refine ⟨⟨?_, ?_, hl.seg_remove l', hl.nodup_remove⟩, ?_⟩
  · cases a with
    | nil => exact absurd rfl ha
    | cons x a => simpa using hl.head
  · cases b with
    | nil => exact absurd rfl hb
    | cons y b => simpa [List.getLast?_cons] using hl.tail
  · simp [IntrusiveList.remove, hp', hq']

theorem remove_agree (hl : Holds h l xs) (hn : n ∈ xs) (l' : Ends α) {x : α} (hx : x ∉ xs) :
    (remove h l' n).1.prev x = h.prev x ∧ (remove h l' n).1.next x = h.next x := by
  obtain ⟨a, b, rfl⟩ := List.append_of_mem hn
  obtain ⟨hp, hq⟩ := hl.neighbours
  have hprev : h.next n ≠ some x := fun e =>
    hx (by simp [List.mem_of_mem_head? (hq ▸ e : b.head? = some x)])
  have hnext : h.prev n ≠ some x := fun e =>
    hx (by simp [List.mem_of_getLast? (hp ▸ e : a.getLast? = some x)])
  simp [remove, prev_setPrev_of_ne _ _ _ _ hprev, next_setNext_of_ne _ _ _ _ hnext]

end BaremetalSenders.IntrusiveList
