import BaremetalSenders.Foundation.Run
import Mathlib.Data.Finset.Card
import Mathlib.Data.Finset.Range
import Mathlib.Data.List.Nodup
import Mathlib.Data.List.Perm.Basic

/-!
`static_allocator_t`: storage for `N` objects of one type, and a flag for each of
them.

`construct` takes a free slot in a critical section, or with an atomic exchange
where there is only one, and constructs the object in it; `destruct` destroys the
object, finds out from the pointer which slot it was in, and gives that back in a
critical section, or with an atomic store. What happens between two of these is
done by any context at any time, so the state has all objects for which a slot is
taken, and how far each of them is; the context that is in `construct` or
`destruct` is not told apart from the object it is there for. `destruct` is called
with a pointer that `construct` has returned, once.
-/

namespace BaremetalSenders.StaticAllocator

structure Layout where
  size : ℕ
  alignment : ℕ
  size_pos : 0 < size
  alignment_pos : 0 < alignment

def Layout.alignedSize (T : Layout) : ℕ :=
  if T.size % T.alignment = 0 then T.size else T.size + T.alignment - T.size % T.alignment

/-- What the two implementations do. `data` is the address of the storage and `storage` its
size; `take` is what happens to `used` in `construct`, with the slot that is taken; `address`
is where the object is constructed, and `index` is computed from that in `destruct`. -/
structure Allocator where
  capacity : ℕ
  data : ℕ
  storage : ℕ
  take : (ℕ → Bool) → Option ℕ × (ℕ → Bool)
  address : ℕ → ℕ
  index : ℕ → ℕ

def primary (T : Layout) (N : ℕ) (lowestUnset : (ℕ → Bool) → ℕ) (data : ℕ) : Allocator where
  capacity := N
  data := data
  storage := T.alignedSize * N
  take used :=
    let i := lowestUnset used
    if i ≠ N then (some i, Function.update used i true) else (none, used)
  address idx := data + idx * T.alignedSize
  index ptr := (ptr - data) / T.alignedSize

/-- `static_allocator_t<Name, T, 1>`: `used.exchange(true)`. -/
def single (T : Layout) (data : ℕ) : Allocator where
  capacity := 1
  data := data
  storage := T.size
  take used := (if used 0 then none else some 0, Function.update used 0 true)
  address _ := data
  index _ := 0

/-- How far an object is: in its constructor, constructed, in its destructor, or destroyed, with
the index that is to be given back. -/
inductive Phase where
  | constructing
  | live
  | destroying
  | destroyed (idx : ℕ)
  deriving DecidableEq

/-- An object, with the slot it has been constructed in. -/
structure Object where
  slot : ℕ
  phase : Phase
  deriving DecidableEq

structure State where
  used : ℕ → Bool
  objects : List Object

def State.init : State := ⟨fun _ => false, []⟩

/-- The steps. `take none` is a `construct` that returns null, `constructed` the return of
one that does not; `give` is the end of `destruct`. -/
inductive Event where
  | take (idx : Option ℕ)
  | constructed (slot ptr : ℕ)
  | destruct (slot ptr : ℕ)
  | destroyed (slot : ℕ)
  | give (slot idx : ℕ)
  deriving DecidableEq

def State.advance (s : State) (slot : ℕ) (before after : Phase) : Option State :=
  if ⟨slot, before⟩ ∈ s.objects then
    some { s with objects := ⟨slot, after⟩ :: s.objects.erase ⟨slot, before⟩ }
  else none

def step (A : Allocator) (s : State) : Event → Option State
  | .take idx =>
      if (A.take s.used).1 = idx then
        some {
          used := (A.take s.used).2
          objects := (idx.map fun i => ⟨i, .constructing⟩).toList ++ s.objects }
      else none
  | .constructed slot ptr =>
      if ptr = A.address slot then s.advance slot .constructing .live else none
  | .destruct slot ptr => if ptr = A.address slot then s.advance slot .live .destroying else none
  | .destroyed slot => s.advance slot .destroying (.destroyed (A.index (A.address slot)))
  | .give slot idx =>
      if ⟨slot, .destroyed idx⟩ ∈ s.objects then
        some {
          used := Function.update s.used idx false
          objects := s.objects.erase ⟨slot, .destroyed idx⟩ }
      else none

/-! ### What an implementation guarantees -/

/-- What is used of an implementation: it takes a slot that is free as long as there is one, the
slots are apart from each other and in the storage, and the address tells the slot. -/
structure Allocator.Lawful (A : Allocator) (T : Layout) : Prop where
  take_some : ∀ used i, (A.take used).1 = some i →
    i < A.capacity ∧ used i = false ∧ (A.take used).2 = Function.update used i true
  take_none : ∀ used, (A.take used).1 = none →
    (∀ i < A.capacity, used i = true) ∧ ∀ i < A.capacity, (A.take used).2 i = true
  index_address : ∀ i < A.capacity, A.index (A.address i) = i
  apart : ∀ i < A.capacity, ∀ j < A.capacity, i < j → A.address i + T.size ≤ A.address j
  aligned : ∀ i < A.capacity, T.alignment ∣ A.address i - A.data
  within : ∀ i < A.capacity, A.data ≤ A.address i ∧ A.address i + T.size ≤ A.data + A.storage

theorem Layout.size_le_alignedSize (T : Layout) : T.size ≤ T.alignedSize := by
  have hmod := Nat.mod_lt T.size T.alignment_pos
  simp only [Layout.alignedSize]
  split <;> omega

theorem Layout.alignment_dvd_alignedSize (T : Layout) : T.alignment ∣ T.alignedSize := by
  have hmod := Nat.mod_lt T.size T.alignment_pos
  simp only [Layout.alignedSize]
  split
  next hzero => exact Nat.dvd_of_mod_eq_zero hzero
  next =>
    have hsplit := Nat.div_add_mod T.size T.alignment
    refine ⟨T.size / T.alignment + 1, ?_⟩
    rw [Nat.mul_add, Nat.mul_one]
    omega

/-- What is documented of `stdx::bitset::lowest_unset`: the least index that is not set, or the
size. -/
def IsLowestUnset (N : ℕ) (lowestUnset : (ℕ → Bool) → ℕ) : Prop :=
  ∀ used, lowestUnset used ≤ N ∧ (∀ i < lowestUnset used, used i = true) ∧
    (lowestUnset used < N → used (lowestUnset used) = false)

theorem primary_lawful (T : Layout) (N data : ℕ) {lowestUnset : (ℕ → Bool) → ℕ}
    (h : IsLowestUnset N lowestUnset) : (primary T N lowestUnset data).Lawful T where
  take_some := by
    intro used i hi
    obtain ⟨hle, -, hfree⟩ := h used
    simp only [primary] at hi ⊢
    split at hi <;> cases hi
    next hne =>
      have hlt : lowestUnset used < N := lt_of_le_of_ne hle hne
      exact ⟨hlt, hfree hlt, by rw [if_pos hne]⟩
  take_none := by
    intro used hnone
    obtain ⟨-, hall, -⟩ := h used
    simp only [primary] at hnone ⊢
    split at hnone <;> cases hnone
    next he =>
      have he : lowestUnset used = N := not_not.mp he
      rw [he] at hall
      exact ⟨hall, by simpa [he] using hall⟩
  index_address := by
    intro i _
    have hpos : 0 < T.alignedSize := T.size_pos.trans_le T.size_le_alignedSize
    simp only [primary]
    rw [Nat.add_sub_cancel_left, Nat.mul_div_cancel i hpos]
  apart := by
    intro i _ j _ hij
    have hmul := Nat.mul_le_mul_right T.alignedSize hij
    have hsize := T.size_le_alignedSize
    simp only [primary]
    rw [Nat.succ_mul] at hmul
    omega
  aligned := by
    intro i _
    simp only [primary]
    rw [Nat.add_sub_cancel_left]
    exact Nat.dvd_mul_left_of_dvd T.alignment_dvd_alignedSize i
  within := by
    intro i hi
    have hmul := Nat.mul_le_mul_right T.alignedSize hi
    have hsize := T.size_le_alignedSize
    simp only [primary] at hmul ⊢
    rw [Nat.succ_mul, Nat.mul_comm N] at hmul
    omega

theorem single_lawful (T : Layout) (data : ℕ) : (single T data).Lawful T where
  take_some := by
    intro used i hi
    simp only [single] at hi ⊢
    split at hi <;> cases hi
    next hfree => exact ⟨by decide, by simpa using hfree, rfl⟩
  take_none := by
    intro used hnone
    simp only [single] at hnone ⊢
    split at hnone <;> cases hnone
    next hused =>
      refine ⟨fun i hi => ?_, fun i hi => ?_⟩
      · obtain rfl : i = 0 := by omega
        exact hused
      · obtain rfl : i = 0 := by omega
        exact Function.update_self ..
  index_address := by
    intro i hi
    simp only [single] at hi ⊢
    omega
  apart := by
    intro i hi j hj hij
    simp only [single] at hi hj
    omega
  aligned := by
    intro i _
    simp [single]
  within := by
    intro i _
    simp [single]

/-! ### Who has which slot -/

def State.slots (s : State) : List ℕ := s.objects.map Object.slot

/-- The invariant: the slots that are marked are those of the objects, each of which has its
own, and a destroyed object gives its own one back. -/
structure Held (A : Allocator) (s : State) : Prop where
  nodup : s.slots.Nodup
  lt : ∀ i ∈ s.slots, i < A.capacity
  used : ∀ i < A.capacity, s.used i = true ↔ i ∈ s.slots
  index : ∀ i idx, ⟨i, .destroyed idx⟩ ∈ s.objects → idx = i

theorem Held.init (A : Allocator) : Held A .init where
  nodup := List.nodup_nil
  lt := by simp [State.slots, State.init]
  used := by simp [State.slots, State.init]
  index := by simp [State.init]

section Steps

variable {A : Allocator} {T : Layout} {s s' : State}

/-- Taking an object out takes its slot out. -/
theorem slots_perm {o : Object} (h : o ∈ s.objects) :
    s.slots.Perm (o.slot :: (s.objects.erase o).map Object.slot) := by
  have hperm := (List.perm_cons_erase h).map Object.slot
  rwa [List.map_cons] at hperm

/-- An object goes on; a destroyed one has found its slot. -/
theorem Held.advance (h : Held A s) {slot : ℕ} {before after : Phase}
    (hafter : slot ∈ s.slots → ∀ idx, after = .destroyed idx → idx = slot)
    (hs : s.advance slot before after = some s') : Held A s' := by
  simp only [State.advance] at hs
  split at hs <;> cases hs
  next hmem =>
    have hperm : s.slots.Perm
        (State.slots ⟨s.used, ⟨slot, after⟩ :: s.objects.erase ⟨slot, before⟩⟩) := slots_perm hmem
    refine ⟨hperm.nodup_iff.mp h.nodup, fun i hi => h.lt i (hperm.mem_iff.mpr hi),
      fun i hi => (h.used i hi).trans hperm.mem_iff, fun i idx hi => ?_⟩
    rcases List.mem_cons.mp hi with heq | hold
    · obtain ⟨rfl, hphase⟩ := Object.mk.inj heq
      exact hafter (List.mem_map_of_mem hmem) idx hphase.symm
    · exact h.index i idx (List.mem_of_mem_erase hold)

theorem Held.step (hA : A.Lawful T) (h : Held A s) {e : Event} (hs : step A s e = some s') :
    Held A s' := by
  cases e with
  | take idx =>
      simp only [StaticAllocator.step] at hs
      split at hs <;> cases hs
      next htake =>
        cases idx with
        | none =>
            obtain ⟨hall, hall'⟩ := hA.take_none s.used htake
            refine ⟨h.nodup, h.lt, fun i hi => ?_, h.index⟩
            exact iff_of_true (hall' i hi) ((h.used i hi).mp (hall i hi))
        | some i =>
            obtain ⟨hlt, hfree, hused⟩ := hA.take_some s.used i htake
            have hnew : i ∉ s.slots := by
              intro hmem
              rw [(h.used i hlt).mpr hmem] at hfree
              cases hfree
            refine ⟨List.nodup_cons.mpr ⟨hnew, h.nodup⟩, ?_, ?_, ?_⟩
            · exact List.forall_mem_cons.mpr ⟨hlt, h.lt⟩
            · intro j hj
              simp only [hused]
              rcases eq_or_ne j i with rfl | hne
              · simp [State.slots]
              · rw [Function.update_of_ne hne, h.used j hj]
                simp [State.slots, hne]
            · intro j idx hj
              rcases List.mem_cons.mp hj with heq | hold
              · cases heq
              · exact h.index j idx hold
  | constructed slot ptr =>
      simp only [StaticAllocator.step] at hs
      split at hs
      · exact h.advance (by simp) hs
      · cases hs
  | destruct slot ptr =>
      simp only [StaticAllocator.step] at hs
      split at hs
      · exact h.advance (by simp) hs
      · cases hs
  | destroyed slot =>
      simp only [StaticAllocator.step] at hs
      refine h.advance (fun hslot idx hidx => ?_) hs
      obtain rfl := Phase.destroyed.inj hidx
      exact hA.index_address slot (h.lt slot hslot)
  | give slot idx =>
      simp only [StaticAllocator.step] at hs
      split at hs <;> cases hs
      next hmem =>
        obtain rfl := h.index slot idx hmem
        have hperm := slots_perm hmem
        have hnodup := hperm.nodup_iff.mp h.nodup
        rw [List.nodup_cons] at hnodup
        refine ⟨hnodup.2, fun i hi => h.lt i (hperm.mem_iff.mpr (List.mem_cons_of_mem _ hi)),
          fun i hi => ?_, fun i j hi => h.index i j (List.mem_of_mem_erase hi)⟩
        rcases eq_or_ne i idx with rfl | hne
        · exact iff_of_false (by simp) hnodup.1
        · dsimp only
          rw [Function.update_of_ne hne, h.used i hi, hperm.mem_iff, List.mem_cons]
          exact or_iff_right hne

theorem held_of_run (hA : A.Lawful T) {tr : List Event}
    (h : Run (StaticAllocator.step A) .init tr s) : Held A s :=
  Run.induction (P := fun _ s => Held A s) (Held.init A) (fun _ _ _ _ _ ih hs => ih.step hA hs) h

/-- There are at most as many objects as slots, and as many when every slot is taken. -/
theorem Held.length (h : Held A s) : s.objects.length ≤ A.capacity ∧
    (s.objects.length = A.capacity ↔ ∀ i < A.capacity, i ∈ s.slots) := by
  have hsub : s.slots.toFinset ⊆ Finset.range A.capacity := by
    intro i hi
    exact Finset.mem_range.mpr (h.lt i (List.mem_toFinset.mp hi))
  have hcard : s.slots.toFinset.card = s.objects.length := by
    rw [List.toFinset_card_of_nodup h.nodup, State.slots, List.length_map]
  have hle := Finset.card_le_card hsub
  rw [hcard, Finset.card_range] at hle
  refine ⟨hle, fun heq i hi => ?_, fun hall => ?_⟩
  · have hfull : s.slots.toFinset = Finset.range A.capacity :=
      Finset.eq_of_subset_of_card_le hsub (by rw [Finset.card_range, hcard, heq])
    exact List.mem_toFinset.mp (hfull ▸ Finset.mem_range.mpr hi)
  · have hrange : Finset.range A.capacity ⊆ s.slots.toFinset := by
      intro i hi
      exact List.mem_toFinset.mpr (hall i (Finset.mem_range.mp hi))
    have hge := Finset.card_le_card hrange
    rw [hcard, Finset.card_range] at hge
    omega

theorem take_none_iff (hA : A.Lawful T) (h : Held A s) :
    (A.take s.used).1 = none ↔ s.objects.length = A.capacity := by
  rw [h.length.2]
  constructor
  · intro hnone i hi
    exact (h.used i hi).mp ((hA.take_none s.used hnone).1 i hi)
  · intro hall
    cases htake : (A.take s.used).1 with
    | none => rfl
    | some i =>
        obtain ⟨hlt, hfree, -⟩ := hA.take_some s.used i htake
        rw [(h.used i hlt).mpr (hall i hlt)] at hfree
        cases hfree

theorem step_take {idx : Option ℕ} :
    (∃ s', step A s (.take idx) = some s') ↔ (A.take s.used).1 = idx := by
  simp only [step]
  split
  next he => exact iff_of_true ⟨_, rfl⟩ he
  next hne => exact iff_of_false (by rintro ⟨_, hs⟩; cases hs) hne

end Steps

/-! ### The guarantees -/

section Guarantees

variable {A : Allocator} {T : Layout} {s : State}

structure SlotsOk (T : Layout) (A : Allocator) (s : State) : Prop where
  /-- The objects are in different slots, and their bytes are apart. -/
  distinct : s.objects.Pairwise fun o o' => o.slot ≠ o'.slot ∧
    (A.address o.slot + T.size ≤ A.address o'.slot ∨
      A.address o'.slot + T.size ≤ A.address o.slot)
  aligned : ∀ o ∈ s.objects, T.alignment ∣ A.address o.slot - A.data
  within : ∀ o ∈ s.objects,
    A.data ≤ A.address o.slot ∧ A.address o.slot + T.size ≤ A.data + A.storage
  /-- `construct` returns null when there are as many objects as there is storage for, those in
  their constructors and destructors included, and otherwise it takes a slot. -/
  null : (∃ s', step A s (.take none) = some s') ↔ s.objects.length = A.capacity
  notNull : (∃ i s', step A s (.take (some i)) = some s') ↔ s.objects.length < A.capacity
  /-- The slot that it takes is no object's. -/
  fresh : ∀ i s', step A s (.take (some i)) = some s' → ∀ o ∈ s.objects, o.slot ≠ i
  /-- `destruct` gives back the slot that `construct` took. -/
  recovered : ∀ i idx, ⟨i, .destroyed idx⟩ ∈ s.objects → idx = i
  /-- A slot becomes free when the object that was in it has been destroyed. -/
  freed : ∀ e s' i, i < A.capacity → step A s e = some s' → s.used i = true →
    s'.used i = false → e = .give i i ∧ ⟨i, .destroyed i⟩ ∈ s.objects

theorem freed_of_step (hA : A.Lawful T) (h : Held A s) {e : Event} {s' : State} {i : ℕ}
    (hi : i < A.capacity) (hs : step A s e = some s') (hused : s.used i = true)
    (hfree : s'.used i = false) : e = .give i i ∧ ⟨i, .destroyed i⟩ ∈ s.objects := by
  have hkept : s'.used = s.used → e = .give i i ∧ ⟨i, .destroyed i⟩ ∈ s.objects := by
    intro hsame
    rw [hsame, hused] at hfree
    cases hfree
  have hadvance : ∀ {slot before after}, s.advance slot before after = some s' →
      s'.used = s.used := by
    intro slot before after hs
    simp only [State.advance] at hs
    split at hs <;> cases hs
    rfl
  cases e with
  | take idx =>
      simp only [step] at hs
      split at hs <;> cases hs
      next htake =>
        -- a `construct` only marks slots
        dsimp only at hfree
        cases idx with
        | none =>
            rw [(hA.take_none s.used htake).2 i hi] at hfree
            cases hfree
        | some j =>
            obtain ⟨-, -, hmark⟩ := hA.take_some s.used j htake
            rw [hmark] at hfree
            rcases eq_or_ne i j with rfl | hne
            · rw [Function.update_self] at hfree
              cases hfree
            · rw [Function.update_of_ne hne, hused] at hfree
              cases hfree
  | constructed slot ptr | destruct slot ptr =>
      simp only [step] at hs
      split at hs
      · exact hkept (hadvance hs)
      · cases hs
  | destroyed slot => exact hkept (hadvance hs)
  | give slot idx =>
      simp only [step] at hs
      split at hs <;> cases hs
      next hmem =>
        obtain rfl := h.index slot idx hmem
        rcases eq_or_ne i idx with rfl | hne
        · exact ⟨rfl, hmem⟩
        · dsimp only at hfree
          rw [Function.update_of_ne hne, hused] at hfree
          cases hfree

theorem Held.slotsOk (hA : A.Lawful T) (h : Held A s) : SlotsOk T A s where
  distinct := by
    have hlt : ∀ o ∈ s.objects, o.slot < A.capacity :=
      fun o ho => h.lt o.slot (List.mem_map_of_mem ho)
    refine (List.pairwise_map.mp h.nodup).imp_of_mem fun ho ho' hne => ⟨hne, ?_⟩
    rcases Nat.lt_or_gt_of_ne hne with hlt' | hgt
    · exact .inl (hA.apart _ (hlt _ ho) _ (hlt _ ho') hlt')
    · exact .inr (hA.apart _ (hlt _ ho') _ (hlt _ ho) hgt)
  aligned := fun o ho => hA.aligned o.slot (h.lt o.slot (List.mem_map_of_mem ho))
  within := fun o ho => hA.within o.slot (h.lt o.slot (List.mem_map_of_mem ho))
  null := step_take.trans (take_none_iff hA h)
  notNull := by
    have hle := h.length.1
    have hnone := take_none_iff hA h
    simp only [step_take]
    rw [← Option.isSome_iff_exists, Option.isSome_iff_ne_none, ne_eq, hnone]
    omega
  fresh := by
    rintro i s' hs o ho rfl
    obtain ⟨hlt, hfree, -⟩ := hA.take_some s.used o.slot (step_take.mp ⟨s', hs⟩)
    rw [(h.used o.slot hlt).mpr (List.mem_map_of_mem ho)] at hfree
    cases hfree
  recovered := h.index
  freed := fun e s' i hi hs hused hfree => freed_of_step hA h hi hs hused hfree

/-- Both implementations keep the objects apart, use their storage up, and give a slot to
another object only when the one before it is destroyed. -/
theorem slots_ok (T : Layout) (N data : ℕ) (lowestUnset : (ℕ → Bool) → ℕ)
    (hlowest : IsLowestUnset N lowestUnset) :
    (∀ tr s, Run (step (primary T N lowestUnset data)) .init tr s →
      SlotsOk T (primary T N lowestUnset data) s) ∧
    ∀ tr s, Run (step (single T data)) .init tr s → SlotsOk T (single T data) s := by
  refine ⟨fun tr s h => ?_, fun tr s h => ?_⟩
  · have hA := primary_lawful T N data hlowest
    exact (held_of_run hA h).slotsOk hA
  · have hA := single_lawful T data
    exact (held_of_run hA h).slotsOk hA

end Guarantees

/-- The least of the first `N` indices that is not set, or `N`. -/
def lowestUnset (N : ℕ) (used : ℕ → Bool) : ℕ :=
  ((List.range N).find? fun i => !used i).getD N

theorem isLowestUnset_lowestUnset (N : ℕ) : IsLowestUnset N (lowestUnset N) := by
  intro used
  cases hfind : (List.range N).find? fun i => !used i with
  | none =>
      have hall := List.find?_range_eq_none.mp hfind
      simp only [lowestUnset, hfind, Option.getD_none]
      exact ⟨le_rfl, fun i hi => by simpa using hall i hi, fun h => absurd h (lt_irrefl N)⟩
  | some j =>
      obtain ⟨hfree, hmem, hbefore⟩ := List.find?_range_eq_some.mp hfind
      simp only [lowestUnset, hfind, Option.getD_some]
      exact ⟨(List.mem_range.mp hmem).le, fun i hi => by simpa using hbefore i hi,
        fun _ => by simpa using hfree⟩

/-- Objects of 6 bytes that are to be aligned to 4. -/
def sixBytes : Layout := ⟨6, 4, by decide, by decide⟩

/-- Two contexts are in `construct`, a third one finds no storage; one object is destroyed,
and its slot is not taken before that is over. -/
def reuseTrace : List Event :=
  [.take (some 0), .take (some 1), .constructed 1 1008, .take none, .constructed 0 1000,
    .destruct 0 1000, .take none, .destroyed 0, .take none, .give 0 0, .take (some 0),
    .destruct 1 1008, .constructed 0 1000]

theorem slots_ok_reuse : ∃ s, Run (step (primary sixBytes 2 (lowestUnset 2) 1000)) .init
    reuseTrace s ∧ SlotsOk sixBytes (primary sixBytes 2 (lowestUnset 2) 1000) s := by
  obtain ⟨s, hs⟩ : ∃ s, Run (step (primary sixBytes 2 (lowestUnset 2) 1000)) .init
      reuseTrace s := exists_run_iff.mpr rfl
  exact ⟨s, hs, (slots_ok sixBytes 2 1000 (lowestUnset 2) (isLowestUnset_lowestUnset 2)).1
    reuseTrace s hs⟩

end BaremetalSenders.StaticAllocator
