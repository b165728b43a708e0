import Mathlib.Data.List.TakeWhile
import Mathlib.Data.List.Nodup
import Mathlib.Order.Defs.Unbundled

/-!
Queues ordered by a key, first come first served among equal keys.

The keys are compared by a strict weak order, so two of them can be equivalent
without being equal. `StableSorted lt key seq xs` says that in `xs` smaller keys
come first and that items of equivalent keys come in the order in which they
occur in `seq`. Inserting a new item before the first one with a greater key
preserves this when the item is new in `seq` as well, and so does dropping
items; hence the head of such a queue is the least item, and the oldest among
the least.
-/

namespace BaremetalSenders

variable {α κ : Type*} {lt : κ → κ → Prop} {key : α → κ} {seq xs ys : List α} {a b t : α}

/-- In a strict weak order nothing between `b` and something greater is below `b`. -/
theorem lt_of_lt_of_not_lt [IsStrictWeakOrder κ lt] {x y z : κ} (hxy : lt x y)
    (hzy : ¬ lt z y) : lt x z := by
  by_contra hxz
  have hzx : ¬ lt z x := fun h => hzy (trans_of lt h hxy)
  have hyz : ¬ lt y z := fun h => hxz (trans_of lt hxy h)
  exact (IsStrictWeakOrder.incomp_trans x z y ⟨hxz, hzx⟩ ⟨hzy, hyz⟩).1 hxy

/-- `a` is to be served before `b`. -/
def Before (lt : κ → κ → Prop) (key : α → κ) (seq : List α) (a b : α) : Prop :=
  lt (key a) (key b) ∨ ¬ lt (key b) (key a) ∧ [a, b].Sublist seq

def StableSorted (lt : κ → κ → Prop) (key : α → κ) (seq xs : List α) : Prop :=
  xs.Pairwise (Before lt key seq)

theorem Before.not_lt [IsStrictWeakOrder κ lt] (h : Before lt key seq a b) :
    ¬ lt (key b) (key a) := by
  rcases h with h | h
  · exact fun h' => irrefl (r := lt) _ (trans_of lt h h')
  · exact h.1

theorem Before.mono_seq {seq' : List α} (h : Before lt key seq a b) (hs : seq.Sublist seq') :
    Before lt key seq' a b :=
  h.imp_right fun h => ⟨h.1, h.2.trans hs⟩

theorem Before.congr_key {key' : α → κ} (h : Before lt key seq a b) (ha : key' a = key a)
    (hb : key' b = key b) : Before lt key' seq a b := by
  simpa only [Before, ha, hb] using h

theorem StableSorted.sublist (h : StableSorted lt key seq xs) (hs : ys.Sublist xs) :
    StableSorted lt key seq ys := List.Pairwise.sublist hs h

/-- Items that are not in the queue may leave the order of arrival. -/
theorem StableSorted.erase_seq [DecidableEq α] (h : StableSorted lt key seq xs) (ht : t ∉ xs) :
    StableSorted lt key (seq.erase t) xs := by
  refine List.Pairwise.imp_of_mem ?_ h
  intro a b ha hb hab
  have hat : a ≠ t := fun e => ht (e ▸ ha)
  have hbt : b ≠ t := fun e => ht (e ▸ hb)
  refine hab.imp_right fun hab => ⟨hab.1, ?_⟩
  simpa [List.erase_cons, hat, hbt] using hab.2.erase t

theorem StableSorted.congr_key {key' : α → κ} (h : StableSorted lt key seq xs)
    (hkey : ∀ x ∈ xs, key' x = key x) : StableSorted lt key' seq xs :=
  List.Pairwise.imp_of_mem (fun ha hb hab => hab.congr_key (hkey _ ha) (hkey _ hb)) h

/-- The head is the least item, and the oldest among the least. -/
theorem StableSorted.head_before (h : StableSorted lt key seq (a :: xs)) (hb : b ∈ a :: xs)
    (hne : b ≠ a) : Before lt key seq a b :=
  (List.pairwise_cons.mp h).1 b ((List.mem_cons.mp hb).resolve_left hne)

/-- Insertion in front of the first item with a greater key. -/
theorem StableSorted.insert [IsStrictWeakOrder κ lt] [DecidableRel lt]
    (h : StableSorted lt key seq xs) (hseq : ∀ x ∈ xs, x ∈ seq) :
    StableSorted lt key (seq ++ [t])
      (xs.takeWhile (fun u => ¬ lt (key t) (key u)) ++
        t :: xs.dropWhile (fun u => ¬ lt (key t) (key u))) := by
  have hold : StableSorted lt key (seq ++ [t]) xs :=
    h.imp fun hab => hab.mono_seq (List.sublist_append_left seq [t])
  let p : α → Bool := fun u => ¬ lt (key t) (key u)
  have hsplit : xs.takeWhile p ++ xs.dropWhile p = xs := List.takeWhile_append_dropWhile
  -- Everything after the insertion point has a greater key.
  have hafter : ∀ v ∈ xs.dropWhile p, lt (key t) (key v) := by
    intro v hv
    cases hd : xs.dropWhile p with
    | nil =>
        rw [hd] at hv
        cases hv
    | cons u us =>
        have hu : lt (key t) (key u) := by
          have hne : xs.dropWhile p ≠ [] := by rw [hd]; simp
          have hnot := List.head_dropWhile_not p hne
          simp only [hd, List.head_cons, p] at hnot
          simpa using hnot
        rw [hd, List.mem_cons] at hv
        rcases hv with rfl | hv
        · exact hu
        · have hsorted := hd ▸ hold.sublist (List.dropWhile_sublist p)
          exact lt_of_lt_of_not_lt hu ((List.pairwise_cons.mp hsorted).1 v hv).not_lt
  refine List.pairwise_append.mpr ⟨hold.sublist (List.takeWhile_sublist _),
    List.pairwise_cons.mpr ⟨fun v hv => .inl (hafter v hv),
      hold.sublist (List.dropWhile_sublist _)⟩, ?_⟩
  intro u hu v hv
  have hukey : ¬ lt (key t) (key u) := by simpa using List.mem_takeWhile_imp hu
  have humem := hseq u ((List.takeWhile_sublist _).subset hu)
  rcases List.mem_cons.mp hv with rfl | hv
  · refine .inr ⟨hukey, ?_⟩
    exact List.Sublist.append (List.singleton_sublist.mpr humem) (List.Sublist.refl [v])
  · exact (List.pairwise_append.mp (hsplit.symm ▸ hold)).2.2 u hu v hv

end BaremetalSenders
