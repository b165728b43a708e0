import BaremetalSenders.Adaptors.InciteOnOperation
import Mathlib.Algebra.Order.BigOperators.Group.List
import Mathlib.Algebra.Order.Group.Nat

/-!
The receiver of `incite_on` and `incite_on_any` is completed at most once.

A task that has been started is pending, or in one statement that carries it, until it
has completed; `Operation.live` counts these places. At any time the completion of the
receiver is up to one party: the one trigger operation the function's sender is
followed by, the `when_any` that has not been counted down, a statement on its way to
the receiver, or it has been completed. `Counted` adds these up.
-/

namespace BaremetalSenders.InciteOn

variable {ν β : Type*}

def Stmt.task : Stmt ν β → Option (Task ν)
  | .start t | .enqueue t | .completeStopped t | .run t _ | .setValue t _ | .emplace t _
  | .countDown t => some t
  | _ => none

/-- The statement leads to the receiver without a task. A `when_any` of no senders leaves it
to its stop callback. -/
def Stmt.concludes (op : Adaptor ν) : Stmt ν β → Bool
  | .startAny | .complete | .decide | .deliver _ => true
  | .emplaceStopCb .whenAny | .callback .whenAny => op.scheds.isEmpty
  | _ => false

def Stmt.Fits (op : Adaptor ν) : Stmt ν β → Prop
  | .start t | .enqueue t | .completeStopped t | .run t _ | .setValue t _ =>
      ∀ k, t = .scheduled k → k ∈ op.scheds
  | .emplace t _ | .countDown t => op.joined t = true ∧ ∀ k, t = .scheduled k → k ∈ op.scheds
  | .startAny | .complete | .decide => op.scheds.length ≠ 1 ∧ op.scheds ≠ []
  | .emplaceStopCb .whenAny | .callback .whenAny => op.scheds.length ≠ 1
  | .resetStopCb => op.scheds = []
  | _ => True

variable [DecidableEq ν]

/-- In how many places a task is: pending, or in a statement. -/
def places (p : Task ν → Bool) (todo : List (Stmt ν β)) (t : Task ν) : ℕ :=
  (todo.filterMap Stmt.task).count t + (p t).toNat

/-- How often the receiver's source has the callback of the `when_any`. -/
def idle (cbs : Source → List (StopCb ν)) : ℕ := (cbs .receiver).count .whenAny

/-- The callbacks of the tasks do not matter. -/
theorem idle_update {cbs : Source → List (StopCb ν)} {src : Source} {l : List (StopCb ν)}
    (h : l.count .whenAny = (cbs src).count .whenAny) :
    idle (Function.update cbs src l) = idle cbs := by
  cases src <;> simp [idle, h]

namespace Operation

def live (s : Operation ν β) (t : Task ν) : ℕ := places s.pending s.todo t

/-- The places of all tasks on named triggers. -/
def children (op : Adaptor ν) (s : Operation ν β) : ℕ :=
  (op.scheds.map fun k => s.live (.scheduled k)).sum

/-- The tasks the receiver's completion is up to, a `when_any` counted as one. -/
def byTasks (op : Adaptor ν) (s : Operation ν β) : ℕ :=
  s.live .internal +
    if op.scheds.length = 1 then s.children op else if 0 < s.core.count then 1 else 0

/-- The other parties it is up to: statements, the stop callback of a `when_any` of no
senders, and the receiver. -/
def byOthers (op : Adaptor ν) (s : Operation ν β) : ℕ :=
  s.todo.countP (Stmt.concludes op) +
    (if op.scheds = [] then idle s.core.callbacks else 0) + s.core.received.length

end Operation

open Operation

/-- Every task is in one place, and the receiver's completion is up to one party. -/
structure Accounts (op : Adaptor ν) (s : Operation ν β) : Prop where
  once : ∀ t, s.live t ≤ 1
  tokens : s.byTasks op + s.byOthers op = s.core.sent.toNat
  count : op.scheds.length ≠ 1 → s.core.count = s.children op

structure Counted (op : Adaptor ν) (s : Operation ν β) : Prop extends Accounts op s where
  fits : ∀ st ∈ s.todo, st.Fits op
  pending : ∀ k, s.pending (.scheduled k) = true → k ∈ op.scheds
  callbacks : ∀ src, ∀ cb ∈ s.core.callbacks src,
    op.sourceOf cb = src ∧ (.callback cb : Stmt ν β).Fits op
  reset : .resetStopCb ∈ s.todo → (∃ c, .deliver c ∈ s.todo) ∨ s.core.received ≠ []
  stored : s.core.completions = none →
    .decide ∉ s.todo ∧ .complete ∉ s.todo ∧ ∀ t, .countDown t ∉ s.todo

/-! ### The places of a task -/

section Places

variable {p : Task ν → Bool} {st st' : Stmt ν β} {rest : List (Stmt ν β)} {t u : Task ν}

theorem places_cons :
    places p (st :: rest) u = places p rest u + if st.task = some u then 1 else 0 := by
  cases h : st.task with
  | none => simp [places, h]
  | some t => by_cases htu : t = u <;> simp [places, h, htu]; omega

/-- A statement is replaced by another one for the same task. -/
theorem places_congr (h : st'.task = st.task) :
    places p (st' :: rest) u = places p (st :: rest) u := by
  rw [places_cons, places_cons, h]

/-- A statement for no task comes or goes. -/
theorem places_cons_none (h : st.task = none) : places p (st :: rest) u = places p rest u := by
  simp [places_cons, h]

theorem places_update_true (hp : p t = false) :
    places (Function.update p t true) rest u = places p rest u + if t = u then 1 else 0 := by
  rcases eq_or_ne u t with rfl | hne
  · simp [places, hp]
  · simp [places, hne, hne.symm]

theorem places_update_false (hp : p t = true) :
    places p rest u = places (Function.update p t false) rest u + if t = u then 1 else 0 := by
  rcases eq_or_ne u t with rfl | hne
  · simp [places, hp]
  · simp [places, hne, hne.symm]

theorem pending_eq_false (h : st.task = some t) (hone : places p (st :: rest) t ≤ 1) :
    p t = false := by
  rw [places_cons, if_pos h] at hone
  by_contra hp
  simp [places, hp] at hone

/-- A task becomes pending in the place of its statement. -/
theorem places_enqueue (h : st.task = some t) (h' : st'.task = none)
    (hone : places p (st :: rest) t ≤ 1) :
    places (Function.update p t true) (st' :: rest) u = places p (st :: rest) u := by
  rw [places_cons_none h', places_update_true (pending_eq_false h hone), places_cons, h]
  simp

/-- A pending task gets a statement. -/
theorem places_take (hp : p t = true) (h : st.task = some t) :
    places (Function.update p t false) (st :: rest) u = places p rest u := by
  rw [places_cons, h, places_update_false hp]
  simp

theorem places_append {xs : List (Stmt ν β)} :
    places p (xs ++ rest) u = places p rest u + (xs.filterMap Stmt.task).count u := by
  simp [places]
  omega

end Places

/-! ### The sums -/

section Sums

variable {op : Adaptor ν} {s s' : Operation ν β} {t : Task ν} {k : ν}

theorem children_congr (h : ∀ u, s'.live u = s.live u) : s'.children op = s.children op := by
  simp only [children, h]

theorem byTasks_congr (h : ∀ u, s'.live u = s.live u) (hcount : s'.core.count = s.core.count) :
    s'.byTasks op = s.byTasks op := by
  simp only [byTasks, children_congr h, h, hcount]

/-- A task is through. -/
theorem children_release (hnd : op.scheds.Nodup) (hk : k ∈ op.scheds)
    (h : ∀ u, s.live u = s'.live u + if Task.scheduled k = u then 1 else 0) :
    s.children op = s'.children op + 1 := by
  have hsingle : (op.scheds.map fun j => if Task.scheduled k = .scheduled j then 1 else 0).sum =
      1 := by
    rw [List.sum_map_eq_nsmul_single k _ fun j hj _ => if_neg (by simpa using hj.symm)]
    simp [List.count_eq_one_of_mem hnd hk]
  rw [children, children, ← hsingle, ← List.sum_map_add]
  simp only [h]

theorem children_of_internal
    (h : ∀ u, s.live u = s'.live u + if Task.internal = u then 1 else 0) :
    s.children op = s'.children op := by
  simp [children, h]

/-- A task that is not a child of a `when_any` is through: the receiver's completion is up to
somebody else. -/
theorem byTasks_release (hnd : op.scheds.Nodup) (hj : op.joined t = false)
    (hk : ∀ k, t = .scheduled k → k ∈ op.scheds) (hcount : s'.core.count = s.core.count)
    (h : ∀ u, s.live u = s'.live u + if t = u then 1 else 0) :
    s.byTasks op = s'.byTasks op + 1 := by
  cases t with
  | internal =>
      simp only [byTasks, children_of_internal h, hcount, h .internal, if_true]
      omega
  | scheduled k =>
      have hone : op.scheds.length = 1 := by simpa [Adaptor.joined] using hj
      simp only [byTasks, if_pos hone, children_release hnd (hk k rfl) h, h .internal]
      simp
      omega

end Sums

/-- The first element is replaced by another one. -/
theorem forall_mem_replace {α : Type*} {P : α → Prop} {a b : α} {l : List α}
    (h : ∀ x ∈ a :: l, P x) (hb : P a → P b) : ∀ x ∈ b :: l, P x :=
  List.forall_mem_cons.mpr ⟨hb (h a List.mem_cons_self), (List.forall_mem_cons.mp h).2⟩

section Step

variable {op : Adaptor ν} {s s' : Operation ν β} {t : Task ν} {k : ν}

/-- No task on a trigger that was not named is ever started. -/
theorem Counted.live_of_notMem (hc : Counted op s) (hk : k ∉ op.scheds) :
    s.live (.scheduled k) = 0 := by
  have htodo : .scheduled k ∉ s.todo.filterMap Stmt.task := by
    intro hmem
    obtain ⟨st, hst, htask⟩ := List.mem_filterMap.mp hmem
    have hfits := hc.fits st hst
    cases st <;> simp_all [Stmt.task, Stmt.Fits]
  have hpend : s.pending (.scheduled k) = false := by
    simpa using fun h => hk (hc.pending k h)
  simp [live, places, List.count_eq_zero_of_not_mem htodo, hpend]

theorem Counted.children_eq_zero (hc : Counted op s) (h : s.children op = 0) (k : ν) :
    s.live (.scheduled k) = 0 := by
  by_cases hk : k ∈ op.scheds
  · exact List.sum_eq_zero_iff.mp h _ (List.mem_map_of_mem hk)
  · exact hc.live_of_notMem hk

/-- While the receiver's completion is up to the internal trigger or to somebody else than a
task, the tasks on the named triggers have not been started or are through. -/
theorem Counted.live_scheduled (hc : Counted op s)
    (h : s.core.sent.toNat ≤ s.live .internal + s.byOthers op) (k : ν) :
    s.live (.scheduled k) = 0 := by
  have htokens := hc.tokens
  refine hc.children_eq_zero ?_ k
  simp only [byTasks] at htokens
  split at htokens
  · omega
  next hone =>
    have hcount := hc.count hone
    split at htokens <;> omega

theorem Counted.children_pos (hc : Counted op s) (h : 0 < s.live (.scheduled k)) :
    0 < s.children op := by
  by_contra hzero
  have := hc.children_eq_zero (by omega) k
  omega

/-- A `when_any` that has a task left has not been counted down. -/
theorem Counted.count_pos (hc : Counted op s) (hj : op.joined t = true) (h : 0 < s.live t) :
    0 < s.core.count := by
  cases t with
  | internal => cases hj
  | scheduled k =>
      have hpos := hc.children_pos h
      rw [hc.count (by simpa [Adaptor.joined] using hj)]
      omega

theorem Counted.byTasks_pos (hc : Counted op s) (h : 0 < s.live t) : 0 < s.byTasks op := by
  cases t with
  | internal =>
      simp only [byTasks]
      omega
  | scheduled k =>
      have hchildren := hc.children_pos h
      simp only [byTasks]
      split
      · omega
      next hone =>
        rw [if_pos (by rw [hc.count hone]; omega)]
        omega

/-- While a task has not completed no statement is on its way to the receiver. -/
theorem Counted.undecided (hc : Counted op s) (h : 0 < s.live t) :
    (∀ st ∈ s.todo, st.concludes op = false) ∧ s.core.received = [] := by
  have hpos := hc.byTasks_pos h
  have htokens := hc.tokens
  have hsent := s.core.sent.toNat_le
  simp only [byOthers] at htokens
  have hnone : s.todo.countP (Stmt.concludes op) = 0 := by omega
  refine ⟨by simpa using hnone, List.length_eq_zero_iff.mp ?_⟩
  omega

/-- Once the receiver has been completed no task is pending. -/
theorem Counted.pending_of_received (hc : Counted op s) (h : s.core.received ≠ []) (t : Task ν) :
    s.pending t = false := by
  by_contra hp
  have hlive : 0 < s.live t := by simp [live, places, Bool.eq_true_of_not_eq_false hp]
  exact h (hc.undecided hlive).2

/-- When it is up to a statement, nothing else leads to it: no `when_any`, no other statement. -/
theorem Counted.concluding {c : Core ν β} {p : Task ν → Bool} {st : Stmt ν β}
    {rest : List (Stmt ν β)} (hc : Counted op ⟨c, p, st :: rest⟩) (h : st.concludes op = true) :
    (op.scheds.length ≠ 1 → ¬ 0 < c.count) ∧ (∀ st' ∈ rest, st'.concludes op = false) ∧
      c.received = [] := by
  have htokens := hc.tokens
  have hsent := c.sent.toNat_le
  simp only [byOthers, List.countP_cons_of_pos h] at htokens
  have hnone : rest.countP (Stmt.concludes op) = 0 := by omega
  refine ⟨fun hone hpos => ?_, by simpa using hnone, List.length_eq_zero_iff.mp ?_⟩
  · simp only [byTasks, if_neg hone, if_pos hpos] at htokens
    omega
  · omega

/-- When the callback of a `when_any` of no senders is reset it is not registered. -/
theorem Counted.notMem_callbacks (hc : Counted op s) (h : .resetStopCb ∈ s.todo) :
    .whenAny ∉ s.core.callbacks .receiver := by
  rw [← List.count_eq_zero]
  change idle s.core.callbacks = 0
  have hnone : op.scheds = [] := hc.fits _ h
  have htokens := hc.tokens
  have hsent := s.core.sent.toNat_le
  simp only [byOthers, if_pos hnone] at htokens
  rcases hc.reset h with ⟨comp, hcomp⟩ | hreceived
  · have hpos : 0 < s.todo.countP (Stmt.concludes op) := List.countP_pos_iff.mpr ⟨_, hcomp, rfl⟩
    omega
  · have hpos := List.length_pos_iff.mpr hreceived
    omega

/-- A step that moves the tasks about. -/
theorem Accounts.same (ha : Accounts op s) (hlive : ∀ u, s'.live u = s.live u)
    (hcount : s'.core.count = s.core.count) (hsent : s'.core.sent = s.core.sent)
    (hothers : s'.byOthers op = s.byOthers op) : Accounts op s' where
  once := fun u => (hlive u).trans_le (ha.once u)
  tokens := by rw [byTasks_congr hlive hcount, hothers, hsent, ha.tokens]
  count := fun hone => by rw [hcount, children_congr hlive, ha.count hone]

/-- A step by which a task that is not a child of a `when_any` is through. -/
theorem Accounts.release (ha : Accounts op s) (hnd : op.scheds.Nodup) (hj : op.joined t = false)
    (hk : ∀ k, t = .scheduled k → k ∈ op.scheds)
    (hlive : ∀ u, s.live u = s'.live u + if t = u then 1 else 0)
    (hcount : s'.core.count = s.core.count) (hsent : s'.core.sent = s.core.sent)
    (hothers : s'.byOthers op = s.byOthers op + 1) : Accounts op s' where
  once := fun u => by
    have hu := ha.once u
    rw [hlive u] at hu
    omega
  tokens := by
    have htokens := ha.tokens
    rw [byTasks_release hnd hj hk hcount hlive] at htokens
    rw [hothers, hsent, ← htokens]
    omega
  count := fun hone => by
    have hsame : s.children op = s'.children op := by
      cases t with
      | internal => exact children_of_internal hlive
      | scheduled k => exact absurd hj (by simpa [Adaptor.joined] using hone)
    rw [hcount, ha.count hone, hsame]

/-- A task is started that has not been, where the receiver's completion is up to it. -/
theorem Counted.acquire (hc : Counted op s) (hnd : op.scheds.Nodup) (hj : op.joined t = false)
    (hk : ∀ k, t = .scheduled k → k ∈ op.scheds) (hzero : s.live t = 0)
    (hlive : ∀ u, s'.live u = s.live u + if t = u then 1 else 0)
    (hcount : s'.core.count = s.core.count)
    (htokens : s.byTasks op + 1 + s'.byOthers op = s'.core.sent.toNat) : Accounts op s' where
  once := fun u => by
    have hu := hc.once u
    rw [hlive u]
    rcases eq_or_ne t u with rfl | hne
    · simp [hzero]
    · simpa [hne] using hu
  tokens := by rw [byTasks_release hnd hj hk hcount.symm hlive, htokens]
  count := fun hone => by
    have hsame : s'.children op = s.children op := by
      cases t with
      | internal => exact children_of_internal hlive
      | scheduled k => exact absurd hj (by simpa [Adaptor.joined] using hone)
    rw [hcount, hc.count hone, hsame]

section Special

variable {c : Core ν β} {p : Task ν → Bool} {rest : List (Stmt ν β)}

/-- The second operation takes the place of the first. -/
theorem Counted.sequence_accounts {args : Option β}
    (hc : Counted op ⟨c, p, .setValue .internal args :: rest⟩) (hnd : op.scheds.Nodup) :
    Accounts op ⟨{ c with sequenced := true }, p, op.second ++ rest⟩ := by
  match hs : op.scheds with
  | [] | _ :: _ :: _ =>
      exact hc.release (t := .internal) hnd rfl (fun k h => by cases h)
        (fun u => by simp [live, places_cons, Stmt.task, Adaptor.second, hs]) rfl rfl
        (by simp [byOthers, Stmt.concludes, List.countP_cons, Adaptor.second, hs]; try omega)
  | [k] =>
      have htokens := hc.tokens
      have hsent := c.sent.toNat_le
      have hsum : ∀ s : Operation ν β, s.byTasks op = s.live .internal + s.live (.scheduled k) := by
        simp [byTasks, children, hs]
      have hsecond : op.second (β := β) ++ rest = .start (.scheduled k) :: rest := by
        simp [Adaptor.second, hs]
      simp only [hsum, byOthers, live, places_cons, Stmt.task] at htokens
      simp [Stmt.concludes] at htokens
      rw [hsecond]
      refine ⟨fun u => ?_, ?_, fun hone => absurd (by simp [hs]) hone⟩
      · have hu := hc.once u
        simp only [live, places_cons, Stmt.task] at hu ⊢
        rcases eq_or_ne u (.scheduled k) with rfl | hne
        · simp
          omega
        · simp [hne.symm]
          omega
      · simp only [hsum, byOthers, live, places_cons, Stmt.task]
        simp [Stmt.concludes]
        omega

/-- All children are started. -/
theorem Counted.startAny_accounts (hc : Counted op ⟨c, p, .startAny :: rest⟩)
    (hnd : op.scheds.Nodup) :
    Accounts op ⟨{ c with count := op.scheds.length }, p,
      (op.scheds.map fun k => .start (.scheduled k)) ++ rest⟩ := by
  obtain ⟨hone, hsome⟩ : op.scheds.length ≠ 1 ∧ op.scheds ≠ [] := hc.fits _ List.mem_cons_self
  have htokens := hc.tokens
  have hsent := c.sent.toNat_le
  have hzero : ∀ k, places p rest (.scheduled k) = 0 := by
    intro k
    have := hc.live_scheduled (by
      simp [byOthers, Stmt.concludes, List.countP_cons]
      omega) k
    simpa [live, places_cons, Stmt.task] using this
  have htasks : (op.scheds.map fun k => Stmt.start (β := β) (.scheduled k)).filterMap Stmt.task =
      op.scheds.map .scheduled := by
    simp [List.filterMap_map, Function.comp_def, Stmt.task]
  have hnd' : (op.scheds.map Task.scheduled).Nodup :=
    hnd.map fun j k h => Task.scheduled.inj h
  have hone' : ∀ k ∈ op.scheds, (op.scheds.map Task.scheduled).count (.scheduled k) = 1 :=
    fun k hk => List.count_eq_one_of_mem hnd' (List.mem_map_of_mem hk)
  have hchildren : children op ⟨{ c with count := op.scheds.length }, p,
      (op.scheds.map fun k => .start (.scheduled k)) ++ rest⟩ = op.scheds.length := by
    have hall : ∀ k ∈ op.scheds, places p ((op.scheds.map fun k => Stmt.start (β := β)
        (.scheduled k)) ++ rest) (.scheduled k) = 1 := fun k hk => by
      rw [places_append, htasks, hzero, hone' k hk]
    simp only [children, live]
    rw [List.map_congr_left hall]
    simp
  have hinternal : (op.scheds.map Task.scheduled).count .internal = 0 :=
    List.count_eq_zero_of_not_mem (by simp)
  refine ⟨fun u => ?_, ?_, fun _ => by rw [hchildren]⟩
  · simp only [live, places_append, htasks]
    cases u with
    | internal =>
        have hu := hc.once .internal
        simpa [live, places_cons, Stmt.task, hinternal] using hu
    | scheduled k =>
        rw [hzero, Nat.zero_add]
        exact List.nodup_iff_count_le_one.mp hnd' _
  · have hlen := List.length_pos_iff.mpr hsome
    have hothers : (op.scheds.map fun k => Stmt.start (β := β) (.scheduled k)).countP
        (Stmt.concludes op) = 0 := by
      simp [List.countP_map, Function.comp_def, Stmt.concludes]
    simp only [byTasks, byOthers, live, places_append, htasks, if_neg hone, if_neg hsome,
      hinternal, List.countP_append, hothers, places_cons, List.countP_cons] at htokens ⊢
    simp [Stmt.task, Stmt.concludes, hlen] at htokens ⊢
    split at htokens <;> omega

theorem Counted.countDown_accounts {t : Task ν} (hc : Counted op ⟨c, p, .countDown t :: rest⟩)
    (hnd : op.scheds.Nodup) :
    Accounts op ⟨{ c with count := c.count - 1 }, p,
      (if c.count = 1 then [.complete] else []) ++ rest⟩ := by
  obtain ⟨hj, hk⟩ : op.joined t = true ∧ ∀ k, t = .scheduled k → k ∈ op.scheds :=
    hc.fits _ List.mem_cons_self
  cases t with
  | internal => cases hj
  | scheduled k =>
      have hone : op.scheds.length ≠ 1 := by simpa [Adaptor.joined] using hj
      have hsome : op.scheds ≠ [] := List.ne_nil_of_mem (hk k rfl)
      have htasks : ((if c.count = 1 then [.complete] else [] : List (Stmt ν β))).filterMap
          Stmt.task = [] := by split <;> rfl
      have hlive : ∀ u, live ⟨c, p, .countDown (.scheduled k) :: rest⟩ u =
          live ⟨{ c with count := c.count - 1 }, p,
            (if c.count = 1 then [.complete] else []) ++ rest⟩ u +
          if Task.scheduled k = u then 1 else 0 := fun u => by
        simp [live, places_append, htasks, places_cons, Stmt.task]
      have hchildren := children_release hnd (hk k rfl) hlive
      have hcount := hc.count hone
      have htokens := hc.tokens
      refine ⟨fun u => ?_, ?_, fun _ => ?_⟩
      · have hu := hc.once u
        rw [hlive u] at hu
        omega
      · have hinternal := hlive .internal
        simp only [byTasks, byOthers, if_neg hone, if_neg hsome, List.countP_append,
          List.countP_cons] at htokens hinternal ⊢
        rw [hinternal] at htokens
        by_cases hlast : c.count = 1
        · simp [hlast, List.countP_cons, Stmt.concludes] at htokens ⊢
          omega
        · have hmore : 1 < c.count := by
            simp only at hcount
            omega
          have hpos : 0 < c.count := by omega
          simpa [hlast, hmore, hpos, Stmt.concludes] using htokens
      · simp only at hcount ⊢
        omega

end Special

theorem Counted.accounts_step (hc : Counted op s) (hnd : op.scheds.Nodup) (h : Move op s s') :
    Accounts op s' := by
  cases h with
  | startStopped | startEnqueue | stoppedJoined | valueJoined =>
      exact hc.same (fun u => places_congr rfl) rfl rfl (by simp [byOthers, Stmt.concludes])
  | enqueue =>
      exact hc.same (fun u => places_enqueue rfl rfl (hc.once _)) rfl rfl
        (by simp [byOthers, Stmt.concludes])
  | dequeue hp =>
      exact hc.same (fun u => (places_take hp rfl).trans (places_cons_none rfl).symm) rfl rfl
        (by simp [byOthers, Stmt.concludes])
  | pop hp =>
      exact hc.same (fun u => places_take hp rfl) rfl rfl (by simp [byOthers, Stmt.concludes])
  | run =>
      exact hc.same (fun u => places_congr rfl) rfl rfl
        (by simp [byOthers, Stmt.concludes, Core.unregister, idle_update, List.count_erase_of_ne])
  | stop =>
      exact hc.same (fun u => by simp [live, places_cons, Stmt.task]) rfl rfl
        (by simp [byOthers, Stmt.concludes, Core.unregister, idle_update, List.count_erase_of_ne])
  | @refused _ _ cb =>
      refine hc.same (fun u => by simp [live, places_cons, Stmt.task]) rfl rfl ?_
      cases cb <;> simp [byOthers, Stmt.concludes, List.countP_cons]
  | @registered _ _ cb =>
      refine hc.same (fun u => by simp [live, places_cons, Stmt.task]) rfl rfl ?_
      cases cb with
      | trigger t => simp [byOthers, Stmt.concludes, Core.register, idle_update]
      | whenAny =>
          by_cases hnone : op.scheds = [] <;>
            simp [byOthers, Stmt.concludes, Core.register, Adaptor.sourceOf, hnone, idle]
          omega
  | @nextCb _ _ src cb cbs _ hcbs =>
      refine hc.same (fun u => by simp [live, places_cons, Stmt.task]) rfl rfl ?_
      cases cb with
      | trigger t => simp [byOthers, Stmt.concludes, idle_update, hcbs]
      | whenAny =>
          obtain rfl : src = .receiver := (hc.callbacks src .whenAny (by simp [hcbs])).1.symm
          by_cases hnone : op.scheds = [] <;>
            simp [byOthers, Stmt.concludes, hnone, idle, hcbs]
          omega
  | complete =>
      have hsome : op.scheds ≠ [] := (hc.fits .complete (by simp)).2
      exact hc.same (fun u => by simp [live, places_cons, Stmt.task]) rfl rfl
        (by simp [byOthers, Stmt.concludes, List.countP_cons, hsome, Core.unregister])
  | stopNone | stopAny | anyStopped | decideStopped | decide | deliver =>
      exact hc.same (fun u => by simp [live, places_cons, Stmt.task]) rfl rfl
        (by simp [byOthers, Stmt.concludes, List.countP_cons, *]; try omega)
  | emplaceValue | emplaceStopped | request | requestStop | notDequeued | requestedBefore | noCb =>
      exact hc.same (fun u => by simp [live, places_cons, Stmt.task]) rfl rfl
        (by simp [byOthers, Stmt.concludes])
  | decideNone _ hnone => exact absurd List.mem_cons_self (hc.stored hnone).1
  | reset =>
      have hidle := List.erase_of_not_mem (hc.notMem_callbacks List.mem_cons_self)
      exact hc.same (fun u => by simp [live, places_cons, Stmt.task]) rfl rfl
        (by simp [byOthers, Stmt.concludes, Core.unregister, hidle])
  | stopped hj =>
      exact hc.release hnd hj (hc.fits _ List.mem_cons_self)
        (fun u => by simp [live, places_cons, Stmt.task]) rfl rfl
        (by simp [byOthers, Stmt.concludes, List.countP_cons]; omega)
  | value hj =>
      exact hc.release hnd hj (hc.fits _ List.mem_cons_self)
        (fun u => by simp [live, places_cons, Stmt.task]) rfl rfl
        (by simp [byOthers, Stmt.concludes, List.countP_cons]; omega)
  | sequence => exact hc.sequence_accounts hnd
  | startAny => exact hc.startAny_accounts hnd
  | countLast hlast => simpa [hlast] using hc.countDown_accounts hnd
  | countDown hne => simpa [hne] using hc.countDown_accounts hnd
  | @send c p todo hsent =>
      have htokens : byTasks op ⟨c, p, todo⟩ + byOthers op ⟨c, p, todo⟩ = 0 := by
        simpa [hsent] using hc.tokens
      cases op with
      | inciteOn k =>
          refine hc.acquire (t := .scheduled k) hnd rfl (fun j h => ?_)
            (hc.live_scheduled (by simp [hsent]) k) (fun u => ?_) rfl ?_
          · cases h
            exact List.mem_singleton_self k
          · simp [live, Adaptor.first, Adaptor.uniq, Adaptor.second, Adaptor.scheds, places_cons,
              Stmt.task]
          · simp_all [byOthers, Adaptor.first, Adaptor.uniq, Adaptor.second, Adaptor.scheds,
              Stmt.concludes]
      | inciteOnAny uniq ks =>
          refine hc.acquire (t := .internal) hnd rfl (fun j h => by cases h) ?_ (fun u => ?_) rfl ?_
          · simp only [byTasks] at htokens
            omega
          · simp [live, Adaptor.first, Adaptor.uniq, places_cons, Stmt.task]
          · simp_all [byOthers, Adaptor.first, Adaptor.uniq, Stmt.concludes]

omit [DecidableEq ν] in
@[simp, grind =] theorem mem_second {st : Stmt ν β} : st ∈ op.second ↔
    (∃ k, op.scheds = [k] ∧ st = .start (.scheduled k)) ∨
      op.scheds.length ≠ 1 ∧ (st = .emplaceStopCb .whenAny ∨ op.scheds ≠ [] ∧ st = .startAny) := by
  match hs : op.scheds with
  | [] | [_] | _ :: _ :: _ => simp [Adaptor.second, hs]

omit [DecidableEq ν] in
@[simp, grind =] theorem mem_first {st : Stmt ν β} : st ∈ op.first ↔
    (op.uniq = none ∧ st ∈ op.second) ∨ (op.uniq ≠ none ∧ st = .start .internal) := by
  cases hu : op.uniq <;> simp [Adaptor.first, hu]

omit [DecidableEq ν] in
/-- The second operation is that of this adaptor. -/
theorem fits_second : ∀ st ∈ op.second (β := β), st.Fits op := by
  rintro st hst
  rcases mem_second.mp hst with ⟨k, hs, rfl⟩ | ⟨hone, rfl | ⟨hsome, rfl⟩⟩
  · simp [Stmt.Fits, hs]
  · exact hone
  · exact ⟨hone, hsome⟩

omit [DecidableEq ν] in
theorem fits_first : ∀ st ∈ op.first (β := β), st.Fits op := by
  rintro st hst
  rcases mem_first.mp hst with ⟨-, hst⟩ | ⟨-, rfl⟩
  · exact fits_second st hst
  · simp [Stmt.Fits]

theorem Counted.fits_step (hc : Counted op s) (h : Move op s s') : ∀ st ∈ s'.todo, st.Fits op := by
  have hfits := hc.fits
  cases h with
  | send => exact List.forall_mem_append.mpr ⟨fits_first, hfits⟩
  | requestStop => exact List.forall_mem_cons.mpr ⟨trivial, hfits⟩
  | pop hp =>
      refine List.forall_mem_cons.mpr ⟨?_, hfits⟩
      rintro k rfl
      exact hc.pending k hp
  | sequence =>
      exact List.forall_mem_append.mpr ⟨fits_second, (List.forall_mem_cons.mp hfits).2⟩
  | startAny =>
      refine List.forall_mem_append.mpr ⟨?_, (List.forall_mem_cons.mp hfits).2⟩
      simp [Stmt.Fits]
  | registered | notDequeued | requestedBefore | noCb | countDown | decideNone | deliver | reset =>
      exact (List.forall_mem_cons.mp hfits).2
  | startStopped | startEnqueue | run | emplaceStopped | complete =>
      exact forall_mem_replace hfits id
  | enqueue | stop | stopAny | stopped | value | anyStopped | request | decideStopped | decide =>
      exact forall_mem_replace hfits fun _ => trivial
  | stoppedJoined hj | valueJoined hj => exact forall_mem_replace hfits fun hst => ⟨hj, hst⟩
  | emplaceValue => exact List.forall_mem_cons.mpr ⟨trivial, forall_mem_replace hfits id⟩
  | stopNone hnone =>
      exact List.forall_mem_cons.mpr ⟨trivial, forall_mem_replace hfits fun _ => hnone⟩
  | @refused _ _ cb => cases cb <;> exact forall_mem_replace hfits id
  | dequeue hp =>
      refine forall_mem_replace hfits fun _ => ?_
      rintro k rfl
      exact hc.pending k hp
  | @nextCb _ _ src cb _ _ hcbs =>
      refine List.forall_mem_cons.mpr ⟨(hc.callbacks src cb ?_).2, hfits⟩
      simp [hcbs]
  | @countLast _ _ t =>
      refine forall_mem_replace hfits fun ⟨hj, hk⟩ => ?_
      cases t with
      | internal => cases hj
      | scheduled k => exact ⟨by simpa [Adaptor.joined] using hj, List.ne_nil_of_mem (hk k rfl)⟩

theorem Counted.pending_step (hc : Counted op s) (h : Move op s s') (k : ν)
    (hp : s'.pending (.scheduled k) = true) : k ∈ op.scheds := by
  cases h with
  | @enqueue _ _ t =>
      rcases eq_or_ne (.scheduled k) t with rfl | hne
      · exact hc.fits _ List.mem_cons_self k rfl
      · exact hc.pending k (by simpa [hne] using hp)
  | @dequeue _ _ t | @pop _ _ t =>
      rcases eq_or_ne (.scheduled k) t with rfl | hne
      · simp at hp
      · exact hc.pending k (by simpa [hne] using hp)
  | _ => exact hc.pending k hp

theorem mem_of_mem_unregister {c : Core ν β} {src src' : Source} {cb cb' : StopCb ν}
    (h : cb ∈ (c.unregister src' cb').callbacks src) : cb ∈ c.callbacks src := by
  rcases eq_or_ne src src' with rfl | hne
  · exact List.mem_of_mem_erase (by simpa [Core.unregister] using h)
  · simpa [Core.unregister, hne] using h

theorem Counted.callbacks_step (hc : Counted op s) (h : Move op s s') (src : Source) :
    ∀ cb ∈ s'.core.callbacks src, op.sourceOf cb = src ∧ (.callback cb : Stmt ν β).Fits op := by
  intro cb hcb
  have hcbs := hc.callbacks src cb
  cases h with
  | @registered c _ cb' =>
      rcases eq_or_ne src (op.sourceOf cb') with rfl | hne
      · have hmem : cb ∈ c.callbacks (op.sourceOf cb') ∨ cb = cb' := by
          simpa [Core.register] using hcb
        rcases hmem with hmem | rfl
        · exact hcbs hmem
        · refine ⟨rfl, ?_⟩
          have hfits := hc.fits _ List.mem_cons_self
          cases cb <;> exact hfits
      · exact hcbs (by simpa [Core.register, hne] using hcb)
  | stop | run | complete | reset => exact hcbs (mem_of_mem_unregister hcb)
  | @nextCb _ _ src' _ _ _ hnext =>
      rcases eq_or_ne src src' with rfl | hne
      · refine hcbs ?_
        rw [hnext]
        exact List.mem_cons_of_mem _ (by simpa using hcb)
      · exact hcbs (by simpa [hne] using hcb)
  | _ => exact hcbs hcb

theorem Counted.reset_step (hc : Counted op s) (h : Move op s s') (hr : .resetStopCb ∈ s'.todo) :
    (∃ c, .deliver c ∈ s'.todo) ∨ s'.core.received ≠ [] := by
  have hreset := hc.reset
  cases h with
  | _ => simp_all

section Emplace

variable (x p : ν × Option β) (comp comp' : Completion ν β)

omit [DecidableEq ν]

@[simp, grind =] theorem emplace_none :
    WhenAny.firstNoncancelled.emplace comp none = some comp := by
  cases comp <;> rfl

@[simp, grind =] theorem emplace_value :
    WhenAny.firstNoncancelled.emplace comp (some (.value p)) = some (.value p) := by
  cases comp <;> rfl

@[simp, grind =] theorem emplace_value_stopped :
    WhenAny.firstNoncancelled.emplace (.value x) (some (.stopped : Completion ν β)) =
      some (.value x) := rfl

@[simp, grind =] theorem emplace_stopped :
    WhenAny.firstNoncancelled.emplace .stopped (some comp) = some comp := rfl

/-- What is stored. -/
theorem completion_cases (completions : Option (Completion ν β)) :
    completions = none ∨ completions = some .stopped ∨ ∃ p, completions = some (.value p) := by
  rcases completions with _ | p | e | _
  · exact .inl rfl
  · exact .inr (.inr ⟨p, rfl⟩)
  · exact e.elim
  · exact .inr (.inl rfl)

theorem emplace_ne_none (completions : Option (Completion ν β)) :
    WhenAny.firstNoncancelled.emplace comp completions ≠ none := by
  rcases completion_cases completions with rfl | rfl | ⟨p, rfl⟩
  · simp
  · rcases completion_cases (some comp) with h | h | ⟨x, h⟩ <;> cases h <;> simp
  · simp

theorem emplace_value_eq (completions : Option (Completion ν β)) :
    ∃ p, WhenAny.firstNoncancelled.emplace (.value x) completions = some (.value p) := by
  rcases completion_cases completions with rfl | rfl | ⟨p, rfl⟩
  · exact ⟨x, emplace_none _⟩
  · exact ⟨x, emplace_value_stopped x⟩
  · exact ⟨p, emplace_value p _⟩

end Emplace

theorem Counted.stored_step (hc : Counted op s) (h : Move op s s')
    (hnone : s'.core.completions = none) :
    .decide ∉ s'.todo ∧ .complete ∉ s'.todo ∧ ∀ t, .countDown t ∉ s'.todo := by
  have hstored := hc.stored
  cases h with
  | emplaceValue | emplaceStopped => exact absurd hnone (emplace_ne_none _ _)
  | countLast => exact absurd List.mem_cons_self ((hstored hnone).2.2 _)
  | _ => simp_all

theorem Counted.step (hc : Counted op s) (hnd : op.scheds.Nodup) (h : Move op s s') :
    Counted op s' where
  toAccounts := hc.accounts_step hnd h
  fits := hc.fits_step h
  pending := hc.pending_step h
  callbacks := hc.callbacks_step h
  reset := hc.reset_step h
  stored := hc.stored_step h

end Step

theorem counted_init (op : Adaptor ν) : Counted op (Operation.init : Operation ν β) := by
  constructor
  · constructor <;>
      simp [Operation.init, Core.init, byTasks, byOthers, children, live, places, idle]
  all_goals simp [Operation.init, Core.init]

end BaremetalSenders.InciteOn
