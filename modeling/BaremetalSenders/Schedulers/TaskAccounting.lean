import BaremetalSenders.Foundation.Holdings
import BaremetalSenders.Foundation.Ledger
import BaremetalSenders.Schedulers.TaskManager
import Mathlib.Algebra.Order.BigOperators.Group.Multiset
import Mathlib.Data.Multiset.AddSub

/-!
What becomes of a task the priority task manager has accepted.

A task is outstanding at the priority it was enqueued at while it is in the
queue of that priority or in the list some call has detached. `pending` is
true of exactly the outstanding tasks, so a task is outstanding at one
priority at most, and the pops settle what the accepted enqueues armed.

`task_count` counts the outstanding tasks and those in the hands of calls.
-/

namespace BaremetalSenders.Tasks

open Trigger (RequeuePolicy)

variable {n : ℕ} {α : Type*} [DecidableEq α]

/-- The tasks of a list, each at priority `p`. -/
def tagged (p : Fin n) (xs : List α) : Multiset (α × Fin n) := xs.map fun t => (t, p)

/-- The tasks waiting in a queue or in a detached list, with their priorities. -/
def State.outstanding (s : State n α) : Multiset (α × Fin n) :=
  ∑ p, tagged p (s.mgr.taskQueues p) + (s.calls.map fun c => tagged c.prio c.q.held).sum

def Hand.busy : Hand α → ℕ
  | .popped _ | .running _ => 1
  | .looking | .returned => 0

/-- How many tasks the calls have in hand. -/
def busyOf (cs : List (Call n α)) : ℕ := (cs.map fun c => c.hand.busy).sum

/-- How many tasks are in the hands of calls: popped or running. -/
def State.busy (s : State n α) : ℕ := busyOf s.calls

/-- An accepted enqueue arms a task at its priority, a pop settles it. -/
def Event.queueEntry : Event n α → Option (Entry (α × Fin n))
  | .enqueue t p true => some (.arm (t, p))
  | .pop _ p _ t => some (.settle (t, p))
  | _ => none

/-! ### What is outstanding -/

omit [DecidableEq α] in
@[simp] theorem tagged_nil (p : Fin n) : tagged p ([] : List α) = 0 := rfl

omit [DecidableEq α] in
@[simp] theorem tagged_cons (p : Fin n) (t : α) (xs : List α) :
    tagged p (t :: xs) = (t, p) ::ₘ tagged p xs := rfl

omit [DecidableEq α] in
@[simp] theorem tagged_append (p : Fin n) (xs ys : List α) :
    tagged p (xs ++ ys) = tagged p xs + tagged p ys := by
  simp [tagged]

omit [DecidableEq α] in
theorem held_setCall {l : List (Call n α)} {i : ℕ} {c : Call n α} (h : l[i]? = some c)
    (c' : Call n α) (hp : c'.prio = c.prio) (hq : c'.q.held = c.q.held) :
    ((l.set i c').map fun c => tagged c.prio c.q.held).sum =
      (l.map fun c => tagged c.prio c.q.held).sum := by
  have hsum := sum_map_set_add (fun c : Call n α => tagged c.prio c.q.held) h c'
  rw [hp, hq] at hsum
  exact add_right_cancel hsum

theorem outstanding_move {s s' : State n α} {e : Event n α} (h : Move s e s') :
    Ledger.Booked e.queueEntry s.outstanding s'.outstanding := by
  cases h with
  | refuse t p => rfl
  | accept t p hp =>
      rw [enqueueTask_accepted hp]
      have hsum := sum_update_add (fun p xs => tagged p xs) s.mgr.taskQueues p
        (s.mgr.taskQueues p ++ [t])
      have hqueues : ∑ j, tagged j (Function.update s.mgr.taskQueues p
            (s.mgr.taskQueues p ++ [t]) j) =
          ∑ j, tagged j (s.mgr.taskQueues j) + {(t, p)} := by
        rw [tagged_append, add_comm (tagged p _), ← add_assoc] at hsum
        exact add_right_cancel hsum
      simp only [Ledger.Booked, Event.queueEntry, State.outstanding]
      rw [hqueues, add_right_comm]
  | follow p =>
      simp [Ledger.Booked, Event.queueEntry, State.outstanding, Queue.held]
  | detach p =>
      have hsum := sum_update_add (fun p xs => tagged p xs) s.mgr.taskQueues p []
      simp only [Ledger.Booked, Event.queueEntry, State.outstanding, List.map_append, List.map_cons,
        List.map_nil, List.sum_append, List.sum_cons, List.sum_nil, Queue.held, add_zero]
      rw [tagged_nil, add_zero] at hsum
      rw [← hsum, add_assoc, add_comm (List.sum _), ← add_assoc]
  | popShared i p t ts hi hq =>
      have hsum := sum_update_add (fun p xs => tagged p xs) s.mgr.taskQueues p ts
      have hcalls := held_setCall hi ⟨p, .shared, .popped t⟩ rfl rfl
      simp only [Ledger.Booked, Event.queueEntry, State.outstanding]
      rw [hcalls]
      rw [hq, tagged_cons, ← Multiset.singleton_add, ← add_assoc] at hsum
      rw [add_right_comm, add_right_cancel hsum]
  | popDetached i p t ts hi =>
      have hsum := sum_map_set_add (fun c : Call n α => tagged c.prio c.q.held) hi
        ⟨p, .detached ts, .popped t⟩
      rw [show (Queue.detached (t :: ts)).held = t :: ts from rfl, tagged_cons] at hsum
      rw [← Multiset.singleton_add, ← add_assoc] at hsum
      simp only [Ledger.Booked, Event.queueEntry, State.outstanding]
      rw [add_assoc, add_right_cancel hsum]
  | empty i p q hi hq =>
      simp only [Ledger.Booked, Event.queueEntry, State.outstanding, State.setCall]
      rw [held_setCall hi ⟨p, q, .returned⟩ rfl rfl]
  | run i p q t hi =>
      simp only [Ledger.Booked, Event.queueEntry, State.outstanding, State.setCall]
      rw [held_setCall hi ⟨p, q, .running t⟩ rfl rfl]
  | finish i p q t hi =>
      simp only [Ledger.Booked, Event.queueEntry, State.outstanding]
      rw [held_setCall hi ⟨p, q, .looking⟩ rfl rfl]

/-- `pending` marks the outstanding tasks, and each is outstanding once. -/
structure PendingOk (s : State n α) : Prop where
  nodup : (s.outstanding.map Prod.fst).Nodup
  pending : ∀ t, s.mgr.pending t = true ↔ ∃ p, (t, p) ∈ s.outstanding

/-- What a step does to the flags, by its entry in the ledger. -/
theorem pending_move {s s' : State n α} {e : Event n α} (h : Move s e s') :
    match e.queueEntry with
    | some (.arm x) => s.mgr.pending x.1 = false ∧
        s'.mgr.pending = Function.update s.mgr.pending x.1 true
    | some (.settle x) => s'.mgr.pending = Function.update s.mgr.pending x.1 false
    | none => s'.mgr.pending = s.mgr.pending := by
  cases h with
  | accept t p hp => simp [Event.queueEntry, enqueueTask_accepted hp, hp]
  | _ => rfl

omit [DecidableEq α] in
theorem mem_map_fst {m : Multiset (α × Fin n)} {t : α} :
    t ∈ m.map Prod.fst ↔ ∃ p, (t, p) ∈ m := by
  simp [Multiset.mem_map]

omit [DecidableEq α] in
theorem pendingOk_init : PendingOk (State.init : State n α) := by
  constructor <;> simp [State.outstanding, State.init, Manager.init]

theorem pendingOk_move {s s' : State n α} {e : Event n α} (hok : PendingOk s) (h : Move s e s') :
    PendingOk s' := by
  have hb := outstanding_move h
  have hp := pending_move h
  simp only [Ledger.Booked] at hb
  split at hb
  · next x hx =>
      rw [hx] at hp
      have hnew : x.1 ∉ s.outstanding.map Prod.fst := by
        intro hm
        have := (hok.pending x.1).mpr (mem_map_fst.mp hm)
        simp [hp.1] at this
      refine ⟨?_, fun t => ?_⟩
      · rw [hb, Multiset.map_add, Multiset.map_singleton, add_comm, Multiset.singleton_add]
        exact Multiset.nodup_cons.mpr ⟨hnew, hok.nodup⟩
      · rw [hp.2, hb]
        by_cases ht : t = x.1
        · subst ht
          simp only [Function.update_self, true_iff]
          exact ⟨x.2, by simp⟩
        · have hx : ∀ p, (t, p) ≠ x := fun p e => ht (congrArg Prod.fst e)
          simpa [Function.update_of_ne ht, hx] using hok.pending t
  · next x hx =>
      rw [hx] at hp
      have hnd := hok.nodup
      rw [← hb, Multiset.map_add, Multiset.map_singleton, add_comm, Multiset.singleton_add,
        Multiset.nodup_cons] at hnd
      refine ⟨hnd.2, fun t => ?_⟩
      rw [hp]
      by_cases ht : t = x.1
      · subst ht
        simpa [mem_map_fst] using hnd.1
      · have hx : ∀ p, (t, p) ≠ x := fun p e => ht (congrArg Prod.fst e)
        rw [Function.update_of_ne ht, hok.pending t, ← hb]
        simp [hx]
  · next hx =>
      rw [hx] at hp
      exact ⟨by rw [hb]; exact hok.nodup, fun t => by rw [hb, hp]; exact hok.pending t⟩

theorem pendingOk_of_run {tr : List (Event n α)} {s : State n α} (h : Run step .init tr s) :
    PendingOk s :=
  Run.induction (P := fun _ s => PendingOk s) pendingOk_init
    (fun _ _ _ _ _ ih hs => pendingOk_move ih (step_move hs)) h

/-! ### The ledger and the counter -/

/-- The accepted enqueues are settled by the pops, and what is not settled is
outstanding. -/
theorem queue_ledger {tr : List (Event n α)} {s : State n α} (h : Run step .init tr s) :
    ∃ q, Run Ledger.step [] (tr.filterMap Event.queueEntry) q ∧
      (q : Multiset (α × Fin n)) = s.outstanding := by
  have hledger := Run.ledger (C := fun _ _ => True) Event.queueEntry
    (R := fun (s : State n α) q => PendingOk s ∧ (q : Multiset (α × Fin n)) = s.outstanding)
    ⟨pendingOk_init, by simp [State.outstanding, State.init, Manager.init]⟩ ?_ h (.trivial tr)
  · obtain ⟨q, hq, -, hR⟩ := hledger
    exact ⟨q, hq, hR⟩
  · rintro s q e s' ⟨hok, hq⟩ - hs
    have hm := step_move hs
    obtain ⟨q', hrun, hq'⟩ := Ledger.run_of_booked hq (outstanding_move hm) fun x hx hmem => by
      have hp := pending_move hm
      rw [hx] at hp
      have := (hok.pending x.1).mpr ⟨x.2, hmem⟩
      simp [hp.1] at this
    exact ⟨q', hrun, pendingOk_move hok hm, hq'⟩

omit [DecidableEq α] in
theorem busyOf_set {cs : List (Call n α)} {i : ℕ} {c : Call n α} (h : cs[i]? = some c)
    (c' : Call n α) : busyOf (cs.set i c') + c.hand.busy = busyOf cs + c'.hand.busy :=
  sum_map_set_add (fun c : Call n α => c.hand.busy) h c'

omit [DecidableEq α] in
theorem busyOf_concat (cs : List (Call n α)) (p : Fin n) (q : Queue α) :
    busyOf (cs ++ [⟨p, q, .looking⟩]) = busyOf cs := by
  simp [busyOf, Hand.busy]

/-- What a step adds to the counter beyond the tasks it puts into a hand. -/
theorem busy_move {s s' : State n α} {e : Event n α} (h : Move s e s') :
    s'.mgr.taskCount + s.busy = s.mgr.taskCount + s'.busy +
      match e.queueEntry with
      | some (.arm _) => 1
      | some (.settle _) => -1
      | none => 0 := by
  cases h with
  | refuse t p => simp [Event.queueEntry]
  | accept t p hp =>
      rw [enqueueTask_accepted hp]
      simp only [Event.queueEntry, State.busy]
      omega
  | follow p =>
      simp [Event.queueEntry, State.busy, busyOf_concat]
  | detach p =>
      simp [Event.queueEntry, State.busy, busyOf_concat]
  | popShared i p t ts hi hq =>
      have hbusy : busyOf (s.calls.set i ⟨p, .shared, .popped t⟩) + 0 = busyOf s.calls + 1 :=
        busyOf_set hi _
      simp only [Event.queueEntry, State.busy]
      omega
  | popDetached i p t ts hi =>
      have hbusy : busyOf (s.calls.set i ⟨p, .detached ts, .popped t⟩) + 0 = busyOf s.calls + 1 :=
        busyOf_set hi _
      simp only [Event.queueEntry, State.busy]
      omega
  | empty i p q hi hq =>
      have hbusy : busyOf (s.calls.set i ⟨p, q, .returned⟩) + 0 = busyOf s.calls + 0 :=
        busyOf_set hi _
      simp only [Event.queueEntry, State.busy, State.setCall]
      omega
  | run i p q t hi =>
      have hbusy : busyOf (s.calls.set i ⟨p, q, .running t⟩) + 1 = busyOf s.calls + 1 :=
        busyOf_set hi _
      simp only [Event.queueEntry, State.busy, State.setCall]
      omega
  | finish i p q t hi =>
      have hbusy : busyOf (s.calls.set i ⟨p, q, .looking⟩) + 1 = busyOf s.calls + 0 :=
        busyOf_set hi _
      simp only [Event.queueEntry, State.busy]
      omega

/-- The counter counts a task from its acceptance until its `run` has returned. -/
theorem taskCount_move {s s' : State n α} {e : Event n α} (h : Move s e s')
    (hcount : s.mgr.taskCount = s.outstanding.card + s.busy) :
    s'.mgr.taskCount = s'.outstanding.card + s'.busy := by
  have hb := outstanding_move h
  have hbusy := busy_move h
  simp only [Ledger.Booked] at hb
  split at hb
  · next x hx =>
      have hcard := congrArg Multiset.card hb
      simp only [Multiset.card_add, Multiset.card_singleton] at hcard
      simp only [hx] at hbusy
      omega
  · next x hx =>
      have hcard := congrArg Multiset.card hb
      simp only [Multiset.card_add, Multiset.card_singleton] at hcard
      simp only [hx] at hbusy
      omega
  · next hx =>
      simp only [hx] at hbusy
      rw [hb]
      omega

theorem taskCount_of_run {tr : List (Event n α)} {s : State n α} (h : Run step .init tr s) :
    s.mgr.taskCount = s.outstanding.card + s.busy := by
  refine Run.induction (P := fun _ s => s.mgr.taskCount = (s.outstanding.card : Int) + s.busy) ?_
    (fun _ _ _ _ _ ih hs => taskCount_move (step_move hs) ih) h
  simp [State.init, Manager.init, State.outstanding, State.busy, busyOf]

end BaremetalSenders.Tasks
