import BaremetalSenders.Schedulers.TriggerManager
import Mathlib.Algebra.BigOperators.Fin
import Mathlib.Algebra.BigOperators.Group.Multiset.Basic

/-!
The priority task manager: `priority_task_manager::enqueue_task` and
`service_tasks<P>` with the requeue policies `immediate` and `deferred`.

Unlike the trigger manager there are many execution contexts. A call of
`service_tasks` can be interrupted between any two of its critical sections,
by an interrupt that enqueues tasks or services a priority itself, so the
calls are a list and the steps of the calls and the enqueues interleave
freely. A call keeps its number for ever; one that has returned stays in the
list. What a task does while it runs is not modelled, only that anything can
happen before it returns.

One step is one critical section, or what a call does outside of any: `run`
enters the task, `finish` is its return with the decrement of `task_count`.
The part of `deferred::pop` in front of its critical section only concerns
the list object of that call and belongs to the same step.
-/

namespace BaremetalSenders.Tasks

open Trigger (RequeuePolicy)

variable {n : ℕ} {α : Type*} [DecidableEq α]

/-- The state of `priority_task_manager`, the field `pending` of its tasks, and
the priorities `S::schedule` was called with, in this order. -/
structure Manager (n : ℕ) (α : Type*) where
  pending : α → Bool
  taskQueues : Fin n → List α
  taskCount : Int
  scheduled : List (Fin n)

def Manager.init : Manager n α where
  pending := fun _ => false
  taskQueues := fun _ => []
  taskCount := 0
  scheduled := []

def Manager.enqueueTask (m : Manager n α) (t : α) (p : Fin n) : Bool × Manager n α :=
  let added := !m.pending t
  let m := { m with pending := Function.update m.pending t true }
  if added then
    (true, { m with
      taskCount := m.taskCount + 1
      taskQueues := Function.update m.taskQueues p (m.taskQueues p ++ [t])
      scheduled := m.scheduled ++ [p] })
  else (false, m)

def Manager.isIdle (m : Manager n α) : Bool := m.taskCount == 0

/-- The local variable `q` of `service_tasks`: a reference to the member list
of the priority, or a list object of its own. -/
inductive Queue (α : Type*) where
  | shared
  | detached (l : List α)
  deriving DecidableEq

def Queue.held : Queue α → List α
  | .shared => []
  | .detached l => l

def Queue.policy : Queue α → RequeuePolicy
  | .shared => .immediate
  | .detached _ => .deferred

def Manager.getQueue (m : Manager n α) (p : Fin n) : RequeuePolicy → Queue α × Manager n α
  | .immediate => (.shared, m)
  | .deferred => (.detached (m.taskQueues p),
      { m with taskQueues := Function.update m.taskQueues p [] })

def Manager.queue (m : Manager n α) (p : Fin n) : Queue α → List α
  | .shared => m.taskQueues p
  | .detached l => l

/-- `pop` of the requeue policy on a list object with first task `t` and the
other tasks `ts`: it is unlinked, and `pending` is reset. -/
def Manager.popTask (m : Manager n α) (p : Fin n) (t : α) (ts : List α) :
    Queue α → Queue α × Manager n α
  | .shared => (.shared, { m with
      taskQueues := Function.update m.taskQueues p ts
      pending := Function.update m.pending t false })
  | .detached _ => (.detached ts, { m with pending := Function.update m.pending t false })

/-- Where a call of `service_tasks` is: about to look for a task, between the
pop of a task and its `run`, in that `run`, or behind the loop. -/
inductive Hand (α : Type*) where
  | looking
  | popped (t : α)
  | running (t : α)
  | returned
  deriving DecidableEq

structure Call (n : ℕ) (α : Type*) where
  prio : Fin n
  q : Queue α
  hand : Hand α
  deriving DecidableEq

/-- The manager and all calls of `service_tasks`, in order of their beginning. -/
structure State (n : ℕ) (α : Type*) where
  mgr : Manager n α
  calls : List (Call n α)

def State.init : State n α := ⟨.init, []⟩

/-- What is observed. The events of a call carry its number and its priority;
`service` also what `get_queue` took, `pop` the policy. -/
inductive Event (n : ℕ) (α : Type*) where
  | enqueue (t : α) (p : Fin n) (added : Bool)
  | service (i : ℕ) (p : Fin n) (rqp : RequeuePolicy) (snapshot : List α)
  | pop (i : ℕ) (p : Fin n) (rqp : RequeuePolicy) (t : α)
  | observedEmpty (i : ℕ) (p : Fin n) (rqp : RequeuePolicy)
  | run (i : ℕ) (p : Fin n) (t : α)
  | finish (i : ℕ) (p : Fin n) (t : α)
  deriving DecidableEq

def State.setCall (s : State n α) (i : ℕ) (c : Call n α) : State n α :=
  { s with calls := s.calls.set i c }

/-- One step. `pop` and `observedEmpty` are the two outcomes of the policy's
`pop`; with the latter the loop ends and the call returns. -/
def step (s : State n α) : Event n α → Option (State n α)
  | .enqueue t p added =>
      if (s.mgr.enqueueTask t p).1 = added then
        some { s with mgr := (s.mgr.enqueueTask t p).2 }
      else none
  | .service i p rqp snapshot =>
      if i = s.calls.length ∧ snapshot = (s.mgr.getQueue p rqp).1.held then
        some ⟨(s.mgr.getQueue p rqp).2, s.calls ++ [⟨p, (s.mgr.getQueue p rqp).1, .looking⟩]⟩
      else none
  | .pop i p rqp t =>
      match s.calls[i]? with
      | some ⟨p', q, .looking⟩ =>
          match s.mgr.queue p' q with
          | t' :: ts =>
              if p' = p ∧ q.policy = rqp ∧ t' = t then
                some ⟨(s.mgr.popTask p t ts q).2,
                  s.calls.set i ⟨p, (s.mgr.popTask p t ts q).1, .popped t⟩⟩
              else none
          | [] => none
      | _ => none
  | .observedEmpty i p rqp =>
      match s.calls[i]? with
      | some ⟨p', q, .looking⟩ =>
          if p' = p ∧ q.policy = rqp ∧ s.mgr.queue p q = [] then
            some (s.setCall i ⟨p, q, .returned⟩)
          else none
      | _ => none
  | .run i p t =>
      match s.calls[i]? with
      | some ⟨p', q, .popped u⟩ =>
          if p' = p ∧ u = t then some (s.setCall i ⟨p, q, .running t⟩) else none
      | _ => none
  | .finish i p t =>
      match s.calls[i]? with
      | some ⟨p', q, .running u⟩ =>
          if p' = p ∧ u = t then
            some ⟨{ s.mgr with taskCount := s.mgr.taskCount - 1 },
              s.calls.set i ⟨p, q, .looking⟩⟩
          else none
      | _ => none

def Event.call : Event n α → Option ℕ
  | .enqueue _ _ _ => none
  | .service i _ _ _ | .pop i _ _ _ | .observedEmpty i _ _ | .run i _ _ | .finish i _ _ => some i

/-- The side condition of a step: a call of `service_tasks` for the priority `p` begins when no
other call for it is under way. -/
def Apart (p : Fin n) (s : State n α) : Event n α → Prop
  | .service _ p' _ _ => p' = p → ∀ c ∈ s.calls, c.prio = p → c.hand = .returned
  | _ => True

instance Apart.decidable (p : Fin n) (s : State n α) : (e : Event n α) → Decidable (Apart p s e)
  | .service _ p' _ _ =>
      inferInstanceAs (Decidable (p' = p → ∀ c ∈ s.calls, c.prio = p → c.hand = .returned))
  | .enqueue _ _ _ | .pop _ _ _ _ | .observedEmpty _ _ _ | .run _ _ _ | .finish _ _ _ =>
      inferInstanceAs (Decidable True)

/-! ### What a step can do -/

inductive Move (s : State n α) : Event n α → State n α → Prop
  | refuse (t p) : s.mgr.pending t = true → Move s (.enqueue t p false) s
  | accept (t p) : s.mgr.pending t = false →
      Move s (.enqueue t p true) { s with mgr := (s.mgr.enqueueTask t p).2 }
  | follow (p) : Move s (.service s.calls.length p .immediate [])
      { s with calls := s.calls ++ [⟨p, .shared, .looking⟩] }
  | detach (p) : Move s (.service s.calls.length p .deferred (s.mgr.taskQueues p))
      ⟨{ s.mgr with taskQueues := Function.update s.mgr.taskQueues p [] },
        s.calls ++ [⟨p, .detached (s.mgr.taskQueues p), .looking⟩]⟩
  | popShared (i p t ts) : s.calls[i]? = some ⟨p, .shared, .looking⟩ →
      s.mgr.taskQueues p = t :: ts →
      Move s (.pop i p .immediate t)
        ⟨{ s.mgr with
            taskQueues := Function.update s.mgr.taskQueues p ts
            pending := Function.update s.mgr.pending t false },
          s.calls.set i ⟨p, .shared, .popped t⟩⟩
  | popDetached (i p t ts) : s.calls[i]? = some ⟨p, .detached (t :: ts), .looking⟩ →
      Move s (.pop i p .deferred t)
        ⟨{ s.mgr with pending := Function.update s.mgr.pending t false },
          s.calls.set i ⟨p, .detached ts, .popped t⟩⟩
  | empty (i p q) : s.calls[i]? = some ⟨p, q, .looking⟩ → s.mgr.queue p q = [] →
      Move s (.observedEmpty i p q.policy) (s.setCall i ⟨p, q, .returned⟩)
  | run (i p q t) : s.calls[i]? = some ⟨p, q, .popped t⟩ →
      Move s (.run i p t) (s.setCall i ⟨p, q, .running t⟩)
  | finish (i p q t) : s.calls[i]? = some ⟨p, q, .running t⟩ →
      Move s (.finish i p t)
        ⟨{ s.mgr with taskCount := s.mgr.taskCount - 1 }, s.calls.set i ⟨p, q, .looking⟩⟩

theorem enqueueTask_refused {m : Manager n α} {t : α} {p : Fin n} (h : m.pending t = true) :
    m.enqueueTask t p = (false, m) := by
  have hsame : Function.update m.pending t true = m.pending := by
    rw [← h]
    exact Function.update_eq_self t m.pending
  simp [Manager.enqueueTask, h, hsame]

theorem enqueueTask_accepted {m : Manager n α} {t : α} {p : Fin n} (h : m.pending t = false) :
    m.enqueueTask t p = (true, { m with
      pending := Function.update m.pending t true
      taskCount := m.taskCount + 1
      taskQueues := Function.update m.taskQueues p (m.taskQueues p ++ [t])
      scheduled := m.scheduled ++ [p] }) := by
  simp [Manager.enqueueTask, h]

theorem step_move {s s' : State n α} {e : Event n α} (h : step s e = some s') : Move s e s' := by
  cases e with
  | enqueue t p added =>
      simp only [step] at h
      split at h <;> cases h
      next hadd =>
        cases hp : s.mgr.pending t with
        | true =>
            rw [enqueueTask_refused hp] at hadd ⊢
            subst hadd
            exact .refuse t p hp
        | false =>
            have hret : added = true := by rw [← hadd, enqueueTask_accepted hp]
            subst hret
            exact .accept t p hp
  | service i p rqp snapshot =>
      simp only [step] at h
      split at h <;> cases h
      next hc =>
        obtain ⟨rfl, rfl⟩ := hc
        cases rqp with
        | immediate => exact .follow p
        | deferred => exact .detach p
  | pop i p rqp t =>
      simp only [step] at h
      split at h
      · next p' q hi =>
          split at h
          · next t' ts hq =>
              split at h <;> cases h
              next hc =>
                obtain ⟨rfl, rfl, rfl⟩ := hc
                cases q with
                | shared => exact .popShared i p' t' ts hi hq
                | detached l =>
                    obtain rfl : l = t' :: ts := hq
                    exact .popDetached i p' t' ts hi
          · cases h
      · cases h
  | observedEmpty i p rqp =>
      simp only [step] at h
      split at h
      · next p' q hi =>
          split at h <;> cases h
          next hc =>
            obtain ⟨rfl, rfl, hq⟩ := hc
            exact .empty i p' q hi hq
      · cases h
  | run i p t =>
      simp only [step] at h
      split at h
      · next p' q u hi =>
          split at h <;> cases h
          next hc =>
            obtain ⟨rfl, rfl⟩ := hc
            exact .run i p' q u hi
      · cases h
  | finish i p t =>
      simp only [step] at h
      split at h
      · next p' q u hi =>
          split at h <;> cases h
          next hc =>
            obtain ⟨rfl, rfl⟩ := hc
            exact .finish i p' q u hi
      · cases h

end BaremetalSenders.Tasks
