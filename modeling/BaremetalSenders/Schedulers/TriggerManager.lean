import BaremetalSenders.Foundation.IntrusiveList
import BaremetalSenders.Foundation.Run

/-!
The trigger manager: `trigger_manager::enqueue`, `dequeue` and `run` with the
requeue policies `immediate` and `deferred`.

There is one execution context. A task may call back into the manager while
`run` executes it, so what is suspended is a stack of `run` activations, and
the manager can be called whenever the innermost activation is inside a task
or there is none. A run of the system is any sequence of such calls and of
steps of the innermost activation; what a task does is not modelled, only that
between its start and its return anything the manager offers can happen.

The queue is kept with its pointers. `deferred` moves the list object into a
local variable of `run` while `dequeue` always operates on the member list, and
that is only visible at the level of links and ends.
-/

namespace BaremetalSenders.Trigger

open IntrusiveList

variable {α : Type*} [DecidableEq α]

inductive RequeuePolicy where
  | immediate
  | deferred
  deriving DecidableEq

/-- The state of `trigger_manager` and the fields of its tasks: `links` and
`pending` are `trigger_task`'s, `tasks` is the single element of the array. -/
structure Manager (α : Type*) where
  links : Links α
  pending : α → Bool
  tasks : Ends α
  taskCount : Int

def Manager.init : Manager α where
  links := ⟨fun _ => none, fun _ => none⟩
  pending := fun _ => false
  tasks := .empty
  taskCount := 0

def Manager.enqueue (m : Manager α) (t : α) : Bool × Manager α :=
  let added := !m.pending t
  let m := { m with pending := Function.update m.pending t true }
  if added then
    (true, { m with
      taskCount := m.taskCount + 1
      links := (pushBack m.links m.tasks t).1
      tasks := (pushBack m.links m.tasks t).2 })
  else (false, m)

/-- `trigger_manager::dequeue`. The list it removes from is `tasks[0]`, wherever
the task is linked. -/
def Manager.dequeue (m : Manager α) (t : α) : Bool × Manager α :=
  let pending := m.pending t
  let m := { m with pending := Function.update m.pending t false }
  if pending then
    (true, { m with
      links := (remove m.links m.tasks t).1
      tasks := (remove m.links m.tasks t).2
      taskCount := m.taskCount - 1 })
  else (false, m)

/-- The local variable `q` of `run`: a reference to the member list, or a list
object of its own. -/
inductive Queue (α : Type*) where
  | shared
  | detached (l : Ends α)

def RequeuePolicy.getQueue (m : Manager α) : RequeuePolicy → Queue α × Manager α
  | .immediate => (.shared, m)
  | .deferred => (.detached m.tasks, { m with tasks := .empty })

def Manager.ends (m : Manager α) : Queue α → Ends α
  | .shared => m.tasks
  | .detached l => l

/-- The critical section of `run`'s loop: `q.pop_front(); task.pending = false`. -/
def Manager.popTask (m : Manager α) (t : α) : Queue α → Queue α × Manager α
  | .shared => (.shared, { m with
      links := (popFront m.links m.tasks).1
      tasks := (popFront m.links m.tasks).2
      pending := Function.update m.pending t false })
  | .detached l => (.detached (popFront m.links l).2, { m with
      links := (popFront m.links l).1
      pending := Function.update m.pending t false })

/-- An activation of `run`: its queue, and the task whose `run` it is inside. -/
structure Frame (α : Type*) where
  q : Queue α
  task : Option α

/-- The manager and the activations of `run`, the innermost one first. -/
structure State (α : Type*) where
  mgr : Manager α
  frames : List (Frame α)

def State.init : State α := ⟨.init, []⟩

/-- The manager's functions are called from outside `run` or from inside a task. -/
def State.callable (s : State α) : Bool :=
  match s.frames with
  | [] => true
  | f :: _ => f.task.isSome

/-- What is observed: the calls with what they returned, and the tasks' runs. -/
inductive Event (α : Type*) where
  | enqueue (t : α) (added : Bool)
  | dequeue (t : α) (removed : Bool)
  | run (rqp : RequeuePolicy)
  | start (t : α)
  | finish (t : α)
  | ret
  deriving DecidableEq

/-- One step. `start`, `finish` and `ret` are the three parts of `run`'s loop:
the test succeeds, the front task is popped and its `run` entered; that `run`
returns and `task_count` is decremented; the test fails and `run` returns. -/
def step (s : State α) : Event α → Option (State α)
  | .enqueue t added =>
      if s.callable ∧ (s.mgr.enqueue t).1 = added then
        some { s with mgr := (s.mgr.enqueue t).2 }
      else none
  | .dequeue t removed =>
      if s.callable ∧ (s.mgr.dequeue t).1 = removed then
        some { s with mgr := (s.mgr.dequeue t).2 }
      else none
  | .run rqp =>
      if s.callable then
        some ⟨(rqp.getQueue s.mgr).2, ⟨(rqp.getQueue s.mgr).1, none⟩ :: s.frames⟩
      else none
  | .start t =>
      match s.frames with
      | ⟨q, none⟩ :: fs =>
          if (s.mgr.ends q).head = some t then
            some ⟨(s.mgr.popTask t q).2, ⟨(s.mgr.popTask t q).1, some t⟩ :: fs⟩
          else none
      | _ => none
  | .finish t =>
      match s.frames with
      | ⟨q, some u⟩ :: fs =>
          if u = t then
            some ⟨{ s.mgr with taskCount := s.mgr.taskCount - 1 }, ⟨q, none⟩ :: fs⟩
          else none
      | _ => none
  | .ret =>
      match s.frames with
      | ⟨q, none⟩ :: fs => if (s.mgr.ends q).head = none then some ⟨s.mgr, fs⟩ else none
      | _ => none

def State.running (s : State α) : List α := s.frames.filterMap Frame.task

/-- `t` is the first or the last task of a list object `run` keeps to itself. -/
def Queue.hasEnd (t : α) : Queue α → Bool
  | .shared => false
  | .detached l => l.head == some t || l.tail == some t

/-- The task is at an end of the detached list of some activation. -/
def State.AtDetachedEnd (s : State α) (t : α) : Prop := ∃ f ∈ s.frames, f.q.hasEnd t = true

instance (s : State α) (t : α) : Decidable (s.AtDetachedEnd t) :=
  inferInstanceAs (Decidable (∃ f ∈ s.frames, f.q.hasEnd t = true))

/-- The side condition of a step: no `dequeue` of a task at an end of a detached
list. -/
def DequeueInside (s : State α) : Event α → Prop
  | .dequeue t _ => ¬ s.AtDetachedEnd t
  | _ => True

instance (s : State α) : (e : Event α) → Decidable (DequeueInside s e)
  | .dequeue t _ => inferInstanceAs (Decidable (¬ s.AtDetachedEnd t))
  | .enqueue _ _ | .run _ | .start _ | .finish _ | .ret => inferInstanceAs (Decidable True)

end BaremetalSenders.Trigger
