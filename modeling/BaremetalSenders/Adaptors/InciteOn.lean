import BaremetalSenders.Adaptors.WhenAny
import BaremetalSenders.Schedulers.TriggerManager

/-!
`incite_on` and `incite_on_any`, with the trigger managers they are scheduled on.

`incite_on` is sent a function. It starts an operation on a trigger and then calls
the function, which is expected to fire that trigger. `incite_on_any` is a
composition: an `incite_on` over a trigger of its own, the function of which runs
that trigger and then the function that was sent, followed in sequence by a
`when_any` of the operations on the triggers the caller named. A `when_any` of one
sender is that sender.

There is one operation here and one processor. What is executed next is a stack of
frames: the statements of the operation's functions still to be executed, the
activations of `trigger_manager::run`, and the function that was sent. The top frame
is executed, or somebody calls the managers or requests stop: the function, a task,
the receiver, or an interrupt, which can come between any two statements. Calls nest
and interrupts return, so what they do is on top of what they interrupt. Of everybody
else, other operations with the same call site included, the managers see tasks that
are enqueued, dequeued and run.

The operation's storage is there as long as its code is. What ends earlier is the
operation on the internal trigger: `sequence` puts the `when_any` in its place.
-/

namespace BaremetalSenders.InciteOn

open Trigger (Manager Queue RequeuePolicy)

variable {ν β τ : Type*}

inductive Adaptor (ν : Type*) where
  | inciteOn (sched : ν)
  | inciteOnAny (uniq : ν) (scheds : List ν)

/-- The operations on triggers that are part of the operation: the one on the internal
trigger of `incite_on_any`, and those on the named ones. -/
inductive Task (ν : Type*) where
  | internal
  | scheduled (k : ν)
  deriving DecidableEq

inductive Source where
  | receiver
  | whenAny
  deriving DecidableEq

/-- The stop callbacks of the trigger operations and of the `when_any`. -/
inductive StopCb (ν : Type*) where
  | trigger (t : Task ν)
  | whenAny
  deriving DecidableEq

/-- A value is what a trigger was run with, and which trigger it was. -/
abbrev Completion (ν β : Type*) := Join.Completion (ν × Option β) Empty

namespace Adaptor

/-- The schedulers the adaptor was given. -/
def scheds : Adaptor ν → List ν
  | .inciteOn k => [k]
  | .inciteOnAny _ ks => ks

/-- The internal trigger. -/
def uniq : Adaptor ν → Option ν
  | .inciteOn _ => none
  | .inciteOnAny u _ => some u

/-- The trigger a task is enqueued on. -/
def home : Adaptor ν → Task ν → ν
  | .inciteOnAny u _, .internal => u
  | .inciteOn k, .internal => k
  | _, .scheduled k => k

/-- The task is a child of a `when_any`, which is one of none or of several senders. -/
def joined (op : Adaptor ν) : Task ν → Bool
  | .internal => false
  | .scheduled _ => op.scheds.length != 1

/-- The source of the stop token in the environment of the task's receiver. -/
def source (op : Adaptor ν) (t : Task ν) : Source :=
  if op.joined t then .whenAny else .receiver

def sourceOf (op : Adaptor ν) : StopCb ν → Source
  | .trigger t => op.source t
  | .whenAny => .receiver

end Adaptor

/-- The statements of the operation's functions. -/
inductive Stmt (ν β : Type*) where
  /-- `op_state::start` of a trigger: `if (this->check_stopped())` -/
  | start (t : Task ν)
  /-- `triggers<Name, Args...>.enqueue(*this)` -/
  | enqueue (t : Task ν)
  /-- `stop_cb.emplace(...)` -/
  | emplaceStopCb (cb : StopCb ν)
  /-- A stop callback is called. That of a trigger is `op_state::stop`, which begins with
  `clear_stop_cb`. -/
  | callback (cb : StopCb ν)
  /-- `triggers<Name, Args...>.dequeue(*this)` -/
  | dequeue (t : Task ν)
  | completeStopped (t : Task ν)
  /-- `op_state::run` of a trigger: `this->clear_stop_cb()` -/
  | run (t : Task ν) (args : Option β)
  /-- `set_value(std::move(rcvr), args...)` -/
  | setValue (t : Task ν) (args : Option β)
  /-- `op_state::start` of `when_any`: `if (stop_source.stop_requested())` -/
  | startAny
  /-- `StopPolicy::emplace`: its critical section -/
  | emplace (t : Task ν) (c : Completion ν β)
  | requestStop (src : Source)
  /-- `get_next_cb` in the loop of `request_stop` -/
  | nextCb (src : Source)
  /-- `if (--count == 0)` in the `emplace` called for the child `t` -/
  | countDown (t : Task ν)
  /-- `op_state::complete` of `when_any`: `stop_cb.reset()` -/
  | complete
  /-- the rest of it -/
  | decide
  /-- The receiver is completed. -/
  | deliver (c : Completion ν β)
  /-- `ops->stop_cb.reset()`, in the stop callback of `when_any` without senders -/
  | resetStopCb
  deriving DecidableEq

namespace Adaptor

/-- The operation on the named triggers is connected and started. `start` of `when_any`
begins by emplacing its stop callback; without senders it is all it does. -/
def second (op : Adaptor ν) : List (Stmt ν β) :=
  match op.scheds with
  | [] => [.emplaceStopCb .whenAny]
  | [k] => [.start (.scheduled k)]
  | _ => [.emplaceStopCb .whenAny, .startAny]

def first (op : Adaptor ν) : List (Stmt ν β) :=
  match op.uniq with
  | none => op.second
  | some _ => [.start .internal]

end Adaptor

/-- What the operation stores. `fired` and `received` are the triggers that got to it, in
this order, and the completions its receiver got. -/
structure Core (ν β : Type*) where
  /-- The function has been sent. -/
  sent : Bool
  /-- `sequence` has put the second operation in the place of the first. -/
  sequenced : Bool
  requested : Source → Bool
  callbacks : Source → List (StopCb ν)
  completions : Option (Completion ν β)
  /-- A `size_t`: decremented at zero it is something that is not zero. -/
  count : ℤ
  fired : List (ν × Option β)
  received : List (Completion ν β)

def Core.init : Core ν β where
  sent := false
  sequenced := false
  requested _ := false
  callbacks _ := []
  completions := none
  count := 0
  fired := []
  received := []

def Core.register (c : Core ν β) (src : Source) (cb : StopCb ν) : Core ν β :=
  { c with callbacks := Function.update c.callbacks src (c.callbacks src ++ [cb]) }

variable [DecidableEq ν]

/-- `std::optional<stop_callback_t>::reset` -/
def Core.unregister (c : Core ν β) (src : Source) (cb : StopCb ν) : Core ν β :=
  { c with callbacks := Function.update c.callbacks src ((c.callbacks src).erase cb) }

/-- Execute a statement: what it leaves stored, and what is to be executed next.
`dequeued` is what `dequeue` returns. -/
def Stmt.exec (op : Adaptor ν) (dequeued : Task ν → Bool) (c : Core ν β) :
    Stmt ν β → Core ν β × List (Stmt ν β)
  | .start t => (c, if c.requested (op.source t) then [.completeStopped t] else [.enqueue t])
  | .enqueue t => (c, [.emplaceStopCb (.trigger t)])
  | .emplaceStopCb cb =>
      if c.requested (op.sourceOf cb) then (c, [.callback cb])
      else (c.register (op.sourceOf cb) cb, [])
  | .callback (.trigger t) => (c.unregister (op.source t) (.trigger t), [.dequeue t])
  | .callback .whenAny =>
      (c, if op.scheds = [] then [.deliver .stopped, .resetStopCb] else [.requestStop .whenAny])
  | .dequeue t => (c, if dequeued t then [.completeStopped t] else [])
  | .completeStopped t =>
      (c, if op.joined t then [.emplace t .stopped] else [.deliver .stopped])
  | .run t args => (c.unregister (op.source t) (.trigger t), [.setValue t args])
  | .setValue .internal _ => ({ c with sequenced := true }, op.second)
  | .setValue (.scheduled k) args =>
      if op.joined (.scheduled k) then (c, [.emplace (.scheduled k) (.value (k, args))])
      else ({ c with fired := c.fired ++ [(k, args)] }, [.deliver (.value (k, args))])
  | .startAny =>
      if c.requested .whenAny then (c, [.deliver .stopped])
      else ({ c with count := op.scheds.length }, op.scheds.map fun k => .start (.scheduled k))
  | .emplace t comp =>
      ({ c with
          completions := WhenAny.firstNoncancelled.emplace comp c.completions
          fired := match comp with
            | .value p => c.fired ++ [p]
            | _ => c.fired },
        if WhenAny.firstNoncancelled.requestsStop comp then [.requestStop .whenAny, .countDown t]
        else [.countDown t])
  | .requestStop src =>
      if c.requested src then (c, [])
      else ({ c with requested := Function.update c.requested src true }, [.nextCb src])
  | .nextCb src =>
      match c.callbacks src with
      | [] => (c, [])
      | cb :: cbs =>
          ({ c with callbacks := Function.update c.callbacks src cbs }, [.callback cb, .nextCb src])
  | .countDown _ => ({ c with count := c.count - 1 }, if c.count - 1 = 0 then [.complete] else [])
  | .complete => (c.unregister .receiver .whenAny, [.decide])
  | .decide =>
      (c, if c.requested .receiver then [.deliver .stopped]
        else (c.completions.map Stmt.deliver).toList)
  | .deliver comp => ({ c with received := c.received ++ [comp] }, [])
  | .resetStopCb => (c.unregister .receiver .whenAny, [])

/-- The statement uses the operation on the internal trigger. -/
def Stmt.onInternal : Stmt ν β → Bool
  | .start .internal | .enqueue .internal | .emplaceStopCb (.trigger .internal)
  | .callback (.trigger .internal) | .dequeue .internal | .completeStopped .internal
  | .run .internal _ | .setValue .internal _ => true
  | _ => false

/-! ### The system -/

/-- The next statement of an activation of `trigger_manager::run`. -/
inductive Pc (α : Type*) where
  /-- `while (not std::empty(q))` -/
  | test
  /-- `auto &task = q.front()` -/
  | front
  /-- the section with `q.pop_front()` and `task.pending = false` -/
  | pop (task : α)
  /-- `task.run(args...)` -/
  | call (task : α)
  | inside (task : α)
  /-- `--task_count` -/
  | count (task : α)
  deriving DecidableEq

/-- What a manager queues: tasks of the operation, and tasks of others. -/
abbrev Queued (ν τ : Type*) := Task ν ⊕ τ

/-- `run` is an activation of `run` of the manager of `k`, with its local variable `q`;
`incite` calls the function `incite_on` was sent, which for `incite_on_any` runs the
internal trigger first; `invoke` calls the function the caller's sender sent; `inside` is
that function, and what it has fired. -/
inductive Frame (ν β τ : Type*) where
  | op (st : Stmt ν β)
  | run (k : ν) (args : Option β) (q : Queue (Queued ν τ)) (pc : Pc (Queued ν τ))
  | incite
  | invoke
  | inside (fired : List ν)

/-- The state of everything, the innermost frame first. Where it is not `defined` an object
was used that is not there, and nothing is said of what follows. -/
structure State (ν β τ : Type*) where
  core : Core ν β
  mgr : ν → Manager (Queued ν τ)
  stack : List (Frame ν β τ)
  defined : Bool

def State.init : State ν β τ := ⟨.init, fun _ => .init, [], true⟩

/-- `exec` executes the top frame. The others are calls: `run_triggers`, `enqueue` and
`dequeue` of a task of somebody else, `request_stop` of the receiver's stop source, and the
sending of the function to the operation. -/
inductive Event (ν β τ : Type*) where
  | exec
  | fire (k : ν) (rqp : RequeuePolicy) (args : Option β)
  | enqueue (k : ν) (x : τ)
  | dequeue (k : ν) (x : τ)
  | requestStop
  | send

variable [DecidableEq τ]

namespace State

def enterRun (s : State ν β τ) (k : ν) (rqp : RequeuePolicy) (args : Option β)
    (below : List (Frame ν β τ)) : State ν β τ :=
  { s with
    mgr := Function.update s.mgr k (rqp.getQueue (s.mgr k)).2
    stack := .run k args (rqp.getQueue (s.mgr k)).1 .test :: below }

/-- What `dequeue` returns for a task of the operation. -/
def dequeued (op : Adaptor ν) (s : State ν β τ) (t : Task ν) : Bool :=
  ((s.mgr (op.home t)).dequeue (.inl t)).1

/-- What a statement of the operation does to the managers. -/
def enqueues (op : Adaptor ν) (s : State ν β τ) : Stmt ν β → ν → Manager (Queued ν τ)
  | .enqueue t =>
      Function.update s.mgr (op.home t) ((s.mgr (op.home t)).enqueue (.inl t)).2
  | .dequeue t =>
      Function.update s.mgr (op.home t) ((s.mgr (op.home t)).dequeue (.inl t)).2
  | _ => s.mgr

/-- One statement of an activation of `run`, with the frames below it. -/
def execRun (s : State ν β τ) (k : ν) (args : Option β) (q : Queue (Queued ν τ))
    (below : List (Frame ν β τ)) : Pc (Queued ν τ) → State ν β τ
  | .test =>
      { s with stack :=
          if ((s.mgr k).ends q).head = none then below else .run k args q .front :: below }
  | .front =>
      match ((s.mgr k).ends q).head with
      | none => { s with defined := false }
      | some t => { s with stack := .run k args q (.pop t) :: below }
  | .pop t =>
      if ((s.mgr k).ends q).head = none then { s with defined := false }
      else { s with
        mgr := Function.update s.mgr k ((s.mgr k).popTask t q).2
        stack := .run k args ((s.mgr k).popTask t q).1 (.call t) :: below }
  | .call t =>
      { s with stack :=
          match t with
          | .inl u => .op (.run u args) :: .run k args q (.inside t) :: below
          | .inr _ => .run k args q (.inside t) :: below }
  | .inside t => { s with stack := .run k args q (.count t) :: below }
  | .count _ =>
      { s with
        mgr := Function.update s.mgr k { s.mgr k with taskCount := (s.mgr k).taskCount - 1 }
        stack := .run k args q .test :: below }

def exec (op : Adaptor ν) (s : State ν β τ) : Option (State ν β τ) :=
  match s.stack with
  | [] => none
  | .op st :: fs =>
      if s.core.sequenced && st.onInternal then some { s with defined := false }
      else some { s with
        core := (st.exec op (s.dequeued op) s.core).1
        mgr := s.enqueues op st
        stack := (st.exec op (s.dequeued op) s.core).2.map .op ++ fs }
  | .run k args q pc :: fs => some (s.execRun k args q fs pc)
  | .incite :: fs =>
      match op.uniq with
      | none => some { s with stack := .invoke :: fs }
      | some u => some (s.enterRun u .deferred none (.invoke :: fs))
  | .invoke :: fs => some { s with stack := .inside [] :: fs }
  | .inside _ :: fs => some { s with stack := fs }

/-- The function notes what it fires. -/
def noting (k : ν) : List (Frame ν β τ) → List (Frame ν β τ)
  | .inside ks :: fs => .inside (k :: ks) :: fs
  | fs => fs

end State

def step (op : Adaptor ν) (s : State ν β τ) (e : Event ν β τ) : Option (State ν β τ) :=
  if s.defined then
    match e with
    | .exec => s.exec op
    | .fire k rqp args => some (s.enterRun k rqp args (State.noting k s.stack))
    | .enqueue k x =>
        some { s with mgr := Function.update s.mgr k ((s.mgr k).enqueue (.inr x)).2 }
    | .dequeue k x =>
        some { s with mgr := Function.update s.mgr k ((s.mgr k).dequeue (.inr x)).2 }
    | .requestStop => some { s with stack := .op (.requestStop .receiver) :: s.stack }
    | .send =>
        if s.core.sent then none
        else some { s with
          core := { s.core with sent := true }
          stack := op.first.map .op ++ .incite :: s.stack }
  else none

end BaremetalSenders.InciteOn
