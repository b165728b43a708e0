import BaremetalSenders.Foundation.Resumption
import BaremetalSenders.Senders.Sequential

/-!
Senders of schedulers, and sequential expressions made with them.

There are four schedulers whose operations wait to be executed and are not cancelled in the
queue: `inline_scheduler`, which does not wait, `thread_scheduler`, `fixed_priority_scheduler`
and the scheduler of a `run_loop`. Who takes an operation from its queue and runs it is a
context: a thread, who calls `service_tasks` for a priority, or who calls `run` of a loop. The
functions that are passed to adaptors are executed in the context that completes, and may
depend on it. They change a world that all contexts share, so a sender means a resumption.

`fixed_priority_scheduler` looks at the stop token in `start` and when the task is run,
`run_loop` when the operation is executed, the others never. Where the token of a receiver is
one that cannot be stopped there is no check; it is a token that is never stopped here.
-/

namespace BaremetalSenders.Scheduled

open Repeat (Channel)
open BaremetalSenders.Sequential (Completion)

variable {ι ℓ K V W : Type*}

/-! ### Schedulers -/

/-- What an operation can wait for; the loops are those of type `ℓ`. -/
inductive Executor (ℓ : Type*) where
  | thread
  | priority (p : ℕ)
  | runLoop (l : ℓ)
  deriving DecidableEq

inductive Scheduler (ℓ : Type*) where
  | inline
  | executor (e : Executor ℓ)
  deriving DecidableEq

/-- Who executes. A thread that was made for the operation `i` is gone when it has made the
next one. The context that runs a loop may not do so yet, or not any more. -/
inductive Context (ι ℓ : Type*) where
  | thread (i : ι)
  | priority (p : ℕ)
  | runLoop (l : ℓ)
  deriving DecidableEq

/-- The context that executes what waits for the executor in the operation `i`. -/
def Executor.context (i : ι) : Executor ℓ → Context ι ℓ
  | .thread => .thread i
  | .priority p => .priority p
  | .runLoop l => .runLoop l

/-- `get_stop_token(get_env(rcvr)).stop_requested()` is asked when the operation is executed. -/
def Executor.checks : Executor ℓ → Bool
  | .thread => false
  | .priority _ | .runLoop _ => true

/-- `get_completion_scheduler<Tag>` of the attributes of what `schedule` returns: all have one
for values, and that of a loop is also for set_stopped. -/
def Scheduler.completionScheduler (sched : Scheduler ℓ) : Channel → Option (Scheduler ℓ)
  | .value => some sched
  | .error => none
  | .stopped =>
      match sched with
      | .executor (.runLoop _) => some sched
      | _ => none

/-! ### Senders -/

/-- The senders. The functions are given as in `Sequential.Sender`, with the context that calls
them. -/
inductive Sender (ℓ K V W : Type*) where
  | just (c : Completion V)
  | schedule (sched : Scheduler ℓ)
  | «then» (handle complete : Channel) (s : Sender ℓ K V W) (fs : K → List V → W → List V × W)
  | «let» (tags : Channel → Bool) (s : Sender ℓ K V W)
      (fn : Channel → List V → K → W → Sender ℓ K V W) (effect : Channel → List V → K → W → W)
  | sequence (s : Sender ℓ K V W) (func : K → W → Sender ℓ K V W) (effect : K → W → W)

namespace Sender

def just_ (vs : List V) : Sender ℓ K V W := .just (.value vs)

def then_ (s : Sender ℓ K V W) (fs : K → List V → W → List V × W) : Sender ℓ K V W :=
  .then .value .value s fs

def uponStopped (s : Sender ℓ K V W) (f : K → W → List V × W) : Sender ℓ K V W :=
  .then .stopped .value s fun k _ => f k

def letValue (s : Sender ℓ K V W) (fn : List V → K → W → Sender ℓ K V W)
    (effect : List V → K → W → W) : Sender ℓ K V W :=
  .let (· == .value) s (fun _ => fn) fun _ => effect

/-- `seq` of one sender: the `wrapper` returns the sender that it was given. -/
def seq (s next : Sender ℓ K V W) : Sender ℓ K V W :=
  .sequence s (fun _ _ => next) fun _ w => w

/-- `start_on`: `sched.schedule() | seq(s)` -/
def startOn (sched : Scheduler ℓ) (s : Sender ℓ K V W) : Sender ℓ K V W :=
  seq (.schedule sched) s

/-- `continue_on`: `s | let_value(f)`, where `f` returns `start_on(sch, just(args...))`. -/
def continueOn (s : Sender ℓ K V W) (sched : Scheduler ℓ) : Sender ℓ K V W :=
  letValue s (fun args _ _ => startOn sched (just_ args)) fun _ _ w => w

/-- `get_completion_scheduler<Tag>` of the attributes of a sender. `then` and its like forward
what the sender has that they adapt. -/
def completionScheduler : Sender ℓ K V W → Channel → Option (Scheduler ℓ)
  | .schedule sched, tag => sched.completionScheduler tag
  | .then _ _ s _, tag => s.completionScheduler tag
  | _, _ => none

/-- There is an `upon_stopped` among the adaptors that forward attributes. -/
def handlesStopped : Sender ℓ K V W → Bool
  | .then handle _ s _ => handle == .stopped || s.handlesStopped
  | _ => false

end Sender

/-! ### What they mean -/

abbrev Behaviour (ℓ K V W : Type*) := Resumption K (Executor ℓ) W (Completion V)

/-- What `run` and `execute` of an operation complete with: after a check of the stop token, if
there is one. -/
def Executor.completed (e : Executor ℓ) : Behaviour ℓ K V W :=
  if e.checks then .ask fun stopped => .done (if stopped then .stopped else .value [])
  else .done (.value [])

/-- What `start` of the operation of a scheduler comes to complete with. -/
def Scheduler.completed : Scheduler ℓ → Behaviour ℓ K V W
  | .inline => .done (.value [])
  | .executor (.priority p) =>
      .ask fun stopped =>
        if stopped then .done .stopped else .hop (.priority p) (Executor.priority p).completed
  | .executor e => .hop e e.completed

/-- The call of a function that is passed to `then` and its like, with the completion after it. -/
def calling (complete : Channel) (fs : K → List V → W → List V × W) (args : List V) :
    Behaviour ℓ K V W :=
  .act (fun k w => (fs k args w).2) fun k w => .done (.mk (fs k args w).1 complete)

def denote : Sender ℓ K V W → Behaviour ℓ K V W
  | .just c => .done c
  | .schedule sched => sched.completed
  | .then tag complete s fs =>
      (denote s).handle (fun c => c.channel == tag) fun c => calling complete fs c.args
  | .let tags s fn effect =>
      (denote s).handle (fun c => tags c.channel) fun c =>
        .act (fun k w => effect c.channel c.args k w) fun k w => denote (fn c.channel c.args k w)
  | .sequence s func effect =>
      (denote s).handle (fun c => c.channel == .value) fun _ =>
        .act (fun k w => effect k w) fun k w => denote (func k w)

end BaremetalSenders.Scheduled
