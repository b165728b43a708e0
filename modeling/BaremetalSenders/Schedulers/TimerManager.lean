import BaremetalSenders.Foundation.Ledger
import Mathlib.Logic.Function.Basic

/-!
`generic_timer_manager`: `run_after`, `run_at`, `cancel` and `service_task` over
a timer HAL.

Every public function is one critical section, except that `service_task` runs
the task it has popped and decrements the counter outside of it. The state
therefore has, next to the manager, the tasks that some activation of
`service_task` has popped and not begun to run, and those whose `run` has not
been accounted as finished. Any of these activations can take its next step at
any time and any function can be called between any two steps, so a run of the
system is a run with nested calls and with interrupts between critical sections.

Time points only carry the operations the manager uses: the comparison, which
tasks inherit from their expiration times, and the addition of a duration.
-/

namespace BaremetalSenders.Timer

variable {α τ δ : Type*}

/-- A call of a HAL function with what it returned. `enableFor` is the fused
`enable(duration)`. -/
inductive HalCall (τ δ : Type*) where
  | enable
  | enableFor (d : δ) (tp : τ)
  | now (tp : τ)
  | setEventTime (tp : τ)
  | disable
  deriving DecidableEq

/-- `compute_expiration` of an expiration provider: it may read the clock any number
of times before it answers. -/
inductive ExpirationProvider (τ : Type*) where
  | answer (tp : τ)
  | now (k : τ → ExpirationProvider τ)

/-- The answer of the provider when the clock reads `readings`, exactly these. -/
def ExpirationProvider.computeExpiration : ExpirationProvider τ → List τ → Option τ
  | .answer tp, [] => some tp
  | .now k, r :: rs => (k r).computeExpiration rs
  | _, _ => none

/-- Whatever it is told, it answers. -/
theorem ExpirationProvider.exists_readings (reading : τ) (ep : ExpirationProvider τ) :
    ∃ readings tp, ep.computeExpiration readings = some tp := by
  induction ep with
  | answer tp => exact ⟨[], tp, rfl⟩
  | now k ih =>
      obtain ⟨readings, tp, h⟩ := ih reading
      exact ⟨reading :: readings, tp, h⟩

/-- The state of the manager, the fields of its tasks, and the calls it has made to
the HAL so far. Tasks are only ever linked into `task_queue`, at most once, so the
queue is a list. -/
structure Manager (α τ δ : Type*) where
  pending : α → Bool
  expirationTime : α → τ
  taskQueue : List α
  taskCount : Int
  hal : List (HalCall τ δ)

namespace Manager

def init (expirationTime : α → τ) : Manager α τ δ where
  pending := fun _ => false
  expirationTime := expirationTime
  taskQueue := []
  taskCount := 0
  hal := []

def call (m : Manager α τ δ) (cs : List (HalCall τ δ)) : Manager α τ δ :=
  { m with hal := m.hal ++ cs }

variable [DecidableEq α]

/-- `t->expiration_time = tp`. -/
def setExpirationTime (m : Manager α τ δ) (t : α) (tp : τ) : Manager α τ δ :=
  { m with expirationTime := Function.update m.expirationTime t tp }

/-- The private `enqueue`: find the first task that `*t` is less than, tell the HAL
when that is the front of the queue, insert before it. -/
def enqueue [LT τ] [DecidableLT τ] (m : Manager α τ δ) (t : α) : Manager α τ δ :=
  let notGreater := fun u => ¬ m.expirationTime t < m.expirationTime u
  let before := m.taskQueue.takeWhile notGreater
  let pos := m.taskQueue.dropWhile notGreater
  let m := if before = [] then m.call [.setEventTime (m.expirationTime t)] else m
  { m with taskQueue := before ++ t :: pos }

omit [DecidableEq α] in
def computeNextEvent (m : Manager α τ δ) : Manager α τ δ :=
  match m.taskQueue with
  | [] => m.call [.disable]
  | u :: _ => m.call [.setEventTime (m.expirationTime u)]

/-- `schedule_at`. On an empty queue the task is linked before its expiration time is
known. -/
def scheduleAt [LT τ] [DecidableLT τ] (m : Manager α τ δ) (t : α) (ep : ExpirationProvider τ)
    (readings : List τ) : Option (Manager α τ δ) :=
  (ep.computeExpiration readings).map fun tp =>
    if m.taskQueue = [] then
      let m := { m with taskQueue := m.taskQueue ++ [t] }
      let m := m.call [.enable]
      let m := (m.call (readings.map .now)).setExpirationTime t tp
      m.call [.setEventTime (m.expirationTime t)]
    else
      let m := (m.call (readings.map .now)).setExpirationTime t tp
      m.enqueue t

/-- `schedule_after`, for a HAL with a fused `enable(duration)` and for one without;
`reading` is what the clock shows. -/
def scheduleAfter [LT τ] [DecidableLT τ] [HAdd τ δ τ] (fused : Bool) (m : Manager α τ δ) (t : α)
    (d : δ) (reading : τ) : Manager α τ δ :=
  if m.taskQueue = [] then
    let m := { m with taskQueue := m.taskQueue ++ [t] }
    if fused then
      (m.call [.enableFor d (reading + d)]).setExpirationTime t (reading + d)
    else
      let m := m.call [.enable]
      let m := (m.call [.now reading]).setExpirationTime t (reading + d)
      m.call [.setEventTime (m.expirationTime t)]
  else
    let m := (m.call [.now reading]).setExpirationTime t (reading + d)
    m.enqueue t

def runAfter [LT τ] [DecidableLT τ] [HAdd τ δ τ] (fused : Bool) (m : Manager α τ δ) (t : α) (d : δ)
    (reading : τ) : Bool × Manager α τ δ :=
  let added := !m.pending t
  let m := { m with pending := Function.update m.pending t true }
  if added then
    (true, scheduleAfter fused { m with taskCount := m.taskCount + 1 } t d reading)
  else (false, m)

/-- `run_at`; `none` when the provider does not consume these clock readings. -/
def runAt [LT τ] [DecidableLT τ] (m : Manager α τ δ) (t : α) (ep : ExpirationProvider τ)
    (readings : List τ) : Option (Bool × Manager α τ δ) :=
  let added := !m.pending t
  let m := { m with pending := Function.update m.pending t true }
  if added then
    (scheduleAt { m with taskCount := m.taskCount + 1 } t ep readings).map (Prod.mk true)
  else some (false, m)

def cancel (m : Manager α τ δ) (t : α) : Bool × Manager α τ δ :=
  if m.pending t then
    (true, computeNextEvent { m with
      taskQueue := m.taskQueue.erase t
      pending := Function.update m.pending t false
      taskCount := m.taskCount - 1 })
  else (false, m)

/-- The critical section of `service_task`, with the task it popped. -/
def popTask (m : Manager α τ δ) : Option α × Manager α τ δ :=
  match m.taskQueue with
  | [] => (none, m)
  | n :: rest =>
      (some n, computeNextEvent { m with
        taskQueue := rest
        pending := Function.update m.pending n false })

def isIdle (m : Manager α τ δ) : Bool := m.taskCount == 0

end Manager

/-- The manager and the activations of `service_task` in progress, each known by the
task it popped. -/
structure State (α τ δ : Type*) where
  mgr : Manager α τ δ
  popped : List α
  running : List α

def State.init (expirationTime : α → τ) : State α τ δ := ⟨.init expirationTime, [], []⟩

/-- What is observed. `service` is the critical section of `service_task`, `run` the
call of the popped task and `finish` its return with the decrement. -/
inductive Event (α τ δ : Type*) where
  | runAfter (t : α) (d : δ) (reading : τ) (added : Bool)
  | runAt (t : α) (ep : ExpirationProvider τ) (readings : List τ) (added : Bool)
  | cancel (t : α) (cancelled : Bool)
  | service (t : Option α)
  | run (t : α)
  | finish (t : α)

variable [DecidableEq α] [LT τ] [DecidableLT τ] [HAdd τ δ τ]

/-- One step of the system, for a HAL with or without the fused `enable`. -/
def step (fused : Bool) (s : State α τ δ) : Event α τ δ → Option (State α τ δ)
  | .runAfter t d reading added =>
      if (s.mgr.runAfter fused t d reading).1 = added then
        some { s with mgr := (s.mgr.runAfter fused t d reading).2 }
      else none
  | .runAt t ep readings added =>
      (s.mgr.runAt t ep readings).bind fun (b, m) =>
        if b = added then some { s with mgr := m } else none
  | .cancel t cancelled =>
      if (s.mgr.cancel t).1 = cancelled then some { s with mgr := (s.mgr.cancel t).2 } else none
  | .service t =>
      if s.mgr.popTask.1 = t then
        some { s with mgr := s.mgr.popTask.2, popped := t.toList ++ s.popped }
      else none
  | .run t =>
      if t ∈ s.popped then
        some { s with popped := s.popped.erase t, running := t :: s.running }
      else none
  | .finish t =>
      if t ∈ s.running then
        some { s with
          mgr := { s.mgr with taskCount := s.mgr.taskCount - 1 }
          running := s.running.erase t }
      else none

end BaremetalSenders.Timer
