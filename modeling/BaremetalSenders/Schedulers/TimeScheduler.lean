import BaremetalSenders.Schedulers.TimerManager
import BaremetalSenders.StopToken.StopSource

/-!
`time_scheduler`: the operation state of a receiver whose token can be stopped.

The operation is itself a task of the timer manager. `start` looks at the
token, schedules the task and then emplaces the stop callback, which cancels
the task; `service_task` runs it. A state holds the whole timer manager and the
whole stop source, with their other tasks, callbacks and callers, who take
their steps whenever they like. Between any two critical sections or atomic
accesses of `start` and of the callback the others can take steps: the task may
be served before the callback is there, and stop may be requested at any time,
so that the callback is called by `request_stop` or by its own constructor.
-/

namespace BaremetalSenders.TimeScheduler

variable {α τ δ κ ρ : Type*}

inductive Completion where
  | value
  | stopped
  deriving DecidableEq

/-- `DurationExpirationPolicy` and `TimepointExpirationPolicy`; the second one has the
expiration provider that is in the receiver's environment. -/
inductive ExpirationPolicy (τ δ : Type*) where
  | duration (d : δ)
  | timepoint (ep : Timer.ExpirationProvider τ)

/-- The call of the timer manager made by `schedule` when the clock reads `readings`. -/
def ExpirationPolicy.schedule (policy : ExpirationPolicy τ δ) (t : α) (readings : List τ)
    (added : Bool) : Option (Timer.Event α τ δ) :=
  match policy, readings with
  | .duration d, [reading] => some (.runAfter t d reading added)
  | .duration _, _ => none
  | .timepoint ep, _ => some (.runAt t ep readings added)

/-- The operation: the task it is, and the object in the optional `stop_cb`. -/
structure Op (α κ τ δ : Type*) where
  task : α
  stopCb : κ
  policy : ExpirationPolicy τ δ

/-- How far `start` is. It found stop requested (`stopping`) or not (`checked`), it is in
front of `emplace` (`scheduled`) or in the callback's constructor, or it is back from one
of the two branches. -/
inductive Start where
  | connected
  | stopping
  | checked
  | scheduled
  | emplacing
  | returned (scheduled : Bool)
  deriving DecidableEq

def Start.hasReturned : Start → Bool
  | .returned _ => true
  | _ => false

/-- How far the call operator of `stop_callback_fn` is: in front of `cancel`, or of
`set_stopped`, or at its end. -/
inductive StopCallback where
  | idle
  | called
  | cancelled
  | done
  deriving DecidableEq

structure State (α τ δ κ ρ : Type*) where
  start : Start
  stopCallback : StopCallback
  received : List Completion
  timer : Timer.State α τ δ
  source : StopToken.State κ ρ

def State.init (expirationTime : α → τ) : State α τ δ κ ρ where
  start := .connected
  stopCallback := .idle
  received := []
  timer := .init expirationTime
  source := .init

/-- The steps of `start` and of the stop callback; those of the timer manager, of which the
call of the task's `run` completes the receiver; and those of the stop source. -/
inductive Label (α τ δ κ ρ : Type*) where
  | check (stopRequested : Bool)
  | setStopped
  | schedule (readings : List τ) (added : Bool)
  | startReturn
  | cancel (cancelled : Bool)
  | callbackSetStopped
  | timer (e : Timer.Event α τ δ)
  | source (l : StopToken.Label κ ρ)

section Steps

variable [DecidableEq α] [DecidableEq κ]

def Op.owns (op : Op α κ τ δ) : Timer.Event α τ δ → Bool
  | .runAfter t _ _ _ | .runAt t _ _ _ | .cancel t _ => t == op.task
  | _ => false

def Op.run (op : Op α κ τ δ) : Timer.Event α τ δ → List Completion
  | .run t => if t = op.task then [.value] else []
  | _ => []

/-- The constructor of the callback is entered by `start`; a call of the callback returns when
its body is done; the operation is destroyed, and the callback with it, when `start` is
back and the receiver has been completed. -/
def State.admits (s : State α τ δ κ ρ) (op : Op α κ τ δ) : StopToken.Label κ ρ → Bool
  | .enterRegister cb => cb != op.stopCb || s.start == .scheduled
  | .ran _ cb | .invoked cb => cb != op.stopCb || s.stopCallback == .done
  | .unregister cb _ => cb != op.stopCb || s.start.hasReturned && !s.received.isEmpty
  | _ => true

/-- What the operation does at a step of the stop source. -/
def State.follow (s : State α τ δ κ ρ) (op : Op α κ τ δ) :
    StopToken.Label κ ρ → State α τ δ κ ρ
  | .enterRegister cb => if cb = op.stopCb then { s with start := .emplacing } else s
  | .run _ cb | .invoke cb => if cb = op.stopCb then { s with stopCallback := .called } else s
  | _ => s

/-- `emplace` is through with the constructor. -/
def State.emplaced (s : State α τ δ κ ρ) (op : Op α κ τ δ) : Bool :=
  s.source.life op.stopCb == .registered || s.source.life op.stopCb == .constructed

variable [DecidableEq ρ] [LT τ] [DecidableLT τ] [HAdd τ δ τ]

def step (fused : Bool) (op : Op α κ τ δ) (s : State α τ δ κ ρ) :
    Label α τ δ κ ρ → Option (State α τ δ κ ρ)
  | .check stopRequested =>
      if s.start = .connected ∧ s.source.source.requested = stopRequested then
        some { s with start := if stopRequested then .stopping else .checked }
      else none
  | .setStopped =>
      if s.start = .stopping then
        some { s with start := .returned false, received := s.received ++ [.stopped] }
      else none
  | .schedule readings added =>
      if s.start = .checked then
        (op.policy.schedule op.task readings added).bind fun e =>
          (Timer.step fused s.timer e).map fun timer => { s with start := .scheduled, timer }
      else none
  | .startReturn =>
      if s.start = .emplacing ∧ s.emplaced op then some { s with start := .returned true }
      else none
  | .cancel cancelled =>
      if s.stopCallback = .called then
        (Timer.step fused s.timer (.cancel op.task cancelled)).map fun timer =>
          { s with stopCallback := if cancelled then .cancelled else .done, timer }
      else none
  | .callbackSetStopped =>
      if s.stopCallback = .cancelled then
        some { s with stopCallback := .done, received := s.received ++ [.stopped] }
      else none
  | .timer e =>
      if op.owns e then none
      else
        (Timer.step fused s.timer e).map fun timer =>
          { s with timer, received := s.received ++ op.run e }
  | .source l =>
      if s.admits op l then
        (StopToken.step s.source l).map fun source => { s.follow op l with source }
      else none

end Steps

end BaremetalSenders.TimeScheduler
