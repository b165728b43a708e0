import BaremetalSenders.Adaptors.WhenAny
import BaremetalSenders.Schedulers.TimeScheduler

/-!
`timeout_after`: a `stop_when` of the sender with a `time_scheduler` that goes
on to a `just`.

`stop_when` is `when_any` with the policy `first_complete` and the trigger as
its first child. So a state is one of the operation state of that `when_any`
and one of the `time_scheduler` operation, whose stop source is the one in the
`when_any`; the two take their steps together where a child's completion or the
stop callback calls `request_stop`, and where the receiver of the
`time_scheduler` operation is completed: `sequence` then starts the `just`, or
passes the set_stopped on, and both end in `emplace`. The other child may do
anything that its signatures admit, with callbacks of its own at the stop
source, and the timer manager has other tasks.

`sequence` constructs the second operation where the first one is. So the
`time_scheduler` operation is destroyed by the call that its own task makes, and
it is a fault when `start` or the stop callback goes on with it after that.
Nothing is known of what comes after a fault. The other objects stay where they
are here.
-/

namespace BaremetalSenders.TimeoutAfter

open Join

variable {α τ δ κ V E : Type*}

/-- Who calls `request_stop` on the source of the `when_any`: its stop callback, or a child
that completes. -/
abbrev Caller := Option (Fin 2)

/-- The operation of the timer, and the completion `just` has been given. -/
structure Op (α κ τ δ V E : Type*) where
  timer : TimeScheduler.Op α κ τ δ
  completion : Completion V E

/-- What the first child completes with, from what the `time_scheduler` operation sends. -/
def Op.sends (op : Op α κ τ δ V E) : TimeScheduler.Completion → Completion V E
  | .value => op.completion
  | .stopped => .stopped

abbrev anyOps (V E : Type*) : Ops 2 V E (Option (Completion V E)) :=
  WhenAny.opState 2 WhenAny.firstComplete

/-- `destroyed` says that the `time_scheduler` operation has been destroyed, and `fault` that
it was touched then. -/
structure State (α τ δ κ V E : Type*) where
  any : Join.State 2 V E (Option (Completion V E))
  timeout : TimeScheduler.State α τ δ κ Caller
  destroyed : Bool
  fault : Bool

def State.init (expirationTime : α → τ) : State α τ δ κ V E where
  any := (anyOps V E).initial
  timeout := .init expirationTime
  destroyed := false
  fault := false

/-- The steps of the `when_any`, with the completions of its second child; the destruction of
the first operation by `emplace<1>` while it has no stop callback yet; the first child's
completion; and the steps of the `time_scheduler` operation, of the timer manager and of the
stop source. Where there is a stop callback, its destructor's section is the destruction. -/
inductive Label (α τ δ κ V E : Type*) where
  | any (l : Join.Label 2 V E)
  | destroy
  | send (r : TimeScheduler.Completion)
  | timeout (l : TimeScheduler.Label α τ δ κ Caller)

/-- The call of `request_stop` a step of the `when_any` begins. -/
def requestOf : Join.Label 2 V E → Option Caller
  | .runStopCb => some none
  | .act i => some (some i)
  | _ => none

/-- The children are started one after the other; a child's `emplace` goes on when its call of
`request_stop` has returned. -/
def State.admitsAny (s : State α τ δ κ V E) : Join.Label 2 V E → Bool
  | .startChild i => i == 0 || s.timeout.start.hasReturned
  | .complete i _ => i != 0
  | .leave i => (s.timeout.source.calls (some i)).isReturned
  | _ => true

section Steps

variable [DecidableEq α] [DecidableEq κ]

/-- `start` of the first child is called by the `when_any`, and so is `request_stop`;
`service_task` goes on when the completion of the receiver has returned. -/
def State.admits (s : State α τ δ κ V E) (op : Op α κ τ δ V E) :
    TimeScheduler.Label α τ δ κ Caller → Bool
  | .check _ => !(s.any.phase 0).isIdle
  | .source (.exchange _) => false
  | .timer (.finish t) => t != op.timer.task || (s.any.phase 0).returned
  | _ => true

omit [DecidableEq α] in
/-- The destructor of the stop callback. -/
def Op.destroys (op : Op α κ τ δ V E) : TimeScheduler.Label α τ δ κ Caller → Bool
  | .source (.unregister cb _) => cb == op.timer.stopCb
  | _ => false

omit [DecidableEq α] in
/-- The steps in which `start`, the stop callback or the stop source on its behalf read or
write a member of the `time_scheduler` operation. -/
def Op.touches (op : Op α κ τ δ V E) : TimeScheduler.Label α τ δ κ Caller → Bool
  | .check _ | .setStopped | .schedule _ _ | .startReturn | .cancel _ | .callbackSetStopped => true
  | .source (.enterRegister cb) | .source (.leaveRegister cb _) | .source (.invoke cb)
  | .source (.getNextCb _ (some cb)) | .source (.run _ cb) => cb == op.timer.stopCb
  | _ => false

variable [LT τ] [DecidableLT τ] [HAdd τ δ τ]

def act (fused : Bool) (op : Op α κ τ δ V E) (s : State α τ δ κ V E) :
    Label α τ δ κ V E → Option (State α τ δ κ V E)
  | .any l =>
      if s.admitsAny l then
        (Join.step (anyOps V E) s.any l).bind fun any =>
          match requestOf l with
          | none => some { s with any }
          | some r =>
              (TimeScheduler.step fused op.timer s.timeout (.source (.exchange r))).map
                fun timeout => { s with any, timeout }
      else none
  | .destroy =>
      if s.timeout.received = [.value] ∧ s.timeout.start.hasReturned = false ∧
          s.destroyed = false then
        some { s with destroyed := true }
      else none
  | .send r =>
      if s.timeout.received = [r] ∧ (r = .value → s.destroyed = true) then
        (Join.step (anyOps V E) s.any (.complete 0 (op.sends r))).map fun any => { s with any }
      else none
  | .timeout l =>
      if s.admits op l then
        (TimeScheduler.step fused op.timer s.timeout l).map fun timeout =>
          { s with
            timeout
            destroyed := s.destroyed || op.destroys l
            fault := s.destroyed && op.touches l }
      else none

def step (fused : Bool) (op : Op α κ τ δ V E) (s : State α τ δ κ V E)
    (l : Label α τ δ κ V E) : Option (State α τ δ κ V E) :=
  if s.fault then none else act fused op s l

end Steps

end BaremetalSenders.TimeoutAfter
