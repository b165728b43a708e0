import BaremetalSenders.Foundation.Run
import Mathlib.Logic.Function.Basic

/-!
`inplace_stop_source` and `inplace_stop_callback`.

Any number of calls of `request_stop` are in progress, and any number of
callbacks are being constructed and destroyed, in as many contexts, or nested
in one another inside the callbacks; each of them can take its next step at any
time. A step is an atomic operation or a critical section. The flag `requested`
is exchanged outside of the critical sections, so the one of `register_callback`,
which reads the flag and then acts on it, is two steps with the mutex held in
between; the others do not read it and are one step each, taken while nobody
holds the mutex.
-/

namespace BaremetalSenders.StopToken

/-- Where a call of `request_stop` is; in the loop it has popped a callback, or is inside
its `run`. -/
inductive Call (κ : Type*) where
  | idle
  | draining
  | popped (cb : κ)
  | running (cb : κ)
  | returned (won : Bool)
  deriving DecidableEq

def Call.isRunning {κ : Type*} : Call κ → Bool
  | .running _ => true
  | _ => false

def Call.isReturned {κ : Type*} : Call κ → Bool
  | .returned _ => true
  | _ => false

/-- The life of a callback object. The constructor ends in `registered`; or it finds
itself `refused`, calls the callback and ends in `constructed`. -/
inductive Life where
  | unborn
  | constructing
  | registered
  | refused
  | invoking
  | constructed
  | destroyed
  deriving DecidableEq

/-- The members of `inplace_stop_source`. -/
structure Source (κ : Type*) where
  requested : Bool
  callbacks : List κ

/-- The source, the callbacks and the calls. `mutex` is held by the registration of a
callback that has read `requested`. -/
structure State (κ ρ : Type*) where
  source : Source κ
  mutex : Option (κ × Bool)
  pending : κ → Bool
  life : κ → Life
  calls : ρ → Call κ

variable {κ ρ : Type*}

def Source.init : Source κ := ⟨false, []⟩

def State.init : State κ ρ where
  source := .init
  mutex := none
  pending := fun _ => false
  life := fun _ => .unborn
  calls := fun _ => .idle

/-- The steps of `request_stop` (the exchange, the critical section of `get_next_cb`, the
begin and the end of a callback's `run`), of the constructor of a callback (the critical
section of `register_callback` with the result, the begin and the end of the inline call),
and of its destructor, with whether the callback was in the list. -/
inductive Label (κ ρ : Type*) where
  | exchange (r : ρ)
  | getNextCb (r : ρ) (cb : Option κ)
  | run (r : ρ) (cb : κ)
  | ran (r : ρ) (cb : κ)
  | enterRegister (cb : κ)
  | leaveRegister (cb : κ) (registered : Bool)
  | invoke (cb : κ)
  | invoked (cb : κ)
  | unregister (cb : κ) (removed : Bool)
  deriving DecidableEq

variable [DecidableEq κ] [DecidableEq ρ]

namespace State

def setCall (s : State κ ρ) (r : ρ) (c : Call κ) : State κ ρ :=
  { s with calls := Function.update s.calls r c }

def setLife (s : State κ ρ) (cb : κ) (l : Life) : State κ ρ :=
  { s with life := Function.update s.life cb l }

/-- `callbacks.pop_front(); cb->pending = false`. -/
def popFront (s : State κ ρ) (cb : κ) : State κ ρ :=
  { s with
    source := { s.source with callbacks := s.source.callbacks.tail }
    pending := Function.update s.pending cb false }

/-- `callbacks.push_back(cb); cb->pending = true`. -/
def pushBack (s : State κ ρ) (cb : κ) : State κ ρ :=
  { s with
    source := { s.source with callbacks := s.source.callbacks ++ [cb] }
    pending := Function.update s.pending cb true }

/-- `if (std::exchange(cb->pending, false)) callbacks.remove(cb)`. -/
def unregisterCallback (s : State κ ρ) (cb : κ) : State κ ρ :=
  { s with
    source := { s.source with
      callbacks := if s.pending cb then s.source.callbacks.erase cb else s.source.callbacks }
    pending := Function.update s.pending cb false }

section Simp

variable (s : State κ ρ) (r : ρ) (c : Call κ) (cb : κ) (l : Life)

section

omit [DecidableEq κ]

@[simp] theorem setCall_calls : (s.setCall r c).calls = Function.update s.calls r c := rfl
@[simp] theorem setCall_source : (s.setCall r c).source = s.source := rfl
@[simp] theorem setCall_mutex : (s.setCall r c).mutex = s.mutex := rfl
@[simp] theorem setCall_life : (s.setCall r c).life = s.life := rfl

end

section

omit [DecidableEq ρ]

@[simp] theorem setLife_life : (s.setLife cb l).life = Function.update s.life cb l := rfl
@[simp] theorem setLife_source : (s.setLife cb l).source = s.source := rfl
@[simp] theorem setLife_mutex : (s.setLife cb l).mutex = s.mutex := rfl
@[simp] theorem setLife_calls : (s.setLife cb l).calls = s.calls := rfl
@[simp] theorem popFront_calls : (s.popFront cb).calls = s.calls := rfl
@[simp] theorem popFront_callbacks :
    (s.popFront cb).source.callbacks = s.source.callbacks.tail := rfl
@[simp] theorem pushBack_calls : (s.pushBack cb).calls = s.calls := rfl
@[simp] theorem pushBack_callbacks :
    (s.pushBack cb).source.callbacks = s.source.callbacks ++ [cb] := rfl
@[simp] theorem unregisterCallback_calls : (s.unregisterCallback cb).calls = s.calls := rfl

end

end Simp

end State

def step (s : State κ ρ) : Label κ ρ → Option (State κ ρ)
  | .exchange r =>
      if s.calls r = .idle then
        some { s.setCall r (if s.source.requested then .returned false else .draining) with
          source := { s.source with requested := true } }
      else none
  | .getNextCb r cb =>
      if s.calls r = .draining ∧ s.mutex = none ∧ s.source.callbacks.head? = cb then
        match cb with
        | none => some (s.setCall r (.returned true))
        | some cb => some ((s.popFront cb).setCall r (.popped cb))
      else none
  | .run r cb => if s.calls r = .popped cb then some (s.setCall r (.running cb)) else none
  | .ran r cb => if s.calls r = .running cb then some (s.setCall r .draining) else none
  | .enterRegister cb =>
      if s.life cb = .unborn ∧ s.mutex = none then
        some { s.setLife cb .constructing with mutex := some (cb, s.source.requested) }
      else none
  | .leaveRegister cb registered =>
      if s.mutex = some (cb, !registered) then
        if registered then
          some { (s.pushBack cb).setLife cb .registered with mutex := none }
        else some { s.setLife cb .refused with mutex := none }
      else none
  | .invoke cb => if s.life cb = .refused then some (s.setLife cb .invoking) else none
  | .invoked cb => if s.life cb = .invoking then some (s.setLife cb .constructed) else none
  | .unregister cb removed =>
      if (s.life cb = .registered ∨ s.life cb = .constructed) ∧ s.mutex = none ∧
          s.pending cb = removed then
        some ((s.unregisterCallback cb).setLife cb .destroyed)
      else none

end BaremetalSenders.StopToken
