import BaremetalSenders.Foundation.Run
import Mathlib.Algebra.GroupWithZero.Nat
import Mathlib.Logic.Function.Basic

/-!
The operation states of `when_any` and `when_all`.

Both start all their children, wait until each of them has completed, and then
complete the receiver. They share the counter `count`, the stop source the
children's tokens belong to, the callback that forwards a stop request from the
receiver's token to this source, and `start`. They differ in what a child's
completion stores, in whether it requests stop, and in how `complete` chooses
what the receiver gets. The shared part is here, with the rest as the
parameters of `Ops`.

What a child does between its start and its completion is not modelled: it may
complete in any way its signatures admit at any time after it was started,
inside its `start`, inside somebody's `request_stop` or in another context. A
call of the operation state is cut into its critical sections and its atomic
operations, and anything can happen between two of these; that a nested call
returns before the call it is nested in continues is not required of a run.
-/

namespace BaremetalSenders.Join

/-- With these the numerals name the children where there are two or three of them. -/
scoped instance neZero_two : NeZero 2 := ⟨Nat.succ_ne_zero 1⟩
scoped instance neZero_three : NeZero 3 := ⟨Nat.succ_ne_zero 2⟩

/-- A completion with the arguments it is sent with. -/
inductive Completion (V E : Type*) where
  | value (v : V)
  | error (e : E)
  | stopped
  deriving DecidableEq

namespace Completion

variable {V E : Type*}

def isValue : Completion V E → Bool
  | .value _ => true
  | _ => false

def isError : Completion V E → Bool
  | .error _ => true
  | _ => false

def isStopped : Completion V E → Bool
  | .stopped => true
  | _ => false

variable (v : V) (e : E)

@[simp] theorem isValue_value : (value v : Completion V E).isValue = true := rfl
@[simp] theorem isValue_error : (error e : Completion V E).isValue = false := rfl
@[simp] theorem isValue_stopped : (stopped : Completion V E).isValue = false := rfl
@[simp] theorem isError_value : (value v : Completion V E).isError = false := rfl
@[simp] theorem isError_error : (error e : Completion V E).isError = true := rfl
@[simp] theorem isError_stopped : (stopped : Completion V E).isError = false := rfl
@[simp] theorem isStopped_value : (value v : Completion V E).isStopped = false := rfl
@[simp] theorem isStopped_error : (error e : Completion V E).isStopped = false := rfl
@[simp] theorem isStopped_stopped : (stopped : Completion V E).isStopped = true := rfl

end Completion

/-- One atomic part of the treatment of a completion, after the first. -/
inductive Action (D : Type*) where
  | update (f : D → D)
  | requestStop

/-- What distinguishes one operation state with `n` children from another. -/
structure Ops (n : ℕ) (V E D : Type*) where
  /-- It has a stop source and a callback; else its children get a `never_stop_token`. -/
  hasStopSource : Bool
  /-- The completions in the child's signatures. -/
  admits : Fin n → Completion V E → Bool
  init : D
  /-- The first atomic part of the treatment of a completion. -/
  store : Fin n → Completion V E → D → D
  /-- The parts that follow, given what the first one found. -/
  rest : Fin n → Completion V E → D → List (Action D)
  /-- Whether `count` is decremented in the end. -/
  arrives : Completion V E → Bool
  /-- `complete`, from the receiver's `stop_requested`, the own one, and the data. -/
  outcome : Bool → Bool → D → Option (Completion V E)

/-- How far a child is. `deciding` is inside `complete`, with or without the stop
callback reset, and `finished` is back from there; the others that have been
counted are `done`. -/
inductive Phase (V E D : Type*) where
  | idle
  | running
  | completing (c : Completion V E) (todo : List (Action D))
  | ignored (c : Completion V E)
  | done (c : Completion V E)
  | deciding (c : Completion V E) (cbReset : Bool)
  | finished (c : Completion V E)

/-- The optional stop callback. `refused` is inside its constructor, which has found
the receiver's stop requested; `popped` is taken out of the receiver's source and
not run yet. -/
inductive StopCb where
  | absent
  | registered
  | refused
  | popped
  | spent
  deriving DecidableEq

/-- How far `start` is; `starting k` has started the children before `k`. -/
inductive StartPc where
  | unstarted
  | stopCbEmplaced
  | stopped
  | starting (k : ℕ)
  deriving DecidableEq

/-- `data` is what the completions are stored in, `requested` the flag of the own stop
source, `rcvrRequested` that of the receiver's; `received` are the completions the
receiver got. -/
structure State (n : ℕ) (V E D : Type*) where
  data : D
  count : ℕ
  requested : Bool
  rcvrRequested : Bool
  stopCb : StopCb
  pc : StartPc
  phase : Fin n → Phase V E D
  received : List (Completion V E)

/-- The steps. The first three are the receiver's stop source at work: the flag is
set, the callback is popped, the callback is run. -/
inductive Label (n : ℕ) (V E : Type*) where
  | rcvrRequestStop
  | popStopCb
  | runStopCb
  | emplaceStopCb (registered : Bool)
  | startStopped
  | startChildren
  | startChild (i : Fin n)
  | complete (i : Fin n) (c : Completion V E)
  | act (i : Fin n)
  | leave (i : Fin n)
  | resetStopCb (i : Fin n)
  | finish (i : Fin n)

variable {n : ℕ} {V E D : Type*}

def Ops.initial (ops : Ops n V E D) : State n V E D where
  data := ops.init
  count := 0
  requested := false
  rcvrRequested := false
  stopCb := .absent
  pc := .unstarted
  phase := fun _ => .idle
  received := []

namespace State

def setPhase (s : State n V E D) (i : Fin n) (p : Phase V E D) : State n V E D :=
  { s with phase := Function.update s.phase i p }

def apply (s : State n V E D) : Action D → State n V E D
  | .update f => { s with data := f s.data }
  | .requestStop => { s with requested := true }

section Simp

variable (s : State n V E D) (i : Fin n) (p : Phase V E D)

@[simp] theorem setPhase_data : (s.setPhase i p).data = s.data := rfl
@[simp] theorem setPhase_count : (s.setPhase i p).count = s.count := rfl
@[simp] theorem setPhase_requested : (s.setPhase i p).requested = s.requested := rfl
@[simp] theorem setPhase_rcvrRequested : (s.setPhase i p).rcvrRequested = s.rcvrRequested := rfl
@[simp] theorem setPhase_stopCb : (s.setPhase i p).stopCb = s.stopCb := rfl
@[simp] theorem setPhase_pc : (s.setPhase i p).pc = s.pc := rfl
@[simp] theorem setPhase_received : (s.setPhase i p).received = s.received := rfl
@[simp] theorem setPhase_phase : (s.setPhase i p).phase = Function.update s.phase i p := rfl

end Simp

end State

/-- `start` may go on to its children: it has looked at its stop source if it has one. -/
def Ops.mayStart (ops : Ops n V E D) (s : State n V E D) : Bool :=
  if ops.hasStopSource then
    s.pc == .stopCbEmplaced && s.stopCb != .refused && !s.requested
  else s.pc == .unstarted

def step (ops : Ops n V E D) (s : State n V E D) : Label n V E → Option (State n V E D)
  | .rcvrRequestStop => if s.rcvrRequested then none else some { s with rcvrRequested := true }
  | .popStopCb =>
      if s.rcvrRequested ∧ s.stopCb = .registered then some { s with stopCb := .popped } else none
  | .runStopCb =>
      if s.stopCb = .popped ∨ s.stopCb = .refused then
        some { s with stopCb := .spent, requested := true }
      else none
  | .emplaceStopCb registered =>
      if ops.hasStopSource ∧ s.pc = .unstarted ∧ registered = !s.rcvrRequested then
        some { s with
          pc := .stopCbEmplaced
          stopCb := if registered then .registered else .refused }
      else none
  | .startStopped =>
      if s.pc = .stopCbEmplaced ∧ s.stopCb ≠ .refused ∧ s.requested then
        some { s with pc := .stopped, received := s.received ++ [.stopped] }
      else none
  | .startChildren =>
      if ops.mayStart s then some { s with pc := .starting 0, count := n } else none
  | .startChild i =>
      if s.pc = .starting i then some { s.setPhase i .running with pc := .starting (i + 1) }
      else none
  | .complete i c =>
      match s.phase i with
      | .running =>
          if ops.admits i c then
            some { s.setPhase i (.completing c (ops.rest i c s.data)) with
              data := ops.store i c s.data }
          else none
      | _ => none
  | .act i =>
      match s.phase i with
      | .completing c (a :: as) => some ((s.apply a).setPhase i (.completing c as))
      | _ => none
  | .leave i =>
      match s.phase i with
      | .completing c [] =>
          if ops.arrives c then
            some { s.setPhase i
                (if s.count - 1 = 0 then .deciding c (!ops.hasStopSource) else .done c) with
              count := s.count - 1 }
          else some (s.setPhase i (.ignored c))
      | _ => none
  | .resetStopCb i =>
      match s.phase i with
      | .deciding c false =>
          some { s.setPhase i (.deciding c true) with
            stopCb := if s.stopCb = .registered then .absent else s.stopCb }
      | _ => none
  | .finish i =>
      match s.phase i with
      | .deciding c true =>
          some { s.setPhase i (.finished c) with
            received := s.received ++
              (ops.outcome s.rcvrRequested s.requested s.data).toList }
      | _ => none

/-- The completions of the children, in the order in which they got to their first
atomic part. -/
def Label.completion : Label n V E → Option (Fin n × Completion V E)
  | .complete i c => some (i, c)
  | _ => none

def completions (tr : List (Label n V E)) : List (Fin n × Completion V E) :=
  tr.filterMap Label.completion

end BaremetalSenders.Join
