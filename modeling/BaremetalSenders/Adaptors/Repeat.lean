import BaremetalSenders.Foundation.Run
import Mathlib.Data.List.Basic

/-!
The operation states of `repeat`, `repeat_until`, `repeat_n`, `retry` and
`retry_until`: a child operation in `std::optional<state_t> state` that is
connected and started again when it completes on the looped channel and the
predicate says no.

A completion travels by forwarding reference, so what it carries is modelled
as references: into the storage of the child operation that sends it, as
`just` and `just_error` do, or to something that outlives the call. Each
`emplace` makes a new child, and the children are numbered. A reference into a
child can be read as long as that child is the one in `state`.

One step is what happens up to the next call of something that is not part of
the adaptor: a child completes, the predicate, the loop function or the
receiver is called. The child may complete at any time after its start, from
inside it or not, so a call of `repeat` that has restarted the child and has
still to call the loop function is kept apart until it does.
-/

namespace BaremetalSenders.Repeat

inductive Channel where
  | value
  | error
  | stopped
  deriving DecidableEq

/-- An argument of a completion: the `i`th element stored in child number `k`, or
something outside of all children. -/
inductive Ref (V : Type*) where
  | own (k i : ℕ)
  | ext (v : V)
  deriving DecidableEq

variable {V P : Type*}

/-- The argument is stored in child number `k` if it is stored in a child. -/
def Ref.within (k : ℕ) : Ref V → Bool
  | .own k' _ => k' == k
  | .ext _ => true

/-- The argument does not refer to a child. -/
def Ref.isExt : Ref V → Bool
  | .own _ _ => false
  | .ext _ => true

/-- What is sent with the argument. `mem k i` is what child `k` stores at `i`. -/
def Ref.sent (mem : ℕ → ℕ → V) : Ref V → V
  | .own k i => mem k i
  | .ext v => v

/-- Reading the argument while the child in `state` is `state`. -/
def Ref.read (mem : ℕ → ℕ → V) (state : Option ℕ) : Ref V → Option V
  | .own k i => if state = some k then some (mem k i) else none
  | .ext v => some v

/-- What distinguishes the adaptors: the channel on which they loop, whether a
loop function is called, the predicate, which may keep a state, and the two
properties of the child that the code asks for at compile time. -/
structure Driver (V P : Type*) where
  looped : Channel
  callsLoopFn : Bool
  pred : P → List V → Bool × P
  isSync : Bool
  checksStop : Bool

/-- `repeat_until`. A child that completes synchronously has no loop function. -/
def repeatUntil (pred : P → List V → Bool × P) (isSync checksStop : Bool) : Driver V P :=
  ⟨.value, !isSync, pred, isSync, checksStop⟩

def «repeat» (isSync checksStop : Bool) : Driver V Unit :=
  repeatUntil (fun p _ => (false, p)) isSync checksStop

/-- `repeat_n`: `n-- == 0`. The counter is the predicate's state. -/
def repeatN (isSync checksStop : Bool) : Driver V UInt32 :=
  repeatUntil (fun n _ => (n == 0, n - 1)) isSync checksStop

/-- `retry_until`. -/
def retryUntil (pred : P → List V → Bool × P) (isSync checksStop : Bool) : Driver V P :=
  ⟨.error, false, pred, isSync, checksStop⟩

/-- `retry`. -/
def retry (isSync checksStop : Bool) : Driver V Unit :=
  retryUntil (fun p _ => (false, p)) isSync checksStop

structure Args (V : Type*) where
  k : ℕ
  refs : List (Ref V)

/-- Where the adaptor is: not started; in front of `begin_loop`, which `repeat`
called with some arguments or `start` did; the child is running; the child has
completed; the predicate has said no, in front of `setup()`; in `passthrough`,
in front of `state.reset()` and in front of the completion; or completed. -/
inductive Phase (V : Type*) where
  | idle
  | ready (caller : Option (Args V))
  | running
  | completing (ch : Channel) (args : Args V)
  | looping (args : Args V)
  | resetting (ch : Channel) (args : Args V)
  | forwarding (ch : Channel) (args : Args V)
  | done

/-- The operation state, and the calls of `repeat` that have restarted the child
and have still to call the loop function. -/
structure State (V P : Type*) where
  state : Option ℕ
  next : ℕ
  pred : P
  phase : Phase V
  calls : List (Args V)

def State.init (p : P) : State V P := ⟨none, 0, p, .idle, []⟩

/-- What is observed: the calls into and out of the adaptor, with the values that
are read. -/
inductive Event (V : Type*) where
  | start
  | begin (stop : Bool)
  | complete (k : ℕ) (ch : Channel) (refs : List (Ref V))
  | evaluate (k : ℕ) (vals : List (Option V)) (stop : Bool)
  | again (k : ℕ)
  | reset
  | deliver (k : ℕ) (ch : Channel) (vals : List (Option V))
  | loopFn (k : ℕ) (vals : List (Option V))
  deriving DecidableEq

def State.setup (s : State V P) : State V P :=
  { s with state := some s.next, next := s.next + 1 }

def State.read (mem : ℕ → ℕ → V) (s : State V P) (refs : List (Ref V)) : List (Option V) :=
  refs.map (Ref.read mem s.state)

/-- The steps. In `begin`, a caller that is a call of `repeat` is to call the loop
function once the child has been started. -/
def step [DecidableEq V] (D : Driver V P) (mem : ℕ → ℕ → V) (s : State V P) :
    Event V → Option (State V P)
  | .start =>
      match s.phase with
      | .idle => some { s.setup with phase := .ready none }
      | _ => none
  | .begin stop =>
      match s.phase, s.state with
      | .ready caller, some k =>
          if stop then
            if D.checksStop then some { s with phase := .resetting .stopped ⟨k, []⟩ } else none
          else some { s with
            phase := .running
            calls := if D.callsLoopFn then caller.toList ++ s.calls else s.calls }
      | _, _ => none
  | .complete k ch refs =>
      match s.phase with
      | .running =>
          if s.state = some k ∧ refs.all (Ref.within k) then
            some { s with phase := .completing ch ⟨k, refs⟩ }
          else none
      | _ => none
  | .evaluate k vals stop =>
      match s.phase with
      | .completing ch args =>
          if ch = D.looped ∧ args.k = k ∧ vals = s.read mem args.refs ∧
              stop = (D.pred s.pred (vals.filterMap id)).1 then
            some { s with
              pred := (D.pred s.pred (vals.filterMap id)).2
              phase := if stop then .resetting ch args else .looping args }
          else none
      | _ => none
  | .again k =>
      match s.phase with
      | .looping args =>
          if args.k = k then
            some { s.setup with phase := .ready (if D.isSync then none else some args) }
          else none
      | _ => none
  | .reset =>
      match s.phase with
      | .completing ch args =>
          if ch = D.looped then none
          else some { s with state := none, phase := .forwarding ch args }
      | .resetting ch args => some { s with state := none, phase := .forwarding ch args }
      | _ => none
  | .deliver k ch vals =>
      match s.phase with
      | .forwarding ch' args =>
          if ch' = ch ∧ args.k = k ∧ vals = s.read mem args.refs then
            some { s with phase := .done }
          else none
      | _ => none
  | .loopFn k vals =>
      match s.calls.find? fun args => args.k == k with
      | some args =>
          if vals = s.read mem args.refs then
            some { s with calls := s.calls.filter fun args => args.k != k }
          else none
      | none => none

end BaremetalSenders.Repeat
