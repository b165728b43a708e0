import BaremetalSenders.Foundation.Run
import Mathlib.Logic.Function.Basic

/-!
`split`: the operation states of one call site and the static state they share.

The sender type and the call site fix one `op_state_base`, whose members
`values`, `linked_ops`, `single_ops`, `stop_source` and `env` are static. Every
operation connected to a split sender of that call site works on them, without
a critical section. The system is therefore modelled statement by statement:
the `start` of each operation has a program counter, the completion of the
single underlying operation has another, and their steps interleave freely.

The underlying operation is outside of the model. Once started it may complete
at any time, from another context or from inside its `start`, at most once and
with whatever completion it likes; it is destroyed by `reset` when it is not
under way. The operation states of `split` stay alive.

A receiver is completed with references to the stored arguments, so it may
leave something else behind when it takes them by value.
-/

namespace BaremetalSenders.Split

inductive Completion (V : Type*) where
  | value (v : V)
  | error (v : V)
  | stopped
  deriving DecidableEq

/-- What a receiver does with arguments it is handed as rvalue references: what
they are afterwards. -/
structure Receiver (V : Type*) where
  value : V → V
  error : V → V

variable {V E : Type*}

/-- The stored completion after the receiver has been completed with it. -/
def Receiver.leaves (r : Receiver V) : Completion V → Completion V
  | .value v => .value (r.value v)
  | .error v => .error (r.error v)
  | .stopped => .stopped

/-- Where an operation is: not connected, not started, and then in front of a
statement of `start`. `completing` and `delivering` are the two statements of
the `complete` that `start` calls itself. -/
inductive Pc where
  | unborn
  | connected
  | empty
  | registered
  | stopping
  | unlinked
  | linked (first : Bool)
  | completing
  | delivering
  | returning
  | returned
  deriving DecidableEq

/-- An operation connected to a split sender. `requested` says that stop was
requested of the receiver's token, `received` what the receiver was completed
with. -/
structure Op (V : Type*) where
  pc : Pc
  nextOps : Option ℕ
  stopCb : Bool
  requested : Bool
  received : List (Completion V)

def Op.unborn : Op V := ⟨.unborn, none, false, false, []⟩

/-- The underlying operation, and how far its receiver is: about to store the
completion, about to call `linked_ops->notify()`, in the `notify` of an
operation (in front of `stop_cb.reset()`, in front of the visit, behind
`complete()`), or done. -/
inductive Single (V : Type*) where
  | absent
  | connected
  | running
  | storing (r : Completion V)
  | notifying
  | resetting (o : ℕ)
  | delivering (o : ℕ)
  | following (o : ℕ)
  | notified
  deriving DecidableEq

/-- The static members of `op_state_base`, and the operations. -/
structure State (V E : Type*) where
  values : Option (Completion V)
  linkedOps : Option ℕ
  single : Single V
  stopRequested : Bool
  env : Option E
  ops : ℕ → Op V

def State.init : State V E := ⟨none, none, .absent, false, none, fun _ => .unborn⟩

def State.reset (s : State V E) : State V E :=
  { s with single := .absent, values := none, linkedOps := none }

/-- `pipeable::operator|` on a sender with environment `e`: `reset`, and the
constructor of the split sender. -/
def State.split (s : State V E) (e : E) : State V E :=
  let s := s.reset
  { s with env := some (s.env.getD e) }

def State.setOp (s : State V E) (o : ℕ) (op : Op V) : State V E :=
  { s with ops := Function.update s.ops o op }

/-- The statements, and what the outside does: it queries the environment of
the split sender, connects operations and requests stop; the underlying
operation completes. -/
inductive Event (V E : Type*) where
  | getEnv (e : E)
  | connect (o : ℕ)
  | requestStop (o : ℕ)
  | check (o : ℕ) (stored : Bool)
  | unregister (o : ℕ)
  | deliver (o : ℕ) (r : Completion V)
  | emplace (o : ℕ)
  | test (o : ℕ) (stop : Bool)
  | setStopped (o : ℕ)
  | link (o : ℕ) (first : Bool)
  | startSingle (o : ℕ)
  | ret (o : ℕ)
  | complete (r : Completion V)
  | store
  | notify
  | resetCb (o : ℕ)
  | notified (o : ℕ) (r : Completion V)
  | next (o : ℕ)
  deriving DecidableEq

/-- `(*single_ops)` is asked for by `connect`. -/
def Single.ensure : Single V → Single V
  | .absent => .connected
  | g => g

def step [DecidableEq V] [DecidableEq E] (recv : ℕ → Receiver V) (s : State V E) :
    Event V E → Option (State V E)
  | .getEnv e => if s.env = some e then some s else none
  | .connect o =>
      if (s.ops o).pc = .unborn then
        some { s.setOp o { s.ops o with pc := .connected } with single := s.single.ensure }
      else none
  | .requestStop o =>
      if (s.ops o).pc = .unborn then none
      else some { s.setOp o { s.ops o with requested := true } with
        stopRequested := s.stopRequested || (s.ops o).stopCb }
  | .check o stored =>
      if (s.ops o).pc = .connected ∧ stored = s.values.isSome then
        some (s.setOp o { s.ops o with pc := if stored then .completing else .empty })
      else none
  | .unregister o =>
      if (s.ops o).pc = .completing then
        some (s.setOp o { s.ops o with pc := .delivering, stopCb := false })
      else none
  | .deliver o r =>
      if (s.ops o).pc = .delivering ∧ s.values = some r then
        some { s.setOp o { s.ops o with
            pc := .returning, received := (s.ops o).received ++ [r] } with
          values := some ((recv o).leaves r) }
      else none
  | .emplace o =>
      if (s.ops o).pc = .empty then
        some { s.setOp o { s.ops o with pc := .registered, stopCb := true } with
          stopRequested := s.stopRequested || (s.ops o).requested }
      else none
  | .test o stop =>
      if (s.ops o).pc = .registered ∧ stop = s.stopRequested then
        some (s.setOp o { s.ops o with pc := if stop then .stopping else .unlinked })
      else none
  | .setStopped o =>
      if (s.ops o).pc = .stopping then
        some (s.setOp o { s.ops o with
          pc := .returning, received := (s.ops o).received ++ [.stopped] })
      else none
  | .link o first =>
      if (s.ops o).pc = .unlinked ∧ first = s.linkedOps.isNone then
        some { s.setOp o { s.ops o with pc := .linked first, nextOps := s.linkedOps } with
          linkedOps := some o }
      else none
  | .startSingle o =>
      if (s.ops o).pc = .linked true then
        some { s.setOp o { s.ops o with pc := .returning } with single := .running }
      else none
  | .ret o =>
      if (s.ops o).pc = .linked false ∨ (s.ops o).pc = .returning then
        some (s.setOp o { s.ops o with pc := .returned })
      else none
  | .complete r =>
      match s.single with
      | .running =>
          some { s with single := if s.linkedOps.isSome then .storing r else .notified }
      | _ => none
  | .store =>
      match s.single with
      | .storing r => some { s with values := some r, single := .notifying }
      | _ => none
  | .notify =>
      match s.single, s.linkedOps with
      | .notifying, some o => some { s with single := .resetting o }
      | _, _ => none
  | .resetCb o =>
      if s.single = .resetting o then
        some { s.setOp o { s.ops o with stopCb := false } with single := .delivering o }
      else none
  | .notified o r =>
      if s.single = .delivering o ∧ s.values = some r then
        some { s.setOp o { s.ops o with received := (s.ops o).received ++ [r] } with
          single := .following o, values := some ((recv o).leaves r) }
      else none
  | .next o =>
      if s.single = .following o then
        some { s with single := match (s.ops o).nextOps with
          | some o' => .resetting o'
          | none => .notified }
      else none

/-! ### What a step can do -/

inductive Move (recv : ℕ → Receiver V) (s : State V E) : Event V E → State V E → Prop
  | getEnv {e} (henv : s.env = some e) : Move recv s (.getEnv e) s
  | connect {o} (hpc : (s.ops o).pc = .unborn) : Move recv s (.connect o)
      { s.setOp o { s.ops o with pc := .connected } with single := s.single.ensure }
  | requestStop {o} (hpc : (s.ops o).pc ≠ .unborn) : Move recv s (.requestStop o)
      { s.setOp o { s.ops o with requested := true } with
        stopRequested := s.stopRequested || (s.ops o).stopCb }
  | check {o} (hpc : (s.ops o).pc = .connected) : Move recv s (.check o s.values.isSome)
      (s.setOp o { s.ops o with pc := if s.values.isSome then .completing else .empty })
  | unregister {o} (hpc : (s.ops o).pc = .completing) : Move recv s (.unregister o)
      (s.setOp o { s.ops o with pc := .delivering, stopCb := false })
  | deliver {o r} (hpc : (s.ops o).pc = .delivering) (hvalues : s.values = some r) :
      Move recv s (.deliver o r)
        { s.setOp o { s.ops o with pc := .returning, received := (s.ops o).received ++ [r] } with
          values := some ((recv o).leaves r) }
  | emplace {o} (hpc : (s.ops o).pc = .empty) : Move recv s (.emplace o)
      { s.setOp o { s.ops o with pc := .registered, stopCb := true } with
        stopRequested := s.stopRequested || (s.ops o).requested }
  | test {o} (hpc : (s.ops o).pc = .registered) : Move recv s (.test o s.stopRequested)
      (s.setOp o { s.ops o with pc := if s.stopRequested then .stopping else .unlinked })
  | setStopped {o} (hpc : (s.ops o).pc = .stopping) : Move recv s (.setStopped o)
      (s.setOp o { s.ops o with pc := .returning, received := (s.ops o).received ++ [.stopped] })
  | link {o} (hpc : (s.ops o).pc = .unlinked) : Move recv s (.link o s.linkedOps.isNone)
      { s.setOp o { s.ops o with
          pc := .linked s.linkedOps.isNone, nextOps := s.linkedOps } with
        linkedOps := some o }
  | startSingle {o} (hpc : (s.ops o).pc = .linked true) : Move recv s (.startSingle o)
      { s.setOp o { s.ops o with pc := .returning } with single := .running }
  | ret {o} (hpc : (s.ops o).pc = .linked false ∨ (s.ops o).pc = .returning) : Move recv s (.ret o)
      (s.setOp o { s.ops o with pc := .returned })
  | complete {r} (hsingle : s.single = .running) : Move recv s (.complete r)
      { s with single := if s.linkedOps.isSome then .storing r else .notified }
  | store {r} (hsingle : s.single = .storing r) : Move recv s .store
      { s with values := some r, single := .notifying }
  | notify {o} (hsingle : s.single = .notifying) (hhead : s.linkedOps = some o) :
      Move recv s .notify { s with single := .resetting o }
  | resetCb {o} (hsingle : s.single = .resetting o) : Move recv s (.resetCb o)
      { s.setOp o { s.ops o with stopCb := false } with single := .delivering o }
  | notified {o r} (hsingle : s.single = .delivering o) (hvalues : s.values = some r) :
      Move recv s (.notified o r)
        { s.setOp o { s.ops o with received := (s.ops o).received ++ [r] } with
          single := .following o, values := some ((recv o).leaves r) }
  | next {o} (hsingle : s.single = .following o) : Move recv s (.next o)
      { s with single := match (s.ops o).nextOps with
        | some o' => .resetting o'
        | none => .notified }

theorem step_move [DecidableEq V] [DecidableEq E] {recv : ℕ → Receiver V} {s s' : State V E}
    {e : Event V E} (h : step recv s e = some s') : Move recv s e s' := by
  cases e with
  | getEnv e =>
      simp only [step] at h
      split at h <;> cases h
      exact .getEnv ‹_›
  | connect o =>
      simp only [step] at h
      split at h <;> cases h
      exact .connect ‹_›
  | requestStop o =>
      simp only [step] at h
      split at h <;> cases h
      exact .requestStop ‹_›
  | unregister o =>
      simp only [step] at h
      split at h <;> cases h
      exact .unregister ‹_›
  | emplace o =>
      simp only [step] at h
      split at h <;> cases h
      exact .emplace ‹_›
  | setStopped o =>
      simp only [step] at h
      split at h <;> cases h
      exact .setStopped ‹_›
  | startSingle o =>
      simp only [step] at h
      split at h <;> cases h
      exact .startSingle ‹_›
  | ret o =>
      simp only [step] at h
      split at h <;> cases h
      exact .ret ‹_›
  | complete r =>
      simp only [step] at h
      split at h <;> cases h
      exact .complete ‹_›
  | store =>
      simp only [step] at h
      split at h <;> cases h
      exact .store ‹_›
  | notify =>
      simp only [step] at h
      split at h <;> cases h
      exact .notify ‹_› ‹_›
  | resetCb o =>
      simp only [step] at h
      split at h <;> cases h
      exact .resetCb ‹_›
  | next o =>
      simp only [step] at h
      split at h <;> cases h
      exact .next ‹_›
  | check o stored =>
      simp only [step] at h
      split at h <;> cases h
      next hpc =>
        obtain ⟨hpc, rfl⟩ := hpc
        exact .check hpc
  | test o stop =>
      simp only [step] at h
      split at h <;> cases h
      next hpc =>
        obtain ⟨hpc, rfl⟩ := hpc
        exact .test hpc
  | link o first =>
      simp only [step] at h
      split at h <;> cases h
      next hpc =>
        obtain ⟨hpc, rfl⟩ := hpc
        exact .link hpc
  | deliver o r =>
      simp only [step] at h
      split at h <;> cases h
      next hpc => exact .deliver hpc.1 hpc.2
  | notified o r =>
      simp only [step] at h
      split at h <;> cases h
      next hpc => exact .notified hpc.1 hpc.2

/-! ### Readings of a state and of a trace -/

theorem ops_setOp_of_ne (s : State V E) {o o' : ℕ} (op : Op V) (h : o' ≠ o) :
    (s.setOp o op).ops o' = s.ops o' := by
  simp [State.setOp, h]

@[simp] theorem ops_setOp (s : State V E) (o : ℕ) (op : Op V) : (s.setOp o op).ops o = op := by
  simp [State.setOp]

theorem received_setOp {s : State V E} {o o' : ℕ} {op : Op V}
    (h : op.received = (s.ops o').received) :
    ((s.setOp o' op).ops o).received = (s.ops o).received := by
  by_cases ho : o = o'
  · subst ho
    simp [h]
  · rw [ops_setOp_of_ne s op ho]

theorem received_concat {s : State V E} {o o' : ℕ} {op : Op V} {c : Completion V}
    (h : op.received = (s.ops o').received ++ [c]) :
    ((s.setOp o' op).ops o).received =
      (s.ops o).received ++ (if o' = o then some c else none).toList := by
  by_cases ho : o' = o
  · subst ho
    simp [h]
  · rw [ops_setOp_of_ne s op (Ne.symm ho)]
    simp [ho]

def Event.completes (o : ℕ) : Event V E → Option (Completion V)
  | .deliver o' r | .notified o' r => if o' = o then some r else none
  | .setStopped o' => if o' = o then some .stopped else none
  | _ => none

/-- The receivers completed with the stored arguments, in this order. -/
def served (tr : List (Event V E)) : List ℕ :=
  tr.filterMap fun
    | .deliver o _ => some o
    | .notified o _ => some o
    | _ => none

def sent (tr : List (Event V E)) : Option (Completion V) :=
  tr.findSome? fun
    | .complete r => some r
    | _ => none

end BaremetalSenders.Split
