import BaremetalSenders.Adaptors.Repeat
import BaremetalSenders.Schedulers.TimerManager
import Mathlib.Order.Defs.LinearOrder

/-!
The operation states of `periodic`, `periodic_n` and `periodic_until` over a
child that is scheduled with a `time_scheduler`.

What is modelled is one place in memory in which periodic operations are
constructed, one after the other, by the downstream receiver or whoever owns
it. The child of an operation is in a variant inside of it, and the children
are numbered: `emplace` destroys the child that is there and makes a new one,
whose timer task carries its number. A frame of `passthrough` that has called
the completion still has its `state.emplace<0>()` to do when the completion
returns, to what is in the place then: its own operation, or another one that
has been constructed there since, or one that has been destroyed.

The other tasks of the timer manager are those of `β`. The timer, the child and
the downstream receiver can take their steps at any time; a child completes
when its task has been run or cancelled, or when it has not scheduled it
because it found that it was to stop.
-/

namespace BaremetalSenders.Periodic

open Timer (ExpirationProvider)
open Repeat (Channel)

variable {P β τ δ : Type*}

/-! ### Expiration providers -/

def firstExpiration [HAdd τ δ τ] (d : δ) : ExpirationProvider τ :=
  .now fun now => .answer (now + d)

def unsafeExpiry [HAdd τ δ τ] (d : δ) (tp : τ) : ExpirationProvider τ := .answer (tp + d)

def safeImmediateExpiry [HAdd τ δ τ] [Max τ] (d : δ) (tp : τ) : ExpirationProvider τ :=
  .now fun now => .answer (max (tp + d) now)

/-- `safe_quantized_nth_expiration_provider`, in clock ticks. -/
def safeQuantizedExpiry (d tp : ℤ) : ExpirationProvider ℤ :=
  .now fun now =>
    if tp + d < now then .answer (tp + d + d * ((now - (tp + d) - 1) / d + 1))
    else .answer (tp + d)

/-! ### The operation -/

/-- The expiration policy of the child's scheduler. -/
inductive ExpirationPolicy (δ : Type*) where
  | duration (d : δ)
  | timepoint

/-- What the operations have from the sender: the period, the predicate, which
may keep a state, the provider from the second time on, the child's scheduler,
and whether `restart` looks for a stop request. -/
structure Sender (P τ δ : Type*) where
  d : δ
  pred : P → Bool × P
  expiry : δ → τ → ExpirationProvider τ
  policy : ExpirationPolicy δ
  checksStop : Bool

/-- `periodic_n`: `n-- == 0`. The counter is the predicate's state. -/
def periodicN (d : δ) (expiry : δ → τ → ExpirationProvider τ) (policy : ExpirationPolicy δ)
    (checksStop : Bool) : Sender UInt32 τ δ :=
  ⟨d, fun n => (n == 0, n - 1), expiry, policy, checksStop⟩

/-- Where an operation is: constructed; its child is running; the child has
completed with a value; the predicate has said no, in front of `restart`; in
`passthrough`, in front of the completion; or completed. -/
inductive Phase where
  | connected
  | running
  | completing
  | restarting
  | passing (ch : Channel)
  | completed
  deriving DecidableEq

structure Op (P τ : Type*) where
  pred : P
  tp : τ
  state : Option ℕ
  phase : Phase

/-- The operation can be destroyed: it is not started or has completed. -/
def Op.unused (op : Op P τ) : Bool :=
  op.phase == .connected || op.phase == .completed

/-- What is in the place, the children made so far, the frames of `passthrough`
whose completion has not returned, and the timer manager. `written` is what the
frames have written to after their completions, the last first: where the
operation was that they found in the place, and nothing if it was destroyed. -/
structure State (P β τ δ : Type*) where
  slot : Option (Op P τ)
  next : ℕ
  frames : ℕ
  timer : Timer.State (ℕ ⊕ β) τ δ
  written : List (Option Phase)

def State.init (expirationTime : ℕ ⊕ β → τ) : State P β τ δ :=
  ⟨none, 0, 0, .init expirationTime, []⟩

/-- The steps. `construct` and `destroy` are those of the owner of the place,
`readings` are of the clock when the task is scheduled, if it is, and `leave` is
the return of a completion with what `passthrough` does after it. -/
inductive Event (P β τ δ : Type*) where
  | construct (p : P)
  | destroy
  | start (readings : Option (List τ))
  | complete (k : ℕ) (ch : Channel)
  | evaluate (stop : Bool)
  | restart (readings : Option (List τ))
  | stopped
  | deliver (ch : Channel)
  | leave
  | timer (e : Timer.Event (ℕ ⊕ β) τ δ)

namespace State

def unused (s : State P β τ δ) : Bool := s.slot.all Op.unused

def live (s : State P β τ δ) (k : ℕ) : Bool := s.slot.any fun op => op.state == some k

/-- The calls of others to the timer manager schedule none of the children's
tasks; a child's task is cancelled by the child itself, and run where it is. -/
def admits (s : State P β τ δ) : Timer.Event (ℕ ⊕ β) τ δ → Bool
  | .runAfter (.inl _) _ _ _ | .runAt (.inl _) _ _ _ => false
  | .cancel (.inl k) _ | .run (.inl k) => s.live k
  | _ => true

end State

section Step

variable [DecidableEq β] [LT τ] [DecidableLT τ] [HAdd τ δ τ] (fused : Bool) (S : Sender P τ δ)

/-- `start` of child number `k`: what the provider has left in `tp`, and the
timer manager. -/
def schedule (ep : ExpirationProvider τ) (t : Timer.State (ℕ ⊕ β) τ δ) (tp : τ) (k : ℕ) :
    Option (List τ) → Option (τ × Timer.State (ℕ ⊕ β) τ δ)
  | none => some (tp, t)
  | some readings =>
      match S.policy with
      | .duration d =>
          match readings with
          | [reading] => (Timer.step fused t (.runAfter (.inl k) d reading true)).map (Prod.mk tp)
          | _ => none
      | .timepoint =>
          (ep.computeExpiration readings).bind fun tp =>
            (Timer.step fused t (.runAt (.inl k) ep readings true)).map (Prod.mk tp)

/-- `state.emplace<1>` or `state.emplace<2>`, with `start` of the new child. -/
def State.emplace (s : State P β τ δ) (op : Op P τ) (ep : ExpirationProvider τ)
    (readings : Option (List τ)) : Option (State P β τ δ) :=
  (schedule fused S ep s.timer op.tp s.next readings).map fun (tp, timer) =>
    { s with
      slot := some { op with tp := tp, state := some s.next, phase := .running }
      next := s.next + 1
      timer := timer }

variable [Inhabited τ]

def step (s : State P β τ δ) : Event P β τ δ → Option (State P β τ δ)
  | .construct p =>
      if s.unused then some { s with slot := some ⟨p, default, none, .connected⟩ } else none
  | .destroy => if s.unused then some { s with slot := none } else none
  | .start readings =>
      match s.slot with
      | some op =>
          if op.phase = .connected then
            s.emplace fused S op (firstExpiration S.d) readings
          else none
      | none => none
  | .complete k ch =>
      match s.slot with
      | some op =>
          if op.phase = .running ∧ op.state = some k ∧
              s.timer.mgr.pending (.inl k) = false ∧ ∀ t ∈ s.timer.popped, t ≠ .inl k then
            some { s with slot := some { op with
              phase := if ch = .value then .completing else .passing ch } }
          else none
      | none => none
  | .evaluate stop =>
      match s.slot with
      | some op =>
          if op.phase = .completing ∧ stop = (S.pred op.pred).1 then
            some { s with slot := some { op with
              pred := (S.pred op.pred).2
              phase := if stop then .passing .value else .restarting } }
          else none
      | none => none
  | .restart readings =>
      match s.slot with
      | some op =>
          if op.phase = .restarting then s.emplace fused S op (S.expiry S.d op.tp) readings
          else none
      | none => none
  | .stopped =>
      match s.slot with
      | some op =>
          if op.phase = .restarting ∧ S.checksStop then
            some { s with slot := some { op with phase := .passing .stopped } }
          else none
      | none => none
  | .deliver ch =>
      match s.slot with
      | some op =>
          if op.phase = .passing ch then
            some { s with
              slot := some { op with phase := .completed }
              frames := s.frames + 1 }
          else none
      | none => none
  | .leave =>
      if s.frames = 0 then none
      else some { s with
        slot := s.slot.map fun op => { op with state := none }
        frames := s.frames - 1
        written := s.slot.map Op.phase :: s.written }
  | .timer e =>
      if s.admits e then (Timer.step fused s.timer e).map fun t => { s with timer := t } else none

/-! ### What a step can do -/

/-- An operation with a new child that has been started. -/
def State.started (s : State P β τ δ) (op : Op P τ) (tp : τ) (t : Timer.State (ℕ ⊕ β) τ δ) :
    State P β τ δ :=
  { s with
    slot := some { op with tp := tp, state := some s.next, phase := .running }
    next := s.next + 1
    timer := t }

inductive Move (s : State P β τ δ) : Event P β τ δ → State P β τ δ → Prop
  | construct (p) : s.unused = true →
      Move s (.construct p) { s with slot := some ⟨p, default, none, .connected⟩ }
  | destroy : s.unused = true → Move s .destroy { s with slot := none }
  | start (readings op tp t) : s.slot = some op → op.phase = .connected →
      schedule fused S (firstExpiration S.d) s.timer op.tp s.next readings = some (tp, t) →
      Move s (.start readings) (s.started op tp t)
  | complete (k ch op) : s.slot = some op → op.phase = .running → op.state = some k →
      s.timer.mgr.pending (.inl k) = false →
      Move s (.complete k ch) { s with slot := some { op with
        phase := if ch = .value then .completing else .passing ch } }
  | evaluate (op) : s.slot = some op → op.phase = .completing →
      Move s (.evaluate (S.pred op.pred).1) { s with slot := some { op with
        pred := (S.pred op.pred).2
        phase := if (S.pred op.pred).1 then .passing .value else .restarting } }
  | restart (readings op tp t) : s.slot = some op → op.phase = .restarting →
      schedule fused S (S.expiry S.d op.tp) s.timer op.tp s.next readings = some (tp, t) →
      Move s (.restart readings) (s.started op tp t)
  | stopped (op) : s.slot = some op → op.phase = .restarting →
      Move s .stopped { s with slot := some { op with phase := .passing .stopped } }
  | deliver (ch op) : s.slot = some op → op.phase = .passing ch →
      Move s (.deliver ch) { s with
        slot := some { op with phase := .completed }
        frames := s.frames + 1 }
  | leave : s.frames ≠ 0 →
      Move s .leave { s with
        slot := s.slot.map fun op => { op with state := none }
        frames := s.frames - 1
        written := s.slot.map Op.phase :: s.written }
  | timer (e t) : s.admits e = true → Timer.step fused s.timer e = some t →
      Move s (.timer e) { s with timer := t }

variable {fused S}

theorem step_move {s s' : State P β τ δ} {e : Event P β τ δ} (h : step fused S s e = some s') :
    Move fused S s e s' := by
  cases e with
  | construct p =>
      simp only [step] at h
      split at h <;> cases h
      next hunused => exact .construct p hunused
  | destroy =>
      simp only [step] at h
      split at h <;> cases h
      next hunused => exact .destroy hunused
  | start readings =>
      simp only [step] at h
      split at h
      · next op hop =>
          split at h
          · next hphase =>
              obtain ⟨⟨tp, t⟩, ht, rfl⟩ := Option.map_eq_some_iff.mp h
              exact .start readings op tp t hop hphase ht
          · cases h
      · cases h
  | complete k ch =>
      simp only [step] at h
      split at h
      · next op hop =>
          split at h <;> cases h
          next hc => exact .complete k ch op hop hc.1 hc.2.1 hc.2.2.1
      · cases h
  | evaluate stop =>
      simp only [step] at h
      split at h
      · next op hop =>
          split at h <;> cases h
          next hc =>
            obtain ⟨hphase, rfl⟩ := hc
            exact .evaluate op hop hphase
      · cases h
  | restart readings =>
      simp only [step] at h
      split at h
      · next op hop =>
          split at h
          · next hphase =>
              obtain ⟨⟨tp, t⟩, ht, rfl⟩ := Option.map_eq_some_iff.mp h
              exact .restart readings op tp t hop hphase ht
          · cases h
      · cases h
  | stopped =>
      simp only [step] at h
      split at h
      · next op hop =>
          split at h <;> cases h
          next hc => exact .stopped op hop hc.1
      · cases h
  | deliver ch =>
      simp only [step] at h
      split at h
      · next op hop =>
          split at h <;> cases h
          next hphase => exact .deliver ch op hop hphase
      · cases h
  | leave =>
      simp only [step] at h
      split at h <;> cases h
      next hframes => exact .leave hframes
  | timer e =>
      simp only [step] at h
      split at h
      · next hadmits =>
          obtain ⟨t, ht, rfl⟩ := Option.map_eq_some_iff.mp h
          exact .timer e t hadmits ht
      · cases h

end Step

/-- Every task of a child that is pending in the timer manager is the task of the
child that is there. -/
def State.Safe (s : State P β τ δ) : Prop :=
  ∀ k, s.timer.mgr.pending (.inl k) = true → s.live k = true

/-- The side condition of a step: when a completion returns, there is an operation in
the place, and it has not been started or has completed. -/
def Quiet (s : State P β τ δ) : Event P β τ δ → Prop
  | .leave => ∃ op, s.slot = some op ∧ op.unused = true
  | _ => True

def Event.writes (s : State P β τ δ) : Event P β τ δ → List (Option Phase)
  | .leave => [s.slot.map Op.phase]
  | _ => []

end BaremetalSenders.Periodic
