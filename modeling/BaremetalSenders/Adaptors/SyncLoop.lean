import BaremetalSenders.Adaptors.Repeat
import BaremetalSenders.Foundation.Storage

/-!
`repeat` and `retry` over a synchronous child, and the adaptors that replace
their first operation when it has completed: `sequence`, `let_value`,
`let_error` and `let_stopped`.

The loop of a synchronous child runs in `start`, and its condition is the
operation's own member `state`. The calls nest: what the child's completion
calls is called from inside of `start`, and the loop is still there when it
returns. So the machine has, next to what is being called, the loops that are
under way, the innermost first.

An operation is inside of the one it belongs to, in the variant of a `sequence`
or a `let_...` or in the `state` of a loop. The second operation of a `sequence`
is inside of it but has its receiver. What a child sends, what a predicate
answers and what a continuation is given are not modelled; they are the choices
that are left open.
-/

namespace BaremetalSenders.SyncLoop

open Repeat (Channel)

/-- The senders. `chain` is a `sequence` or a `let_...` with the channels on which
it goes on and, for all that the first operation can send, the next sender;
`loop` is a `repeat` or a `retry` with the channel on which it loops, and whether
it looks for a stop request. -/
inductive Sender where
  | leaf
  | chain (handles : Channel → Bool) (first : Sender) (next : ℕ → Sender)
  | loop (looped : Channel) (checksStop : Bool) (child : Sender)

namespace Sender

/-- `sequence`. -/
def sequence (first next : Sender) : Sender := .chain (· == .value) first fun _ => next

def letValue (first : Sender) (next : ℕ → Sender) : Sender := .chain (· == .value) first next

def letError (first : Sender) (next : ℕ → Sender) : Sender := .chain (· == .error) first next

def letStopped (first next : Sender) : Sender := .chain (· == .stopped) first fun _ => next

/-- `repeat_until`, and `repeat` and `repeat_n`. -/
def repeatUntil (checksStop : Bool) (child : Sender) : Sender := .loop .value checksStop child

/-- `retry_until`, and `retry`. -/
def retryUntil (checksStop : Bool) (child : Sender) : Sender := .loop .error checksStop child

end Sender

/-- What an operation does with the completion of the one inside of it. -/
inductive Handler where
  | chain (handles : Channel → Bool) (next : ℕ → Sender)
  | loop (looped : Channel)

/-- A receiver: it has a pointer to the operation it belongs to. -/
structure Receiver where
  ops : Place
  handler : Handler

/-- The loop in `start` of the operation at `ops`, and what it needs of it. -/
structure Frame where
  ops : Place
  looped : Channel
  checksStop : Bool
  child : Sender
  rcvr : List Receiver

/-- What is called, or `ret` when a call returns. An operation that is started or
that completes is given with its receiver and the receivers behind it. -/
inductive Control where
  | start (ops : Place) (sndr : Sender) (rcvr : List Receiver)
  | complete (ch : Channel) (rcvr : List Receiver)
  | ret
  | error

/-- The machine. `received` is what the outermost receiver has been completed
with. -/
structure State where
  control : Control
  loops : List Frame
  slots : Slots
  received : List Channel

/-- The outermost operation, about to be started. -/
def State.init (sndr : Sender) : State := ⟨.start [] sndr [], [], .init, []⟩

inductive Event where
  | start
  | leaf (ch : Channel)
  | completeFirst (i : ℕ)
  | passthrough
  | evaluate (stop : Bool)
  | receive (ch : Channel)
  | beginLoop (stop : Bool)
  | endLoop
  | fault
  deriving DecidableEq

namespace State

/-- The operation whose members the next step reads. -/
def reads (s : State) : Option Place :=
  match s.control with
  | .start x _ _ => some x
  | .complete _ r => r.head?.map Receiver.ops
  | .ret => s.loops.head?.map Frame.ops
  | .error => none

def mayRead (s : State) : Bool := s.reads.all s.slots.alive

/-- The operation in which the step destroys or replaces the one that is there.
`start` of a loop is `setup()`; so is `evaluate` when the predicate says no, and
when it says yes and in `passthrough` the loop does `state.reset()`. -/
def replaces (s : State) : Event → Option Place
  | .start =>
      match s.control with
      | .start x (.loop _ _ _) _ => some x
      | _ => none
  | .completeFirst _ | .evaluate _ => s.reads
  | .passthrough =>
      match s.control with
      | .complete _ (⟨x, .loop _⟩ :: _) => some x
      | _ => none
  | .beginLoop stop => if stop then s.reads else none
  | .leaf _ | .receive _ | .endLoop | .fault => none

end State

/-- The steps when what they read is there. -/
def act (s : State) : Event → Option State
  | .start =>
      match s.control with
      | .start x (.chain h first next) r =>
          some { s with control := .start (0 :: x) first (⟨x, .chain h next⟩ :: r) }
      | .start x (.loop ch cs child) r =>
          some { s with
            control := .ret
            loops := ⟨x, ch, cs, child, r⟩ :: s.loops
            slots := s.slots.emplace x }
      | _ => none
  | .leaf ch =>
      match s.control with
      | .start _ .leaf r => some { s with control := .complete ch r }
      | _ => none
  | .completeFirst i =>
      match s.control with
      | .complete ch (⟨x, .chain h next⟩ :: r) =>
          if h ch then
            some { s with
              control := .start ((s.slots.made x + 1) :: x) (next i) r
              slots := s.slots.emplace x }
          else none
      | _ => none
  | .passthrough =>
      match s.control with
      | .complete ch (⟨_, .chain h _⟩ :: r) =>
          if h ch then none else some { s with control := .complete ch r }
      | .complete ch (⟨x, .loop looped⟩ :: r) =>
          if ch = looped then none
          else some { s with control := .complete ch r, slots := s.slots.reset x }
      | _ => none
  | .evaluate stop =>
      match s.control with
      | .complete ch (⟨x, .loop looped⟩ :: r) =>
          if ch = looped then
            if stop then some { s with control := .complete ch r, slots := s.slots.reset x }
            else some { s with control := .ret, slots := s.slots.emplace x }
          else none
      | _ => none
  | .receive ch =>
      match s.control with
      | .complete ch' [] =>
          if ch' = ch then some { s with control := .ret, received := s.received ++ [ch] }
          else none
      | _ => none
  | .beginLoop stop =>
      match s.control, s.loops with
      | .ret, f :: _ =>
          match s.slots.active f.ops with
          | some k =>
              if stop then
                if f.checksStop then
                  some { s with
                    control := .complete .stopped f.rcvr
                    slots := s.slots.reset f.ops }
                else none
              else
                some { s with
                  control := .start (k :: f.ops) f.child (⟨f.ops, .loop f.looped⟩ :: f.rcvr) }
          | none => none
      | _, _ => none
  | .endLoop =>
      match s.control, s.loops with
      | .ret, f :: fs => if s.slots.active f.ops = none then some { s with loops := fs } else none
      | _, _ => none
  | .fault => none

/-- A step that reads something that is not there is an error. -/
def step (s : State) (e : Event) : Option State :=
  if s.mayRead then act s e
  else if e = .fault then some { s with control := .error }
  else none

/-- The side condition of a step: no loop is under way in an operation that is
destroyed or replaced. -/
def Spares (s : State) (e : Event) : Prop :=
  ∀ x, s.replaces e = some x → ∀ f ∈ s.loops, x.around f.ops = false

instance Spares.decidable (s : State) (e : Event) : Decidable (Spares s e) :=
  match h : s.replaces e with
  | none => isTrue fun x hx => by rw [h] at hx; cases hx
  | some x => decidable_of_iff (∀ f ∈ s.loops, x.around f.ops = false)
      ⟨fun hall y hy => by obtain rfl := Option.some.inj (h.symm.trans hy); exact hall,
        fun hs => hs x h⟩

def State.Returned (s : State) : Prop := s.control = .ret ∧ s.loops = []

end BaremetalSenders.SyncLoop
