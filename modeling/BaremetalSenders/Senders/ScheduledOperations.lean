import BaremetalSenders.Senders.Scheduled
import BaremetalSenders.Senders.SequentialOperations

/-!
The operation states of sequential expressions with schedulers, executed in contexts.

As in `Sequential` the operation states of one expression are a list of cells, and receivers
and arguments have pointers into it. What is new is that an operation of a scheduler can wait:
it is in the queue of an executor, which has a pointer to its cell, and nothing of the
expression is on the stack of a context then. The context that takes it from the queue calls
`run` or `execute`.

A step is a call of `start`, of `run` or of a completion function; `enqueue` is the part of
`start` of a task after the stop token has been looked at.
-/

namespace BaremetalSenders.Scheduled

open Repeat (Channel)
open BaremetalSenders.Sequential (Completion Args)

variable {ℓ K V W : Type*}

/-! ### Receivers and operation states -/

inductive Receiver (K V W : Type*) where
  | outer
  | «then» (handle complete : Channel) (fs : K → List V → W → List V × W) (r : Receiver K V W)
  | «let» (ops : ℕ) (tags : Channel → Bool)
  | sequence (ops : ℕ)

/-- An operation state without the one that is in it. `none` for what has been moved from. -/
inductive Cell (ℓ K V W : Type*) where
  | just (c : Completion V) (receiver : Option (Receiver K V W))
  | schedule (sched : Scheduler ℓ) (rcvr : Option (Receiver K V W))
  | «let» (fn : Channel → List V → K → W → Sender ℓ K V W)
      (effect : Channel → List V → K → W → W) (rcvr : Option (Receiver K V W))
      (results : Option (List V))
  | sequence (func : Option ((K → W → Sender ℓ K V W) × (K → W → W)))
      (rcvr : Option (Receiver K V W))

def connect : Sender ℓ K V W → Receiver K V W → ℕ → List (Cell ℓ K V W)
  | .just c, r, _ => [.just c (some r)]
  | .schedule sched, r, _ => [.schedule sched (some r)]
  | .then handle complete s fs, r, a => connect s (.then handle complete fs r) a
  | .let tags s fn effect, r, a =>
      .let fn effect (some r) none :: connect s (.let a tags) (a + 1)
  | .sequence s func effect, r, a =>
      .sequence (some (func, effect)) (some r) :: connect s (.sequence a) (a + 1)

inductive Control (K V W : Type*) where
  | start (a : ℕ)
  | enqueue (a : ℕ)
  | run (a : ℕ)
  | complete (tag : Channel) (args : Args V) (r : Receiver K V W)

structure Config (ℓ K V W : Type*) where
  heap : List (Cell ℓ K V W)
  control : Control K V W

/-- `connect` has returned, and `start` is called. -/
def Config.init (s : Sender ℓ K V W) : Config ℓ K V W := ⟨connect s .outer 0, .start 0⟩

def Cell.values : Cell ℓ K V W → Option (List V)
  | .just c _ => some c.args
  | _ => none

def readArgs (heap : List (Cell ℓ K V W)) : Args V → Option (List V)
  | .values a => heap[a]?.bind Cell.values
  | .results vs => some vs

/-! ### Steps -/

abbrev Effect (ℓ K V W : Type*) := Outcome (Executor ℓ) (Config ℓ K V W) (Completion V) × W

namespace Config

/-- A completion with what is kept for the time of the call. -/
def send (c : Config ℓ K V W) (comp : Completion V) (r : Receiver K V W) : Config ℓ K V W :=
  { c with control := .complete comp.channel (.results comp.args) r }

/-- The receiver of a scheduler's operation is moved from and completed. -/
def completeScheduled (c : Config ℓ K V W) (a : ℕ) (sched : Scheduler ℓ) (comp : Completion V)
    (r : Receiver K V W) : Config ℓ K V W :=
  { c with heap := c.heap.set a (.schedule sched none) }.send comp r

def start (c : Config ℓ K V W) (a : ℕ) (stopped : Bool) (w : W) : Option (Effect ℓ K V W) :=
  match c.heap[a]? with
  | some (.just comp (some r)) =>
      some (.more ⟨c.heap.set a (.just comp none), .complete comp.channel (.values a) r⟩, w)
  | some (.schedule .inline (some r)) =>
      some (.more (c.completeScheduled a .inline (.value []) r), w)
  | some (.schedule (.executor (.priority p)) (some r)) =>
      if stopped then
        some (.more (c.completeScheduled a (.executor (.priority p)) .stopped r), w)
      else some (.more { c with control := .enqueue a }, w)
  | some (.schedule (.executor e) (some _)) => some (.hop e { c with control := .run a }, w)
  | some (.let _ _ _ _) | some (.sequence _ _) =>
      some (.more { c with control := .start (a + 1) }, w)
  | _ => none

/-- The rest of `start` of a task: `detail::enqueue_task(*this, P)`. -/
def enqueue (c : Config ℓ K V W) (a : ℕ) (w : W) : Option (Effect ℓ K V W) :=
  match c.heap[a]? with
  | some (.schedule (.executor e) (some _)) => some (.hop e { c with control := .run a }, w)
  | _ => none

/-- `run` of a task, `execute` of an operation of a loop, the function of a thread. -/
def run (c : Config ℓ K V W) (a : ℕ) (stopped : Bool) (w : W) : Option (Effect ℓ K V W) :=
  match c.heap[a]? with
  | some (.schedule (.executor e) (some r)) =>
      some (.more (c.completeScheduled a (.executor e)
        (if e.checks && stopped then .stopped else .value []) r), w)
  | _ => none

/-- `op_state::complete_first` of `let_...`: the arguments are stored, the first operation is
destroyed, the function called, and what it returns connected with a copy of the
receiver and started. -/
def completeFirstLet (c : Config ℓ K V W) (ops : ℕ) (tag : Channel) (vs : List V) (k : K) (w : W) :
    Option (Effect ℓ K V W) :=
  match c.heap[ops]? with
  | some (.let fn effect (some rcvr) _) =>
      some (.more ⟨c.heap.take ops ++ .let fn effect (some rcvr) (some vs) ::
        connect (fn tag vs k w) rcvr (ops + 1), .start (ops + 1)⟩, effect tag vs k w)
  | _ => none

/-- `op_state::complete_first` of `sequence`: the function and the receiver are moved from. -/
def completeFirstSequence (c : Config ℓ K V W) (ops : ℕ) (k : K) (w : W) :
    Option (Effect ℓ K V W) :=
  match c.heap[ops]? with
  | some (.sequence (some (func, effect)) (some rcvr)) =>
      some (.more ⟨c.heap.take ops ++ .sequence none none :: connect (func k w) rcvr (ops + 1),
        .start (ops + 1)⟩, effect k w)
  | _ => none

/-- `op_state::passthrough`, of `let_...` and of `sequence`. -/
def passthrough (c : Config ℓ K V W) (ops : ℕ) (tag : Channel) (args : Args V) (w : W) :
    Option (Effect ℓ K V W) :=
  match c.heap[ops]? with
  | some (.let fn effect (some rcvr) results) =>
      some (.more ⟨c.heap.set ops (.let fn effect none results), .complete tag args rcvr⟩, w)
  | some (.sequence func (some rcvr)) =>
      some (.more ⟨c.heap.set ops (.sequence func none), .complete tag args rcvr⟩, w)
  | _ => none

/-- The completion functions of the receivers. `vs` is what the arguments refer to. -/
def complete (c : Config ℓ K V W) (tag : Channel) (args : Args V) (vs : List V) (k : K) (w : W) :
    Receiver K V W → Option (Effect ℓ K V W)
  | .outer => some (.done (.mk vs tag), w)
  | .then handle complete fs r =>
      if tag = handle then
        some (.more (c.send (.mk (fs k vs w).1 complete) r), (fs k vs w).2)
      else some (.more { c with control := .complete tag args r }, w)
  | .let ops tags =>
      if tags tag then c.completeFirstLet ops tag vs k w else c.passthrough ops tag args w
  | .sequence ops =>
      if tag = .value then c.completeFirstSequence ops k w else c.passthrough ops tag args w

/-- One step, in the context `k`, with what the stop token says. -/
def step (c : Config ℓ K V W) (k : K) (stopped : Bool) (w : W) : Option (Effect ℓ K V W) :=
  match c.control with
  | .start a => c.start a stopped w
  | .enqueue a => c.enqueue a w
  | .run a => c.run a stopped w
  | .complete tag args r =>
      (readArgs c.heap args).bind fun vs => c.complete tag args vs k w r

end Config

end BaremetalSenders.Scheduled
