import BaremetalSenders.Foundation.Run
import BaremetalSenders.Senders.Sequential

/-!
The operation states of sequential expressions, and what they do.

An operation state that has others in it has one at a time: `let_...` and
`sequence` have the first one in their variant, then the one that takes its
place, a variant sender has the one it was made for. So all of them together
are a list of cells, from the outermost inwards, and a pointer to one is its
position. To emplace something in the variant of a cell is to destroy all that
is behind it. The receivers of `then` and of `into_variant` wrap the receiver
that they were connected with, those of `let_...` and `sequence` have a pointer
to their cell, and the receiver of that is in the cell until it is moved from.

A completion is sent with references, to what is stored in the cell of a `just`
or to results of functions that are kept for the time of the call. A reference
to a cell that is not there any more cannot be read.

Nothing is done after a call, so there is no stack of calls. One step is a call
of `start` or of a completion function.
-/

namespace BaremetalSenders.Sequential

open Repeat (Channel)
open Routine (done handle)

variable {V W : Type*}

/-! ### Receivers and operation states -/

inductive Receiver (V W : Type*) where
  | outer
  | «then» (handle complete : Channel) (fs : List V → W → List V × W) (r : Receiver V W)
  | «let» (ops : ℕ) (tags : Channel → Bool)
  | sequence (ops : ℕ)
  | intoVariant (variant : List V → V) (r : Receiver V W)

/-- An operation state without the one that is in it. `none` for what has been moved from. -/
inductive Cell (V W : Type*) where
  | just (c : Completion V) (receiver : Option (Receiver V W))
  | justResultOf (tag : Channel) (fs : List (Fn V W)) (receiver : Option (Receiver V W))
  | «let» (fn : Channel → List V → W → Sender V W) (effect : Channel → List V → W → W)
      (rcvr : Option (Receiver V W)) (results : Option (List V))
  | sequence (func : Option ((W → Sender V W) × (W → W))) (rcvr : Option (Receiver V W))
  | variant (index : ℕ)

def connect : Sender V W → Receiver V W → ℕ → List (Cell V W)
  | .just c, r, _ => [.just c (some r)]
  | .justResultOf tag fs, r, _ => [.justResultOf tag fs (some r)]
  | .then handle complete s fs, r, a => connect s (.then handle complete fs r) a
  | .let tags s fn effect, r, a =>
      .let fn effect (some r) none :: connect s (.let a tags) (a + 1)
  | .sequence s func effect, r, a =>
      .sequence (some (func, effect)) (some r) :: connect s (.sequence a) (a + 1)
  | .intoVariant s variant, r, a => connect s (.intoVariant variant r) a
  | .variant index s, r, a => .variant index :: connect s r (a + 1)

inductive Args (V : Type*) where
  | values (a : ℕ)
  | results (vs : List V)

inductive Control (V W : Type*) where
  | start (a : ℕ)
  | complete (tag : Channel) (args : Args V) (r : Receiver V W)
  | ret

/-- `received` is what the outer receiver has been completed with. -/
structure State (V W : Type*) where
  heap : List (Cell V W)
  control : Control V W
  world : W
  received : List (Completion V)

/-- `connect` has returned, and `start` is called. -/
def State.init (s : Sender V W) (w : W) : State V W := ⟨connect s .outer 0, .start 0, w, []⟩

def Cell.values : Cell V W → Option (List V)
  | .just c _ => some c.args
  | _ => none

def readArgs (heap : List (Cell V W)) : Args V → Option (List V)
  | .values a => heap[a]?.bind Cell.values
  | .results vs => some vs

/-! ### Steps -/

namespace State

/-- A completion with what is kept for the time of the call. -/
def send (s : State V W) (c : Completion V) (r : Receiver V W) : State V W :=
  { s with control := .complete c.channel (.results c.args) r }

/-- `op_state::complete_first` of `let_...`: the arguments are stored, the first operation is
destroyed, the function called, and what it returns connected with a copy of the
receiver and started. -/
def completeFirstLet (s : State V W) (ops : ℕ) (tag : Channel) (vs : List V) :
    Option (State V W) :=
  match s.heap[ops]? with
  | some (.let fn effect (some rcvr) _) =>
      some { s with
        heap := s.heap.take ops ++ .let fn effect (some rcvr) (some vs) ::
          connect (fn tag vs s.world) rcvr (ops + 1)
        control := .start (ops + 1)
        world := effect tag vs s.world }
  | _ => none

/-- `op_state::complete_first` of `sequence`: the function and the receiver are moved from. -/
def completeFirstSequence (s : State V W) (ops : ℕ) : Option (State V W) :=
  match s.heap[ops]? with
  | some (.sequence (some (func, effect)) (some rcvr)) =>
      some { s with
        heap := s.heap.take ops ++ .sequence none none :: connect (func s.world) rcvr (ops + 1)
        control := .start (ops + 1)
        world := effect s.world }
  | _ => none

/-- `op_state::passthrough`, of `let_...` and of `sequence`. -/
def passthrough (s : State V W) (ops : ℕ) (tag : Channel) (args : Args V) : Option (State V W) :=
  match s.heap[ops]? with
  | some (.let fn effect (some rcvr) results) =>
      some { s with
        heap := s.heap.set ops (.let fn effect none results)
        control := .complete tag args rcvr }
  | some (.sequence func (some rcvr)) =>
      some { s with
        heap := s.heap.set ops (.sequence func none)
        control := .complete tag args rcvr }
  | _ => none

/-- `start` of the operation state at `a`. -/
def start (order : ArgumentOrder) (s : State V W) (a : ℕ) : Option (State V W) :=
  match s.heap[a]? with
  | some (.just c (some r)) =>
      some { s with
        heap := s.heap.set a (.just c none)
        control := .complete c.channel (.values a) r }
  | some (.justResultOf tag fs (some r)) =>
      let called := callAll order fs s.world
      some (State.send
        { s with heap := s.heap.set a (.justResultOf tag fs none), world := called.2 }
        (.mk called.1 tag) r)
  | some (.let _ _ _ _) | some (.sequence _ _) | some (.variant _) =>
      some { s with control := .start (a + 1) }
  | _ => none

/-- The completion functions of the receivers. `vs` is what the arguments refer to. -/
def complete (s : State V W) (tag : Channel) (args : Args V) (vs : List V) :
    Receiver V W → Option (State V W)
  | .outer => some { s with control := .ret, received := s.received ++ [.mk vs tag] }
  | .then handle complete fs r =>
      if tag = handle then
        some (State.send { s with world := (fs vs s.world).2 } (.mk (fs vs s.world).1 complete) r)
      else some { s with control := .complete tag args r }
  | .let ops tags => if tags tag then s.completeFirstLet ops tag vs else s.passthrough ops tag args
  | .sequence ops =>
      if tag = .value then s.completeFirstSequence ops else s.passthrough ops tag args
  | .intoVariant variant r =>
      if tag = .value then some (s.send (.value [variant vs]) r)
      else some { s with control := .complete tag args r }

end State

/-- There is nothing to choose. -/
def step (order : ArgumentOrder) (s : State V W) (_ : Unit) : Option (State V W) :=
  match s.control with
  | .start a => s.start order a
  | .complete tag args r => (readArgs s.heap args).bind fun vs => s.complete tag args vs r
  | .ret => none

/-- `just(1) | let_value([](auto i) { return just(i, i); }) | then(f)`, where `f` takes the
first and writes the second. -/
example : (exec (step fun _ => Equiv.refl _)
    (.init (.then_ (.letValue (.just_ [1]) (fun vs _ => .just_ (vs ++ vs)) fun _ w => w)
      fun vs w => (vs.take 1, w ++ vs.drop 1)) [0]) (List.replicate 6 ())).map
    (fun st => (st.received, st.world)) = some ([.value [1]], [0, 1]) := rfl

/-! ### Sending a completion

`Sends order below r result s`: from `s` the receiver `r` comes to be completed
with the result, and the cells `below` are there as they were. What is behind
them is of no use any more, but for the arguments.
-/

section Sends

variable {order : ArgumentOrder} {below : List (Cell V W)} {r : Receiver V W}
  {result result' : Completion V × W} {s s' : State V W}

def Sends (order : ArgumentOrder) (below : List (Cell V W)) (r : Receiver V W)
    (result : Completion V × W) (s : State V W) : Prop :=
  ∃ tr above args, Run (step order) s tr ⟨below ++ above, .complete result.1.channel args r,
    result.2, s.received⟩ ∧ readArgs (below ++ above) args = some result.1.args

theorem Sends.step (hs : step order s () = some s') (hreceived : s'.received = s.received)
    (h : Sends order below r result s') : Sends order below r result s := by
  obtain ⟨tr, above, args, hrun, hargs⟩ := h
  rw [hreceived] at hrun
  exact ⟨() :: tr, above, args, run_cons.mpr ⟨s', hs, hrun⟩, hargs⟩

/-- After another receiver has been completed. -/
theorem Sends.trans {below' : List (Cell V W)} {r' : Receiver V W}
    (h : Sends order below' r' result' s)
    (h' : ∀ above args, readArgs (below' ++ above) args = some result'.1.args →
      Sends order below r result ⟨below' ++ above, .complete result'.1.channel args r', result'.2,
        s.received⟩) : Sends order below r result s := by
  obtain ⟨tr, above, args, hrun, hargs⟩ := h
  obtain ⟨tr', above', args', hrun', hargs'⟩ := h' above args hargs
  exact ⟨tr ++ tr', above', args', run_append.mpr ⟨_, hrun, hrun'⟩, hargs'⟩

/-- The last of the cells is not needed any more. -/
theorem Sends.drop {c : Cell V W} (h : Sends order (below ++ [c]) r result s) :
    Sends order below r result s := by
  obtain ⟨tr, above, args, hrun, hargs⟩ := h
  rw [List.append_assoc] at hrun hargs
  exact ⟨tr, _, args, hrun, hargs⟩

/-- It is being completed. -/
theorem Sends.now {above : List (Cell V W)} {args : Args V} {c : Completion V} {w : W}
    {received : List (Completion V)} (hargs : readArgs (below ++ above) args = some c.args) :
    Sends order below r (c, w) ⟨below ++ above, .complete c.channel args r, w, received⟩ :=
  ⟨[], above, args, run_nil.mpr rfl, hargs⟩

theorem getElem?_below {c : Cell V W} {above : List (Cell V W)} :
    (below ++ c :: above)[below.length]? = some c := by
  rw [List.getElem?_append_right (Nat.le_refl _), Nat.sub_self]
  rfl

theorem set_below {c c' : Cell V W} {above : List (Cell V W)} :
    (below ++ c :: above).set below.length c' = below ++ c' :: above := by
  rw [List.set_append_right _ _ (Nat.le_refl _), Nat.sub_self]
  rfl

/-- What arguments refer to is not in the cells of `let_...` and `sequence`. -/
theorem readArgs_below {c c' : Cell V W} {above : List (Cell V W)} {args : Args V}
    (hc : c.values = none) (hc' : c'.values = none) :
    readArgs (below ++ c' :: above) args = readArgs (below ++ c :: above) args := by
  cases args with
  | results vs => rfl
  | values a =>
      have hset : (below ++ c :: above).set below.length c' = below ++ c' :: above := set_below
      rw [← hset]
      simp only [readArgs, List.getElem?_set]
      split
      · next ha =>
          subst ha
          rw [getElem?_below]
          split
          · exact hc'.trans hc.symm
          · exact hc.symm
      · rfl

end Sends

end BaremetalSenders.Sequential
