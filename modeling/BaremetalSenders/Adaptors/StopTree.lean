import BaremetalSenders.Adaptors.WhenAll
import BaremetalSenders.Adaptors.WhenAny
import BaremetalSenders.StopToken.StopSource

/-!
A tree of `when_all` and `when_any` operation states.

Every inner node has its own stop source, whose token its children get, and a
callback on the token in its receiver's environment, which is that of its
parent, or the root token for the topmost. A leaf is any operation that
registers a callback on its token when it is started, completes at some time
after that in whatever way its parent admits, and takes the callback down when
it does.

So a state is one of each operation state and one of each stop source. The
steps of an operation state and of a source are theirs; they take them together
where the code of the one calls the other: `start` and `complete` construct and
destroy the node's callback at the parent's source, this source pops it, and
the callback and the policy call `request_stop` on the node's own source. A call
that is nested in another one has to return before the other one goes on: what
runs the callback of a node waits for the `request_stop` in it, and so does the
completion of a child for the one its policy makes.
-/

namespace BaremetalSenders.StopTree

open Join

universe u v

variable {V : Type u} {E : Type v}

/-- The numbers of the children to take, the last one first: `i :: p` is child `i` of `p`. -/
abbrev Path := List ℕ

/-- The token in the environment of a node's receiver, by its source: the own source of the
parent, or the one of the root token. -/
def token : Path → Option Path
  | [] => none
  | _ :: p => some p

/-- Who calls `request_stop`: somebody who has the root's source, the stop callback of a node,
or the policy when a child completes. -/
inductive Caller where
  | external (k : ℕ)
  | stopCb
  | child (i : ℕ)
  deriving DecidableEq

abbrev SourceState := StopToken.State Path Caller
abbrev SourceLabel := StopToken.Label Path Caller

/-- `when_any` with its policy, or `when_all` with what its children send. -/
inductive Kind (n : ℕ) (V : Type u) (E : Type v) where
  | whenAny (policy : WhenAny.StopPolicy (List V) E)
  | whenAll (children : Fin n → WhenAll.Child)

namespace Kind

variable {n : ℕ}

def Data : Kind n V E → Type (max u v)
  | .whenAny _ => Option (Completion (List V) E)
  | .whenAll _ => WhenAll.Data n V E

def ops : (kind : Kind n V E) → Ops n (List V) E kind.Data
  | .whenAny policy => WhenAny.opState n policy
  | .whenAll children => WhenAll.opState children

/-- The completions of a child that make the operation state request stop. -/
def requestsStop : Kind n V E → Completion (List V) E → Bool
  | .whenAny policy, c => policy.requestsStop c
  | .whenAll _, c => !c.isValue

end Kind

structure Node (V : Type u) (E : Type v) where
  arity : ℕ
  arity_pos : 0 < arity
  kind : Kind arity V E

/-- Only the paths that lead from node to node by numbers of children are in the tree; nothing
is ever started elsewhere. -/
structure Tree (V : Type u) (E : Type v) where
  leaf : Path → Bool
  node : Path → Node V E

namespace Tree

variable (T : Tree V E)

abbrev Op (p : Path) := Join.State (T.node p).arity (List V) E (T.node p).kind.Data
abbrev OpLabel (p : Path) := Join.Label (T.node p).arity (List V) E

abbrev ops (p : Path) : Ops (T.node p).arity (List V) E (T.node p).kind.Data :=
  (T.node p).kind.ops

end Tree

/-- The operation states, the stop sources, whether a leaf has begun to complete, and whether
the stop callback of a node has been called. The flags of the stop sources are those of
`source`; the ones in `op` are not looked at. -/
structure State (T : Tree V E) where
  op : (p : Path) → T.Op p
  source : Option Path → SourceState
  done : Path → Bool
  called : Path → Bool

/-- A step of an operation state, a step of a stop source, a step they take together, or a leaf
begins to complete. -/
inductive Label (T : Tree V E) where
  | op (p : Path) (l : T.OpLabel p)
  | source (x : Option Path) (m : SourceLabel)
  | both (p : Path) (l : T.OpLabel p) (m : SourceLabel)
  | complete (p : Path)

/-- The source at which an operation state takes a step: the own one, where it calls
`request_stop`, or the one its callback is registered at. -/
def sourceOf {n : ℕ} {V E : Type*} (p : Path) : Join.Label n V E → Option Path
  | .runStopCb | .act _ => some p
  | _ => token p

/-- The next thing to do for a child's completion is to request stop. -/
def asksStop {V E D : Type*} : Phase V E D → Bool
  | .completing _ (.requestStop :: _) => true
  | _ => false

def isRunning {V E D : Type*} : Phase V E D → Bool
  | .running => true
  | _ => false

def callbackOf : SourceLabel → Option Path
  | .exchange _ => none
  | .getNextCb _ p => p
  | .run _ p | .ran _ p | .enterRegister p | .leaveRegister p _ | .invoke p | .invoked p
  | .unregister p _ => some p

namespace State

variable {T : Tree V E}

def init : State T where
  op := fun p => (T.ops p).initial
  source := fun _ => .init
  done := fun _ => false
  called := fun _ => false

/-- The operation state with the flags of the two sources it looks at. -/
def view (s : State T) (p : Path) : T.Op p :=
  { s.op p with
    requested := (s.source (some p)).source.requested
    rcvrRequested := (s.source (token p)).source.requested }

def setOp (s : State T) (p : Path) (o : T.Op p) : State T :=
  { s with op := Function.update s.op p o }

def setSource (s : State T) (x : Option Path) (t : SourceState) : State T :=
  { s with source := Function.update s.source x t }

/-- The callback of a node is called, by the source or by its constructor. -/
def callBack (s : State T) : SourceLabel → State T
  | .run _ p | .invoke p => { s with called := Function.update s.called p true }
  | _ => s

/-- The node or leaf has been started and has not completed. -/
def running (s : State T) : Path → Bool
  | [] => true
  | i :: p => !T.leaf p &&
      if h : i < (T.node p).arity then isRunning ((s.op p).phase ⟨i, h⟩) else false

/-- The stop callback of the node has been constructed. -/
def hasCallback (s : State T) (p : Path) : Bool :=
  (s.source (token p)).life p == .registered || (s.source (token p)).life p == .constructed

variable [DecidableEq V] [DecidableEq E]

/-- The steps an operation state takes by itself. -/
def allowsOp (s : State T) (p : Path) : T.OpLabel p → Bool
  | .startStopped | .startChildren => s.hasCallback p
  | .startChild _ | .finish _ => true
  | .complete i c =>
      if T.leaf (i :: p) then s.done (i :: p) else decide ((s.op (i :: p)).received = [c])
  | .act i => !asksStop ((s.op p).phase i)
  | .leave i =>
      (s.source (some p)).calls (.child i) == .idle ||
        ((s.source (some p)).calls (.child i)).isReturned
  | _ => false

/-- The steps a source takes by itself. The callback of a leaf may do anything. -/
def allowsSource (s : State T) (x : Option Path) (m : SourceLabel) : Bool :=
  (callbackOf m).all (fun p => token p == x) &&
    match m with
    | .exchange (.external _) => x.isNone
    | .exchange _ => false
    | .getNextCb _ p => p.all T.leaf
    | .enterRegister p => T.leaf p && s.running p && !s.done p
    | .unregister p _ => T.leaf p && s.done p
    | .ran _ p | .invoked p => T.leaf p || ((s.source (some p)).calls .stopCb).isReturned
    | .run _ _ | .leaveRegister _ _ | .invoke _ => true

/-- The steps they take together. -/
def allowsBoth (s : State T) (p : Path) : T.OpLabel p → SourceLabel → Bool
  | .emplaceStopCb _, .enterRegister q => q == p && s.running p
  | .popStopCb, .getNextCb _ q => q == some p
  | .runStopCb, .exchange r => r == .stopCb && s.called p
  | .act i, .exchange r => r == .child i && asksStop ((s.op p).phase i)
  | .resetStopCb _, .unregister q _ => q == p
  | _, _ => false

end State

variable {T : Tree V E} [DecidableEq V] [DecidableEq E]

def step (s : State T) : Label T → Option (State T)
  | .op p l =>
      if !T.leaf p && s.allowsOp p l then
        (Join.step (T.ops p) (s.view p) l).map fun o => s.setOp p o
      else none
  | .source x m =>
      if s.allowsSource x m then
        (StopToken.step (s.source x) m).map fun t => (s.setSource x t).callBack m
      else none
  | .both p l m =>
      if !T.leaf p && s.allowsBoth p l m then
        (Join.step (T.ops p) (s.view p) l).bind fun o =>
          (StopToken.step (s.source (sourceOf p l)) m).map fun t =>
            (s.setOp p o).setSource (sourceOf p l) t
      else none
  | .complete p =>
      if T.leaf p && s.running p && !s.done p then
        some { s with done := Function.update s.done p true }
      else none

end BaremetalSenders.StopTree
