import BaremetalSenders.StopToken.StopSource

/-!
`start_detached_stoppable` and `stop_detached` for one name with the static
allocator.

The operation states of a name are built one after the other in the same
storage, and each has its stop source inside. They are numbered in the order
of their construction; a call of `request_stop` and a callback carry the number
of the operation whose source they were given, which the program does not know.
What is in the storage is one `StopToken.State`: when an operation is destroyed
its source stays there as it is, for those who still look at it, until the next
one is constructed over it.
-/

namespace BaremetalSenders.Detached

/-- The storage of `static_allocator_t<Name, T, 1>`, with where `start` and `die` are: an
operation is `started` once its source has been published, and `dying` once `die` has
withdrawn it. -/
inductive Slot where
  | free
  | allocated
  | constructed (op : ℕ)
  | started (op : ℕ)
  | dying (op : ℕ)
  | destroyed
  deriving DecidableEq

def Slot.used : Slot → Bool
  | .free => false
  | _ => true

/-- The operation whose state is in the storage. -/
def Slot.live : Slot → Option ℕ
  | .constructed op | .started op | .dying op => some op
  | .free | .allocated | .destroyed => none

/-- `stop_source_for<Uniq>`: it points to the source of the operation, or it is null. -/
def Slot.stopSourceFor : Slot → Option ℕ
  | .started op => some op
  | _ => none

/-- `constructed` counts the operations. `called` are the calls of `request_stop` that have
been begun, and `uniq` those made by `stop_detached` inside its critical section, the
innermost first. -/
structure State (κ ρ : Type*) where
  slot : Slot
  constructed : ℕ
  source : StopToken.State (ℕ × κ) (ℕ × ρ)
  called : ℕ × ρ → Bool
  uniq : List (ℕ × ρ)

variable {κ ρ : Type*}

def State.init : State κ ρ where
  slot := .free
  constructed := 0
  source := .init
  called := fun _ => false
  uniq := []

/-- The steps of the allocator, of `start`, of `die` and of `stop_detached`; the begin of a
call of `request_stop` through the pointer `start` has returned; and the steps of the stop
source. -/
inductive Label (κ ρ : Type*) where
  | construct (allocated : Bool)
  | constructAt
  | setStopSource
  | die
  | destroyAt
  | deallocate
  | requestStop (r : ℕ × ρ)
  | stopDetached (r : Option (ℕ × ρ))
  | stopDetachedReturn (r : ℕ × ρ)
  | source (l : StopToken.Label (ℕ × κ) (ℕ × ρ))
  deriving DecidableEq

namespace State

/-- A critical section of `Uniq` can be entered when nobody is in one, or from within a
callback that is called there. -/
def mayEnter (s : State κ ρ) : Bool :=
  match s.uniq with
  | [] => true
  | r :: _ => (s.source.calls r).isRunning

/-- A step of the stop source is taken by a call that has been begun; and an operation
registers its callbacks while it lives. -/
def admits (s : State κ ρ) : StopToken.Label (ℕ × κ) (ℕ × ρ) → Bool
  | .exchange r => s.called r
  | .enterRegister cb => s.slot.live = some cb.1
  | _ => true

end State

variable [DecidableEq κ] [DecidableEq ρ]

def State.call (s : State κ ρ) (r : ℕ × ρ) : State κ ρ :=
  { s with called := Function.update s.called r true }

def step (s : State κ ρ) : Label κ ρ → Option (State κ ρ)
  | .construct allocated =>
      if s.slot.used = !allocated then
        some (if allocated then { s with slot := .allocated } else s)
      else none
  | .constructAt =>
      if s.slot = .allocated then
        some { s with
          slot := .constructed s.constructed
          constructed := s.constructed + 1
          source := { s.source with source := .init } }
      else none
  | .setStopSource =>
      match s.slot with
      | .constructed op => if s.mayEnter then some { s with slot := .started op } else none
      | _ => none
  | .die =>
      match s.slot with
      | .started op => if s.mayEnter then some { s with slot := .dying op } else none
      | _ => none
  | .destroyAt =>
      match s.slot with
      -- The callbacks in the operation state are destroyed before its source.
      | .dying _ =>
          if s.source.source.callbacks = [] then some { s with slot := .destroyed } else none
      | _ => none
  | .deallocate => if s.slot = .destroyed then some { s with slot := .free } else none
  | .requestStop r =>
      if s.slot.live = some r.1 ∧ s.called r = false then some (s.call r) else none
  | .stopDetached none => if s.mayEnter ∧ s.slot.stopSourceFor = none then some s else none
  | .stopDetached (some r) =>
      if s.mayEnter ∧ s.slot.stopSourceFor = some r.1 ∧ s.called r = false then
        some { s.call r with uniq := r :: s.uniq }
      else none
  | .stopDetachedReturn r =>
      if s.uniq.head? = some r ∧ (s.source.calls r).isReturned then
        some { s with uniq := s.uniq.tail }
      else none
  | .source l =>
      if s.admits l then (StopToken.step s.source l).map fun source => { s with source := source }
      else none

end BaremetalSenders.Detached
