import BaremetalSenders.Foundation.Run
import BaremetalSenders.Foundation.Storage
import BaremetalSenders.Senders.Expressions

/-!
The operation states of sender expressions.

An operation is in the one it belongs to, at a place of nested storage. `start`
and the completions call each other, and where a function has something to do
after a call it is among the frames, the innermost first: the loop of `repeat`
or `retry` over a synchronous child, `sync_op_state::start` of `when_all`, and
the callback of a `when_any` of nothing. Whoever is not synchronous waits after
`start` has returned, and can complete at any time from then on, in an interrupt
of what is being done.

The children of a `when_all` are all there from the beginning. Nobody looks at
one that has returned, so the next one is put in its place. Only the operation
state for synchronous children is here.
-/

namespace BaremetalSenders.Expressions

open Repeat (Channel)

variable {Q T : Type*}

/-- What `repeat` and `retry` are compiled with: the channel they loop on, whether the
predicate is `never_stop`, whether the child's operation state is synchronous,
whether the loop looks for a stop request, and the child. -/
structure Driver (Q T : Type*) where
  looped : Channel
  never : Bool
  isSync : Bool
  checksStop : Bool
  child : Sender Q T

/-- What a receiver does with a completion. The `let_...` has the signatures it goes on
after, and `into_variant` its variant type. -/
inductive Handler (Q T : Type*) where
  | «then» (handle complete : Channel) (results : List T → List T)
  | «let» (tags : Channel → Bool) (sigs : Signatures T) (dependent : Signature T → Sender Q T)
  | sequence (dependent : Sender Q T)
  | inciteOn (dependent : Sender Q T)
  | intoVariant (variant : T)
  | loop (driver : Driver Q T)
  | whenAll

/-- A receiver of an adaptor, which is in the operation at `ops` or has a pointer to it. -/
structure Receiver (Q T : Type*) where
  ops : Place
  handler : Handler Q T

/-- The environment of a receiver that has these receivers behind it, where the outermost
one has `e`. -/
def envOf (qs : Queries Q T) (e : Env Q T) : List (Receiver Q T) → Env Q T
  | [] => e
  | ⟨_, .whenAll⟩ :: r => (envOf qs e r).neverStop
  | _ :: r => (envOf qs e r).forward qs

/-- What is called, or `ret` when a call returns. -/
inductive Control (Q T : Type*) where
  | start (ops : Place) (s : Sender Q T) (rcvr : List (Receiver Q T))
  | complete (σ : Signature T) (rcvr : List (Receiver Q T))
  | beginLoop (ops : Place) (driver : Driver Q T) (rcvr : List (Receiver Q T))
  | ret
  | error

def Control.isError : Control Q T → Bool
  | .error => true
  | _ => false

/-- What has still to be done after a call. -/
inductive Frame (Q T : Type*) where
  | loop (ops : Place) (driver : Driver Q T) (rcvr : List (Receiver Q T))
  | whenAll (ops : Place) (rest : List (Sender Q T)) (sigs : Signatures T)
      (rcvr : List (Receiver Q T))
  | stopCallback (ops : Place)
  | resume (control : Control Q T)

/-- An operation that has been started and has returned: what it can complete with. -/
structure Waiting (Q T : Type*) where
  ops : Place
  sigs : Signatures T
  isAny : Bool
  rcvr : List (Receiver Q T)

/-- The machine. `received` is what the outermost receiver has been completed with. -/
structure State (Q T : Type*) where
  control : Control Q T
  frames : List (Frame Q T)
  slots : Slots
  waiting : List (Waiting Q T)
  received : List (Signature T)

def State.init (s : Sender Q T) : State Q T := ⟨.start [] s [], [], .init, [], []⟩

inductive Event (T : Type*) where
  | start
  | option (i : ℕ)
  | send (σ : Signature T)
  | wait
  | stopRequested
  | handle
  | evaluate (stop : Bool)
  | receive
  | «begin»
  | beginStopped
  | again
  | endLoop
  | nextChild
  | finish (σ : Signature T)
  | resetCallback
  | resume
  | fire (i : ℕ) (σ : Signature T)
  | fault
  deriving DecidableEq

def Event.isFire : Event T → Bool
  | .fire _ _ => true
  | _ => false

namespace State

/-- The operation whose members the next step reads. -/
def reads (s : State Q T) : Option Place :=
  match s.control with
  | .start x _ _ | .beginLoop x _ _ => some x
  | .complete _ r => r.head?.map Receiver.ops
  | .ret =>
      match s.frames with
      | .loop x _ _ :: _ | .whenAll x _ _ _ :: _ | .stopCallback x :: _ => some x
      | .resume _ :: _ | [] => none
  | .error => none

def mayRead (s : State Q T) : Bool := s.reads.all s.slots.alive

/-- What is in the variant of the operation at `x` is replaced by an operation of `d`, which
is started. -/
def complete_first (s : State Q T) (x : Place) (d : Sender Q T) (r : List (Receiver Q T)) :
    State Q T :=
  { s with control := .start ((s.slots.made x + 1) :: x) d r, slots := s.slots.emplace x }

def Returned (s : State Q T) : Prop := s.control = .ret ∧ s.frames = []

end State

section Step

variable [DecidableEq T] (qs : Queries Q T) (e : Env Q T)

def start (s : State Q T) (x : Place) (r : List (Receiver Q T)) : Sender Q T → Option (State Q T)
  | .then handle complete child results =>
      some { s with control := .start x child (⟨x, .then handle complete results⟩ :: r) }
  | .let tags child dependent =>
      let sigs := ((child.signatures (envOf qs e r)).filter fun σ => tags σ.channel)
      some { s with control := .start (0 :: x) child (⟨x, .let tags sigs dependent⟩ :: r) }
  | .sequence child dependent =>
      some { s with control := .start (0 :: x) child (⟨x, .sequence dependent⟩ :: r) }
  | .inciteOn child dependent =>
      some { s with control := .start (0 :: x) child (⟨x, .inciteOn dependent⟩ :: r) }
  | .intoVariant child variantOf =>
      let types := (valueTypes (child.signatures (envOf qs e r))).eraseDups
      some { s with control := .start x child (⟨x, .intoVariant (variantOf types)⟩ :: r) }
  | .loop looped never child =>
      let driver : Driver Q T := ⟨looped, never,
        child.opSynchronous qs ((envOf qs e r).forward qs),
        !(child.signatures (envOf qs e r)).sendsStopped, child⟩
      if driver.isSync then
        some { s with
          control := .ret
          frames := .loop x driver r :: s.frames
          slots := s.slots.emplace x }
      else some { s with control := .beginLoop x driver r, slots := s.slots.emplace x }
  | .whenAll n children =>
      if (Sender.whenAll n children).synchronous then
        some { s with
          control := .ret
          frames := .whenAll x (List.ofFn children)
            ((Sender.whenAll n children).signatures (envOf qs e r)) r :: s.frames }
      else none
  | .leaf _ _ _ | .variant _ _ | .whenAny => none

def handle (s : State Q T) (σ : Signature T) (x : Place) (r : List (Receiver Q T)) :
    Handler Q T → Option (State Q T)
  | .then handle complete results =>
      some { s with
        control := .complete
          (if σ.channel = handle then .mk (results σ.args) complete else σ) r }
  | .let tags sigs dependent =>
      if tags σ.channel then
        if σ ∈ sigs then some (s.complete_first x (dependent σ) r) else none
      else some { s with control := .complete σ r }
  | .sequence dependent | .inciteOn dependent =>
      if σ.channel = .value then some (s.complete_first x dependent r)
      else some { s with control := .complete σ r }
  | .intoVariant variant =>
      some { s with control := .complete (if σ.channel = .value then .value [variant] else σ) r }
  | .loop driver =>
      if σ.channel = driver.looped then none
      else some { s with control := .complete σ r, slots := s.slots.reset x }
  | .whenAll => some { s with control := .ret }

def act (s : State Q T) : Event T → Option (State Q T)
  | .start =>
      match s.control with
      | .start x sndr r => start qs e s x r sndr
      | _ => none
  | .option i =>
      match s.control with
      | .start x (.variant n options) r =>
          if h : i < n then some { s with control := .start (0 :: x) (options ⟨i, h⟩) r } else none
      | _ => none
  | .send σ =>
      match s.control with
      | .start _ (.leaf true queries sigs) r =>
          if σ ∈ (Sender.leaf true queries sigs).signatures (envOf qs e r) then
            some { s with control := .complete σ r }
          else none
      | _ => none
  | .wait =>
      match s.control with
      | .start x (.leaf false queries sigs) r =>
          some { s with
            control := .ret
            waiting := ⟨x, (Sender.leaf false queries sigs).signatures (envOf qs e r), false, r⟩ ::
              s.waiting }
      | .start x .whenAny r =>
          if (envOf qs e r).stoppable then
            some { s with
              control := .ret
              waiting := ⟨x, [.stopped], true, r⟩ :: s.waiting.filter fun w => w.ops != x }
          else none
      | _ => none
  | .stopRequested =>
      match s.control with
      | .start x .whenAny r =>
          if (envOf qs e r).stoppable then
            some { s with
              control := .complete .stopped r
              frames := .stopCallback x :: s.frames }
          else none
      | _ => none
  | .handle =>
      match s.control with
      | .complete σ (⟨x, h⟩ :: r) => handle s σ x r h
      | _ => none
  | .evaluate stop =>
      match s.control with
      | .complete σ (⟨x, .loop driver⟩ :: r) =>
          if σ.channel = driver.looped ∧ (stop = true → driver.never = false) then
            if stop then some { s with control := .complete σ r, slots := s.slots.reset x }
            else some { s with
              control := if driver.isSync then .ret else .beginLoop x driver r
              slots := s.slots.emplace x }
          else none
      | _ => none
  | .receive =>
      match s.control with
      | .complete σ [] => some { s with control := .ret, received := s.received ++ [σ] }
      | _ => none
  | .begin =>
      match s.control with
      | .beginLoop x driver r =>
          (s.slots.active x).map fun k =>
            { s with control := .start (k :: x) driver.child (⟨x, .loop driver⟩ :: r) }
      | _ => none
  | .beginStopped =>
      match s.control with
      | .beginLoop x driver r =>
          if driver.checksStop ∧ (envOf qs e r).stoppable then
            some { s with control := .complete .stopped r, slots := s.slots.reset x }
          else none
      | _ => none
  | .again =>
      match s.control, s.frames with
      | .ret, .loop x driver r :: _ =>
          if s.slots.active x = none then none
          else some { s with control := .beginLoop x driver r }
      | _, _ => none
  | .endLoop =>
      match s.control, s.frames with
      | .ret, .loop x _ _ :: fs =>
          if s.slots.active x = none then some { s with frames := fs } else none
      | _, _ => none
  | .nextChild =>
      match s.control, s.frames with
      | .ret, .whenAll x (child :: rest) sigs r :: fs =>
          some { s.complete_first x child (⟨x, .whenAll⟩ :: r) with
            frames := .whenAll x rest sigs r :: fs }
      | _, _ => none
  | .finish σ =>
      match s.control, s.frames with
      | .ret, .whenAll _ [] sigs r :: fs =>
          if σ ∈ sigs ∧ σ.channel ≠ .stopped then
            some { s with control := .complete σ r, frames := fs }
          else none
      | _, _ => none
  | .resetCallback =>
      match s.control, s.frames with
      | .ret, .stopCallback _ :: fs => some { s with frames := fs }
      | _, _ => none
  | .resume =>
      match s.control, s.frames with
      | .ret, .resume c :: fs => some { s with control := c, frames := fs }
      | _, _ => none
  | .fire i σ =>
      match s.waiting[i]? with
      | some w =>
          if s.control.isError = false ∧ σ ∈ w.sigs then
            some { s with
              control := .complete σ w.rcvr
              frames := (if w.isAny then [.stopCallback w.ops] else []) ++
                .resume s.control :: s.frames
              waiting := s.waiting.eraseIdx i }
          else none
      | none => none
  | .fault => none

/-- A step that reads something that is not there is an error: what it does is not defined. -/
def step (s : State Q T) (l : Event T) : Option (State Q T) :=
  if s.mayRead || l.isFire then act qs e s l
  else if l = .fault then some { s with control := .error }
  else none

/-! ### What a step can do -/

inductive Move (s : State Q T) : Event T → State Q T → Prop
  | start (x sndr r s') : s.control = .start x sndr r → start qs e s x r sndr = some s' →
      Move s .start s'
  | option (x n options r) (i : Fin n) : s.control = .start x (.variant n options) r →
      Move s (.option i) { s with control := .start (0 :: x) (options i) r }
  | send (x queries sigs r σ) : s.control = .start x (.leaf true queries sigs) r →
      σ ∈ (Sender.leaf true queries sigs).signatures (envOf qs e r) →
      Move s (.send σ) { s with control := .complete σ r }
  | wait (x queries sigs r) : s.control = .start x (.leaf false queries sigs) r →
      Move s .wait { s with
        control := .ret
        waiting := ⟨x, (Sender.leaf false queries sigs).signatures (envOf qs e r), false, r⟩ ::
          s.waiting }
  | waitAny (x r) : s.control = .start x .whenAny r → (envOf qs e r).stoppable = true →
      Move s .wait { s with
        control := .ret
        waiting := ⟨x, [.stopped], true, r⟩ :: s.waiting.filter fun w => w.ops != x }
  | stopRequested (x r) : s.control = .start x .whenAny r → (envOf qs e r).stoppable = true →
      Move s .stopRequested { s with
        control := .complete .stopped r
        frames := .stopCallback x :: s.frames }
  | handle (σ x h r s') : s.control = .complete σ (⟨x, h⟩ :: r) → handle s σ x r h = some s' →
      Move s .handle s'
  | evaluateYes (σ x driver r) : s.control = .complete σ (⟨x, .loop driver⟩ :: r) →
      σ.channel = driver.looped → driver.never = false →
      Move s (.evaluate true) { s with control := .complete σ r, slots := s.slots.reset x }
  | evaluateNo (σ x driver r) : s.control = .complete σ (⟨x, .loop driver⟩ :: r) →
      σ.channel = driver.looped →
      Move s (.evaluate false) { s with
        control := if driver.isSync then .ret else .beginLoop x driver r
        slots := s.slots.emplace x }
  | receive (σ) : s.control = .complete σ [] →
      Move s .receive { s with control := .ret, received := s.received ++ [σ] }
  | «begin» (x driver r k) : s.control = .beginLoop x driver r → s.slots.active x = some k →
      Move s .begin { s with control := .start (k :: x) driver.child (⟨x, .loop driver⟩ :: r) }
  | beginStopped (x driver r) : s.control = .beginLoop x driver r → driver.checksStop = true →
      (envOf qs e r).stoppable = true →
      Move s .beginStopped { s with control := .complete .stopped r, slots := s.slots.reset x }
  | again (x driver r fs) : s.control = .ret → s.frames = .loop x driver r :: fs →
      s.slots.active x ≠ none → Move s .again { s with control := .beginLoop x driver r }
  | endLoop (x driver r fs) : s.control = .ret → s.frames = .loop x driver r :: fs →
      s.slots.active x = none → Move s .endLoop { s with frames := fs }
  | nextChild (x child rest sigs r fs) : s.control = .ret →
      s.frames = .whenAll x (child :: rest) sigs r :: fs →
      Move s .nextChild { s.complete_first x child (⟨x, .whenAll⟩ :: r) with
        frames := .whenAll x rest sigs r :: fs }
  | finish (x sigs r fs σ) : s.control = .ret → s.frames = .whenAll x [] sigs r :: fs →
      σ ∈ sigs → σ.channel ≠ .stopped →
      Move s (.finish σ) { s with control := .complete σ r, frames := fs }
  | resetCallback (x fs) : s.control = .ret → s.frames = .stopCallback x :: fs →
      Move s .resetCallback { s with frames := fs }
  | resume (c fs) : s.control = .ret → s.frames = .resume c :: fs →
      Move s .resume { s with control := c, frames := fs }
  | fire (i w σ) : s.waiting[i]? = some w → σ ∈ w.sigs →
      Move s (.fire i σ) { s with
        control := .complete σ w.rcvr
        frames := (if w.isAny then [.stopCallback w.ops] else []) ++ .resume s.control :: s.frames
        waiting := s.waiting.eraseIdx i }
  | fault : Move s .fault { s with control := .error }

variable {qs e}

theorem act_move {s s' : State Q T} {l : Event T} (h : act qs e s l = some s') :
    Move qs e s l s' := by
  cases l with
  | start =>
      simp only [act] at h
      split at h
      · next x sndr r hc => exact .start x sndr r s' hc h
      · cases h
  | option i =>
      simp only [act] at h
      split at h
      · next x n options r hc =>
          split at h <;> cases h
          next hi => exact .option x n options r ⟨i, hi⟩ hc
      · cases h
  | send σ =>
      simp only [act] at h
      split at h
      · next x queries sigs r hc =>
          split at h <;> cases h
          next hσ => exact .send x queries sigs r σ hc hσ
      · cases h
  | wait =>
      simp only [act] at h
      split at h
      · next x queries sigs r hc =>
          cases h
          exact .wait x queries sigs r hc
      · next x r hc =>
          split at h <;> cases h
          next hstop => exact .waitAny x r hc hstop
      · cases h
  | stopRequested =>
      simp only [act] at h
      split at h
      · next x r hc =>
          split at h <;> cases h
          next hstop => exact .stopRequested x r hc hstop
      · cases h
  | handle =>
      simp only [act] at h
      split at h
      · next σ x hd r hc => exact .handle σ x hd r s' hc h
      · cases h
  | evaluate stop =>
      simp only [act] at h
      split at h
      · next σ x driver r hc =>
          split at h
          · next hchannel =>
              cases stop with
              | true =>
                  cases h
                  exact .evaluateYes σ x driver r hc hchannel.1 (hchannel.2 rfl)
              | false =>
                  cases h
                  exact .evaluateNo σ x driver r hc hchannel.1
          · cases h
      · cases h
  | receive =>
      simp only [act] at h
      split at h <;> cases h
      next σ hc => exact .receive σ hc
  | «begin» =>
      simp only [act] at h
      split at h
      · next x driver r hc =>
          obtain ⟨k, hk, rfl⟩ := Option.map_eq_some_iff.mp h
          exact .begin x driver r k hc hk
      · cases h
  | beginStopped =>
      simp only [act] at h
      split at h
      · next x driver r hc =>
          split at h <;> cases h
          next hstop => exact .beginStopped x driver r hc hstop.1 hstop.2
      · cases h
  | again =>
      simp only [act] at h
      split at h
      · next x driver r fs hc hfs =>
          split at h <;> cases h
          next hactive => exact .again x driver r fs hc hfs hactive
      · cases h
  | endLoop =>
      simp only [act] at h
      split at h
      · next x driver r fs hc hfs =>
          split at h <;> cases h
          next hactive => exact .endLoop x driver r fs hc hfs hactive
      · cases h
  | nextChild =>
      simp only [act] at h
      split at h <;> cases h
      next x child rest sigs r fs hc hfs => exact .nextChild x child rest sigs r fs hc hfs
  | finish σ =>
      simp only [act] at h
      split at h
      · next x sigs r fs hc hfs =>
          split at h <;> cases h
          next hσ => exact .finish x sigs r fs σ hc hfs hσ.1 hσ.2
      · cases h
  | resetCallback =>
      simp only [act] at h
      split at h <;> cases h
      next x fs hc hfs => exact .resetCallback x fs hc hfs
  | resume =>
      simp only [act] at h
      split at h <;> cases h
      next c fs hc hfs => exact .resume c fs hc hfs
  | fire i σ =>
      simp only [act] at h
      split at h
      · next w hw =>
          split at h <;> cases h
          next hσ => exact .fire i w σ hw hσ.2
      · cases h
  | fault => cases h

theorem step_move {s s' : State Q T} {l : Event T} (h : step qs e s l = some s') :
    Move qs e s l s' := by
  simp only [step] at h
  split at h
  · exact act_move h
  · split at h <;> cases h
    next hl =>
      subst hl
      exact .fault

end Step

end BaremetalSenders.Expressions
