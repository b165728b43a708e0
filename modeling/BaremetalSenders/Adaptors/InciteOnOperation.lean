import BaremetalSenders.Adaptors.InciteOn
import Mathlib.Algebra.BigOperators.Group.List.Basic

/-!
The operation of `incite_on` and `incite_on_any` on its own.

Of the managers there is left which tasks are pending, and of the stack the
statements of the operation. A trigger that runs a task finds it pending and has its
`run` executed next; everything else comes from the operation.

`Move` has one rule for each statement and each thing it can find, and everything that is
kept by the operation is shown rule by rule.
-/

namespace BaremetalSenders.InciteOn

variable {ν β : Type*}

/-! ### Callbacks -/

section Callbacks

variable {op : Adaptor ν} {c : Core ν β} {src src' : Source} {cb : StopCb ν} {t : Task ν}

@[simp, grind =] theorem sourceOf_trigger : op.sourceOf (.trigger t) = op.source t := rfl

@[simp, grind =] theorem sourceOf_whenAny : op.sourceOf .whenAny = .receiver := rfl

@[simp, grind =] theorem Core.register_callbacks : (c.register src cb).callbacks src' =
    if src' = src then c.callbacks src ++ [cb] else c.callbacks src' := by
  simp [Core.register, Function.update_apply]

@[simp, grind =] theorem Core.register_sent : (c.register src cb).sent = c.sent := rfl

@[simp, grind =] theorem Core.register_requested :
    (c.register src cb).requested = c.requested := rfl

@[simp, grind =] theorem Core.register_completions :
    (c.register src cb).completions = c.completions := rfl

@[simp, grind =] theorem Core.register_count : (c.register src cb).count = c.count := rfl

@[simp, grind =] theorem Core.register_fired : (c.register src cb).fired = c.fired := rfl

@[simp, grind =] theorem Core.register_received :
    (c.register src cb).received = c.received := rfl

variable [DecidableEq ν]

@[simp, grind =] theorem Core.unregister_callbacks : (c.unregister src cb).callbacks src' =
    if src' = src then (c.callbacks src).erase cb else c.callbacks src' := by
  simp [Core.unregister, Function.update_apply]

@[simp, grind =] theorem Core.unregister_sent : (c.unregister src cb).sent = c.sent := rfl

@[simp, grind =] theorem Core.unregister_requested :
    (c.unregister src cb).requested = c.requested := rfl

@[simp, grind =] theorem Core.unregister_completions :
    (c.unregister src cb).completions = c.completions := rfl

@[simp, grind =] theorem Core.unregister_count : (c.unregister src cb).count = c.count := rfl

@[simp, grind =] theorem Core.unregister_fired : (c.unregister src cb).fired = c.fired := rfl

@[simp, grind =] theorem Core.unregister_received :
    (c.unregister src cb).received = c.received := rfl

/-- Only the sending of the function sends it. -/
theorem exec_sent {dequeued : Task ν → Bool} {st : Stmt ν β} :
    (st.exec op dequeued c).1.sent = c.sent := by
  cases st with
  | callback cb => cases cb <;> rfl
  | setValue t args => cases t <;> grind [Stmt.exec]
  | emplace t comp => rfl
  | _ => grind [Stmt.exec]

/-- Only a trigger runs a task. -/
theorem exec_ne_run {dequeued : Task ν → Bool} {st : Stmt ν β} {args : Option β}
    (h : .run t args ∈ (st.exec op dequeued c).2) : False := by
  cases st with
  | callback cb => cases cb <;> grind [Stmt.exec]
  | setValue u args' => cases u <;> grind [Stmt.exec, Adaptor.second]
  | emplace u comp =>
      simp only [Stmt.exec] at h
      split at h <;> simp at h
  | decide =>
      simp only [Stmt.exec] at h
      split at h <;> simp at h
  | _ => grind [Stmt.exec]

end Callbacks

/-! ### The operation -/

structure Operation (ν β : Type*) where
  core : Core ν β
  pending : Task ν → Bool
  todo : List (Stmt ν β)

def Operation.init : Operation ν β := ⟨.init, fun _ => false, []⟩

inductive Action (ν β : Type*) where
  | exec
  | pop (t : Task ν) (args : Option β)
  | requestStop
  | send

def Stmt.flags [DecidableEq ν] (pending : Task ν → Bool) : Stmt ν β → Task ν → Bool
  | .enqueue t => Function.update pending t true
  | .dequeue t => Function.update pending t false
  | _ => pending

def Operation.step [DecidableEq ν] (op : Adaptor ν) (s : Operation ν β) :
    Action ν β → Option (Operation ν β)
  | .exec =>
      match s.todo with
      | [] => none
      | st :: rest =>
          some ⟨(st.exec op s.pending s.core).1, st.flags s.pending,
            (st.exec op s.pending s.core).2 ++ rest⟩
  | .pop t args =>
      if s.pending t then
        some ⟨s.core, Function.update s.pending t false, .run t args :: s.todo⟩
      else none
  | .requestStop => some { s with todo := .requestStop .receiver :: s.todo }
  | .send =>
      if s.core.sent then none
      else some { s with core := { s.core with sent := true }, todo := op.first ++ s.todo }

inductive Move [DecidableEq ν] (op : Adaptor ν) : Operation ν β → Operation ν β → Prop where
  | startStopped {c p t rest} (h : c.requested (op.source t) = true) :
      Move op ⟨c, p, .start t :: rest⟩ ⟨c, p, .completeStopped t :: rest⟩
  | startEnqueue {c p t rest} (h : c.requested (op.source t) = false) :
      Move op ⟨c, p, .start t :: rest⟩ ⟨c, p, .enqueue t :: rest⟩
  | enqueue {c p t rest} :
      Move op ⟨c, p, .enqueue t :: rest⟩
        ⟨c, Function.update p t true, .emplaceStopCb (.trigger t) :: rest⟩
  | refused {c p cb rest} (h : c.requested (op.sourceOf cb) = true) :
      Move op ⟨c, p, .emplaceStopCb cb :: rest⟩ ⟨c, p, .callback cb :: rest⟩
  | registered {c p cb rest} (h : c.requested (op.sourceOf cb) = false) :
      Move op ⟨c, p, .emplaceStopCb cb :: rest⟩ ⟨c.register (op.sourceOf cb) cb, p, rest⟩
  | stop {c p t rest} :
      Move op ⟨c, p, .callback (.trigger t) :: rest⟩
        ⟨c.unregister (op.source t) (.trigger t), p, .dequeue t :: rest⟩
  | stopNone {c p rest} (h : op.scheds = []) :
      Move op ⟨c, p, .callback .whenAny :: rest⟩ ⟨c, p, .deliver .stopped :: .resetStopCb :: rest⟩
  | stopAny {c p rest} (h : op.scheds ≠ []) :
      Move op ⟨c, p, .callback .whenAny :: rest⟩ ⟨c, p, .requestStop .whenAny :: rest⟩
  | dequeue {c p t rest} (h : p t = true) :
      Move op ⟨c, p, .dequeue t :: rest⟩
        ⟨c, Function.update p t false, .completeStopped t :: rest⟩
  | notDequeued {c p t rest} (h : p t = false) : Move op ⟨c, p, .dequeue t :: rest⟩ ⟨c, p, rest⟩
  | stoppedJoined {c p t rest} (h : op.joined t = true) :
      Move op ⟨c, p, .completeStopped t :: rest⟩ ⟨c, p, .emplace t .stopped :: rest⟩
  | stopped {c p t rest} (h : op.joined t = false) :
      Move op ⟨c, p, .completeStopped t :: rest⟩ ⟨c, p, .deliver .stopped :: rest⟩
  | run {c p t args rest} :
      Move op ⟨c, p, .run t args :: rest⟩
        ⟨c.unregister (op.source t) (.trigger t), p, .setValue t args :: rest⟩
  | sequence {c p args rest} :
      Move op ⟨c, p, .setValue .internal args :: rest⟩
        ⟨{ c with sequenced := true }, p, op.second ++ rest⟩
  | valueJoined {c p k args rest} (h : op.joined (.scheduled k) = true) :
      Move op ⟨c, p, .setValue (.scheduled k) args :: rest⟩
        ⟨c, p, .emplace (.scheduled k) (.value (k, args)) :: rest⟩
  | value {c p k args rest} (h : op.joined (.scheduled k) = false) :
      Move op ⟨c, p, .setValue (.scheduled k) args :: rest⟩
        ⟨{ c with fired := c.fired ++ [(k, args)] }, p, .deliver (.value (k, args)) :: rest⟩
  | anyStopped {c p rest} (h : c.requested .whenAny = true) :
      Move op ⟨c, p, .startAny :: rest⟩ ⟨c, p, .deliver .stopped :: rest⟩
  | startAny {c p rest} (h : c.requested .whenAny = false) :
      Move op ⟨c, p, .startAny :: rest⟩
        ⟨{ c with count := op.scheds.length }, p,
          (op.scheds.map fun k => .start (.scheduled k)) ++ rest⟩
  | emplaceValue {c p t x rest} :
      Move op ⟨c, p, .emplace t (.value x) :: rest⟩
        ⟨{ c with
            completions := WhenAny.firstNoncancelled.emplace (.value x) c.completions
            fired := c.fired ++ [x] }, p, .requestStop .whenAny :: .countDown t :: rest⟩
  | emplaceStopped {c p t rest} :
      Move op ⟨c, p, .emplace t .stopped :: rest⟩
        ⟨{ c with completions := WhenAny.firstNoncancelled.emplace .stopped c.completions }, p,
          .countDown t :: rest⟩
  | requestedBefore {c p src rest} (h : c.requested src = true) :
      Move op ⟨c, p, .requestStop src :: rest⟩ ⟨c, p, rest⟩
  | request {c p src rest} (h : c.requested src = false) :
      Move op ⟨c, p, .requestStop src :: rest⟩
        ⟨{ c with requested := Function.update c.requested src true }, p, .nextCb src :: rest⟩
  | noCb {c p src rest} (h : c.callbacks src = []) :
      Move op ⟨c, p, .nextCb src :: rest⟩ ⟨c, p, rest⟩
  | nextCb {c p src cb cbs rest} (h : c.callbacks src = cb :: cbs) :
      Move op ⟨c, p, .nextCb src :: rest⟩
        ⟨{ c with callbacks := Function.update c.callbacks src cbs }, p,
          .callback cb :: .nextCb src :: rest⟩
  | countLast {c p t rest} (h : c.count = 1) :
      Move op ⟨c, p, .countDown t :: rest⟩ ⟨{ c with count := 0 }, p, .complete :: rest⟩
  | countDown {c p t rest} (h : c.count ≠ 1) :
      Move op ⟨c, p, .countDown t :: rest⟩ ⟨{ c with count := c.count - 1 }, p, rest⟩
  | complete {c p rest} :
      Move op ⟨c, p, .complete :: rest⟩ ⟨c.unregister .receiver .whenAny, p, .decide :: rest⟩
  | decideStopped {c p rest} (h : c.requested .receiver = true) :
      Move op ⟨c, p, .decide :: rest⟩ ⟨c, p, .deliver .stopped :: rest⟩
  | decide {c p comp rest} (h : c.requested .receiver = false) (hc : c.completions = some comp) :
      Move op ⟨c, p, .decide :: rest⟩ ⟨c, p, .deliver comp :: rest⟩
  | decideNone {c p rest} (h : c.requested .receiver = false) (hc : c.completions = none) :
      Move op ⟨c, p, .decide :: rest⟩ ⟨c, p, rest⟩
  | deliver {c p comp rest} :
      Move op ⟨c, p, .deliver comp :: rest⟩ ⟨{ c with received := c.received ++ [comp] }, p, rest⟩
  | reset {c p rest} :
      Move op ⟨c, p, .resetStopCb :: rest⟩ ⟨c.unregister .receiver .whenAny, p, rest⟩
  | pop {c p t args todo} (h : p t = true) :
      Move op ⟨c, p, todo⟩ ⟨c, Function.update p t false, .run t args :: todo⟩
  | requestStop {c p todo} : Move op ⟨c, p, todo⟩ ⟨c, p, .requestStop .receiver :: todo⟩
  | send {c p todo} (h : c.sent = false) :
      Move op ⟨c, p, todo⟩ ⟨{ c with sent := true }, p, op.first ++ todo⟩

section

variable [DecidableEq ν] {op : Adaptor ν} {s s' : Operation ν β}

theorem step_move {a : Action ν β} (h : s.step op a = some s') : Move op s s' := by
  obtain ⟨c, p, todo⟩ := s
  cases a with
  | pop t args =>
      simp only [Operation.step] at h
      split at h <;> cases h
      next hp => exact .pop hp
  | requestStop =>
      cases h
      exact .requestStop
  | send =>
      simp only [Operation.step] at h
      split at h <;> cases h
      next hsent => exact .send (by simpa using hsent)
  | exec =>
      cases todo with
      | nil => cases h
      | cons st rest =>
          cases h
          cases st with
          | start t =>
              cases hreq : c.requested (op.source t) with
              | true => simpa [Stmt.exec, Stmt.flags, hreq] using Move.startStopped hreq
              | false => simpa [Stmt.exec, Stmt.flags, hreq] using Move.startEnqueue hreq
          | enqueue t => exact .enqueue
          | emplaceStopCb cb =>
              cases hreq : c.requested (op.sourceOf cb) with
              | true => simpa [Stmt.exec, Stmt.flags, hreq] using Move.refused hreq
              | false => simpa [Stmt.exec, Stmt.flags, hreq] using Move.registered hreq
          | callback cb =>
              cases cb with
              | trigger t => exact .stop
              | whenAny =>
                  by_cases hnone : op.scheds = []
                  · simpa [Stmt.exec, Stmt.flags, hnone] using Move.stopNone hnone
                  · simpa [Stmt.exec, Stmt.flags, hnone] using Move.stopAny hnone
          | dequeue t =>
              cases hp : p t with
              | true => simpa [Stmt.exec, Stmt.flags, hp] using Move.dequeue hp
              | false =>
                  have hsame : Function.update p t false = p := by
                    rw [← hp, Function.update_eq_self]
                  simpa [Stmt.exec, Stmt.flags, hp, hsame] using Move.notDequeued hp
          | completeStopped t =>
              cases hj : op.joined t with
              | true => simpa [Stmt.exec, Stmt.flags, hj] using Move.stoppedJoined hj
              | false => simpa [Stmt.exec, Stmt.flags, hj] using Move.stopped hj
          | run t args => exact .run
          | setValue t args =>
              cases t with
              | internal => exact .sequence
              | scheduled k =>
                  cases hj : op.joined (.scheduled k) with
                  | true => simpa [Stmt.exec, Stmt.flags, hj] using Move.valueJoined hj
                  | false => simpa [Stmt.exec, Stmt.flags, hj] using Move.value hj
          | startAny =>
              cases hreq : c.requested .whenAny with
              | true => simpa [Stmt.exec, Stmt.flags, hreq] using Move.anyStopped hreq
              | false => simpa [Stmt.exec, Stmt.flags, hreq] using Move.startAny hreq
          | emplace t comp =>
              cases comp with
              | value x => exact .emplaceValue
              | error e => exact e.elim
              | stopped => exact .emplaceStopped
          | requestStop src =>
              cases hreq : c.requested src with
              | true => simpa [Stmt.exec, Stmt.flags, hreq] using Move.requestedBefore hreq
              | false => simpa [Stmt.exec, Stmt.flags, hreq] using Move.request hreq
          | nextCb src =>
              cases hcbs : c.callbacks src with
              | nil => simpa [Stmt.exec, Stmt.flags, hcbs] using Move.noCb hcbs
              | cons cb cbs => simpa [Stmt.exec, Stmt.flags, hcbs] using Move.nextCb hcbs
          | countDown t =>
              by_cases hlast : c.count = 1
              · simpa [Stmt.exec, Stmt.flags, hlast] using Move.countLast hlast
              · have hne : c.count - 1 ≠ 0 := by omega
                simpa [Stmt.exec, Stmt.flags, hne] using Move.countDown hlast
          | complete => exact .complete
          | decide =>
              cases hreq : c.requested .receiver with
              | true => simpa [Stmt.exec, Stmt.flags, hreq] using Move.decideStopped hreq
              | false =>
                  cases hc : c.completions with
                  | none => simpa [Stmt.exec, Stmt.flags, hreq, hc] using Move.decideNone hreq hc
                  | some comp => simpa [Stmt.exec, Stmt.flags, hreq, hc] using Move.decide hreq hc
          | deliver comp => exact .deliver
          | resetStopCb => exact .reset

end

end BaremetalSenders.InciteOn
