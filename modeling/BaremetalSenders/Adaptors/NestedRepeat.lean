import BaremetalSenders.Adaptors.RepeatArguments

/-!
`repeat_n` inside of `repeat_n`, over a child that completes synchronously.

The operation state of each level is in the `state` of the one around it. When
the predicate of a level says no, the operation inside of it is destroyed and
connected again from the sender, in the same place, while its loop is still on
the stack; so the loop comes back to another operation of the same type, whose
`state` is empty. When the predicate says yes, the operation inside is destroyed
for good, and the loops in it come back to a place where nothing is. What they
read there is left open.
-/

namespace BaremetalSenders.NestedRepeat

open Repeat (Channel Ref)

variable {V : Type*}

/-- The child, and `repeat_n` over a sender: whether it looks for a stop request before it starts
that sender's operation, and the count that its predicate is made with. -/
inductive Sender where
  | child
  | repeatN (checksStop : Bool) (n : UInt32) (sndr : Sender)

/-- An operation state: that of child number `k`, or one with the predicate's counter and the
sender that it connects for each iteration. What is in its `state` is the next operation. -/
inductive Op where
  | child (k : ℕ)
  | repeatN (checksStop : Bool) (sndr : Sender) (pred : UInt32)

def Op.child? : Op → Option ℕ
  | .child k => some k
  | .repeatN _ _ _ => none

/-- What is called, or `ret` when a call returns. An operation is named by its level, 0 for the
outermost one; `running` is in the `start` of child number `k`. -/
inductive Control (V : Type*) where
  | start (level : ℕ)
  | running (level k : ℕ)
  | complete (level : ℕ) (ch : Channel) (args : List (Ref V))
  | ret
  | error

/-- `ops` are the operations that are there, the outermost one first; `next` is the number of the
next child; `loops` are the levels whose loops are on the stack, the innermost one first. -/
structure State (V : Type*) where
  ops : List Op
  next : ℕ
  loops : List ℕ
  control : Control V
  received : List (Channel × List (Option V))

/-- The steps. `hasValue` is the condition of a loop when it finds `state` empty, and
`beginLoop` the call when it does not; `stale` is the condition of a loop whose operation is not
there any more. -/
inductive Event (V : Type*) where
  | start
  | startChild (k : ℕ)
  | complete (args : List (Ref V))
  | evaluate (stop : Bool)
  | passthrough
  | receive (ch : Channel) (vals : List (Option V))
  | beginLoop (stop : Bool)
  | endLoop
  | stale (hasValue : Bool)
  deriving DecidableEq

/-- `connect`. The counter is copied from the sender. -/
def Sender.connect (next : ℕ) : Sender → Op
  | .child => .child next
  | .repeatN checksStop n sndr => .repeatN checksStop sndr n

def Sender.born : Sender → ℕ
  | .child => 1
  | .repeatN _ _ _ => 0

namespace State

/-- The outermost operation, about to be started. Children have been made before. -/
def init (sndr : Sender) (next : ℕ) : State V :=
  ⟨[sndr.connect next], next + sndr.born, [], .start 0, []⟩

/-- `state.emplace` in the operation at `level`. -/
def emplace (s : State V) (level : ℕ) (sndr : Sender) : State V :=
  { s with ops := s.ops.take (level + 1) ++ [sndr.connect s.next], next := s.next + sndr.born }

/-- `state.reset()` in the operation at `level`. -/
def reset (s : State V) (level : ℕ) : State V := { s with ops := s.ops.take (level + 1) }

def child? (s : State V) : Option ℕ := s.ops.getLast?.bind Op.child?

end State

def step [DecidableEq V] (mem : ℕ → ℕ → V) (s : State V) : Event V → Option (State V)
  | .start =>
      match s.control with
      | .start j =>
          match s.ops[j]? with
          | some (.repeatN _ sndr _) =>
              some { s.emplace j sndr with control := .ret, loops := j :: s.loops }
          | _ => none
      | _ => none
  | .startChild k =>
      match s.control with
      | .start j =>
          match s.ops[j]? with
          | some (.child k') => if k' = k then some { s with control := .running j k } else none
          | _ => none
      | _ => none
  | .complete args =>
      match s.control with
      | .running j k =>
          if args.all (Ref.within k) then some { s with control := .complete j .value args }
          else none
      | _ => none
  | .evaluate stop =>
      match s.control with
      | .complete (j + 1) .value args =>
          match s.ops[j]? with
          | some (.repeatN checksStop sndr pred) =>
              let s := { s with ops := s.ops.set j (.repeatN checksStop sndr (pred - 1)) }
              if stop = (pred == 0) then
                some (if stop then { s.reset j with control := .complete j .value args }
                  else { s.emplace j sndr with control := .ret })
              else none
          | _ => none
      | _ => none
  | .passthrough =>
      match s.control with
      | .complete (j + 1) ch args =>
          if ch = .value then none else some { s.reset j with control := .complete j ch args }
      | _ => none
  | .receive ch vals =>
      match s.control with
      | .complete 0 ch' args =>
          if ch' = ch ∧ vals = args.map (Ref.read mem s.child?) then
            some { s with control := .ret, received := s.received ++ [(ch, vals)] }
          else none
      | _ => none
  | .beginLoop stop =>
      match s.control, s.loops with
      | .ret, j :: _ =>
          match s.ops[j]? with
          | some (.repeatN checksStop _ _) =>
              if j + 1 < s.ops.length then
                if stop then
                  if checksStop then some { s.reset j with control := .complete j .stopped [] }
                  else none
                else some { s with control := .start (j + 1) }
              else none
          | _ => none
      | _, _ => none
  | .endLoop =>
      match s.control, s.loops with
      | .ret, j :: js => if j + 1 = s.ops.length then some { s with loops := js } else none
      | _, _ => none
  | .stale hasValue =>
      match s.control, s.loops with
      | .ret, j :: js =>
          if s.ops.length ≤ j then
            if hasValue then some { s with control := .error } else some { s with loops := js }
          else none
      | _, _ => none

def State.Returned (s : State V) : Prop := s.control = .ret ∧ s.loops = []

def State.Over (s : State V) : Prop := s.Returned ∨ s.control = .error

/-! ### What a step can do -/

variable [DecidableEq V] {mem : ℕ → ℕ → V} {s s' : State V} {e : Event V}

inductive Move (mem : ℕ → ℕ → V) (s : State V) : Event V → State V → Prop
  | start {j : ℕ} {checksStop : Bool} {sndr : Sender} {pred : UInt32}
      (hc : s.control = .start j) (hop : s.ops[j]? = some (.repeatN checksStop sndr pred)) :
      Move mem s .start { s.emplace j sndr with control := .ret, loops := j :: s.loops }
  | startChild {j k : ℕ} (hc : s.control = .start j) (hop : s.ops[j]? = some (.child k)) :
      Move mem s (.startChild k) { s with control := .running j k }
  | complete {j k : ℕ} {args : List (Ref V)} (hc : s.control = .running j k)
      (hargs : args.all (Ref.within k) = true) :
      Move mem s (.complete args) { s with control := .complete j .value args }
  | stop {j : ℕ} {args : List (Ref V)} {checksStop : Bool} {sndr : Sender} {pred : UInt32}
      (hc : s.control = .complete (j + 1) .value args)
      (hop : s.ops[j]? = some (.repeatN checksStop sndr pred)) (hpred : (pred == 0) = true) :
      Move mem s (.evaluate true)
        { ops := (s.ops.set j (.repeatN checksStop sndr (pred - 1))).take (j + 1), next := s.next,
          loops := s.loops, control := .complete j .value args, received := s.received }
  | again {j : ℕ} {args : List (Ref V)} {checksStop : Bool} {sndr : Sender} {pred : UInt32}
      (hc : s.control = .complete (j + 1) .value args)
      (hop : s.ops[j]? = some (.repeatN checksStop sndr pred)) (hpred : (pred == 0) = false) :
      Move mem s (.evaluate false)
        { ops := (s.ops.set j (.repeatN checksStop sndr (pred - 1))).take (j + 1) ++
            [sndr.connect s.next],
          next := s.next + sndr.born, loops := s.loops, control := .ret, received := s.received }
  | passthrough {j : ℕ} {ch : Channel} {args : List (Ref V)}
      (hc : s.control = .complete (j + 1) ch args) (hch : ch ≠ .value) :
      Move mem s .passthrough { s.reset j with control := .complete j ch args }
  | receive {ch : Channel} {args : List (Ref V)} (hc : s.control = .complete 0 ch args) :
      Move mem s (.receive ch (args.map (Ref.read mem s.child?))) { s with
        control := .ret
        received := s.received ++ [(ch, args.map (Ref.read mem s.child?))] }
  | beginStop {j : ℕ} {js : List ℕ} (hc : s.control = .ret) (hloops : s.loops = j :: js)
      (hlt : j + 1 < s.ops.length) :
      Move mem s (.beginLoop true) { s.reset j with control := .complete j .stopped [] }
  | begin {j : ℕ} {js : List ℕ} (hc : s.control = .ret) (hloops : s.loops = j :: js)
      (hlt : j + 1 < s.ops.length) :
      Move mem s (.beginLoop false) { s with control := .start (j + 1) }
  | endLoop {j : ℕ} {js : List ℕ} (hc : s.control = .ret) (hloops : s.loops = j :: js)
      (heq : j + 1 = s.ops.length) : Move mem s .endLoop { s with loops := js }
  | staleValue {j : ℕ} {js : List ℕ} (hc : s.control = .ret) (hloops : s.loops = j :: js)
      (hle : s.ops.length ≤ j) : Move mem s (.stale true) { s with control := .error }
  | stale {j : ℕ} {js : List ℕ} (hc : s.control = .ret) (hloops : s.loops = j :: js)
      (hle : s.ops.length ≤ j) : Move mem s (.stale false) { s with loops := js }

theorem step_move (hs : step mem s e = some s') : Move mem s e s' := by
  cases e with
  | start =>
      simp only [step] at hs
      split at hs
      · next hc =>
          split at hs <;> cases hs
          next hop => exact .start hc hop
      · cases hs
  | startChild k =>
      simp only [step] at hs
      split at hs
      · next hc =>
          split at hs
          · next hop =>
              split at hs <;> cases hs
              next hk =>
                subst hk
                exact .startChild hc hop
          · cases hs
      · cases hs
  | complete args =>
      simp only [step] at hs
      split at hs
      · next hc =>
          split at hs <;> cases hs
          next hargs => exact .complete hc hargs
      · cases hs
  | evaluate stop =>
      simp only [step] at hs
      split at hs
      · next hc =>
          split at hs
          · next hop =>
              split at hs <;> cases hs
              next hstop =>
                cases stop with
                | true => exact .stop hc hop hstop.symm
                | false => exact .again hc hop hstop.symm
          · cases hs
      · cases hs
  | passthrough =>
      simp only [step] at hs
      split at hs
      · next hc =>
          split at hs <;> cases hs
          next hch => exact .passthrough hc hch
      · cases hs
  | receive ch vals =>
      simp only [step] at hs
      split at hs
      · next hc =>
          split at hs <;> cases hs
          next heq =>
            obtain ⟨rfl, rfl⟩ := heq
            exact .receive hc
      · cases hs
  | beginLoop stop =>
      simp only [step] at hs
      split at hs
      · next hc hloops =>
          split at hs
          · split at hs
            · next hlt =>
                cases stop with
                | true =>
                    simp only [if_true] at hs
                    split at hs <;> cases hs
                    exact .beginStop hc hloops hlt
                | false =>
                    cases hs
                    exact .begin hc hloops hlt
            · cases hs
          · cases hs
      · cases hs
  | endLoop =>
      simp only [step] at hs
      split at hs
      · next hc hloops =>
          split at hs <;> cases hs
          next heq => exact .endLoop hc hloops heq
      · cases hs
  | stale hasValue =>
      simp only [step] at hs
      split at hs
      · next hc hloops =>
          split at hs
          · next hle =>
              cases hasValue with
              | true =>
                  cases hs
                  exact .staleValue hc hloops hle
              | false =>
                  cases hs
                  exact .stale hc hloops hle
          · cases hs
      · cases hs

end BaremetalSenders.NestedRepeat
