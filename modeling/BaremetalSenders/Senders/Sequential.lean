import BaremetalSenders.Foundation.Routine
import BaremetalSenders.Senders.Signatures
import Mathlib.Logic.Equiv.Defs
import Mathlib.Data.List.FinRange

/-!
The values that senders send, and what sender expressions mean.

An expression is made of `just` and `just_result_of` and of the adaptors that
do one thing after the other. Functions that are passed to adaptors may change
a world; one that returns a sender is given apart from what it does to the
world. A sender means a routine whose outcome is the completion: `then`
maps a channel, `let_...` goes on after the channels that it has tags for,
`sequence` after a value.

A `std::variant` of senders holds one of them, and `make_variant_sender` calls
predicates when the expression is made. What it makes is given by what it
holds.
-/

namespace BaremetalSenders.Sequential

open Repeat (Channel)
open Routine (done handle)

/-- A completion has the shape of a signature, with values for types. -/
abbrev Completion (V : Type*) := Signature V

/-! ### Functions without arguments -/

/-- A function that is passed to `just_result_of`. -/
inductive Fn (V W : Type*) where
  | void (call : W → W)
  | result (call : W → V × W)

/-- The order that a compiler evaluates the arguments of a call in: `order n i` is the
argument that is the `i`th to be evaluated. -/
abbrev ArgumentOrder := (n : ℕ) → Equiv.Perm (Fin n)

section Functions

variable {V W : Type*}

/-- `has_void_result`, the first part of `split_returns`, called from left to right. -/
def callVoid (fs : List (Fn V W)) (w : W) : W :=
  fs.foldl (fun w f => match f with | .void call => call w | .result _ => w) w

/-- The second part of `split_returns`. -/
def returning (fs : List (Fn V W)) : List (W → V × W) :=
  fs.filterMap fun f => match f with | .void _ => none | .result call => some call

/-- The results of calls that are the arguments of a call. -/
def callArguments (order : ArgumentOrder) (fs : List (W → V × W)) (w : W) : List V × W :=
  let evaluated := (List.finRange fs.length).foldl (fun (acc : (Fin fs.length → Option V) × W) i =>
    let j := order fs.length i
    let result := fs.get j acc.2
    (Function.update acc.1 j (some result.1), result.2)) (fun _ => none, w)
  ((List.finRange fs.length).filterMap evaluated.1, evaluated.2)

def callAll (order : ArgumentOrder) (fs : List (Fn V W)) (w : W) : List V × W :=
  callArguments order (returning fs) (callVoid fs w)

example : callAll (fun _ => Equiv.refl _) [.result fun w => (w, w + 1), .void (· + 5),
    .result fun w => (w, w + 1)] 0 = ([5, 6], 7) := by decide

example : callAll (fun _ => Fin.revPerm) [.result fun w => (w, w + 1), .void (· + 5),
    .result fun w => (w, w + 1)] 0 = ([6, 5], 7) := by decide

end Functions

/-! ### Senders -/

/-- The senders. `then` has the functions by what `call_by_need` does with them and with the
arguments; the variant has the index of the sender that it holds. -/
inductive Sender (V W : Type*) where
  | just (c : Completion V)
  | justResultOf (tag : Channel) (fs : List (Fn V W))
  | «then» (handle complete : Channel) (s : Sender V W) (fs : List V → W → List V × W)
  | «let» (tags : Channel → Bool) (s : Sender V W) (fn : Channel → List V → W → Sender V W)
      (effect : Channel → List V → W → W)
  | sequence (s : Sender V W) (func : W → Sender V W) (effect : W → W)
  | intoVariant (s : Sender V W) (variant : List V → V)
  | variant (index : ℕ) (s : Sender V W)

variable {V W A : Type*}

namespace Sender

def just_ (vs : List V) : Sender V W := .just (.value vs)

def justError (es : List V) : Sender V W := .just (.error es)

def justStopped : Sender V W := .just .stopped

def then_ (s : Sender V W) (fs : List V → W → List V × W) : Sender V W :=
  .then .value .value s fs

def uponError (s : Sender V W) (fs : List V → W → List V × W) : Sender V W :=
  .then .error .value s fs

def uponStopped (s : Sender V W) (f : W → List V × W) : Sender V W :=
  .then .stopped .value s fun _ => f

def thenError (s : Sender V W) (fs : List V → W → List V × W) : Sender V W :=
  .then .value .error s fs

def transformError (s : Sender V W) (fs : List V → W → List V × W) : Sender V W :=
  .then .error .error s fs

def letValue (s : Sender V W) (fn : List V → W → Sender V W) (effect : List V → W → W) :
    Sender V W :=
  .let (· == .value) s (fun _ => fn) fun _ => effect

def letError (s : Sender V W) (fn : List V → W → Sender V W) (effect : List V → W → W) :
    Sender V W :=
  .let (· == .error) s (fun _ => fn) fun _ => effect

def letStopped (s : Sender V W) (fn : W → Sender V W) (effect : W → W) : Sender V W :=
  .let (· == .stopped) s (fun _ _ => fn) fun _ _ => effect

/-- `seq`: the `wrapper` returns the sender that it was given. -/
def seq (s : Sender V W) (ss : List (Sender V W)) : Sender V W :=
  ss.foldl (fun s next => .sequence s (fun _ => next) id) s

end Sender

/-! ### `make_variant_sender` -/

/-- `match_option`: a predicate and a function that makes a sender. -/
structure MatchOption (A V W : Type*) where
  test : A → Bool
  invoke : A → Sender V W

/-- How many predicates `first_matching_index` calls. -/
def tested (args : A) : List (MatchOption A V W) → ℕ
  | [] => 0
  | o :: os => if o.test args then 1 else tested args os + 1

/-- `matcher::first_matching_index`. The index is one before zero at first, and incremented
before each call. -/
def firstMatchingIndex (options : List (MatchOption A V W)) (args : A) : ℕ :=
  tested args options - 1

theorem tested_le (args : A) (os : List (MatchOption A V W)) : tested args os ≤ os.length := by
  induction os with
  | nil => exact Nat.le_refl 0
  | cons o os ih =>
      simp only [tested, List.length_cons]
      split <;> omega

theorem firstMatchingIndex_lt (o : MatchOption A V W) (os : List (MatchOption A V W)) (args : A) :
    firstMatchingIndex (o :: os) args < (o :: os).length := by
  have hle := tested_le args (o :: os)
  simp only [firstMatchingIndex, List.length_cons] at hle ⊢
  omega

/-- `make_variant_sender` with match options, of which there is one at least. -/
def makeVariantSender (o : MatchOption A V W) (os : List (MatchOption A V W)) (args : A) :
    Sender V W :=
  .variant (firstMatchingIndex (o :: os) args)
    (((o :: os).get ⟨firstMatchingIndex (o :: os) args, firstMatchingIndex_lt o os args⟩).invoke
      args)

/-- `make_variant_sender` with a condition: `select`. -/
def selectSender (b : Bool) (f1 f2 : Sender V W) : Sender V W :=
  if b then .variant 0 f1 else .variant 1 f2

/-- The first option whose predicate holds is the one at the index. -/
theorem firstMatchingIndex_eq {args : A} {before after : List (MatchOption A V W)}
    {o : MatchOption A V W} (hbefore : ∀ o' ∈ before, o'.test args = false)
    (ho : o.test args = true) : firstMatchingIndex (before ++ o :: after) args = before.length := by
  have htested : tested args (before ++ o :: after) = before.length + 1 := by
    induction before with
    | nil => simp [tested, ho]
    | cons o' before ih =>
        obtain ⟨ho', hbefore⟩ := List.forall_mem_cons.mp hbefore
        simp [tested, ho', ih hbefore]
  rw [firstMatchingIndex, htested, Nat.add_sub_cancel]

theorem makeVariantSender_eq {args : A} {o₀ o : MatchOption A V W}
    {os before after : List (MatchOption A V W)} (h : o₀ :: os = before ++ o :: after)
    (hbefore : ∀ o' ∈ before, o'.test args = false) (ho : o.test args = true) :
    makeVariantSender o₀ os args = .variant before.length (o.invoke args) := by
  have hindex : firstMatchingIndex (o₀ :: os) args = before.length := by
    rw [h, firstMatchingIndex_eq hbefore ho]
  have hget : (o₀ :: os)[firstMatchingIndex (o₀ :: os) args]? = some o := by
    rw [hindex, h, List.getElem?_append_right (Nat.le_refl _), Nat.sub_self]
    rfl
  have hlt := firstMatchingIndex_lt o₀ os args
  have ho' : (o₀ :: os).get ⟨firstMatchingIndex (o₀ :: os) args, hlt⟩ = o :=
    Option.some.inj ((List.getElem?_eq_getElem hlt).symm.trans hget)
  rw [makeVariantSender, ho', hindex]

/-! ### What they mean -/

def denote (order : ArgumentOrder) : Sender V W → Routine W (Completion V)
  | .just c => done c
  | .justResultOf tag fs => fun w =>
      (.mk (callAll order fs w).1 tag, (callAll order fs w).2)
  | .then tag complete s fs =>
      handle (fun c => c.channel == tag) (denote order s) fun c w =>
        (.mk (fs c.args w).1 complete, (fs c.args w).2)
  | .let tags s fn effect =>
      handle (fun c => tags c.channel) (denote order s) fun c w =>
        denote order (fn c.channel c.args w) (effect c.channel c.args w)
  | .sequence s func effect =>
      handle (fun c => c.channel == .value) (denote order s) fun _ w =>
        denote order (func w) (effect w)
  | .intoVariant s variant =>
      handle (fun c => c.channel == .value) (denote order s) fun c =>
        done (.value [variant c.args])
  | .variant _ s => denote order s

section Laws

variable {order : ArgumentOrder} {s : Sender V W} {fn next : List V → W → Sender V W}
  {effect effect' : List V → W → W} {vs : List V} {c : Completion V}

theorem eq_value (h : (c.channel == .value) = true) : .value c.args = c := by
  cases c with
  | value args => rfl
  | error args => cases h
  | stopped => cases h

/-- `just` is the unit of `let_value`, on the left. -/
theorem denote_letValue_just (w : W) :
    denote order (.letValue (.just_ vs) fn effect) w = denote order (fn vs w) (effect vs w) :=
  congrFun (Routine.handle_done rfl) w

/-- And on the right. -/
theorem denote_letValue_right :
    denote order (.letValue s (fun vs _ => .just_ vs) fun _ w => w) = denote order s := by
  have hjust : denote order (.letValue s (fun vs _ => .just_ vs) fun _ w => w) =
      handle (fun c => c.channel == .value) (denote order s) done := by
    refine Routine.handle_congr fun c hc => ?_
    funext w
    exact Prod.ext (eq_value hc) rfl
  rw [hjust, Routine.handle_done_right]

theorem denote_letValue_assoc :
    denote order (.letValue (.letValue s fn effect) next effect') =
      denote order (.letValue s (fun vs w => .letValue (fn vs w) next effect') effect) :=
  Routine.handle_assoc

/-- `then` is the functor's map. -/
theorem denote_then (fs : List V → W → List V × W) :
    denote order (.then_ s fs) =
      denote order (.letValue s (fun vs w => .just_ (fs vs w).1) fun vs w => (fs vs w).2) :=
  rfl

end Laws

end BaremetalSenders.Sequential
