import BaremetalSenders.Senders.Signatures
import Mathlib.Data.Fintype.Basic
import Mathlib.Data.List.FinRange

/-!
Sender expressions by their types.

What a sender advertises and whether it says that it completes synchronously is
computed from types: its own, those of the arguments that are sent, and the
type of the environment it is connected in. So an expression is given here by
its type. A function that is passed to an adaptor is given by the types of its
results, and one that returns a sender by the senders it returns, for each
completion it can be called with. What is sent, what a predicate answers and
which option of a variant is chosen are left open.
-/

namespace BaremetalSenders.Expressions

open Repeat (Channel)

/-! ### Environments -/

/-- An environment type: whether stop can be requested of its token, and the type of
what a query answers. -/
structure Env (Q T : Type*) where
  stoppable : Bool
  query : Q → Option T

/-- The query tags: `forwarding_query`, and the type of what a tag answers for an
environment that does not have it. -/
structure Queries (Q T : Type*) where
  forwards : Q → Bool
  fallback : Q → Option T

variable {Q T : Type*}

/-- `forwarding_env`. The query for a stop token is forwarded. -/
def Env.forward (qs : Queries Q T) (e : Env Q T) : Env Q T :=
  { e with query := fun q => if qs.forwards q then e.query q else qs.fallback q }

/-- `overriding_env` with a `never_stop_token`. -/
def Env.neverStop (e : Env Q T) : Env Q T := { e with stoppable := false }

/-! ### Senders -/

/-- The senders. A `leaf` has the queries that it makes and the signatures it has in
an environment that is stoppable or not and answers these; `isSync` says that it
is synchronous, and that `start` completes the receiver before it returns. `loop`
is `repeat` and its family on the value channel, `retry` and its family on the
error channel; `never` says that the predicate is `never_stop`. -/
inductive Sender (Q T : Type*) where
  | leaf (isSync : Bool) (queries : List Q) (signatures : Bool → List (Option T) → Signatures T)
  | «then» (handle complete : Channel) (s : Sender Q T) (results : List T → List T)
  | «let» (tags : Channel → Bool) (s : Sender Q T) (dependent : Signature T → Sender Q T)
  | sequence (s dependent : Sender Q T)
  | inciteOn (s dependent : Sender Q T)
  | intoVariant (s : Sender Q T) (variantOf : List (List T) → T)
  | variant (n : ℕ) (options : Fin n → Sender Q T)
  | loop (looped : Channel) (never : Bool) (s : Sender Q T)
  | whenAll (n : ℕ) (children : Fin n → Sender Q T)
  | whenAny

namespace Sender

/-- `just`, `just_error` and `just_stopped`. -/
def just (tag : Channel) (types : List T) : Sender Q T :=
  .leaf true [] fun _ _ => [.mk types tag]

/-- `just_result_of` and `just_error_result_of`. A function that returns nothing sends
nothing. -/
def justResultOf (tag : Channel) (results : List (Option T)) : Sender Q T :=
  .leaf true [] fun _ _ => [.mk (results.filterMap id) tag]

/-- `read_env`. It is not there if a query is not valid. -/
def readEnv (queries : List Q) : Sender Q T :=
  .leaf true queries fun _ answers =>
    if answers.all Option.isSome then [.value (answers.filterMap id)] else []

/-- `inline_scheduler`'s. -/
def inlineScheduler : Sender Q T := .leaf true [] fun _ _ => [.value []]

/-- `when_all` of nothing. -/
def nullaryWhenAll : Sender Q T :=
  .leaf true [] fun stoppable _ => if stoppable then [.value [], .stopped] else [.value []]

def then_ (s : Sender Q T) (results : List T → List T) : Sender Q T :=
  .then .value .value s results

def uponError (s : Sender Q T) (results : List T → List T) : Sender Q T :=
  .then .error .value s results

def uponStopped (s : Sender Q T) (results : List T) : Sender Q T :=
  .then .stopped .value s fun _ => results

def thenError (s : Sender Q T) (results : List T → List T) : Sender Q T :=
  .then .value .error s results

def transformError (s : Sender Q T) (results : List T → List T) : Sender Q T :=
  .then .error .error s results

def letValue (s : Sender Q T) (dependent : Signature T → Sender Q T) : Sender Q T :=
  .let (· == .value) s dependent

def letError (s : Sender Q T) (dependent : Signature T → Sender Q T) : Sender Q T :=
  .let (· == .error) s dependent

def letStopped (s dependent : Sender Q T) : Sender Q T :=
  .let (· == .stopped) s fun _ => dependent

/-- `repeat` with `never`, and `repeat_until` and `repeat_n`. -/
def repeatUntil (never : Bool) (s : Sender Q T) : Sender Q T := .loop .value never s

/-- `retry` with `never`, and `retry_until`. -/
def retryUntil (never : Bool) (s : Sender Q T) : Sender Q T := .loop .error never s

end Sender

/-! ### What they advertise -/

variable [DecidableEq T]

def stoppedSignatures (e : Env Q T) : Signatures T := if e.stoppable then [.stopped] else []

def valueTypes (sigs : Signatures T) : List (List T) :=
  (sigs.filter fun σ => σ.channel == .value).map Signature.args

def errorTypes (sigs : Signatures T) : List (List T) :=
  (sigs.filter fun σ => σ.channel == .error).map Signature.args

/-- The children of `when_all` that send one value completion send together what they
send; all that send one error completion send the same. -/
def whenAllSignatures (children : List (Signatures T)) : Signatures T :=
  let single (types : Signatures T → List (List T)) :=
    children.filterMap fun sigs => match types sigs with
      | [args] => some args
      | _ => none
  let stopped := children.flatMap fun sigs =>
    if sigs.sendsStopped then [Signature.stopped] else []
  (.value (single valueTypes).flatten :: (((single errorTypes).take 1).map Signature.error ++
    stopped)).eraseDups

namespace Sender

def signatures (e : Env Q T) : Sender Q T → Signatures T
  | .leaf _ queries sigs => sigs e.stoppable (queries.map e.query)
  | .then handle complete s results =>
      Signatures.then_ handle (fun args => .mk args complete) results (signatures e s)
  | .let tags s dependent =>
      ((signatures e s).filter (fun σ => !tags σ.channel) ++
        ((signatures e s).filter fun σ => tags σ.channel).flatMap
          fun σ => signatures e (dependent σ)).eraseDups
  | .sequence s dependent =>
      ((signatures e s).filter (fun σ => σ.channel == .error) ++
        (signatures e s).filter (fun σ => σ.channel == .stopped) ++
        signatures e dependent).eraseDups
  | .inciteOn s dependent =>
      ((signatures e s).filter (fun σ => σ.channel == .error) ++
        (signatures e s).filter (fun σ => σ.channel == .stopped) ++
        if (signatures e s).sendsValue then signatures e dependent else []).eraseDups
  | .intoVariant s variantOf =>
      .transform (signatures e s) [.value [variantOf (valueTypes (signatures e s)).eraseDups]]
        (fun _ => []) Signatures.defaultSetError [.stopped]
  | .variant _ options => ((List.ofFn fun i => signatures e (options i)).flatten).eraseDups
  | .loop looped never s =>
      .transform (signatures e s) (stoppedSignatures e)
        (fun args => if never && looped == .value then [] else Signatures.defaultSetValue args)
        (fun args => if never && looped == .error then [] else Signatures.defaultSetError args)
        [.stopped]
  | .whenAll _ children => whenAllSignatures (List.ofFn fun i => signatures e (children i))
  | .whenAny => if e.stoppable then [.stopped] else []

/-! ### Whether they say that they complete synchronously -/

/-- `completes_synchronously` of the sender's attributes. `let_value` and its family,
`incite_on` and `into_variant` have none. -/
def synchronous : Sender Q T → Bool
  | .leaf isSync _ _ => isSync
  | .then _ _ s _ | .loop _ _ s => synchronous s
  | .sequence s dependent => synchronous s && synchronous dependent
  | .variant _ options => (List.ofFn fun i => synchronous (options i)).all id
  | .whenAll _ children => (List.ofFn fun i => synchronous (children i)).all id
  | .whenAny => true
  | .let _ _ _ | .inciteOn _ _ | .intoVariant _ _ => false

/-- `completes_synchronously` of the operation state's attributes, where the
receiver's environment is `e`. That of `when_all` is chosen by the senders. -/
def opSynchronous (qs : Queries Q T) (e : Env Q T) : Sender Q T → Bool
  | .leaf isSync _ _ => isSync
  | .then _ _ s _ | .intoVariant s _ | .loop _ _ s => opSynchronous qs (e.forward qs) s
  | .let tags s dependent =>
      opSynchronous qs (e.forward qs) s &&
        ((signatures e s).filter fun σ => tags σ.channel).all
          fun σ => opSynchronous qs e (dependent σ)
  | .sequence s dependent => opSynchronous qs (e.forward qs) s && opSynchronous qs e dependent
  | .inciteOn _ _ => false
  | .variant _ options => (List.ofFn fun i => opSynchronous qs e (options i)).all id
  | .whenAll _ children => (List.ofFn fun i => synchronous (children i)).all id
  | .whenAny => true

end Sender

end BaremetalSenders.Expressions
