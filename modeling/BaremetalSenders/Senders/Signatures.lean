import BaremetalSenders.Adaptors.Repeat

/-!
Completion signatures, and the type functions adaptors compute theirs with.

A type list of signatures is a list here, over the types `T` of arguments. The
operations on them are those of `type_traits.hpp`; what each adaptor advertises
is an application of them to what its child advertises in the same environment,
so it is a function of lists.
-/

namespace BaremetalSenders

open Repeat (Channel)

/-- A completion signature with the types of its arguments. `set_stopped_t` has
none. -/
inductive Signature (T : Type*) where
  | value (args : List T)
  | error (args : List T)
  | stopped
  deriving DecidableEq

abbrev Signatures (T : Type*) := List (Signature T)

namespace Signature

variable {T : Type*}

/-- The signature of a completion on a channel. -/
def mk (args : List T) : Channel → Signature T
  | .value => .value args
  | .error => .error args
  | .stopped => .stopped

def channel : Signature T → Channel
  | .value _ => .value
  | .error _ => .error
  | .stopped => .stopped

def args : Signature T → List T
  | .value args | .error args => args
  | .stopped => []

@[simp] theorem mk_args_channel (σ : Signature T) : mk σ.args σ.channel = σ := by
  cases σ <;> rfl

end Signature

namespace Signatures

variable {T : Type*} [DecidableEq T]

instance decidableMem (σ : Signature T) (sigs : Signatures T) : Decidable (σ ∈ sigs) :=
  List.instDecidableMemOfLawfulBEq σ sigs

/-- `sends_stopped`, and `stoppable_sender`. -/
def sendsStopped (sigs : Signatures T) : Bool := decide (.stopped ∈ sigs)

/-- `value_signatures_of_t` is not empty. -/
def sendsValue (sigs : Signatures T) : Bool := sigs.any fun σ => σ.channel == .value

def defaultSetValue (args : List T) : Signatures T := [.value args]

def defaultSetError (args : List T) : Signatures T := [.error args]

/-- `transform_completion_signatures`: `mp_unique` of the additional signatures
and of what the value and error signatures are made into, and `setStopped` if
the child sends stopped. -/
def transform (sigs addl : Signatures T) (setValue setError : List T → Signatures T)
    (setStopped : Signatures T) : Signatures T :=
  (addl ++
    (sigs.filter fun σ => σ.channel == .value).flatMap (fun σ => setValue σ.args) ++
    (sigs.filter fun σ => σ.channel == .error).flatMap (fun σ => setError σ.args) ++
    (if sigs.sendsStopped then setStopped else [])).eraseDups

@[simp] theorem sendsStopped_eq_true {sigs : Signatures T} :
    sigs.sendsStopped = true ↔ .stopped ∈ sigs := by
  simp [sendsStopped]

@[simp] theorem sendsStopped_eq_false {sigs : Signatures T} :
    sigs.sendsStopped = false ↔ .stopped ∉ sigs := by
  simp [sendsStopped]

omit [DecidableEq T] in
theorem sendsValue_eq_true {sigs : Signatures T} :
    sigs.sendsValue = true ↔ ∃ args, .value args ∈ sigs := by
  simp only [sendsValue, List.any_eq_true, beq_iff_eq]
  constructor
  · rintro ⟨σ, hσ, hchannel⟩
    cases σ <;> cases hchannel
    exact ⟨_, hσ⟩
  · rintro ⟨args, hargs⟩
    exact ⟨.value args, hargs, rfl⟩

/-- What a transformed list contains, by where it comes from. -/
theorem mem_transform {sigs addl setStopped : Signatures T}
    {setValue setError : List T → Signatures T} {σ : Signature T} :
    σ ∈ transform sigs addl setValue setError setStopped ↔
      σ ∈ addl ∨ (∃ args, .value args ∈ sigs ∧ σ ∈ setValue args) ∨
        (∃ args, .error args ∈ sigs ∧ σ ∈ setError args) ∨
        (.stopped ∈ sigs ∧ σ ∈ setStopped) := by
  have hvalue : (∃ ρ, (ρ ∈ sigs ∧ ρ.channel = .value) ∧ σ ∈ setValue ρ.args) ↔
      ∃ args, .value args ∈ sigs ∧ σ ∈ setValue args := by
    constructor
    · rintro ⟨ρ, ⟨hρ, hchannel⟩, hσ⟩
      cases ρ <;> cases hchannel
      exact ⟨_, hρ, hσ⟩
    · rintro ⟨args, hargs, hσ⟩
      exact ⟨.value args, ⟨hargs, rfl⟩, hσ⟩
  have herror : (∃ ρ, (ρ ∈ sigs ∧ ρ.channel = .error) ∧ σ ∈ setError ρ.args) ↔
      ∃ args, .error args ∈ sigs ∧ σ ∈ setError args := by
    constructor
    · rintro ⟨ρ, ⟨hρ, hchannel⟩, hσ⟩
      cases ρ <;> cases hchannel
      exact ⟨_, hρ, hσ⟩
    · rintro ⟨args, hargs, hσ⟩
      exact ⟨.error args, ⟨hargs, rfl⟩, hσ⟩
  simp only [transform, List.mem_eraseDups, List.mem_append, List.mem_flatMap, List.mem_filter,
    beq_iff_eq, hvalue, herror, or_assoc]
  split <;> simp_all

/-- What a signature of the child is made into is advertised. -/
theorem mem_transform_of_mem {sigs addl setStopped : Signatures T}
    {setValue setError : List T → Signatures T} {σ τ : Signature T} (h : σ ∈ sigs)
    (hτ : τ ∈ match σ with
      | .value args => setValue args
      | .error args => setError args
      | .stopped => setStopped) :
    τ ∈ transform sigs addl setValue setError setStopped := by
  rw [mem_transform]
  cases σ with
  | value args => exact .inr (.inl ⟨args, h, hτ⟩)
  | error args => exact .inr (.inr (.inl ⟨args, h, hτ⟩))
  | stopped => exact .inr (.inr (.inr ⟨h, hτ⟩))

/-! ### What adaptors advertise -/

/-- `_then::sender::get_completion_signatures`. `f` gives the types of the
results of the functions, and `complete` is `as_signature<CompleteTag>`. -/
def then_ (handle : Channel) (complete : List T → Signature T) (f : List T → List T)
    (sigs : Signatures T) : Signatures T :=
  match handle with
  | .value => transform sigs [] (fun args => [complete (f args)]) defaultSetError [.stopped]
  | .error => transform sigs [] defaultSetValue (fun args => [complete (f args)]) [.stopped]
  | .stopped =>
      if sigs.sendsStopped then
        transform sigs [complete (f [])] defaultSetValue defaultSetError []
      else sigs

/-- `_periodic::sender::get_completion_signatures`; `never` says that the
predicate is `never_stop`. -/
def periodic (never : Bool) (sigs : Signatures T) : Signatures T :=
  if never then transform sigs [] (fun _ => []) defaultSetError [.stopped] else sigs

def split (sigs : Signatures T) : Signatures T := sigs

/-- `time_scheduler`'s, in an environment that is stoppable or not. -/
def timeScheduler (stoppable : Bool) : Signatures T :=
  if stoppable then [.value [], .stopped] else [.value []]

/-- The stopped channel of `periodic` is the child's. -/
theorem stopped_mem_periodic {never : Bool} {sigs : Signatures T} :
    .stopped ∈ periodic never sigs ↔ .stopped ∈ sigs := by
  cases never <;> simp [periodic, mem_transform, defaultSetError]

end Signatures

end BaremetalSenders
