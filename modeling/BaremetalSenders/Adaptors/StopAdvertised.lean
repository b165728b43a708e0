import BaremetalSenders.Adaptors.Periodic
import BaremetalSenders.Adaptors.Split
import BaremetalSenders.Senders.Signatures

/-!
Whether `periodic` and `split` advertise that they send stopped.

Both look at the receiver's stop token themselves, and both have the signatures
of their child. `periodic` looks only where the child does not advertise
stopped in the receiver's environment, so that what it sends then is sent by
nobody else. `split` looks always.

`Env` is the type of environment types, and `overriding` the environment the
child of `periodic` is given, with an expiration provider in front.
-/

namespace BaremetalSenders

open Repeat (Channel)

variable {Env T : Type*}

namespace Periodic

variable [DecidableEq T] {P β τ δ : Type*}

/-- `_periodic::sender`. The predicate of `periodic` itself is `never_stop`, which
is recognised by its type. -/
structure Adaptor (P τ δ Env T : Type*) where
  d : δ
  pred : Option (P → Bool × P)
  initial : P
  expiry : δ → τ → Timer.ExpirationProvider τ
  policy : ExpirationPolicy δ
  child : Env → Signatures T

namespace Adaptor

def evaluate (A : Adaptor P τ δ Env T) (p : P) : Bool × P := (A.pred.getD fun p => (false, p)) p

def signatures (A : Adaptor P τ δ Env T) (env : Env) : Signatures T :=
  .periodic A.pred.isNone (A.child env)

section Step

variable (stoppable : Env → Bool) (overriding : Env → Env)

/-- The operations for a receiver with environment `env`. `restart` looks for a
stop request if `not stoppable_sender<Sndr, env_of_t<Rcvr>>`, and can find one
if the token is not `never_stop_token`. -/
def sender (A : Adaptor P τ δ Env T) (env : Env) : Sender P τ δ :=
  ⟨A.d, A.evaluate, A.expiry, A.policy, !(A.child env).sendsStopped && stoppable env⟩

/-- The operations are constructed by `connect`, and the child completes as it
advertises in the environment it is given. -/
def Honest (A : Adaptor P τ δ Env T) (env : Env) (_ : State P β τ δ) : Event P β τ δ → Prop
  | .construct p => p = A.initial
  | .complete _ ch => ∃ σ ∈ A.child (overriding env), σ.channel = ch
  | _ => True

variable [DecidableEq β] [LT τ] [DecidableLT τ] [HAdd τ δ τ] [Inhabited τ]

/-- In a stoppable environment, stopped is advertised if some run sends it. -/
def Advertises (β : Type*) [DecidableEq β] (fused : Bool) (A : Adaptor P τ δ Env T)
    (env : Env) : Prop :=
  stoppable env = true → ∀ (expirationTime : ℕ ⊕ β → τ) (tr : List (Event P β τ δ)) s,
    Run (step fused (A.sender stoppable env)) (.init expirationTime) tr s →
    EachStep (step fused (A.sender stoppable env)) (A.Honest overriding env)
      (.init expirationTime) tr →
    .deliver .stopped ∈ tr → .stopped ∈ A.signatures env

/-- The child advertises stopped; or it does not send it, and no operation gets as
far as `restart`. -/
def Covered (A : Adaptor P τ δ Env T) (env : Env) : Prop :=
  .stopped ∈ A.child env ∨ .stopped ∉ A.child (overriding env) ∧
    ((A.child (overriding env)).sendsValue = false ∨ (A.evaluate A.initial).1 = true)

/-- An operation that does not get as far as `restart`. -/
def Early (A : Adaptor P τ δ Env T) (env : Env) (op : Op P τ) : Prop :=
  match op.phase with
  | .connected | .running => op.pred = A.initial
  | .completing => op.pred = A.initial ∧ (A.child (overriding env)).sendsValue = true
  | .restarting => False
  | .passing ch => ch ≠ .stopped
  | .completed => True

variable {stoppable overriding} {fused : Bool} {A : Adaptor P τ δ Env T} {env : Env}

theorem early_step (hstopped : .stopped ∉ A.child (overriding env))
    (hend : (A.child (overriding env)).sendsValue = false ∨ (A.evaluate A.initial).1 = true)
    {s s' : State P β τ δ} {e : Event P β τ δ}
    (hearly : ∀ op, s.slot = some op → A.Early overriding env op)
    (hhonest : A.Honest overriding env s e)
    (h : step fused (A.sender stoppable env) s e = some s') :
    (∀ op, s'.slot = some op → A.Early overriding env op) ∧ e ≠ .deliver .stopped := by
  cases step_move h with
  | construct p =>
      refine ⟨fun op hop => ?_, by simp⟩
      cases hop
      exact hhonest
  | destroy => exact ⟨by simp, by simp⟩
  | start readings op tp t hop hphase =>
      refine ⟨fun op' hop' => ?_, by simp⟩
      cases hop'
      simpa [Early, hphase] using hearly op hop
  | complete k ch op hop hphase =>
      have hpred : op.pred = A.initial := by simpa [Early, hphase] using hearly op hop
      obtain ⟨σ, hσ, rfl⟩ := hhonest
      refine ⟨fun op' hop' => ?_, by simp⟩
      cases hop'
      cases σ with
      | value args => exact ⟨hpred, Signatures.sendsValue_eq_true.mpr ⟨args, hσ⟩⟩
      | error args => simp [Early, Signature.channel]
      | stopped => exact absurd hσ hstopped
  | evaluate op hop hphase =>
      have hpred : op.pred = A.initial ∧ (A.child (overriding env)).sendsValue = true := by
        simpa [Early, hphase] using hearly op hop
      have htrue : (A.evaluate op.pred).1 = true := by
        rw [hpred.1]
        exact hend.resolve_left (by simp [hpred.2])
      refine ⟨fun op' hop' => ?_, by simp⟩
      cases hop'
      simp [Early, sender, htrue]
  -- no operation has come as far as `restart`
  | restart readings op tp t hop hphase => simpa [Early, hphase] using hearly op hop
  | stopped op hop hphase => simpa [Early, hphase] using hearly op hop
  | deliver ch op hop hphase =>
      have hch : ch ≠ .stopped := by simpa [Early, hphase] using hearly op hop
      refine ⟨fun op' hop' => ?_, by simpa using hch⟩
      cases hop'
      exact True.intro
  | leave =>
      refine ⟨fun op' hop' => ?_, by simp⟩
      obtain ⟨op, hop, rfl⟩ := Option.map_eq_some_iff.mp hop'
      exact hearly op hop
  | timer => exact ⟨hearly, by simp⟩

theorem advertises_of_covered (h : stoppable env = true → A.Covered overriding env) :
    A.Advertises stoppable overriding β fused env := by
  intro hstoppable expirationTime tr s hr hhonest hmem
  obtain hchild | ⟨hstopped, hend⟩ := h hstoppable
  · exact Signatures.stopped_mem_periodic.mpr hchild
  · have hrun := hr.induction_of_eachStep
      (P := fun tr (s : State P β τ δ) =>
        (∀ op, s.slot = some op → A.Early overriding env op) ∧ .deliver .stopped ∉ tr)
      ⟨by simp [State.init], by simp⟩
      (fun tr s e s' _ ih hC hs => by
        have hstep := early_step hstopped hend ih.1 hC hs
        exact ⟨hstep.1, by simpa [ih.2] using hstep.2.symm⟩) hhonest
    exact absurd hmem hrun.2

/-- The child finds that it is to stop, and sends what it makes of that. -/
def sendsTrace (initial : P) : List (Event P β τ δ) :=
  [.construct initial, .start none, .complete 0 .stopped, .deliver .stopped]

/-- The child finds that it is to stop, and completes with a value; so does
`restart`, after the predicate. -/
def looksTrace (initial : P) : List (Event P β τ δ) :=
  [.construct initial, .start none, .complete 0 .value, .evaluate false, .stopped,
    .deliver .stopped]

variable (fused) in
theorem exists_run_sendsTrace (S : Sender P τ δ) (initial : P) (expirationTime : ℕ ⊕ β → τ) :
    ∃ s, Run (step fused S) (.init expirationTime) (sendsTrace initial) s := by
  simp [sendsTrace, step, State.init, State.unused, State.emplace, schedule, Timer.State.init,
    Timer.Manager.init]

variable (fused) in
theorem exists_run_looksTrace {S : Sender P τ δ} {initial : P} (hchecks : S.checksStop = true)
    (hpred : (S.pred initial).1 = false) (expirationTime : ℕ ⊕ β → τ) :
    ∃ s, Run (step fused S) (.init expirationTime) (looksTrace initial) s := by
  simp [looksTrace, step, State.init, State.unused, State.emplace, schedule, Timer.State.init,
    Timer.Manager.init, hchecks, hpred]

omit [DecidableEq T] in
theorem eachStep_sendsTrace {S : Sender P τ δ} (h : .stopped ∈ A.child (overriding env))
    (s : State P β τ δ) :
    EachStep (step fused S) (A.Honest overriding env) s (sendsTrace A.initial) :=
  ⟨rfl, fun _ _ => ⟨True.intro, fun _ _ => ⟨⟨_, h, rfl⟩, fun _ _ =>
    ⟨True.intro, fun _ _ => True.intro⟩⟩⟩⟩

omit [DecidableEq T] in
theorem eachStep_looksTrace {S : Sender P τ δ}
    (h : (A.child (overriding env)).sendsValue = true) (s : State P β τ δ) :
    EachStep (step fused S) (A.Honest overriding env) s (looksTrace A.initial) := by
  obtain ⟨args, hargs⟩ := Signatures.sendsValue_eq_true.mp h
  exact ⟨rfl, fun _ _ => ⟨True.intro, fun _ _ => ⟨⟨_, hargs, rfl⟩, fun _ _ =>
    ⟨True.intro, fun _ _ => ⟨True.intro, fun _ _ => ⟨True.intro, fun _ _ => True.intro⟩⟩⟩⟩⟩⟩

theorem covered_of_advertises (h : A.Advertises stoppable overriding β fused env)
    (hstoppable : stoppable env = true) : A.Covered overriding env := by
  by_cases hchild : .stopped ∈ A.child env
  · exact .inl hchild
  have hnever : ¬ .stopped ∈ A.signatures env :=
    fun hmem => hchild (Signatures.stopped_mem_periodic.mp hmem)
  have hdeliver := h hstoppable fun _ => default
  refine .inr ⟨fun hstopped => ?_, ?_⟩
  · obtain ⟨s, hs⟩ := exists_run_sendsTrace fused (A.sender stoppable env) A.initial
      (fun _ : ℕ ⊕ β => default)
    exact hnever (hdeliver _ s hs (eachStep_sendsTrace hstopped _) (by simp [sendsTrace]))
  · by_contra hcontra
    push Not at hcontra
    obtain ⟨hvalue, hpred⟩ := hcontra
    have hchecks : (A.sender stoppable env).checksStop = true := by
      simp [sender, hchild, hstoppable]
    have hno : ((A.sender stoppable env).pred A.initial).1 = false := by simpa [sender] using hpred
    obtain ⟨s, hs⟩ := exists_run_looksTrace fused hchecks hno (fun _ : ℕ ⊕ β => default)
    exact hnever (hdeliver _ s hs (eachStep_looksTrace (by simpa using hvalue) _)
      (by simp [looksTrace]))

end Step

end Adaptor

end Periodic

namespace Split

variable {V E : Type*}

def Completion.channel : Completion V → Channel
  | .value _ => .value
  | .error _ => .error
  | .stopped => .stopped

section Step

variable [DecidableEq V] [DecidableEq E] (stoppable : Env → Bool) (single : Env)

/-- Stop is requested of a token that can be stopped, and the underlying operation
completes as its sender advertises in the environment of `single_receiver`. -/
def Honest (envs : ℕ → Env) (child : Env → Signatures T) (_ : State V E) : Event V E → Prop
  | .requestStop o => stoppable (envs o) = true
  | .complete r => ∃ σ ∈ child single, σ.channel = r.channel
  | _ => True

/-- In a stoppable environment, stopped is advertised if some run sends it. The
receivers of the operations have environments `envs`. -/
def Advertises (V E : Type*) [DecidableEq V] [DecidableEq E] (child : Env → Signatures T)
    (env : Env) : Prop :=
  stoppable env = true → ∀ (recv : ℕ → Receiver V) (envs : ℕ → Env) (o : ℕ)
    (tr : List (Event V E)) s, envs o = env → Run (step recv) .init tr s →
    EachStep (step recv) (Honest stoppable single envs child) .init tr →
    (∃ e ∈ tr, e.completes o = some .stopped) → .stopped ∈ Signatures.split (child env)

/-- Stop is requested before the first operation is started. -/
def stopTrace : List (Event V E) :=
  [.connect 0, .requestStop 0, .check 0 false, .emplace 0, .test 0 true, .setStopped 0]

variable {stoppable single}

theorem exists_run_stopTrace (recv : ℕ → Receiver V) :
    ∃ s, Run (step recv) (State.init : State V E) stopTrace s := by
  simp [stopTrace, step, State.init, State.setOp, Op.unborn]

theorem advertises_iff {child : Env → Signatures T} {env : Env} :
    Advertises stoppable single V E child env ↔
      (stoppable env = true → .stopped ∈ child env) := by
  constructor
  · intro h hstoppable
    obtain ⟨s, hs⟩ := exists_run_stopTrace (V := V) (E := E) fun _ => ⟨id, id⟩
    refine h hstoppable _ (fun _ => env) 0 stopTrace s rfl hs ?_
      ⟨.setStopped 0, by simp [stopTrace], rfl⟩
    exact ⟨True.intro, fun _ _ => ⟨hstoppable, fun _ _ => ⟨True.intro, fun _ _ =>
      ⟨True.intro, fun _ _ => ⟨True.intro, fun _ _ => ⟨True.intro, fun _ _ => True.intro⟩⟩⟩⟩⟩⟩
  · intro h hstoppable _ _ _ _ _ _ _ _ _
    exact h hstoppable

end Step

end Split

/-! ### Both -/

section Both

variable [DecidableEq T] {P β τ δ V E : Type*} [DecidableEq β] [LT τ] [DecidableLT τ]
  [HAdd τ δ τ] [Inhabited τ] [DecidableEq V] [DecidableEq E]

/-- `periodic` advertises the stopped it sends where its child advertises stopped
already, or where the child does not send it and `restart` is not reached;
`split` where its child advertises stopped. -/
theorem advertised_iff_covered (stoppable : Env → Bool) (overriding : Env → Env) (single : Env)
    (fused : Bool) (A : Periodic.Adaptor P τ δ Env T) (child : Env → Signatures T) (env : Env) :
    (A.Advertises stoppable overriding β fused env ↔
      (stoppable env = true → A.Covered overriding env)) ∧
    (Split.Advertises stoppable single V E child env ↔
      (stoppable env = true → .stopped ∈ child env)) :=
  ⟨⟨Periodic.Adaptor.covered_of_advertises, Periodic.Adaptor.advertises_of_covered⟩,
    Split.advertises_iff⟩

/-- `time_scheduler{}.schedule() | upon_stopped(f)` with an `f` that returns nothing,
in an environment that is stoppable or not. -/
def uponStopped (stoppable : Bool) : Signatures Empty :=
  .then_ .stopped .value (fun _ => []) (.timeScheduler stoppable)

example : uponStopped true = [.value []] := by decide

/-- `periodic(d)` of it. -/
def uponStoppedPeriodic : Periodic.Adaptor Unit ℤ ℤ Bool Empty :=
  ⟨10, none, (), Periodic.safeImmediateExpiry, .timepoint, uponStopped⟩

theorem not_advertised_upon_stopped :
    ¬ uponStoppedPeriodic.Advertises id id Empty false true ∧
      ¬ Split.Advertises id true Unit Unit uponStopped true := by
  constructor
  · intro h
    have hcovered := Periodic.Adaptor.covered_of_advertises h rfl
    exact absurd hcovered (by
      simp only [Periodic.Adaptor.Covered]
      decide)
  · intro h
    exact absurd (Split.advertises_iff.mp h rfl) (by decide)

end Both

end BaremetalSenders
