import BaremetalSenders.Senders.ScheduledContexts

/-!
`sync_wait_dynamic` and `sync_wait_static`.

One of the expressions is connected and started by a caller who waits for it. With the static
flavour who waits does nothing else, and with the dynamic one nothing but execute the operations
of a loop that the call has of its own. What the receiver gets is put into `values`, which are
returned. The loop, the synchronizer, `values` and the operation state are local to the call.

The expression must not wait for who calls in another way than by that loop: who calls would
never come to execute it. Then the call returns what the expression completes with, and nothing
is left of the expression when it does.
-/

namespace BaremetalSenders.Scheduled

open Repeat (Channel)
open BaremetalSenders.Sequential (Completion)

/-! ### What an expression waits for -/

section WaitsFor

variable {ℓ K V W : Type*} {P : Executor ℓ → Prop} {s : Sender ℓ K V W}

/-- All that the sender ever waits for satisfies `P`. -/
def Sender.WaitsFor (P : Executor ℓ → Prop) : Sender ℓ K V W → Prop
  | .just _ | .schedule .inline => True
  | .schedule (.executor e) => P e
  | .then _ _ s _ => s.WaitsFor P
  | .let _ s fn _ => s.WaitsFor P ∧ ∀ tag vs k w, (fn tag vs k w).WaitsFor P
  | .sequence s func _ => s.WaitsFor P ∧ ∀ k w, (func k w).WaitsFor P

theorem Executor.hopsTo_completed (e : Executor ℓ) :
    (e.completed : Behaviour ℓ K V W).HopsTo P := by
  unfold Executor.completed
  split
  · exact fun _ => True.intro
  · exact True.intro

theorem Sender.WaitsFor.hopsTo (h : s.WaitsFor P) : (denote s).HopsTo P := by
  induction s with
  | just c => exact True.intro
  | schedule sched =>
      cases sched with
      | inline => exact True.intro
      | executor e =>
          cases e with
          | thread => exact ⟨h, Executor.hopsTo_completed .thread⟩
          | runLoop l => exact ⟨h, Executor.hopsTo_completed (.runLoop l)⟩
          | priority p =>
              intro b
              cases b with
              | true => exact True.intro
              | false => exact ⟨h, Executor.hopsTo_completed (.priority p)⟩
  | «then» tag complete s fs ih => exact (ih h).handle fun c _ _ => True.intro
  | «let» tags s fn effect ih ihfn =>
      exact (ih h.1).handle fun c k w => ihfn _ _ _ _ (h.2 c.channel c.args k w)
  | sequence s func effect ih ihfunc =>
      exact (ih h.1).handle fun _ k w => ihfunc _ _ (h.2 k w)

end WaitsFor

variable {ι ℓ V W : Type*} [DecidableEq ι] [DecidableEq ℓ]

/-- Where an operation is found waiting. -/
theorem exists_context_of_queued {s : ι → Sender ℓ (Context ι ℓ) V W} {w : W}
    {tr : List (Crew.Event ι (Context ι ℓ))} {st : System ι ℓ V W}
    (h : Run System.step (.init s w) tr st) {P : Executor ℓ → Prop} {i : ι}
    (hi : (s i).WaitsFor P) {k : Context ι ℓ} {c : Config ℓ (Context ι ℓ) V W}
    (hqueued : st.job i = .queued k c) : ∃ e, P e ∧ e.context i = k := by
  obtain ⟨tr', t, hrun, hsim, -⟩ := exists_simulated_of_run h
  obtain ⟨a, ha, -⟩ := (hqueued ▸ hsim.job i).queued_inv
  have hhops (j : ι) : (denote (s j)).HopsTo fun e => j = i → P e := by
    rcases eq_or_ne j i with rfl | hne
    · simpa using hi.hopsTo
    · simpa [hne] using Resumption.HopsTo.trivial
  have hhopping := Crew.hopping_of_run hrun hhops i
  rw [ha] at hhopping
  obtain ⟨-, e, he, hk⟩ := hhopping
  exact ⟨e, he rfl, hk⟩

end BaremetalSenders.Scheduled

namespace BaremetalSenders.SyncWait

open Scheduled (Context System Config Sender MeaningSystem)
open BaremetalSenders.Sequential (Completion)

variable {ι ℓ V W : Type*}

/-! ### A call -/

/-- `dynamic_t` with the loop and who calls, `static_t` with who calls. -/
inductive Flavor (ι ℓ : Type*) where
  | dynamic (rl : ℓ) (caller : Context ι ℓ)
  | static (caller : Context ι ℓ)

def Flavor.caller : Flavor ι ℓ → Context ι ℓ
  | .dynamic _ caller | .static caller => caller

/-- What the loop of the call executes is executed in this context, which is there for the time
that the caller is inside `run`. -/
def Flavor.loop : Flavor ι ℓ → Option (Context ι ℓ)
  | .dynamic rl _ => some (.runLoop rl)
  | .static _ => none

inductive Stage (V : Type*) where
  | before
  | waiting
  | returned (values : Option (List V))

/-- All contexts, and the call. `done` is the one of the synchronizer. -/
structure State (ι ℓ V W : Type*) where
  contexts : System ι ℓ V W
  values : Option (List V)
  done : Bool
  stage : Stage V

/-- `call` is all up to `start`, and `return` is what follows `wait` or `run`. -/
inductive Event (ι ℓ : Type*) where
  | call
  | contexts (e : Crew.Event ι (Context ι ℓ))
  | «return»

/-- This is not asked for from outside. -/
def Event.works : Event ι ℓ → Bool
  | .call => false
  | .contexts e => e.works
  | .return => true

def emplaced : Completion V → Option (List V)
  | .value vs => some vs
  | .error _ | .stopped => none

namespace State

variable (st : State ι ℓ V W)

/-- The completion functions of the receivers, with `loop.finish()` or `sync.notify()`. -/
def complete (c : Completion V) : State ι ℓ V W :=
  { st with
    values := match c with
      | .value vs => some vs
      | .error _ | .stopped => st.values
    done := true }

def isWaiting : Bool :=
  match st.stage with
  | .waiting => true
  | .before | .returned _ => false

variable [DecidableEq ι] [DecidableEq ℓ]

/-- The receiver of the operation `i` is completed by the last step of it. -/
def receive (i : ι) (e : Crew.Event ι (Context ι ℓ)) : State ι ℓ V W :=
  match st.contexts.job i with
  | .done _ c => if e = .step i then st.complete c else st
  | _ => st

/-- Only the call starts the operation. Who waits takes nothing but the operations of the loop,
from when `start` has returned. -/
def allows (fl : Flavor ι ℓ) (i : ι) : Crew.Event ι (Context ι ℓ) → Bool
  | .start j k => j ≠ i && !(k = fl.caller && st.isWaiting) && fl.loop ≠ some k
  | .take k =>
      if fl.loop = some k then st.isWaiting && (st.contexts.current fl.caller).isNone
      else !(k = fl.caller && st.isWaiting)
  | .step _ | .requestStop _ => true

end State

variable [DecidableEq ι] [DecidableEq ℓ]

def State.init (s : ι → Sender ℓ (Context ι ℓ) V W) (w : W) : State ι ℓ V W :=
  ⟨.init s w, none, false, .before⟩

/-- `run` returns where the loop is empty, `wait` where `done` is set. -/
def mayReturn (fl : Flavor ι ℓ) (st : State ι ℓ V W) : Bool :=
  st.isWaiting && st.done && (st.contexts.current fl.caller).isNone &&
    match fl.loop with
    | some k => (st.contexts.current k).isNone && (st.contexts.queue k).isEmpty
    | none => true

def step (fl : Flavor ι ℓ) (i : ι) (st : State ι ℓ V W) : Event ι ℓ → Option (State ι ℓ V W)
  | .call =>
      match st.stage with
      | .before =>
          (st.contexts.step (.start i fl.caller)).map fun contexts =>
            { st with contexts, stage := .waiting }
      | _ => none
  | .contexts e =>
      if st.allows fl i e then
        (st.contexts.step e).map fun contexts => { st with contexts }.receive i e
      else none
  | .return =>
      if mayReturn fl st then some { st with stage := .returned st.values } else none

/-! ### What a step can do -/

inductive Move (fl : Flavor ι ℓ) (i : ι) (st : State ι ℓ V W) : Event ι ℓ → State ι ℓ V W → Prop
  | call {contexts} (hstage : st.stage = .before)
      (hs : st.contexts.step (.start i fl.caller) = some contexts) :
      Move fl i st .call { st with contexts, stage := .waiting }
  | contexts {e contexts} (hallows : st.allows fl i e = true)
      (hs : st.contexts.step e = some contexts) :
      Move fl i st (.contexts e) ({ st with contexts }.receive i e)
  | return (hreturn : mayReturn fl st = true) :
      Move fl i st .return { st with stage := .returned st.values }

section Steps

variable {fl : Flavor ι ℓ} {i : ι} {st st' : State ι ℓ V W} {e : Event ι ℓ}

theorem step_move (h : step fl i st e = some st') : Move fl i st e st' := by
  cases e with
  | call =>
      simp only [step] at h
      split at h
      · next hstage =>
          obtain ⟨contexts, hs, rfl⟩ := Option.map_eq_some_iff.mp h
          exact .call hstage hs
      · cases h
  | contexts e =>
      simp only [step] at h
      split at h
      · next hallows =>
          obtain ⟨contexts, hs, rfl⟩ := Option.map_eq_some_iff.mp h
          exact .contexts hallows hs
      · cases h
  | «return» =>
      simp only [step] at h
      split at h
      · next hreturn =>
          cases h
          exact .return hreturn
      · cases h

def Event.seen (fl : Flavor ι ℓ) (i : ι) : Event ι ℓ → Option (Crew.Event ι (Context ι ℓ))
  | .call => some (.start i fl.caller)
  | .contexts e => some e
  | .return => none

variable {c : Completion V} {e' : Crew.Event ι (Context ι ℓ)}

omit [DecidableEq ι] [DecidableEq ℓ] in
@[simp] theorem contexts_complete : (st.complete c).contexts = st.contexts := rfl

omit [DecidableEq ι] [DecidableEq ℓ] in
@[simp] theorem stage_complete : (st.complete c).stage = st.stage := rfl

@[simp] theorem contexts_receive : (st.receive i e').contexts = st.contexts := by
  simp only [State.receive]
  split
  · split <;> rfl
  · rfl

@[simp] theorem stage_receive : (st.receive i e').stage = st.stage := by
  simp only [State.receive]
  split
  · split <;> rfl
  · rfl

theorem receive_of_ne (he : e' ≠ .step i) : st.receive i e' = st := by
  cases hj : st.contexts.job i <;> simp [State.receive, hj, he]

theorem receive_of_done {k : Context ι ℓ} (hjob : st.contexts.job i = .done k c) :
    st.receive i (.step i) = st.complete c := by
  simp [State.receive, hjob]

theorem receive_of_not_done (hjob : ∀ k c, st.contexts.job i ≠ .done k c) :
    st.receive i e' = st := by
  cases hj : st.contexts.job i with
  | done k c => exact absurd hj (hjob k c)
  | fresh | queued | running => simp [State.receive, hj]

/-- The contexts take the steps that are theirs. -/
theorem contexts_of_run {s : ι → Sender ℓ (Context ι ℓ) V W} {w : W} {tr : List (Event ι ℓ)}
    (h : Run (step fl i) (.init s w) tr st) :
    Run System.step (.init s w) (tr.filterMap (Event.seen fl i)) st.contexts := by
  refine h.project State.contexts (Event.seen fl i) fun st e st' hs => ?_
  cases step_move hs with
  | call _ hcontexts => exact run_cons.mpr ⟨_, hcontexts, run_nil.mpr rfl⟩
  | contexts _ hcontexts => exact run_cons.mpr ⟨_, hcontexts, run_nil.mpr (by simp)⟩
  | «return» => exact run_nil.mpr rfl

end Steps

/-! ### What is returned -/

structure Coherent (i : ι) (st : State ι ℓ V W) : Prop where
  before : st.stage = .before → ∃ c, st.contexts.job i = .fresh c
  started : st.stage ≠ .before → ∀ c, st.contexts.job i ≠ .fresh c
  done : st.done = true → ∃ k c, st.contexts.job i = .done k c ∧ st.values = emplaced c
  notDone : st.done = false → st.values = none ∧ ∀ k c, st.contexts.job i ≠ .done k c
  returned : ∀ vs, st.stage = .returned vs → st.done = true ∧ vs = st.values

section Coherent

variable {fl : Flavor ι ℓ} {i : ι} {st st' : State ι ℓ V W} {e : Event ι ℓ}

theorem Coherent.step (h : Coherent i st) (hs : SyncWait.step fl i st e = some st') :
    Coherent i st' := by
  cases step_move hs with
  | @call contexts hstage hcontexts =>
      obtain ⟨c, hc⟩ := h.before hstage
      have hdone : st.done = false := by
        by_contra hne
        obtain ⟨k, c', hjob, -⟩ := h.done (by simpa using hne)
        cases hc.symm.trans hjob
      have hrunning : ∃ c, contexts.job i = .running fl.caller c := by
        cases Crew.step_turn hcontexts
        simp
      obtain ⟨c', hc'⟩ := hrunning
      refine ⟨by simp, by simp [hc'], by simp [hdone], ?_, by simp⟩
      exact fun _ => ⟨(h.notDone hdone).1, by simp [hc']⟩
  | @contexts e contexts hallows hcontexts =>
      have hturn := Crew.step_turn hcontexts
      have hbefore (hstage : st.stage = .before) : ∃ c, contexts.job i = .fresh c := by
        obtain ⟨c, hc⟩ := h.before hstage
        refine ⟨c, hturn.fresh hc ?_⟩
        rintro k rfl
        simp [State.allows] at hallows
      have hstarted (hstage : st.stage ≠ .before) := hturn.not_fresh (h.started hstage)
      rcases Bool.eq_false_or_eq_true st.done with hdone | hdone
      · obtain ⟨k, c, hjob, hvalues⟩ := h.done hdone
        have hne : e ≠ .step i := by
          rintro rfl
          cases hturn with
          | step hrunning _ => cases hjob.symm.trans hrunning
        rw [receive_of_ne hne]
        refine ⟨hbefore, hstarted, fun _ => ⟨k, c, hturn.done hjob, hvalues⟩, ?_, h.returned⟩
        exact fun hfalse => absurd (hdone.symm.trans hfalse) (by decide)
      · obtain ⟨hnone, hnot⟩ := h.notDone hdone
        have hwaiting (vs : Option (List V)) : st.stage ≠ .returned vs := fun hvs =>
          absurd (hdone.symm.trans (h.returned vs hvs).1) (by decide)
        by_cases hcompleted : ∃ k c, contexts.job i = .done k c
        · obtain ⟨k, c, hjob⟩ := hcompleted
          obtain rfl : e = .step i := by
            by_contra hne
            exact hturn.not_done hnot hne k c hjob
          rw [receive_of_done hjob]
          refine ⟨hbefore, hstarted, fun _ => ⟨k, c, hjob, ?_⟩, ?_, ?_⟩
          · cases c <;> simp [State.complete, emplaced, hnone]
          · exact fun hfalse => by cases hfalse
          · exact fun vs hvs => absurd hvs (hwaiting vs)
        · simp only [not_exists] at hcompleted
          rw [receive_of_not_done hcompleted]
          refine ⟨hbefore, hstarted, ?_, fun _ => ⟨hnone, hcompleted⟩, ?_⟩
          · exact fun htrue => absurd (hdone.symm.trans htrue) (by decide)
          · exact fun vs hvs => absurd hvs (hwaiting vs)
  | «return» hreturn =>
      simp only [mayReturn, Bool.and_eq_true] at hreturn
      refine ⟨by simp, fun _ => h.started ?_, h.done, h.notDone, ?_⟩
      · intro hbefore
        simp [State.isWaiting, hbefore] at hreturn
      · rintro vs hvs
        cases hvs
        exact ⟨hreturn.1.1.2, rfl⟩

theorem coherent_of_run {s : ι → Sender ℓ (Context ι ℓ) V W} {w : W} {tr : List (Event ι ℓ)}
    (h : Run (SyncWait.step fl i) (.init s w) tr st) : Coherent i st := by
  refine Run.induction (P := fun _ st => Coherent i st) ?_ (fun _ _ _ _ _ ih hs => ih.step hs) h
  constructor <;> simp [State.init, System.init, Crew.State.init]

end Coherent

/-! ### The call returns -/

section Returns

variable {fl : Flavor ι ℓ} {i : ι} {s : ι → Sender ℓ (Context ι ℓ) V W} {w : W}
  {tr : List (Event ι ℓ)} {st : State ι ℓ V W}

theorem stage_of_call (h : Run (step fl i) (.init s w) tr st) (hcall : .call ∈ tr) :
    st.stage ≠ .before := by
  refine Run.induction (P := fun tr st => .call ∈ tr → st.stage ≠ .before) (by simp) ?_ h hcall
  intro tr st e st' _ ih hs hmem
  cases step_move hs with
  | call => simp
  | contexts => simpa using ih (by simpa using hmem)
  | «return» => simp

def Stage.rank : Stage V → ℕ
  | .before => 2
  | .waiting => 1
  | .returned _ => 0

/-- Nothing goes on for ever. -/
theorem acc_init [Fintype ι] (fl : Flavor ι ℓ) (i : ι) (s : ι → Sender ℓ (Context ι ℓ) V W)
    (w : W) : Acc (fun st' st => ∃ e, step fl i st e = some st') (.init s w) := by
  have hcontexts : Acc (fun st' st => ∃ e, System.step st e = some st') (System.init s w) := by
    refine Crew.acc_init (fun j => ?_) w
    obtain ⟨n, hmeans⟩ := Scheduled.means_init (s j)
    exact Crew.acc_next_of_simulates Scheduled.simulates_means (Crew.acc_next_resumption _) hmeans
  have hless : Subrelation (fun st' st => ∃ e, step fl i st e = some st')
      (InvImage (Prod.Lex (fun st' st => ∃ e, System.step st e = some st') (· < ·))
        fun st : State ι ℓ V W => (st.contexts, st.stage.rank)) := by
    rintro st' st ⟨e, he⟩
    cases step_move he with
    | call _ hcontexts => exact .left _ _ ⟨_, hcontexts⟩
    | @contexts e' contexts' _ hcontexts =>
        exact .left _ _ ⟨e', by rw [contexts_receive]; exact hcontexts⟩
    | «return» hreturn =>
        refine .right _ ?_
        simp only [mayReturn, Bool.and_eq_true] at hreturn
        cases hstage : st.stage with
        | waiting => exact Nat.one_pos
        | before | returned => simp [State.isWaiting, hstage] at hreturn
  exact hless.accessible (InvImage.accessible _ (Prod.lexAccessible hcontexts
    (fun n => Nat.lt_wfRel.wf.apply n) _))

/-- Who waits gets what the expression completes with, unless that waits for who calls. -/
theorem returns_of_idle [Fintype ι] (fl : Flavor ι ℓ) (i : ι)
    (s : ι → Sender ℓ (Context ι ℓ) V W) (w : W)
    (hwaits : (s i).WaitsFor fun e => e.context i ≠ fl.caller) :
    (¬ ∃ f : ℕ → State ι ℓ V W, f 0 = .init s w ∧ ∀ n, ∃ e, step fl i (f n) e = some (f (n + 1))) ∧
      ∀ tr st, Run (step fl i) (.init s w) tr st → (∀ e, e.works = true → step fl i st e = none) →
        .call ∈ tr → ∃ k c, st.contexts.job i = .done k c ∧ st.stage = .returned (emplaced c) := by
  refine ⟨?_, fun tr st h hidle hcall => ?_⟩
  · rintro ⟨f, hinit, hstep⟩
    exact (acc_iff_isEmpty_descending_chain.mp (acc_init fl i s w)).false ⟨f, hinit, hstep⟩
  · have hcoherent := coherent_of_run h
    have hcontexts := contexts_of_run h
    have hstarted := stage_of_call h hcall
    cases hstage : st.stage with
    | before => exact absurd hstage hstarted
    | returned vs =>
        obtain ⟨hdone, rfl⟩ := hcoherent.returned vs hstage
        obtain ⟨k, c, hjob, hvalues⟩ := hcoherent.done hdone
        exact ⟨k, c, hjob, by rw [hvalues]⟩
    | waiting =>
        exfalso
        have hwaiting : st.isWaiting = true := by simp [State.isWaiting, hstage]
        have hnone {e : Crew.Event ι (Context ι ℓ)} (he : e.works = true)
            (hallows : st.allows fl i e = true) : st.contexts.step e = none := by
          have hstep := hidle (.contexts e) he
          simpa only [step, if_pos hallows, Option.map_eq_none_iff] using hstep
        have hact (j : ι) (k : Context ι ℓ) (c : Config ℓ (Context ι ℓ) V W)
            (hj : st.contexts.job j = .running k c) (b : Bool) (w' : W) : c.step k b w' ≠ none :=
          Scheduled.exists_step_of_running hcontexts hj b w'
        have hplaced := Crew.placed_of_run hcontexts
        have hfree := hplaced.current_eq_none hact fun j => hnone rfl rfl
        -- `start` has returned, so the loop is run
        obtain ⟨hempty, hjobs⟩ := hplaced.ended_or_blocked hact
          (fun k => k = fl.caller ∧ fl.loop ≠ some k) (fun j => hnone rfl rfl) fun k hk => by
            refine hnone rfl ?_
            simp only [State.allows, hwaiting, hfree]
            grind
        have hdone : st.done = true := by
          by_contra hnot
          obtain ⟨-, hnotDone⟩ := hcoherent.notDone (by simpa using hnot)
          rcases hjobs i with ⟨c, hc⟩ | ⟨k, c, hc⟩ | ⟨k, c, hc, hk⟩
          · exact hcoherent.started hstarted c hc
          · exact hnotDone k c hc
          · obtain ⟨e, he, heq⟩ := Scheduled.exists_context_of_queued hcontexts hwaits hc
            exact he (heq.trans hk.1)
        have hreturn : mayReturn fl st = true := by
          cases hloop : fl.loop with
          | none => simp [mayReturn, hwaiting, hdone, hfree, hloop]
          | some k =>
              have hqueue := hempty k fun hk => hk.2 hloop
              simp [mayReturn, hwaiting, hdone, hfree, hloop, hqueue]
        have hstep := hidle .return rfl
        simp [step, hreturn] at hstep

/-- `start_on` of a scheduler of priority 1. -/
def onPriority : Sender Unit (Context Unit Unit) ℕ Unit :=
  .startOn (.executor (.priority 1)) (.just_ [42])

/-- The caller services priority 0. -/
theorem returns_of_idle_onPriority :
    (∀ tr st, Run (step (.dynamic () (.priority 0)) ()) (.init (fun _ => onPriority) ()) tr st →
      (∀ e, e.works = true → step (.dynamic () (.priority 0)) () st e = none) → .call ∈ tr →
        ∃ k c, st.contexts.job () = .done k c ∧ st.stage = .returned (emplaced c)) ∧
    ∃ tr st, Run (step (.dynamic () (.priority 0)) ()) (.init (fun _ => onPriority) ()) tr st ∧
      st.stage = .returned (some [42]) := by
  have hwaits : onPriority.WaitsFor fun e => e.context () ≠ .priority 0 := by
    refine ⟨?_, fun _ _ => trivial⟩
    intro heq
    cases heq
  have hexec : (exec (step (.dynamic () (.priority 0)) ()) (.init (fun _ : Unit => onPriority) ())
      ([.call] ++ List.replicate 3 (.contexts (.step ())) ++ [.contexts (.take (.priority 1))] ++
        List.replicate 4 (.contexts (.step ())) ++ [.return])).map (fun st => st.stage) =
          some (.returned (some [42])) := rfl
  obtain ⟨st, hrun, hstage⟩ := Option.map_eq_some_iff.mp hexec
  exact ⟨(returns_of_idle _ () _ () hwaits).2, _, st, hrun, hstage⟩

/-- The caller services priority 1, and does not: the task it waits for stays in the queue. -/
example (fl : Flavor Unit Unit) (hcaller : fl.caller = .priority 1) :
    (exec (step fl ()) (.init (fun _ : Unit => onPriority) ())
      ([.call] ++ List.replicate 3 (.contexts (.step ())))).map (fun st => (st.contexts.queue
        (.priority 1), (step fl () st (.contexts (.take (.priority 1)))).isSome,
          (step fl () st .return).isSome)) = some ([()], false, false) := by
  cases fl with
  | dynamic rl caller | static caller =>
      obtain rfl : caller = .priority 1 := hcaller
      rfl

/-- What is returned is what the operation has completed with, and what the expression means
completes with that in a run that looks the same. When the call has returned nothing is left of
the expression in any context. Nor is there anything in the loop that is destroyed then, if the
other expressions do not use it. -/
theorem returned_meaning {vs : Option (List V)} (h : Run (step fl i) (.init s w) tr st)
    (hreturned : st.stage = .returned vs) :
    (∃ k c, st.contexts.job i = .done k c ∧ vs = emplaced c ∧
      ∃ tr' t, Run MeaningSystem.step (.init s w) tr' t ∧
        Crew.Abridges tr' (tr.filterMap (Event.seen fl i)) ∧
        Scheduled.LooksLike t st.contexts ∧ t.job i = .done k c) ∧
    (∀ k, st.contexts.current k ≠ some i ∧ i ∉ st.contexts.queue k) ∧
    ∀ rl caller, fl = .dynamic rl caller → (∀ j, j ≠ i → (s j).WaitsFor (· ≠ .runLoop rl)) →
      st.contexts.queue (.runLoop rl) = [] := by
  obtain ⟨hdone, rfl⟩ := (coherent_of_run h).returned vs hreturned
  obtain ⟨k, c, hjob, hvalues⟩ := (coherent_of_run h).done hdone
  have hcontexts := contexts_of_run h
  have hplaced := Crew.placed_of_run hcontexts
  refine ⟨?_, fun k' => ⟨?_, ?_⟩, ?_⟩
  · obtain ⟨tr', t, hrun, hsim, habridges⟩ := Scheduled.exists_simulated_of_run hcontexts
    have hdone' : t.job i = .done k c := by
      have hrel := hsim.job i
      rw [hjob] at hrel
      generalize t.job i = j at hrel
      cases hrel
      rfl
    exact ⟨k, c, hjob, hvalues, tr', t, hrun, habridges, Scheduled.looksLike_of_simulated hsim,
      hdone'⟩
  · intro hcurrent
    have hplace := (hplaced.current k' i).mp hcurrent
    simp [hjob] at hplace
  · intro hmem
    have hqueue := (hplaced.queue k' i).mp hmem
    simp [hjob] at hqueue
  · rintro rl - - hothers
    refine List.eq_nil_iff_forall_not_mem.mpr fun j hmem => ?_
    have hqueue := (hplaced.queue (.runLoop rl) j).mp hmem
    cases hj : st.contexts.job j with
    | fresh | running | done => simp [hj] at hqueue
    | queued k' c' =>
        obtain rfl : k' = .runLoop rl := by simpa [hj] using hqueue
        have hne : j ≠ i := by
          rintro rfl
          cases hjob.symm.trans hj
        obtain ⟨e, he, heq⟩ := Scheduled.exists_context_of_queued hcontexts (hothers j hne) hj
        cases e with
        | thread | priority => cases heq
        | runLoop l => exact he (by cases heq; rfl)

end Returns

/-- A task of priority 1, and then the loop of the call. -/
def backToLoop : Sender Unit (Context Unit Unit) ℕ Unit :=
  .continueOn onPriority (.executor (.runLoop ()))

/-- The caller services priority 0. -/
theorem returned_meaning_backToLoop : ∃ tr st,
    Run (step (.dynamic () (.priority 0)) ()) (.init (fun _ : Unit => backToLoop) ()) tr st ∧
    st.stage = .returned (some [42]) ∧
    (∃ k c, st.contexts.job () = .done k c ∧ some [42] = emplaced c ∧
      ∃ tr' t, Run MeaningSystem.step (.init (fun _ => backToLoop) ()) tr' t ∧
        Crew.Abridges tr' (tr.filterMap (Event.seen (.dynamic () (.priority 0)) ())) ∧
        Scheduled.LooksLike t st.contexts ∧ t.job () = .done k c) ∧
    (∀ k, () ∉ st.contexts.queue k) ∧ st.contexts.queue (.runLoop ()) = [] := by
  have hexec : (exec (step (.dynamic () (.priority 0)) ()) (.init (fun _ : Unit => backToLoop) ())
      ([.call] ++ List.replicate 4 (.contexts (.step ())) ++ [.contexts (.take (.priority 1))] ++
        List.replicate 6 (.contexts (.step ())) ++ [.contexts (.take (.runLoop ()))] ++
          List.replicate 4 (.contexts (.step ())) ++ [.return])).map (fun st => st.stage) =
            some (.returned (some [42])) := rfl
  obtain ⟨st, hrun, hstage⟩ := Option.map_eq_some_iff.mp hexec
  obtain ⟨hcompleted, hnowhere, hloop⟩ := returned_meaning hrun hstage
  exact ⟨_, st, hrun, hstage, hcompleted, fun k => (hnowhere k).2,
    hloop () _ rfl fun j hj => absurd rfl hj⟩

end BaremetalSenders.SyncWait
