import BaremetalSenders.Adaptors.WhenAllOptimised

/-!
Whether `when_all` asks its other children to stop when one of them fails.

`select_op_state` looks at what the children advertise in the receiver's
environment. The environment they are given has a token in it that depends on
what was selected: that of the stop source for the general operation state, and
a `never_stop_token` for the other two. A child that would respond to a stop
request can be quiet about it in the receiver's environment, where there may be
no token to respond to.

That a child is synchronous matters here, since it cannot be overtaken: it has
completed when `start` goes on to the next one. This is a side condition of the
runs.
-/

namespace BaremetalSenders.WhenAll

open Join

variable {n : ℕ} {V E Env : Type*}

/-- A child by the types of environments: what it advertises, whether it completes
synchronously, and whether it responds to a stop request when it is given a
token. -/
structure Sender (Env : Type*) where
  sendsValue : Env → Bool
  sendsError : Env → Bool
  sendsStopped : Env → Bool
  synchronous : Bool
  responds : Bool

namespace Sender

def child (S : Sender Env) (env : Env) : Child :=
  ⟨S.sendsValue env, S.sendsError env, S.sendsStopped env, S.synchronous⟩

/-- The child can complete otherwise than with values. -/
def fails (S : Sender Env) (env : Env) : Bool := S.sendsError env || S.sendsStopped env

def completes (S : Sender Env) (env : Env) : Bool := S.sendsValue env || S.fails env

end Sender

/-- The part of `sync_op_state` that the children call: nothing is counted. Its
`complete` is called by `start`, when all children have completed. -/
def syncOpState (children : Fin n → Child) : Ops n (List V) E (Data n V E) :=
  { nostopOpState children with arrives := fun _ => false }

def optimisedOpState (kind : Kind) (children : Fin n → Child) : Ops n (List V) E (Data n V E) :=
  match kind with
  | .sync => syncOpState children
  | .nostop | .general => nostopOpState children

section Select

variable (withStop withoutStop : Env → Env) (S : Fin n → Sender Env) (env : Env)

/-- `select_op_state`, for a receiver with environment `env`. -/
def select : Kind := selectOpState fun i => (S i).child env

/-- What the children call. They are given an environment with the token of the stop
source or with a `never_stop_token`. -/
def selectedOps : Ops n (List V) E (Data n V E) :=
  match select S env with
  | .general => opState fun i => (S i).child (withStop env)
  | kind => optimisedOpState kind fun i => (S i).child (withoutStop env)

/-- A synchronous child has completed when `start` goes on. -/
def InStart (s : State n (List V) E (Data n V E)) : Label n (List V) E → Prop
  | .startChild i => ∀ k < i, (S k).synchronous = true → (s.phase k).returned = true
  | _ => True

/-- The children have a token, and stop has been requested of it. -/
def Asked (ops : Ops n (List V) E (Data n V E)) (s : State n (List V) E (Data n V E)) : Prop :=
  ops.hasStopSource = true ∧ s.requested = true

/-- When the call of a child that has failed has returned, the others that are running
and would respond have been asked to stop. -/
def CancelsRest (V E : Type*) : Prop :=
  ∀ (tr : List (Label n (List V) E)) s,
    Run (step (selectedOps withStop withoutStop S env))
      (selectedOps withStop withoutStop S env).initial tr s →
    EachStep (step (selectedOps withStop withoutStop S env)) (InStart S)
      (selectedOps withStop withoutStop S env).initial tr →
    ∀ i j c, i ≠ j → (i, c) ∈ completions tr → c.isValue = false →
      (s.phase i).returned = true → s.phase j = .running → (S j).responds = true →
      Asked (selectedOps withStop withoutStop S env) s

/-- Without a stop source, child `i` can fail while child `j`, which would respond, has not
completed: the one that is synchronous does not come first, and no other synchronous child
keeps `start` from getting to both. -/
def Waits : Prop :=
  select S env ≠ .general ∧ ∃ i j, i ≠ j ∧ (S i).fails (withoutStop env) = true ∧
    (S j).responds = true ∧ ((S j).synchronous = true → i < j) ∧
    ∀ k, k < max i j → k ≠ i → (S k).synchronous = true → (S k).completes (withoutStop env) = true

end Select

/-! ### Children that are running and children that have returned -/

section Order

variable {ops : Ops n (List V) E (Data n V E)} {s s' : State n (List V) E (Data n V E)}
  {tr : List (Label n (List V) E)} {l : Label n (List V) E} {S : Fin n → Sender Env}

theorem returned_step (hcounted : Counted s) (hs : step ops s l = some s') {k : Fin n}
    (h : (s.phase k).returned = true) : (s'.phase k).returned = true := by
  have hupdate {i : Fin n} {p : Phase (List V) E (Data n V E)}
      (hi : (s.phase i).returned = false) :
      (Function.update s.phase i p k).returned = true := by
    have hne : k ≠ i := fun e => by simp [← e, h] at hi
    rwa [Function.update_of_ne hne]
  cases step_move hs with
  | rcvrRequestStop | popStopCb | runStopCb | emplaceStopCb | startStopped | startChildren =>
      exact h
  | startChild hpc => exact hupdate (by rw [hcounted.idle_of_next hpc]; rfl)
  | @act i c a as hphase => cases a <;> exact hupdate (by rw [hphase]; rfl)
  | complete hphase | arrive hphase | arriveLast hphase | ignore hphase | resetStopCb hphase
  | finish hphase => exact hupdate (by rw [hphase]; rfl)

/-- The synchronous children in front of one that has been started are through. -/
def Overtakes (S : Fin n → Sender Env) (s : State n (List V) E (Data n V E)) : Prop :=
  ∀ k l, k < l → (S k).synchronous = true → (s.phase l).isIdle = false →
    (s.phase k).returned = true

theorem overtakes_of_run (hn : 0 < n) (h : Run (step ops) ops.initial tr s)
    (hC : EachStep (step ops) (InStart S) ops.initial tr) : Overtakes S s := by
  refine h.induction_of_eachStep (P := fun _ s => Overtakes S s) ?_ ?_ hC
  · intro k l _ _ hidle
    simp [Ops.initial, Phase.isIdle] at hidle
  · intro tr s e s' hr ih hc hs k l hkl hsync hidle
    have hcounted := (reached_of_run hn hr).counted
    obtain hsame | ⟨rfl, -⟩ := isIdle_step hs l
    · exact returned_step hcounted hs (ih k l hkl hsync (hsame ▸ hidle))
    · exact returned_step hcounted hs (hc k hkl hsync)

/-- A call that has returned has asked the stop source, if there is one. -/
theorem requested_of_returned {children : Fin n → Child} {i : Fin n} {c : Completion (List V) E}
    (hn : 0 < n) (h : Run (step (opState children)) (opState children).initial tr s)
    (hmem : (i, c) ∈ completions tr) (hc : c.isValue = false)
    (hreturned : (s.phase i).returned = true) : s.requested = true := by
  have hrest (d : Data n V E) : .requestStop ∈ (opState children).rest i c d := by
    cases c with
    | value => cases hc
    | error | stopped => simp [opState, operation]
  have htodo : (s.phase i).todo = [] := by
    cases hphase : s.phase i <;> simp_all [Phase.returned, Phase.todo]
  refine ((reached_of_run hn h).stopOk.pending i c hmem hrest).resolve_left ?_
  simp [htodo]

end Order

/-! ### Runs of the states without a stop source -/

section Runs

variable {ops : Ops n (List V) E (Data n V E)} {s : State n (List V) E (Data n V E)} {i : Fin n}
  {c : Completion (List V) E}

/-- A run that leaves everything but the phase of child `i` to `start` and the others. -/
structure Moves (ops : Ops n (List V) E (Data n V E)) (i : Fin n)
    (s : State n (List V) E (Data n V E)) (tr : List (Label n (List V) E))
    (s' : State n (List V) E (Data n V E)) : Prop where
  run : Run (step ops) s tr s'
  starts : ∀ l ∈ tr, ∀ k, l ≠ .startChild k
  pc : s'.pc = s.pc
  others : ∀ k, k ≠ i → s'.phase k = s.phase k

theorem Moves.append {s' s'' : State n (List V) E (Data n V E)}
    {tr tr' : List (Label n (List V) E)} (h : Moves ops i s tr s') (h' : Moves ops i s' tr' s'') :
    Moves ops i s (tr ++ tr') s'' where
  run := run_append.mpr ⟨s', h.run, h'.run⟩
  starts := fun l hl k => (List.mem_append.mp hl).elim (h.starts l · k) (h'.starts l · k)
  pc := h'.pc.trans h.pc
  others := fun k hk => (h'.others k hk).trans (h.others k hk)

theorem moves_acts (as : List (Action (Data n V E))) (hphase : s.phase i = .completing c as) :
    ∃ tr s', Moves ops i s tr s' ∧ s'.phase i = .completing c [] := by
  induction as generalizing s with
  | nil => exact ⟨[], s, ⟨run_nil.mpr rfl, by simp, rfl, fun _ _ => rfl⟩, hphase⟩
  | cons a as ih =>
      have hstep : step ops s (.act i) = some ((s.apply a).setPhase i (.completing c as)) := by
        simp [step, hphase]
      have hfirst : Moves ops i s [.act i] ((s.apply a).setPhase i (.completing c as)) := by
        refine ⟨run_cons.mpr ⟨_, hstep, run_nil.mpr rfl⟩, by simp, ?_, fun k hk => ?_⟩
        · cases a <;> rfl
        · cases a <;> simp [State.apply, hk]
      obtain ⟨tr, s', hmoves, hs'⟩ := ih (s := (s.apply a).setPhase i (.completing c as)) (by simp)
      exact ⟨_, s', hfirst.append hmoves, hs'⟩

/-- A running child can complete, and its call return, with nothing else going on. -/
theorem moves_complete (hops : ops.hasStopSource = false) (hphase : s.phase i = .running)
    (hc : ops.admits i c = true) :
    ∃ tr s', Moves ops i s tr s' ∧ (s'.phase i).returned = true ∧
      (s'.phase i).completion = some c := by
  have hcomplete : step ops s (.complete i c) =
      some { s.setPhase i (.completing c (ops.rest i c s.data)) with
        data := ops.store i c s.data } := by
    simp [step, hphase, hc]
  have hfirst : Moves ops i s [.complete i c] { s.setPhase i
      (.completing c (ops.rest i c s.data)) with data := ops.store i c s.data } :=
    ⟨run_cons.mpr ⟨_, hcomplete, run_nil.mpr rfl⟩, by simp, rfl, fun k hk => by simp [hk]⟩
  obtain ⟨tr, u, hacts, hu⟩ : ∃ tr u, Moves ops i
      { s.setPhase i (.completing c (ops.rest i c s.data)) with data := ops.store i c s.data }
      tr u ∧ u.phase i = .completing c [] := moves_acts (ops.rest i c s.data) (by simp)
  have hsofar := hfirst.append hacts
  cases harrives : ops.arrives c with
  | false =>
      have hleave : step ops u (.leave i) = some (u.setPhase i (.ignored c)) := by
        simp [step, hu, harrives]
      have hmoves : Moves ops i u [.leave i] (u.setPhase i (.ignored c)) :=
        ⟨run_cons.mpr ⟨_, hleave, run_nil.mpr rfl⟩, by simp, rfl, fun k hk => by simp [hk]⟩
      refine ⟨_, _, hsofar.append hmoves, ?_, ?_⟩
      · simp [Phase.returned]
      · simp [Phase.completion]
  | true =>
      by_cases hcount : u.count - 1 = 0
      · -- The last one goes through `complete`, where there is no callback to reset.
        have hleave : step ops u (.leave i) = some
            { u.setPhase i (.deciding c true) with count := u.count - 1 } := by
          simp [step, hu, harrives, hcount, hops]
        let v : State n (List V) E (Data n V E) :=
          { u.setPhase i (.deciding c true) with count := u.count - 1 }
        have hfinish : step ops v (.finish i) = some
            { v.setPhase i (.finished c) with
              received := v.received ++
                (ops.outcome v.rcvrRequested v.requested v.data).toList } := by
          simp [step, v]
        have hmoves : Moves ops i u [.leave i, .finish i]
            { v.setPhase i (.finished c) with
              received := v.received ++
                (ops.outcome v.rcvrRequested v.requested v.data).toList } :=
          ⟨run_cons.mpr ⟨v, hleave, run_cons.mpr ⟨_, hfinish, run_nil.mpr rfl⟩⟩, by simp, rfl,
            fun k hk => by simp [v, hk]⟩
        refine ⟨_, _, hsofar.append hmoves, ?_, ?_⟩
        · simp [Phase.returned]
        · simp [Phase.completion]
      · have hleave : step ops u (.leave i) = some
            { u.setPhase i (.done c) with count := u.count - 1 } := by
          simp [step, hu, harrives, hcount]
        have hmoves : Moves ops i u [.leave i]
            { u.setPhase i (.done c) with count := u.count - 1 } :=
          ⟨run_cons.mpr ⟨_, hleave, run_nil.mpr rfl⟩, by simp, rfl, fun k hk => by simp [hk]⟩
        refine ⟨_, _, hsofar.append hmoves, ?_, ?_⟩
        · simp [Phase.returned]
        · simp [Phase.completion]

/-- How far `start` gets when the synchronous children complete as `c` says and the
others do not complete. -/
structure Prefix (S : Fin n → Sender Env) (c : Fin n → Completion (List V) E) (m : ℕ)
    (s : State n (List V) E (Data n V E)) : Prop where
  pc : s.pc = .starting m
  sync : ∀ k : Fin n, k < m → (S k).synchronous = true →
    (s.phase k).returned = true ∧ (s.phase k).completion = some (c k)
  async : ∀ k : Fin n, k < m → (S k).synchronous = false → s.phase k = .running

theorem exists_prefix (hops : ops.hasStopSource = false) {S : Fin n → Sender Env}
    {c : Fin n → Completion (List V) E} {m : ℕ} (hm : m ≤ n)
    (hc : ∀ k : Fin n, k < m → (S k).synchronous = true → ops.admits k (c k) = true) :
    ∃ tr s, Run (step ops) ops.initial tr s ∧ EachStep (step ops) (InStart S) ops.initial tr ∧
      Prefix S c m s := by
  induction m with
  | zero =>
      have hstart : step ops ops.initial .startChildren =
          some { ops.initial with pc := .starting 0, count := n } := by
        simp [step, Ops.mayStart, Ops.initial, hops]
      exact ⟨[.startChildren], _, run_cons.mpr ⟨_, hstart, run_nil.mpr rfl⟩,
        ⟨True.intro, fun _ _ => True.intro⟩, rfl, by simp, by simp⟩
  | succ m ih =>
      obtain ⟨tr, s, hr, hC, hs⟩ := ih (by omega) fun k hk => hc k (by omega)
      let k : Fin n := ⟨m, hm⟩
      have hbefore {j : Fin n} (hj : j < m + 1) (hne : j ≠ k) : j < m := by
        have hval : (j : ℕ) ≠ m := fun e => hne (Fin.ext e)
        omega
      have hstart : step ops s (.startChild k) =
          some { s.setPhase k .running with pc := .starting (m + 1) } := by
        simp [step, hs.pc, k]
      have hin : InStart S s (.startChild k) := fun j hj hsync => (hs.sync j hj hsync).1
      let u : State n (List V) E (Data n V E) :=
        { s.setPhase k .running with pc := .starting (m + 1) }
      have hu : Run (step ops) ops.initial (tr ++ [.startChild k]) u := hr.concat hstart
      have huC := hC.concat hr hin
      have huk : u.phase k = .running := by simp [u]
      have hother {j : Fin n} (hne : j ≠ k) : u.phase j = s.phase j := by simp [u, hne]
      cases hsync : (S k).synchronous with
      | false =>
          refine ⟨_, u, hu, huC, rfl, fun j hj hj' => ?_, fun j hj hj' => ?_⟩
          · have hne : j ≠ k := fun e => by simp [e, hsync] at hj'
            rw [hother hne]
            exact hs.sync j (hbefore hj hne) hj'
          · rcases eq_or_ne j k with rfl | hne
            · exact huk
            · rw [hother hne]
              exact hs.async j (hbefore hj hne) hj'
      | true =>
          obtain ⟨tr', v, hmoves, hreturned, hcompletion⟩ :=
            moves_complete hops huk (hc k (Nat.lt_succ_self m) hsync)
          have hvC : EachStep (step ops) (InStart S) u tr' := EachStep.of_forall_mem
            fun l hl s => by
              cases l with
              | startChild j => exact absurd rfl (hmoves.starts _ hl j)
              | _ => exact True.intro
          refine ⟨_, v, run_append.mpr ⟨u, hu, hmoves.run⟩, huC.append hu hvC, hmoves.pc,
            fun j hj hj' => ?_, fun j hj hj' => ?_⟩
          · rcases eq_or_ne j k with rfl | hne
            · exact ⟨hreturned, hcompletion⟩
            · rw [hmoves.others j hne, hother hne]
              exact hs.sync j (hbefore hj hne) hj'
          · have hne : j ≠ k := fun e => by simp [e, hsync] at hj'
            rw [hmoves.others j hne, hother hne]
            exact hs.async j (hbefore hj hne) hj'

/-- A run in which child `i` has failed and child `j` is running. -/
theorem exists_waiting (hops : ops.hasStopSource = false) {S : Fin n → Sender Env}
    {c : Fin n → Completion (List V) E} {i j : Fin n} (hne : i ≠ j)
    (horder : (S j).synchronous = true → i < j) (hi : ops.admits i (c i) = true)
    (hc : ∀ k, k < max i j → (S k).synchronous = true → ops.admits k (c k) = true) :
    ∃ tr s, Run (step ops) ops.initial tr s ∧ EachStep (step ops) (InStart S) ops.initial tr ∧
      (s.phase i).returned = true ∧ (s.phase i).completion = some (c i) ∧
      s.phase j = .running := by
  obtain ⟨tr, s, hr, hC, hs⟩ := exists_prefix hops (S := S) (c := c) (max i j).isLt.le hc
  let u : State n (List V) E (Data n V E) :=
    { s.setPhase (max i j) .running with pc := .starting (max i j + 1) }
  have hstart : step ops s (.startChild (max i j)) = some u := by
    simp [step, hs.pc, u]
  have hin : InStart S s (.startChild (max i j)) := fun k hk hsync => (hs.sync k hk hsync).1
  have hu := hr.concat hstart
  have huC := hC.concat hr hin
  have hlast : u.phase (max i j) = .running := by simp [u]
  have hother {k : Fin n} (hk : k ≠ max i j) : u.phase k = s.phase k := by simp [u, hk]
  have hj : u.phase j = .running := by
    rcases lt_or_gt_of_ne hne with hlt | hlt
    · rw [max_eq_right hlt.le] at hlast
      exact hlast
    · have hasync : (S j).synchronous = false := by
        by_contra hsync
        exact absurd (horder (by simpa using hsync)) hlt.not_gt
      rw [hother (by rw [max_eq_left hlt.le]; exact hne.symm)]
      exact hs.async j (by rw [max_eq_left hlt.le]; exact hlt) hasync
  by_cases hdone : (u.phase i).returned = true ∧ (u.phase i).completion = some (c i)
  · exact ⟨_, u, hu, huC, hdone.1, hdone.2, hj⟩
  · -- It has been started, and is not a synchronous one in front of the other.
    have hrunning : u.phase i = .running := by
      rcases lt_or_gt_of_ne hne with hlt | hlt
      · have hbefore : i < max i j := lt_max_of_lt_right hlt
        rw [hother hbefore.ne] at hdone ⊢
        refine hs.async i hbefore ?_
        by_contra hsync
        exact hdone (hs.sync i hbefore (by simpa using hsync))
      · rw [max_eq_left hlt.le] at hlast
        exact hlast
    obtain ⟨tr', v, hmoves, hreturned, hcompletion⟩ := moves_complete hops hrunning hi
    have hvC : EachStep (step ops) (InStart S) u tr' := EachStep.of_forall_mem fun l hl s => by
      cases l with
      | startChild k => exact absurd rfl (hmoves.starts _ hl k)
      | _ => exact True.intro
    exact ⟨_, v, run_append.mpr ⟨u, hu, hmoves.run⟩, huC.append hu hvC, hreturned, hcompletion,
      (hmoves.others j hne.symm).trans hj⟩

end Runs

/-! ### When the rest is cancelled -/

section Cancel

variable {withStop withoutStop : Env → Env} {S : Fin n → Sender Env} {env : Env}

theorem selectedOps_general (h : select S env = .general) :
    selectedOps (V := V) (E := E) withStop withoutStop S env =
      opState fun i => (S i).child (withStop env) := by
  simp [selectedOps, h]

variable (V E withStop withoutStop) in
theorem selectedOps_optimised (h : select S env ≠ .general) :
    (selectedOps (V := V) (E := E) withStop withoutStop S env).hasStopSource = false ∧
      (selectedOps (V := V) (E := E) withStop withoutStop S env).admits =
        fun i c => ((S i).child (withoutStop env)).admits c := by
  cases hkind : select S env with
  | general => exact absurd hkind h
  | nostop | sync =>
      simp [selectedOps, hkind, optimisedOpState, syncOpState, nostopOpState, operation]

/-- A completion of a child that can complete. -/
def Sender.completion [Inhabited E] (S : Sender Env) (env : Env) : Completion (List V) E :=
  if S.sendsValue env then .value [] else if S.sendsError env then .error default else .stopped

/-- A completion of a child that can fail. -/
def Sender.failure [Inhabited E] (S : Sender Env) (env : Env) : Completion (List V) E :=
  if S.sendsError env then .error default else .stopped

theorem admits_completion [Inhabited E] {S : Sender Env} (h : S.completes env = true) :
    (S.child env).admits (S.completion env : Completion (List V) E) = true := by
  simp only [Sender.completes, Sender.fails, Bool.or_eq_true] at h
  unfold Sender.completion
  split
  · assumption
  · split
    · assumption
    · simp_all [Child.admits, Sender.child]

theorem admits_failure [Inhabited E] {S : Sender Env} (h : S.fails env = true) :
    (S.child env).admits (S.failure env : Completion (List V) E) = true ∧
      (S.failure env : Completion (List V) E).isValue = false := by
  simp only [Sender.fails, Bool.or_eq_true] at h
  unfold Sender.failure
  split
  · exact ⟨by assumption, rfl⟩
  · exact ⟨by simp_all [Child.admits, Sender.child], rfl⟩

theorem fails_of_admits {S : Sender Env} {c : Completion (List V) E}
    (h : (S.child env).admits c = true) (hc : c.isValue = false) : S.fails env = true := by
  cases c with
  | value => cases hc
  | error | stopped => simp_all [Sender.fails, Child.admits, Sender.child]

theorem completes_of_admits {S : Sender Env} {c : Completion (List V) E}
    (h : (S.child env).admits c = true) : S.completes env = true := by
  cases c <;> simp_all [Sender.completes, Sender.fails, Child.admits, Sender.child]

theorem cancelsRest_of_not_waits (hn : 0 < n) (h : ¬ Waits withoutStop S env) :
    CancelsRest withStop withoutStop S env V E := by
  intro tr s hr hC i j c hne hmem hc hreturned hrunning hresponds
  by_cases hkind : select S env = .general
  · rw [selectedOps_general hkind] at hr ⊢
    exact ⟨rfl, requested_of_returned hn hr hmem hc hreturned⟩
  · exfalso
    obtain ⟨-, hadmits⟩ := selectedOps_optimised V E withStop withoutStop hkind
    have hreached := reached_of_run hn hr
    have hover := overtakes_of_run hn hr hC
    have hadmitted {k : Fin n} {c : Completion (List V) E} (hk : (k, c) ∈ completions tr) :
        ((S k).child (withoutStop env)).admits c = true := by
      have := hreached.recorded.admitted k c hk
      rwa [hadmits] at this
    have hi : (s.phase i).isIdle = false := by
      cases hp : s.phase i <;> simp_all [Phase.returned, Phase.isIdle]
    have hj : (s.phase j).isIdle = false := by rw [hrunning]; rfl
    refine h ⟨hkind, i, j, hne, fails_of_admits (hadmitted hmem) hc, hresponds, fun hsync => ?_,
      fun k hk hki hsync => ?_⟩
    · -- A synchronous child in front of the other would have completed before.
      by_contra hlt
      have hback := hover j i (lt_of_le_of_ne (not_lt.mp hlt) hne.symm) hsync hi
      simp [hrunning, Phase.returned] at hback
    · -- `start` has gone past it, so it has completed, and can.
      have hback : (s.phase k).returned = true := by
        rcases lt_max_iff.mp hk with hlt | hlt
        · exact hover k i hlt hsync hi
        · exact hover k j hlt hsync hj
      obtain ⟨c', hc'⟩ : ∃ c', (s.phase k).completion = some c' := by
        cases hp : s.phase k <;> simp_all [Phase.returned, Phase.completion]
      exact completes_of_admits (hadmitted ((hreached.recorded.completion k c').mp hc'))

theorem not_waits_of_cancelsRest [Inhabited E] (hn : 0 < n)
    (h : CancelsRest withStop withoutStop S env V E) : ¬ Waits withoutStop S env := by
  rintro ⟨hkind, i, j, hne, hfails, hresponds, horder, hothers⟩
  obtain ⟨hsource, hadmits⟩ := selectedOps_optimised V E withStop withoutStop hkind
  let c (k : Fin n) : Completion (List V) E :=
    if k = i then (S i).failure (withoutStop env) else (S k).completion (withoutStop env)
  have hci : c i = (S i).failure (withoutStop env) := if_pos rfl
  obtain ⟨tr, s, hr, hC, hreturned, hcompletion, hrunning⟩ := exists_waiting hsource (S := S)
    (c := c) hne horder
    (by rw [hadmits, hci]; exact (admits_failure hfails).1)
    (fun k hk hsync => by
      rw [hadmits]
      by_cases hki : k = i
      · rw [hki, hci]
        exact (admits_failure hfails).1
      · simpa [c, hki] using admits_completion (hothers k hk hki hsync))
  have hmem := ((reached_of_run hn hr).recorded.completion i (c i)).mp hcompletion
  have hvalue : (c i).isValue = false := by
    rw [hci]
    exact (admits_failure hfails).2
  have hasked := h tr s hr hC i j (c i) hne hmem hvalue hreturned hrunning hresponds
  exact absurd hasked.1 (by simp [hsource])

end Cancel

/-- `when_all` of two children or more asks the rest to stop, exactly if no optimised operation
state is selected in which one child can fail while another one waits. -/
theorem cancelsRest_iff_not_waits [Inhabited E] (withStop withoutStop : Env → Env)
    (S : Fin (n + 2) → Sender Env) (env : Env) :
    CancelsRest withStop withoutStop S env V E ↔ ¬ Waits withoutStop S env :=
  ⟨not_waits_of_cancelsRest (Nat.succ_pos _), cancelsRest_of_not_waits (Nat.succ_pos _)⟩

/-- A `time_scheduler`, and one with an error behind it, in an environment that is
stoppable or not. -/
def timers : Fin 2 → Sender Bool :=
  ![⟨fun _ => false, fun _ => true, id, false, true⟩,
    ⟨fun _ => true, fun _ => false, id, false, true⟩]

/-- The first completes with its error while the second is waiting. -/
def errorWhileWaiting : List (Label 2 (List ℕ) ℕ) :=
  [.startChildren, .startChild 0, .startChild 1, .complete 0 (.error 7), .act 0, .leave 0]

theorem not_cancelsRest_timers :
    ¬ ∀ env, CancelsRest (fun _ => true) (fun _ => false) timers env ℕ ℕ := by
  intro hall
  have hC : EachStep (step (selectedOps (fun _ => true) (fun _ => false) timers false))
      (InStart timers)
      (selectedOps (V := ℕ) (E := ℕ) (fun _ => true) (fun _ => false) timers false).initial
      errorWhileWaiting := by
    refine ⟨True.intro, fun _ _ => ⟨by simp [InStart], fun _ _ => ⟨fun k _ hsync => ?_, fun _ _ =>
      ⟨True.intro, fun _ _ => ⟨True.intro, fun _ _ => ⟨True.intro, fun _ _ => True.intro⟩⟩⟩⟩⟩⟩
    have hasync : ∀ k, (timers k).synchronous = false := by decide
    simp [hasync k] at hsync
  have hasked := hall false errorWhileWaiting _ rfl hC 0 1 (.error 7) (by decide)
    (by simp [errorWhileWaiting, completions, Label.completion]) rfl rfl rfl rfl
  exact absurd hasked.2 (by decide)

end BaremetalSenders.WhenAll
