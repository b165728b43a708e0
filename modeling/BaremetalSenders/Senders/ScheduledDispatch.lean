import BaremetalSenders.Senders.Executors
import BaremetalSenders.Senders.SyncWait

/-!
Expressions with the threads, the task manager and the loops that execute them.

Here nothing is abstract but the functions that are passed to adaptors: an operation that hops
makes the step of the manager or of the loop that puts it into a list, and what is popped there is
what `run` or `execute` is called of. Each such run is one of what the expressions mean, with
the lists for queues. When nothing comes from outside any more the whole comes to rest, and what is
not completed then is in a list that nobody looks at.
-/

namespace BaremetalSenders.Scheduled

open BaremetalSenders.Sequential (Completion)
open Crew (Driven Abridges Simulated)

variable {n : ℕ} {ι ℓ V W : Type*} [DecidableEq ι] [DecidableEq ℓ]

/-- The operation states of expressions, the contexts, and what serves them. -/
abbrev Dispatched (n : ℕ) (ι ℓ V W : Type*) :=
  Driven ι (Context ι ℓ) W (Config ℓ (Context ι ℓ) V W) (Completion V) (Executors n ι ℓ)

namespace Dispatched

abbrev Event (n : ℕ) (ι ℓ : Type*) := Driven.Event ι (Context ι ℓ) (Executors.Event n ι ℓ)

def init (n : ℕ) (s : ι → Sender ℓ (Context ι ℓ) V W) (w : W) : Dispatched n ι ℓ V W :=
  (executors n ι ℓ).start (fun i => Config.init (s i)) w

def step (st : Dispatched n ι ℓ V W) (e : Event n ι ℓ) : Option (Dispatched n ι ℓ V W) :=
  Driven.step (executors n ι ℓ) Config.step (fun i x => x.context i) st e

/-- Calls of `service_tasks` for one priority do not overlap. -/
def Apart (st : Dispatched n ι ℓ V W) (e : Event n ι ℓ) : Prop :=
  Driven.Meets Executors.Apart st e

instance Apart.decidable (st : Dispatched n ι ℓ V W) :
    (e : Event n ι ℓ) → Decidable (Apart st e)
  | .dispatch e => inferInstanceAs (Decidable (Executors.Apart st.queues e))
  | .start _ _ | .step _ => inferInstanceAs (Decidable True)

/-- This is not asked for from outside. -/
def isWork (e : Event n ι ℓ) : Bool := (executors n ι ℓ).isWork e

end Dispatched

section Runs

variable {s : ι → Sender ℓ (Context ι ℓ) V W} {w : W} {tr : List (Dispatched.Event n ι ℓ)}
  {st : Dispatched n ι ℓ V W}

/-! ### They do what the expressions mean -/

/-- The expressions are as far as their operation states, and wait in the lists. -/
structure Stands (t : MeaningSystem ι ℓ V W) (st : Dispatched n ι ℓ V W) : Prop where
  world : t.world = st.world
  stop : t.stop = st.stop
  current : t.current = st.current
  phase : ∀ i, phase (t.job i) = phase (st.job i)
  queue : st.queues.Holds t.queue

/-- The operation states with the queues that the lists are. -/
theorem system_of_run (h : Run Dispatched.step (.init n s w) tr st)
    (hP : EachStep Dispatched.step Dispatched.Apart (.init n s w) tr) :
    Run System.step (.init s w) (tr.flatMap (executors n ι ℓ).crewEvents)
      (st.toCrew ((executors n ι ℓ).waiting (tr.filterMap Driven.Event.dispatched))) :=
  (Crew.crew_of_run Executors.fifo h hP).2.2

theorem stopRequested_of_step {q q' : Executors n ι ℓ} {e : Executors.Event n ι ℓ}
    (hs : q.step e = some q') (he : ∀ i, Executors.role e ≠ .requestStop i) (l : ℓ) :
    (q'.loops l).stopRequested = (q.loops l).stopRequested := by
  cases Executors.step_move hs with
  | create | thread | tasks => rfl
  | requestStop i => exact absurd rfl (he i)
  | @loop l' e loop hl hloop =>
      rcases eq_or_ne l l' with rfl | hne
      · cases RunLoop.step_move hloop with
        | requestStop => cases hl
        | pushBack | finish | run | wait | popNone | popSome | execute | executed => simp
      · simp [hne]

/-- The loops look at the tokens of the operations. -/
theorem stopRequested_of_run (h : Run Dispatched.step (.init n s w) tr st) (l : ℓ) :
    (st.queues.loops l).stopRequested = st.stop := by
  refine Run.induction (P := fun _ (st : Dispatched n ι ℓ V W) =>
    (st.queues.loops l).stopRequested = st.stop) rfl ?_ h
  intro tr st e st' _ ih hs
  cases Crew.Driven.step_move hs with
  | start | more | done => exact ih
  | outside hq hrole | own hq hrole | put hq hrole | call hq hrole =>
      rw [stopRequested_of_step hq fun i hi => by cases hrole.symm.trans hi]
      exact ih
  | @requestStop e q i hq hrole hstop =>
      cases Executors.step_move hq with
      | create | thread => cases hrole
      | tasks =>
          simp only [executors, Executors.role, Executors.taskRole] at hrole
          split at hrole <;> cases hrole
      | @loop l' e =>
          cases e <;> cases hrole
      | requestStop j =>
          cases hrole
          funext i'
          rcases eq_or_ne i' i with rfl | hne
          · simp
          · simp [hne, ih]

omit [DecidableEq ι] [DecidableEq ℓ] in
theorem mem_filter_isStep {tr : List (Crew.Event ι (Context ι ℓ))} {i : ι} {k : Context ι ℓ} :
    .start i k ∈ tr.filter (fun e => !e.isStep) ↔ .start i k ∈ tr := by
  simp [Crew.Event.isStep]

theorem start_mem_crewEvents (tr : List (Dispatched.Event n ι ℓ)) (i : ι) (k : Context ι ℓ) :
    .start i k ∈ tr.flatMap (executors n ι ℓ).crewEvents ↔ .start i k ∈ tr := by
  rw [List.mem_flatMap]
  constructor
  · rintro ⟨e, he, hmem⟩
    cases e with
    | start j k' =>
        obtain ⟨rfl, rfl⟩ : i = j ∧ k = k' := by simpa [Crew.Dispatcher.crewEvents] using hmem
        exact he
    | step j => simp [Crew.Dispatcher.crewEvents] at hmem
    | dispatch e =>
        simp only [Crew.Dispatcher.crewEvents] at hmem
        split at hmem <;> simp at hmem
  · exact fun he => ⟨_, he, by simp [Crew.Dispatcher.crewEvents]⟩

/-- What the manager, the loops and the threads make of the operation states is what the
expressions mean: a run of the whole is one of theirs, with the same operations started, and where
the queue of a context is what is in the list and in the hand of who takes from it. A loop
completes an operation by the token of its receiver. -/
theorem stands_of_run (n : ℕ) (s : ι → Sender ℓ (Context ι ℓ) V W) (w : W)
    (tr : List (Dispatched.Event n ι ℓ)) (st : Dispatched n ι ℓ V W)
    (h : Run Dispatched.step (.init n s w) tr st)
    (hP : EachStep Dispatched.step Dispatched.Apart (.init n s w) tr) :
    (∃ tr' t, Run MeaningSystem.step (.init s w) tr' t ∧ Stands t st ∧
      ∀ i k, .start i k ∈ tr' ↔ .start i k ∈ tr) ∧
    ∀ l, (st.queues.loops l).stopRequested = st.stop := by
  have hsystem := system_of_run h hP
  obtain ⟨tr', t, hrun, hsim, -, hfilter⟩ := exists_simulated_of_run hsystem
  have hlike := looksLike_of_simulated hsim
  obtain ⟨hqueues, hPq, -⟩ := Crew.crew_of_run Executors.fifo h hP
  refine ⟨⟨tr', t, hrun, ?_, fun i k => ?_⟩, stopRequested_of_run h⟩
  · refine ⟨hlike.world, hlike.stop, hlike.current, hlike.phase, ?_⟩
    rw [hlike.queue]
    exact Executors.holds_of_run hqueues hPq
  · rw [← start_mem_crewEvents tr, ← mem_filter_isStep, hfilter, mem_filter_isStep]

end Runs

/-- A task of priority 1 and then a loop, which is run while the task is executed. -/
def viaTask : Sender Unit (Context Unit Unit) ℕ (List (Context Unit Unit)) :=
  .then_ (.continueOn (.startOn (.executor (.priority 1)) (.just_ [42])) (.executor (.runLoop ())))
    fun k vs w => (vs, w ++ [k])

def viaTaskTrace : List (Dispatched.Event 2 Unit Unit) :=
  [.start () (.priority 0), .step (), .step (), .step (),
    .dispatch (.tasks (.priority 0) (.enqueue () (.last 1) true)),
    .dispatch (.tasks (.priority 1) (.service 0 (.last 1) .deferred [()])),
    .dispatch (.tasks (.priority 1) (.pop 0 (.last 1) .deferred ())), .dispatch (.loop () .run),
    .dispatch (.tasks (.priority 1) (.run 0 (.last 1) ())), .step (), .step (), .step (), .step (),
    .dispatch (.loop () (.pushBack (.other (.priority 1)) ())), .dispatch (.loop () .wait),
    .dispatch (.tasks (.priority 1) (.finish 0 (.last 1) ())),
    .dispatch (.loop () (.pop (some ()))),
    .dispatch (.loop () (.execute () .value)), .step (), .step (), .step (), .step (),
    .dispatch (.loop () (.executed ()))]

theorem stands_of_run_viaTask : ∃ st : Dispatched 2 Unit Unit ℕ (List (Context Unit Unit)),
    Run Dispatched.step (.init 2 (fun _ => viaTask) []) viaTaskTrace st ∧
    st.world = [.runLoop ()] ∧
    ∃ tr' t, Run MeaningSystem.step (.init (fun _ => viaTask) []) tr' t ∧ Stands t st := by
  have hexec : (exec Dispatched.step (.init 2 (fun _ : Unit => viaTask) []) viaTaskTrace).map
      (fun st => st.world) = some [.runLoop ()] := rfl
  obtain ⟨st, hrun, hworld⟩ := Option.map_eq_some_iff.mp hexec
  obtain ⟨⟨tr', t, ht, hstands, -⟩, -⟩ :=
    stands_of_run 2 (fun _ : Unit => viaTask) [] viaTaskTrace st hrun (by decide)
  exact ⟨st, hrun, hworld, tr', t, ht, hstands⟩

/-! ### They come to rest -/

def Config.Queued {K : Type*} (c : Config ℓ K V W) : Prop :=
  ∃ a e r, c.control = .run a ∧ c.heap[a]? = some (.schedule (.executor e) (some r))

section Queued

variable {K : Type*} {c c' : Config ℓ K V W} {k : K} {b : Bool} {w w' : W} {x : Executor ℓ}

omit [DecidableEq ℓ] in
theorem Config.queued_of_hop (h : c.step k b w = some (.hop x c', w')) : c'.Queued := by
  unfold Config.step at h
  split at h
  · next a _ =>
      unfold Config.start at h
      split at h
      all_goals try (split at h)
      all_goals cases h
      next hcell => exact ⟨a, _, _, rfl, hcell⟩
  · next a _ =>
      unfold Config.enqueue at h
      split at h <;> cases h
      next hcell => exact ⟨a, _, _, rfl, hcell⟩
  · unfold Config.run at h
    split at h <;> cases h
  · -- a completion function calls another function, or is the last one
    obtain ⟨vs, -, h⟩ := Option.bind_eq_some_iff.mp h
    unfold Config.complete at h
    split at h
    · cases h
    · split at h <;> cases h
    · split at h
      · unfold Config.completeFirstLet at h
        split at h <;> cases h
      · unfold Config.passthrough at h
        split at h <;> cases h
    · split at h
      · unfold Config.completeFirstSequence at h
        split at h <;> cases h
      · unfold Config.passthrough at h
        split at h <;> cases h

omit [DecidableEq ℓ] in
theorem Config.Queued.exists_step (h : c.Queued) (k : K) (b : Bool) (w : W) :
    ∃ c' w', c.step k b w = some (.more c', w') := by
  obtain ⟨a, e, r, hcontrol, hcell⟩ := h
  simp only [Config.step, hcontrol, Config.run, hcell]
  exact ⟨_, _, rfl⟩

end Queued

section Rest

variable {s : ι → Sender ℓ (Context ι ℓ) V W} {w : W}

theorem queued_of_run {tr : List (Crew.Event ι (Context ι ℓ))} {st : System ι ℓ V W}
    (h : Run System.step (.init s w) tr st) (i : ι) (k : Context ι ℓ)
    (c : Config ℓ (Context ι ℓ) V W) (hi : st.job i = .queued k c) : c.Queued := by
  refine Run.induction (P := fun _ (st : System ι ℓ V W) =>
    ∀ i k c, st.job i = .queued k c → c.Queued) ?_ ?_ h i k c hi
  · intro i k c hi
    cases hi
  · intro tr st e st' _ ih hs i k c hi
    cases Crew.step_turn hs with
    | requestStop => exact ih i k c hi
    | @start j | @take j =>
        rcases eq_or_ne i j with rfl | hne
        · simp at hi
        · exact ih i k c (by simpa [hne] using hi)
    | @step j k' c' o w' hjob hact =>
        rcases eq_or_ne i j with rfl | hne
        · cases o with
          | more | done => simp [Crew.State.perform] at hi
          | hop x c'' =>
              obtain ⟨-, rfl⟩ : x.context i = k ∧ c'' = c := by
                simpa [Crew.State.perform] using hi
              exact Config.queued_of_hop hact
        · rw [Crew.job_perform_of_ne hne] at hi
          exact ih i k c hi

/-- An operation that is executed makes a step, and only hops to what the expression waits for. -/
theorem goes_of_running {tr : List (Crew.Event ι (Context ι ℓ))} {st : System ι ℓ V W}
    (h : Run System.step (.init s w) tr st) {P : Executor ℓ → Prop} (hs : ∀ i, (s i).WaitsFor P)
    {i : ι} {k : Context ι ℓ} {c : Config ℓ (Context ι ℓ) V W} (hi : st.job i = .running k c)
    (b : Bool) (w : W) :
    ∃ o w', c.step k b w = some (o, w') ∧ ∀ x c', o = .hop x c' → P x := by
  obtain ⟨tr', t, hrun, hsim, -⟩ := exists_simulated_of_run h
  obtain ⟨a, ha, m, hmeans⟩ := (hi ▸ hsim.job i).running_inv
  obtain ⟨⟨o, w'⟩, hstep, hout⟩ := hmeans.exists_step k b w
  refine ⟨o, w', hstep, ?_⟩
  rintro x c' rfl
  have hhops : a.HopsTo P := by
    have hhopping := Crew.hopping_of_run hrun (fun j => (hs j).hopsTo) i
    rwa [ha] at hhopping
  rcases hout with ⟨_, _, _, hmore, -⟩ | ⟨o', ho', hrel⟩
  · cases hmore
  · cases hrel with
    | hop => exact (hhops.step ho').1

/-- `S::schedule` has been called for the priority since its queue was last empty. -/
def Dispatched.Called (n : ℕ) (s : ι → Sender ℓ (Context ι ℓ) V W) (w : W)
    (tr : List (Dispatched.Event n ι ℓ)) (st : Dispatched n ι ℓ V W) (p : Fin n) : Prop :=
  ∀ tr₁ tr₂ st₁, tr = tr₁ ++ tr₂ → Run Dispatched.step (.init n s w) tr₁ st₁ →
    st₁.queues.tasks.mgr.taskQueues p = [] →
      ∃ new, st.queues.tasks.mgr.scheduled = st₁.queues.tasks.mgr.scheduled ++ new ∧ p ∈ new

theorem called_of_run {tr : List (Dispatched.Event n ι ℓ)} {st : Dispatched n ι ℓ V W}
    (h : Run Dispatched.step (.init n s w) tr st) {p : Fin n}
    (hne : st.queues.tasks.mgr.taskQueues p ≠ []) : Dispatched.Called n s w tr st p := by
  rintro tr₁ tr₂ st₁ rfl h₁ hempty
  obtain ⟨st₁', h₁', hrest⟩ := run_append.mp h
  obtain rfl := Option.some.inj (h₁.symm.trans h₁')
  have hqueues := hrest.project (fun st : Dispatched n ι ℓ V W => st.queues)
    Driven.Event.dispatched fun _ _ _ hs => (Crew.Driven.step_move hs).queues
  have htasks := hqueues.project (fun q : Executors n ι ℓ => q.tasks) Executors.Event.ofTasks
    fun _ _ _ hs => Executors.tasks_of_step hs
  obtain ⟨new, hnew, hcalled⟩ := Tasks.scheduled_since hempty htasks
  exact ⟨new, hnew, hcalled hne⟩

/-- When nothing comes from outside any more all contexts come to rest. What has been started is
completed then, or it is in the queue of a priority that nobody services, though `S::schedule` has
been called since it was last empty, or in the list of a loop that is not run. -/
theorem comes_to_rest [Fintype ι] [Fintype ℓ] {tr : List (Dispatched.Event n ι ℓ)}
    {st : Dispatched n ι ℓ V W} (hs : ∀ i, (s i).WaitsFor (Executor.Valid n))
    (h : Run Dispatched.step (.init n s w) tr st)
    (hP : EachStep Dispatched.step Dispatched.Apart (.init n s w) tr) :
    (¬ ∃ f : ℕ → Dispatched n ι ℓ V W, f 0 = st ∧
      ∀ m, ∃ e, Dispatched.isWork e = true ∧ (f m).step e = some (f (m + 1))) ∧
    ((∀ e, Dispatched.isWork e = true → st.step e = none) → ∀ i k, .start i k ∈ tr →
      (∃ k' c, st.job i = .done k' c) ∨
      (∃ p, i ∈ st.queues.tasks.mgr.taskQueues p ∧
        (∀ c ∈ st.queues.tasks.calls, c.prio = p → c.hand = .returned) ∧
        Dispatched.Called n s w tr st p) ∨
      ∃ l, i ∈ (st.queues.loops l).tasks ∧
        ((st.queues.loops l).loop = .idle ∨ (st.queues.loops l).loop = .returned)) := by
  have hsystem := system_of_run h hP
  obtain ⟨hqueues, hPq, -⟩ := Crew.crew_of_run Executors.fifo h hP
  refine ⟨?_, fun hidle i k hstart => ?_⟩
  · have hacc (i : ι) : Acc (Crew.Next Config.step) (Config.init (s i)) := by
      obtain ⟨m, hmeans⟩ := means_init (s i)
      exact Crew.acc_next_of_simulates simulates_means (Crew.acc_next_resumption _) hmeans
    have hworks (q : Executors n ι ℓ) (e : Executors.Event n ι ℓ)
        (he : (executors n ι ℓ).works e = true) : q.Apart e := by
      cases e with
      | create | thread | loop | requestStop => exact True.intro
      | tasks k e =>
          cases e with
          | service => cases he
          | enqueue | pop | observedEmpty | run | finish => exact fun _ => True.intro
    have hrest := Crew.acc_isWork Executors.fifo Executors.rank_lt_of_step hworks hacc h hP
    rintro ⟨f, rfl, hf⟩
    exact (acc_iff_isEmpty_descending_chain.mp hrest).false ⟨f, rfl, hf⟩
  · have hholds := Executors.holds_of_run hqueues hPq
    have hclosed := Executors.serves.ended_or_closed Executors.fifo h hP
      (fun j k c hj => goes_of_running hsystem hs hj)
      (fun j k c hj => (queued_of_run hsystem j k c hj).exists_step) hidle i
    rcases hclosed with ⟨c, hc⟩ | ⟨k', c, hc⟩ | ⟨k', c, -, hclosed, hmem⟩
    · have hstart' := (start_mem_crewEvents tr i k).mpr hstart
      exact absurd hc (not_fresh_of_start hsystem hstart' c)
    · exact .inl ⟨k', c, hc⟩
    · cases k' with
      | thread j => exact hclosed.elim
      | priority p =>
          rcases Nat.lt_or_ge p n with hp | hp
          · have hnone (j : ℕ) (c : Tasks.Call n ι) :
                ¬ st.queues.tasks.Active ⟨p, hp⟩ j c := fun hactive =>
              hactive.2.2 (hclosed c (List.mem_of_getElem? hactive.1) (by rw [hactive.2.1]))
            have hqueue : i ∈ st.queues.tasks.mgr.taskQueues ⟨p, hp⟩ := by
              rwa [← hholds.unserviced ⟨p, hp⟩ hnone]
            refine .inr (.inl ⟨⟨p, hp⟩, hqueue, fun c hc hprio => hclosed c hc (by rw [hprio]), ?_⟩)
            exact called_of_run h (List.ne_nil_of_mem hqueue)
          · rw [hholds.noPriority p hp] at hmem
            cases hmem
      | runLoop l =>
          refine .inr (.inr ⟨l, ?_, hclosed⟩)
          rw [hholds.runLoop l] at hmem
          rcases hclosed with hloop | hloop
          · simpa [hloop, RunLoop.Loop.inHand] using hmem
          · simpa [hloop, RunLoop.Loop.inHand] using hmem

end Rest

theorem comes_to_rest_viaTask : ∃ st : Dispatched 2 Unit Unit ℕ (List (Context Unit Unit)),
    Run Dispatched.step (.init 2 (fun _ => viaTask) []) viaTaskTrace st ∧
    (∃ k c, st.job () = .done k c) ∧
    ¬ ∃ f : ℕ → Dispatched 2 Unit Unit ℕ (List (Context Unit Unit)), f 0 = st ∧
      ∀ m, ∃ e, Dispatched.isWork e = true ∧ (f m).step e = some (f (m + 1)) := by
  have hexec : (exec Dispatched.step (.init 2 (fun _ : Unit => viaTask) []) viaTaskTrace).map
      (fun st => st.job ()) = some (.done (.runLoop ()) (.value [42])) := rfl
  obtain ⟨st, hrun, hdone⟩ := Option.map_eq_some_iff.mp hexec
  have hwaits : viaTask.WaitsFor (Executor.Valid 2) := by
    refine ⟨⟨?_, fun _ _ => trivial⟩, fun _ _ _ _ => ⟨trivial, fun _ _ => trivial⟩⟩
    exact Nat.one_lt_two
  have hrest := comes_to_rest (fun _ => hwaits) hrun (by decide)
  exact ⟨st, hrun, ⟨_, _, hdone⟩, hrest.1⟩

/-- The loop is not run: the operation stays in its list when the task has been serviced. -/
example : (exec Dispatched.step (.init 2 (fun _ : Unit => viaTask) [])
    [.start () (.priority 0), .step (), .step (), .step (),
      .dispatch (.tasks (.priority 0) (.enqueue () 1 true)),
      .dispatch (.tasks (.priority 1) (.service 0 1 .immediate [])),
      .dispatch (.tasks (.priority 1) (.pop 0 1 .immediate ())),
      .dispatch (.tasks (.priority 1) (.run 0 1 ())), .step (), .step (), .step (), .step (),
      .dispatch (.loop () (.pushBack (.other (.priority 1)) ())),
      .dispatch (.tasks (.priority 1) (.finish 0 1 ())),
      .dispatch (.tasks (.priority 1) (.observedEmpty 0 1 .immediate))]).map
    (fun st => (phase (st.job ()), (st.queues.loops ()).tasks, st.queues.tasks.mgr.isIdle)) =
      some (.queued (.runLoop ()), [()], true) := rfl

end BaremetalSenders.Scheduled
