import BaremetalSenders.Senders.ScheduledMeaning

/-!
Any number of expressions, executed by threads, by who services priorities and by who runs
loops.

The contexts take the operations that wait for them in the order they were put into the queue,
and the steps of different contexts come in any order. An expression is started by a context
that has nothing else to do, and its receiver's stop token may be stopped at any time.

The runs of the operation states are those of what the expressions mean. Every run ends, and where
it does all expressions that have been started have been completed. What is passed to
`start_on`, and what comes after `continue_on`, is only executed by the scheduler's context, and
what a sender says is its completion scheduler is where it completes, unless `upon_stopped`
makes a value of the stop of a task of `fixed_priority_scheduler`, which may complete where it has
been started.
-/

namespace BaremetalSenders.Scheduled

open Repeat (Channel)
open BaremetalSenders.Sequential (Completion)
open Crew (Job Event Abridges Simulated JobRel)

variable {ι ℓ V W : Type*} [DecidableEq ι] [DecidableEq ℓ]

abbrev System (ι ℓ V W : Type*) :=
  Crew.State ι (Context ι ℓ) W (Config ℓ (Context ι ℓ) V W) (Completion V)

abbrev MeaningSystem (ι ℓ V W : Type*) :=
  Crew.State ι (Context ι ℓ) W (Behaviour ℓ (Context ι ℓ) V W) (Completion V)

def System.init (s : ι → Sender ℓ (Context ι ℓ) V W) (w : W) : System ι ℓ V W :=
  Crew.State.init (fun i => Config.init (s i)) w

def System.step (st : System ι ℓ V W) (e : Event ι (Context ι ℓ)) : Option (System ι ℓ V W) :=
  Crew.step Config.step (fun i x => x.context i) st e

def MeaningSystem.init (s : ι → Sender ℓ (Context ι ℓ) V W) (w : W) : MeaningSystem ι ℓ V W :=
  Crew.State.init (fun i => denote (s i)) w

def MeaningSystem.step (st : MeaningSystem ι ℓ V W) (e : Event ι (Context ι ℓ)) :
    Option (MeaningSystem ι ℓ V W) :=
  Crew.step Resumption.step (fun i x => x.context i) st e

/-! ### What is seen -/

inductive Phase (ι ℓ V : Type*) where
  | fresh
  | queued (k : Context ι ℓ)
  | running (k : Context ι ℓ)
  | completed (k : Context ι ℓ) (c : Completion V)

def phase {C : Type*} : Job (Context ι ℓ) C (Completion V) → Phase ι ℓ V
  | .fresh _ => .fresh
  | .queued k _ => .queued k
  | .running k _ => .running k
  | .done k c => .completed k c

structure LooksLike (t : MeaningSystem ι ℓ V W) (st : System ι ℓ V W) : Prop where
  world : t.world = st.world
  stop : t.stop = st.stop
  queue : t.queue = st.queue
  current : t.current = st.current
  phase : ∀ i, phase (t.job i) = phase (st.job i)

section Runs

variable {s : ι → Sender ℓ (Context ι ℓ) V W} {w : W} {tr : List (Event ι (Context ι ℓ))}
  {st : System ι ℓ V W}

/-- The operation states and what they mean. -/
theorem exists_simulated_of_run (h : Run System.step (.init s w) tr st) :
    ∃ tr' t, Run MeaningSystem.step (.init s w) tr' t ∧
      Simulated (fun c a => ∃ n, Means n c a) st t ∧ Abridges tr' tr :=
  Crew.exists_run_of_simulates simulates_means (fun i => means_init (s i)) h

omit [DecidableEq ι] [DecidableEq ℓ] in
theorem looksLike_of_simulated {t : MeaningSystem ι ℓ V W}
    (h : Simulated (fun c a => ∃ n, Means n c a) st t) : LooksLike t st where
  world := h.world
  stop := h.stop
  queue := h.queue
  current := h.current
  phase i := by
    have hjob := h.job i
    generalize st.job i = j at hjob
    generalize t.job i = j' at hjob
    cases hjob <;> rfl

/-- An operation that is executed is not stuck. -/
theorem exists_step_of_running (h : Run System.step (.init s w) tr st) {i : ι}
    {k : Context ι ℓ} {c : Config ℓ (Context ι ℓ) V W} (hi : st.job i = .running k c) (b : Bool)
    (w' : W) : c.step k b w' ≠ none := by
  obtain ⟨tr', t, -, hsim, -⟩ := exists_simulated_of_run h
  obtain ⟨a, -, n, hmeans⟩ := (hi ▸ hsim.job i).running_inv
  obtain ⟨out, hstep, -⟩ := hmeans.exists_step k b w'
  simp [hstep]

/-- The operation states do what the expressions mean, and all of it: a run of theirs is one of
what they mean but for the steps that only bring a call to where it goes, and the other way round.
No operation ever gets stuck. -/
theorem same_runs (s : ι → Sender ℓ (Context ι ℓ) V W) (w : W) :
    (∀ tr st, Run System.step (.init s w) tr st →
      ∃ tr' t, Run MeaningSystem.step (.init s w) tr' t ∧ Abridges tr' tr ∧ LooksLike t st) ∧
    (∀ tr' t, Run MeaningSystem.step (.init s w) tr' t →
      ∃ tr st, Run System.step (.init s w) tr st ∧ Abridges tr' tr ∧ LooksLike t st) ∧
    ∀ tr st, Run System.step (.init s w) tr st → ∀ i k c, st.job i = .running k c →
      ∃ st', st.step (.step i) = some st' := by
  refine ⟨fun tr st h => ?_, fun tr' t h => ?_, fun tr st h i k c hi => ?_⟩
  · obtain ⟨tr', t, hrun, hsim, habridges⟩ := exists_simulated_of_run h
    exact ⟨tr', t, hrun, habridges, looksLike_of_simulated hsim⟩
  · have htotal (n : ℕ) (c : Config ℓ (Context ι ℓ) V W) (a : Behaviour ℓ (Context ι ℓ) V W)
        (hmeans : Means n c a) (k : Context ι ℓ) (b : Bool) (w : W) : c.step k b w ≠ none := by
      obtain ⟨out, hstep, -⟩ := hmeans.exists_step k b w
      simp [hstep]
    obtain ⟨tr, st, hrun, hsim, habridges⟩ :=
      Crew.exists_run_of_simulated simulates_means htotal (fun i => means_init (s i)) h
    exact ⟨tr, st, hrun, habridges, looksLike_of_simulated hsim⟩
  · have hstep := exists_step_of_running h hi (st.stop i) st.world
    obtain ⟨out, hout⟩ := Option.ne_none_iff_exists'.mp hstep
    exact ⟨_, Crew.Turn.step_eq (.step hi hout)⟩

/-- What has been started is not as it was. -/
theorem not_fresh_of_start (h : Run System.step (.init s w) tr st) {i : ι} {k : Context ι ℓ}
    (hstart : .start i k ∈ tr) (c : Config ℓ (Context ι ℓ) V W) : st.job i ≠ .fresh c := by
  refine Run.induction (P := fun tr st => .start i k ∈ tr → ∀ c, st.job i ≠ .fresh c)
    (by simp) ?_ h hstart c
  intro tr st e st' hr ih hs hmem
  rcases List.mem_append.mp hmem with hmem | hmem
  · exact (Crew.step_turn hs).not_fresh (ih hmem)
  · obtain rfl := List.mem_singleton.mp hmem
    cases Crew.step_turn hs with
    | start => simp

/-- There is no run without an end, and where all contexts have nothing left to do every
expression that has been started has been completed. -/
theorem completes_of_idle [Fintype ι] (s : ι → Sender ℓ (Context ι ℓ) V W) (w : W) :
    (¬ ∃ f : ℕ → System ι ℓ V W, f 0 = .init s w ∧ ∀ n, ∃ e, (f n).step e = some (f (n + 1))) ∧
      ∀ tr st, Run System.step (.init s w) tr st → (∀ e, e.works = true → st.step e = none) →
        ∀ i k, .start i k ∈ tr → ∃ k' c, st.job i = .done k' c := by
  refine ⟨Crew.not_exists_infinite fun i => ?_, fun tr st hrun hidle i k hstart => ?_⟩
  · obtain ⟨n, hmeans⟩ := means_init (s i)
    exact Crew.acc_next_of_simulates simulates_means (Crew.acc_next_resumption _) hmeans
  · have hplaced := Crew.placed_of_run hrun
    have hended := hplaced.ended_of_idle
      (fun j k' c hj => exists_step_of_running hrun hj) hidle i
    rcases hended with ⟨c, hc⟩ | ⟨k', c, hc⟩
    · exact absurd hc (not_fresh_of_start hrun hstart c)
    · exact ⟨k', c, hc⟩

end Runs

/-! ### Where things are executed -/

section Keeps

variable {K : Type*} {I : W → Prop} {Ans : Bool → Prop} {place : Executor ℓ → K} {k : K}

/-- The functions of the sender keep the invariant when they are called in contexts that satisfy
`A`, and there are no schedulers of other contexts in it. -/
def Sender.Within (I : W → Prop) (A : K → Prop) (place : Executor ℓ → K) :
    Sender ℓ K V W → Prop
  | .just _ | .schedule .inline => True
  | .schedule (.executor e) => A (place e)
  | .then _ _ s fs => s.Within I A place ∧ ∀ k vs w, A k → I w → I (fs k vs w).2
  | .let _ s fn effect =>
      s.Within I A place ∧ ∀ tag vs k w, A k → I w →
        I (effect tag vs k w) ∧ (fn tag vs k w).Within I A place
  | .sequence s func effect =>
      s.Within I A place ∧ ∀ k w, A k → I w → I (effect k w) ∧ (func k w).Within I A place

/-- Where the operation of a scheduler completes that has been started in the context `k`. -/
def Scheduler.Ends (Ans : Bool → Prop) (place : Executor ℓ → K) (k : K) :
    Scheduler ℓ → K → Completion V → Prop
  | .inline, k', c => k' = k ∧ c = .value []
  | .executor e, k', c =>
      (c = .value [] ∨ c = .stopped) ∧
        (k' = place e ∨ (∃ p, e = .priority p) ∧ k' = k ∧ c = .stopped ∧ Ans true)

omit [DecidableEq ℓ] in
theorem keeps_completed (sched : Scheduler ℓ) :
    (sched.completed : Behaviour ℓ K V W).Keeps I Ans place (sched.Ends Ans place k) k := by
  have hexecutor (e : Executor ℓ) : (e.completed : Behaviour ℓ K V W).Keeps I Ans place
      ((Scheduler.executor e).Ends Ans place k) (place e) := by
    unfold Executor.completed
    split
    · intro b _
      cases b with
      | true => exact ⟨.inr rfl, .inl rfl⟩
      | false => exact ⟨.inl rfl, .inl rfl⟩
    · exact ⟨.inl rfl, .inl rfl⟩
  cases sched with
  | inline => exact ⟨rfl, rfl⟩
  | executor e =>
      cases e with
      | thread => exact hexecutor .thread
      | runLoop l => exact hexecutor (.runLoop l)
      | priority p =>
          intro b hb
          cases b with
          | true => exact ⟨.inr rfl, .inr ⟨⟨p, rfl⟩, rfl, rfl, hb⟩⟩
          | false => exact hexecutor (.priority p)

omit [DecidableEq ℓ] in
/-- A sender that stays within some contexts. -/
theorem Sender.Within.keeps {A : K → Prop} {s : Sender ℓ K V W} (h : s.Within I A place)
    (hk : A k) : (denote s).Keeps I Ans place (fun k _ => A k) k := by
  induction s generalizing k with
  | just c => exact hk
  | schedule sched =>
      refine (keeps_completed sched).imp fun k' c hends => ?_
      cases sched with
      | inline => rwa [hends.1]
      | executor e =>
          rcases hends.2 with rfl | ⟨-, rfl, -⟩
          · exact h
          · exact hk
  | «then» tag complete s fs ih =>
      exact (ih h.1 hk).handle
        (fun k' c hk' _ w hw => ⟨h.2 k' c.args w hk' hw, hk'⟩) fun _ _ hk' _ => hk'
  | «let» tags s fn effect ih ihfn =>
      refine (ih h.1 hk).handle (fun k' c hk' _ w hw => ?_) fun _ _ hk' _ => hk'
      obtain ⟨heffect, hfn⟩ := h.2 c.channel c.args k' w hk' hw
      exact ⟨heffect, ihfn _ _ _ _ hfn hk'⟩
  | sequence s func effect ih ihfunc =>
      refine (ih h.1 hk).handle (fun k' c hk' _ w hw => ?_) fun _ _ hk' _ => hk'
      obtain ⟨heffect, hfunc⟩ := h.2 k' w hk' hw
      exact ⟨heffect, ihfunc _ _ hfunc hk'⟩

omit [DecidableEq ℓ] in
/-- `start_on` of an executor. The sender is started in its context, or else stop was requested
before. -/
theorem keeps_startOn {s : Sender ℓ K V W} {e : Executor ℓ} {Q : K → Completion V → Prop}
    (h : (denote s).Keeps I Ans place Q (place e)) (hstopped : ∀ k, Q k .stopped) :
    (denote (.startOn (.executor e) s)).Keeps I Ans place Q k := by
  refine (keeps_completed (.executor e)).handle (fun k' c hends hc w hw => ?_)
    fun k' c hends hc => ?_
  · rcases hends.2 with rfl | ⟨-, -, rfl, -⟩
    · exact ⟨hw, h⟩
    · cases hc
  · rcases hends.1 with rfl | rfl
    · cases hc
    · exact hstopped k'

omit [DecidableEq ℓ] in
/-- What comes after `continue_on` of an executor goes on with a value in its context. -/
theorem keeps_continueOn {s : Sender ℓ K V W} {e : Executor ℓ} {Q : K → Completion V → Prop}
    (h : (denote s).Keeps I Ans place Q k) :
    (denote (.continueOn s (.executor e))).Keeps I Ans place
      (fun k' c => c.channel = .value → k' = place e) k := by
  refine h.handle (fun k' c _ _ w hw => ⟨hw, keeps_startOn ?_ ?_⟩) fun k' c _ hc => ?_
  · exact fun _ => rfl
  · exact fun _ h => by cases h
  · exact fun hvalue => by simp [hvalue] at hc

end Keeps

section Runs

variable {s : ι → Sender ℓ (Context ι ℓ) V W} {w : W} {tr : List (Event ι (Context ι ℓ))}
  {st : System ι ℓ V W}

/-- What the expressions keep, the operation states keep. -/
theorem kept_of_run {I : W → Prop} {A : ι → Bool → Prop}
    {Q : ι → Context ι ℓ → Completion V → Prop} (h : Run System.step (.init s w) tr st) (hw : I w)
    (hkeeps : ∀ i k, .start i k ∈ tr →
      (denote (s i)).Keeps I (A i) (fun x => x.context i) (Q i) k)
    (hno : ∀ i, A i false) (hyes : ∀ i, .requestStop i ∈ tr → A i true) :
    I st.world ∧ ∀ i k c, st.job i = .done k c → Q i k c := by
  obtain ⟨tr', t, hrun, hsim, hsub, -⟩ := exists_simulated_of_run h
  have hkept := Crew.kept_of_run hrun hw (fun i k hmem => hkeeps i k (hsub.subset hmem)) hno
    fun i hmem => hyes i (hsub.subset hmem)
  refine ⟨hsim.world ▸ hkept.world, fun i k c hdone => ?_⟩
  have hjob := hkept.job i
  have hrel := hsim.job i
  rw [hdone] at hrel
  generalize t.job i = j at hjob hrel
  cases hrel
  exact hjob

/-- What is passed to `start_on`, and what comes after `continue_on`, is only executed in the
context of the scheduler: an invariant of the world is kept that `s₀` and `f` need not keep
anywhere else. -/
theorem executed_on_scheduler {I : W → Prop} {i : ι} {e₁ e₂ : Executor ℓ}
    {s₀ : Sender ℓ (Context ι ℓ) V W} {f : Context ι ℓ → List V → W → List V × W}
    (hi : s i = .then_ (.continueOn (.startOn (.executor e₁) s₀) (.executor e₂)) f)
    (hothers : ∀ j, j ≠ i → (s j).Within I (fun _ => True) fun x => x.context j)
    (hfirst : s₀.Within I (· = e₁.context i) fun x => x.context i)
    (hf : ∀ vs w, I w → I (f (e₂.context i) vs w).2) (hw : I w)
    (h : Run System.step (.init s w) tr st) :
    I st.world ∧ ∀ k vs, st.job i = .done k (.value vs) → k = e₂.context i := by
  have hkept := kept_of_run (A := fun _ _ => True)
    (Q := fun j k c => j = i → c.channel = .value → k = e₂.context i) h hw ?_
    (fun _ => True.intro) fun _ _ => True.intro
  · exact ⟨hkept.1, fun k vs hdone => hkept.2 i k _ hdone rfl rfl⟩
  · intro j k _
    rcases eq_or_ne j i with rfl | hne
    · rw [hi]
      have hstart : (denote (.startOn (.executor e₁) s₀)).Keeps I (fun _ => True)
          (fun x => x.context j) (fun _ _ => True) k :=
        keeps_startOn ((hfirst.keeps rfl).imp fun _ _ _ => True.intro) fun _ => True.intro
      refine (keeps_continueOn hstart).handle (fun k' c hk' hc w hw => ?_)
        fun k' c hk' hc => fun _ => hk'
      obtain rfl := hk' (beq_iff_eq.mp hc)
      exact ⟨hf c.args w hw, fun _ _ => rfl⟩
    · exact ((hothers j hne).keeps True.intro).imp fun _ _ _ h => absurd h hne

end Runs

/-- Two functions that note the context in which they are called. -/
def noting : Sender Unit (Context Unit Unit) ℕ (List (Context Unit Unit)) :=
  .then_ (.continueOn (.startOn (.executor (.priority 1))
    (.then_ (.just_ [42]) fun k vs w => (vs, w ++ [k]))) (.executor .thread))
      fun k vs w => (vs, w ++ [k])

def notingTrace : List (Event Unit (Context Unit Unit)) :=
  [.start () (.runLoop ())] ++ List.replicate 4 (.step ()) ++ [.take (.priority 1)] ++
    List.replicate 7 (.step ()) ++ [.take (.thread ())] ++ List.replicate 5 (.step ())

theorem executed_on_scheduler_noting : ∃ st,
    Run System.step (.init (fun _ => noting) []) notingTrace st ∧
    st.world = [.priority 1, .thread ()] ∧
    (∀ k ∈ st.world, k = .priority 1 ∨ k = .thread ()) ∧
    ∀ k vs, st.job () = .done k (.value vs) → k = .thread () := by
  have hexec : (exec System.step (.init (fun _ : Unit => noting) []) notingTrace).map
      (fun st => st.world) = some [.priority 1, .thread ()] := rfl
  obtain ⟨st, hrun, hworld⟩ := Option.map_eq_some_iff.mp hexec
  have hfirst : (Sender.then_ (.just_ [42]) fun k vs w => (vs, w ++ [k]) :
      Sender Unit (Context Unit Unit) ℕ (List (Context Unit Unit))).Within
        (fun w => ∀ k ∈ w, k = .priority 1 ∨ k = .thread ())
        (· = (Executor.priority 1).context ()) fun x => x.context () := by
    refine ⟨trivial, ?_⟩
    rintro k vs w rfl hw
    simpa [or_imp, forall_and, Executor.context] using hw
  have hsecond (vs : List ℕ) (w : List (Context Unit Unit))
      (hw : ∀ k ∈ w, k = .priority 1 ∨ k = .thread ()) :
      ∀ k ∈ w ++ [Executor.thread.context ()], k = .priority 1 ∨ k = .thread () := by
    simpa [or_imp, forall_and, Executor.context] using hw
  have hplaced :=
    executed_on_scheduler rfl (fun j hj => absurd rfl hj) hfirst hsecond (by simp) hrun
  exact ⟨st, hrun, hworld, hplaced⟩

/-! ### Completion schedulers -/

/-- Where a sender completes that has the scheduler for its completion scheduler and was started in
the context `k`. The adaptors may handle `set_stopped`. -/
def Scheduler.Completes {K : Type*} (Ans : Bool → Prop) (place : Executor ℓ → K) (k : K)
    (handles : Bool) : Scheduler ℓ → K → Completion V → Prop
  | .inline, k', _ => k' = k
  | .executor e, k', c =>
      k' = place e ∨
        (∃ p, e = .priority p) ∧ k' = k ∧ Ans true ∧ (c.channel = .stopped ∨ handles = true)

omit [DecidableEq ℓ] in
theorem keeps_completionScheduler {K : Type*} {Ans : Bool → Prop} {place : Executor ℓ → K} {k : K}
    {s : Sender ℓ K V W} {tag : Channel} {sched : Scheduler ℓ}
    (h : s.completionScheduler tag = some sched) :
    (denote s).Keeps (fun _ => True) Ans place (sched.Completes Ans place k s.handlesStopped)
      k := by
  induction s with
  | just c => cases h
  | «let» tags s fn effect => cases h
  | sequence s func effect => cases h
  | schedule sched' =>
      have hsched : sched = sched' := by
        simp only [Sender.completionScheduler] at h
        cases tag with
        | error => cases h
        | value => exact (Option.some.inj h).symm
        | stopped =>
            simp only [Scheduler.completionScheduler] at h
            split at h <;> cases h
            rfl
      subst hsched
      refine (keeps_completed sched).imp fun k' c hends => ?_
      cases sched with
      | inline => exact hends.1
      | executor e =>
          rcases hends.2 with hk | ⟨hp, hk, rfl, hans⟩
          · exact .inl hk
          · exact .inr ⟨hp, hk, hans, .inl rfl⟩
  | «then» tag' complete s fs ih =>
      have hpassed (k' : K) (c : Completion V)
          (hk' : sched.Completes Ans place k s.handlesStopped k' c) :
          sched.Completes Ans place k (Sender.then tag' complete s fs).handlesStopped k' c := by
        cases sched with
        | inline => exact hk'
        | executor e =>
            rcases hk' with hk | ⟨hp, hk, hans, hc⟩
            · exact .inl hk
            · exact .inr ⟨hp, hk, hans, hc.imp_right fun hs => by simp [Sender.handlesStopped, hs]⟩
      refine (ih h).handle (fun k' c hk' hc w _ => ⟨True.intro, ?_⟩) fun k' c hk' _ =>
        hpassed k' c hk'
      cases sched with
      | inline => exact hk'
      | executor e =>
          rcases hk' with hk | ⟨hp, hk, hans, hstopped | hs⟩
          · exact .inl hk
          · -- an `upon_stopped`
            have htag : tag' = .stopped := (beq_iff_eq.mp hc).symm.trans hstopped
            exact .inr ⟨hp, hk, hans, .inr (by simp [Sender.handlesStopped, htag])⟩
          · exact .inr ⟨hp, hk, hans, .inr (by simp [Sender.handlesStopped, hs])⟩

omit [DecidableEq ℓ] in
/-- A task of `fixed_priority_scheduler` may be stopped where it is started. -/
theorem not_completionScheduler_stopped {K : Type*} {s : Sender ℓ K V W} {p : ℕ} :
    s.completionScheduler .stopped ≠ some (.executor (.priority p)) := by
  induction s with
  | just | «let» | sequence => simp [Sender.completionScheduler]
  | schedule sched =>
      simp only [Sender.completionScheduler, Scheduler.completionScheduler]
      split <;> simp
  | «then» tag complete s fs ih => exact ih

/-- A sender completes on its completion scheduler: `then` and its like may forward the attribute.
Where `upon_stopped` makes a value of the stop of a task of `fixed_priority_scheduler` it may
complete where it was started. -/
theorem completes_on_completionScheduler {s : ι → Sender ℓ (Context ι ℓ) V W} {w : W}
    {tr : List (Event ι (Context ι ℓ))} {st : System ι ℓ V W}
    (h : Run System.step (.init s w) tr st) {i : ι} {tag : Channel} {sched : Scheduler ℓ}
    (hsched : (s i).completionScheduler tag = some sched) {k : Context ι ℓ} {c : Completion V}
    (hdone : st.job i = .done k c) (hc : c.channel = tag) :
    (∀ e, sched = .executor e → k = e.context i ∨
      (∃ p, e = .priority p) ∧ (s i).handlesStopped = true ∧ .requestStop i ∈ tr ∧
        .start i k ∈ tr) ∧
    (sched = .inline → .start i k ∈ tr) := by
  have hkept := kept_of_run (I := fun _ => True)
    (A := fun j b => b = true → .requestStop j ∈ tr)
    (Q := fun j k' c' => j = i → ∃ k₀, .start i k₀ ∈ tr ∧
      sched.Completes (fun b => b = true → .requestStop i ∈ tr) (fun x => x.context i) k₀
        (s i).handlesStopped k' c')
    h True.intro ?_ (fun _ hfalse => by cases hfalse) fun _ hmem _ => hmem
  · obtain ⟨k₀, hstart, hk⟩ := hkept.2 i k c hdone rfl
    cases sched with
    | inline =>
        obtain rfl : k = k₀ := hk
        exact ⟨fun e he => (by cases he), fun _ => hstart⟩
    | executor e =>
        refine ⟨fun e' he => ?_, fun he => (by cases he)⟩
        cases he
        rcases hk with hk | ⟨⟨p, rfl⟩, rfl, hans, hstopped | hs⟩
        · exact .inl hk
        · obtain rfl : tag = .stopped := hc.symm.trans hstopped
          exact absurd hsched not_completionScheduler_stopped
        · exact .inr ⟨⟨p, rfl⟩, hs, hans rfl, hstart⟩
  · intro j k₀ hstart
    rcases eq_or_ne j i with rfl | hne
    · exact (keeps_completionScheduler hsched).imp fun k' c' hk' _ => ⟨k₀, hstart, hk'⟩
    · exact Resumption.Keeps.trivial.imp fun _ _ _ hj => absurd hj hne

/-- An operation that waits for a loop is started by who services a priority, and stopped. -/
theorem completes_on_completionScheduler_runLoop : ∃ (tr : List (Event Unit (Context Unit Unit)))
    (st : System Unit Unit ℕ Unit) (k : Context Unit Unit),
    Run System.step (.init (fun _ => .uponStopped (.schedule (.executor (.runLoop ())))
      fun _ w => ([1], w)) ()) tr st ∧
    .requestStop () ∈ tr ∧ st.job () = .done k (.value [1]) ∧ k = .runLoop () := by
  let s : Sender Unit (Context Unit Unit) ℕ Unit :=
    .uponStopped (.schedule (.executor (.runLoop ()))) fun _ w => ([1], w)
  let tr : List (Event Unit (Context Unit Unit)) :=
    [.start () (.priority 0), .step (), .requestStop (), .take (.runLoop ())] ++
      List.replicate 3 (.step ())
  have hexec : (exec System.step (.init (fun _ : Unit => s) ()) tr).map (fun st => st.job ()) =
      some (.done (.runLoop ()) (.value [1])) := rfl
  obtain ⟨st, hrun, hdone⟩ := Option.map_eq_some_iff.mp hexec
  have hsched : s.completionScheduler .value = some (.executor (.runLoop ())) := rfl
  have hplaced := completes_on_completionScheduler hrun hsched hdone rfl
  refine ⟨tr, st, _, hrun, by simp [tr], hdone, ?_⟩
  rcases hplaced.1 _ rfl with hk | ⟨⟨p, hp⟩, -⟩
  · exact hk
  · cases hp

/-- `fixed_priority_scheduler<0>{}.schedule() | upon_stopped(f)` is started by who runs the loop
when stop has been requested. It says that it completes on the priority. -/
example : (exec System.step (.init (fun _ : Unit => .uponStopped (.schedule (.executor
      (.priority 0))) fun _ w => ([1], w)) ())
    ([.requestStop (), .start () (.runLoop ())] ++ List.replicate 3 (.step ()))).map
    (fun st => phase (st.job ())) = some (.completed (.runLoop ()) (.value [1])) := rfl

end BaremetalSenders.Scheduled
