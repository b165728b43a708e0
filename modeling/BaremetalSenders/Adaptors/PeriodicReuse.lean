import BaremetalSenders.Adaptors.PeriodicCount

/-!
When the storage of a periodic operation can be used again.

A frame of `passthrough` writes to the operation state after the completion has
returned. The tasks of the children are in order as long as the receiver has
neither started another operation there nor destroyed this one. `repeat_n(m)`
starts another one after every completion but the last, so for every `m` other
than 0 the task of a child that has been destroyed is left in the queue of the
timer manager; and it destroys the operation before it completes itself.
-/

namespace BaremetalSenders.Periodic

open Timer (ExpirationProvider)
open Repeat (Channel Args repeatN)

variable {P β τ δ : Type*} [DecidableEq β] [LT τ] [DecidableLT τ] [HAdd τ δ τ] [Inhabited τ]
  {fused : Bool}

/-! ### Scheduling a child is possible -/

/-- The child's task can be scheduled, and is then pending. If there is no other
one, it is the queue. -/
theorem exists_schedule (fused : Bool) (S : Sender P τ δ) (ep : ExpirationProvider τ) (tp : τ)
    {t : Timer.State (ℕ ⊕ β) τ δ} {k : ℕ} (hk : t.mgr.pending (.inl k) = false) :
    ∃ readings tp' t', schedule fused S ep t tp k (some readings) = some (tp', t') ∧
      t'.mgr.pending (.inl k) = true ∧ t'.popped = t.popped ∧
      (t.mgr.taskQueue = [] → t'.mgr.taskQueue = [.inl k]) := by
  cases hpolicy : S.policy with
  | duration d' =>
      obtain ⟨t', ht'⟩ : ∃ t',
          Timer.step fused t (.runAfter (.inl k) d' default true) = some t' := by
        simp [Timer.step, Timer.Manager.runAfter, hk]
      refine ⟨[default], tp, t', by simp [schedule, hpolicy, ht'], ?_, Timer.popped_step ht', ?_⟩
      · rw [Timer.pending_step ht']
        simp [Timer.Event.pendingAfter]
      · intro hqueue
        obtain ⟨m, hm, rfl⟩ := Timer.step_runAfter ht'
        simp only [Timer.Manager.runAfter, hk, Timer.Manager.scheduleAfter, hqueue] at hm
        cases hm
        cases fused <;> rfl
  | timepoint =>
      obtain ⟨readings, tp', hep⟩ := ep.exists_readings default
      obtain ⟨t', ht'⟩ : ∃ t', Timer.step fused t (.runAt (.inl k) ep readings true) = some t' := by
        simp [Timer.step, Timer.Manager.runAt, Timer.Manager.scheduleAt, hk, hep]
      refine ⟨readings, tp', t', by simp [schedule, hpolicy, hep, ht'], ?_,
        Timer.popped_step ht', ?_⟩
      · rw [Timer.pending_step ht']
        simp [Timer.Event.pendingAfter]
      · intro hqueue
        obtain ⟨m, hm, rfl⟩ := Timer.step_runAt ht'
        simp only [Timer.Manager.runAt, Timer.Manager.scheduleAt, hk, hep, hqueue] at hm
        cases hm
        rfl

/-! ### Runs in which no completion returns to a running operation -/

/-- The child of a running operation is there. -/
def Held (s : State P β τ δ) : Prop :=
  ∀ op, s.slot = some op → op.phase = .running → op.state.isSome = true

theorem held_move {S : Sender P τ δ} {s s' : State P β τ δ} {e : Event P β τ δ} (h : Held s)
    (hquiet : Quiet s e) (hs : Move fused S s e s') : Held s' := by
  intro op hop hphase
  cases hs with
  | construct | stopped | deliver =>
      obtain rfl := Option.some.inj hop
      cases hphase
  | start | restart =>
      obtain rfl := Option.some.inj hop
      rfl
  | complete k ch op' =>
      obtain rfl := Option.some.inj hop
      cases ch <;> cases hphase
  | evaluate op' =>
      obtain rfl := Option.some.inj hop
      cases hstop : (S.pred op'.pred).1 <;> simp [hstop] at hphase
  | destroy => cases hop
  | leave =>
      obtain ⟨op', hop', rfl⟩ := Option.map_eq_some_iff.mp hop
      exact absurd hphase (not_running_of_unused (unused_of_quiet hquiet) op' hop')
  | timer => exact h op hop hphase

def Repeated.Quiet (s : Repeated β τ δ) : RepeatedEvent β τ δ → Prop
  | .inner e => Periodic.Quiet s.inner e
  | .outer _ _ => True

/-- The tasks are tracked and the child that is waited for is there. -/
def Sound (s : State P β τ δ) : Prop := Tracked s ∧ Held s

omit [LT τ] [DecidableLT τ] [HAdd τ δ τ] [Inhabited τ] [DecidableEq β] in
theorem quiet_of_induced {n : UInt32} {r : Option (List τ)} {e : Repeat.Event Unit}
    {e' : Event UInt32 β τ δ} (h : induced n r e = some e') (s : State UInt32 β τ δ) :
    Quiet s e' := by
  cases e with
  | begin stop =>
      cases stop <;> cases h
      exact True.intro
  | start | again | complete | reset =>
      cases h
      exact True.intro
  | evaluate | deliver | loopFn => cases h

theorem sound_step {S : Sender UInt32 τ δ} {n : UInt32} {checksStop : Bool}
    {s s' : Repeated β τ δ} {e : RepeatedEvent β τ δ} (h : Sound s.inner)
    (hs : s.step fused S n checksStop e = some s') (hquiet : s.Quiet e) : Sound s'.inner := by
  cases e with
  | inner e =>
      cases step_together hs with
      | inner _ i he hi => exact ⟨tracked_move h.1 hquiet hi, held_move h.2 hquiet hi⟩
  | outer e r =>
      obtain ⟨-, -, -, hinner⟩ := repeated_step_outer hs
      cases hinduced : induced (β := β) (δ := δ) n r e with
      | none =>
          rw [hinduced] at hinner
          dsimp only at hinner
          rwa [hinner]
      | some e' =>
          rw [hinduced] at hinner
          have hquiet' := quiet_of_induced hinduced s.inner
          exact ⟨tracked_move h.1 hquiet' hinner, held_move h.2 hquiet' hinner⟩

omit [LT τ] [DecidableLT τ] [HAdd τ δ τ] [Inhabited τ] [DecidableEq β] in
theorem sound_init (expirationTime : ℕ ⊕ β → τ) : Sound (.init expirationTime : State P β τ δ) :=
  ⟨.of_none fun _ => rfl, fun op hop => by cases hop⟩

/-! ### Runs in which no completion has returned -/

/-- What a step writes to after a completion of the periodic operation. -/
def RepeatedEvent.writes (s : Repeated β τ δ) : RepeatedEvent β τ δ → List (Option Phase)
  | .inner e => e.writes s.inner
  | .outer _ _ => []

theorem Together.written {S : Sender UInt32 τ δ} {n : UInt32} {s s' : Repeated β τ δ}
    {e : RepeatedEvent β τ δ} (h : Together fused S n s e s') :
    s'.inner.written = e.writes s ++ s.inner.written := by
  cases h with
  | inner e i he hi => exact hi.written
  | _ => rfl

theorem written_of_repeated {S : Sender UInt32 τ δ} {n m : UInt32} {checksStop : Bool}
    {expirationTime : ℕ ⊕ β → τ} {tr : List (RepeatedEvent β τ δ)} {s : Repeated β τ δ}
    (h : Run (Repeated.step fused S n checksStop) (.init m expirationTime) tr s) :
    s.inner.written = [] ↔ .inner .leave ∉ tr := by
  refine Run.induction (P := fun tr s => s.inner.written = [] ↔ .inner .leave ∉ tr)
    (by simp [Repeated.init, State.init]) ?_ h
  intro tr s e s' _ ih hs
  rw [(step_together hs).written, List.append_eq_nil_iff, ih]
  cases e with
  | outer => simp [RepeatedEvent.writes]
  | inner e => cases e <;> simp [RepeatedEvent.writes, Event.writes]

/-- However often the operation is repeated, as long as no completion has returned. -/
theorem sound_of_not_returned {S : Sender UInt32 τ δ} {n m : UInt32} {checksStop : Bool}
    {expirationTime : ℕ ⊕ β → τ} {tr : List (RepeatedEvent β τ δ)} {s : Repeated β τ δ}
    (h : Run (Repeated.step fused S n checksStop) (.init m expirationTime) tr s)
    (hleave : .inner .leave ∉ tr) : Sound s.inner := by
  have hquiet : EachStep (Repeated.step fused S n checksStop) Repeated.Quiet
      (.init m expirationTime) tr := by
    refine EachStep.of_forall_mem fun e he s => ?_
    cases e with
    | outer => exact True.intro
    | inner e =>
        cases e with
        | leave => exact absurd he hleave
        | _ => exact True.intro
  exact Run.induction_of_eachStep (P := fun _ s => Sound s.inner) (sound_init expirationTime)
    (fun _ _ _ _ _ ih hq hs => sound_step ih hs hq) h hquiet

/-! ### What is waited for -/

/-- The steps with which the two operations go on. -/
def RepeatedEvent.isOwn : RepeatedEvent β τ δ → Bool
  | .outer (.loopFn _ _) _ => false
  | .outer _ _ | .inner (.complete _ _) | .inner (.evaluate _) | .inner (.restart _) => true
  | .inner _ => false

/-- The child that is there waits for the timer. -/
def Repeated.Waits (s : Repeated β τ δ) : Prop :=
  ∃ k, s.inner.live k = true ∧
    (s.inner.timer.mgr.pending (.inl k) = true ∨ .inl k ∈ s.inner.timer.popped)

/-- Until the repeat operation has completed, the operations can go on or wait
for the timer. -/
theorem goes_on {S : Sender UInt32 τ δ} {n : UInt32} {checksStop : Bool} {s : Repeated β τ δ}
    (hjoined : Joined s) (hvalued : Valued s) (hsound : Sound s.inner)
    (hdone : s.outer.phase ≠ .done) :
    (∃ e, e.isOwn = true ∧ e.isPlain = true ∧
      (s.step fused S n checksStop e).isSome = true) ∨ s.Waits := by
  have hfresh : s.inner.timer.mgr.pending (.inl s.inner.next) = false := by
    by_contra hp
    exact Nat.lt_irrefl _ (hsound.1 _ (by simpa using hp)).1
  simp only [Joined] at hjoined
  cases hphase : s.outer.phase with
  | done => exact absurd hphase hdone
  | idle =>
      simp only [hphase] at hjoined
      exact .inl ⟨.outer .start none, rfl, rfl,
        by simp [Repeated.step, Repeat.step, hphase, induced, step, hjoined]⟩
  | ready caller =>
      simp only [hphase] at hjoined
      obtain ⟨hstate, op, hop, hconnected⟩ := hjoined
      obtain ⟨k, hk⟩ := Option.isSome_iff_exists.mp hstate
      obtain ⟨readings, tp', t', hschedule, -⟩ := exists_schedule fused S
        (firstExpiration S.d) op.tp hfresh
      exact .inl ⟨.outer (.begin false) (some readings), rfl, rfl, by
        simp [Repeated.step, Repeat.step, hphase, hk, induced, step, hop, hconnected,
          State.emplace, hschedule]⟩
  | running =>
      simp only [hphase] at hjoined
      obtain ⟨hstate, op, hop, huse⟩ := hjoined
      obtain ⟨j, hj⟩ := Option.isSome_iff_exists.mp hstate
      cases hop' : op.phase with
      | connected | completed => simp [Op.unused, hop'] at huse
      | running =>
          obtain ⟨k, hk⟩ := Option.isSome_iff_exists.mp (hsound.2 op hop hop')
          by_cases hwait : s.inner.timer.mgr.pending (.inl k) = true ∨
              .inl k ∈ s.inner.timer.popped
          · exact .inr ⟨k, by simp [State.live, hop, hk], hwait⟩
          · obtain ⟨hpending, hpopped⟩ := not_or.mp hwait
            have hpopped' : ∀ t ∈ s.inner.timer.popped, t ≠ .inl k := by
              rintro t ht rfl
              exact hpopped ht
            exact .inl ⟨.inner (.complete k .value), rfl, rfl, by
              simp [Repeated.step, Event.isInternal, step, hop, hop', hk, hpending]
              simpa using hpopped'⟩
      | completing =>
          exact .inl ⟨.inner (.evaluate (S.pred op.pred).1), rfl, rfl,
            by simp [Repeated.step, Event.isInternal, step, hop, hop']⟩
      | restarting =>
          obtain ⟨readings, tp', t', hschedule, -⟩ := exists_schedule fused S
            (S.expiry S.d op.tp) op.tp hfresh
          exact .inl ⟨.inner (.restart (some readings)), rfl, rfl, by
            simp [Repeated.step, Event.isInternal, step, hop, hop', State.emplace, hschedule]⟩
      | passing ch =>
          exact .inl ⟨.outer (.complete j ch []) none, rfl, rfl,
            by simp [Repeated.step, Repeat.step, hphase, hj, induced, step, hop, hop']⟩
  | completing ch args =>
      obtain rfl := hvalued.completing ch args hphase
      exact .inl ⟨.outer (.evaluate args.k (s.outer.read (fun _ _ => ()) args.refs)
        (s.outer.pred == 0)) none, rfl, rfl,
        by simp [Repeated.step, Repeat.step, hphase, repeatN, Repeat.repeatUntil, induced]⟩
  | looping args =>
      simp only [hphase] at hjoined
      exact .inl ⟨.outer (.again args.k) none, rfl, rfl,
        by simp [Repeated.step, Repeat.step, hphase, induced, step, hjoined]⟩
  | resetting ch args =>
      simp only [hphase] at hjoined
      exact .inl ⟨.outer .reset none, rfl, rfl,
        by simp [Repeated.step, Repeat.step, hphase, induced, step, hjoined]⟩
  | forwarding ch args =>
      exact .inl ⟨.outer (.deliver args.k ch (s.outer.read (fun _ _ => ()) args.refs)) none, rfl,
        rfl, by simp [Repeated.step, Repeat.step, hphase, induced]⟩

/-! ### One operation -/

/-- For `repeat_n(0)`: the predicate will say yes, and no completion has been
called before the periodic operation has completed. -/
def Once (s : Repeated β τ δ) : Prop :=
  match s.outer.phase with
  | .idle | .ready _ | .running => s.outer.pred = 0 ∧ s.inner.frames = 0
  | .completing _ _ => s.outer.pred = 0
  | .looping _ => False
  | _ => True

theorem Move.frames_internal {S : Sender P τ δ} {s s' : State P β τ δ} {e : Event P β τ δ}
    (h : Move fused S s e s') (he : e.isInternal = true) : s'.frames ≤ s.frames := by
  cases h with
  | construct | destroy | start | deliver => cases he
  | leave => exact Nat.sub_le _ _
  | complete | evaluate | restart | stopped | timer => exact Nat.le_refl _

theorem once_step {S : Sender UInt32 τ δ} {n : UInt32} {s s' : Repeated β τ δ}
    {e : RepeatedEvent β τ δ} (h : Once s) (hs : Together fused S n s e s') : Once s' := by
  simp only [Once] at h ⊢
  cases hs with
  | start r hphase =>
      simp only [hphase] at h
      exact h
  | stop | reset | deliver => exact True.intro
  | begin r caller calls op tp t hphase =>
      simp only [hphase] at h
      exact h
  | complete r k ch refs op hphase =>
      simp only [hphase] at h
      exact h.1
  | evaluate r k vals args hphase =>
      simp only [hphase] at h
      simp [h]
  | again r k args hphase =>
      simp only [hphase] at h
  | loopFn => exact h
  | inner e i he hi =>
      have hframes := hi.frames_internal he
      dsimp only
      cases hphase : s.outer.phase with
      | idle | ready | running =>
          simp only [hphase] at h ⊢
          exact ⟨h.1, by omega⟩
      | completing =>
          simp only [hphase] at h ⊢
          exact h
      | looping => simp only [hphase] at h
      | resetting | forwarding | done => exact True.intro

/-- A single operation is not in use when its completion returns, unless it has been
destroyed. -/
theorem quiet_of_once {S : Sender UInt32 τ δ} {n : UInt32} {checksStop : Bool}
    {s s' : Repeated β τ δ} {e : RepeatedEvent β τ δ} (hjoined : Joined s) (honce : Once s)
    (hs : s.step fused S n checksStop e = some s') (hthere : none ∉ s'.inner.written) :
    s.Quiet e := by
  cases step_together hs with
  | inner e i he hi =>
      cases hi with
      | leave hframes =>
          simp only [Joined] at hjoined
          simp only [Once] at honce
          obtain ⟨op, hop⟩ : ∃ op, s.inner.slot = some op := by
            cases hslot : s.inner.slot with
            | none => simp [hslot] at hthere
            | some op => exact ⟨op, rfl⟩
          refine ⟨op, hop, ?_⟩
          cases hphase : s.outer.phase with
          | idle | ready | running =>
              simp only [hphase] at honce
              exact absurd honce.2 hframes
          | looping => simp only [hphase] at honce
          | completing | resetting | forwarding | done =>
              simp only [hphase] at hjoined
              simpa [State.unused, hop] using hjoined
      | _ => exact True.intro
  | _ => exact True.intro

theorem sound_of_once {S : Sender UInt32 τ δ} {n : UInt32} {checksStop : Bool}
    {expirationTime : ℕ ⊕ β → τ} {tr : List (RepeatedEvent β τ δ)} {s : Repeated β τ δ}
    (h : Run (Repeated.step fused S n checksStop) (.init 0 expirationTime) tr s) :
    Joined s ∧ Once s ∧ (none ∉ s.inner.written → Sound s.inner) := by
  refine Run.induction
    (P := fun _ s => Joined s ∧ Once s ∧ (none ∉ s.inner.written → Sound s.inner)) ?_ ?_ h
  · exact ⟨(rfl : State.unused (.init expirationTime) = true), ⟨rfl, rfl⟩,
      fun _ => sound_init expirationTime⟩
  · rintro tr s e s' - ⟨hjoined, honce, hsound⟩ hs
    have hmove := step_together hs
    refine ⟨joined_step hjoined hmove, once_step honce hmove, fun hthere => ?_⟩
    refine sound_step (hsound fun hmem => hthere ?_) hs (quiet_of_once hjoined honce hs hthere)
    rw [hmove.written]
    exact List.mem_append_right _ hmem

/-! ### A second operation -/

omit [Inhabited τ] in
/-- A single task can be popped and run. -/
theorem exists_fire (fused : Bool) {t : Timer.State (ℕ ⊕ β) τ δ} {x : ℕ ⊕ β}
    (hqueue : t.mgr.taskQueue = [x]) (hpopped : t.popped = []) :
    ∃ t₁ t₂, Timer.step fused t (.service (some x)) = some t₁ ∧
      Timer.step fused t₁ (.run x) = some t₂ ∧ t₂.mgr.taskQueue = [] ∧
      t₂.mgr.pending x = false ∧ t₂.popped = [] := by
  obtain ⟨t₁, ht₁⟩ : ∃ t₁, Timer.step fused t (.service (some x)) = some t₁ := by
    simp [Timer.step, Timer.Manager.popTask, hqueue]
  have hpopped₁ : t₁.popped = [x] := by
    rw [Timer.popped_step ht₁, hpopped]
    rfl
  obtain ⟨t₂, ht₂⟩ : ∃ t₂, Timer.step fused t₁ (.run x) = some t₂ := by
    simp [Timer.step, hpopped₁]
  refine ⟨t₁, t₂, ht₁, ht₂, ?_, ?_, ?_⟩
  · obtain ⟨-, rfl⟩ := Timer.step_run ht₂
    obtain ⟨m, hm, rfl⟩ := Timer.step_service ht₁
    simp only [Timer.Manager.popTask, hqueue] at hm
    cases hm
    rfl
  · rw [Timer.pending_step ht₂, Timer.pending_step ht₁]
    simp [Timer.Event.pendingAfter]
  · rw [Timer.popped_step ht₂, hpopped₁]
    simp [Timer.Event.poppedAfter]

/-- The periodic operation is in `phase`, its counter is `q` and that of the
repeat operation is `m`; there is no task but, while the child runs, the child's;
and no completion has returned. -/
structure Alone (m q : UInt32) (phase : Phase) (s : Repeated β τ δ) : Prop where
  running : s.outer.phase = .running
  counter : s.outer.pred = m
  state : s.outer.state.isSome = true
  sound : Sound s.inner
  popped : s.inner.timer.popped = []
  written : s.inner.written = []
  slot : ∃ op k, s.inner.slot = some op ∧ op.phase = phase ∧ op.pred = q ∧ op.state = some k ∧
    s.inner.timer.mgr.taskQueue = if phase = .running then [.inl k] else []

section Unsafe

variable {d : δ} {expiry : δ → τ → ExpirationProvider τ} {policy : ExpirationPolicy δ}
  {checksStop : Bool} {n m q : UInt32}

theorem Alone.fire {S : Sender UInt32 τ δ} {s : Repeated β τ δ} (h : Alone m q .running s) :
    ∃ tr s', Run (Repeated.step fused S n checksStop) s tr s' ∧ Alone m q .completing s' := by
  obtain ⟨op, k, hop, hphase, hpred, hstate, hqueue⟩ := h.slot
  obtain ⟨t₁, t₂, ht₁, ht₂, hqueue₂, hpending, hpopped⟩ :=
    exists_fire fused hqueue h.popped
  have hservice : s.step fused S n checksStop (.inner (.timer (.service (some (.inl k))))) =
      some { s with inner := { s.inner with timer := t₁ } } := by
    simp [Repeated.step, Event.isInternal, step, State.admits, ht₁]
  have hrun : Repeated.step fused S n checksStop { s with inner := { s.inner with timer := t₁ } }
      (.inner (.timer (.run (.inl k)))) =
      some { s with inner := { s.inner with timer := t₂ } } := by
    simp [Repeated.step, Event.isInternal, step, State.admits, State.live, hop, hstate, ht₂]
  have hcomplete : Repeated.step fused S n checksStop
      { s with inner := { s.inner with timer := t₂ } } (.inner (.complete k .value)) =
      some { s with inner := { s.inner with
        slot := some { op with phase := .completing }, timer := t₂ } } := by
    simp [Repeated.step, Event.isInternal, step, hop, hphase, hstate, hpending, hpopped]
  refine ⟨_, _, run_cons.mpr ⟨_, hservice, run_cons.mpr ⟨_, hrun, run_cons.mpr ⟨_, hcomplete,
    run_nil.mpr rfl⟩⟩⟩, ?_⟩
  have hsound₁ := sound_step h.sound hservice True.intro
  have hsound := sound_step (sound_step hsound₁ hrun True.intro) hcomplete True.intro
  exact ⟨h.running, h.counter, h.state, hsound, hpopped, h.written, _, k, rfl, rfl, hpred, hstate,
    hqueue₂⟩

theorem Alone.again {s : Repeated β τ δ} (h : Alone m q .completing s) (hq : (q == 0) = false) :
    ∃ tr s', Run (Repeated.step fused (periodicN d expiry policy checksStop) n checksStop) s tr s' ∧
      Alone m (q - 1) .running s' := by
  obtain ⟨op, k, hop, hphase, hpred, hstate, hqueue⟩ := h.slot
  subst hpred
  have hfresh : s.inner.timer.mgr.pending (.inl s.inner.next) = false := by
    by_contra hp
    exact Nat.lt_irrefl _ (h.sound.1 _ (by simpa using hp)).1
  obtain ⟨readings, tp', t', hschedule, hpending, hpopped, hqueue'⟩ :=
    exists_schedule fused (periodicN d expiry policy checksStop) (expiry d op.tp) op.tp hfresh
  have hevaluate : s.step fused (periodicN d expiry policy checksStop) n checksStop
      (.inner (.evaluate false)) = some { s with inner := { s.inner with
        slot := some { op with pred := op.pred - 1, phase := .restarting } } } := by
    simp [Repeated.step, Event.isInternal, step, hop, hphase, periodicN, hq]
  have hrestart : Repeated.step fused (periodicN d expiry policy checksStop) n checksStop
      { s with inner := { s.inner with
        slot := some { op with pred := op.pred - 1, phase := .restarting } } }
      (.inner (.restart (some readings))) =
        some { s with inner :=
          s.inner.started { op with pred := op.pred - 1, phase := .restarting } tp' t' } := by
    have hexpiry : (periodicN d expiry policy checksStop).expiry
        (periodicN d expiry policy checksStop).d op.tp = expiry d op.tp := rfl
    simp [Repeated.step, Event.isInternal, step, State.emplace, hexpiry, hschedule, State.started]
  refine ⟨_, _, run_cons.mpr ⟨_, hevaluate, run_cons.mpr ⟨_, hrestart, run_nil.mpr rfl⟩⟩, ?_⟩
  have hsound := sound_step (sound_step h.sound hevaluate True.intro) hrestart True.intro
  exact ⟨h.running, h.counter, h.state, hsound, hpopped.trans h.popped, h.written, _, _, rfl, rfl,
    rfl, rfl, hqueue' hqueue⟩

/-- The predicate says no until its counter is 0. -/
theorem Alone.last {s : Repeated β τ δ} (h : Alone m q .completing s) :
    ∃ tr s', Run (Repeated.step fused (periodicN d expiry policy checksStop) n checksStop) s tr s' ∧
      Alone m 0 .completing s' := by
  induction hj : q.toNat generalizing q s with
  | zero =>
      obtain rfl : q = 0 := UInt32.toNat_inj.mp hj
      exact ⟨[], s, run_nil.mpr rfl, h⟩
  | succ j ih =>
      have hq : (q == 0) = false := by
        rw [beq_eq_false_iff_ne]
        rintro rfl
        cases hj
      have hdec := toNat_sub_one hq
      obtain ⟨tr₁, s₁, hr₁, h₁⟩ := h.again hq
      obtain ⟨tr₂, s₂, hr₂, h₂⟩ := h₁.fire
      obtain ⟨tr₃, s₃, hr₃, h₃⟩ := ih h₂ (by omega)
      exact ⟨_, s₃, run_append.mpr ⟨s₁, hr₁, run_append.mpr ⟨s₂, hr₂, hr₃⟩⟩, h₃⟩

/-- The next operation is started from inside of the completion, and then the
completion returns. -/
theorem Alone.reuse {s : Repeated β τ δ} (h : Alone m 0 .completing s) (hm : (m == 0) = false) :
    ∃ tr s', Run (Repeated.step fused (periodicN d expiry policy checksStop) n checksStop) s tr s' ∧
      s'.inner.written = [some .running] ∧ ¬ s'.inner.Safe := by
  obtain ⟨op, k, hop, hphase, hpred, hstate, hqueue⟩ := h.slot
  obtain ⟨j, hj⟩ := Option.isSome_iff_exists.mp h.state
  have hrunning := h.running
  have hcounter := h.counter
  subst hcounter
  have hfresh : s.inner.timer.mgr.pending (.inl s.inner.next) = false := by
    by_contra hp
    exact Nat.lt_irrefl _ (h.sound.1 _ (by simpa using hp)).1
  obtain ⟨readings, tp', t', hschedule, hpending, -⟩ :=
    exists_schedule fused (periodicN d expiry policy checksStop) (firstExpiration d) default hfresh
  let done : Op UInt32 τ := { op with pred := op.pred - 1, phase := .completed }
  let looped : Repeat.State Unit UInt32 :=
    { s.outer with pred := s.outer.pred - 1, phase := .looping ⟨j, []⟩ }
  let args : Args Unit := ⟨j, []⟩
  have hevaluate : s.step fused (periodicN d expiry policy checksStop) n checksStop
      (.inner (.evaluate true)) = some { s with inner := { s.inner with
        slot := some { done with phase := .passing .value } } } := by
    simp [Repeated.step, Event.isInternal, step, hop, hphase, periodicN, hpred, done]
  have hcomplete : Repeated.step fused (periodicN d expiry policy checksStop) n checksStop
      { s with inner := { s.inner with slot := some { done with phase := .passing .value } } }
      (.outer (.complete j .value []) none) =
      some ⟨{ s.outer with phase := .completing .value args },
        { s.inner with slot := some done, frames := s.inner.frames + 1 }⟩ := by
    simp [Repeated.step, Repeat.step, hrunning, hj, induced, step, done, args]
  have hagain : Repeated.step fused (periodicN d expiry policy checksStop) n checksStop
      ⟨{ s.outer with phase := .completing .value args },
        { s.inner with slot := some done, frames := s.inner.frames + 1 }⟩
      (.outer (.evaluate j [] false) none) =
      some ⟨looped, { s.inner with slot := some done, frames := s.inner.frames + 1 }⟩ := by
    simp [Repeated.step, Repeat.step, repeatN, Repeat.repeatUntil, Repeat.State.read, induced, hm,
      looped, args]
  have hsetup : Repeated.step fused (periodicN d expiry policy checksStop) n checksStop
      ⟨looped, { s.inner with slot := some done, frames := s.inner.frames + 1 }⟩
      (.outer (.again j) none) =
      some ⟨{ looped.setup with phase := .ready (some args) }, { s.inner with
        slot := some ⟨n, default, none, .connected⟩
        frames := s.inner.frames + 1 }⟩ := by
    simp [Repeated.step, Repeat.step, repeatN, Repeat.repeatUntil, induced, step, State.unused,
      Op.unused, looped, done, args]
  have hbegin : Repeated.step fused (periodicN d expiry policy checksStop) n checksStop
      ⟨{ looped.setup with phase := .ready (some args) }, { s.inner with
        slot := some ⟨n, default, none, .connected⟩
        frames := s.inner.frames + 1 }⟩ (.outer (.begin false) (some readings)) =
      some ⟨{ looped.setup with phase := .running, calls := args :: s.outer.calls },
        { s.inner with
          slot := some ⟨n, tp', some s.inner.next, .running⟩
          next := s.inner.next + 1
          frames := s.inner.frames + 1
          timer := t' }⟩ := by
    have hd : (periodicN d expiry policy checksStop).d = d := rfl
    simp [Repeated.step, Repeat.step, Repeat.State.setup, repeatN, Repeat.repeatUntil, induced,
      step, State.emplace, hd, hschedule, looped]
  have hleave : Repeated.step fused (periodicN d expiry policy checksStop) n checksStop
      ⟨{ looped.setup with phase := .running, calls := args :: s.outer.calls },
        { s.inner with
          slot := some ⟨n, tp', some s.inner.next, .running⟩
          next := s.inner.next + 1
          frames := s.inner.frames + 1
          timer := t' }⟩ (.inner .leave) =
      some ⟨{ looped.setup with phase := .running, calls := args :: s.outer.calls },
        { s.inner with
          slot := some ⟨n, tp', none, .running⟩
          next := s.inner.next + 1
          timer := t'
          written := [some .running] }⟩ := by
    simp [Repeated.step, Event.isInternal, step, h.written]
  refine ⟨_, _, run_cons.mpr ⟨_, hevaluate, run_cons.mpr ⟨_, hcomplete, run_cons.mpr ⟨_, hagain,
    run_cons.mpr ⟨_, hsetup, run_cons.mpr ⟨_, hbegin, run_cons.mpr ⟨_, hleave,
      run_nil.mpr rfl⟩⟩⟩⟩⟩⟩, rfl, fun hsafe => ?_⟩
  have hlive := hsafe s.inner.next hpending
  simp [State.live] at hlive

/-- The repeat operation destroys the periodic operation and completes, and then the
completion returns. -/
theorem Alone.destroyed {s : Repeated β τ δ} (h : Alone 0 0 .completing s) :
    ∃ tr s', Run (Repeated.step fused (periodicN d expiry policy checksStop) n checksStop) s tr s' ∧
      s'.inner.written = [none] := by
  obtain ⟨op, k, hop, hphase, hpred, hstate, hqueue⟩ := h.slot
  obtain ⟨j, hj⟩ := Option.isSome_iff_exists.mp h.state
  let done : Op UInt32 τ := { op with pred := op.pred - 1, phase := .completed }
  let args : Args Unit := ⟨j, []⟩
  have hevaluate : s.step fused (periodicN d expiry policy checksStop) n checksStop
      (.inner (.evaluate true)) = some { s with inner := { s.inner with
        slot := some { done with phase := .passing .value } } } := by
    simp [Repeated.step, Event.isInternal, step, hop, hphase, periodicN, hpred, done]
  have hcomplete : Repeated.step fused (periodicN d expiry policy checksStop) n checksStop
      { s with inner := { s.inner with slot := some { done with phase := .passing .value } } }
      (.outer (.complete j .value []) none) =
      some ⟨{ s.outer with phase := .completing .value args },
        { s.inner with slot := some done, frames := s.inner.frames + 1 }⟩ := by
    simp [Repeated.step, Repeat.step, h.running, hj, induced, step, done, args]
  have hyes : Repeated.step fused (periodicN d expiry policy checksStop) n checksStop
      ⟨{ s.outer with phase := .completing .value args },
        { s.inner with slot := some done, frames := s.inner.frames + 1 }⟩
      (.outer (.evaluate j [] true) none) =
      some ⟨{ s.outer with pred := s.outer.pred - 1, phase := .resetting .value args },
        { s.inner with slot := some done, frames := s.inner.frames + 1 }⟩ := by
    simp [Repeated.step, Repeat.step, repeatN, Repeat.repeatUntil, Repeat.State.read, induced,
      h.counter, args]
  have hreset : Repeated.step fused (periodicN d expiry policy checksStop) n checksStop
      ⟨{ s.outer with pred := s.outer.pred - 1, phase := .resetting .value args },
        { s.inner with slot := some done, frames := s.inner.frames + 1 }⟩
      (.outer .reset none) =
      some ⟨{ s.outer with
          pred := s.outer.pred - 1
          state := none
          phase := .forwarding .value args },
        { s.inner with slot := none, frames := s.inner.frames + 1 }⟩ := by
    simp [Repeated.step, Repeat.step, induced, step, State.unused, Op.unused, done]
  have hdeliver : Repeated.step fused (periodicN d expiry policy checksStop) n checksStop
      ⟨{ s.outer with
          pred := s.outer.pred - 1
          state := none
          phase := .forwarding .value args },
        { s.inner with slot := none, frames := s.inner.frames + 1 }⟩
      (.outer (.deliver j .value []) none) =
      some ⟨{ s.outer with pred := s.outer.pred - 1, state := none, phase := .done },
        { s.inner with slot := none, frames := s.inner.frames + 1 }⟩ := by
    simp [Repeated.step, Repeat.step, Repeat.State.read, induced, args]
  have hleave : Repeated.step fused (periodicN d expiry policy checksStop) n checksStop
      ⟨{ s.outer with pred := s.outer.pred - 1, state := none, phase := .done },
        { s.inner with slot := none, frames := s.inner.frames + 1 }⟩ (.inner .leave) =
      some ⟨{ s.outer with pred := s.outer.pred - 1, state := none, phase := .done },
        { s.inner with slot := none, written := [none] }⟩ := by
    simp [Repeated.step, Event.isInternal, step, h.written]
  exact ⟨_, _, run_cons.mpr ⟨_, hevaluate, run_cons.mpr ⟨_, hcomplete, run_cons.mpr ⟨_, hyes,
    run_cons.mpr ⟨_, hreset, run_cons.mpr ⟨_, hdeliver, run_cons.mpr ⟨_, hleave,
      run_nil.mpr rfl⟩⟩⟩⟩⟩⟩, rfl⟩

variable (fused d expiry policy checksStop n) in
theorem exists_alone (m : UInt32) (expirationTime : ℕ ⊕ β → τ) : ∃ tr s,
    Run (Repeated.step fused (periodicN d expiry policy checksStop) n checksStop)
      (.init m expirationTime) tr s ∧ Alone m n .running s := by
  obtain ⟨readings, tp', t', hschedule, -, hpopped, hqueue⟩ :=
    exists_schedule fused (periodicN d expiry policy checksStop) (firstExpiration d) default
      (show (Timer.State.init expirationTime : Timer.State (ℕ ⊕ β) τ δ).mgr.pending (.inl 0) = false
        from rfl)
  have hd : (periodicN d expiry policy checksStop).d = d := rfl
  obtain ⟨s₁, hs₁, houter₁, hinner₁⟩ : ∃ s₁ : Repeated β τ δ,
      (Repeated.init m expirationTime).step fused (periodicN d expiry policy checksStop) n
        checksStop (.outer .start none) = some s₁ ∧
      s₁.outer = { (Repeat.State.init m).setup with phase := .ready none } ∧
      s₁.inner = ⟨some ⟨n, default, none, .connected⟩, 0, 0, .init expirationTime, []⟩ := by
    refine ⟨⟨_, _⟩, ?_, rfl, rfl⟩
    simp [Repeated.init, Repeated.step, Repeat.step, Repeat.State.init, induced, step, State.init,
      State.unused]
  obtain ⟨s₂, hs₂, houter₂, hinner₂⟩ : ∃ s₂ : Repeated β τ δ,
      s₁.step fused (periodicN d expiry policy checksStop) n checksStop
        (.outer (.begin false) (some readings)) = some s₂ ∧
      s₂.outer = { (Repeat.State.init m).setup with phase := .running } ∧
      s₂.inner = ⟨some ⟨n, tp', some 0, .running⟩, 1, 0, t', []⟩ := by
    refine ⟨⟨_, _⟩, ?_, rfl, rfl⟩
    simp [Repeated.step, Repeat.step, houter₁, hinner₁, Repeat.State.setup, Repeat.State.init,
      repeatN, Repeat.repeatUntil, induced, step, State.emplace, hd, hschedule]
  have hsound : Sound (Repeated.init m expirationTime : Repeated β τ δ).inner :=
    sound_init expirationTime
  have hsound₂ := sound_step (sound_step hsound hs₁ True.intro) hs₂ True.intro
  refine ⟨_, s₂, run_cons.mpr ⟨s₁, hs₁, run_cons.mpr ⟨s₂, hs₂, run_nil.mpr rfl⟩⟩, ?_⟩
  exact ⟨by rw [houter₂], by rw [houter₂]; rfl, by rw [houter₂]; rfl, hsound₂,
    by rw [hinner₂]; exact hpopped, by rw [hinner₂], _, 0, by rw [hinner₂], rfl, rfl, rfl,
    by rw [hinner₂]; exact hqueue rfl⟩

variable (fused d expiry policy checksStop n) in
/-- Whatever its period and its counter, the periodic operation is used again too
early if it is repeated. -/
theorem exists_not_safe (hm : (m == 0) = false) (expirationTime : ℕ ⊕ β → τ) : ∃ tr s,
    Run (Repeated.step fused (periodicN d expiry policy checksStop) n checksStop)
      (.init m expirationTime) tr s ∧ s.inner.written = [some .running] ∧ ¬ s.inner.Safe := by
  obtain ⟨tr₁, s₁, hr₁, h₁⟩ := exists_alone fused d expiry policy checksStop n m expirationTime
  obtain ⟨tr₂, s₂, hr₂, h₂⟩ := h₁.fire
  obtain ⟨tr₃, s₃, hr₃, h₃⟩ := h₂.last
  obtain ⟨tr₄, s₄, hr₄, h₄⟩ := h₃.reuse hm
  exact ⟨_, s₄, run_append.mpr ⟨s₁, hr₁, run_append.mpr ⟨s₂, hr₂, run_append.mpr ⟨s₃, hr₃, hr₄⟩⟩⟩,
    h₄⟩

variable (fused d expiry policy checksStop n) in
/-- The first completion that returns: to an operation that has been destroyed, or to
the next one, which is running. -/
theorem exists_written (m : UInt32) (expirationTime : ℕ ⊕ β → τ) : ∃ tr s,
    Run (Repeated.step fused (periodicN d expiry policy checksStop) n checksStop)
      (.init m expirationTime) tr s ∧
      s.inner.written = [if m = 0 then none else some .running] := by
  by_cases hm : m = 0
  · subst hm
    obtain ⟨tr₁, s₁, hr₁, h₁⟩ := exists_alone fused d expiry policy checksStop n 0 expirationTime
    obtain ⟨tr₂, s₂, hr₂, h₂⟩ := h₁.fire
    obtain ⟨tr₃, s₃, hr₃, h₃⟩ := h₂.last
    obtain ⟨tr₄, s₄, hr₄, h₄⟩ := h₃.destroyed
    exact ⟨_, s₄, run_append.mpr ⟨s₁, hr₁, run_append.mpr ⟨s₂, hr₂, run_append.mpr ⟨s₃, hr₃,
      hr₄⟩⟩⟩, h₄⟩
  · obtain ⟨tr, s, hr, hwritten, -⟩ := exists_not_safe fused d expiry policy checksStop n
      (by simpa using hm) expirationTime
    exact ⟨tr, s, hr, by rw [hwritten, if_neg hm]⟩

end Unsafe

/-! ### Periodic operations in one place -/

/-- `periodic_n(d, n)` inside `repeat_n(m)` after the run `tr`: the tasks that are
pending are those of a child that is there; and when nobody is stopped, the child
is not started more than `(n + 1) * (m + 1)` times, so often when the repeat
operation has completed, and until then there is something to be done or to be
waited for. -/
structure Upheld (fused : Bool) (S : Sender UInt32 τ δ) (n m : UInt32) (checksStop : Bool)
    (tr : List (RepeatedEvent β τ δ)) (s : Repeated β τ δ) : Prop where
  safe : s.inner.Safe
  bounded : (∀ e ∈ tr, e.isPlain = true) → starts tr ≤ (n.toNat + 1) * (m.toNat + 1)
  done : (∀ e ∈ tr, e.isPlain = true) → s.outer.phase = .done →
    starts tr = (n.toNat + 1) * (m.toNat + 1)
  goesOn : (∀ e ∈ tr, e.isPlain = true) → s.outer.phase ≠ .done →
    (∃ e, e.isOwn = true ∧ e.isPlain = true ∧ (s.step fused S n checksStop e).isSome = true) ∨
      s.Waits

/-- And nothing has been written to an operation after its completion. -/
structure Accomplished (fused : Bool) (S : Sender UInt32 τ δ) (n m : UInt32) (checksStop : Bool)
    (tr : List (RepeatedEvent β τ δ)) (s : Repeated β τ δ) : Prop
    extends Upheld fused S n m checksStop tr s where
  untouched : s.inner.written = []

theorem upheld_of_sound {d : δ} {expiry : δ → τ → ExpirationProvider τ}
    {policy : ExpirationPolicy δ} {checksStop : Bool} {n m : UInt32} {expirationTime : ℕ ⊕ β → τ}
    {tr : List (RepeatedEvent β τ δ)} {s : Repeated β τ δ}
    (h : Run (Repeated.step fused (periodicN d expiry policy checksStop) n checksStop)
      (.init m expirationTime) tr s) (hsound : Sound s.inner) :
    Upheld fused (periodicN d expiry policy checksStop) n m checksStop tr s := by
  obtain ⟨hjoined, hcounted⟩ := counted_of_run h
  refine ⟨hsound.1.safe, fun hplain => ?_, fun hplain hdone => ?_, fun hplain hdone => ?_⟩
  · have := (hcounted hplain).2
    omega
  · have := (hcounted hplain).2
    simpa [Repeated.left, hdone] using this
  · exact goes_on hjoined (hcounted hplain).1 hsound hdone

theorem accomplished_iff {d : δ} {expiry : δ → τ → ExpirationProvider τ}
    {policy : ExpirationPolicy δ} {checksStop : Bool} {n m : UInt32} {expirationTime : ℕ ⊕ β → τ}
    {tr : List (RepeatedEvent β τ δ)} {s : Repeated β τ δ}
    (h : Run (Repeated.step fused (periodicN d expiry policy checksStop) n checksStop)
      (.init m expirationTime) tr s) :
    Accomplished fused (periodicN d expiry policy checksStop) n m checksStop tr s ↔
      .inner .leave ∉ tr :=
  ⟨fun hs => (written_of_repeated h).mp hs.untouched, fun hleave =>
    ⟨upheld_of_sound h (sound_of_not_returned h hleave), (written_of_repeated h).mpr hleave⟩⟩

/-- Without the writes, `repeat_n(m)` over `periodic_n(d, n)` works in every run in
which none goes to an operation that has been destroyed, exactly when `m` is 0. -/
theorem upheld_iff (fused : Bool) (d : δ) (expiry : δ → τ → ExpirationProvider τ)
    (policy : ExpirationPolicy δ) (checksStop : Bool) (expirationTime : ℕ ⊕ β → τ)
    (n m : UInt32) : (∀ tr s,
      Run (Repeated.step fused (periodicN d expiry policy checksStop) n checksStop)
        (.init m expirationTime) tr s → none ∉ s.inner.written →
      Upheld fused (periodicN d expiry policy checksStop) n m checksStop tr s) ↔ m = 0 := by
  constructor
  · intro hall
    by_contra hm
    obtain ⟨tr, s, hr, hwritten, hunsafe⟩ :=
      exists_not_safe fused d expiry policy checksStop n (by simpa using hm) expirationTime
    exact hunsafe (hall tr s hr (by simp [hwritten])).safe
  · rintro rfl tr s hr hthere
    exact upheld_of_sound hr ((sound_of_once hr).2.2 hthere)

/-- A periodic operation leaves its place alone, and the pending tasks are those of
children that are there, exactly as long as no completion has returned to it; the
tasks by themselves also as long as each has returned to an operation that is there
and not in use. Inside `repeat_n(m)` there are for every `n` and `m` runs in which
one returns. -/
theorem periodic_storage (fused : Bool) (S : Sender P τ δ) (d : δ)
    (expiry : δ → τ → ExpirationProvider τ) (policy : ExpirationPolicy δ) (checksStop : Bool)
    (expirationTime : ℕ ⊕ β → τ) :
    (∀ tr s, Run (step fused S) (.init expirationTime) tr s →
      (s.Safe ∧ s.written = [] ↔ .leave ∉ tr) ∧
      (EachStep (step fused S) Quiet (.init expirationTime) tr → s.Safe)) ∧
    ∀ n m : UInt32,
      (∀ tr s, Run (Repeated.step fused (periodicN d expiry policy checksStop) n checksStop)
        (.init m expirationTime) tr s →
        (Accomplished fused (periodicN d expiry policy checksStop) n m checksStop tr s ↔
          .inner .leave ∉ tr)) ∧
      (¬ ∀ tr s, Run (Repeated.step fused (periodicN d expiry policy checksStop) n checksStop)
        (.init m expirationTime) tr s →
        Accomplished fused (periodicN d expiry policy checksStop) n m checksStop tr s) ∧
      ((∀ tr s, Run (Repeated.step fused (periodicN d expiry policy checksStop) n checksStop)
        (.init m expirationTime) tr s → none ∉ s.inner.written →
        Upheld fused (periodicN d expiry policy checksStop) n m checksStop tr s) ↔ m = 0) := by
  refine ⟨fun tr s h => ⟨untouched_of_run h, fun hquiet => (tracked_of_run h hquiet).safe⟩,
    fun n m => ⟨fun tr s h => accomplished_iff h, fun hall => ?_,
      upheld_iff fused d expiry policy checksStop expirationTime n m⟩⟩
  obtain ⟨tr, s, hr, hwritten⟩ :=
    exists_written fused d expiry policy checksStop n m expirationTime
  simp [(hall tr s hr).untouched] at hwritten

/-- The child is started once in each of two operations; the first frame of
`passthrough` comes back when the second child is scheduled. -/
def reuseTrace : List (RepeatedEvent Empty ℕ ℕ) :=
  [.outer .start none, .outer (.begin false) (some [0]),
    .inner (.timer (.service (some (.inl 0)))), .inner (.timer (.run (.inl 0))),
    .inner (.complete 0 .value), .inner (.evaluate true), .outer (.complete 0 .value []) none,
    .outer (.evaluate 0 [] false) none, .outer (.again 0) none,
    .outer (.begin false) (some [10]), .inner .leave]

/-- With `periodic_n(10, 0)` inside `repeat_n(1)` the task of the second child is
pending when the child has been destroyed. -/
theorem repeat_n_leaves_pending : ¬ ∀ (n m : UInt32) (tr : List (RepeatedEvent Empty ℕ ℕ))
    (s : Repeated Empty ℕ ℕ),
    Run (Repeated.step false (periodicN 10 safeImmediateExpiry .timepoint true) n true)
      (.init m fun _ => 0) tr s → s.inner.Safe := by
  intro h
  obtain ⟨s, hs⟩ : ∃ s, Run (Repeated.step false
      (periodicN 10 safeImmediateExpiry .timepoint true) 0 true) (.init 1 fun _ => 0)
      reuseTrace s := exists_run_iff.mpr rfl
  have hview : (exec (Repeated.step false (periodicN 10 safeImmediateExpiry .timepoint true) 0 true)
      (.init 1 fun _ => 0) reuseTrace).map (fun s : Repeated Empty ℕ ℕ =>
        (s.inner.timer.mgr.pending (.inl 1), s.inner.live 1)) = some (true, false) := rfl
  rw [show exec _ _ reuseTrace = some s from hs, Option.map_some] at hview
  simp only [Option.some.injEq, Prod.mk.injEq] at hview
  have hlive := h 0 1 reuseTrace s hs 1 hview.1
  rw [hview.2] at hlive
  cases hlive

end BaremetalSenders.Periodic
