import BaremetalSenders.Adaptors.RepeatIteration

/-!
The two ways in which `repeat_until` and `retry_until` go on.

A child that completes synchronously does so inside of `begin_loop`, and what
its completion calls leaves behind is seen by the condition of the loop in
`start`: `state` holds the next child, or nothing. For any other child there is
no loop, and `begin_loop` is called by the completion. The machine with the loop
does what the one without does, and its loop ends when the receiver has been
completed; so both do what the reference does.
-/

namespace BaremetalSenders.Repeat

variable {V P : Type*}

/-- Where `start` is: not called; at the condition of its loop; in front of `begin_loop`; in
`begin_loop`; or through. -/
inductive LoopPc where
  | outside
  | condition
  | entered
  | inside
  | through
  deriving DecidableEq

/-- The operation state of a child that completes synchronously, with the loop in its `start`. -/
structure LoopState (V P : Type*) where
  op : State V P
  loop : LoopPc

def LoopState.init (p : P) : LoopState V P := ⟨.init p, .outside⟩

/-- What happens to the operation state; the condition of the loop; the return of `begin_loop`. -/
inductive LoopEvent (V : Type*) where
  | op (e : Event V)
  | hasValue (b : Bool)
  | back
  deriving DecidableEq

def LoopEvent.event : LoopEvent V → Option (Event V)
  | .op e => some e
  | _ => none

/-- The steps. `begin_loop` returns when the completion that it has led to has put the next
child into `state` or has completed the receiver. -/
def loopStep [DecidableEq V] (D : Driver V P) (mem : ℕ → ℕ → V) (s : LoopState V P) :
    LoopEvent V → Option (LoopState V P)
  | .op .start =>
      match s.loop with
      | .outside => (step D mem s.op .start).map fun op => ⟨op, .condition⟩
      | _ => none
  | .op (.begin stop) =>
      match s.loop with
      | .entered => (step D mem s.op (.begin stop)).map fun op => ⟨op, .inside⟩
      | _ => none
  | .op e =>
      match s.loop with
      | .inside => (step D mem s.op e).map fun op => ⟨op, .inside⟩
      | _ => none
  | .hasValue b =>
      match s.loop with
      | .condition =>
          if s.op.state.isSome = b then
            some { s with loop := if b then .entered else .through }
          else none
      | _ => none
  | .back =>
      match s.loop, s.op.phase with
      | .inside, .ready _ | .inside, .done => some { s with loop := .condition }
      | _, _ => none

variable [DecidableEq V] {D : Driver V P} {mem : ℕ → ℕ → V} {I : Inputs V} {p : P}

inductive LoopMove (D : Driver V P) (mem : ℕ → ℕ → V) (s : LoopState V P) :
    LoopEvent V → LoopState V P → Prop
  | start {op : State V P} (hloop : s.loop = .outside) (hs : step D mem s.op .start = some op) :
      LoopMove D mem s (.op .start) ⟨op, .condition⟩
  | begin {stop : Bool} {op : State V P} (hloop : s.loop = .entered)
      (hs : step D mem s.op (.begin stop) = some op) :
      LoopMove D mem s (.op (.begin stop)) ⟨op, .inside⟩
  | inside {e : Event V} {op : State V P} (hloop : s.loop = .inside)
      (hs : step D mem s.op e = some op) : LoopMove D mem s (.op e) ⟨op, .inside⟩
  | hasValue {b : Bool} (hloop : s.loop = .condition) (hb : s.op.state.isSome = b) :
      LoopMove D mem s (.hasValue b) { s with loop := if b then .entered else .through }
  | back (hloop : s.loop = .inside)
      (hphase : (∃ caller, s.op.phase = .ready caller) ∨ s.op.phase = .done) :
      LoopMove D mem s .back { s with loop := .condition }

theorem loopStep_move {s s' : LoopState V P} {l : LoopEvent V}
    (h : loopStep D mem s l = some s') : LoopMove D mem s l s' := by
  cases l with
  | op e =>
      cases e with
      | start =>
          simp only [loopStep] at h
          split at h
          · next hloop =>
              obtain ⟨op, hs, rfl⟩ := Option.map_eq_some_iff.mp h
              exact .start hloop hs
          · cases h
      | begin stop =>
          simp only [loopStep] at h
          split at h
          · next hloop =>
              obtain ⟨op, hs, rfl⟩ := Option.map_eq_some_iff.mp h
              exact .begin hloop hs
          · cases h
      | complete | evaluate | again | reset | deliver | loopFn =>
          simp only [loopStep] at h
          split at h
          · next hloop =>
              obtain ⟨op, hs, rfl⟩ := Option.map_eq_some_iff.mp h
              exact .inside hloop hs
          · cases h
  | hasValue b =>
      simp only [loopStep] at h
      split at h
      · next hloop =>
          split at h <;> cases h
          next hb => exact .hasValue hloop hb
      · cases h
  | back =>
      simp only [loopStep] at h
      split at h <;> cases h
      · next hloop hphase => exact .back hloop (.inl ⟨_, hphase⟩)
      · next hloop hphase => exact .back hloop (.inr hphase)

/-- The loop apart, it is the machine without the loop. -/
theorem run_of_loop {tr : List (LoopEvent V)} {t : LoopState V P}
    (h : Run (loopStep D mem) (.init p) tr t) :
    Run (step D mem) (.init p) (tr.filterMap LoopEvent.event) t.op := by
  refine h.project LoopState.op LoopEvent.event fun s l s' hs => ?_
  cases loopStep_move hs with
  | start _ hop | begin _ hop | inside _ hop => exact run_cons.mpr ⟨_, hop, run_nil.mpr rfl⟩
  | hasValue | back => exact run_nil.mpr rfl

/-! ### The end of the loop -/

/-- At the condition of the loop the next child is to be started, or the receiver has been
completed; past it the receiver has been completed. -/
structure LoopOk (t : LoopState V P) : Prop where
  condition : t.loop = .condition → (∃ caller, t.op.phase = .ready caller) ∨ t.op.phase = .done
  through : t.loop = .through → t.op.phase = .done

theorem loopOk_of_run {tr : List (LoopEvent V)} {t : LoopState V P}
    (h : Run (loopStep D mem) (.init p) tr t) : LoopOk t := by
  refine Run.induction (P := fun _ t => LoopOk t) ⟨by simp [LoopState.init],
    by simp [LoopState.init]⟩ ?_ h
  intro tr t l t' hr ih hs
  cases loopStep_move hs with
  | @start op _ hop =>
      refine ⟨fun _ => .inl ?_, by simp⟩
      cases step_move hop with
      | start => exact ⟨none, rfl⟩
  | begin | inside => exact ⟨by simp, by simp⟩
  | @hasValue b hloop hb =>
      refine ⟨by cases b <;> simp, fun hthrough => ?_⟩
      have hnone : t.op.state.isSome = false := by
        cases b with
        | false => exact hb
        | true => cases hthrough
      rcases ih.condition hloop with ⟨caller, hp⟩ | hdone
      · have hphase := (inv_of_run (run_of_loop hr)).phase
        simp only [PhaseOk, hp] at hphase
        obtain ⟨⟨k, hk, -⟩, -⟩ := hphase
        rw [hk] at hnone
        cases hnone
      · exact hdone
  | back hloop hphase => exact ⟨fun _ => hphase, by simp⟩

/-! ### The loop does what the calls do -/

/-- Where the loop is when everything else has been done. -/
def Phase.loop : Phase V → LoopPc
  | .idle => .outside
  | .ready _ => .condition
  | .done => .through
  | _ => .inside

/-- The steps of the loop that come with a step of the operation state. -/
def withLoop : Event V → List (LoopEvent V)
  | .begin stop => [.hasValue true, .op (.begin stop)]
  | .again k => [.op (.again k), .back]
  | .deliver k ch vals => [.op (.deliver k ch vals), .back, .hasValue false]
  | e => [.op e]

omit [DecidableEq V] in
theorem filterMap_withLoop (e : Event V) : (withLoop e).filterMap LoopEvent.event = [e] := by
  cases e <;> rfl

/-- A step of the operation state that calls no loop function is one with the loop. -/
theorem withLoop_step {tr : List (Event V)} {s s' : State V P} {e : Event V}
    (hr : Run (step D mem) (.init p) tr s) (hcalls : s.calls = [])
    (hloopFn : D.callsLoopFn = false) (hs : step D mem s e = some s') :
    Run (loopStep D mem) ⟨s, s.phase.loop⟩ (withLoop e) ⟨s', s'.phase.loop⟩ ∧ s'.calls = [] := by
  have hphase := (inv_of_run hr).phase
  cases step_move hs with
  | start hp => exact ⟨by simp [withLoop, loopStep, Phase.loop, hp, hs], hcalls⟩
  | beginStop hp hk => exact ⟨by simp [withLoop, loopStep, Phase.loop, hp, hk, hs], hcalls⟩
  | begin hp hk =>
      refine ⟨by simp [withLoop, loopStep, Phase.loop, hp, hk, hs], ?_⟩
      simpa [hloopFn] using hcalls
  | complete hp => exact ⟨by simp [withLoop, loopStep, Phase.loop, hp, hs], hcalls⟩
  | @evaluate args vals stop hp =>
      refine ⟨?_, hcalls⟩
      cases stop <;> simp [withLoop, loopStep, Phase.loop, hp, hs]
  | again hp => exact ⟨by simp [withLoop, loopStep, Phase.loop, hp, hs], hcalls⟩
  | pass hp => exact ⟨by simp [withLoop, loopStep, Phase.loop, hp, hs], hcalls⟩
  | reset hp => exact ⟨by simp [withLoop, loopStep, Phase.loop, hp, hs], hcalls⟩
  | deliver hp =>
      simp only [PhaseOk, hp] at hphase
      exact ⟨by simp [withLoop, loopStep, Phase.loop, hp, hs, hphase.1], hcalls⟩
  | loopFn hargs => simp [hcalls] at hargs

/-- Every run without the loop is one with it. -/
theorem exists_loop_run (hloopFn : D.callsLoopFn = false) {tr : List (Event V)} {s : State V P}
    (h : Run (step D mem) (.init p) tr s) :
    ∃ tr' t, Run (loopStep D mem) (.init p) tr' t ∧ tr'.filterMap LoopEvent.event = tr := by
  obtain ⟨tr', t, hrun, hfilter, -, -⟩ : ∃ tr' t, Run (loopStep D mem) (.init p) tr' t ∧
      tr'.filterMap LoopEvent.event = tr ∧ (∀ l ∈ tr', True) ∧
        t = ⟨s, s.phase.loop⟩ ∧ s.calls = [] := by
    refine h.lift (C := fun _ => True) (Q := fun _ => True) LoopEvent.event
      (R := fun s (t : LoopState V P) => t = ⟨s, s.phase.loop⟩ ∧ s.calls = []) ⟨rfl, rfl⟩ ?_
      fun _ _ => True.intro
    rintro tr s tr' _ e s' hr - - - ⟨rfl, hcalls⟩ - hs
    obtain ⟨hrun, hcalls'⟩ := withLoop_step hr hcalls hloopFn hs
    exact ⟨withLoop e, _, hrun, filterMap_withLoop e, fun _ _ => True.intro, rfl, hcalls'⟩
  exact ⟨tr', t, hrun, hfilter⟩

/-! ### The two paths -/

/-- A sequence that is observed in some run with the loop. -/
def LoopObserved (D : Driver V P) (mem : ℕ → ℕ → V) (I : Inputs V) (p : P)
    (l : List (Observation V)) : Prop :=
  ∃ tr t, Run (loopStep D mem) (.init p) tr t ∧
    EachStep (step D mem) (Follows D I) (.init p) (tr.filterMap LoopEvent.event) ∧
    observed (tr.filterMap LoopEvent.event) = l

theorem loopObserved_iff (hloopFn : D.callsLoopFn = false) {l : List (Observation V)} :
    LoopObserved D mem I p l ↔ ∃ n, l <+: iterate D mem I n 0 p := by
  rw [← observed_iff]
  constructor
  · rintro ⟨tr, t, hrun, hfollows, hobs⟩
    exact ⟨_, t.op, run_of_loop hrun, hfollows, hobs⟩
  · rintro ⟨tr, s, hrun, hfollows, hobs⟩
    obtain ⟨tr', t, hrun', rfl⟩ := exists_loop_run hloopFn hrun
    exact ⟨tr', t, hrun', hfollows, hobs⟩

/-- What holds of the operation state of a child that completes synchronously and of that of
any other child, `D true` and `D false`. -/
structure Implements (D : Bool → Driver V P) (mem : ℕ → ℕ → V) (I : Inputs V) (p : P) :
    Prop where
  /-- What is observed are the beginnings of what the reference does, and the reference is the
  same for both. -/
  loop : ∀ l, LoopObserved (D true) mem I p l ↔ ∃ n, l <+: iterate (D false) mem I n 0 p
  calls : ∀ l, Observed (D false) mem I p l ↔ ∃ n, l <+: iterate (D false) mem I n 0 p
  /-- When the loop is over the receiver has been completed. -/
  through : ∀ tr t, Run (loopStep (D true) mem) (.init p) tr t → t.loop = .through →
    t.op.phase = .done
  /-- The predicate is asked once about each completion on the looped channel. -/
  once : ∀ isSync tr s, Run (step (D isSync) mem) (.init p) tr s →
    tr.filterMap Event.evaluated ++ (s.toEvaluate (D isSync).looped).toList =
      tr.filterMap (Event.loopedOn (D isSync).looped)

theorem implements {D : Bool → Driver V P} (hloopFn : (D true).callsLoopFn = false)
    (hsame : iterate (D true) mem I = iterate (D false) mem I) (p : P) :
    Implements D mem I p where
  loop := fun l => by rw [loopObserved_iff hloopFn, hsame]
  calls := fun l => observed_iff
  through := fun _ _ h => (loopOk_of_run h).through
  once := fun _ _ _ h => evaluated_of_run h

/-- `repeat_n` with a child that always succeeds and is not prevented from starting: everything
that is observed is a beginning of a sequence with `n + 1` starts and a value at the end. -/
structure CountsDown (checksStop : Bool) (mem : ℕ → ℕ → V) (I : Inputs V) (n : UInt32)
    (l : List (Observation V)) : Prop where
  loop : ∀ l', LoopObserved (repeatN true checksStop) mem I n l' ↔ l' <+: l
  calls : ∀ l', Observed (repeatN false checksStop) mem I n l' ↔ l' <+: l
  starts : l.count .started = n.toNat + 1
  finished : l.getLast? = some (.finished n.toNat .value)

theorem countsDown {checksStop : Bool} {n : UInt32} (hvalue : ∀ k, (I.outcome k).1 = .value)
    (hstop : ∀ k, (checksStop && I.stop k) = false) :
    CountsDown checksStop mem I n (countdown mem I n.toNat 0) := by
  have hreference (isSync : Bool) (l : List (Observation V)) :
      (∃ m, l <+: iterate (repeatN isSync checksStop) mem I m 0 n) ↔
        l <+: countdown mem I n.toNat 0 := by
    constructor
    · rintro ⟨m, hl⟩
      have hlong := hl.trans (iterate_mono (Nat.le_add_right m (n.toNat + 1)) 0 n)
      rwa [iterate_repeatN hvalue hstop (by omega)] at hlong
    · intro hl
      exact ⟨n.toNat + 1, by rwa [iterate_repeatN hvalue hstop (by omega)]⟩
  constructor
  · intro l
    rw [loopObserved_iff rfl, hreference]
  · intro l
    rw [observed_iff, hreference]
  · exact count_countdown _ _
  · rw [getLast?_countdown, Nat.zero_add]

/-- `repeat_until` and `retry_until` do what the reference does, whether the child completes
synchronously or not; `repeat_n` starts a child that always succeeds `n + 1` times. -/
theorem reference_iteration :
    (∀ (pred : P → List V → Bool × P) checksStop (mem : ℕ → ℕ → V) (I : Inputs V) p,
      Implements (fun isSync => repeatUntil pred isSync checksStop) mem I p) ∧
    (∀ (pred : P → List V → Bool × P) checksStop (mem : ℕ → ℕ → V) (I : Inputs V) p,
      Implements (fun isSync => retryUntil pred isSync checksStop) mem I p) ∧
    ∀ checksStop (mem : ℕ → ℕ → V) (I : Inputs V) (n : UInt32),
      (∀ k, (I.outcome k).1 = .value) → (∀ k, (checksStop && I.stop k) = false) →
        ∃ l, CountsDown checksStop mem I n l := by
  exact ⟨fun pred checksStop mem I p => implements rfl (iterate_congr rfl rfl rfl) p,
    fun pred checksStop mem I p => implements rfl (iterate_congr rfl rfl rfl) p,
    fun checksStop mem I n hvalue hstop => ⟨_, countsDown hvalue hstop⟩⟩

/-- A child that succeeds each time with nothing to send. -/
def alwaysValue : Inputs ℕ where
  outcome := fun _ => (.value, [])
  stop := fun _ => false
  within := fun _ => rfl

theorem reference_iteration_two :
    ∃ l, CountsDown false (fun _ _ => 0) alwaysValue 2 l :=
  (reference_iteration (P := Unit)).2.2 false (fun _ _ => 0) alwaysValue 2 (fun _ => rfl)
    fun _ => rfl

end BaremetalSenders.Repeat
