import BaremetalSenders.Adaptors.TimeoutAfterStorage

/-!
`timeout_after` goes on until every call has returned, and what comes of it.

Whenever a call is in progress there is a step of the operation itself, of its
callbacks or of a call of `request_stop` that can be taken: if there is none, all
is quiet (`Stuck`). Everything else is up to the others: the timer has to be
served, the other child to complete, and stop to be requested.
-/

namespace BaremetalSenders.TimeoutAfter

open Join

variable {α τ δ κ V E : Type*} [DecidableEq α] [DecidableEq κ]

/-- The steps with which others begin something: stop is requested on the receiver's source, the
other child completes, `service_task` is called, and tasks and callbacks that are not the
operation's come and go. -/
def Op.begins (op : Op α κ τ δ V E) : Label α τ δ κ V E → Bool
  | .any .rcvrRequestStop | .any (.complete _ _) => true
  | .timeout (.timer (.run _)) | .timeout (.timer (.finish _)) => false
  | .timeout (.timer _) => true
  | .timeout (.source (.enterRegister cb)) | .timeout (.source (.unregister cb _)) =>
      cb != op.timer.stopCb
  | _ => false

variable [LT τ] [DecidableLT τ] [HAdd τ δ τ]
  {fused : Bool} {op : Op α κ τ δ V E} {s s' : State α τ δ κ V E}
  {tr : List (Label α τ δ κ V E)} {l : Label α τ δ κ V E} {expirationTime : α → τ}

/-! ### The calls of `request_stop` -/

/-- A child that has completed has called `request_stop`, or is about to. -/
theorem act_mem_iff {tr : List (Join.Label 2 V E)}
    {s : Join.State 2 V E (Option (Completion V E))}
    (h : Run (Join.step (anyOps V E)) (anyOps V E).initial tr s) (i : Fin 2) :
    .act i ∈ tr ↔ (∃ c, (s.phase i).completion = some c) ∧ (s.phase i).todo = [] := by
  refine Run.induction (P := fun tr s => .act i ∈ tr ↔
    (∃ c, (s.phase i).completion = some c) ∧ (s.phase i).todo = [])
    (by simp [Ops.initial, Phase.completion]) ?_ h
  intro tr s l s' hr ih hs
  have hrest (i : Fin 2) (c : Completion V E) (d) : (anyOps V E).rest i c d = [.requestStop] := by
    simp [anyOps, WhenAny.opState, WhenAny.operation, WhenAny.firstComplete]
  have hother {j : Fin 2} {p : Phase V E (Option (Completion V E))} {l : Join.Label 2 V E}
      (hl : l ≠ .act i)
      (hp : j = i → (p.completion = (s.phase j).completion ∧ p.todo = (s.phase j).todo)) :
      .act i ∈ tr ++ [l] ↔ (∃ c, (Function.update s.phase j p i).completion = some c) ∧
        (Function.update s.phase j p i).todo = [] := by
    rcases eq_or_ne i j with rfl | hne
    · simp [hl.symm, ih, (hp rfl).1, (hp rfl).2]
    · simp [hl.symm, ih, Function.update_of_ne hne]
  cases Join.step_move hs with
  | rcvrRequestStop | popStopCb | runStopCb | emplaceStopCb | startStopped | startChildren =>
      simpa using ih
  | @startChild j hpc =>
      have hidle := (Join.reached_of_run (by decide) hr).counted.idle_of_next hpc
      exact hother (by simp) fun _ => by simp [hidle, Phase.completion, Phase.todo]
  | @complete j c hphase =>
      rcases eq_or_ne i j with rfl | hne
      · simp [ih, hphase, hrest, Phase.completion, Phase.todo]
      · simp [ih, Function.update_of_ne hne]
  | @act j c a as hphase =>
      have hrec := (Join.reached_of_run (by decide) hr).recorded
      obtain ⟨d, hd⟩ := hrec.todo j c ((hrec.completion j c).mp (by rw [hphase]; rfl))
      obtain rfl : as = [] := by
        rw [hphase, hrest] at hd
        simpa [Phase.todo] using hd.length_le
      have hsame : (s.apply a).phase = s.phase := by cases a <;> rfl
      rcases eq_or_ne i j with rfl | hne
      · simp [Phase.completion, Phase.todo]
      · simp [ih, hsame, hne]
  | arrive hphase | arriveLast hphase | ignore hphase | resetStopCb hphase | finish hphase =>
      exact hother (by simp) fun _ => by simp [hphase, Phase.completion, Phase.todo]

theorem exchange_mem_iff (h : Run (step fused op) (.init expirationTime) tr s) (r : Caller) :
    .exchange r ∈ (tr.filterMap Label.timeoutLabel).filterMap TimeScheduler.Label.stopLabel ↔
      ∃ l, .any l ∈ tr ∧ requestOf l = some r := by
  -- `request_stop` is called by the `when_any` only.
  have hnot : ∀ l ∈ tr, l ≠ .timeout (.source (.exchange r)) := by
    refine h.forall_mem (I := fun _ => True) True.intro fun s l s' _ hs => ⟨True.intro, ?_⟩
    rintro rfl
    cases step_move hs with
    | timeout hadmits => simp [State.admits] at hadmits
  simp only [List.mem_filterMap]
  constructor
  · rintro ⟨l', ⟨l, hl, htimeout⟩, hstop⟩
    obtain rfl : l' = .source (.exchange r) := by
      cases l' <;> simp_all [TimeScheduler.Label.stopLabel]
    cases l with
    | any l =>
        obtain ⟨r', hr', heq⟩ := Option.map_eq_some_iff.mp htimeout
        cases heq
        exact ⟨l, hl, hr'⟩
    | destroy | send => cases htimeout
    | timeout l =>
        cases htimeout
        exact absurd rfl (hnot _ hl)
  · rintro ⟨l, hl, hr⟩
    exact ⟨.source (.exchange r), ⟨.any l, hl, by simp [Label.timeoutLabel, hr]⟩, rfl⟩

theorem idle_iff (h : Run (step fused op) (.init expirationTime) tr s) (r : Caller) :
    s.timeout.source.calls r = .idle ↔ ∀ l, .any l ∈ tr → requestOf l ≠ some r := by
  have hsource := TimeScheduler.source_of_run (timeout_of_run h)
  have hmem := exchange_mem_iff h r
  constructor
  · intro hidle l hl hr
    exact StopToken.ne_idle_of_exchange hsource (hmem.mpr ⟨l, hl, hr⟩) hidle
  · intro hnone
    by_contra hidle
    obtain ⟨l, hl, hr⟩ :=
      hmem.mp ((StopToken.reached_of_run hsource).called.exchanged r hidle)
    exact hnone l hl hr

/-- The stop callback of the `when_any` has not been run. -/
theorem idle_none (h : Run (step fused op) (.init expirationTime) tr s)
    (hcb : s.any.stopCb ≠ .spent) : s.timeout.source.calls none = .idle := by
  refine (idle_iff h none).mpr fun l hl hr => hcb ?_
  obtain rfl : l = .runStopCb := by cases l <;> simp_all [requestOf]
  exact (reached_of_run h).stopOk.spent.mpr (List.mem_filterMap.mpr ⟨_, hl, rfl⟩)

theorem idle_some_iff (h : Run (step fused op) (.init expirationTime) tr s) {i : Fin 2}
    {c : Completion V E} (hc : (s.any.phase i).completion = some c) :
    s.timeout.source.calls (some i) = .idle ↔ (s.any.phase i).todo ≠ [] := by
  have hact := act_mem_iff (any_of_run h) i
  rw [idle_iff h]
  constructor
  · intro hnone htodo
    obtain ⟨l, hl, hany⟩ := List.mem_filterMap.mp (hact.mpr ⟨⟨c, hc⟩, htodo⟩)
    cases l with
    | any l =>
        cases hany
        exact hnone _ hl rfl
    | send | destroy | timeout => cases hany
  · intro htodo l hl hr
    obtain rfl : l = .act i := by cases l <;> simp_all [requestOf]
    exact htodo (hact.mp (List.mem_filterMap.mpr ⟨_, hl, rfl⟩)).2

/-! ### If nothing can be done, all is quiet -/

variable (fused) in
/-- A call of the timer manager schedules the task. -/
theorem exists_schedule (policy : TimeScheduler.ExpirationPolicy τ δ) (t : α)
    (timer : Timer.State α τ δ) : ∃ readings added e timer',
      policy.schedule t readings added = some e ∧ Timer.step fused timer e = some timer' := by
  cases policy with
  | duration d =>
      let reading := timer.mgr.expirationTime t
      let added := (timer.mgr.runAfter fused t d reading).1
      exact ⟨[reading], added, .runAfter t d reading added,
        { timer with mgr := (timer.mgr.runAfter fused t d reading).2 }, rfl, if_pos rfl⟩
  | timepoint ep =>
      obtain ⟨readings, tp, htp⟩ := ep.exists_readings (timer.mgr.expirationTime t)
      obtain ⟨⟨added, m⟩, hm⟩ : ∃ r, timer.mgr.runAt t ep readings = some r := by
        simp only [Timer.Manager.runAt, Timer.Manager.scheduleAt, htp, Option.map_some]
        split <;> exact ⟨_, rfl⟩
      exact ⟨readings, added, .runAt t ep readings added, { timer with mgr := m }, rfl,
        by simp [Timer.step, hm]⟩

/-- No step is possible but those with which others begin something. -/
def Stuck (fused : Bool) (op : Op α κ τ δ V E) (s : State α τ δ κ V E) : Prop :=
  ∀ l, op.begins l = false → step fused op s l = none

section Stuck

variable (h : Run (step fused op) (.init expirationTime) tr s) (hfault : s.fault = false)
  (hst : Stuck fused op s)

include hfault hst

theorem Stuck.timeout {l : TimeScheduler.Label α τ δ κ Caller}
    (hl : op.begins (.timeout l) = false) (hadmits : s.admits op l = true) :
    TimeScheduler.step fused op.timer s.timeout l = none := by
  have hnone := hst _ hl
  simpa [step, act, hfault, hadmits] using hnone

theorem Stuck.source {l : StopToken.Label κ Caller}
    (hl : op.begins (.timeout (.source l)) = false) (hexchange : l.isExchange = false)
    (hadmits : s.timeout.admits op.timer l = true) :
    StopToken.step s.timeout.source l = none := by
  have hnone := Stuck.timeout hfault hst hl (by
    cases l <;> simp_all [State.admits, StopToken.Label.isExchange])
  simpa [TimeScheduler.step, hadmits] using hnone

/-- A step of the `when_any` whose call of `request_stop`, if it makes one, is its first. -/
theorem Stuck.any {l : Join.Label 2 V E} (hl : op.begins (.any l) = false)
    (hadmits : s.admitsAny l = true)
    (hidle : ∀ r, requestOf l = some r → s.timeout.source.calls r = .idle) :
    Join.step (anyOps V E) s.any l = none := by
  have hnone := hst _ hl
  simp only [step, act, hfault, hadmits, if_true, Bool.false_eq_true, if_false] at hnone
  by_contra hsome
  obtain ⟨any, hany⟩ := Option.ne_none_iff_exists'.mp hsome
  cases hr : requestOf l with
  | none => simp [hany, hr] at hnone
  | some r =>
      simp [hany, hr, TimeScheduler.step, TimeScheduler.State.admits, StopToken.step,
        hidle r hr] at hnone

theorem Stuck.mutex : s.timeout.source.mutex = none := by
  by_contra hmutex
  obtain ⟨⟨cb, b⟩, hm⟩ := Option.ne_none_iff_exists'.mp hmutex
  have hnone := Stuck.source hfault hst (l := .leaveRegister cb (!b)) rfl rfl rfl
  cases b <;> simp [StopToken.step, hm] at hnone

theorem Stuck.callback : s.timeout.stopCallback = .idle ∨ s.timeout.stopCallback = .done := by
  cases hcb : s.timeout.stopCallback with
  | idle => exact .inl rfl
  | done => exact .inr rfl
  | called =>
      have hnone := Stuck.timeout hfault hst
        (l := .cancel (s.timeout.timer.mgr.cancel op.timer.task).1) rfl rfl
      simp [TimeScheduler.step, hcb, Timer.step] at hnone
  | cancelled =>
      have hnone := Stuck.timeout hfault hst (l := .callbackSetStopped) rfl rfl
      simp [TimeScheduler.step, hcb] at hnone

include h

/-- Inside a call of the callback its body is done. -/
theorem Stuck.done
    (hmem : op.timer.stopCb ∈ StopToken.invocations
      ((tr.filterMap Label.timeoutLabel).filterMap TimeScheduler.Label.stopLabel)) :
    s.timeout.stopCallback = .done := by
  refine (Stuck.callback hfault hst).resolve_left fun hidle => ?_
  exact (TimeScheduler.calledOk_of_run (timeout_of_run h)).called.mp hidle hmem

/-- `start` of the timer's operation has returned, if it was called. -/
theorem Stuck.start (hphase : (s.any.phase 0).isIdle = false) :
    s.timeout.start.hasReturned = true := by
  have hrun := timeout_of_run h
  have hmutex := Stuck.mutex hfault hst
  have hlife := (TimeScheduler.lifeOk_of_run hrun).life
  cases hstart : s.timeout.start with
  | returned => rfl
  | connected =>
      have hnone := Stuck.timeout hfault hst (l := .check s.timeout.source.source.requested) rfl
        (by simp [State.admits, hphase])
      simp [TimeScheduler.step, hstart] at hnone
  | stopping =>
      have hnone := Stuck.timeout hfault hst (l := .setStopped) rfl rfl
      simp [TimeScheduler.step, hstart] at hnone
  | checked =>
      obtain ⟨readings, added, e, timer, he, ht⟩ := exists_schedule fused
        op.timer.policy op.timer.task s.timeout.timer
      have hnone := Stuck.timeout hfault hst (l := .schedule readings added) rfl rfl
      simp [TimeScheduler.step, hstart, he, ht] at hnone
  | scheduled =>
      have hnone := Stuck.source hfault hst (l := .enterRegister op.timer.stopCb)
        (by simp [Op.begins]) rfl (by simp [TimeScheduler.State.admits, hstart])
      rw [hstart] at hlife
      simp [StopToken.step, hmutex, show _ = StopToken.Life.unborn from hlife] at hnone
  | emplacing =>
      rw [hstart] at hlife
      cases hli : s.timeout.source.life op.timer.stopCb with
      | unborn => exact absurd hli hlife.1
      | destroyed => exact absurd hli hlife.2
      | constructing =>
          obtain ⟨b, hb⟩ :=
            StopToken.mutex_of_constructing (TimeScheduler.source_of_run hrun) hli
          simp [hmutex] at hb
      | registered | constructed =>
          have hnone := Stuck.timeout hfault hst (l := .startReturn) rfl rfl
          simp [TimeScheduler.step, hstart, TimeScheduler.State.emplaced, hli] at hnone
      | refused =>
          have hnone := Stuck.source hfault hst (l := .invoke op.timer.stopCb) rfl rfl rfl
          simp [StopToken.step, hli] at hnone
      | invoking =>
          have hdone := Stuck.done h hfault hst (StopToken.mem_invocations_of_invoking
            (TimeScheduler.reached_of_run hrun) hli)
          have hnone := Stuck.source hfault hst (l := .invoked op.timer.stopCb) rfl rfl
            (by simp [TimeScheduler.State.admits, hdone])
          simp [StopToken.step, hli] at hnone

theorem Stuck.requests (r : Caller) : s.timeout.source.calls r = .idle ∨
    ∃ won, s.timeout.source.calls r = .returned won := by
  have hmutex := Stuck.mutex hfault hst
  cases hr : s.timeout.source.calls r with
  | idle => exact .inl rfl
  | returned won => exact .inr ⟨won, rfl⟩
  | draining =>
      have hnone := Stuck.source hfault hst
        (l := .getNextCb r s.timeout.source.source.callbacks.head?) rfl rfl rfl
      cases hhead : s.timeout.source.source.callbacks.head? <;>
        simp [StopToken.step, hr, hmutex, hhead] at hnone
  | popped cb =>
      have hnone := Stuck.source hfault hst (l := .run r cb) rfl rfl rfl
      simp [StopToken.step, hr] at hnone
  | running cb =>
      have hadmits : s.timeout.admits op.timer (.ran r cb : StopToken.Label κ Caller) = true := by
        by_cases hcb : cb = op.timer.stopCb
        · subst hcb
          have hdone := Stuck.done h hfault hst (StopToken.mem_invocations_of_running
            (TimeScheduler.source_of_run (timeout_of_run h)) hr)
          simp [TimeScheduler.State.admits, hdone]
        · simp [TimeScheduler.State.admits, hcb]
      have hnone := Stuck.source hfault hst (l := .ran r cb) rfl rfl hadmits
      simp [StopToken.step, hr] at hnone

theorem Stuck.completions (i : Fin 2) (c : Completion V E)
    (hc : (s.any.phase i).completion = some c) : (s.any.phase i).returned = true := by
  by_contra hreturned
  obtain ⟨l, hl, s', hs⟩ : ∃ l ∈ [Join.Label.act i, .leave i, .resetStopCb i, .finish i],
      ∃ s', Join.step (anyOps V E) s.any l = some s' :=
    Join.exists_step hc (by simpa using hreturned)
  have hidle := idle_some_iff h hc
  simp only [List.mem_cons, List.not_mem_nil, or_false] at hl
  rcases hl with rfl | rfl | rfl | rfl
  · -- It is in front of its call of `request_stop`.
    have hnone := Stuck.any hfault hst (l := .act i) rfl rfl fun r hr => by
      obtain rfl : some i = r := by simpa [requestOf] using hr
      refine hidle.mpr fun htodo => ?_
      cases Join.step_move hs with
      | act hphase => simp [hphase, Phase.todo] at htodo
    simp [hs] at hnone
  · have hback : (s.timeout.source.calls (some i)).isReturned = true := by
      have hcall : s.timeout.source.calls (some i) ≠ .idle := fun hcall => by
        cases Join.step_move hs with
        | arrive hphase | arriveLast hphase | ignore hphase =>
            exact hidle.mp hcall (by rw [hphase]; rfl)
      obtain ⟨won, hwon⟩ := (Stuck.requests h hfault hst (some i)).resolve_left hcall
      simp [hwon, StopToken.Call.isReturned]
    have hnone := Stuck.any hfault hst (l := .leave i) rfl hback (by simp [requestOf])
    simp [hs] at hnone
  · have hnone := Stuck.any hfault hst (l := .resetStopCb i) rfl rfl (by simp [requestOf])
    simp [hs] at hnone
  · have hnone := Stuck.any hfault hst (l := .finish i) rfl rfl (by simp [requestOf])
    simp [hs] at hnone

/-- The stop callback of the `when_any` is not in front of its call of `request_stop`. -/
theorem Stuck.stopCb : s.any.stopCb ≠ .refused ∧ s.any.stopCb ≠ .popped := by
  have hcase (hcb : s.any.stopCb = .popped ∨ s.any.stopCb = .refused) : False := by
    have hidle := idle_none h (by rcases hcb with hcb | hcb <;> simp [hcb])
    have hnone := Stuck.any hfault hst (l := .runStopCb) rfl rfl fun r hr => by
      obtain rfl : none = r := by simpa [requestOf] using hr
      exact hidle
    simp [Join.step, hcb] at hnone
  exact ⟨fun hcb => hcase (.inr hcb), fun hcb => hcase (.inl hcb)⟩

theorem Stuck.pc : s.any.pc = .stopped ∨ s.any.pc = .starting 2 := by
  have hreached := reached_of_run h
  have hreturned : s.any.pc.returned 2 = true := by
    by_contra hpc
    obtain ⟨l, hl, s', hs⟩ := Join.exists_step_of_start (any_of_run h) (by simpa using hpc)
    rcases hl with hl | ⟨-, hcb⟩
    · have hadmits : s.admitsAny l = true := by
        cases l with
        | startChild i =>
            rcases Fin.exists_fin_two.mp ⟨i, rfl⟩ with rfl | rfl
            · rfl
            · -- The first child has been started, and its `start` has returned.
              have hpc : s.any.pc = .starting 1 := by
                cases Join.step_move hs with
                | startChild hpc => exact hpc
              have hphase : (s.any.phase 0).isIdle = false := by
                have hi := hreached.counted.idle_iff 0
                rw [hpc] at hi
                simpa [StartPc.started] using mt hi.mp (by simp [StartPc.started])
              simp [State.admitsAny, Stuck.start h hfault hst hphase]
        | emplaceStopCb | startStopped | startChildren => rfl
        | _ => cases hl
      have hbegins : op.begins (.any l) = false := by
        cases l <;> simp_all [Join.Label.ofStart, Op.begins]
      have hnone := Stuck.any hfault hst hbegins hadmits fun r hr => by
        cases l <;> simp_all [Join.Label.ofStart, requestOf]
      simp [hs] at hnone
    · exact (Stuck.stopCb h hfault hst).1 hcb
  cases hpc : s.any.pc with
  | stopped => exact .inl rfl
  | starting k => simp_all [StartPc.returned]
  | unstarted | stopCbEmplaced => simp [hpc, StartPc.returned] at hreturned

variable [IsStrictWeakOrder τ (· < ·)]

/-- What the timer's operation has completed with has been passed on. -/
theorem Stuck.sent (hreceived : s.timeout.received ≠ []) :
    ∃ c, (s.any.phase 0).completion = some c := by
  have hrun := timeout_of_run h
  have hphase : (s.any.phase 0).isIdle = false := by
    by_contra hidle
    obtain ⟨holder, -, hh⟩ := TimeScheduler.holds_of_run hrun
    obtain rfl := hh.eq_start (by
      simp [(linked_of_run h).started (by simpa using hidle), TimeScheduler.Start.begun])
    exact hreceived hh.received
  have hstart := Stuck.start h hfault hst hphase
  obtain ⟨r, hr⟩ : ∃ r, s.timeout.received = [r] := by
    refine List.length_eq_one_iff.mp (le_antisymm (TimeScheduler.length_received_le hrun) ?_)
    exact List.length_pos_iff.mpr hreceived
  cases hp : s.any.phase 0 with
  | idle => simp [hp, Phase.isIdle] at hphase
  | completing c | ignored c | done c | deciding c | finished c => exact ⟨c, rfl⟩
  | running =>
      have hdestroyed : r = .value → s.destroyed = true := by
        rintro rfl
        have hreturned := TimeScheduler.start_of_value hrun hr hstart
        have hlife := (TimeScheduler.lifeOk_of_run hrun).life
        rw [hreturned] at hlife
        rcases hlife with hlife | hlife | hlife
        · have hnone := Stuck.source hfault hst (l := .unregister op.timer.stopCb
            (s.timeout.source.pending op.timer.stopCb)) (by simp [Op.begins]) rfl
            (by simp [TimeScheduler.State.admits, hstart, hr])
          simp [StopToken.step, hlife, Stuck.mutex hfault hst] at hnone
        · have hnone := Stuck.source hfault hst (l := .unregister op.timer.stopCb
            (s.timeout.source.pending op.timer.stopCb)) (by simp [Op.begins]) rfl
            (by simp [TimeScheduler.State.admits, hstart, hr])
          simp [StopToken.step, hlife, Stuck.mutex hfault hst] at hnone
        · exact destroyed_of_life h hlife
      have hnone := hst (.send r) rfl
      obtain ⟨any, hany⟩ : ∃ any,
          Join.step (anyOps V E) s.any (.complete 0 (op.sends r)) = some any := by
        simp [Join.step, hp, anyOps, WhenAny.opState, WhenAny.operation]
      simp only [step, act, hfault, hany, if_pos (And.intro hr hdestroyed)] at hnone
      cases hnone

theorem Stuck.service :
    op.timer.task ∉ s.timeout.timer.popped ∧ op.timer.task ∉ s.timeout.timer.running := by
  have hrun := timeout_of_run h
  constructor
  · intro hmem
    obtain ⟨-, s', hs, -⟩ := (TimeScheduler.completes_of_run hrun).running hmem
    have hnone := Stuck.timeout hfault hst (l := .timer (.run op.timer.task)) rfl rfl
    simp [hs] at hnone
  · intro hmem
    have hreceived := TimeScheduler.received_of_running hrun hmem
    obtain ⟨c, hc⟩ := Stuck.sent h hfault hst (by simp [hreceived])
    have hreturned := Stuck.completions h hfault hst 0 c hc
    have hnone := Stuck.timeout hfault hst (l := .timer (.finish op.timer.task)) rfl
      (by simp [State.admits, hreturned])
    simp [TimeScheduler.step, TimeScheduler.Op.owns, Timer.step, hmem] at hnone

theorem quiet_of_stuck : Quiet op s where
  start := Stuck.pc h hfault hst
  requests := Stuck.requests h hfault hst
  stopCb := Stuck.stopCb h hfault hst
  rcvr := fun hreq hcb => by
    have hnone := Stuck.any hfault hst (l := .popStopCb) rfl rfl (by simp [requestOf])
    simp [Join.step, hreq, hcb] at hnone
  service := Stuck.service h hfault hst
  sent := Stuck.sent h hfault hst
  completions := Stuck.completions h hfault hst

end Stuck

/-! ### The result -/

variable [IsStrictWeakOrder τ (· < ·)]

structure Resolves (fused : Bool) (op : Op α κ τ δ V E) (tr : List (Label α τ δ κ V E))
    (s : State α τ δ κ V E) : Prop where
  /-- Nobody has touched the operation of the timer after it was destroyed. -/
  sound : s.fault = false
  once : s.any.received.length ≤ 1
  /-- The code goes on until every call has returned. -/
  goesOn : ¬ Quiet op s → ∃ l, op.begins l = false ∧ (step fused op s l).isSome = true
  /-- The other child can complete as soon as it has been started, and the timer can be served
  as long as there is a task. -/
  completes : s.any.phase 1 = .running → ∀ c, (step fused op s (.any (.complete 1 c))).isSome = true
  serves : ∀ t, s.timeout.timer.mgr.taskQueue.head? = some t →
    (step fused op s (.timeout (.timer (.service (some t))))).isSome = true
  /-- When the timer was served, the other child has completed or the receiver's stop was
  requested, and every call has returned, and the other child, if it was asked to stop, has
  completed, then the receiver has been completed. -/
  resolved : Quiet op s → (s.any.requested = true → s.any.phase 1 ≠ .running) →
    (.timeout (.timer (.finish op.timer.task)) ∈ tr ∨ (∃ c, .any (.complete 1 c) ∈ tr) ∨
      .any .rcvrRequestStop ∈ tr) → s.any.received.length = 1
  /-- It is completed by `start`, with no child started, or in the end. -/
  only : ∀ l s', step fused op s l = some s' → s'.any.received = s.any.received ∨
    l = .any .startStopped ∨ ∃ i, l = .any (.finish i)
  stopped : ∀ s', step fused op s (.any .startStopped) = some s' →
    s'.any.received = [.stopped] ∧ .any .rcvrRequestStop ∈ tr ∧
      s.timeout.timer.mgr.pending op.timer.task = false
  /-- In the end both children have completed. The receiver gets set_stopped if its stop was
  requested before; or else the timeout's completion, if the timer was served before the other
  child completed, or else what the other child completed with. -/
  delivered : ∀ i s', step fused op s (.any (.finish i)) = some s' →
    s.timeout.timer.mgr.pending op.timer.task = false ∧
      (∃ c, (0, c) ∈ op.completions tr) ∧ (∃ c, .any (.complete 1 c) ∈ tr) ∧
      (.any .rcvrRequestStop ∈ tr → s'.any.received = [.stopped]) ∧
      ∀ tr₁ c tr₂, tr = tr₁ ++ .any (.complete 1 c) :: tr₂ → .any .rcvrRequestStop ∉ tr →
        (.send .value ∈ tr₁ → s'.any.received = [op.completion]) ∧
        (.send .value ∉ tr₁ → s'.any.received = [c]) ∧
        -- It is sent by `service_task`, between the section that pops the task and its end.
        (.timeout (.timer (.finish op.timer.task)) ∈ tr₁ → .send .value ∈ tr₁) ∧
        (.send .value ∈ tr₁ → .timeout (.timer (.service (some op.timer.task))) ∈ tr₁)

theorem served_of_timeout (h : Run (step fused op) (.init expirationTime) tr s) :
    (.timeout (.timer (.finish op.timer.task)) ∈ tr → .send .value ∈ tr) ∧
      (.send .value ∈ tr → .timeout (.timer (.service (some op.timer.task))) ∈ tr) := by
  have hlinked := linked_of_run h
  have hmem {e : Timer.Event α τ δ} :
      .timer e ∈ tr.filterMap Label.timeoutLabel ↔ .timeout (.timer e) ∈ tr := by
    simp only [List.mem_filterMap]
    constructor
    · rintro ⟨l, hl, htimeout⟩
      cases l with
      | any l =>
          obtain ⟨r, -, hr⟩ := Option.map_eq_some_iff.mp htimeout
          cases hr
      | destroy | send => cases htimeout
      | timeout l =>
          cases htimeout
          exact hl
    · exact fun hl => ⟨_, hl, rfl⟩
  constructor
  · intro hfinish
    obtain ⟨c, hc⟩ := hlinked.finished hfinish
    obtain ⟨r, hr, -⟩ := hlinked.first c hc
    have hvalue := TimeScheduler.received_of_finish (timeout_of_run h) (hmem.mpr hfinish)
    obtain rfl : r = .value := by simpa [hvalue] using (hlinked.sent r hr).symm
    exact hr
  · intro hsend
    obtain ⟨holder, hr, hh⟩ := TimeScheduler.holds_of_run (timeout_of_run h)
    have hreceived := hh.received.symm.trans (hlinked.sent _ hsend)
    obtain rfl : holder = .discharged .value := by
      cases holder <;> simp_all [TimeScheduler.Holder.received]
    have hpop := (TimeScheduler.pop_iff hr).mpr (.inr rfl)
    exact hmem.mp ((TimeScheduler.mem_acts op.timer _).2.1.mp hpop)

/-- `timeout_after` completes its receiver once, with the completion that came first, in every
run in which the operation of the timer is destroyed when nobody has it in hand. -/
theorem resolves_of_run (h : Run (step fused op) (.init expirationTime) tr s)
    (horderly : EachStep (step fused op) (Orderly op) (.init expirationTime) tr) :
    Resolves fused op tr s := by
  have hreached := reached_of_run h
  have hraced := any_raced h
  have hfault := (departed_of_run h horderly).fault
  refine ⟨hfault, hreached.counted.received_le, fun hquiet => ?_, fun hphase c => ?_,
    fun t ht => ?_, fun hq hchild hcause => ?_, fun l s' hs => received_step hs, fun s' hs => ?_,
    fun i s' hs => ?_⟩
  · by_contra hnone
    refine hquiet (quiet_of_stuck h hfault fun l hl => ?_)
    by_contra hsome
    exact hnone ⟨l, hl, Option.isSome_iff_ne_none.mpr hsome⟩
  · simp [step, act, hfault, State.admitsAny, requestOf, Join.step, hphase, anyOps,
      WhenAny.opState, WhenAny.operation]
  · have hpop : s.timeout.timer.mgr.popTask.1 = some t := by
      obtain ⟨ts, hts⟩ := List.head?_eq_some_iff.mp ht
      simp [Timer.Manager.popTask, hts]
    simp [step, act, hfault, State.admits, TimeScheduler.step, TimeScheduler.Op.owns, Timer.step,
      hpop]
  · rw [← rcvrRequested_iff h] at hcause
    exact (resolved_of_quiet h hq hchild hcause).1
  · cases step_move hs with
    | request _ _ hr => cases hr
    | @any _ any _ hstep =>
        cases Join.step_move hstep with
        | startStopped hpc _ hreq =>
            have hidle := hreached.counted.idle_of_not_started (by rw [hpc]; rfl)
            have hnil : s.any.received = [] :=
              hreached.counted.received_nil (by simp [hpc]) fun j => by
                simp [hidle j, Phase.isFinished]
            have hrcvr := (rcvrRequested_iff h).mp (hreached.rcvrRequested hreq hidle)
            refine ⟨by simp [hnil], hrcvr, ?_⟩
            exact pending_of_connected h ((linked_of_run h).started (by rw [hidle 0]; rfl))
  · obtain ⟨any, hstep, hany⟩ : ∃ any, Join.step (anyOps V E) s.any (.finish i) = some any ∧
        s'.any = any := by
      cases step_move hs with
      | any _ hstep => exact ⟨_, hstep, rfl⟩
      | request _ _ hr => cases hr
    obtain ⟨hall, hreceived⟩ := hraced.delivered i any hstep
    obtain ⟨c₀, hc₀⟩ := hall 0
    obtain ⟨c₁, hc₁⟩ := hall 1
    obtain ⟨r, hr, -⟩ := (linked_of_run h).first c₀ hc₀
    refine ⟨pending_of_received h ((linked_of_run h).sent r hr), ⟨c₀, hc₀⟩,
      ⟨c₁, mem_second.mp hc₁⟩, fun hstop => ?_, fun tr₁ c tr₂ htr hnostop => ?_⟩
    · simp [hany, hreceived, (rcvrRequested_iff h).mpr hstop]
    · have hno : s.any.rcvrRequested = false := by
        simpa using mt (rcvrRequested_iff h).mp hnostop
      subst htr
      obtain ⟨hfirst, hsecond⟩ := earliest_eq h
      simp only [hno, Bool.and_false, Bool.false_eq_true, if_false] at hreceived
      rw [hany, hreceived]
      obtain ⟨s₁, h₁, -⟩ := run_append.mp h
      refine ⟨fun hsend => congrArg (fun c => [c]) (hfirst hsend), fun hnosend => ?_,
        served_of_timeout h₁⟩
      refine congrArg (fun c => [c]) (hsecond hnosend fun hmem => hnostop ?_)
      exact List.mem_append_left _ hmem

/-- The timer is served first; the error it sends makes the other child stop. -/
def timedOut : List (Label ℕ ℕ ℕ ℕ ℕ ℕ) :=
  [.any (.emplaceStopCb true), .any .startChildren, .any (.startChild 0),
    .timeout (.check false), .timeout (.schedule [0] true), .timeout (.source (.enterRegister 0)),
    .timeout (.source (.leaveRegister 0 true)), .timeout .startReturn, .any (.startChild 1),
    .timeout (.timer (.service (some 0))), .timeout (.timer (.run 0)),
    .timeout (.source (.unregister 0 true)), .send .value, .any (.act 0),
    .timeout (.source (.getNextCb (some 0) none)), .any (.leave 0), .timeout (.timer (.finish 0)),
    .any (.complete 1 .stopped), .any (.act 1), .any (.leave 1), .any (.resetStopCb 1),
    .any (.finish 1)]

def fiveTicks : Op ℕ ℕ ℕ ℕ ℕ ℕ := ⟨⟨0, 0, .duration 5⟩, .error 17⟩

theorem resolves_of_run_timedOut : ∃ s,
    Run (step true fiveTicks) (.init fun _ => 0) timedOut s ∧
      Resolves true fiveTicks timedOut s ∧ s.any.received = [.error 17] := by
  obtain ⟨s, hs⟩ : ∃ s, Run (step true fiveTicks) (.init fun _ => 0) timedOut s :=
    exists_run_iff.mpr rfl
  refine ⟨s, hs, resolves_of_run hs (by decide), ?_⟩
  have hview : (exec (step true fiveTicks) (.init fun _ => 0) timedOut).map
      (fun s => s.any.received) = some [.error 17] := rfl
  rw [show exec _ _ timedOut = some s from hs, Option.map_some] at hview
  exact Option.some.inj hview

/-- The timer interrupts `start` between `schedule` and `emplace`; then `start` goes on with the
operation that has been destroyed. -/
def servedInStart : List (Label ℕ ℕ ℕ ℕ ℕ ℕ) :=
  [.any (.emplaceStopCb true), .any .startChildren, .any (.startChild 0),
    .timeout (.check false), .timeout (.schedule [0] true), .timeout (.timer (.service (some 0))),
    .timeout (.timer (.run 0)), .destroy, .send .value, .any (.act 0),
    .timeout (.source (.getNextCb (some 0) none)), .any (.leave 0), .timeout (.timer (.finish 0)),
    .timeout (.source (.enterRegister 0))]

theorem fault_of_servedInStart : ¬ ∀ (tr : List (Label ℕ ℕ ℕ ℕ ℕ ℕ)) (s : State ℕ ℕ ℕ ℕ ℕ ℕ),
    Run (step true fiveTicks) (.init fun _ => 0) tr s → Resolves true fiveTicks tr s := by
  intro hevery
  obtain ⟨s, hs⟩ : ∃ s, Run (step true fiveTicks) (.init fun _ => 0) servedInStart s :=
    exists_run_iff.mpr rfl
  have hview : (exec (step true fiveTicks) (.init fun _ => 0) servedInStart).map
      (fun s => s.fault) = some true := rfl
  rw [show exec _ _ servedInStart = some s from hs, Option.map_some] at hview
  have hsound := (hevery _ s hs).sound
  rw [Option.some.inj hview] at hsound
  cases hsound

end BaremetalSenders.TimeoutAfter
