import BaremetalSenders.Schedulers.TimeSchedulerCallback

/-!
Who completes the receiver of a stoppable `time_scheduler` operation.

At every moment one party holds the duty to complete the receiver: `start`, the
timer manager while the task is pending, the activation of `service_task` that
has popped the task, or the callback that has cancelled it. The duty changes
hands where the pending flag is cleared, and this is done once, by `cancel` or
by `service_task`. `Holder` is the abstract machine that says so, with a few
short histories; `Holds` ties the operation to it, whatever the order of the
steps of `start`, of the timer and of the callers of `request_stop`.
-/

namespace BaremetalSenders.TimeScheduler

/-! ### The duty to complete the receiver -/

/-- Who has to complete the receiver. -/
inductive Holder where
  | start
  | manager
  | activation
  | callback
  | discharged (c : Completion)
  deriving DecidableEq

inductive Act where
  | refuse
  | schedule
  | pop
  | run
  | cancel
  | deliver
  deriving DecidableEq

def Holder.step : Holder → Act → Option Holder
  | .start, .refuse => some (.discharged .stopped)
  | .start, .schedule => some .manager
  | .manager, .pop => some .activation
  | .manager, .cancel => some .callback
  | .activation, .run => some (.discharged .value)
  | .callback, .deliver => some (.discharged .stopped)
  | _, _ => none

def Holder.received : Holder → List Completion
  | .discharged c => [c]
  | _ => []

/-- How the duty can have got there. -/
def Holder.histories : Holder → List (List Act)
  | .start => [[]]
  | .manager => [[.schedule]]
  | .activation => [[.schedule, .pop]]
  | .callback => [[.schedule, .cancel]]
  | .discharged .value => [[.schedule, .pop, .run]]
  | .discharged .stopped => [[.refuse], [.schedule, .cancel, .deliver]]

theorem mem_histories_of_run {acts : List Act} {h : Holder}
    (hr : Run Holder.step .start acts h) : acts ∈ h.histories := by
  refine Run.induction (P := fun acts h => acts ∈ h.histories) (by simp [Holder.histories]) ?_ hr
  intro acts h act h' _ ih hs
  cases h <;> cases act <;> cases hs <;> simp_all [Holder.histories]

theorem eq_of_refuse {acts : List Act} {h : Holder} (hr : Run Holder.step .start acts h)
    (hmem : .refuse ∈ acts) : h = .discharged .stopped := by
  have hhist := mem_histories_of_run hr
  cases h with
  | discharged c =>
      cases c with
      | stopped => rfl
      | value => simp_all [Holder.histories]
  | start | manager | activation | callback => simp_all [Holder.histories]

theorem pop_iff {acts : List Act} {h : Holder} (hr : Run Holder.step .start acts h) :
    .pop ∈ acts ↔ h = .activation ∨ h = .discharged .value := by
  have hhist := mem_histories_of_run hr
  cases h with
  | discharged c =>
      cases c with
      | value => simp_all [Holder.histories]
      | stopped => rcases List.mem_pair.mp hhist with rfl | rfl <;> simp
  | start | manager | activation | callback => simp_all [Holder.histories]

theorem eq_of_run {acts : List Act} {h : Holder} (hr : Run Holder.step .start acts h)
    (hmem : .run ∈ acts) : h = .discharged .value := by
  have hhist := mem_histories_of_run hr
  cases h with
  | discharged c =>
      cases c with
      | value => rfl
      | stopped => rcases List.mem_pair.mp hhist with rfl | rfl <;> simp at hmem
  | start | manager | activation | callback => simp_all [Holder.histories]

theorem stopped_iff {acts : List Act} {c : Completion}
    (hr : Run Holder.step .start acts (.discharged c)) :
    c = .stopped ↔ .cancel ∈ acts ∨ .refuse ∈ acts := by
  have hhist := mem_histories_of_run hr
  cases c with
  | value => simp_all [Holder.histories]
  | stopped => rcases List.mem_pair.mp hhist with rfl | rfl <;> simp

variable {α τ δ κ ρ : Type*} [DecidableEq α] [DecidableEq κ]

def Op.act (op : Op α κ τ δ) : Label α τ δ κ ρ → Option Act
  | .setStopped => some .refuse
  | .schedule _ _ => some .schedule
  | .timer (.service (some t)) => if t = op.task then some .pop else none
  | .timer (.run t) => if t = op.task then some .run else none
  | .cancel true => some .cancel
  | .callbackSetStopped => some .deliver
  | _ => none

variable [DecidableEq ρ] [LT τ] [DecidableLT τ] [HAdd τ δ τ]
  {fused : Bool} {op : Op α κ τ δ} {s s' : State α τ δ κ ρ}
  {tr : List (Label α τ δ κ ρ)} {l : Label α τ δ κ ρ} {expirationTime : α → τ}

/-! ### The branches of `start` -/

structure Branch (tr : List (Label α τ δ κ ρ)) (s : State α τ δ κ ρ) : Prop where
  found : .check true ∈ tr ↔ s.start = .stopping ∨ s.start = .returned false
  refused : .setStopped ∈ tr ↔ s.start = .returned false

omit [DecidableEq α] [DecidableEq κ] [DecidableEq ρ] [LT τ] [DecidableLT τ] [HAdd τ δ τ] in
theorem branch_init : Branch [] (.init expirationTime : State α τ δ κ ρ) := by
  constructor <;> simp [State.init]

omit [DecidableEq α] [DecidableEq κ] [DecidableEq ρ] [LT τ] [DecidableLT τ] [HAdd τ δ τ] in
/-- A step that is not one of `start` on its way to `set_stopped`. -/
theorem Branch.other (h : Branch tr s) (hl : l ≠ .check true ∧ l ≠ .setStopped)
    (hstopping : s'.start = .stopping ↔ s.start = .stopping)
    (hreturned : s'.start = .returned false ↔ s.start = .returned false) :
    Branch (tr ++ [l]) s' := by
  constructor
  · rw [hstopping, hreturned, ← h.found]
    simp [hl.1.symm]
  · rw [hreturned, ← h.refused]
    simp [hl.2.symm]

theorem Branch.step (h : Branch tr s) (hs : step fused op s l = some s') :
    Branch (tr ++ [l]) s' := by
  cases step_move hs with
  | found hstart => exact ⟨by simp, by simpa [hstart] using h.refused⟩
  | setStopped hstart => exact ⟨by simpa [hstart] using h.found, by simp⟩
  | checked hstart | schedule hstart | startReturn hstart =>
      exact h.other (by simp) (by simp [hstart]) (by simp [hstart])
  | cancel | callbackSetStopped | timer => exact h.other (by simp) .rfl .rfl
  | @source l source hadmits _ =>
      by_cases hl : l = .enterRegister op.stopCb
      · subst hl
        have hstart : s.start = .scheduled := by simpa [State.admits] using hadmits
        exact h.other (by simp) (by simp [State.follow, hstart]) (by simp [State.follow, hstart])
      · exact h.other (by simp) (by simp [follow_start_of_ne hl])
          (by simp [follow_start_of_ne hl])

/-- `start` finds stop requested when a call of `request_stop` has done its exchange before. -/
theorem check_iff (h : Run (step fused op) (.init expirationTime) tr s) :
    .check true ∈ tr ↔
      ∃ tr₁ b tr₂, tr = tr₁ ++ .check b :: tr₂ ∧ ∃ r, .source (.exchange r) ∈ tr₁ := by
  have hflag {tr₁ tr₂ : List (Label α τ δ κ ρ)} {b : Bool} (htr : tr = tr₁ ++ .check b :: tr₂) :
      b = true ↔ ∃ r, .source (.exchange r) ∈ tr₁ := by
    obtain ⟨s₁, h₁, h₂⟩ := run_append.mp (htr ▸ h)
    obtain ⟨s₂, hs, -⟩ := run_cons.mp h₂
    have hreq : s₁.source.source.requested = b := by
      simp only [step] at hs
      split at hs
      next hc => exact hc.2
      next => cases hs
    rw [← hreq, (reached_of_run h₁).requested_iff]
    simp only [mem_stopLabels]
  constructor
  · intro hmem
    obtain ⟨tr₁, tr₂, htr⟩ := List.append_of_mem hmem
    exact ⟨tr₁, true, tr₂, htr, (hflag htr).mp rfl⟩
  · rintro ⟨tr₁, b, tr₂, htr, hr⟩
    obtain rfl := (hflag htr).mpr hr
    simp [htr]

theorem lifeOk_of_run (h : Run (step fused op) (.init expirationTime) tr s) : LifeOk op s :=
  Run.induction (P := fun _ s => LifeOk op s) lifeOk_init
    (fun _ _ _ _ hr ih hs => ih.step (reached_of_run hr).listOk hs) h

theorem calledOk_of_run (h : Run (step fused op) (.init expirationTime) tr s) :
    CalledOk op tr s :=
  Run.induction (P := CalledOk op) calledOk_init
    (fun _ _ _ _ hr ih hs => ih.step (lifeOk_of_run hr) (source_of_run hr) hs) h

theorem branch_of_run (h : Run (step fused op) (.init expirationTime) tr s) : Branch tr s :=
  Run.induction (P := Branch) branch_init (fun _ _ _ _ _ ih hs => ih.step hs) h

/-- When the winning call of `request_stop` has returned, and `start`, the callback is through,
or the operation has been completed before it was destroyed. -/
theorem stopCallback_of_returned (h : Run (step fused op) (.init expirationTime) tr s)
    (hstart : s.start = .returned true) {r : ρ} (hr : s.source.calls r = .returned true) :
    s.stopCallback = .done ∨ s.received ≠ [] := by
  have hlife := lifeOk_of_run h
  have hcalled := calledOk_of_run h
  have hmatch := hlife.life
  rw [hstart] at hmatch
  rcases hmatch with hreg | hcon | hdes
  · exact .inl (hcalled.ran ((reached_of_run h).completed_of_returned hr hreg))
  · exact .inl (hcalled.constructed hcon)
  · exact .inr (hlife.destroyed hdes)

/-! ### What the others can see of it -/

theorem requested_step (h : step fused op s l = some s') :
    s'.source.source.requested =
      (s.source.source.requested || l.stopLabel.any StopToken.Label.isExchange) := by
  cases step_move h with
  | source _ hs => exact StopToken.requested_step hs
  | found | checked | setStopped | schedule | startReturn | cancel | callbackSetStopped | timer =>
      exact (Bool.or_false _).symm

/-- On the way to a set_stopped, stop has been requested. -/
theorem requested_of_run (h : Run (step fused op) (.init expirationTime) tr s) :
    s.start = .stopping ∨ s.stopCallback ≠ .idle → s.source.source.requested = true := by
  refine Run.induction (P := fun _ s => s.start = .stopping ∨ s.stopCallback ≠ .idle →
    s.source.source.requested = true) (by simp [State.init]) ?_ h
  intro tr s l s' hr ih hs hway
  rw [requested_step hs]
  cases step_move hs with
  | found _ hreq => simp [hreq]
  | checked | setStopped | schedule | startReturn => simp [ih (.inr (by simpa using hway))]
  | cancel hcb | callbackSetStopped hcb => simp [ih (.inr (by simp [hcb]))]
  | timer => simp [ih hway]
  | @source l source hadmits hsource =>
      by_cases hl : l.invocation = some op.stopCb
      · simp [StopToken.requested_of_invocation (source_of_run hr) hsource hl]
      · by_cases henter : l = .enterRegister op.stopCb
        · subst henter
          simp [ih (.inr (by simpa [State.follow] using hway))]
        · rw [follow_start_of_ne henter, follow_stopCallback_of_ne hl] at hway
          simp [ih hway]

theorem hasReturned_step (h : step fused op s l = some s') (hstart : s.start.hasReturned = true) :
    s'.start.hasReturned = true := by
  cases step_move h with
  | found hst | checked hst | schedule hst | setStopped hst | startReturn hst =>
      simp [hst, Start.hasReturned] at hstart
  | cancel | callbackSetStopped | timer => exact hstart
  | @source l source hadmits _ =>
      by_cases henter : l = .enterRegister op.stopCb
      · subst henter
        have hst : s.start = .scheduled := by simpa [State.admits] using hadmits
        simp [hst, Start.hasReturned] at hstart
      · simpa only [follow_start_of_ne henter] using hstart

/-- `start` begins with the look at the token. -/
theorem connected_step (h : step fused op s l = some s') (hstart : s.start = .connected)
    (hl : ∀ b, l ≠ .check b) : s'.start = .connected := by
  cases step_move h with
  | found | checked => exact absurd rfl (hl _)
  | schedule hst | setStopped hst | startReturn hst => simp [hst] at hstart
  | cancel | callbackSetStopped | timer => exact hstart
  | @source l source hadmits _ =>
      by_cases henter : l = .enterRegister op.stopCb
      · subst henter
        have hst : s.start = .scheduled := by simpa [State.admits] using hadmits
        simp [hst] at hstart
      · simpa only [follow_start_of_ne henter] using hstart

theorem received_step (h : step fused op s l = some s') :
    ∃ cs, s'.received = s.received ++ cs := by
  cases step_move h with
  | setStopped | callbackSetStopped | timer => exact ⟨_, rfl⟩
  | found | checked | schedule | startReturn | cancel => exact ⟨[], by simp⟩
  | source => exact ⟨[], by simp⟩

/-! ### The operation does as the abstract machine -/

/-- `start` has scheduled the task, or will not do so. -/
def Start.begun : Start → Bool
  | .scheduled | .emplacing | .returned _ => true
  | _ => false

/-- The operation is in a state where `h` has the duty. -/
structure Holds (op : Op α κ τ δ) (s : State α τ δ κ ρ) (h : Holder) : Prop where
  received : s.received = h.received
  pending : s.timer.mgr.pending op.task = decide (h = .manager)
  popped : s.timer.popped.count op.task = if h = .activation then 1 else 0
  callback : s.stopCallback = .cancelled ↔ h = .callback
  start : s.start.begun = true ↔ h ≠ .start

omit [DecidableEq κ] [DecidableEq ρ] [LT τ] [DecidableLT τ] [HAdd τ δ τ] in
theorem holds_init : Holds op (.init expirationTime : State α τ δ κ ρ) .start := by
  constructor <;> simp [State.init, Timer.State.init, Timer.Manager.init, Holder.received,
    Start.begun]

omit [DecidableEq κ] [DecidableEq ρ] [LT τ] [DecidableLT τ] [HAdd τ δ τ] in
/-- A step that leaves the duty where it is. -/
theorem Holds.same {h : Holder} (hh : Holds op s h) (hreceived : s'.received = s.received)
    (hpending : s'.timer.mgr.pending op.task = s.timer.mgr.pending op.task)
    (hpopped : s'.timer.popped.count op.task = s.timer.popped.count op.task)
    (hcb : s'.stopCallback = .cancelled ↔ s.stopCallback = .cancelled)
    (hstart : s'.start.begun = s.start.begun) : Holds op s' h where
  received := hreceived.trans hh.received
  pending := hpending.trans hh.pending
  popped := hpopped.trans hh.popped
  callback := hcb.trans hh.callback
  start := by rw [hstart]; exact hh.start

omit [DecidableEq κ] [DecidableEq ρ] in
/-- Events that are not about the operation's task, and the return of its `run`. -/
theorem Holds.timer_other {h : Holder} {e : Timer.Event α τ δ} {timer : Timer.State α τ δ}
    (hh : Holds op s h) (howns : op.owns e = false)
    (hact : op.act (.timer e : Label α τ δ κ ρ) = none)
    (ht : Timer.step fused s.timer e = some timer) :
    Holds op { s with timer, received := s.received ++ op.run e } h := by
  have hpending := Timer.pending_step ht op.task
  have hpopped := Timer.popped_step ht
  by_cases htask : e.task = some op.task
  · obtain rfl : e = .finish op.task := by
      cases e <;> simp_all [Timer.Event.task, Op.owns, Op.act]
    exact hh.same (by simp [Op.run]) hpending (by rw [hpopped]; rfl) .rfl rfl
  · rw [Timer.pendingAfter_other htask] at hpending
    have hreceived : op.run e = [] := by
      cases e <;> simp_all [Timer.Event.task, Op.run]
    refine hh.same (by simp [hreceived]) hpending ?_ .rfl rfl
    rw [hpopped, Timer.count_poppedAfter_other htask]

omit [DecidableEq κ] [DecidableEq ρ] [LT τ] [DecidableLT τ] [HAdd τ δ τ] in
theorem Holds.eq_start {h : Holder} (hh : Holds op s h) (hstart : s.start.begun = false) :
    h = .start := by
  by_contra hne
  simp [hh.start.mpr hne] at hstart

omit [DecidableEq κ] [DecidableEq ρ] [LT τ] [DecidableLT τ] [HAdd τ δ τ] in
theorem Holds.eq_manager {h : Holder} (hh : Holds op s h)
    (hpending : s.timer.mgr.pending op.task = true) : h = .manager := by
  simpa [hpending] using hh.pending

omit [DecidableEq κ] [DecidableEq ρ] [LT τ] [DecidableLT τ] [HAdd τ δ τ] in
theorem Holds.eq_activation {h : Holder} (hh : Holds op s h) (ht : op.task ∈ s.timer.popped) :
    h = .activation := by
  have hpos := List.count_pos_iff.mpr ht
  rw [hh.popped] at hpos
  by_contra hne
  simp [hne] at hpos

omit [DecidableEq κ] [LT τ] [DecidableLT τ] [HAdd τ δ τ] in
/-- `schedule` makes the task pending. -/
theorem schedule_event {readings : List τ} {added : Bool} {e : Timer.Event α τ δ}
    (he : op.policy.schedule op.task readings added = some e) :
    (∀ b, e.pendingAfter op.task b = true) ∧ ∀ popped, e.poppedAfter popped = popped := by
  unfold ExpirationPolicy.schedule at he
  split at he <;> cases he <;> simp [Timer.Event.pendingAfter, Timer.Event.poppedAfter]

omit [LT τ] [DecidableLT τ] [HAdd τ δ τ] in
/-- The stop source works on; the duty stays where it is. -/
theorem Holds.source {h : Holder} {l : StopToken.Label κ ρ} {source : StopToken.State κ ρ}
    (hh : Holds op s h) (hcalled : CalledOk op tr s)
    (hr : Run StopToken.step .init (tr.filterMap Label.stopLabel) s.source)
    (hadmits : s.admits op l = true) (hs : StopToken.step s.source l = some source) :
    Holds op { s.follow op l with source } h := by
  have hstart : (s.follow op l).start.begun = s.start.begun := by
    by_cases hl : l = .enterRegister op.stopCb
    · subst hl
      have hscheduled : s.start = .scheduled := by simpa [State.admits] using hadmits
      simp [State.follow, hscheduled, Start.begun]
    · rw [follow_start_of_ne hl]
  have hcb : (s.follow op l).stopCallback = .cancelled ↔ s.stopCallback = .cancelled := by
    by_cases hl : l.invocation = some op.stopCb
    · -- It is the first call, so the body of the callback has not been entered.
      have hidle := hcalled.called.mpr (StopToken.notMem_invocations hr hs hl)
      cases l <;> simp_all [State.follow, StopToken.Label.invocation]
    · rw [follow_stopCallback_of_ne hl]
  exact hh.same (follow_received l) (by rw [follow_timer]) (by rw [follow_timer]) hcb hstart

variable [IsStrictWeakOrder τ (· < ·)]

omit [IsStrictWeakOrder τ (· < ·)] in
theorem pending_of_popped {q : List α} {t : α} {timer timer' : Timer.State α τ δ}
    (hk : Timer.Keeps timer q) (ht : Timer.step fused timer (.service (some t)) = some timer') :
    timer.mgr.pending t = true := by
  obtain ⟨m, hm, -⟩ := Timer.step_service ht
  rcases hk.good.popTask hm with ⟨hnone, -⟩ | ⟨u, hu, hmem, -⟩
  · cases hnone
  · cases hu
    exact (hk.good.pending t).mpr hmem

omit [IsStrictWeakOrder τ (· < ·)] [DecidableEq κ] [DecidableEq ρ] in
theorem Holds.timer {h : Holder} {q : List α} {e : Timer.Event α τ δ}
    {timer : Timer.State α τ δ} (hh : Holds op s h) (hk : Timer.Keeps s.timer q)
    (howns : op.owns e = false) (ht : Timer.step fused s.timer e = some timer) :
    ∃ h', Run Holder.step h (op.act (.timer e : Label α τ δ κ ρ)).toList h' ∧
      Holds op { s with timer, received := s.received ++ op.run e } h' := by
  have hpending := Timer.pending_step ht op.task
  have hpopped := Timer.popped_step ht
  cases hact : op.act (.timer e : Label α τ δ κ ρ) with
  | none => exact ⟨h, run_nil.mpr rfl, hh.timer_other howns hact ht⟩
  | some act =>
      obtain ⟨rfl, rfl⟩ | ⟨rfl, rfl⟩ : e = .service (some op.task) ∧ act = .pop ∨
          e = .run op.task ∧ act = .run := by
        cases e with
        | service t =>
            cases t with
            | none => cases hact
            | some t =>
                obtain ⟨rfl, rfl⟩ : t = op.task ∧ Act.pop = act := by simpa [Op.act] using hact
                exact .inl ⟨rfl, rfl⟩
        | run t =>
            obtain ⟨rfl, rfl⟩ : t = op.task ∧ Act.run = act := by simpa [Op.act] using hact
            exact .inr ⟨rfl, rfl⟩
        | runAfter | runAt | cancel | finish => cases hact
      · obtain rfl := hh.eq_manager (pending_of_popped hk ht)
        refine ⟨.activation, run_cons.mpr ⟨_, rfl, run_nil.mpr rfl⟩, ?_⟩
        constructor
        · simpa [Op.run, Holder.received] using hh.received
        · simpa [Timer.Event.pendingAfter] using hpending
        · rw [hpopped]
          simpa [Timer.Event.poppedAfter] using hh.popped
        · simpa using hh.callback
        · simpa using hh.start
      · obtain ⟨hmem, -⟩ := Timer.step_run ht
        obtain rfl := hh.eq_activation hmem
        refine ⟨.discharged .value, run_cons.mpr ⟨_, rfl, run_nil.mpr rfl⟩, ?_⟩
        constructor
        · simpa [Op.run, Holder.received] using hh.received
        · simpa [Timer.Event.pendingAfter, hh.pending] using hpending
        · rw [hpopped]
          simp [Timer.Event.poppedAfter, hh.popped]
        · simpa using hh.callback
        · simpa using hh.start

omit [IsStrictWeakOrder τ (· < ·)] in
theorem Holds.step {h : Holder} {q : List α} (hh : Holds op s h) (hk : Timer.Keeps s.timer q)
    (hcalled : CalledOk op tr s)
    (hr : Run StopToken.step .init (tr.filterMap Label.stopLabel) s.source)
    (hs : step fused op s l = some s') :
    ∃ h', Run Holder.step h (op.act l).toList h' ∧ Holds op s' h' := by
  have hcallback := hh.callback
  cases step_move hs with
  | found hstart | checked hstart | startReturn hstart =>
      exact ⟨h, run_nil.mpr rfl, hh.same rfl rfl rfl .rfl (by simp [hstart, Start.begun])⟩
  | setStopped hstart =>
      obtain rfl := hh.eq_start (by simp [hstart, Start.begun])
      refine ⟨.discharged .stopped, run_cons.mpr ⟨_, rfl, run_nil.mpr rfl⟩, ?_⟩
      exact ⟨by simp [hh.received, Holder.received], by simp [hh.pending], by simp [hh.popped],
        by simpa using hcallback, by simp [Start.begun]⟩
  | schedule hstart he ht =>
      obtain rfl := hh.eq_start (by simp [hstart, Start.begun])
      obtain ⟨hpendingAfter, hpoppedAfter⟩ := schedule_event he
      refine ⟨.manager, run_cons.mpr ⟨_, rfl, run_nil.mpr rfl⟩, ?_⟩
      refine ⟨by simp [hh.received, Holder.received], ?_, ?_, by simpa using hcallback,
        by simp [Start.begun]⟩
      · simp [Timer.pending_step ht, hpendingAfter]
      · simp [Timer.popped_step ht, hpoppedAfter, hh.popped]
  | @cancel cancelled timer hcb ht =>
      have hpending := Timer.pending_step ht op.task
      have hpopped := Timer.popped_step ht
      obtain ⟨m, hm, -⟩ := Timer.step_cancel ht
      have hwas : s.timer.mgr.pending op.task = cancelled := by
        rw [← Timer.cancel_fst, hm]
      cases cancelled with
      | true =>
          obtain rfl := hh.eq_manager hwas
          refine ⟨.callback, run_cons.mpr ⟨_, rfl, run_nil.mpr rfl⟩, ?_⟩
          refine ⟨by simp [hh.received, Holder.received], ?_, ?_, by simp, by simpa using hh.start⟩
          · simpa [Timer.Event.pendingAfter] using hpending
          · simpa [hpopped, Timer.Event.poppedAfter] using hh.popped
      | false =>
          refine ⟨h, run_nil.mpr rfl, hh.same rfl ?_ ?_ (by simp [hcb]) rfl⟩
          · simpa [Timer.Event.pendingAfter, hwas] using hpending
          · rw [hpopped]
            rfl
  | callbackSetStopped hcb =>
      obtain rfl := hcallback.mp hcb
      refine ⟨.discharged .stopped, run_cons.mpr ⟨_, rfl, run_nil.mpr rfl⟩, ?_⟩
      exact ⟨by simp [hh.received, Holder.received], by simp [hh.pending], by simp [hh.popped],
        by simp, by simpa using hh.start⟩
  | timer howns ht => exact hh.timer hk howns ht
  | source hadmits hsource =>
      exact ⟨h, run_nil.mpr rfl, hh.source hcalled hr hadmits hsource⟩

/-! ### The whole run -/

omit [DecidableEq κ] [DecidableEq ρ] [DecidableLT τ] [HAdd τ δ τ] [IsStrictWeakOrder τ (· < ·)]
  [LT τ] in
/-- The steps at which the duty changes hands, as they are seen in the trace. -/
theorem mem_acts (op : Op α κ τ δ) (tr : List (Label α τ δ κ ρ)) :
    (.refuse ∈ tr.filterMap op.act ↔ .setStopped ∈ tr) ∧
      (.pop ∈ tr.filterMap op.act ↔ .timer (.service (some op.task)) ∈ tr) ∧
        (.run ∈ tr.filterMap op.act ↔ .timer (.run op.task) ∈ tr) ∧
          (.cancel ∈ tr.filterMap op.act ↔ .cancel true ∈ tr) := by
  simp only [List.mem_filterMap]
  refine ⟨⟨?_, fun h => ⟨_, h, rfl⟩⟩, ⟨?_, fun h => ⟨_, h, by simp [Op.act]⟩⟩,
    ⟨?_, fun h => ⟨_, h, by simp [Op.act]⟩⟩, ⟨?_, fun h => ⟨_, h, rfl⟩⟩⟩
  all_goals
    rintro ⟨l, hl, hact⟩
    unfold Op.act at hact
    split at hact <;> simp_all

theorem holds_of_run (h : Run (step fused op) (.init expirationTime) tr s) :
    ∃ holder, Run Holder.step .start (tr.filterMap op.act) holder ∧ Holds op s holder := by
  refine h.simulation op.act holds_init (fun tr s holder l s' hr hh _ hs => ?_)
    (EachStep.trivial tr)
  obtain ⟨q, -, hk⟩ := Timer.keeps_of_run (timer_of_run hr)
  exact hh.step hk (calledOk_of_run hr) (source_of_run hr) hs

/-! ### What the code around the operation relies on -/

theorem length_received_le (h : Run (step fused op) (.init expirationTime) tr s) :
    s.received.length ≤ 1 := by
  obtain ⟨holder, -, hh⟩ := holds_of_run h
  rw [hh.received]
  cases holder <;> simp [Holder.received]

theorem received_of_ran (h : Run (step fused op) (.init expirationTime) tr s)
    (hran : op.task ∈ (tr.filterMap op.timerEvent).filterMap Timer.Event.ran) :
    s.received = [.value] := by
  obtain ⟨e, he, heran⟩ := List.mem_filterMap.mp hran
  obtain rfl : e = .run op.task := by
    cases e <;> simp_all [Timer.Event.ran]
  obtain ⟨l, hl, hevent⟩ := List.mem_filterMap.mp he
  obtain rfl : l = .timer (.run op.task) := by
    cases l with
    | timer e => simp_all [Op.timerEvent]
    | schedule readings added =>
        have hscheduled : op.policy.schedule op.task readings added = some (.run op.task) := hevent
        cases (schedule_event hscheduled).1 false
    | check | setStopped | startReturn | cancel | callbackSetStopped | source =>
        simp_all [Op.timerEvent]
  obtain ⟨holder, hr, hh⟩ := holds_of_run h
  obtain rfl := eq_of_run hr ((mem_acts op tr).2.2.1.mpr hl)
  exact hh.received

/-- When `service_task` has returned the receiver has got set_value. -/
theorem received_of_finish (h : Run (step fused op) (.init expirationTime) tr s)
    (hmem : .timer (.finish op.task) ∈ tr) : s.received = [.value] := by
  obtain ⟨-, hperm⟩ := Timer.activations_of_run rfl rfl (timer_of_run h)
  have hfinished : op.task ∈ (tr.filterMap op.timerEvent).filterMap Timer.Event.finished :=
    List.mem_filterMap.mpr ⟨.finish op.task, List.mem_filterMap.mpr ⟨_, hmem, rfl⟩, rfl⟩
  exact received_of_ran h (hperm.mem_iff.mpr (List.mem_append_left _ hfinished))

/-- And so it has while it runs the task. -/
theorem received_of_running (h : Run (step fused op) (.init expirationTime) tr s)
    (hmem : op.task ∈ s.timer.running) : s.received = [.value] := by
  obtain ⟨-, hperm⟩ := Timer.activations_of_run rfl rfl (timer_of_run h)
  exact received_of_ran h (hperm.mem_iff.mpr (List.mem_append_right _ hmem))

/-- A set_value comes after the task was scheduled. -/
theorem start_of_value (h : Run (step fused op) (.init expirationTime) tr s)
    (hreceived : s.received = [.value]) (hstart : s.start.hasReturned = true) :
    s.start = .returned true := by
  cases hst : s.start with
  | returned scheduled =>
      cases scheduled with
      | true => rfl
      | false =>
          obtain ⟨holder, hr, hh⟩ := holds_of_run h
          obtain rfl := eq_of_refuse hr ((mem_acts op tr).1.mpr ((branch_of_run h).refused.mpr hst))
          simp [hh.received, Holder.received] at hreceived
  | connected | stopping | checked | scheduled | emplacing =>
      simp [hst, Start.hasReturned] at hstart

/-! ### The result -/

/-- What is promised of the completions of the receiver. -/
structure Completes (fused : Bool) (op : Op α κ τ δ) (tr : List (Label α τ δ κ ρ))
    (s : State α τ δ κ ρ) : Prop where
  once : s.received.length ≤ 1
  /-- When `start` has returned, and it found stop requested, or the task was popped, or the
  call of `request_stop` that won the exchange has returned, the task is not pending, and the
  receiver was completed, or the activation that popped the task is about to do so. -/
  settled : s.start.hasReturned = true →
    (.check true ∈ tr ∨ .timer (.service (some op.task)) ∈ tr ∨
      ∃ r, s.source.calls r = .returned true) →
    s.timer.mgr.pending op.task = false ∧
      (s.received.length = 1 ∨ s.received = [] ∧ s.timer.popped.count op.task = 1)
  running : op.task ∈ s.timer.popped → s.received = [] ∧
    ∃ s', step fused op s (.timer (.run op.task)) = some s' ∧ s'.received = [.value]
  /-- It gets set_value when the task was popped, and set_stopped when the callback cancelled
  the task or `start` found stop requested. -/
  value : ∀ c, s.received = [c] → (c = .value ↔ .timer (.service (some op.task)) ∈ tr)
  stopped : ∀ c, s.received = [c] → (c = .stopped ↔ .cancel true ∈ tr ∨ .check true ∈ tr)
  check : .check true ∈ tr ↔
    ∃ tr₁ b tr₂, tr = tr₁ ++ .check b :: tr₂ ∧ ∃ r, .source (.exchange r) ∈ tr₁

theorem settled_of_run (h : Run (step fused op) (.init expirationTime) tr s)
    (hstart : s.start.hasReturned = true)
    (hcause : .check true ∈ tr ∨ .timer (.service (some op.task)) ∈ tr ∨
      ∃ r, s.source.calls r = .returned true) :
    s.timer.mgr.pending op.task = false ∧
      (s.received.length = 1 ∨ s.received = [] ∧ s.timer.popped.count op.task = 1) := by
  obtain ⟨holder, hr, hh⟩ := holds_of_run h
  obtain ⟨hrefuse, hpop, -, -⟩ := mem_acts op tr
  have hbranch := branch_of_run h
  have hcalled := calledOk_of_run h
  -- It is enough to find the duty in one of these two places.
  suffices hholder : holder = .activation ∨ ∃ c, holder = .discharged c by
    rcases hholder with rfl | ⟨c, rfl⟩
    · exact ⟨by simp [hh.pending], .inr ⟨hh.received, by simp [hh.popped]⟩⟩
    · exact ⟨by simp [hh.pending], .inl (by simp [hh.received, Holder.received])⟩
  have hrefused (hst : s.start = .returned false) : ∃ c, holder = .discharged c :=
    ⟨_, eq_of_refuse hr (hrefuse.mpr (hbranch.refused.mpr hst))⟩
  rcases hcause with hcheck | hservice | ⟨r, hreturned⟩
  · have hst := (hbranch.found.mp hcheck).resolve_left fun e => by
      simp [e, Start.hasReturned] at hstart
    exact .inr (hrefused hst)
  · exact ((pop_iff hr).mp (hpop.mpr hservice)).imp_right fun e => ⟨_, e⟩
  · obtain hst | hst : s.start = .returned false ∨ s.start = .returned true := by
      cases hst : s.start with
      | returned b => cases b <;> simp
      | connected | stopping | checked | scheduled | emplacing =>
          simp [hst, Start.hasReturned] at hstart
    · exact .inr (hrefused hst)
    · have hdone := stopCallback_of_returned h hst hreturned
      cases holder with
      | activation => exact .inl rfl
      | discharged c => exact .inr ⟨c, rfl⟩
      | start => exact absurd rfl (hh.start.mp (by simp [hst, Start.begun]))
      | manager =>
          have hcb := hdone.resolve_right (not_not.mpr hh.received)
          have hpending := hcalled.cancelled (.inr hcb)
          simp [hh.pending] at hpending
      | callback =>
          have hcb := hdone.resolve_right (not_not.mpr hh.received)
          simp [hh.callback.mpr rfl] at hcb

/-- A stoppable `time_scheduler` operation completes its receiver once, whatever the order of
the steps of its `start`, of the timer and of the stop requests. -/
theorem completes_of_run (h : Run (step fused op) (.init expirationTime) tr s) :
    Completes fused op tr s := by
  obtain ⟨holder, hr, hh⟩ := holds_of_run h
  obtain ⟨hrefuse, hpop, -, hcancel⟩ := mem_acts op tr
  have hbranch := branch_of_run h
  have hdischarged {c : Completion} (hc : s.received = [c]) : holder = .discharged c := by
    have hreceived := hh.received.symm.trans hc
    cases holder <;> simp_all [Holder.received]
  refine ⟨?_, settled_of_run h, fun hmem => ?_, fun c hc => ?_, fun c hc => ?_, check_iff h⟩
  · rw [hh.received]
    cases holder <;> simp [Holder.received]
  · obtain rfl := hh.eq_activation hmem
    refine ⟨hh.received, ?_⟩
    simp [step, Op.owns, Op.run, Timer.step, hmem, hh.received, Holder.received]
  · obtain rfl := hdischarged hc
    rw [← hpop, pop_iff hr]
    simp
  · obtain rfl := hdischarged hc
    have hcheck : .setStopped ∈ tr ↔ .check true ∈ tr := by
      rw [hbranch.refused, hbranch.found]
      refine ⟨.inr, fun hst => hst.resolve_left fun hstopping => ?_⟩
      -- In front of `set_stopped` the duty is still with `start`.
      simpa [hstopping, Start.begun] using hh.start
    rw [stopped_iff hr, hcancel, hrefuse, hcheck]

/-- The timer interrupts `start` between `schedule` and `emplace`; then stop is requested, and
the callback is called by its constructor. -/
def servedInStart : List (Label ℕ ℕ ℕ ℕ ℕ) :=
  [.check false, .schedule [0] true, .timer (.service (some 0)), .source (.exchange 0),
    .source (.getNextCb 0 none), .timer (.run 0), .timer (.finish 0),
    .source (.enterRegister 0), .source (.leaveRegister 0 false), .source (.invoke 0),
    .cancel false, .source (.invoked 0), .startReturn]

theorem completes_of_run_servedInStart :
    ∃ s, Completes true ⟨0, 0, .duration 5⟩ servedInStart s := by
  obtain ⟨s, hs⟩ : ∃ s, Run (step true (⟨0, 0, .duration 5⟩ : Op ℕ ℕ ℕ ℕ))
      (.init fun _ => 0) servedInStart s := exists_run_iff.mpr rfl
  exact ⟨s, completes_of_run hs⟩

/-- Stop is requested between the two sections of `service_task`: the request is over before
the receiver is completed. -/
def stoppedBeforeRun : List (Label ℕ ℕ ℕ ℕ ℕ) :=
  [.check false, .schedule [0] true, .source (.enterRegister 0),
    .source (.leaveRegister 0 true), .startReturn, .timer (.service (some 0)),
    .source (.exchange 0), .source (.getNextCb 0 (some 0)), .source (.run 0 0), .cancel false,
    .source (.ran 0 0), .source (.getNextCb 0 none)]

theorem stop_finishes_before_completion :
    ¬ ∀ (tr : List (Label ℕ ℕ ℕ ℕ ℕ)) (s : State ℕ ℕ ℕ ℕ ℕ),
      Run (step true (⟨0, 0, .duration 5⟩ : Op ℕ ℕ ℕ ℕ)) (.init fun _ => 0) tr s →
      s.start.hasReturned = true → (∃ r won, s.source.calls r = .returned won) →
      s.received.length = 1 := by
  intro hevery
  obtain ⟨s, hs⟩ : ∃ s, Run (step true (⟨0, 0, .duration 5⟩ : Op ℕ ℕ ℕ ℕ))
      (.init fun _ => 0) stoppedBeforeRun s := exists_run_iff.mpr rfl
  have hview : (exec (step true (⟨0, 0, .duration 5⟩ : Op ℕ ℕ ℕ ℕ)) (.init fun _ => 0)
      stoppedBeforeRun).map (fun s => (s.start, s.source.calls 0, s.received)) =
        some (.returned true, .returned true, []) := rfl
  rw [show exec _ _ stoppedBeforeRun = some s from hs, Option.map_some] at hview
  simp only [Option.some.injEq, Prod.mk.injEq] at hview
  have hlength := hevery _ s hs (by simp [hview.1, Start.hasReturned]) ⟨0, true, hview.2.1⟩
  simp [hview.2.2] at hlength

end BaremetalSenders.TimeScheduler
