import BaremetalSenders.Schedulers.TimeScheduler
import BaremetalSenders.Schedulers.TimerTask
import BaremetalSenders.StopToken.StopObject

/-!
The stop callback of a `time_scheduler` operation.

Its constructor is entered once, by `start`, and it is destroyed only when
`start` is back (`LifeOk`). It is called at most once, by `request_stop` or by
its constructor, and when the call is over the task is not pending any more:
the callback exists only after the task was scheduled, and nobody schedules it
again (`CalledOk`).
-/

namespace BaremetalSenders.TimeScheduler

variable {α τ δ κ ρ : Type*} [DecidableEq α] [DecidableEq κ]

def Op.timerEvent (op : Op α κ τ δ) : Label α τ δ κ ρ → Option (Timer.Event α τ δ)
  | .schedule readings added => op.policy.schedule op.task readings added
  | .cancel cancelled => some (.cancel op.task cancelled)
  | .timer e => some e
  | _ => none

def Label.stopLabel : Label α τ δ κ ρ → Option (StopToken.Label κ ρ)
  | .source l => some l
  | _ => none

omit [DecidableEq α] [DecidableEq κ] in
theorem mem_stopLabels {tr : List (Label α τ δ κ ρ)} {l : StopToken.Label κ ρ} :
    l ∈ tr.filterMap Label.stopLabel ↔ .source l ∈ tr := by
  simp only [List.mem_filterMap]
  constructor
  · rintro ⟨l', hl', h⟩
    cases l' <;> simp_all [Label.stopLabel]
  · exact fun h => ⟨_, h, rfl⟩

/-! ### What a step can do -/

variable [DecidableEq ρ] [LT τ] [DecidableLT τ] [HAdd τ δ τ]

inductive Move (fused : Bool) (op : Op α κ τ δ) (s : State α τ δ κ ρ) :
    Label α τ δ κ ρ → State α τ δ κ ρ → Prop
  | found (hstart : s.start = .connected) (hreq : s.source.source.requested = true) :
      Move fused op s (.check true) { s with start := .stopping }
  | checked (hstart : s.start = .connected) (hreq : s.source.source.requested = false) :
      Move fused op s (.check false) { s with start := .checked }
  | setStopped (hstart : s.start = .stopping) :
      Move fused op s .setStopped { s with
        start := .returned false
        received := s.received ++ [.stopped] }
  | schedule {readings : List τ} {added : Bool} {e : Timer.Event α τ δ}
      {timer : Timer.State α τ δ} (hstart : s.start = .checked)
      (he : op.policy.schedule op.task readings added = some e)
      (ht : Timer.step fused s.timer e = some timer) :
      Move fused op s (.schedule readings added) { s with start := .scheduled, timer }
  | startReturn (hstart : s.start = .emplacing) (hcb : s.emplaced op = true) :
      Move fused op s .startReturn { s with start := .returned true }
  | cancel {cancelled : Bool} {timer : Timer.State α τ δ} (hcb : s.stopCallback = .called)
      (ht : Timer.step fused s.timer (.cancel op.task cancelled) = some timer) :
      Move fused op s (.cancel cancelled) { s with
        stopCallback := if cancelled then .cancelled else .done
        timer }
  | callbackSetStopped (hcb : s.stopCallback = .cancelled) :
      Move fused op s .callbackSetStopped { s with
        stopCallback := .done
        received := s.received ++ [.stopped] }
  | timer {e : Timer.Event α τ δ} {timer : Timer.State α τ δ} (howns : op.owns e = false)
      (ht : Timer.step fused s.timer e = some timer) :
      Move fused op s (.timer e) { s with timer, received := s.received ++ op.run e }
  | source {l : StopToken.Label κ ρ} {source : StopToken.State κ ρ}
      (hadmits : s.admits op l = true) (hs : StopToken.step s.source l = some source) :
      Move fused op s (.source l) { s.follow op l with source }

variable {fused : Bool} {op : Op α κ τ δ} {s s' : State α τ δ κ ρ}
  {tr : List (Label α τ δ κ ρ)} {l : Label α τ δ κ ρ} {expirationTime : α → τ}

theorem step_move (h : step fused op s l = some s') : Move fused op s l s' := by
  cases l with
  | check stopRequested =>
      simp only [step] at h
      split at h
      next hc =>
        obtain ⟨hstart, hreq⟩ := hc
        cases stopRequested <;> cases h
        · exact .checked hstart hreq
        · exact .found hstart hreq
      next => cases h
  | setStopped =>
      simp only [step] at h
      split at h <;> cases h
      next hstart => exact .setStopped hstart
  | schedule readings added =>
      simp only [step] at h
      split at h
      next hstart =>
        obtain ⟨e, he, hmap⟩ := Option.bind_eq_some_iff.mp h
        obtain ⟨timer, ht, rfl⟩ := Option.map_eq_some_iff.mp hmap
        exact .schedule hstart he ht
      next => cases h
  | startReturn =>
      simp only [step] at h
      split at h <;> cases h
      next hc => exact .startReturn hc.1 hc.2
  | cancel cancelled =>
      simp only [step] at h
      split at h
      next hcb =>
        obtain ⟨timer, ht, rfl⟩ := Option.map_eq_some_iff.mp h
        exact .cancel hcb ht
      next => cases h
  | callbackSetStopped =>
      simp only [step] at h
      split at h <;> cases h
      next hcb => exact .callbackSetStopped hcb
  | timer e =>
      simp only [step] at h
      split at h
      next => cases h
      next howns =>
        obtain ⟨timer, ht, rfl⟩ := Option.map_eq_some_iff.mp h
        exact .timer (by simpa using howns) ht
  | source l =>
      simp only [step] at h
      split at h
      next hadmits =>
        obtain ⟨source, hs, rfl⟩ := Option.map_eq_some_iff.mp h
        exact .source hadmits hs
      next => cases h

/-! ### The timer manager and the stop source run as ever -/

omit [DecidableEq α] [DecidableEq ρ] [LT τ] [DecidableLT τ] [HAdd τ δ τ] in
@[simp] theorem follow_timer (l : StopToken.Label κ ρ) : (s.follow op l).timer = s.timer := by
  cases l <;> simp only [State.follow] <;> split <;> rfl

omit [DecidableEq α] [DecidableEq ρ] [LT τ] [DecidableLT τ] [HAdd τ δ τ] in
@[simp] theorem follow_received (l : StopToken.Label κ ρ) :
    (s.follow op l).received = s.received := by
  cases l <;> simp only [State.follow] <;> split <;> rfl

theorem timer_of_run (h : Run (step fused op) (.init expirationTime) tr s) :
    Run (Timer.step fused) (.init expirationTime) (tr.filterMap op.timerEvent) s.timer := by
  refine h.project State.timer op.timerEvent fun s l s' hs => ?_
  cases step_move hs with
  | schedule _ he ht => simpa [Op.timerEvent, he] using ht
  | cancel _ ht | timer _ ht => simpa [Op.timerEvent] using ht
  | found | checked | setStopped | startReturn | callbackSetStopped => exact run_nil.mpr rfl
  | source => exact run_nil.mpr (follow_timer _)

theorem source_of_run (h : Run (step fused op) (.init expirationTime) tr s) :
    Run StopToken.step .init (tr.filterMap Label.stopLabel) s.source := by
  refine h.project State.source Label.stopLabel fun s l s' hs => ?_
  cases step_move hs with
  | source _ hsource => simpa [Label.stopLabel] using hsource
  | found | checked | setStopped | schedule | startReturn | cancel | callbackSetStopped | timer =>
      exact run_nil.mpr rfl

theorem reached_of_run (h : Run (step fused op) (.init expirationTime) tr s) :
    StopToken.Reached (tr.filterMap Label.stopLabel) s.source :=
  StopToken.reached_of_run (source_of_run h)

/-! ### `start` and the life of the callback -/

/-- Where the callback is in its life, by where `start` is. -/
def Start.lifeOk : Start → StopToken.Life → Prop
  | .connected, li | .stopping, li | .checked, li | .scheduled, li | .returned false, li =>
      li = .unborn
  | .emplacing, li => li ≠ .unborn ∧ li ≠ .destroyed
  | .returned true, li => li = .registered ∨ li = .constructed ∨ li = .destroyed

structure LifeOk (op : Op α κ τ δ) (s : State α τ δ κ ρ) : Prop where
  life : s.start.lifeOk (s.source.life op.stopCb)
  destroyed : s.source.life op.stopCb = .destroyed → s.received ≠ []

omit [DecidableEq α] [DecidableEq κ] [DecidableEq ρ] [LT τ] [DecidableLT τ] [HAdd τ δ τ] in
theorem lifeOk_init : LifeOk op (.init expirationTime : State α τ δ κ ρ) := by
  constructor <;> simp [State.init, StopToken.State.init, Start.lifeOk]

omit [DecidableEq α] [DecidableEq ρ] [LT τ] [DecidableLT τ] [HAdd τ δ τ] in
theorem follow_start_of_ne {l : StopToken.Label κ ρ} (hl : l ≠ .enterRegister op.stopCb) :
    (s.follow op l).start = s.start := by
  cases l with
  | enterRegister cb =>
      have hne : cb ≠ op.stopCb := fun e => hl (e ▸ rfl)
      simp [State.follow, hne]
  | run | invoke =>
      simp only [State.follow]
      split <;> rfl
  | _ => rfl

omit [DecidableEq α] [DecidableEq ρ] [LT τ] [DecidableLT τ] [HAdd τ δ τ] in
theorem follow_stopCallback_of_ne {l : StopToken.Label κ ρ}
    (hl : l.invocation ≠ some op.stopCb) : (s.follow op l).stopCallback = s.stopCallback := by
  cases l with
  | enterRegister =>
      simp only [State.follow]
      split <;> rfl
  | run r cb | invoke cb =>
      have hne : cb ≠ op.stopCb := fun e => hl (by simp [StopToken.Label.invocation, e])
      simp [State.follow, hne]
  | _ => rfl

omit [DecidableEq α] [DecidableEq ρ] [LT τ] [DecidableLT τ] [HAdd τ δ τ] in
/-- A step in the life of the callback after its constructor was entered. -/
theorem lifeOk_of_follow {l : StopToken.Label κ ρ} {source : StopToken.State κ ρ}
    (hl : l ≠ .enterRegister op.stopCb)
    (hlife : s.start.lifeOk (source.life op.stopCb))
    (hdestroyed : source.life op.stopCb = .destroyed → s.received ≠ []) :
    LifeOk op { s.follow op l with source } := by
  constructor
  · simpa only [follow_start_of_ne hl] using hlife
  · simpa only [follow_received] using hdestroyed

omit [DecidableEq α] [LT τ] [DecidableLT τ] [HAdd τ δ τ] in
theorem LifeOk.source {l : StopToken.Label κ ρ} {source : StopToken.State κ ρ} (h : LifeOk op s)
    (hlist : StopToken.ListOk s.source) (hadmits : s.admits op l = true)
    (hs : StopToken.step s.source l = some source) : LifeOk op { s.follow op l with source } := by
  -- The steps inside its constructor.
  have hinside (hl : l ≠ .enterRegister op.stopCb)
      (hin : s.source.life op.stopCb = .constructing ∨ s.source.life op.stopCb = .refused ∨
        s.source.life op.stopCb = .invoking)
      (hout : source.life op.stopCb ≠ .unborn ∧ source.life op.stopCb ≠ .destroyed) :
      LifeOk op { s.follow op l with source } := by
    have hmatch := h.life
    have hstart : s.start = .emplacing := by
      cases hst : s.start with
      | emplacing => rfl
      | returned b => cases b <;> rcases hin with hin | hin | hin <;> simp_all [Start.lifeOk]
      | connected | stopping | checked | scheduled =>
          rcases hin with hin | hin | hin <;> simp_all [Start.lifeOk]
    exact lifeOk_of_follow hl (by rw [hstart]; exact hout) (fun e => absurd e hout.2)
  have hlife := StopToken.lifeStep_of_step hs op.stopCb
  generalize hli : source.life op.stopCb = li at hlife
  cases hlife with
  | same hl => exact lifeOk_of_follow hl (hli ▸ h.life) (hli ▸ h.destroyed)
  | enter =>
      have hstart : s.start = .scheduled := by simpa [State.admits] using hadmits
      constructor <;> simp [State.follow, Start.lifeOk, hli]
  | register hm | refuse hm =>
      exact hinside (by simp) (.inl (hlist.mutex _ _ hm).1) (by simp [hli])
  | invoke hcb => exact hinside (by simp) (.inr (.inl hcb)) (by simp [hli])
  | invoked hcb => exact hinside (by simp) (.inr (.inr hcb)) (by simp [hli])
  | unregister hcb =>
      have hreturned : s.start.hasReturned = true ∧ s.received ≠ [] := by
        simpa [State.admits] using hadmits
      have hstart : s.start = .returned true := by
        have hmatch := h.life
        cases hst : s.start with
        | returned b => cases b <;> rcases hcb with hcb | hcb <;> simp_all [Start.lifeOk]
        | connected | stopping | checked | scheduled | emplacing =>
            simp [hst, Start.hasReturned] at hreturned
      exact lifeOk_of_follow (by simp) (by simp [hstart, Start.lifeOk, hli]) fun _ => hreturned.2

theorem LifeOk.step (h : LifeOk op s) (hlist : StopToken.ListOk s.source)
    (hs : step fused op s l = some s') : LifeOk op s' := by
  have hmatch := h.life
  cases step_move hs with
  | found hstart | checked hstart | schedule hstart =>
      exact ⟨by simpa [Start.lifeOk, hstart] using hmatch, h.destroyed⟩
  | setStopped hstart => exact ⟨by simpa [Start.lifeOk, hstart] using hmatch, by simp⟩
  | startReturn hstart hcb =>
      refine ⟨?_, h.destroyed⟩
      have hlife : s.source.life op.stopCb = .registered ∨ s.source.life op.stopCb = .constructed :=
        by simpa [State.emplaced] using hcb
      exact hlife.imp_right .inl
  | cancel => exact ⟨h.life, h.destroyed⟩
  | callbackSetStopped => exact ⟨h.life, by simp⟩
  | timer => exact ⟨h.life, fun e => by simp [h.destroyed e]⟩
  | source hadmits hsource => exact h.source hlist hadmits hsource

/-! ### The calls of the callback -/

structure CalledOk (op : Op α κ τ δ) (tr : List (Label α τ δ κ ρ)) (s : State α τ δ κ ρ) :
    Prop where
  called : s.stopCallback = .idle ↔
    op.stopCb ∉ StopToken.invocations (tr.filterMap Label.stopLabel)
  ran : op.stopCb ∈ StopToken.completed (tr.filterMap Label.stopLabel) → s.stopCallback = .done
  constructed : s.source.life op.stopCb = .constructed → s.stopCallback = .done
  /-- The callback has tried to cancel the task, which was the operation's only one. -/
  cancelled : s.stopCallback = .cancelled ∨ s.stopCallback = .done →
    s.timer.mgr.pending op.task = false

omit [DecidableEq α] [DecidableEq κ] [DecidableEq ρ] [LT τ] [DecidableLT τ] [HAdd τ δ τ] in
theorem calledOk_init : CalledOk op [] (.init expirationTime : State α τ δ κ ρ) := by
  constructor <;> simp [State.init, StopToken.State.init, StopToken.invocations,
    StopToken.completed]

omit [DecidableEq α] [DecidableEq κ] [DecidableEq ρ] [LT τ] [DecidableLT τ] [HAdd τ δ τ] in
theorem stopLabels_source (tr : List (Label α τ δ κ ρ)) (l : StopToken.Label κ ρ) :
    (tr ++ [Label.source l]).filterMap Label.stopLabel = tr.filterMap Label.stopLabel ++ [l] := by
  simp [List.filterMap_append, Label.stopLabel]

omit [DecidableEq κ] in
/-- The others can only clear the flag of the operation's task. -/
theorem pending_of_owns {e : Timer.Event α τ δ} {timer timer' : Timer.State α τ δ}
    (howns : op.owns e = false) (ht : Timer.step fused timer e = some timer')
    (hpending : timer.mgr.pending op.task = false) : timer'.mgr.pending op.task = false := by
  rw [Timer.pending_step ht]
  cases e with
  | runAfter t | runAt t =>
      have hne : op.task ≠ t := fun e => by simp [Op.owns, e] at howns
      simp [Timer.Event.pendingAfter, hpending, hne]
  | cancel | service | run | finish => simp [Timer.Event.pendingAfter, hpending]

omit [DecidableEq α] [DecidableEq κ] [DecidableEq ρ] [LT τ] [DecidableLT τ] [HAdd τ δ τ] in
/-- A step outside of the stop source. -/
theorem CalledOk.of_source (h : CalledOk op tr s) (hl : l.stopLabel = none)
    (hsource : s'.source = s.source)
    (hcb : s'.stopCallback = s.stopCallback ∨ s.stopCallback = .called ∧ s'.stopCallback ≠ .idle ∨
      s.stopCallback = .cancelled ∧ s'.stopCallback = .done)
    (hcancelled : s'.stopCallback = .cancelled ∨ s'.stopCallback = .done →
      s'.timer.mgr.pending op.task = false) : CalledOk op (tr ++ [l]) s' := by
  have hlabels : (tr ++ [l]).filterMap Label.stopLabel = tr.filterMap Label.stopLabel := by
    simp [List.filterMap_append, hl]
  refine ⟨?_, ?_, ?_, hcancelled⟩
  · rw [hlabels, ← h.called]
    rcases hcb with hcb | ⟨hold, hnew⟩ | ⟨hold, hnew⟩ <;> simp_all
  · rw [hlabels]
    intro hmem
    rcases hcb with hcb | ⟨hold, hnew⟩ | ⟨hold, hnew⟩ <;> simp_all [h.ran hmem]
  · rw [hsource]
    intro hlife
    rcases hcb with hcb | ⟨hold, hnew⟩ | ⟨hold, hnew⟩ <;> simp_all [h.constructed hlife]

omit [DecidableEq α] [DecidableEq ρ] [LT τ] [DecidableLT τ] [HAdd τ δ τ] in
/-- A step of the stop source that does not call the callback. -/
theorem CalledOk.of_not_called {l : StopToken.Label κ ρ} {source : StopToken.State κ ρ}
    (h : CalledOk op tr s) (hl : l.invocation ≠ some op.stopCb)
    (hran : l.completion = some op.stopCb → s.stopCallback = .done)
    (hlife : source.life op.stopCb = .constructed →
      s.source.life op.stopCb = .constructed ∨ s.stopCallback = .done) :
    CalledOk op (tr ++ [.source l]) { s.follow op l with source } := by
  have hcb := follow_stopCallback_of_ne (s := s) hl
  constructor
  · rw [stopLabels_source, StopToken.invocations_concat, hcb, h.called]
    simp [hl]
  · rw [stopLabels_source, StopToken.completed_concat, hcb]
    intro hmem
    rcases List.mem_append.mp hmem with hold | hnew
    · exact h.ran hold
    · exact hran (by simpa [Option.mem_toList] using hnew)
  · rw [hcb]
    exact fun hnew => (hlife hnew).elim h.constructed id
  · rw [hcb]
    simpa using h.cancelled

omit [DecidableEq α] [DecidableEq ρ] [LT τ] [DecidableLT τ] [HAdd τ δ τ] in
/-- The callback is called, for the first time. -/
theorem CalledOk.of_called {l : StopToken.Label κ ρ} {source : StopToken.State κ ρ}
    (h : CalledOk op tr s) (hl : l.invocation = some op.stopCb)
    (hfresh : op.stopCb ∉ StopToken.invocations (tr.filterMap Label.stopLabel))
    (hlife : source.life op.stopCb = .constructed → s.source.life op.stopCb = .constructed) :
    CalledOk op (tr ++ [.source l]) { s.follow op l with source } := by
  have hidle : s.stopCallback = .idle := h.called.mpr hfresh
  have hcb : (s.follow op l).stopCallback = .called ∧ l.completion = none := by
    cases l <;> simp_all [State.follow, StopToken.Label.invocation, StopToken.Label.completion]
  constructor
  · rw [stopLabels_source, StopToken.invocations_concat, hcb.1, hl]
    simp
  · rw [stopLabels_source, StopToken.completed_concat, hcb.2]
    intro hmem
    simp [h.ran (by simpa using hmem)] at hidle
  · exact fun hnew => by simp [h.constructed (hlife hnew)] at hidle
  · simp [hcb.1]

omit [DecidableEq α] [LT τ] [DecidableLT τ] [HAdd τ δ τ] in
theorem CalledOk.source {l : StopToken.Label κ ρ} {source : StopToken.State κ ρ}
    (h : CalledOk op tr s) (hr : Run StopToken.step .init (tr.filterMap Label.stopLabel) s.source)
    (hadmits : s.admits op l = true) (hs : StopToken.step s.source l = some source) :
    CalledOk op (tr ++ [.source l]) { s.follow op l with source } := by
  have hlife := StopToken.lifeStep_of_step hs op.stopCb
  by_cases hl : l.invocation = some op.stopCb
  · refine h.of_called hl (StopToken.notMem_invocations hr hs hl) fun hnew => ?_
    rw [hnew] at hlife
    generalize hli : StopToken.Life.constructed = li at hlife
    cases hlife with
    | same => rfl
    | invoked => simp [StopToken.Label.invocation] at hl
    | enter | register | refuse | invoke | unregister => cases hli
  · refine h.of_not_called hl (fun hran => ?_) fun hnew => ?_
    · cases l <;> simp_all [StopToken.Label.completion, State.admits]
    · rw [hnew] at hlife
      generalize hli : StopToken.Life.constructed = li at hlife
      cases hlife with
      | same => exact .inl rfl
      | invoked => exact .inr (by simpa [State.admits] using hadmits)
      | enter | register | refuse | invoke | unregister => cases hli

theorem CalledOk.step (h : CalledOk op tr s) (hlife : LifeOk op s)
    (hr : Run StopToken.step .init (tr.filterMap Label.stopLabel) s.source)
    (hs : step fused op s l = some s') : CalledOk op (tr ++ [l]) s' := by
  cases step_move hs with
  | found | checked | setStopped | startReturn =>
      exact h.of_source rfl rfl (.inl rfl) h.cancelled
  | schedule hstart =>
      -- The callback has not been constructed, let alone called.
      have hunborn : s.source.life op.stopCb = .unborn := by
        simpa [hstart, Start.lifeOk] using hlife.life
      have hidle : s.stopCallback = .idle :=
        h.called.mpr fun hmem => (StopToken.reached_of_run hr).ne_unborn hmem hunborn
      exact h.of_source rfl rfl (.inl rfl) (by simp [hidle])
  | cancel hcb ht =>
      refine h.of_source rfl rfl (.inr (.inl ⟨hcb, ?_⟩)) fun _ => ?_
      · dsimp only
        split <;> simp
      · simp [Timer.pending_step ht, Timer.Event.pendingAfter]
  | callbackSetStopped hcb =>
      exact h.of_source rfl rfl (.inr (.inr ⟨hcb, rfl⟩)) fun _ => h.cancelled (.inl hcb)
  | timer howns ht =>
      exact h.of_source rfl rfl (.inl rfl) fun hcb => pending_of_owns howns ht (h.cancelled hcb)
  | source hadmits hsource => exact h.source hr hadmits hsource

end BaremetalSenders.TimeScheduler
