import BaremetalSenders.Adaptors.TimeoutAfterCompletion
import BaremetalSenders.StopToken.StopDeregistration
import Mathlib.Data.Fintype.Option

/-!
The operation of the timer and the place it is in.

Its task's `run` ends in the `emplace<1>` of `sequence`, which destroys the
operation. That is in order when `start` has returned and no call of
`request_stop` has its stop callback in hand: then nobody touches the operation
any more (`Departed`). Otherwise `start` has still to emplace the callback in
what is not there, or the call that has popped the callback runs it.
-/

namespace BaremetalSenders.TimeoutAfter

open Join

variable {α τ δ κ V E : Type*} [DecidableEq α] [DecidableEq κ]

/-- The side condition of a step: when the operation of the timer is destroyed, its `start` has
returned, and nobody has taken its stop callback out of the list without being through with
the `cancel` in it. -/
def Orderly (op : Op α κ τ δ V E) (s : State α τ δ κ V E) : Label α τ δ κ V E → Prop
  | .destroy => s.timeout.start.hasReturned = true
  | .timeout (.source (.unregister cb _)) => cb = op.timer.stopCb →
      s.timeout.stopCallback ≠ .called ∧ ∀ r, s.timeout.source.calls r ≠ .popped cb
  | _ => True

instance (op : Op α κ τ δ V E) (s : State α τ δ κ V E) (l : Label α τ δ κ V E) :
    Decidable (Orderly op s l) := by
  unfold Orderly
  split <;> infer_instance

variable [LT τ] [DecidableLT τ] [HAdd τ δ τ]
  {fused : Bool} {op : Op α κ τ δ V E} {s s' : State α τ δ κ V E}
  {tr : List (Label α τ δ κ V E)} {l : Label α τ δ κ V E} {expirationTime : α → τ}

/-- Nobody has the operation in hand. -/
structure Left (op : TimeScheduler.Op α κ τ δ) (s : TimeScheduler.State α τ δ κ Caller) :
    Prop where
  gone : StopToken.Gone op.stopCb s.source
  start : s.start.hasReturned = true
  callback : s.stopCallback = .idle ∨ s.stopCallback = .done

/-- Nobody takes it in hand, and nobody touches it. -/
theorem Left.step {op : Op α κ τ δ V E} {l : TimeScheduler.Label α τ δ κ Caller}
    {s s' : TimeScheduler.State α τ δ κ Caller} (h : Left op.timer s)
    (hlist : StopToken.ListOk s.source)
    (hs : TimeScheduler.step fused op.timer s l = some s') :
    Left op.timer s' ∧ op.touches l = false := by
  have hstart := h.start
  cases TimeScheduler.step_move hs with
  | found hst | checked hst | setStopped hst | schedule hst | startReturn hst =>
      simp [hst, TimeScheduler.Start.hasReturned] at hstart
  | cancel hcb | callbackSetStopped hcb =>
      have hcallback := h.callback
      simp [hcb] at hcallback
  | timer => exact ⟨⟨h.gone, h.start, h.callback⟩, rfl⟩
  | @source l source hadmits hsource =>
      obtain ⟨hgone, hrun⟩ := h.gone.step hlist hsource
      have henter : l ≠ .enterRegister op.timer.stopCb := by
        rintro rfl
        have hst : s.start = .scheduled := by simpa [TimeScheduler.State.admits] using hadmits
        simp [hst, TimeScheduler.Start.hasReturned] at hstart
      have hinvoke : l ≠ .invoke op.timer.stopCb := by
        rintro rfl
        cases StopToken.step_move hsource with
        | invoke hlife => simp [h.gone.destroyed] at hlife
      have hinvocation : l.invocation ≠ some op.timer.stopCb := by
        cases l <;> simp_all [StopToken.Label.invocation]
      refine ⟨⟨hgone, ?_, ?_⟩, ?_⟩
      · simpa only [TimeScheduler.follow_start_of_ne henter] using h.start
      · simpa only [TimeScheduler.follow_stopCallback_of_ne hinvocation] using h.callback
      · cases StopToken.step_move hsource with
        | @pop r cb cbs _ _ hcbs =>
            -- What is in the list has not been destroyed.
            have hlife : s.source.life cb = .registered := hlist.registered cb (by simp [hcbs])
            have hne : cb ≠ op.timer.stopCb := by
              rintro rfl
              simp [h.gone.destroyed] at hlife
            simpa [Op.touches] using hne
        | @register cb hm | @refuse cb hm =>
            have hlife := (hlist.mutex _ _ hm).1
            have hne : cb ≠ op.timer.stopCb := by
              rintro rfl
              simp [h.gone.destroyed] at hlife
            simpa [Op.touches] using hne
        | win | lose | finish | run | ran | enterRegister | invoke | invoked | unregister =>
            simp_all [Op.touches]

variable [IsStrictWeakOrder τ (· < ·)]

/-- The operation has been destroyed when nobody had it in hand. -/
structure Departed (op : Op α κ τ δ V E) (s : State α τ δ κ V E) : Prop where
  fault : s.fault = false
  left : s.destroyed = true → Left op.timer s.timeout

/-- The destruction of an operation that nobody has in hand. -/
theorem left_of_destroys {l : TimeScheduler.Label α τ δ κ Caller}
    {timeout : TimeScheduler.State α τ δ κ Caller}
    (h : Run (step fused op) (.init expirationTime) tr s)
    (hdestroys : op.destroys l = true) (horderly : Orderly op s (.timeout l))
    (ht : TimeScheduler.step fused op.timer s.timeout l = some timeout) :
    Left op.timer timeout := by
  obtain ⟨cb, removed, rfl⟩ : ∃ cb removed, l = .source (.unregister cb removed) := by
    cases l with
    | source l =>
        cases l with
        | unregister cb removed => exact ⟨cb, removed, rfl⟩
        | _ => cases hdestroys
    | _ => cases hdestroys
  obtain rfl : cb = op.timer.stopCb := by simpa [Op.destroys] using hdestroys
  obtain ⟨hcalled, hpopped⟩ := horderly rfl
  cases TimeScheduler.step_move ht with
  | source hadmits hsource =>
      obtain ⟨hstart, hreceived⟩ : s.timeout.start.hasReturned = true ∧
          s.timeout.received ≠ [] := by
        simpa [TimeScheduler.State.admits] using hadmits
      refine ⟨?_, hstart, ?_⟩
      · cases StopToken.step_move hsource with
        | unregister => exact ⟨by simp, by simpa using hpopped⟩
      · cases hcb : s.timeout.stopCallback with
        | idle => exact .inl hcb
        | done => exact .inr hcb
        | called => exact absurd hcb hcalled
        | cancelled =>
            -- It would still have to complete the receiver.
            obtain ⟨holder, -, hh⟩ := TimeScheduler.holds_of_run (timeout_of_run h)
            obtain rfl := hh.callback.mp hcb
            exact absurd hh.received hreceived

theorem Departed.step (h : Departed op s) (hr : Run (step fused op) (.init expirationTime) tr s)
    (horderly : Orderly op s l) (hs : step fused op s l = some s') : Departed op s' := by
  have hlist := (TimeScheduler.reached_of_run (timeout_of_run hr)).listOk
  cases step_move hs with
  | any | send => exact ⟨h.fault, h.left⟩
  | request _ _ _ ht => exact ⟨h.fault, fun hd => ((h.left hd).step hlist ht).1⟩
  | destroy _ hstart =>
      have hreturned : s.timeout.start.hasReturned = true := horderly
      simp [hstart] at hreturned
  | @timeout l timeout _ ht =>
      cases hd : s.destroyed with
      | true =>
          obtain ⟨hleft, htouches⟩ := (h.left hd).step hlist ht
          exact ⟨by simp [htouches], fun _ => hleft⟩
      | false =>
          exact ⟨by simp, fun hdestroys =>
            left_of_destroys hr (by simpa using hdestroys) horderly ht⟩

theorem departed_of_run (h : Run (step fused op) (.init expirationTime) tr s)
    (horderly : EachStep (step fused op) (Orderly op) (.init expirationTime) tr) :
    Departed op s :=
  h.induction_of_eachStep (P := fun _ s => Departed op s) ⟨rfl, fun hd => by cases hd⟩
    (fun _ _ _ _ hr ih hl hs => ih.step hr hl hs) horderly

omit [IsStrictWeakOrder τ (· < ·)] in
/-- Once the callback has been destroyed, the operation has. -/
theorem destroyed_of_life (h : Run (step fused op) (.init expirationTime) tr s)
    (hlife : s.timeout.source.life op.timer.stopCb = .destroyed) : s.destroyed = true := by
  refine Run.induction (P := fun _ s => s.timeout.source.life op.timer.stopCb = .destroyed →
    s.destroyed = true) (fun hlife => by cases hlife) ?_ h hlife
  intro tr s l s' _ ih hs hlife
  have hsource {l : StopToken.Label κ Caller} {source : StopToken.State κ Caller}
      (hs : StopToken.step s.timeout.source l = some source)
      (hlife : source.life op.timer.stopCb = .destroyed) :
      s.timeout.source.life op.timer.stopCb = .destroyed ∨
        ∃ removed, l = .unregister op.timer.stopCb removed := by
    have hstep := StopToken.lifeStep_of_step hs op.timer.stopCb
    rw [hlife] at hstep
    generalize hli : StopToken.Life.destroyed = li at hstep
    cases hstep with
    | same => exact .inl rfl
    | unregister => exact .inr ⟨_, rfl⟩
    | enter | register | refuse | invoke | invoked => cases hli
  cases step_move hs with
  | any | send => exact ih hlife
  | destroy => rfl
  | request _ _ _ ht =>
      cases TimeScheduler.step_move ht with
      | source _ hstop =>
          rcases hsource hstop hlife with hold | ⟨removed, hl⟩
          · exact ih hold
          · cases hl
  | timeout _ ht =>
      cases TimeScheduler.step_move ht with
      | source _ hstop =>
          rcases hsource hstop hlife with hold | ⟨removed, rfl⟩
          · simp [ih hold]
          · simp [Op.destroys]
      | _ => simp [ih hlife]

end BaremetalSenders.TimeoutAfter
