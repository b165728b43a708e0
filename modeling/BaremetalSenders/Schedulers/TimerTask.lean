import BaremetalSenders.Schedulers.TimerAccounting

/-!
The timer manager as the owner of one task sees it: the pending flag of the
task, which the calls about the task set and clear and the activation of
`service_task` that pops it clears, and the tasks that have been popped and not
yet been run.
-/

namespace BaremetalSenders.Timer

variable {α τ δ : Type*} [DecidableEq α]

def Event.pendingAfter (x : α) (b : Bool) : Event α τ δ → Bool
  | .runAfter t _ _ _ | .runAt t _ _ _ => b || x == t
  | .cancel t _ => b && x != t
  | .service popped => b && popped != some x
  | .run _ | .finish _ => b

def Event.poppedAfter (popped : List α) : Event α τ δ → List α
  | .service t => t.toList ++ popped
  | .run t => popped.erase t
  | _ => popped

def Event.task : Event α τ δ → Option α
  | .runAfter t _ _ _ | .runAt t _ _ _ | .cancel t _ | .run t | .finish t => some t
  | .service popped => popped

theorem pendingAfter_other {e : Event α τ δ} {x : α} (h : e.task ≠ some x) (b : Bool) :
    e.pendingAfter x b = b := by
  cases e with
  | runAfter t | runAt t | cancel t =>
      have hne : x ≠ t := fun hx => h (by simp [Event.task, hx])
      simp [Event.pendingAfter, hne]
  | service popped => simp [Event.pendingAfter, show popped ≠ some x from h]
  | run | finish => rfl

theorem count_poppedAfter_other {e : Event α τ δ} {x : α} (h : e.task ≠ some x)
    (popped : List α) : (e.poppedAfter popped).count x = popped.count x := by
  cases e with
  | runAfter | runAt | cancel | finish => rfl
  | service t =>
      cases t with
      | none => rfl
      | some t =>
          have hne : t ≠ x := by simpa [Event.task] using h
          simp [Event.poppedAfter, hne]
  | run t =>
      have hne : x ≠ t := fun hx => h (by simp [Event.task, hx])
      exact List.count_erase_of_ne hne

variable [LT τ] [DecidableLT τ]

theorem pending_runAfter [HAdd τ δ τ] (fused : Bool) (m : Manager α τ δ) (t : α) (d : δ)
    (reading : τ) :
    (m.runAfter fused t d reading).2.pending = Function.update m.pending t true := by
  simp only [Manager.runAfter]
  split
  · exact (scheduleAfter_frame _ t fused d reading).1
  · rfl

theorem pending_runAt {m m' : Manager α τ δ} {t : α} {ep : ExpirationProvider τ}
    {readings : List τ} {added : Bool} (h : m.runAt t ep readings = some (added, m')) :
    m'.pending = Function.update m.pending t true := by
  simp only [Manager.runAt] at h
  split at h
  · obtain ⟨m'', hm, heq⟩ := Option.map_eq_some_iff.mp h
    cases heq
    exact (scheduleAt_frame hm).1
  · cases h
    rfl

omit [LT τ] [DecidableLT τ] in
theorem cancel_fst (m : Manager α τ δ) (t : α) : (m.cancel t).1 = m.pending t := by
  cases hp : m.pending t <;> simp [Manager.cancel, hp]

omit [LT τ] [DecidableLT τ] in
theorem pending_cancel (m : Manager α τ δ) (t : α) :
    (m.cancel t).2.pending = Function.update m.pending t false := by
  simp only [Manager.cancel]
  split
  · rw [computeNextEvent_pending]
  · next hp =>
      funext x
      by_cases hx : x = t
      · subst hx
        simpa using hp
      · rw [Function.update_of_ne hx]

variable [HAdd τ δ τ] {fused : Bool} {s s' : State α τ δ} {e : Event α τ δ}

theorem pending_step (h : step fused s e = some s') (x : α) :
    s'.mgr.pending x = e.pendingAfter x (s.mgr.pending x) := by
  cases e with
  | runAfter t d reading added =>
      obtain ⟨m, hm, rfl⟩ := step_runAfter h
      have hpending : m.pending = Function.update s.mgr.pending t true := by
        simpa only [hm] using pending_runAfter fused s.mgr t d reading
      by_cases hx : x = t <;> simp [hpending, Event.pendingAfter, hx]
  | runAt t ep readings added =>
      obtain ⟨m, hm, rfl⟩ := step_runAt h
      by_cases hx : x = t <;> simp [pending_runAt hm, Event.pendingAfter, hx]
  | cancel t cancelled =>
      obtain ⟨m, hm, rfl⟩ := step_cancel h
      have hpending : m.pending = Function.update s.mgr.pending t false := by
        simpa only [hm] using pending_cancel s.mgr t
      by_cases hx : x = t <;> simp [hpending, Event.pendingAfter, hx]
  | service popped =>
      obtain ⟨m, hm, rfl⟩ := step_service h
      simp only [Manager.popTask] at hm
      split at hm <;> cases hm
      · simp [Event.pendingAfter]
      · next n rest hq =>
          by_cases hx : n = x
          · simp [Event.pendingAfter, hx]
          · simp [Event.pendingAfter, hx, Function.update_of_ne (Ne.symm hx)]
  | run t =>
      obtain ⟨ht, rfl⟩ := step_run h
      rfl
  | finish t =>
      obtain ⟨ht, rfl⟩ := step_finish h
      rfl

theorem popped_step (h : step fused s e = some s') : s'.popped = e.poppedAfter s.popped := by
  cases e with
  | runAfter t d reading added =>
      obtain ⟨m, hm, rfl⟩ := step_runAfter h
      rfl
  | runAt t ep readings added =>
      obtain ⟨m, hm, rfl⟩ := step_runAt h
      rfl
  | cancel t cancelled =>
      obtain ⟨m, hm, rfl⟩ := step_cancel h
      rfl
  | service popped =>
      obtain ⟨m, hm, rfl⟩ := step_service h
      rfl
  | run t =>
      obtain ⟨ht, rfl⟩ := step_run h
      rfl
  | finish t =>
      obtain ⟨ht, rfl⟩ := step_finish h
      rfl

end BaremetalSenders.Timer
