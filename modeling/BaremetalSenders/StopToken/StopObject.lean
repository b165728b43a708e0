import BaremetalSenders.StopToken.StopDelivery

/-!
The stop source as the owner of one callback sees it: what a step does to the
life of the callback, that it is called at most once and only after its
registration has begun, and that it has been called and is back when the
winning call of `request_stop` returns.
-/

namespace BaremetalSenders.StopToken

variable {κ ρ : Type*} [DecidableEq κ] [DecidableEq ρ]

def Label.invocation : Label κ ρ → Option κ
  | .run _ cb | .invoke cb => some cb
  | _ => none

def Label.completion : Label κ ρ → Option κ
  | .ran _ cb => some cb
  | _ => none

variable {s s' : State κ ρ} {tr : List (Label κ ρ)} {l : Label κ ρ} {r : ρ} {cb : κ}

omit [DecidableEq κ] [DecidableEq ρ] in
theorem invocations_concat (tr : List (Label κ ρ)) (l : Label κ ρ) :
    invocations (tr ++ [l]) = invocations tr ++ l.invocation.toList := by
  cases l <;> simp [invocations, Label.invocation]

omit [DecidableEq κ] [DecidableEq ρ] in
theorem completed_concat (tr : List (Label κ ρ)) (l : Label κ ρ) :
    completed (tr ++ [l]) = completed tr ++ l.completion.toList := by
  cases l <;> simp [completed, Label.completion]

inductive LifeStep (cb : κ) (s : State κ ρ) : Label κ ρ → Life → Prop
  | same {l : Label κ ρ} (hl : l ≠ .enterRegister cb) : LifeStep cb s l (s.life cb)
  | enter (hcb : s.life cb = .unborn) : LifeStep cb s (.enterRegister cb) .constructing
  | register (hm : s.mutex = some (cb, false)) :
      LifeStep cb s (.leaveRegister cb true) .registered
  | refuse (hm : s.mutex = some (cb, true)) : LifeStep cb s (.leaveRegister cb false) .refused
  | invoke (hcb : s.life cb = .refused) : LifeStep cb s (.invoke cb) .invoking
  | invoked (hcb : s.life cb = .invoking) : LifeStep cb s (.invoked cb) .constructed
  | unregister {removed : Bool} (hcb : s.life cb = .registered ∨ s.life cb = .constructed) :
      LifeStep cb s (.unregister cb removed) .destroyed

theorem lifeStep_of_step (hs : step s l = some s') (cb : κ) : LifeStep cb s l (s'.life cb) := by
  have hcase {x : κ} {li : Life} (hx : x = cb → LifeStep cb s l li)
      (hl : x ≠ cb → l ≠ .enterRegister cb) :
      LifeStep cb s l (Function.update s.life x li cb) := by
    rcases eq_or_ne x cb with rfl | hne
    · rw [Function.update_self]
      exact hx rfl
    · rw [Function.update_of_ne hne.symm]
      exact .same (hl hne)
  cases step_move hs with
  | win | lose | finish | pop | run | ran => exact .same (by simp)
  | enterRegister hcb => exact hcase (fun e => by subst e; exact .enter hcb) (by simp)
  | register hm => exact hcase (fun e => by subst e; exact .register hm) (by simp)
  | refuse hm => exact hcase (fun e => by subst e; exact .refuse hm) (by simp)
  | invoke hcb => exact hcase (fun e => by subst e; exact .invoke hcb) (by simp)
  | invoked hcb => exact hcase (fun e => by subst e; exact .invoked hcb) (by simp)
  | unregister hcb => exact hcase (fun e => by subst e; exact .unregister hcb) (by simp)

/-- A callback that is about to be called has not been called before. -/
theorem notMem_invocations (hr : Run step State.init tr s) (hs : step s l = some s')
    (hl : l.invocation = some cb) : cb ∉ invocations tr := by
  have hnodup := nodup_invocations_of_run (hr.concat hs)
  rw [invocations_concat, hl] at hnodup
  exact fun hmem => (List.nodup_append.mp hnodup).2.2 cb hmem cb (by simp) rfl

omit [DecidableEq ρ] in
/-- What has been called has begun its life. -/
theorem Reached.ne_unborn (h : Reached tr s) (hcb : cb ∈ invocations tr) :
    s.life cb ≠ .unborn := by
  intro hlife
  have hfate := h.fates.fateOk hlife
  rcases mem_invocations.mp hcb with hbegun | hinv
  · exact hfate.1 (h.ordered.accepted_of_popped (h.popped_of_begun hbegun))
  · exact hfate.2.2.1 hinv

omit [DecidableEq ρ] in
/-- When the winning call of `request_stop` has returned, it has called every callback that
is registered. -/
theorem Reached.completed_of_returned (h : Reached tr s) (hr : s.calls r = .returned true)
    (hcb : s.life cb = .registered) : cb ∈ completed tr := by
  have hfate := h.fates.fateOk hcb
  rw [(h.drained hr).2, kept, List.mem_filter]
  refine ⟨mem_accepted.mpr hfate.1, ?_⟩
  simpa using mt mem_removed.mp hfate.2.2.2

omit [DecidableEq ρ] in
theorem Reached.requested_iff (h : Reached tr s) :
    s.source.requested = true ↔ ∃ r, .exchange r ∈ tr := by
  constructor
  · intro hreq
    obtain ⟨r, hr⟩ := h.oneWinner.requested.mp hreq
    exact ⟨r, h.called.exchanged r fun hidle => by simp [hidle, Call.isWinner] at hr⟩
  · rintro ⟨r, hr⟩
    exact h.called.requested r hr

/-! ### Stop has been requested -/

def Label.isExchange : Label κ ρ → Bool
  | .exchange _ => true
  | _ => false

theorem requested_step (h : step s l = some s') :
    s'.source.requested = (s.source.requested || l.isExchange) := by
  cases step_move h with
  | win => simp [Label.isExchange]
  | lose _ hreq => simp [hreq]
  | finish | pop | run | ran | enterRegister | register | refuse | invoke | invoked | unregister =>
      exact (Bool.or_false _).symm

theorem requested_of_refused (h : Run step State.init tr s) (hcb : s.life cb = .refused) :
    s.source.requested = true := by
  refine Run.induction (P := fun _ s => s.life cb = .refused → s.source.requested = true)
    (by simp [State.init]) ?_ h hcb
  intro tr s l s' hr ih hs hlife
  rw [requested_step hs]
  by_cases hold : s.life cb = .refused
  · simp [ih hold]
  · have hstep := lifeStep_of_step hs cb
    rw [hlife] at hstep
    generalize hli : Life.refused = li at hstep
    cases hstep with
    | same => exact absurd hli.symm hold
    | refuse hm => simp [((reached_of_run hr).listOk.mutex cb true hm).2 rfl]
    | enter | register | invoke | invoked | unregister => cases hli

/-- A callback is called when stop has been requested. -/
theorem requested_of_invocation (hr : Run step State.init tr s) (hs : step s l = some s')
    (hl : l.invocation = some cb) : s.source.requested = true := by
  have hreached := reached_of_run hr
  cases step_move hs with
  | @run r x hcall => exact hreached.oneWinner.requested.mpr ⟨r, by rw [hcall]; rfl⟩
  | invoke hcb => exact requested_of_refused hr hcb
  | win | lose | finish | pop | ran | enterRegister | register | refuse | invoked | unregister =>
      cases hl

theorem requested_of_mem_invocations (h : Run step State.init tr s) (hcb : cb ∈ invocations tr) :
    s.source.requested = true := by
  refine Run.induction (P := fun tr s => cb ∈ invocations tr → s.source.requested = true)
    (fun h => by simp [invocations] at h) ?_ h hcb
  intro tr s l s' hr ih hs hmem
  rw [requested_step hs]
  rw [invocations_concat, List.mem_append] at hmem
  rcases hmem with hmem | hmem
  · rw [ih hmem, Bool.true_or]
  · rw [requested_of_invocation hr hs (by simpa using hmem), Bool.true_or]

/-! ### The mutex and the calls -/

/-- Who holds the mutex has held it, or enters with what the flag is. -/
theorem mutex_step (hs : step s l = some s') {b : Bool} (hm : s'.mutex = some (cb, b)) :
    s.mutex = some (cb, b) ∨ l = .enterRegister cb ∧ s.source.requested = b := by
  cases step_move hs with
  | enterRegister =>
      obtain ⟨rfl, rfl⟩ : _ = cb ∧ _ = b := by simpa using hm
      exact .inr ⟨rfl, rfl⟩
  | register | refuse => cases hm
  | win | lose | finish | pop | run | ran | invoke | invoked | unregister => exact .inl hm

/-- A callback under construction holds the mutex. -/
theorem mutex_of_constructing (h : Run step State.init tr s) (hcb : s.life cb = .constructing) :
    ∃ b, s.mutex = some (cb, b) := by
  refine Run.induction (P := fun _ s => s.life cb = .constructing → ∃ b, s.mutex = some (cb, b))
    (by simp [State.init]) ?_ h hcb
  intro tr s l s' hr ih hs hlife
  have hother {x : κ} {li : Life} (hli : li ≠ .constructing)
      (hlife : Function.update s.life x li cb = .constructing) :
      x ≠ cb ∧ ∃ b, s.mutex = some (cb, b) := by
    rcases eq_or_ne cb x with rfl | hne
    · simp [hli] at hlife
    · rw [Function.update_of_ne hne] at hlife
      exact ⟨hne.symm, ih hlife⟩
  cases step_move hs with
  | win | lose | finish | pop | run | ran => exact ih hlife
  | @enterRegister x _ hm =>
      rcases eq_or_ne cb x with rfl | hne
      · exact ⟨_, rfl⟩
      · obtain ⟨b, hb⟩ := ih (by simpa [State.setLife, hne] using hlife)
        simp [hm] at hb
  | register hm | refuse hm =>
      obtain ⟨hne, b, hb⟩ := hother (by simp) hlife
      simp [hm, hne] at hb
  | invoke | invoked | unregister => exact (hother (by simp) hlife).2

/-- A call begins with the exchange. -/
theorem idle_step (hs : step s l = some s') (hl : l ≠ .exchange r) :
    s'.calls r = .idle ↔ s.calls r = .idle := by
  have hcase {x : ρ} {c : Call κ} (hx : s.calls x ≠ .idle) (hc : c ≠ .idle) :
      Function.update s.calls x c r = .idle ↔ s.calls r = .idle := by
    rcases eq_or_ne r x with rfl | hne
    · simp [hx, hc]
    · rw [Function.update_of_ne hne]
  cases step_move hs with
  | win | lose =>
      have hne : r ≠ _ := fun e => hl (e ▸ rfl)
      simp [hne]
  | finish hr | pop hr | run hr | ran hr => exact hcase (by simp [hr]) (by simp)
  | enterRegister | register | refuse | invoke | invoked | unregister => exact Iff.rfl

theorem ne_idle_of_exchange (h : Run step State.init tr s) (hmem : .exchange r ∈ tr) :
    s.calls r ≠ .idle := by
  refine Run.induction (P := fun tr s => .exchange r ∈ tr → s.calls r ≠ .idle)
    (fun h => by simp at h) ?_ h hmem
  intro tr s l s' _ ih hs hmem
  by_cases hl : l = .exchange r
  · subst hl
    cases step_move hs with
    | win | lose => simp
  · rw [Ne, idle_step hs hl]
    exact ih (by simpa [Ne.symm hl] using hmem)

/-- A callback inside its `run` has been called. -/
theorem mem_invocations_of_running (h : Run step State.init tr s) (hr : s.calls r = .running cb) :
    cb ∈ invocations tr := by
  refine Run.induction (P := fun tr s => s.calls r = .running cb → cb ∈ invocations tr)
    (by simp [State.init]) ?_ h hr
  intro tr s l s' _ ih hs hr
  rw [invocations_concat, List.mem_append]
  have hother {x : ρ} {c : Call κ} (hc : c ≠ .running cb)
      (hr : Function.update s.calls x c r = .running cb) : cb ∈ invocations tr := by
    rcases eq_or_ne r x with rfl | hne
    · simp [hc] at hr
    · exact ih (by rwa [Function.update_of_ne hne] at hr)
  cases step_move hs with
  | win | lose | finish | pop | ran => exact .inl (hother (by simp) hr)
  | @run x cb' _ =>
      by_cases hcb : cb' = cb
      · exact .inr (by simp [Label.invocation, hcb])
      · exact .inl (hother (by simpa using hcb) hr)
  | enterRegister | register | refuse | invoke | invoked | unregister => exact .inl (ih hr)

omit [DecidableEq ρ] in
theorem mem_invocations_of_invoking (h : Reached tr s) (hcb : s.life cb = .invoking) :
    cb ∈ invocations tr :=
  mem_invocations.mpr (.inr (h.fates.fateOk hcb).2.2.1)

theorem returned_step (hs : step s l = some s') (hr : (s.calls r).isReturned = true) :
    (s'.calls r).isReturned = true := by
  have hcase {x : ρ} {c : Call κ} (hx : (s.calls x).isReturned = false) :
      (Function.update s.calls x c r).isReturned = true := by
    have hne : r ≠ x := by
      rintro rfl
      simp [hr] at hx
    rwa [Function.update_of_ne hne]
  cases step_move hs with
  | win hx | lose hx | finish hx | pop hx | run hx | ran hx => exact hcase (by rw [hx]; rfl)
  | enterRegister | register | refuse | invoke | invoked | unregister => exact hr

def Call.inProgress : Call κ → Bool
  | .draining | .popped _ | .running _ => true
  | .idle | .returned _ => false

omit [DecidableEq κ] in
/-- The winner is back, or it is the one in progress. -/
theorem returned_of_isWinner {c : Call κ} (h : c.isWinner = true) (hc : c.inProgress = false) :
    c = .returned true := by
  cases c with
  | returned won => cases won <;> simp_all [Call.isWinner]
  | idle => cases h
  | draining | popped | running => cases hc

omit [DecidableEq κ] [DecidableEq ρ] in
theorem OneWinner.inProgress (h : OneWinner s) (hr : s.calls r = .returned true) (r' : ρ) :
    (s.calls r').inProgress = false := by
  cases hc : (s.calls r').inProgress with
  | false => rfl
  | true =>
      have hwinner : (s.calls r').isWinner = true := by
        cases hcall : s.calls r' <;> simp_all [Call.inProgress, Call.isWinner]
      obtain rfl := h.unique r' r hwinner (by rw [hr]; rfl)
      simp [hr, Call.inProgress] at hc

/-! ### A registration that comes too late -/

/-- Stop was requested before the registration of `cb` has read the flag. -/
structure Late (cb : κ) (s : State κ ρ) : Prop where
  requested : s.source.requested = true
  mutex : s.mutex ≠ some (cb, false)
  life : s.life cb ≠ .registered

theorem Late.step (h : Late cb s) (hs : step s l = some s') : Late cb s' where
  requested := by simp [requested_step hs, h.requested]
  mutex := fun hm => by
    rcases mutex_step hs hm with hold | ⟨-, hreq⟩
    · exact h.mutex hold
    · simp [h.requested] at hreq
  life := fun hlife => by
    have hls := lifeStep_of_step hs cb
    rw [hlife] at hls
    generalize hli : Life.registered = li at hls
    cases hls with
    | same => exact h.life hli.symm
    | register hm => exact h.mutex hm
    | enter | refuse | invoke | invoked | unregister => cases hli

theorem Late.run (h : Late cb s) (hr : Run StopToken.step s tr s') : Late cb s' :=
  Run.induction (P := fun _ s => Late cb s) h (fun _ _ _ _ _ ih hs => ih.step hs) hr

end BaremetalSenders.StopToken
