import BaremetalSenders.StopToken.StopDelivery

/-!
What the destructor of a callback can promise.

When `unregister_callback` has returned, its caller destroys the callback, so it
has to be sure that `request_stop` does not call it any more. The section of
`unregister_callback` takes the callback out of the list; but `request_stop`
pops a callback in one section and calls it after the section, and in between
the callback is in no list and its pending flag is false. A destructor that
runs in this gap finds nothing to do and returns, and then the callback is
called. `run_after_unregister_iff` shows that this gap is all there is to it.
-/

namespace BaremetalSenders.StopToken

variable {κ ρ : Type*} [DecidableEq κ] [DecidableEq ρ]
variable {s s' : State κ ρ} {tr : List (Label κ ρ)} {l : Label κ ρ} {cb : κ}

def NeverRun (s : State κ ρ) (cb : κ) : Prop :=
  ∀ tr s', Run step s tr s' → ∀ r, .run r cb ∉ tr

/-- The callback has been destroyed and is in no call's hands. -/
structure Gone (cb : κ) (s : State κ ρ) : Prop where
  destroyed : s.life cb = .destroyed
  unpopped : ∀ r, s.calls r ≠ .popped cb

omit [DecidableEq κ] in
theorem Gone.setCall {r : ρ} {c : Call κ} (h : Gone cb s) (hc : c ≠ .popped cb)
    (hlife : s'.life = s.life) (hcalls : s'.calls = Function.update s.calls r c) :
    Gone cb s' := by
  refine ⟨by rw [hlife, h.destroyed], fun r' => ?_⟩
  rw [hcalls]
  rcases eq_or_ne r' r with rfl | hne
  · rwa [Function.update_self]
  · rw [Function.update_of_ne hne]
    exact h.unpopped r'

omit [DecidableEq ρ] in
/-- A step in the life of a callback that has not been destroyed. -/
theorem Gone.setLife {cb' : κ} {li : Life} (h : Gone cb s) (hcb' : s.life cb' ≠ .destroyed)
    (hlife : s'.life = Function.update s.life cb' li) (hcalls : s'.calls = s.calls) :
    Gone cb s' := by
  have hne : cb ≠ cb' := fun e => hcb' (e ▸ h.destroyed)
  refine ⟨?_, hcalls ▸ h.unpopped⟩
  rw [hlife, Function.update_of_ne hne, h.destroyed]

theorem Gone.step (h : Gone cb s) (hlist : ListOk s) (hs : step s l = some s') :
    Gone cb s' ∧ ∀ r, l ≠ .run r cb := by
  cases step_move hs with
  | win | lose | finish | ran => exact ⟨h.setCall (by simp) rfl rfl, by simp⟩
  | @pop r cb' cbs _ _ hcbs =>
      -- What is in the list has not been destroyed.
      have hmem : s.life cb' = .registered := hlist.registered cb' (by simp [hcbs])
      have hne : cb' ≠ cb := by
        rintro rfl
        simp [h.destroyed] at hmem
      exact ⟨h.setCall (by simpa using hne) rfl rfl, by simp⟩
  | @run r cb' hr =>
      have hne : cb' ≠ cb := fun e => h.unpopped r (e ▸ hr)
      exact ⟨h.setCall (by simp) rfl rfl, by simp [hne]⟩
  | enterRegister hcb | invoke hcb | invoked hcb =>
      exact ⟨h.setLife (by simp [hcb]) rfl rfl, by simp⟩
  | register hm | refuse hm =>
      exact ⟨h.setLife (by simp [(hlist.mutex _ _ hm).1]) rfl rfl, by simp⟩
  | @unregister cb' hcb =>
      have hlife : s.life cb' ≠ .destroyed := by rcases hcb with hcb | hcb <;> simp [hcb]
      exact ⟨h.setLife hlife rfl rfl, by simp⟩

theorem Gone.neverRun (h : Gone cb s) (hlist : ListOk s) : NeverRun s cb := by
  intro tr s' hr r hmem
  refine Run.forall_mem (I := fun s => Gone cb s ∧ ListOk s) (P := fun l => ∀ r, l ≠ .run r cb)
    ⟨h, hlist⟩ (fun s l s' hinv hs => ?_) hr _ hmem r rfl
  obtain ⟨hgone, hl⟩ := hinv.1.step hinv.2 hs
  exact ⟨⟨hgone, hinv.2.step hs⟩, hl⟩

/-- A callback in a call's hands is called next. -/
theorem not_neverRun_of_popped {r : ρ} (hr : s.calls r = .popped cb) : ¬ NeverRun s cb := by
  intro hnever
  have hrun : Run step s [.run r cb] (s.setCall r (.running cb)) := by simp [step, hr]
  exact hnever _ _ hrun r (by simp)

/-- A callback is not run after the section of its destructor exactly when no call of
`request_stop` has popped it before and has yet to run it. -/
theorem run_after_unregister_iff {removed : Bool} (h : Run step State.init tr s)
    (hs : step s (.unregister cb removed) = some s') :
    NeverRun s' cb ↔ ∀ r, s.calls r ≠ .popped cb := by
  have hlist : ListOk s := (reached_of_run h).listOk
  cases step_move hs with
  | unregister =>
      constructor
      · intro hnever r hr
        exact not_neverRun_of_popped (r := r) (by simpa using hr) hnever
      · intro hfree
        have hgone : Gone cb ((s.unregisterCallback cb).setLife cb .destroyed) :=
          ⟨by simp, by simpa using hfree⟩
        exact hgone.neverRun (hlist.step hs)

/-- The callback is removed from the list while a stop request is running another one. -/
def removedInTime : List (Label ℕ ℕ) :=
  [.enterRegister 0, .leaveRegister 0 true, .enterRegister 1, .leaveRegister 1 true, .exchange 0,
    .getNextCb 0 (some 0), .run 0 0]

theorem run_after_unregister_iff_removedInTime :
    ∃ s s', Run step .init removedInTime s ∧ step s (.unregister 1 true) = some s' ∧
      (NeverRun s' 1 ↔ ∀ r, s.calls r ≠ .popped 1) := by
  obtain ⟨s', hs'⟩ : ∃ s', Run step .init (removedInTime ++ [.unregister 1 true]) s' :=
    exists_run_iff.mpr rfl
  obtain ⟨s, hs, hl⟩ := run_concat.mp hs'
  exact ⟨s, s', hs, hl, run_after_unregister_iff hs hl⟩

/-- The callback is popped, then destroyed from another context, and then run. -/
theorem not_neverRun_after_pop :
    ¬ ∀ (tr : List (Label ℕ ℕ)) (s s' : State ℕ ℕ) (cb : ℕ) (removed : Bool),
      Run step .init tr s → step s (.unregister cb removed) = some s' → NeverRun s' cb := by
  intro hevery
  obtain ⟨s'', hs''⟩ : ∃ s, Run step State.init ([.enterRegister 0, .leaveRegister 0 true,
      .exchange 0, .getNextCb 0 (some 0)] ++ [.unregister 0 false] ++ [.run 0 0]) s :=
    exists_run_iff.mpr rfl
  obtain ⟨s', hs', hrun⟩ := run_append.mp hs''
  obtain ⟨s, hs, hl⟩ := run_concat.mp hs'
  exact hevery _ s s' 0 false hs hl _ _ hrun 0 (by simp)

end BaremetalSenders.StopToken
