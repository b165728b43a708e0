import BaremetalSenders.StopToken.StopCallbacks

/-!
The contract of the stop source.

In every interleaving of the calls of `request_stop` and of the constructors and
destructors of the callbacks, one call wins, no callback is called twice, a
refused callback is called by its constructor, and when the winning call
returns every callback that was registered and not removed has been run. A
registration that straddles the exchange is no exception: what it pushes is in
the list before the winner can look into it.
-/

namespace BaremetalSenders.StopToken

variable {κ ρ : Type*} [DecidableEq κ] [DecidableEq ρ]
variable {s s' : State κ ρ} {tr : List (Label κ ρ)} {l : Label κ ρ} {r : ρ} {cb : κ}

/-! ### The calls of `request_stop` -/

/-- A call that is not idle has done its exchange, and an exchange leaves the flag set. -/
structure Called (tr : List (Label κ ρ)) (s : State κ ρ) : Prop where
  exchanged : ∀ r, s.calls r ≠ .idle → .exchange r ∈ tr
  requested : ∀ r, .exchange r ∈ tr → s.source.requested = true

omit [DecidableEq κ] [DecidableEq ρ] in
theorem called_init : Called [] (State.init : State κ ρ) := by
  constructor <;> simp [State.init]

theorem Called.step (h : Called tr s) (hs : step s l = some s') : Called (tr ++ [l]) s' := by
  -- A call that goes on was not idle before.
  have hcont {r : ρ} {c : Call κ} (hr : s.calls r ≠ .idle) (r' : ρ)
      (hr' : Function.update s.calls r c r' ≠ .idle) : .exchange r' ∈ tr ++ [l] := by
    rcases eq_or_ne r' r with rfl | hne
    · simp [h.exchanged r' hr]
    · rw [Function.update_of_ne hne] at hr'
      simp [h.exchanged r' hr']
  have hnew {r : ρ} {c : Call κ} (hl : l = .exchange r) (r' : ρ)
      (hr' : Function.update s.calls r c r' ≠ .idle) : .exchange r' ∈ tr ++ [l] := by
    rcases eq_or_ne r' r with rfl | hne
    · simp [hl]
    · rw [Function.update_of_ne hne] at hr'
      simp [h.exchanged r' hr']
  cases step_move hs with
  | win => exact ⟨hnew rfl, fun _ _ => rfl⟩
  | lose _ hreq => exact ⟨hnew rfl, fun _ _ => hreq⟩
  | finish hr | pop hr | run hr | ran hr =>
      exact ⟨hcont (by simp [hr]), fun r' hmem => h.requested r' (by simpa using hmem)⟩
  | enterRegister | register | refuse | invoke | invoked | unregister =>
      refine ⟨fun r' hr' => ?_, fun r' hmem => h.requested r' (by simpa using hmem)⟩
      simp [h.exchanged r' hr']

/-! ### The invariant -/

structure Reached (tr : List (Label κ ρ)) (s : State κ ρ) : Prop where
  oneWinner : OneWinner s
  listOk : ListOk s
  nothingLeft : NothingLeft s
  fates : Fates tr s
  ordered : Ordered tr s
  called : Called tr s

theorem reached_of_run (h : Run step State.init tr s) : Reached tr s := by
  refine Run.induction (P := Reached) ?_ (fun tr s l s' _ ih hs => ?_) h
  · exact ⟨oneWinner_init, listOk_init, by simp [NothingLeft, State.init], fates_init,
      ordered_init, called_init⟩
  · exact ⟨ih.oneWinner.step hs, ih.listOk.step hs, ih.nothingLeft.step ih.oneWinner ih.listOk hs,
      ih.fates.step ih.listOk hs, ih.ordered.step ih.oneWinner ih.listOk ih.fates hs,
      ih.called.step hs⟩

/-! ### Every callback is called at most once -/

omit [DecidableEq κ] [DecidableEq ρ] in
theorem FateOk.of_accepted {li : Life} (h : FateOk tr cb li) (hacc : .leaveRegister cb true ∈ tr) :
    .invoke cb ∉ tr := by
  cases li <;> simp_all [FateOk]

omit [DecidableEq κ] [DecidableEq ρ] in
theorem FateOk.of_refused {li : Life} (h : FateOk tr cb li)
    (href : .leaveRegister cb false ∈ tr) : li = .refused ∨ .invoke cb ∈ tr := by
  cases li <;> simp_all [FateOk]

omit [DecidableEq ρ] in
theorem Ordered.accepted_of_popped (h : Ordered tr s) (hcb : cb ∈ popped tr) :
    .leaveRegister cb true ∈ tr := by
  have hkept : cb ∈ kept tr := h.queue ▸ List.mem_append_left _ hcb
  exact mem_accepted.mp (List.mem_of_mem_filter hkept)

omit [DecidableEq ρ] in
theorem Reached.nodup_popped (h : Reached tr s) : (popped tr).Nodup :=
  (h.ordered.queue ▸ h.fates.nodup_kept).of_append_left

omit [DecidableEq ρ] in
/-- What has been run was popped. -/
theorem Reached.popped_of_begun (h : Reached tr s) (hcb : cb ∈ begun tr) : cb ∈ popped tr := by
  cases hreq : s.source.requested with
  | false => simp [(h.ordered.idle hreq).2.1] at hcb
  | true =>
      obtain ⟨r, hr⟩ := h.oneWinner.requested.mp hreq
      exact (h.ordered.hand r hr).1 ▸ List.mem_append_left _ hcb

/-- A callback that is about to be called has not been called. -/
theorem Reached.nodup_invocations_step (h : Reached tr s) (ih : (invocations tr).Nodup)
    (hs : step s l = some s') : (invocations (tr ++ [l])).Nodup := by
  cases step_move hs with
  | @run r cb hr =>
      have hlist : invocations (tr ++ [.run r cb]) = invocations tr ++ [cb] := by
        simp [invocations]
      have hpopped : popped tr = begun tr ++ [cb] := by
        simpa [hr, Call.inHand] using (h.ordered.hand r (by rw [hr]; rfl)).1
      have hnot : cb ∉ invocations tr := by
        rw [mem_invocations]
        rintro (hbegun | hinv)
        · exact (List.nodup_append.mp (hpopped ▸ h.nodup_popped)).2.2 cb hbegun cb (by simp) rfl
        · have hacc : .leaveRegister cb true ∈ tr :=
            h.ordered.accepted_of_popped (by simp [hpopped])
          exact (h.fates.fate cb).of_accepted hacc hinv
      rw [hlist, ← List.concat_eq_append]
      exact ih.concat hnot
  | @invoke cb hcb =>
      have hlist : invocations (tr ++ [.invoke cb]) = invocations tr ++ [cb] := by
        simp [invocations]
      have hfate := h.fates.fateOk hcb
      have hnot : cb ∉ invocations tr := by
        rw [mem_invocations]
        rintro (hbegun | hinv)
        · exact hfate.1 (h.ordered.accepted_of_popped (h.popped_of_begun hbegun))
        · exact hfate.2.2.1 hinv
      rw [hlist, ← List.concat_eq_append]
      exact ih.concat hnot
  | win | lose | finish | pop | ran | enterRegister | register | refuse | invoked | unregister =>
      simpa [invocations] using ih

theorem nodup_invocations_of_run (h : Run step State.init tr s) : (invocations tr).Nodup := by
  refine Run.induction (P := fun tr _ => (invocations tr).Nodup) List.nodup_nil ?_ h
  exact fun tr s l s' hr ih hs => (reached_of_run hr).nodup_invocations_step ih hs

/-! ### The contract -/

/-- What is promised of the calls of `request_stop` and of the callbacks. -/
structure Delivered (tr : List (Label κ ρ)) (s : State κ ρ) : Prop where
  /-- At most one call of `request_stop` returns true, -/
  unique : ∀ r r', s.calls r = .returned true → s.calls r' = .returned true → r = r'
  /-- and one has when all that were begun have returned. -/
  won : (∃ r, .exchange r ∈ tr) →
    (∀ r, .exchange r ∈ tr → ∃ won, s.calls r = .returned won) → ∃ r, s.calls r = .returned true
  pending : ∀ cb, s.pending cb = true ↔ cb ∈ s.source.callbacks
  nodup : s.source.callbacks.Nodup
  once : (invocations tr).Nodup
  /-- A refused callback has been called by its constructor, or this is what comes next. -/
  refused : ∀ cb, .leaveRegister cb false ∈ tr → s.life cb = .refused ∨ .invoke cb ∈ tr
  /-- When the winner has returned, the calls of `run`, in their order, are those of the
  callbacks registered and not removed, in the order of registration. -/
  drained : ∀ r, s.calls r = .returned true → begun tr = kept tr ∧ completed tr = kept tr

omit [DecidableEq ρ] in
theorem Reached.won (h : Reached tr s) (hsome : ∃ r, .exchange r ∈ tr)
    (hall : ∀ r, .exchange r ∈ tr → ∃ won, s.calls r = .returned won) :
    ∃ r, s.calls r = .returned true := by
  obtain ⟨r, hr⟩ := hsome
  obtain ⟨r, hr⟩ := h.oneWinner.requested.mp (h.called.requested r hr)
  have hcalled : s.calls r ≠ .idle := fun e => by simp [e, Call.isWinner] at hr
  obtain ⟨won, hwon⟩ := hall r (h.called.exchanged r hcalled)
  cases won with
  | true => exact ⟨r, hwon⟩
  | false => simp [hwon, Call.isWinner] at hr

omit [DecidableEq ρ] in
theorem Reached.drained (h : Reached tr s) (hr : s.calls r = .returned true) :
    begun tr = kept tr ∧ completed tr = kept tr := by
  obtain ⟨hbegun, hcompleted⟩ := h.ordered.hand r (by rw [hr]; rfl)
  simp only [hr, Call.inHand, Call.inRun, List.append_nil] at hbegun hcompleted
  have hkept : kept tr = popped tr := by
    simpa [(h.nothingLeft r hr).1] using h.ordered.queue
  exact ⟨by rw [hkept, hbegun], by rw [hkept, hbegun, hcompleted]⟩

theorem delivered_of_run (h : Run step State.init tr s) : Delivered tr s := by
  have hreached := reached_of_run h
  refine ⟨fun r r' hr hr' => ?_, hreached.won, hreached.listOk.pending, hreached.listOk.nodup,
    nodup_invocations_of_run h, fun cb => (hreached.fates.fate cb).of_refused,
    fun r => hreached.drained⟩
  exact hreached.oneWinner.unique r r' (by rw [hr]; rfl) (by rw [hr']; rfl)

/-- The registration of callback 0 has read the flag when call 0 wins the exchange, and goes
through; call 1 loses. While callback 0 runs, it constructs and destroys callback 1. -/
def straddle : List (Label ℕ ℕ) :=
  [.enterRegister 0, .exchange 0, .exchange 1, .leaveRegister 0 true, .getNextCb 0 (some 0),
    .run 0 0, .enterRegister 1, .leaveRegister 1 false, .invoke 1, .invoked 1, .unregister 1 false,
    .ran 0 0, .getNextCb 0 none]

theorem delivered_of_run_straddle : ∃ s, Run step .init straddle s ∧ Delivered straddle s := by
  obtain ⟨s, hs⟩ : ∃ s, Run step .init straddle s := exists_run_iff.mpr rfl
  exact ⟨s, hs, delivered_of_run hs⟩

end BaremetalSenders.StopToken
