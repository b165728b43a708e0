import BaremetalSenders.Schedulers.TimerInvariant
import Mathlib.Order.Lattice
import Mathlib.Order.RelClasses

/-!
The timer manager over whole runs: its representation, what it asks of the HAL,
and what it owes to the owners of the tasks.

A scheduled task is an item of a ledger. Scheduling arms it and it is settled
by the activation of `service_task` that pops it or by a `cancel`; the ledger
is at the same time the order of scheduling in which tasks of equal expiration
times are served. A popped task belongs to the activation that popped it until
that activation has run it.
-/

namespace BaremetalSenders.Timer

variable {α τ δ : Type*}

def Event.entry : Event α τ δ → Option (Entry α)
  | .runAfter t _ _ true | .runAt t _ _ true => some (.arm t)
  | .cancel t true => some (.settle t)
  | .service (some t) => some (.settle t)
  | _ => none

def Event.popped : Event α τ δ → Option α
  | .service t => t
  | _ => none

def Event.ran : Event α τ δ → Option α
  | .run t => some t
  | _ => none

def Event.finished : Event α τ δ → Option α
  | .finish t => some t
  | _ => none

/-- The calls that report that there was nothing to do. -/
def Event.Refused : Event α τ δ → Prop
  | .runAfter _ _ _ added | .runAt _ _ _ added => added = false
  | .cancel _ cancelled => cancelled = false
  | _ => False

structure Keeps [LT τ] (s : State α τ δ) (q : List α) : Prop where
  good : Good s.mgr q
  count : s.mgr.taskCount = q.length + s.popped.length + s.running.length

section Step

variable [DecidableEq α] [LT τ] [DecidableLT τ] [HAdd τ δ τ] {fused : Bool}
  {s s' : State α τ δ} {q : List α} {t : α} {e : Event α τ δ}

/-! ### What a step does to the manager -/

theorem step_runAfter {d : δ} {reading : τ} {added : Bool}
    (h : step fused s (.runAfter t d reading added) = some s') :
    ∃ m, s.mgr.runAfter fused t d reading = (added, m) ∧ s' = { s with mgr := m } := by
  simp only [step] at h
  split at h <;> cases h
  next hadded => exact ⟨_, Prod.ext hadded rfl, rfl⟩

theorem step_runAt {ep : ExpirationProvider τ} {readings : List τ} {added : Bool}
    (h : step fused s (.runAt t ep readings added) = some s') :
    ∃ m, s.mgr.runAt t ep readings = some (added, m) ∧ s' = { s with mgr := m } := by
  obtain ⟨⟨b, m⟩, hm, hb⟩ := Option.bind_eq_some_iff.mp h
  dsimp only at hb
  split at hb <;> cases hb
  next hadded => exact ⟨m, hadded ▸ hm, rfl⟩

theorem step_cancel {cancelled : Bool} (h : step fused s (.cancel t cancelled) = some s') :
    ∃ m, s.mgr.cancel t = (cancelled, m) ∧ s' = { s with mgr := m } := by
  simp only [step] at h
  split at h <;> cases h
  next hcancelled => exact ⟨_, Prod.ext hcancelled rfl, rfl⟩

theorem step_service {popped : Option α} (h : step fused s (.service popped) = some s') :
    ∃ m, s.mgr.popTask = (popped, m) ∧
      s' = { s with mgr := m, popped := popped.toList ++ s.popped } := by
  simp only [step] at h
  split at h <;> cases h
  next hpopped => exact ⟨_, Prod.ext hpopped rfl, rfl⟩

theorem step_run (h : step fused s (.run t) = some s') :
    t ∈ s.popped ∧ s' = { s with popped := s.popped.erase t, running := t :: s.running } := by
  simp only [step] at h
  split at h <;> cases h
  next ht => exact ⟨ht, rfl⟩

theorem step_finish (h : step fused s (.finish t) = some s') :
    t ∈ s.running ∧ s' = { s with
      mgr := { s.mgr with taskCount := s.mgr.taskCount - 1 }
      running := s.running.erase t } := by
  simp only [step] at h
  split at h <;> cases h
  next ht => exact ⟨ht, rfl⟩

/-! ### What a step does to the ledger -/

theorem run_arm (ht : t ∉ q) : Run Ledger.step q [.arm t] (q ++ [t]) :=
  run_cons.mpr ⟨_, Ledger.step_arm.mpr ⟨ht, rfl⟩, run_nil.mpr rfl⟩

theorem run_settle (ht : t ∈ q) : Run Ledger.step q [.settle t] (q.erase t) :=
  run_cons.mpr ⟨_, Ledger.step_settle.mpr ⟨ht, rfl⟩, run_nil.mpr rfl⟩

variable [IsStrictWeakOrder τ (· < ·)]

/-- Every step makes the ledger entry of its event. -/
theorem Keeps.step (hk : Keeps s q) (h : step fused s e = some s') :
    ∃ q', Run Ledger.step q e.entry.toList q' ∧ Keeps s' q' := by
  have hcount := hk.count
  cases e with
  | runAfter t d reading added =>
      obtain ⟨m, hm, rfl⟩ := step_runAfter h
      rcases hk.good.runAfter hm with ⟨rfl, -, rfl⟩ | ⟨rfl, ht, hgood, hc⟩
      · exact ⟨q, run_nil.mpr rfl, hk⟩
      · exact ⟨q ++ [t], run_arm ht, hgood, by simp [hc, hcount]; omega⟩
  | runAt t ep readings added =>
      obtain ⟨m, hm, rfl⟩ := step_runAt h
      rcases hk.good.runAt hm with ⟨rfl, -, rfl⟩ | ⟨rfl, ht, hgood, hc⟩
      · exact ⟨q, run_nil.mpr rfl, hk⟩
      · exact ⟨q ++ [t], run_arm ht, hgood, by simp [hc, hcount]; omega⟩
  | cancel t cancelled =>
      obtain ⟨m, hm, rfl⟩ := step_cancel h
      rcases hk.good.cancel hm with ⟨rfl, -, rfl⟩ | ⟨rfl, ht, hgood, hc⟩
      · exact ⟨q, run_nil.mpr rfl, hk⟩
      · have hlen := List.length_erase_add_one ht
        exact ⟨q.erase t, run_settle ht, hgood, by simp [hc, hcount]; omega⟩
  | service popped =>
      obtain ⟨m, hm, rfl⟩ := step_service h
      rcases hk.good.popTask hm with ⟨rfl, -, rfl⟩ | ⟨t, rfl, ht, hgood, hc, -⟩
      · exact ⟨q, run_nil.mpr rfl, hk⟩
      · have hlen := List.length_erase_add_one ht
        exact ⟨q.erase t, run_settle ht, hgood, by simp [hc, hcount]; omega⟩
  | run t =>
      obtain ⟨ht, rfl⟩ := step_run h
      have hlen := List.length_erase_add_one ht
      exact ⟨q, run_nil.mpr rfl, hk.good, by simp [hcount]; omega⟩
  | finish t =>
      obtain ⟨ht, rfl⟩ := step_finish h
      have hlen := List.length_erase_add_one ht
      exact ⟨q, run_nil.mpr rfl, { hk.good with }, by simp [hcount]; omega⟩

theorem keeps_of_run {expirationTime : α → τ} {tr : List (Event α τ δ)}
    (h : Run (Timer.step fused) (.init expirationTime) tr s) :
    ∃ q, Run Ledger.step [] (tr.filterMap Event.entry) q ∧ Keeps s q :=
  h.ledger Event.entry ⟨good_init expirationTime, rfl⟩ (fun _ _ _ _ hk _ hs => hk.step hs)
    (EachStep.trivial tr)

omit [IsStrictWeakOrder τ (· < ·)] in
/-- What was popped is run once, or still to be run; what was run has finished once,
or is still running. -/
theorem activations_of_run {s₀ : State α τ δ} (hpop : s₀.popped = []) (hrunning : s₀.running = [])
    {tr : List (Event α τ δ)} (h : Run (Timer.step fused) s₀ tr s) :
    (tr.filterMap Event.popped).Perm (tr.filterMap Event.ran ++ s.popped) ∧
      (tr.filterMap Event.ran).Perm (tr.filterMap Event.finished ++ s.running) := by
  refine Run.induction (P := fun tr s =>
    (tr.filterMap Event.popped).Perm (tr.filterMap Event.ran ++ s.popped) ∧
      (tr.filterMap Event.ran).Perm (tr.filterMap Event.finished ++ s.running))
    (by simp [hpop, hrunning]) ?_ h
  intro tr s e s' _ ih hs
  simp only [List.filterMap_append]
  cases e with
  | runAfter t d reading added =>
      obtain ⟨m, -, rfl⟩ := step_runAfter hs
      simpa [List.filterMap_cons, Event.popped, Event.ran, Event.finished] using ih
  | runAt t ep readings added =>
      obtain ⟨m, -, rfl⟩ := step_runAt hs
      simpa [List.filterMap_cons, Event.popped, Event.ran, Event.finished] using ih
  | cancel t cancelled =>
      obtain ⟨m, -, rfl⟩ := step_cancel hs
      simpa [List.filterMap_cons, Event.popped, Event.ran, Event.finished] using ih
  | service popped =>
      obtain ⟨m, -, rfl⟩ := step_service hs
      refine ⟨?_, by simpa [List.filterMap_cons, Event.ran, Event.finished] using ih.2⟩
      cases popped with
      | none => simpa [List.filterMap_cons, Event.popped, Event.ran] using ih.1
      | some t =>
          simp only [Event.popped, Event.ran, List.filterMap_cons, List.filterMap_nil,
            List.append_nil, Option.toList, List.singleton_append]
          exact (ih.1.append_right [t]).trans
            ((List.perm_append_singleton t _).trans List.perm_middle.symm)
  | run t =>
      obtain ⟨ht, rfl⟩ := step_run hs
      simp only [Event.popped, Event.ran, Event.finished, List.filterMap_cons,
        List.filterMap_nil, List.append_nil]
      constructor
      · refine ih.1.trans ?_
        rw [List.append_assoc, List.singleton_append]
        exact (List.perm_cons_erase ht).append_left _
      · exact (ih.2.append_right [t]).trans
          ((List.perm_append_singleton t _).trans List.perm_middle.symm)
  | finish t =>
      obtain ⟨ht, rfl⟩ := step_finish hs
      simp only [Event.popped, Event.ran, Event.finished, List.filterMap_cons,
        List.filterMap_nil, List.append_nil]
      refine ⟨ih.1, ih.2.trans ?_⟩
      rw [List.append_assoc, List.singleton_append]
      exact (List.perm_cons_erase ht).append_left _

/-! ### The results -/

/-- The tasks are as their flags say and in order, and the HAL is programmed for the
first of them. -/
structure Consistent (s : State α τ δ) : Prop where
  pending : ∀ t, s.mgr.pending t = true ↔ t ∈ s.mgr.taskQueue
  nodup : s.mgr.taskQueue.Nodup
  sorted : s.mgr.taskQueue.Pairwise fun t u => ¬ s.mgr.expirationTime u < s.mgr.expirationTime t
  /-- With no task queued the HAL has permitted all calls so far and is disabled. -/
  disabled : s.mgr.taskQueue = [] → Run halStep .disabled s.mgr.hal .disabled
  /-- With a task queued it is enabled, and programmed for the first task. -/
  programmed : ∀ t ts, s.mgr.taskQueue = t :: ts →
    Run halStep .disabled s.mgr.hal (.enabled (some (s.mgr.expirationTime t)))
  turns : Ledger.Alternates () (s.mgr.hal.filterMap HalCall.power)

/-- After every critical section of every run the manager is consistent. -/
theorem consistent_of_run {expirationTime : α → τ} {tr : List (Event α τ δ)}
    (h : Run (step fused) (.init expirationTime) tr s) : Consistent s := by
  obtain ⟨q, -, hgood, -⟩ := keeps_of_run h
  have hhal := hgood.hal
  exact {
    pending := fun t => (hgood.pending t).trans hgood.mem_iff.symm
    nodup := hgood.perm.nodup_iff.mpr hgood.nodup
    sorted := hgood.order.imp Before.not_lt
    disabled := fun hq => by simpa only [Manager.halState, hq] using hhal
    programmed := fun t ts hq => by simpa only [Manager.halState, hq] using hhal
    turns := power_alternates hhal }

/-- After the events `tr` the manager is in the state `s`, and `q` are the tasks that
were scheduled and neither served nor cancelled since, in the order of scheduling. -/
structure Served (fused : Bool) (tr : List (Event α τ δ)) (s : State α τ δ) (q : List α) :
    Prop where
  ledger : Run Ledger.step [] (tr.filterMap Event.entry) q
  /-- Between two successful schedulings of a task it is popped once or cancelled once. -/
  matched : ∀ t, Ledger.Alternates t (tr.filterMap Event.entry)
  pending : ∀ t, s.mgr.pending t = true ↔ t ∈ q
  /-- Each popped task is run exactly once by the activation that popped it. -/
  runs : (tr.filterMap Event.popped).Perm (tr.filterMap Event.ran ++ s.popped)
  finishes : (tr.filterMap Event.ran).Perm (tr.filterMap Event.finished ++ s.running)
  refused : ∀ e s', e.Refused → step fused s e = some s' → s' = s
  /-- `service_task` pops the task with the least expiration time, among equal ones the
  one scheduled first. -/
  least : ∀ t s', step fused s (.service (some t)) = some s' →
    t ∈ q ∧ ∀ u ∈ q, u ≠ t → Before (· < ·) s.mgr.expirationTime q t u
  /-- It finds nothing to pop only if no task is scheduled. -/
  nothing : ∀ s', step fused s (.service none) = some s' → q = []
  count : s.mgr.taskCount = q.length + s.popped.length + s.running.length
  idle : s.mgr.isIdle = true → (∀ t, s.mgr.pending t = false) ∧ s.popped = [] ∧ s.running = []

omit [DecidableLT τ] [HAdd τ δ τ] [IsStrictWeakOrder τ (· < ·)] in
theorem Keeps.idle (hk : Keeps s q) (h : s.mgr.isIdle = true) :
    (∀ t, s.mgr.pending t = false) ∧ s.popped = [] ∧ s.running = [] := by
  have hcount := hk.count
  have hzero : s.mgr.taskCount = 0 := by simpa [Manager.isIdle] using h
  have hq : q = [] := List.length_eq_zero_iff.mp (by omega)
  exact ⟨fun t => by simp [hk.good.pending_eq, hq], List.length_eq_zero_iff.mp (by omega),
    List.length_eq_zero_iff.mp (by omega)⟩

theorem Keeps.refused (hk : Keeps s q) (he : e.Refused) (h : Timer.step fused s e = some s') :
    s' = s := by
  cases e with
  | runAfter t d reading added =>
      obtain ⟨m, hm, rfl⟩ := step_runAfter h
      rcases hk.good.runAfter hm with ⟨-, -, rfl⟩ | ⟨rfl, -⟩
      · rfl
      · cases he
  | runAt t ep readings added =>
      obtain ⟨m, hm, rfl⟩ := step_runAt h
      rcases hk.good.runAt hm with ⟨-, -, rfl⟩ | ⟨rfl, -⟩
      · rfl
      · cases he
  | cancel t cancelled =>
      obtain ⟨m, hm, rfl⟩ := step_cancel h
      rcases hk.good.cancel hm with ⟨-, -, rfl⟩ | ⟨rfl, -⟩
      · rfl
      · cases he
  | service | run | finish => exact he.elim

/-- Every task that was scheduled is accounted for, and served in its turn. -/
theorem served_of_run {expirationTime : α → τ} {tr : List (Event α τ δ)}
    (h : Run (step fused) (.init expirationTime) tr s) : ∃ q, Served fused tr s q := by
  obtain ⟨q, hl, hk⟩ := keeps_of_run h
  obtain ⟨hruns, hfinishes⟩ := activations_of_run rfl rfl h
  refine ⟨q, {
    ledger := hl
    matched := Ledger.alternates_of_run hl
    pending := hk.good.pending
    runs := hruns
    finishes := hfinishes
    refused := fun e s' he hs => hk.refused he hs
    least := ?_
    nothing := ?_
    count := hk.count
    idle := hk.idle }⟩
  · intro t s' hs
    obtain ⟨m, hm, rfl⟩ := step_service hs
    rcases hk.good.popTask hm with ⟨hnone, -⟩ | ⟨u, hu, hmem, -, -, hleast⟩
    · cases hnone
    · cases hu
      exact ⟨hmem, hleast⟩
  · intro s' hs
    obtain ⟨m, hm, rfl⟩ := step_service hs
    rcases hk.good.popTask hm with ⟨-, hq, -⟩ | ⟨u, hu, -⟩
    · exact hq
    · cases hu

end Step

/-- Time points that are linearly ordered will do. -/
instance isStrictWeakOrder_lt [LinearOrder τ] : IsStrictWeakOrder τ (· < ·) :=
  isStrictWeakOrder_of_isOrderConnected

/-- Three tasks; the first is due and scheduled again while it runs, the last one is
cancelled meanwhile. -/
def reschedule : List (Event ℕ ℕ ℕ) :=
  [.runAfter 0 5 0 true, .runAt 1 (.answer 7) [] true, .runAfter 2 5 1 true,
    .service (some 0), .run 0, .runAfter 0 6 5 true, .cancel 2 true, .finish 0]

theorem consistent_of_run_reschedule :
    ∃ s, Run (step false) (.init fun _ => 0) reschedule s ∧ Consistent s := by
  obtain ⟨s, hs⟩ : ∃ s, Run (step false) (.init fun _ => 0) reschedule s :=
    exists_run_iff.mpr rfl
  exact ⟨s, hs, consistent_of_run hs⟩

theorem served_of_run_reschedule : ∃ s q, Served true reschedule s q := by
  obtain ⟨s, hs⟩ : ∃ s, Run (step true) (.init fun _ => 0) reschedule s :=
    exists_run_iff.mpr rfl
  exact ⟨s, served_of_run hs⟩

end BaremetalSenders.Timer
