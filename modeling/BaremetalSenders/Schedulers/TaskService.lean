import BaremetalSenders.Schedulers.TaskOrder

/-!
What the priority task manager guarantees, for every interleaving of enqueues
and calls of `service_tasks`.

First in, first out is a guarantee about each queue and each call. It extends
to all tasks of a priority as long as calls for that priority do not overlap,
whatever calls for the others do:
a second call, from an interrupt between the pop of a task and its `run`, runs
younger tasks before it.
-/

namespace BaremetalSenders.Tasks

open Trigger (RequeuePolicy)

variable {n : ℕ} {α : Type*} [DecidableEq α]

/-! ### One step further -/

theorem enqueue_iff {s s' : State n α} {t : α} {p : Fin n} {added : Bool} (hok : PendingOk s)
    (h : step s (.enqueue t p added) = some s') :
    (added = true ↔ ∀ p', (t, p') ∉ s.outstanding) ∧ (added = false → s' = s) := by
  cases step_move h with
  | refuse _ _ hp =>
      refine ⟨⟨by simp, fun hnone => ?_⟩, fun _ => rfl⟩
      obtain ⟨p', hp'⟩ := (hok.pending t).mp hp
      exact absurd hp' (hnone p')
  | accept _ _ hp =>
      refine ⟨⟨fun _ p' hp' => ?_, fun _ => rfl⟩, by simp⟩
      rw [(hok.pending t).mpr ⟨p', hp'⟩] at hp
      cases hp

theorem mgr_of_observedEmpty {s s' : State n α} {i : ℕ} {p : Fin n} {rqp : RequeuePolicy}
    (h : step s (.observedEmpty i p rqp) = some s') : s'.mgr = s.mgr := by
  simp only [step] at h
  split at h
  · split at h <;> cases h
    rfl
  · cases h

/-- A call that has not returned can take its next step. -/
theorem call_progress {s : State n α} {i : ℕ} {c : Call n α} (hi : s.calls[i]? = some c)
    (hc : c.hand ≠ .returned) : ∃ e s', e.call = some i ∧ step s e = some s' := by
  obtain ⟨p, q, hand⟩ := c
  cases hand with
  | looking =>
      cases hq : s.mgr.queue p q with
      | nil => exact ⟨.observedEmpty i p q.policy, _, rfl, by simp only [step, hi]; simp [hq]; rfl⟩
      | cons t ts =>
          exact ⟨.pop i p q.policy t, _, rfl, by simp only [step, hi, hq]; simp; rfl⟩
  | popped t => exact ⟨.run i p t, _, rfl, by simp only [step, hi]; simp; rfl⟩
  | running t => exact ⟨.finish i p t, _, rfl, by simp only [step, hi]; simp; rfl⟩
  | returned => exact absurd rfl hc

/-- The last element of a list that satisfies a predicate, with what is around it. -/
theorem exists_last_filter {β : Type*} {P : β → Bool} {l : List β} {x : β}
    (h : (l.filter P).getLast? = some x) :
    ∃ l₁ l₂, l = l₁ ++ x :: l₂ ∧ l₂.filter P = [] := by
  induction l using List.reverseRecOn with
  | nil => simp at h
  | append_singleton l y ih =>
      by_cases hy : P y
      · obtain rfl : y = x := by simpa [hy] using h
        exact ⟨l, [], rfl, rfl⟩
      · obtain ⟨l₁, l₂, rfl, hl₂⟩ := ih (by simpa [hy] using h)
        exact ⟨l₁, l₂ ++ [y], by simp, by simp [hl₂, hy]⟩

/-! ### The guarantees -/

structure Serviced (tr : List (Event n α)) (s : State n α) : Prop where
  /-- Accepted enqueues and pops of a task at a priority take turns. -/
  matched : ∀ t p, Ledger.Alternates (t, p) (tr.filterMap Event.queueEntry)
  /-- An accepted enqueue is not yet matched while the task is in a queue or a snapshot. -/
  unmatched : ∀ t p, (Ledger.about (t, p) (tr.filterMap Event.queueEntry)).getLast? =
    some (.arm (t, p)) ↔ (t, p) ∈ s.outstanding
  /-- `pending` is true of those tasks, each of which is there once. -/
  pending : PendingOk s
  /-- A call runs each task it pops once, at its own priority. -/
  runs : ∀ i c, s.calls[i]? = some c → poppedBy i tr = ranBy i tr ++ c.hand.poppedTask ∧
    ∀ e ∈ stepsOf i tr, e.prio = c.prio
  /-- An enqueue is refused when the task is outstanding, and then changes nothing. -/
  refused : ∀ t p added s', step s (.enqueue t p added) = some s' →
    (added = true ↔ ∀ p', (t, p') ∉ s.outstanding) ∧ (added = false → s' = s)
  /-- Tasks leave a queue in the order they entered it. -/
  queueOrder : ∀ p, enqueuedAt p tr = takenAt p tr ++ s.mgr.taskQueues p
  /-- A call runs what it took from the queue in that order. -/
  callOrder : ∀ i c, s.calls[i]? = some c → takenBy i tr = ranBy i tr ++ c.todo
  /-- The tasks of a priority run in enqueue order if its calls do not overlap. -/
  fifo : ∀ p, EachStep step (Apart p) .init tr → runsAt p tr <+: enqueuedAt p tr
  /-- A call under `deferred` runs its snapshot, in three steps for each task. -/
  deferred : ∀ tr₁ i p xs tr₂ s₁, tr = tr₁ ++ .service i p .deferred xs :: tr₂ →
    Run step .init tr₁ s₁ → xs = s₁.mgr.taskQueues p ∧
      (stepsOf i tr).length ≤ 3 * xs.length + 2 ∧
      ∃ c, s.calls[i]? = some c ∧ xs = ranBy i tr ++ c.todo ∧
        (c.hand = .returned → ranBy i tr = xs ∧ (stepsOf i tr).length = 3 * xs.length + 2)
  /-- A call under `immediate` ends with a look at an empty queue. -/
  immediate : ∀ i c, s.calls[i]? = some c → c.q.policy = .immediate → c.hand = .returned →
    ∃ tr₁ tr₂ s₁, tr = tr₁ ++ .observedEmpty i c.prio .immediate :: tr₂ ∧
      Run step .init tr₁ s₁ ∧ s₁.mgr.taskQueues c.prio = [] ∧ stepsOf i tr₂ = []
  /-- A call that has not returned can take its next step. -/
  progress : ∀ i c, s.calls[i]? = some c → c.hand ≠ .returned →
    ∃ e s', e.call = some i ∧ step s e = some s'
  /-- The interrupt has been scheduled since the queue was last drained. -/
  scheduled : ∀ p tr₁ tr₂ s₁, tr = tr₁ ++ tr₂ → Run step .init tr₁ s₁ →
    (tr₁ = [] ∨ ∃ e, tr₁.getLast? = some e ∧ e.Drains p) → s.mgr.taskQueues p ≠ [] →
    ∃ new, s.mgr.scheduled = s₁.mgr.scheduled ++ new ∧ p ∈ new
  /-- The counter counts the tasks in queues and snapshots and those in hand. -/
  count : s.mgr.taskCount = s.outstanding.card + s.busy
  idle : s.mgr.isIdle = true ↔ s.outstanding = 0 ∧ s.busy = 0

theorem deferred_of_run {tr₁ tr₂ : List (Event n α)} {i : ℕ} {p : Fin n} {xs : List α}
    {s₁ s : State n α}
    (h : Run step .init (tr₁ ++ .service i p .deferred xs :: tr₂) s)
    (h₁ : Run step .init tr₁ s₁) : xs = s₁.mgr.taskQueues p ∧
      (stepsOf i (tr₁ ++ .service i p .deferred xs :: tr₂)).length ≤ 3 * xs.length + 2 ∧
      ∃ c, s.calls[i]? = some c ∧
        xs = ranBy i (tr₁ ++ .service i p .deferred xs :: tr₂) ++ c.todo ∧
        (c.hand = .returned → ranBy i (tr₁ ++ .service i p .deferred xs :: tr₂) = xs ∧
          (stepsOf i (tr₁ ++ .service i p .deferred xs :: tr₂)).length = 3 * xs.length + 2) := by
  have hcalls := callsOk_of_run h
  obtain ⟨c, hc, -, hpolicy, htaken⟩ := hcalls.began i p .deferred xs (by simp)
  have hok := hcalls.each i c hc
  have hxs := htaken rfl
  have hsteps := hok.steps hpolicy
  have horder := hok.order
  rw [hxs] at hsteps horder
  refine ⟨?_, by omega, c, hc, horder, fun hret => ?_⟩
  · obtain ⟨s₁', h₁', hrest⟩ := run_append.mp h
    obtain rfl := Option.some.inj (h₁.symm.trans h₁')
    obtain ⟨s₂, hs₂, -⟩ := run_cons.mp hrest
    cases step_move hs₂ with
    | detach => rfl
  · have htodo := (hok.returned hret).1
    rw [htodo, List.append_nil] at horder
    refine ⟨horder.symm, ?_⟩
    have hheld : c.q.held = [] := (List.append_eq_nil_iff.mp htodo).2
    simpa [Call.steps, hret, Hand.steps, hheld] using hsteps

theorem immediate_of_run {tr : List (Event n α)} {s : State n α} (h : Run step .init tr s)
    {i : ℕ} {c : Call n α} (hc : s.calls[i]? = some c) (hpolicy : c.q.policy = .immediate)
    (hret : c.hand = .returned) :
    ∃ tr₁ tr₂ s₁, tr = tr₁ ++ .observedEmpty i c.prio .immediate :: tr₂ ∧
      Run step .init tr₁ s₁ ∧ s₁.mgr.taskQueues c.prio = [] ∧ stepsOf i tr₂ = [] := by
  have hlast := (((callsOk_of_run h).each i c hc).returned hret).2
  rw [hpolicy] at hlast
  obtain ⟨tr₁, tr₂, rfl, hrest⟩ := exists_last_filter hlast
  obtain ⟨s₁, h₁, hrun⟩ := run_append.mp h
  obtain ⟨s₂, hs₂, -⟩ := run_cons.mp hrun
  have hdrains : Event.Drains c.prio (.observedEmpty i c.prio .immediate : Event n α) := rfl
  have hempty := empty_of_drains (step_move hs₂) hdrains
  rw [mgr_of_observedEmpty hs₂] at hempty
  exact ⟨tr₁, tr₂, s₁, rfl, h₁, hempty, hrest⟩

theorem service_tasks_of_run {tr : List (Event n α)} {s : State n α} (h : Run step .init tr s) :
    Serviced tr s := by
  obtain ⟨q, hq, hout⟩ := queue_ledger h
  have hcalls := callsOk_of_run h
  have hcount := taskCount_of_run h
  exact {
    matched := fun t p => Ledger.alternates_of_run hq (t, p)
    unmatched := fun t p => by rw [Ledger.last_iff hq, ← hout, Multiset.mem_coe]
    pending := pendingOk_of_run h
    runs := fun i c hi => ⟨(hcalls.each i c hi).hand, (hcalls.each i c hi).prio⟩
    refused := fun t p added s' hs => enqueue_iff (pendingOk_of_run h) hs
    queueOrder := takenAt_of_run h
    callOrder := fun i c hi => (hcalls.each i c hi).order
    fifo := fun p => runsAt_prefix h
    deferred := by
      rintro tr₁ i p xs tr₂ s₁ rfl h₁
      exact deferred_of_run h h₁
    immediate := fun i c hi => immediate_of_run h hi
    progress := fun i c hi => call_progress hi
    scheduled := by
      rintro p tr₁ tr₂ s₁ rfl h₁ hdrain hne
      obtain ⟨s₁', h₁', hrest⟩ := run_append.mp h
      obtain rfl := Option.some.inj (h₁.symm.trans h₁')
      have hempty : s₁.mgr.taskQueues p = [] := by
        rcases hdrain with rfl | ⟨e, he, hd⟩
        · obtain rfl := run_nil.mp h₁
          rfl
        · obtain ⟨tr₀, rfl⟩ := List.getLast?_eq_some_iff.mp he
          obtain ⟨s₀, -, hs₀⟩ := run_concat.mp h₁
          exact empty_of_drains (step_move hs₀) hd
      obtain ⟨new, hnew, hp⟩ := scheduled_since hempty hrest
      exact ⟨new, hnew, hp hne⟩
    count := hcount
    idle := by
      simp only [Manager.isIdle, beq_iff_eq, hcount]
      rw [← Multiset.card_eq_zero]
      omega }

/-- A task that requeues itself while a call under `deferred` runs it. -/
def requeueTrace : List (Event 2 ℕ) :=
  [.enqueue 7 1 true, .service 0 1 .deferred [7], .enqueue 7 1 false, .pop 0 1 .deferred 7,
    .run 0 1 7, .enqueue 7 1 true, .finish 0 1 7, .observedEmpty 0 1 .deferred]

theorem service_tasks_requeue : ∃ s : State 2 ℕ, Run step .init requeueTrace s ∧
    Serviced requeueTrace s := by
  obtain ⟨s, hs⟩ : ∃ s, Run (step (n := 2) (α := ℕ)) .init requeueTrace s :=
    exists_run_iff.mpr rfl
  exact ⟨s, hs, service_tasks_of_run hs⟩

/-- A call is interrupted between its pop and its `run`, by one that services
the same priority. -/
def overtakingTrace : List (Event 2 ℕ) :=
  [.enqueue 0 0 true, .enqueue 1 0 true, .service 0 0 .immediate [], .pop 0 0 .immediate 0,
    .service 1 0 .immediate [], .pop 1 0 .immediate 1, .run 1 0 1]

/-- Overlapping calls do not run the tasks of a priority in enqueue order. -/
theorem enqueue_order_overtaken : ¬ ∀ (tr : List (Event 2 ℕ)) (s : State 2 ℕ),
    Run step .init tr s → ∀ p, runsAt p tr <+: enqueuedAt p tr := by
  intro h
  obtain ⟨s, hs⟩ : ∃ s, Run (step (n := 2) (α := ℕ)) .init overtakingTrace s :=
    exists_run_iff.mpr rfl
  exact absurd (h overtakingTrace s hs 0) (by decide)

end BaremetalSenders.Tasks
