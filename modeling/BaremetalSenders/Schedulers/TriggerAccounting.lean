import BaremetalSenders.Schedulers.TriggerRefinement

/-!
What the users of the trigger manager rely on, over whole runs: a task that was
enqueued is run once or withdrawn once, in the order of enqueue, and the
manager's counter counts the tasks that are queued or running.

This holds of every run in which no `dequeue` hits the end of a detached list,
for both requeue policies and for calls nested to any depth. Without that
condition it does not: `dequeue` then moves an end of the member list in place
of the end of the list `run` is draining, and `run` goes on to run a task that
has just been withdrawn.
-/

namespace BaremetalSenders.Trigger

open IntrusiveList

variable {α : Type*} [DecidableEq α]

/-- The task is linked in the local list of a `run` the innermost one is nested in. -/
def State.Suspended (s : State α) (t : α) : Prop :=
  ∃ f ∈ s.frames.tail, ∃ l xs, f.q = .detached l ∧ Holds s.mgr.links l xs ∧ t ∈ xs

/-- After the events `tr` the manager is in the state `s`, and `queued` are the tasks
that were enqueued and neither run nor withdrawn since, the oldest first. -/
structure Accounted (tr : List (Event α)) (s : State α) (queued : List α) : Prop where
  ledger : Run Ledger.step [] (tr.filterMap Event.entry) queued
  /-- Between two successful enqueues of a task there is exactly one run of it or one
  successful dequeue of it. -/
  matched : ∀ t, Ledger.Alternates t (tr.filterMap Event.entry)
  pending : ∀ t, s.mgr.pending t = true ↔ t ∈ queued
  /-- No task is lost: the queued tasks are those linked in the local lists of the
  activations of `run`, the outermost first, and in the member list. -/
  kept : ∃ snapshots waiting,
    List.Forall₂ (fun f xs => f.q = .shared ∧ xs = [] ∨
      ∃ l, f.q = .detached l ∧ Holds s.mgr.links l xs) s.frames snapshots ∧
    Holds s.mgr.links s.mgr.tasks waiting ∧ queued = snapshots.reverse.flatten ++ waiting
  /-- A task is run before every task enqueued after it; only the snapshots of
  enclosing calls of `run` have to wait. -/
  fifo : ∀ t s', step s (.start t) = some s' →
    ∃ older rest, queued = older ++ t :: rest ∧ ∀ u ∈ older, s.Suspended u
  count : s.mgr.taskCount = queued.length + s.running.length

/-- What a represented state shows of its specification. -/
theorem Represents.accounted {tr : List (Event α)} {s : State α} {a : Spec α}
    (hr : Represents s a) (hl : Run Ledger.step [] (tr.filterMap Event.entry) a.outstanding) :
    Accounted tr s a.outstanding where
  ledger := hl
  matched := Ledger.alternates_of_run hl
  pending := hr.pending
  kept := by
    refine ⟨a.calls.map Call.held, a.waiting, ?_, hr.waiting, ?_⟩
    · rw [List.forall₂_map_right_iff]
      exact hr.frames.imp fun _ _ => FrameRep.local_list
    · simp [Spec.outstanding, List.flatMap_def]
  fifo := by
    intro t s' hs
    obtain ⟨a', ha', -⟩ := hr.start hs
    obtain ⟨rest, hout, -⟩ := Spec.outstanding_of_start ha'
    refine ⟨_, rest, hout, fun u hu => ?_⟩
    obtain ⟨c, hc, huc⟩ := List.mem_flatMap.mp hu
    obtain ⟨i, hi, rfl⟩ := List.getElem_of_mem (List.mem_reverse.mp hc)
    have htail : List.Forall₂ (FrameRep s.mgr.links) s.frames.tail a.calls.tail := by
      simpa using List.forall₂_drop 1 hr.frames
    have hlen := htail.length_eq
    obtain ⟨l, hq, -, hl⟩ := (htail.get (by omega) hi).detached huc
    exact ⟨_, List.getElem_mem (by omega), l, _, hq, hl, huc⟩
  count := by
    rw [hr.count, State.running, Spec.running, running_eq hr.frames]

/-- The runs of the manager are runs of the queue, and the queue keeps its ledger. -/
theorem represents_of_run {tr : List (Event α)} {s : State α}
    (h : Run step .init tr s) (hC : EachStep step DequeueInside .init tr) :
    ∃ a, Represents s a ∧ Run Ledger.step [] (tr.filterMap Event.entry) a.outstanding := by
  obtain ⟨q, hq, a, hr, rfl⟩ :=
    h.ledger Event.entry (R := fun s q => ∃ a, Represents s a ∧ a.outstanding = q)
      ⟨Spec.init, represents_init, rfl⟩
      (by
        rintro s _ e s' ⟨a, hr, rfl⟩ hc hs
        obtain ⟨a', ha', hr'⟩ := hr.step hc hs
        exact ⟨_, Spec.step_outstanding hr.nodup ha', a', hr', rfl⟩)
      hC
  exact ⟨a, hr, hq⟩

/-- In every run whose `dequeue`s do not hit the end of a detached list, every task
that was enqueued is accounted for. -/
theorem accounted_of_run {tr : List (Event α)} {s : State α}
    (h : Run step .init tr s) (hC : EachStep step DequeueInside .init tr) :
    ∃ queued, Accounted tr s queued := by
  obtain ⟨a, hr, hl⟩ := represents_of_run h hC
  exact ⟨a.outstanding, hr.accounted hl⟩

/-- A task withdraws an interior task of the snapshot it was started from. -/
theorem accounted_of_run_cancel_sibling :
    ∃ (s : State ℕ) (queued : List ℕ),
      Accounted [.enqueue 0 true, .enqueue 1 true, .enqueue 2 true, .enqueue 3 true,
        .run .deferred, .start 0, .dequeue 2 true, .enqueue 0 true, .finish 0, .start 1]
        s queued :=
  ⟨_, accounted_of_run rfl (by decide)⟩

/-- A task withdraws the task behind it, which is now the first of the list `run` is
draining: `dequeue` returns true and the task is run all the same. -/
theorem not_accounted_dequeue_head :
    ¬ ∀ (tr : List (Event ℕ)) (s : State ℕ), Run step .init tr s →
      ∃ queued, Accounted tr s queued := by
  intro hall
  obtain ⟨queued, hq⟩ := hall [.enqueue 0 true, .enqueue 1 true, .run .deferred, .start 0,
    .dequeue 1 true, .finish 0, .start 1] _ rfl
  have hrefused : exec Ledger.step [] [.arm 0, .arm 1, .settle 0, .settle 1, .settle 1] = none := by
    decide
  exact absurd (hrefused.symm.trans hq.ledger) (by simp)

end BaremetalSenders.Trigger
