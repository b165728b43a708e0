import BaremetalSenders.Foundation.Dispatch
import BaremetalSenders.Schedulers.RunLoop
import BaremetalSenders.Schedulers.TaskService
import BaremetalSenders.Senders.Scheduled

/-!
The threads, the priority task manager and the loops, as what serves the contexts.

An operation of `fixed_priority_scheduler` is a task of the manager, one of a loop's scheduler is
an operation of the loop, and `thread_scheduler` makes a thread. Of an expression at most one of
them is under way, so they have the name of the expression here. A task's flag is false where it
has been made and where it has been popped, so this loses nothing.

The calls of `service_tasks` for a priority must not overlap, for the context of the priority is
only one.
-/

namespace BaremetalSenders.Scheduled

open Crew (Role Dispatcher)

variable {n : ℕ} {ι ℓ : Type*}

/-- The threads that have been made and have not begun, the manager, and the loops. -/
structure Executors (n : ℕ) (ι ℓ : Type*) where
  threads : ι → ℕ
  tasks : Tasks.State n ι
  loops : ℓ → RunLoop.State ι

namespace Executors

inductive Event (n : ℕ) (ι ℓ : Type*) where
  | create (k : Context ι ℓ) (i : ι)
  | thread (i : ι)
  | tasks (k : Context ι ℓ) (e : Tasks.Event n ι)
  | loop (l : ℓ) (e : RunLoop.Event (Context ι ℓ) ι)
  | requestStop (i : ι)
  deriving DecidableEq

def init : Executors n ι ℓ := ⟨fun _ => 0, .init, fun _ => .init⟩

section Step

variable [DecidableEq ι] [DecidableEq ℓ]

/-- The steps of a call are those of who services its priority. -/
def mayTake (k : Context ι ℓ) (e : Tasks.Event n ι) : Bool :=
  e.call.isNone || k = .priority e.prio

/-- Who runs the loop is no other context, and stop tokens are not the loop's. -/
def mayMake (l : ℓ) : RunLoop.Event (Context ι ℓ) ι → Bool
  | .pushBack (.other k) _ | .finish (.other k) => k ≠ .runLoop l
  | .requestStop _ => false
  | _ => true

def step (q : Executors n ι ℓ) : Event n ι ℓ → Option (Executors n ι ℓ)
  | .create _ i => some { q with threads := Function.update q.threads i (q.threads i + 1) }
  | .thread i =>
      if q.threads i = 0 then none
      else some { q with threads := Function.update q.threads i (q.threads i - 1) }
  | .tasks k e =>
      if mayTake k e then (Tasks.step q.tasks e).map fun tasks => { q with tasks } else none
  | .loop l e =>
      if mayMake l e then
        (RunLoop.step (q.loops l) e).map fun loop =>
          { q with loops := Function.update q.loops l loop }
      else none
  | .requestStop i =>
      some { q with
        loops := fun l => { q.loops l with
          stopRequested := fun op => op = i || (q.loops l).stopRequested op } }

inductive Move (q : Executors n ι ℓ) : Event n ι ℓ → Executors n ι ℓ → Prop
  | create (k i) : Move q (.create k i)
      { q with threads := Function.update q.threads i (q.threads i + 1) }
  | thread {i m} (hm : q.threads i = m + 1) : Move q (.thread i)
      { q with threads := Function.update q.threads i m }
  | tasks {k e tasks} (hk : ∀ j, e.call = some j → k = .priority e.prio)
      (hs : Tasks.step q.tasks e = some tasks) : Move q (.tasks k e) { q with tasks }
  | loop {l e loop} (hl : mayMake l e = true) (hs : RunLoop.step (q.loops l) e = some loop) :
      Move q (.loop l e) { q with loops := Function.update q.loops l loop }
  | requestStop (i) : Move q (.requestStop i)
      { q with
        loops := fun l => { q.loops l with
          stopRequested := fun op => op = i || (q.loops l).stopRequested op } }

theorem step_move {q q' : Executors n ι ℓ} {e : Event n ι ℓ} (h : step q e = some q') :
    Move q e q' := by
  cases e with
  | create k i =>
      cases h
      exact .create k i
  | thread i =>
      simp only [step] at h
      split at h <;> cases h
      next hne =>
        obtain ⟨m, hm⟩ := Nat.exists_eq_succ_of_ne_zero hne
        rw [hm, Nat.succ_sub_one]
        exact .thread hm
  | tasks k e =>
      simp only [step] at h
      split at h
      · next hk =>
          obtain ⟨tasks, hs, rfl⟩ := Option.map_eq_some_iff.mp h
          exact .tasks (fun j hj => by simpa [mayTake, hj] using hk) hs
      · cases h
  | loop l e =>
      simp only [step] at h
      split at h
      · next hl =>
          obtain ⟨loop, hs, rfl⟩ := Option.map_eq_some_iff.mp h
          exact .loop hl hs
      · cases h
  | requestStop i =>
      cases h
      exact .requestStop i

end Step

/-! ### What the steps are for the contexts -/

def caller (l : ℓ) : RunLoop.Context (Context ι ℓ) → Context ι ℓ
  | .runner => .runLoop l
  | .other k => k

/-- A task that is refused stays where it is. -/
def taskRole (k : Context ι ℓ) : Tasks.Event n ι → Role ι (Context ι ℓ)
  | .enqueue t p true => .put k (.priority p) t
  | .enqueue _ _ false => .outside
  | .run _ p t => .call (.priority p) t
  | .service _ p _ _ | .pop _ p _ _ | .observedEmpty _ p _ | .finish _ p _ => .own (.priority p)

def loopRole (l : ℓ) : RunLoop.Event (Context ι ℓ) ι → Role ι (Context ι ℓ)
  | .pushBack c op => .put (caller l c) (.runLoop l) op
  | .finish _ | .requestStop _ => .outside
  | .execute op _ => .call (.runLoop l) op
  | .run | .wait | .pop _ | .executed _ => .own (.runLoop l)

def role : Event n ι ℓ → Role ι (Context ι ℓ)
  | .create k i => .put k (.thread i) i
  | .thread i => .call (.thread i) i
  | .tasks k e => taskRole k e
  | .loop l e => loopRole l e
  | .requestStop i => .requestStop i

/-- Calls of `service_tasks` and of `run` are made from outside, and so is a call of `finish`. -/
def works : Event n ι ℓ → Bool
  | .create _ _ | .thread _ => true
  | .tasks _ e =>
      match e with
      | .service _ _ _ _ => false
      | .enqueue _ _ added => added
      | _ => true
  | .loop _ e =>
      match e with
      | .run | .finish _ | .requestStop _ => false
      | _ => true
  | .requestStop _ => false

/-- A call of `service_tasks` has returned, or is in a task's `run`. -/
def callsOut : Tasks.Hand ι → Bool
  | .running _ | .returned => true
  | .looking | .popped _ => false

/-- The context does not execute `service_tasks` or `run` but for what they call. -/
def free (q : Executors n ι ℓ) : Context ι ℓ → Bool
  | .thread _ => true
  | .priority p => q.tasks.calls.all fun c => c.prio.val ≠ p || callsOut c.hand
  | .runLoop l => (q.loops l).loop.callsOut

/-- Nobody services the priority, or runs the loop. -/
def Closed (q : Executors n ι ℓ) : Context ι ℓ → Prop
  | .thread _ => False
  | .priority p => ∀ c ∈ q.tasks.calls, c.prio.val = p → c.hand = .returned
  | .runLoop l => (q.loops l).loop = .idle ∨ (q.loops l).loop = .returned

/-- Calls of `service_tasks` for one priority do not overlap. -/
def Apart (q : Executors n ι ℓ) : Event n ι ℓ → Prop
  | .tasks _ e => ∀ p, Tasks.Apart p q.tasks e
  | _ => True

instance Apart.decidable [DecidableEq ι] (q : Executors n ι ℓ) :
    (e : Event n ι ℓ) → Decidable (Apart q e)
  | .tasks _ e => inferInstanceAs (Decidable (∀ p, Tasks.Apart p q.tasks e))
  | .create _ _ | .thread _ | .loop _ _ | .requestStop _ => inferInstanceAs (Decidable True)

end Executors

/-- `valid_priority<P>` of the manager; `schedule` does not compile otherwise. -/
def Executor.Valid (n : ℕ) : Executor ℓ → Prop
  | .priority p => p < n
  | .thread | .runLoop _ => True

variable [DecidableEq ι] [DecidableEq ℓ]

def executors (n : ℕ) (ι ℓ : Type*) [DecidableEq ι] [DecidableEq ℓ] :
    Dispatcher ι (Context ι ℓ) (Executors n ι ℓ) (Executors.Event n ι ℓ) where
  init := .init
  step := Executors.step
  role := Executors.role
  free := Executors.free
  works := Executors.works

namespace Executors

/-! ### The parts -/

def Event.ofTasks : Event n ι ℓ → Option (Tasks.Event n ι)
  | .tasks _ e => some e
  | _ => none

def Event.ofLoop (l : ℓ) : Event n ι ℓ → Option (RunLoop.Event (Context ι ℓ) ι)
  | .loop l' e => if l' = l then some e else none
  | .requestStop i => some (.requestStop i)
  | _ => none

section Parts

variable {tr : List (Event n ι ℓ)} {q q' : Executors n ι ℓ} {e : Event n ι ℓ}

theorem tasks_of_step (h : step q e = some q') :
    Run Tasks.step q.tasks e.ofTasks.toList q'.tasks := by
  cases step_move h with
  | tasks _ hs => exact run_cons.mpr ⟨_, hs, run_nil.mpr rfl⟩
  | create | thread | loop | requestStop => exact run_nil.mpr rfl

theorem loop_of_step (l : ℓ) (h : step q e = some q') :
    Run RunLoop.step (q.loops l) (e.ofLoop l).toList (q'.loops l) := by
  cases step_move h with
  | create | thread | tasks => exact run_nil.mpr rfl
  | requestStop i => exact run_cons.mpr ⟨_, rfl, run_nil.mpr rfl⟩
  | @loop l' e loop _ hs =>
      rcases eq_or_ne l' l with rfl | hne
      · simpa [Event.ofLoop] using hs
      · simp [Event.ofLoop, hne, hne.symm]

theorem tasks_of_run (h : Run step .init tr q) :
    Run Tasks.step .init (tr.filterMap Event.ofTasks) q.tasks :=
  h.project (fun q : Executors n ι ℓ => q.tasks) Event.ofTasks fun _ _ _ hs => tasks_of_step hs

theorem apart_of_run (h : Run step .init tr q) (hP : EachStep step Apart .init tr) (p : Fin n) :
    EachStep Tasks.step (Tasks.Apart p) .init (tr.filterMap Event.ofTasks) := by
  refine hP.project (fun q : Executors n ι ℓ => q.tasks) Event.ofTasks
    (fun _ _ _ hs => tasks_of_step hs) (fun q e e' hq he => ?_) h
  cases e with
  | tasks k e =>
      cases he
      exact hq p
  | create | thread | loop | requestStop => cases he

theorem loop_of_run (l : ℓ) (h : Run step .init tr q) :
    Run RunLoop.step .init (tr.filterMap (Event.ofLoop l)) (q.loops l) :=
  h.project (fun q : Executors n ι ℓ => q.loops l) (Event.ofLoop l)
    fun _ _ _ hs => loop_of_step l hs

end Parts

/-! ### What waits -/

section Waiting

variable {tr : List (Event n ι ℓ)} {q q' : Executors n ι ℓ} {e : Event n ι ℓ}

theorem puts_priority (tr : List (Event n ι ℓ)) (p : Fin n) :
    (executors n ι ℓ).puts (.priority p) tr =
      Tasks.enqueuedAt p (tr.filterMap Event.ofTasks) := by
  refine Crew.flatMap_part (fun e => ?_) tr
  cases e with
  | create | thread | requestStop => simp [executors, role, Role.putIn, Event.ofTasks]
  | loop l e => cases e <;> simp [executors, role, loopRole, Role.putIn, Event.ofTasks]
  | tasks k e =>
      cases e with
      | enqueue t p' added =>
          rcases eq_or_ne p' p with rfl | hne
          · cases added <;>
              simp [executors, role, taskRole, Role.putIn, Event.ofTasks, Tasks.Event.prio,
                Tasks.Event.accepted]
          · cases added <;>
              simp [executors, role, taskRole, Role.putIn, Event.ofTasks, Tasks.Event.prio, hne,
                Fin.val_inj]
      | service | pop | observedEmpty | run | finish =>
          simp [executors, role, taskRole, Role.putIn, Event.ofTasks, Tasks.Event.accepted]

theorem calls_priority (tr : List (Event n ι ℓ)) (p : Fin n) :
    (executors n ι ℓ).calls (.priority p) tr = Tasks.runsAt p (tr.filterMap Event.ofTasks) := by
  refine Crew.flatMap_part (fun e => ?_) tr
  cases e with
  | create | thread | requestStop => simp [executors, role, Role.calledIn, Event.ofTasks]
  | loop l e => cases e <;> simp [executors, role, loopRole, Role.calledIn, Event.ofTasks]
  | tasks k e =>
      cases e with
      | enqueue t p' added =>
          cases added <;>
            simp [executors, role, taskRole, Role.calledIn, Event.ofTasks, Tasks.Event.ran]
      | run j p' t =>
          rcases eq_or_ne p' p with rfl | hne
          · simp [executors, role, taskRole, Role.calledIn, Event.ofTasks, Tasks.Event.prio,
              Tasks.Event.ran]
          · simp [executors, role, taskRole, Role.calledIn, Event.ofTasks, Tasks.Event.prio, hne,
              Fin.val_inj]
      | service | pop | observedEmpty | finish =>
          simp [executors, role, taskRole, Role.calledIn, Event.ofTasks, Tasks.Event.ran]

theorem puts_runLoop (tr : List (Event n ι ℓ)) (l : ℓ) :
    (executors n ι ℓ).puts (.runLoop l) tr =
      RunLoop.pushes (tr.filterMap (Event.ofLoop l)) := by
  rw [RunLoop.pushes, List.filterMap_eq_flatMap_toList]
  refine Crew.flatMap_part (fun e => ?_) tr
  cases e with
  | create | thread | requestStop =>
      simp [executors, role, Role.putIn, Event.ofLoop, RunLoop.Event.pushed]
  | tasks k e =>
      simp only [executors, role, taskRole]
      split <;> simp [Role.putIn, Event.ofLoop]
  | loop l' e =>
      rcases eq_or_ne l' l with rfl | hne
      · cases e <;>
          simp [executors, role, loopRole, Role.putIn, Event.ofLoop, RunLoop.Event.pushed]
      · cases e <;> simp [executors, role, loopRole, Role.putIn, Event.ofLoop, hne]

theorem calls_runLoop (tr : List (Event n ι ℓ)) (l : ℓ) :
    (executors n ι ℓ).calls (.runLoop l) tr =
      RunLoop.executions (tr.filterMap (Event.ofLoop l)) := by
  rw [RunLoop.executions, List.filterMap_eq_flatMap_toList]
  refine Crew.flatMap_part (fun e => ?_) tr
  cases e with
  | create | thread | requestStop =>
      simp [executors, role, Role.calledIn, Event.ofLoop, RunLoop.Event.executes]
  | tasks k e =>
      simp only [executors, role, taskRole]
      split <;> simp [Role.calledIn, Event.ofLoop]
  | loop l' e =>
      rcases eq_or_ne l' l with rfl | hne
      · cases e <;>
          simp [executors, role, loopRole, Role.calledIn, Event.ofLoop, RunLoop.Event.executes]
      · cases e <;> simp [executors, role, loopRole, Role.calledIn, Event.ofLoop, hne]

/-- Nothing is put where the manager has no queue. -/
theorem puts_of_le (tr : List (Event n ι ℓ)) {p : ℕ} (hp : n ≤ p) :
    (executors n ι ℓ).puts (.priority p) tr = [] ∧
      (executors n ι ℓ).calls (.priority p) tr = [] := by
  have hne (p' : Fin n) : p'.val ≠ p := by omega
  refine ⟨List.flatMap_eq_nil_iff.mpr fun e _ => ?_, List.flatMap_eq_nil_iff.mpr fun e _ => ?_⟩
  · cases e with
    | create | thread | requestStop => simp [executors, role, Role.putIn]
    | loop l e => cases e <;> simp [executors, role, loopRole, Role.putIn]
    | tasks k e =>
        simp only [executors, role, taskRole]
        split <;> simp [Role.putIn, hne]
  · cases e with
    | create | thread | requestStop => simp [executors, role, Role.calledIn]
    | loop l e => cases e <;> simp [executors, role, loopRole, Role.calledIn]
    | tasks k e =>
        simp only [executors, role, taskRole]
        split <;> simp [Role.calledIn, hne]

/-- The threads of an operation that have not begun. -/
theorem puts_thread (h : Run step .init tr q) (i : ι) :
    (executors n ι ℓ).puts (.thread i) tr =
      (executors n ι ℓ).calls (.thread i) tr ++ List.replicate (q.threads i) i := by
  refine Run.induction (P := fun tr (q : Executors n ι ℓ) =>
    (executors n ι ℓ).puts (.thread i) tr =
      (executors n ι ℓ).calls (.thread i) tr ++ List.replicate (q.threads i) i) rfl ?_ h
  intro tr q e q' _ ih hs
  rw [Dispatcher.puts_concat, Dispatcher.calls_concat, ih]
  cases step_move hs with
  | create k j =>
      rcases eq_or_ne j i with rfl | hne
      · simp [executors, role, Role.putIn, Role.calledIn, List.replicate_succ']
      · simp [executors, role, Role.putIn, Role.calledIn, hne, hne.symm]
  | @thread j m hm =>
      rcases eq_or_ne j i with rfl | hne
      · simp [executors, role, Role.putIn, Role.calledIn, hm, List.replicate_succ]
      · simp [executors, role, Role.putIn, Role.calledIn, hne, hne.symm]
  | requestStop j => simp [executors, role, Role.putIn, Role.calledIn]
  | @tasks k e tasks hk hs =>
      have hnone : (taskRole k e : Role ι (Context ι ℓ)).putIn (.thread i) = [] ∧
          (taskRole k e : Role ι (Context ι ℓ)).calledIn (.thread i) = [] := by
        unfold taskRole
        split <;> simp [Role.putIn, Role.calledIn]
      simp [executors, role, hnone]
  | @loop l e loop hl hs => cases e <;> simp [executors, role, loopRole, Role.putIn, Role.calledIn]

/-- What waits for the contexts is in the lists, or in the hand of who has taken it from there. -/
structure Holds (q : Executors n ι ℓ) (queue : Context ι ℓ → List ι) : Prop where
  thread : ∀ i, queue (.thread i) = List.replicate (q.threads i) i
  serviced : ∀ p j c, q.tasks.Active p j c →
    queue (.priority p) = c.todo ++ q.tasks.mgr.taskQueues p
  unserviced : ∀ p, (∀ j c, ¬ q.tasks.Active p j c) →
    queue (.priority p) = q.tasks.mgr.taskQueues p
  noPriority : ∀ p, n ≤ p → queue (.priority p) = []
  runLoop : ∀ l, queue (.runLoop l) = (q.loops l).loop.inHand ++ (q.loops l).tasks

theorem holds_of_run (h : Run step .init tr q) (hP : EachStep step Apart .init tr) :
    q.Holds ((executors n ι ℓ).waiting tr) := by
  have htasks := tasks_of_run h
  have hlone (p : Fin n) := Tasks.lone_of_run htasks (apart_of_run h hP p)
  refine ⟨fun i => ?_, fun p j c hc => ?_, fun p hnone => ?_, fun p hp => ?_, fun l => ?_⟩ <;>
    apply Dispatcher.waiting_eq
  · exact puts_thread h i
  · rw [puts_priority, calls_priority, Tasks.takenAt_of_run htasks, (hlone p).order j c hc,
      List.append_assoc]
  · rw [puts_priority, calls_priority, Tasks.takenAt_of_run htasks, (hlone p).rest hnone]
  · rw [(puts_of_le tr hp).1, (puts_of_le tr hp).2, List.append_nil]
  · rw [puts_runLoop, calls_runLoop, RunLoop.pushes_of_run (loop_of_run l h), List.append_assoc]

theorem fifo : (executors n ι ℓ).Fifo Apart := by
  intro tr q h hP k
  cases k with
  | thread i =>
      rw [puts_thread h i]
      exact List.prefix_append _ _
  | runLoop l =>
      rw [puts_runLoop, calls_runLoop]
      exact RunLoop.executions_isPrefix (loop_of_run l h)
  | priority p =>
      rcases Nat.lt_or_ge p n with hp | hp
      · rw [puts_priority tr ⟨p, hp⟩, calls_priority tr ⟨p, hp⟩]
        exact Tasks.runsAt_prefix (tasks_of_run h) (apart_of_run h hP ⟨p, hp⟩)
      · rw [(puts_of_le tr hp).1, (puts_of_le tr hp).2]

end Waiting

/-! ### Nothing is left waiting -/

section Serves

variable {tr : List (Event n ι ℓ)} {q q' : Executors n ι ℓ} {k : Context ι ℓ} {i : ι} {l : ℓ}

omit [DecidableEq ι] [DecidableEq ℓ] in
theorem place_taskRole {e : Tasks.Event n ι} {j : ℕ} (h : e.call = some j) :
    (taskRole k e).place = some (.priority e.prio) := by
  cases e with
  | enqueue => cases h
  | service | pop | observedEmpty | run | finish => rfl

omit [DecidableEq ℓ] in
/-- What is done for a priority by its own context keeps the others free. -/
theorem free_tasks {p : ℕ} {e : Tasks.Event n ι} {tasks : Tasks.State n ι}
    (hs : Tasks.step q.tasks e = some tasks) (hp : ∀ j, e.call = some j → e.prio.val ≠ p)
    (hfree : q.free (.priority p) = true) :
    ({ q with tasks } : Executors n ι ℓ).free (.priority p) = true := by
  simp only [free, List.all_eq_true] at hfree ⊢
  obtain ⟨-, hcalls, -⟩ | ⟨c, rfl, hcalls, -⟩ | ⟨j, c, c', hcall, -, hcalls, hm⟩ :=
    Tasks.call_move (Tasks.step_move hs)
  · rwa [hcalls]
  · have hne : c.prio.val ≠ p := hp _ rfl
    intro d hd
    rw [hcalls] at hd
    rcases List.mem_append.mp hd with hd | hd
    · exact hfree d hd
    · obtain rfl := List.mem_singleton.mp hd
      simp [hne]
  · have hne : c'.prio.val ≠ p := by
      rw [hm.prio', hm.prio]
      exact hp j hcall
    intro d hd
    rw [hcalls] at hd
    rcases List.mem_or_eq_of_mem_set hd with hd | rfl
    · exact hfree d hd
    · simp [hne]

theorem free_of_step {e : Event n ι ℓ} (hs : step q e = some q') (hk : (role e).place ≠ some k)
    (hfree : q.free k = true) : q'.free k = true := by
  cases step_move hs with
  | create | thread => cases k <;> exact hfree
  | requestStop => cases k <;> exact hfree
  | @tasks k' e tasks _ htasks =>
      cases k with
      | thread | runLoop => exact hfree
      | priority p =>
          refine free_tasks htasks (fun j hj hp => hk ?_) hfree
          rw [role, place_taskRole hj, hp]
  | @loop l e loop hl hloop =>
      cases k with
      | thread | priority => exact hfree
      | runLoop l' =>
          rcases eq_or_ne l' l with rfl | hne
          · cases RunLoop.step_move hloop with
            | pushBack | finish => simpa [free] using hfree
            | requestStop => cases hl
            | run | wait | popNone | popSome | execute | executed => exact absurd rfl hk
          · simpa [free, hne] using hfree

/-- What a context calls is executed in it. -/
theorem free_of_call {e : Event n ι ℓ} (h : Run step .init tr q)
    (hP : EachStep step Apart .init tr) (hs : step q e = some q') (hrole : role e = .call k i) :
    q'.free k = true := by
  cases step_move hs with
  | create | requestStop => cases hrole
  | thread hm =>
      cases hrole
      rfl
  | @loop l e loop _ hloop =>
      cases RunLoop.step_move hloop with
      | execute op _ =>
          cases hrole
          simp [free, RunLoop.Loop.callsOut]
      | pushBack | finish | requestStop | run | wait | popNone | popSome | executed => cases hrole
  | @tasks k' e tasks _ htasks =>
      cases Tasks.step_move htasks with
      | run j p q₀ t hj =>
          cases hrole
          have hlone := (Tasks.lone_of_run (tasks_of_run h) (apart_of_run h hP p)).only
          have hactive : q.tasks.Active p j ⟨p, q₀, .popped i⟩ := ⟨hj, rfl, by simp⟩
          simp only [free, List.all_eq_true]
          intro d hd
          obtain ⟨j', hj'⟩ := List.mem_iff_getElem?.mp hd
          rw [Tasks.State.setCall, Tasks.getElem?_setCall hj] at hj'
          split at hj'
          · cases hj'
            simp [callsOut]
          · next hne =>
              by_cases hp : d.prio = p
              · -- another call for the priority has returned
                have hreturned : d.hand = .returned := by
                  by_contra hnot
                  exact hne (hlone j j' _ d hactive ⟨hj', hp, hnot⟩)
                simp [hreturned, callsOut]
              · simp [Fin.val_inj, hp]
      | refuse | accept | follow | detach | popShared | popDetached | empty | finish => cases hrole

/-- A task that is in no list can be enqueued. -/
theorem not_pending (h : Run step .init tr q) (hP : EachStep step Apart .init tr)
    (hi : ∀ k, i ∉ (executors n ι ℓ).waiting tr k) : q.tasks.mgr.pending i = false := by
  have htasks := tasks_of_run h
  have hholds := holds_of_run h hP
  by_contra hpending
  obtain ⟨p, hmem⟩ := ((Tasks.pendingOk_of_run htasks).pending i).mp (by simpa using hpending)
  refine hi (.priority p) ?_
  rcases Multiset.mem_add.mp hmem with hmem | hmem
  · -- in the queue of the priority
    obtain ⟨p', -, hmem⟩ := Multiset.mem_sum.mp hmem
    have hqueue : i ∈ q.tasks.mgr.taskQueues p := by
      simp only [Tasks.tagged, Multiset.mem_coe, List.mem_map, Prod.mk.injEq] at hmem
      obtain ⟨t, ht, rfl, rfl⟩ := hmem
      exact ht
    by_cases hactive : ∃ j c, q.tasks.Active p j c
    · obtain ⟨j, c, hc⟩ := hactive
      rw [hholds.serviced p j c hc]
      exact List.mem_append_right _ hqueue
    · rw [hholds.unserviced p fun j c hc => hactive ⟨j, c, hc⟩]
      exact hqueue
  · -- or detached by a call
    rw [← Multiset.sum_coe] at hmem
    obtain ⟨m, hm, hmem⟩ := Multiset.mem_join.mp hmem
    obtain ⟨c, hc, rfl⟩ := List.mem_map.mp (Multiset.mem_coe.mp hm)
    obtain ⟨j, hj⟩ := List.mem_iff_getElem?.mp hc
    obtain ⟨hheld, rfl⟩ : i ∈ c.q.held ∧ c.prio = p := by
      simp only [Tasks.tagged, Multiset.mem_coe, List.mem_map, Prod.mk.injEq] at hmem
      obtain ⟨t, ht, rfl, rfl⟩ := hmem
      exact ⟨ht, rfl⟩
    have htodo : i ∈ c.todo := List.mem_append_right _ hheld
    have hactive : q.tasks.Active c.prio j c := by
      refine ⟨hj, rfl, fun hreturned => ?_⟩
      rw [(((Tasks.callsOk_of_run htasks).each j c hj).returned hreturned).1] at htodo
      cases htodo
    rw [hholds.serviced c.prio j c hactive]
    exact List.mem_append_left _ htodo

theorem exists_step_of_loop {e : RunLoop.Event (Context ι ℓ) ι}
    {loop : RunLoop.State ι} (hs : RunLoop.step (q.loops l) e = some loop)
    (hl : mayMake l e = true) : ∃ q', step q (.loop l e) = some q' := by
  simp [step, hl, hs]

theorem exists_step_of_tasks {e : Tasks.Event n ι} {tasks : Tasks.State n ι}
    (hs : Tasks.step q.tasks e = some tasks) (hk : mayTake k e = true) :
    ∃ q', step q (.tasks k e) = some q' := by
  simp [step, hk, hs]

/-- An operation that is executed can be put where it hops to. -/
theorem exists_put {x : Executor ℓ} (h : Run step .init tr q)
    (hP : EachStep step Apart .init tr) (hx : x.Valid n) (hfree : q.free k = true)
    (hi : ∀ k', i ∉ (executors n ι ℓ).waiting tr k') :
    ∃ e q', step q e = some q' ∧ works e = true ∧ role e = .put k (x.context i) i := by
  cases x with
  | thread => exact ⟨.create k i, _, rfl, rfl, rfl⟩
  | priority p =>
      have hs : Tasks.step q.tasks (.enqueue i ⟨p, hx⟩ true) = some _ :=
        if_pos (congrArg Prod.fst (Tasks.enqueueTask_accepted (not_pending h hP hi)))
      obtain ⟨q', hq'⟩ := exists_step_of_tasks (k := k) hs rfl
      exact ⟨_, q', hq', rfl, rfl⟩
  | runLoop l =>
      have hnew : i ∉ (q.loops l).tasks := by
        intro hmem
        refine hi (.runLoop l) ?_
        rw [(holds_of_run h hP).runLoop l]
        exact List.mem_append_right _ hmem
      by_cases hk : k = .runLoop l
      · subst hk
        obtain ⟨q', hq'⟩ := exists_step_of_loop (q := q) (l := l) (e := .pushBack .runner i)
          (if_pos ⟨hfree, hnew⟩) rfl
        exact ⟨_, q', hq', rfl, rfl⟩
      · obtain ⟨q', hq'⟩ := exists_step_of_loop (q := q) (l := l) (e := .pushBack (.other k) i)
          (if_pos ⟨rfl, hnew⟩) (by simpa [mayMake] using hk)
        exact ⟨_, q', hq', rfl, rfl⟩

/-- What waits comes nearer to its call. -/
theorem exists_next (h : Run step .init tr q) (hP : EachStep step Apart .init tr)
    (hopen : ¬ q.Closed k) (hk : (executors n ι ℓ).waiting tr k ≠ []) :
    ∃ e q', step q e = some q' ∧ works e = true ∧ Apart q e ∧
      (role e = .own k ∨ ∃ i, role e = .call k i) := by
  have hholds := holds_of_run h hP
  cases k with
  | thread i =>
      rw [hholds.thread i] at hk
      have hthread : q.threads i ≠ 0 := by
        intro hzero
        simp [hzero] at hk
      exact ⟨.thread i, _, if_neg hthread, rfl, True.intro, .inr ⟨i, rfl⟩⟩
  | runLoop l =>
      rw [hholds.runLoop l] at hk
      cases hloop : (q.loops l).loop with
      | idle => exact absurd (.inl hloop) hopen
      | returned => exact absurd (.inr hloop) hopen
      | waiting =>
          have htasks : (q.loops l).tasks ≠ [] := by simpa [hloop, RunLoop.Loop.inHand] using hk
          obtain ⟨q', hq'⟩ := exists_step_of_loop (q := q) (l := l) (e := .wait)
            (if_pos ⟨hloop, .inl htasks⟩) rfl
          exact ⟨_, q', hq', rfl, True.intro, .inl rfl⟩
      | popping =>
          cases htasks : (q.loops l).tasks with
          | nil => simp [hloop, htasks, RunLoop.Loop.inHand] at hk
          | cons op ops =>
              have hs : RunLoop.step (q.loops l) (.pop (some op) : RunLoop.Event (Context ι ℓ) ι) =
                  some { q.loops l with tasks := ops, loop := .popped op } := by
                simp only [RunLoop.step, hloop, htasks, if_true]
              obtain ⟨q', hq'⟩ := exists_step_of_loop hs rfl
              exact ⟨_, q', hq', rfl, True.intro, .inl rfl⟩
      | popped op =>
          obtain ⟨q', hq'⟩ := exists_step_of_loop (q := q) (l := l)
            (e := .execute op ((q.loops l).completion op)) (if_pos ⟨hloop, rfl⟩) rfl
          exact ⟨_, q', hq', rfl, True.intro, .inr ⟨op, rfl⟩⟩
      | executing op =>
          obtain ⟨q', hq'⟩ := exists_step_of_loop (q := q) (l := l) (e := .executed op)
            (if_pos hloop) rfl
          exact ⟨_, q', hq', rfl, True.intro, .inl rfl⟩
  | priority p =>
      simp only [Closed, not_forall] at hopen
      obtain ⟨c, hc, rfl, hactive⟩ := hopen
      obtain ⟨j, hj⟩ := List.mem_iff_getElem?.mp hc
      obtain ⟨e, tasks, hcall, hs⟩ := Tasks.call_progress hj hactive
      -- the step is one of the call, which there was before
      obtain ⟨hnone, -⟩ | ⟨c', rfl, -⟩ | ⟨j', d, d', hcall', hd, -, hm⟩ :=
        Tasks.call_move (Tasks.step_move hs)
      · rw [hcall] at hnone
        cases hnone
      · obtain rfl := Option.some.inj hcall
        simp at hj
      · obtain rfl := Option.some.inj (hcall'.symm.trans hcall)
        obtain rfl := Option.some.inj (hd.symm.trans hj)
        obtain ⟨q', hq'⟩ := exists_step_of_tasks (k := .priority d.prio) hs
          (by simp [mayTake, hm.prio])
        refine ⟨_, q', hq', ?_⟩
        rw [hm.prio]
        cases e with
        | enqueue => cases hcall
        | service j' p rqp snapshot =>
            cases hcall
            cases Tasks.step_move hs <;> simp at hj
        | run j p t => exact ⟨rfl, fun _ => True.intro, .inr ⟨t, rfl⟩⟩
        | pop | observedEmpty | finish => exact ⟨rfl, fun _ => True.intro, .inl rfl⟩

theorem serves : (executors n ι ℓ).Serves Apart (fun i x => x.context i) (Executor.Valid n)
    Closed where
  free := free_of_step
  called := free_of_call
  put := exists_put
  next := exists_next

end Serves

/-! ### Everything comes to rest -/

/-- The steps of a loop to the next one that it executes or to its end. -/
def loopRank : RunLoop.Loop ι → ℕ
  | .executing _ => 4
  | .waiting => 3
  | .popping => 2
  | .popped _ => 1
  | .idle | .returned => 0

/-- The steps of a call to the next task that it runs or to its end. -/
def handRank : Tasks.Hand ι → ℕ
  | .running _ => 3
  | .looking => 2
  | .popped _ => 1
  | .returned => 0

def rank [Fintype ℓ] (q : Executors n ι ℓ) : ℕ :=
  ∑ l, loopRank (q.loops l).loop + (q.tasks.calls.map fun c => handRank c.hand).sum

omit [DecidableEq ι] [DecidableEq ℓ] in
theorem handRank_set {cs : List (Tasks.Call n ι)} {j : ℕ} {c c' : Tasks.Call n ι}
    (hj : cs[j]? = some c) (hless : handRank c'.hand < handRank c.hand) :
    ((cs.set j c').map fun c => handRank c.hand).sum < (cs.map fun c => handRank c.hand).sum := by
  have hsum := sum_map_set_add (fun c : Tasks.Call n ι => handRank c.hand) hj c'
  omega

/-- What is done between two steps of operations makes the rank less. -/
theorem rank_lt_of_step [Fintype ℓ] (q q' : Executors n ι ℓ) (e : Event n ι ℓ)
    (hs : step q e = some q') (hworks : works e = true) (hrole : (role e).ofJob = false) :
    q'.rank < q.rank := by
  cases step_move hs with
  | create | thread | requestStop => cases hrole
  | @tasks k e tasks _ htasks =>
      refine Nat.add_lt_add_left ?_ _
      cases Tasks.step_move htasks with
      | popShared j p t ts hj _ | popDetached j p t ts hj =>
          exact handRank_set hj (by simp [handRank])
      | empty j p q₀ hj _ => exact handRank_set hj (by simp [handRank])
      | finish j p q₀ t hj => exact handRank_set hj (by simp [handRank])
      | refuse | follow | detach => cases hworks
      | accept | run => cases hrole
  | @loop l e loop _ hloop =>
      have hsum := sum_update_add (fun _ (s : RunLoop.State ι) => loopRank s.loop) q.loops l loop
      have hless : loopRank loop.loop < loopRank (q.loops l).loop := by
        cases RunLoop.step_move hloop with
        | wait hl _ | popNone hl _ | popSome op ops hl _ | executed op hl =>
            simp [hl, loopRank]
        | pushBack | execute => cases hrole
        | finish | requestStop | run => cases hworks
      simp only [rank]
      omega

end Executors

end BaremetalSenders.Scheduled
