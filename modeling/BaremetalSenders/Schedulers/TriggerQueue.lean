import BaremetalSenders.Foundation.Ledger
import BaremetalSenders.Schedulers.TriggerManager

/-!
What the trigger manager is for: a first-in first-out queue whose waiting tasks
can be withdrawn, drained by calls that take either the tasks waiting now (a
snapshot) or whatever is waiting when they look.

There are no pointers here. A call owns the tasks of its snapshot, and
withdrawing a task takes it out of wherever it is. All outstanding tasks, in
the order they were enqueued, are the snapshots of the calls, the outermost
first, followed by the waiting tasks; every step keeps that arrangement, which
is the reason the queue is fair and loses nothing.
-/

namespace BaremetalSenders.Trigger

variable {α : Type*}

/-- A draining call. It has no snapshot when it takes from the waiting tasks. -/
structure Call (α : Type*) where
  snapshot : Option (List α)
  task : Option α

structure Spec (α : Type*) where
  waiting : List α
  calls : List (Call α)

def Call.held (c : Call α) : List α := c.snapshot.getD []

namespace Spec

def init : Spec α := ⟨[], []⟩

/-- The outstanding tasks in order of enqueue. -/
def outstanding (a : Spec α) : List α := a.calls.reverse.flatMap Call.held ++ a.waiting

def running (a : Spec α) : List α := a.calls.filterMap Call.task

def callable (a : Spec α) : Bool :=
  match a.calls with
  | [] => true
  | c :: _ => c.task.isSome

end Spec

variable [DecidableEq α]

/-! ### Dropping one task -/

section Drop

variable {t : α} {xs x y : List α}

theorem filter_ne_of_notMem (h : t ∉ xs) : xs.filter (· ≠ t) = xs :=
  List.filter_eq_self.mpr fun z hz => by simpa using fun e : z = t => h (e ▸ hz)

theorem filter_ne_append_cons (h : (x ++ t :: y).Nodup) :
    (x ++ t :: y).filter (· ≠ t) = x ++ y := by
  have hx : t ∉ x := fun hm => (List.nodup_append.mp h).2.2 t hm t (by simp) rfl
  have hy : t ∉ y := (List.nodup_cons.mp (List.nodup_append.mp h).2.1).1
  rw [List.filter_append, filter_ne_of_notMem hx, List.filter_cons_of_neg (by simp),
    filter_ne_of_notMem hy]

theorem filter_ne_eq_erase (h : xs.Nodup) : xs.filter (· ≠ t) = xs.erase t := by
  rw [h.erase_eq_filter]
  exact List.filter_congr fun z _ => by by_cases hz : z = t <;> simp [hz]

end Drop

def Call.withdraw (t : α) (c : Call α) : Call α :=
  { c with snapshot := c.snapshot.map (·.filter (· ≠ t)) }

theorem Call.withdraw_of_notMem {c : Call α} {t : α} (h : t ∉ c.held) : c.withdraw t = c := by
  obtain ⟨_ | xs, u⟩ := c
  · rfl
  · simp only [Call.withdraw, Option.map_some]
    rw [filter_ne_of_notMem (by simpa [Call.held] using h)]

namespace Spec

/-- Withdraw a task from wherever it is. -/
def withdraw (a : Spec α) (t : α) : Spec α where
  waiting := a.waiting.filter (· ≠ t)
  calls := a.calls.map (Call.withdraw t)

def enqueued (a : Spec α) (t : α) : Spec α :=
  if t ∈ a.outstanding then a else { a with waiting := a.waiting ++ [t] }

def called (a : Spec α) : RequeuePolicy → Spec α
  | .immediate => { a with calls := ⟨none, none⟩ :: a.calls }
  | .deferred => ⟨[], ⟨some a.waiting, none⟩ :: a.calls⟩

def step (a : Spec α) : Event α → Option (Spec α)
  | .enqueue t added =>
      if a.callable ∧ added = decide (t ∉ a.outstanding) then
        some (if added then { a with waiting := a.waiting ++ [t] } else a)
      else none
  | .dequeue t removed =>
      if a.callable ∧ removed = decide (t ∈ a.outstanding) then some (a.withdraw t) else none
  | .run .immediate =>
      if a.callable then some { a with calls := ⟨none, none⟩ :: a.calls } else none
  | .run .deferred =>
      if a.callable then some ⟨[], ⟨some a.waiting, none⟩ :: a.calls⟩ else none
  | .start t =>
      match a.calls with
      | ⟨none, none⟩ :: cs =>
          if a.waiting.head? = some t then some ⟨a.waiting.tail, ⟨none, some t⟩ :: cs⟩ else none
      | ⟨some xs, none⟩ :: cs =>
          if xs.head? = some t then some ⟨a.waiting, ⟨some xs.tail, some t⟩ :: cs⟩ else none
      | _ => none
  | .finish t =>
      match a.calls with
      | ⟨b, some u⟩ :: cs => if u = t then some ⟨a.waiting, ⟨b, none⟩ :: cs⟩ else none
      | _ => none
  | .ret =>
      match a.calls with
      | ⟨b, none⟩ :: cs => if b.getD a.waiting = [] then some ⟨a.waiting, cs⟩ else none
      | _ => none

end Spec

/-- What an event says about the outstanding tasks. A task is given up by being
started or by being withdrawn. -/
def Event.entry : Event α → Option (Entry α)
  | .enqueue t true => some (.arm t)
  | .dequeue t true => some (.settle t)
  | .start t => some (.settle t)
  | _ => none

namespace Spec

omit [DecidableEq α] in
theorem outstanding_cons (w : List α) (c : Call α) (cs : List (Call α)) :
    outstanding ⟨w, c :: cs⟩ = cs.reverse.flatMap Call.held ++ (c.held ++ w) := by
  simp [outstanding]

theorem held_withdraw (t : α) (c : Call α) :
    (c.withdraw t).held = c.held.filter (· ≠ t) := by
  obtain ⟨_ | xs, u⟩ := c <;> simp [Call.held, Call.withdraw]

theorem outstanding_withdraw (a : Spec α) (t : α) :
    (a.withdraw t).outstanding = a.outstanding.filter (· ≠ t) := by
  simp only [outstanding, withdraw, List.filter_append, List.filter_flatMap,
    ← List.map_reverse, List.flatMap_map, held_withdraw]

theorem withdraw_of_notMem {a : Spec α} {t : α} (h : t ∉ a.outstanding) : a.withdraw t = a := by
  obtain ⟨w, cs⟩ := a
  simp only [outstanding, List.mem_append, List.mem_flatMap, List.mem_reverse, not_or,
    not_exists, not_and] at h
  have hcalls : cs.map (Call.withdraw t) = cs :=
    (List.map_congr_left fun c hc => Call.withdraw_of_notMem (h.1 c hc)).trans (List.map_id cs)
  simp only [withdraw, filter_ne_of_notMem h.2, hcalls]

@[simp] theorem running_withdraw (a : Spec α) (t : α) : (a.withdraw t).running = a.running := by
  simp [running, withdraw, List.filterMap_map, Call.withdraw]

/-- What a call starts is the oldest outstanding task apart from those in the
snapshots of the calls it is nested in. -/
theorem outstanding_of_start {a a' : Spec α} {t : α} (h : a.step (.start t) = some a') :
    ∃ rest, a.outstanding = a.calls.tail.reverse.flatMap Call.held ++ t :: rest ∧
      a'.outstanding = a.calls.tail.reverse.flatMap Call.held ++ rest := by
  obtain ⟨w, _ | ⟨⟨_ | xs, _ | u⟩, cs⟩⟩ := a <;> simp only [step] at h
  case nil => cases h
  case cons.none.none =>
    split at h <;> cases h
    obtain ⟨rest, rfl⟩ : ∃ rest, w = t :: rest := by cases w <;> simp_all
    exact ⟨rest, by simp [outstanding_cons, Call.held], by simp [outstanding_cons, Call.held]⟩
  case cons.none.some => cases h
  case cons.some.none =>
    split at h <;> cases h
    obtain ⟨rest, rfl⟩ : ∃ rest, xs = t :: rest := by cases xs <;> simp_all
    exact ⟨rest ++ w, by simp [outstanding_cons, Call.held], by simp [outstanding_cons, Call.held]⟩
  case cons.some.some => cases h

/-- Every step makes the ledger entry of its event. -/
theorem step_outstanding {a a' : Spec α} {e : Event α} (hnd : a.outstanding.Nodup)
    (h : a.step e = some a') :
    Run Ledger.step a.outstanding e.entry.toList a'.outstanding := by
  cases e with
  | enqueue t added =>
      simp only [step] at h
      split at h <;> cases h
      next hc =>
        cases added with
        | true =>
            have hnew : t ∉ a.outstanding := by simpa using hc.2
            simp only [Event.entry, Option.toList, run_cons, run_nil, Ledger.step_arm]
            exact ⟨_, ⟨hnew, rfl⟩, by simp [outstanding]⟩
        | false => simp [Event.entry]
  | dequeue t removed =>
      simp only [step] at h
      split at h <;> cases h
      next hc =>
        rw [outstanding_withdraw]
        cases removed with
        | true =>
            have hmem : t ∈ a.outstanding := by simpa using hc.2
            simp only [Event.entry, Option.toList, run_cons, run_nil, Ledger.step_settle]
            refine ⟨_, ⟨hmem, rfl⟩, ?_⟩
            exact filter_ne_eq_erase hnd
        | false =>
            have hmem : t ∉ a.outstanding := by simpa using hc.2
            simp only [Event.entry, Option.toList, run_nil]
            exact filter_ne_of_notMem hmem
  | run rqp =>
      cases rqp <;> simp only [step] at h <;> split at h <;> cases h <;>
        simp [Event.entry, outstanding, Call.held]
  | start t =>
      obtain ⟨rest, hout, hout'⟩ := outstanding_of_start h
      simp only [Event.entry, Option.toList, run_cons, run_nil, Ledger.step_settle, hout, hout']
      have hnotin : t ∉ a.calls.tail.reverse.flatMap Call.held := fun hmem =>
        (List.nodup_append.mp (hout ▸ hnd)).2.2 t hmem t (by simp) rfl
      exact ⟨_, ⟨by simp, rfl⟩, by simp [List.erase_append_right _ hnotin]⟩
  | finish t =>
      obtain ⟨w, _ | ⟨⟨b, _ | u⟩, cs⟩⟩ := a <;> simp only [step] at h
      case nil => cases h
      case cons.none => cases h
      case cons.some =>
        split at h <;> cases h
        simp [Event.entry, outstanding, Call.held]
  | ret =>
      obtain ⟨w, _ | ⟨⟨b, _ | u⟩, cs⟩⟩ := a <;> simp only [step] at h
      case nil => cases h
      case cons.none =>
        split at h <;> cases h
        next hb => cases b <;> simp_all [Event.entry, outstanding, Call.held]
      case cons.some => cases h

/-! ### What a step leaves alone -/

section Rest

variable {a a' : Spec α} {t x : α}

theorem mem_waiting_enqueued (h : x ∈ (a.enqueued t).waiting) : x ∈ a.waiting ∨ x = t := by
  unfold enqueued at h
  split at h
  · exact .inl h
  · simpa using h

theorem calls_enqueued : (a.enqueued t).calls = a.calls := by
  unfold enqueued
  split <;> rfl

omit [DecidableEq α] in
theorem waiting_called (rqp : RequeuePolicy) : (a.called rqp).waiting ⊆ a.waiting := by
  cases rqp with
  | immediate => exact List.Subset.refl _
  | deferred => exact List.nil_subset _

omit [DecidableEq α] in
theorem tail_called (rqp : RequeuePolicy) : (a.called rqp).calls.tail = a.calls := by
  cases rqp <;> rfl

/-- A call that starts a task takes it from the waiting ones or from its own. -/
theorem of_start (h : a.step (.start t) = some a') :
    a'.waiting ⊆ a.waiting ∧ a'.calls.tail = a.calls.tail := by
  obtain ⟨w, _ | ⟨⟨_ | xs, _ | u⟩, cs⟩⟩ := a <;> simp only [step] at h
  case nil => cases h
  case cons.none.none =>
    split at h <;> cases h
    exact ⟨fun _ => List.mem_of_mem_tail, rfl⟩
  case cons.none.some => cases h
  case cons.some.none =>
    split at h <;> cases h
    exact ⟨List.Subset.refl w, rfl⟩
  case cons.some.some => cases h

theorem of_finish (h : a.step (.finish t) = some a') :
    a'.waiting = a.waiting ∧ a'.calls.tail = a.calls.tail := by
  obtain ⟨w, _ | ⟨⟨b, _ | u⟩, cs⟩⟩ := a <;> simp only [step] at h
  case nil => cases h
  case cons.none => cases h
  case cons.some =>
    split at h <;> cases h
    exact ⟨rfl, rfl⟩

theorem of_ret (h : a.step .ret = some a') : a'.waiting = a.waiting ∧ a'.calls = a.calls.tail := by
  obtain ⟨w, _ | ⟨⟨b, _ | u⟩, cs⟩⟩ := a <;> simp only [step] at h
  case nil => cases h
  case cons.none =>
    split at h <;> cases h
    exact ⟨rfl, rfl⟩
  case cons.some => cases h

end Rest

end Spec

end BaremetalSenders.Trigger
