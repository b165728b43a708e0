import BaremetalSenders.Schedulers.TriggerRefinement
import Mathlib.Data.List.Perm.Basic

/-!
`trigger_manager::run` with the policy `immediate`, interrupted.

In `TriggerManager` the loop of `run` is one step from the test to the entry of
the task. With interrupts it is not: only the section that pops the front is
protected, and between the test, the taking of the front, that section, the
task's `run` and the decrement of the counter an interrupt can call `enqueue`,
`dequeue` or `run`. Here every one of these statements is a step of its own. An
interrupt that calls `run` pushes an activation, and until that one has returned
the interrupted ones do not move; the same stack holds the activations a task
starts from inside its own `run`.

The section pops whatever is at the front by then and clears the flag of the task
that was at the front before. `FrontKept` is the condition under which the two are
the same. A run keeps its accounts exactly if its steps meet it.
-/

namespace BaremetalSenders.TriggerInterrupt

open IntrusiveList
open Trigger (Manager)

variable {α : Type*}

inductive Pc (α : Type*) where
  /-- `while (not std::empty(q))` -/
  | test
  /-- `auto &task = q.front()` -/
  | front
  /-- the section with `q.pop_front()` and `task.pending = false` -/
  | pop (task : α)
  /-- `task.run(args...)` -/
  | call (task : α)
  | inside (task : α)
  /-- `--task_count` -/
  | count
  /-- an empty list was dereferenced; nothing is said of what follows -/
  | undefined
  deriving DecidableEq

/-- The manager and the activations of `run`, the innermost one first. -/
structure State (α : Type*) where
  mgr : Manager α
  frames : List (Pc α)

def State.init : State α := ⟨.init, []⟩

def State.defined (s : State α) : Bool :=
  match s.frames with
  | .undefined :: _ => false
  | _ => true

/-- What is observed: the calls with what they returned, and the statements of
`run` with what they found. `pop t u` clears the flag of `t` and pops `u`. -/
inductive Event (α : Type*) where
  | enqueue (t : α) (added : Bool)
  | dequeue (t : α) (removed : Bool)
  | run
  | test (more : Bool)
  | front (t : α)
  | pop (t popped : α)
  | start (t : α)
  | finish (t : α)
  | count
  | fault
  deriving DecidableEq

/-- The calls, which an interrupt or a task can make at any point. -/
def Event.isCall : Event α → Bool
  | .enqueue .. | .dequeue .. | .run => true
  | _ => false

/-- A task is armed by the `enqueue` that accepts it, and settled by the `dequeue` that
withdraws it or by being popped. -/
def Event.entry : Event α → Option (Entry α)
  | .enqueue t true => some (.arm t)
  | .dequeue t true => some (.settle t)
  | .pop _ u => some (.settle u)
  | _ => none

def Event.popped : Event α → Option α
  | .pop _ u => some u
  | _ => none

def Event.started : Event α → Option α
  | .start t => some t
  | _ => none

/-- One iteration of the loop for the task `t`, not interrupted. -/
def Event.iteration (t : α) : List (Event α) :=
  [.test true, .front t, .pop t t, .start t, .finish t, .count]

def Pc.taken : Pc α → Option α
  | .call t => some t
  | _ => none

/-- The activation has popped a task and not counted it yet. -/
def Pc.counts : Pc α → Bool
  | .call _ | .inside _ | .count => true
  | _ => false

variable [DecidableEq α]

/-- One step. `fault` is `front` or `pop_front` applied to the empty list. -/
def step (s : State α) : Event α → Option (State α)
  | .enqueue t added =>
      if s.defined ∧ (s.mgr.enqueue t).1 = added then
        some { s with mgr := (s.mgr.enqueue t).2 }
      else none
  | .dequeue t removed =>
      if s.defined ∧ (s.mgr.dequeue t).1 = removed then
        some { s with mgr := (s.mgr.dequeue t).2 }
      else none
  | .run => if s.defined then some { s with frames := .test :: s.frames } else none
  | .test more =>
      match s.frames with
      | .test :: fs =>
          if s.mgr.tasks.head.isSome = more then
            some { s with frames := if more then .front :: fs else fs }
          else none
      | _ => none
  | .front t =>
      match s.frames with
      | .front :: fs =>
          if s.mgr.tasks.head = some t then some { s with frames := .pop t :: fs } else none
      | _ => none
  | .pop t popped =>
      match s.frames with
      | .pop u :: fs =>
          if u = t ∧ s.mgr.tasks.head = some popped then
            some ⟨(s.mgr.popTask t .shared).2, .call t :: fs⟩
          else none
      | _ => none
  | .start t =>
      match s.frames with
      | .call u :: fs => if u = t then some { s with frames := .inside t :: fs } else none
      | _ => none
  | .finish t =>
      match s.frames with
      | .inside u :: fs => if u = t then some { s with frames := .count :: fs } else none
      | _ => none
  | .count =>
      match s.frames with
      | .count :: fs =>
          some ⟨{ s.mgr with taskCount := s.mgr.taskCount - 1 }, .test :: fs⟩
      | _ => none
  | .fault =>
      match s.frames with
      | .front :: fs | .pop _ :: fs =>
          if s.mgr.tasks.head = none then some { s with frames := .undefined :: fs } else none
      | _ => none

/-- What the innermost activation has seen of the list is still so: there is a front
to be taken, and the front it took is still the front. -/
def State.FrontKept (s : State α) : Prop :=
  match s.frames with
  | .front :: _ => s.mgr.tasks.head ≠ none
  | .pop t :: _ => s.mgr.tasks.head = some t
  | _ => True

instance (s : State α) : Decidable s.FrontKept :=
  match h : s.frames with
  | .front :: _ => decidable_of_iff (s.mgr.tasks.head ≠ none) (by simp [State.FrontKept, h])
  | .pop t :: _ => decidable_of_iff (s.mgr.tasks.head = some t) (by simp [State.FrontKept, h])
  | [] | .test :: _ | .call _ :: _ | .inside _ :: _ | .count :: _ | .undefined :: _ =>
      .isTrue (by simp [State.FrontKept, h])

/-- The side condition of a step: when `run` goes on, no interrupt has taken from it the
front it has seen. -/
def FrontKept (s : State α) (e : Event α) : Prop := e.isCall = false → s.FrontKept

instance (s : State α) (e : Event α) : Decidable (FrontKept s e) :=
  inferInstanceAs (Decidable (e.isCall = false → s.FrontKept))

/-! ### The accounts -/

/-- After the events `tr` the manager is in the state `s`, and `queued` are the tasks
that were enqueued and neither popped nor withdrawn since, the oldest first. -/
structure Accounted (tr : List (Event α)) (s : State α) (queued : List α) : Prop where
  ledger : Run Ledger.step [] (tr.filterMap Event.entry) queued
  /-- Between two successful enqueues of a task it is popped once or withdrawn once. -/
  matched : ∀ t, Ledger.Alternates t (tr.filterMap Event.entry)
  linked : Holds s.mgr.links s.mgr.tasks queued
  pending : ∀ t, s.mgr.pending t = true ↔ t ∈ queued
  /-- Every task that was popped has been run, once for each time it was popped, or is the
  one its activation runs next. -/
  popped : (tr.filterMap Event.popped).Perm
    (tr.filterMap Event.started ++ s.frames.filterMap Pc.taken)
  noFault : .fault ∉ tr
  defined : .undefined ∉ s.frames
  /-- `run` pops the oldest task, and returns only when there is none. -/
  fifo : ∀ t u s', step s (.pop t u) = some s' → queued.head? = some u
  drained : ∀ s', step s (.test false) = some s' → queued = []
  /-- A call of `run` that is left alone runs all that is queued, in this order. -/
  served : ∃ s', Run step s (.run :: queued.flatMap Event.iteration ++ [.test false]) s'
  count : s.mgr.taskCount = queued.length + (s.frames.countP Pc.counts : ℕ)

/-! ### One step -/

inductive Move : State α → Event α → State α → Prop where
  | enqueue {m fs t} : Move ⟨m, fs⟩ (.enqueue t (m.enqueue t).1) ⟨(m.enqueue t).2, fs⟩
  | dequeue {m fs t} : Move ⟨m, fs⟩ (.dequeue t (m.dequeue t).1) ⟨(m.dequeue t).2, fs⟩
  | run {m fs} : Move ⟨m, fs⟩ .run ⟨m, .test :: fs⟩
  | more {m fs} (h : m.tasks.head ≠ none) : Move ⟨m, .test :: fs⟩ (.test true) ⟨m, .front :: fs⟩
  | ret {m fs} (h : m.tasks.head = none) : Move ⟨m, .test :: fs⟩ (.test false) ⟨m, fs⟩
  | front {m fs t} (h : m.tasks.head = some t) : Move ⟨m, .front :: fs⟩ (.front t) ⟨m, .pop t :: fs⟩
  | pop {m fs t u} (h : m.tasks.head = some u) :
      Move ⟨m, .pop t :: fs⟩ (.pop t u) ⟨(m.popTask t .shared).2, .call t :: fs⟩
  | start {m fs t} : Move ⟨m, .call t :: fs⟩ (.start t) ⟨m, .inside t :: fs⟩
  | finish {m fs t} : Move ⟨m, .inside t :: fs⟩ (.finish t) ⟨m, .count :: fs⟩
  | count {m fs} :
      Move ⟨m, .count :: fs⟩ .count ⟨{ m with taskCount := m.taskCount - 1 }, .test :: fs⟩
  | noFront {m fs} (h : m.tasks.head = none) : Move ⟨m, .front :: fs⟩ .fault ⟨m, .undefined :: fs⟩
  | noPop {m fs t} (h : m.tasks.head = none) : Move ⟨m, .pop t :: fs⟩ .fault ⟨m, .undefined :: fs⟩

section Steps

variable {s s' : State α} {e : Event α} {queued : List α} {m : Manager α} {t u : α}
  {fs : List (Pc α)} {tr : List (Event α)}

theorem step_move (h : step s e = some s') : Move s e s' := by
  obtain ⟨m, fs⟩ := s
  cases e with
  | enqueue t added =>
      simp only [step] at h
      split at h <;> cases h
      next hc => exact hc.2 ▸ .enqueue
  | dequeue t removed =>
      simp only [step] at h
      split at h <;> cases h
      next hc => exact hc.2 ▸ .dequeue
  | run =>
      simp only [step] at h
      split at h <;> cases h
      exact .run
  | test more =>
      simp only [step] at h
      split at h <;> try cases h
      split at h <;> cases h
      next hc =>
        cases more with
        | true => exact .more (by simpa [Option.isSome_iff_ne_none] using hc)
        | false => exact .ret (by simpa using hc)
  | front t =>
      simp only [step] at h
      split at h <;> try cases h
      split at h <;> cases h
      next hc => exact .front hc
  | pop t popped =>
      simp only [step] at h
      split at h <;> try cases h
      split at h <;> cases h
      next hc => exact hc.1 ▸ .pop hc.2
  | start t =>
      simp only [step] at h
      split at h <;> try cases h
      split at h <;> cases h
      next hc => exact hc ▸ .start
  | finish t =>
      simp only [step] at h
      split at h <;> try cases h
      split at h <;> cases h
      next hc => exact hc ▸ .finish
  | count =>
      simp only [step] at h
      split at h <;> cases h
      exact .count
  | fault =>
      simp only [step] at h
      split at h <;> try cases h
      · split at h <;> cases h
        next hc => exact .noFront hc
      · split at h <;> cases h
        next hc => exact .noPop hc

/-- The part of the accounts that the next step depends on. -/
structure Kept (s : State α) (queued : List α) : Prop where
  linked : Holds s.mgr.links s.mgr.tasks queued
  pending : ∀ t, s.mgr.pending t = true ↔ t ∈ queued
  count : s.mgr.taskCount = queued.length + (s.frames.countP Pc.counts : ℕ)
  defined : .undefined ∉ s.frames

omit [DecidableEq α] in
theorem kept_init : Kept (State.init : State α) [] where
  linked := holds_empty
  pending := by simp [State.init, Manager.init]
  count := rfl
  defined := by simp [State.init]

omit [DecidableEq α] in
/-- A step that leaves the manager alone. -/
theorem Kept.frames (hk : Kept s queued) (hc : fs.countP Pc.counts = s.frames.countP Pc.counts)
    (hd : .undefined ∉ fs) : Kept ⟨s.mgr, fs⟩ queued :=
  ⟨hk.linked, hk.pending, by rw [hc]; exact hk.count, hd⟩

omit [DecidableEq α] in
theorem Kept.pending_eq_false (hk : Kept s queued) (ht : t ∉ queued) :
    s.mgr.pending t = false := by
  simpa using fun hp => ht ((hk.pending t).mp hp)

theorem Kept.enqueue (hk : Kept ⟨m, fs⟩ queued) :
    ∃ queued', Run Ledger.step queued (Event.entry (.enqueue t (m.enqueue t).1)).toList queued' ∧
      Kept ⟨(m.enqueue t).2, fs⟩ queued' := by
  by_cases ht : t ∈ queued
  · have hsame := Trigger.Manager.enqueue_of_pending ((hk.pending t).mpr ht)
    rw [hsame]
    exact ⟨queued, run_nil.mpr rfl, hk⟩
  · have hp : m.pending t = false := hk.pending_eq_false ht
    have hcount := hk.count
    simp only [Manager.enqueue, hp, Bool.not_false, if_true]
    refine ⟨queued ++ [t], by simp [Event.entry, ht], hk.linked.pushBack ht, fun u => ?_, ?_,
      hk.defined⟩
    · by_cases hu : u = t
      · simp [hu]
      · simpa [hu] using hk.pending u
    · simp only [List.length_append, List.length_singleton] at hcount ⊢
      push_cast
      omega

theorem Kept.dequeue (hk : Kept ⟨m, fs⟩ queued) :
    ∃ queued', Run Ledger.step queued (Event.entry (.dequeue t (m.dequeue t).1)).toList queued' ∧
      Kept ⟨(m.dequeue t).2, fs⟩ queued' := by
  by_cases ht : t ∈ queued
  · have hp : m.pending t = true := (hk.pending t).mpr ht
    have hnd := hk.linked.nodup
    have hcount := hk.count
    simp only [Manager.dequeue, hp, if_true]
    refine ⟨queued.erase t, by simp [Event.entry, ht], ?_, fun u => ?_, ?_, hk.defined⟩
    · obtain ⟨x, y, rfl⟩ := List.append_of_mem ht
      have hx : t ∉ x := fun hx => (List.nodup_append.mp hnd).2.2 t hx t (by simp) rfl
      rw [List.erase_append_right _ hx, List.erase_cons_head]
      exact hk.linked.remove
    · by_cases hu : u = t
      · simp [hu, hnd.mem_erase_iff]
      · simpa [hu, hnd.mem_erase_iff] using hk.pending u
    · have hpos := List.length_pos_of_mem ht
      simp only [List.length_erase_of_mem ht] at hcount ⊢
      omega
  · have hsame := Trigger.Manager.dequeue_of_not_pending (hk.pending_eq_false ht)
    rw [hsame]
    exact ⟨queued, run_nil.mpr rfl, hk⟩

/-- The section of the loop, entered with the front it was meant for. -/
theorem Kept.pop (hk : Kept ⟨m, .pop t :: fs⟩ queued) (hhead : m.tasks.head = some t) :
    ∃ queued', queued = t :: queued' ∧
      Kept ⟨(m.popTask t .shared).2, .call t :: fs⟩ queued' := by
  obtain ⟨rest, rfl⟩ : ∃ rest, queued = t :: rest := by
    have := hk.linked.head.symm.trans hhead
    cases queued <;> simp_all
  have hnd := List.nodup_cons.mp hk.linked.nodup
  have hcount := hk.count
  refine ⟨rest, rfl, hk.linked.popFront, fun u => ?_, ?_, by simpa using hk.defined⟩
  · by_cases hu : u = t
    · simp [Manager.popTask, hu, hnd.1]
    · simpa [Manager.popTask, hu] using hk.pending u
  · simp only [Manager.popTask, Pc.counts, List.countP_cons, List.length_cons] at hcount ⊢
    push_cast at hcount ⊢
    omega

/-- A step that meets the condition keeps the list, the flags and the counter right. -/
theorem Kept.step (hk : Kept s queued) (hC : FrontKept s e) (h : step s e = some s') :
    ∃ queued', Run Ledger.step queued e.entry.toList queued' ∧ Kept s' queued' := by
  cases step_move h with
  | enqueue => exact hk.enqueue
  | dequeue => exact hk.dequeue
  | run | more | ret | front | start | finish =>
      exact ⟨queued, run_nil.mpr rfl, hk.frames (by simp [Pc.counts, List.countP_cons])
        (by simpa using hk.defined)⟩
  | pop hhead =>
      -- the condition says that what is popped is the task whose flag is cleared
      obtain rfl := Option.some.inj (hhead.symm.trans (hC rfl))
      obtain ⟨rest, rfl, hrest⟩ := hk.pop hhead
      exact ⟨rest, by simp [Event.entry], hrest⟩
  | count =>
      have hcount := hk.count
      refine ⟨queued, run_nil.mpr rfl, hk.linked, hk.pending, ?_, by simpa using hk.defined⟩
      simp only [Pc.counts, List.countP_cons] at hcount ⊢
      simp at hcount ⊢
      omega
  | noFront hnone => exact absurd hnone (hC rfl)
  | noPop hnone => exact absurd (hnone.symm.trans (hC rfl)) (by simp)

/-- What a step pops, runs, and is about to run. -/
theorem popped_step (hC : FrontKept s e) (h : step s e = some s') :
    (e.popped.toList ++ s.frames.filterMap Pc.taken).Perm
      (e.started.toList ++ s'.frames.filterMap Pc.taken) := by
  cases step_move h with
  | pop hhead =>
      obtain rfl := Option.some.inj (hhead.symm.trans (hC rfl))
      simp [Event.popped, Event.started, Pc.taken, List.filterMap_cons]
  | enqueue | dequeue | run | more | ret | front | start | finish | count | noFront | noPop =>
      simp [Event.popped, Event.started, Pc.taken, List.filterMap_cons]

theorem ne_fault (hC : FrontKept s e) (h : step s e = some s') : e ≠ .fault := by
  rintro rfl
  cases step_move h with
  | noFront hnone => exact hC rfl hnone
  | noPop hnone => exact absurd (hnone.symm.trans (hC rfl)) (by simp)

omit [DecidableEq α] in
theorem Kept.defined_eq (hk : Kept s queued) : s.defined = true := by
  have hd := hk.defined
  unfold State.defined
  split
  next hfs => simp [hfs] at hd
  next => rfl

/-- An activation that is not interrupted runs the queued tasks and returns. -/
theorem Kept.drain (hk : Kept ⟨m, .test :: fs⟩ queued) :
    ∃ s', Run TriggerInterrupt.step ⟨m, .test :: fs⟩
      (queued.flatMap Event.iteration ++ [.test false]) s' := by
  induction queued generalizing m with
  | nil =>
      have hnone : m.tasks.head = none := hk.linked.head
      exact ⟨⟨m, fs⟩, by simp [TriggerInterrupt.step, hnone]⟩
  | cons t rest ih =>
      have hhead : m.tasks.head = some t := hk.linked.head
      have hpop : Kept ⟨m, .pop t :: fs⟩ (t :: rest) :=
        hk.frames (by simp [Pc.counts]) (by simpa using hk.defined)
      obtain ⟨_, hrest, hcall⟩ := hpop.pop hhead
      obtain rfl := (List.cons.inj hrest).2
      have hcount : TriggerInterrupt.step ⟨(m.popTask t .shared).2, .count :: fs⟩ .count =
          some ⟨{ (m.popTask t .shared).2 with
            taskCount := (m.popTask t .shared).2.taskCount - 1 }, .test :: fs⟩ := rfl
      have hinside : Kept ⟨(m.popTask t .shared).2, .count :: fs⟩ rest :=
        hcall.frames (by simp [Pc.counts, List.countP_cons]) (by simpa using hcall.defined)
      obtain ⟨_, hl, hnext⟩ := hinside.step (fun _ => trivial) hcount
      obtain rfl := run_nil.mp hl
      obtain ⟨s', hs'⟩ := ih hnext
      refine ⟨s', ?_⟩
      simpa [Event.iteration, TriggerInterrupt.step, hhead] using hs'

/-- The accounts that are about the next step. -/
theorem Kept.accounted (hk : Kept s queued)
    (hl : Run Ledger.step [] (tr.filterMap Event.entry) queued)
    (hp : (tr.filterMap Event.popped).Perm
      (tr.filterMap Event.started ++ s.frames.filterMap Pc.taken))
    (hf : .fault ∉ tr) : Accounted tr s queued where
  ledger := hl
  matched := Ledger.alternates_of_run hl
  linked := hk.linked
  pending := hk.pending
  popped := hp
  noFault := hf
  defined := hk.defined
  fifo := by
    intro t u s' h
    cases step_move h with
    | pop hhead => exact hk.linked.head.symm.trans hhead
  drained := by
    intro s' h
    cases step_move h with
    | ret hnone => exact hk.linked.head_eq_none_iff.mp hnone
  served := by
    have hrun : Kept ⟨s.mgr, .test :: s.frames⟩ queued :=
      hk.frames (by simp [Pc.counts]) (by simpa using hk.defined)
    obtain ⟨s', hs'⟩ := hrun.drain
    exact ⟨s', run_cons.mpr ⟨_, by simp [TriggerInterrupt.step, hk.defined_eq], hs'⟩⟩
  count := hk.count

theorem Accounted.kept (ha : Accounted tr s queued) : Kept s queued :=
  ⟨ha.linked, ha.pending, ha.count, ha.defined⟩

theorem Accounted.step (ha : Accounted tr s queued) (hC : FrontKept s e)
    (h : step s e = some s') : ∃ queued', Accounted (tr ++ [e]) s' queued' := by
  obtain ⟨queued', hl, hk⟩ := ha.kept.step hC h
  refine ⟨queued', hk.accounted ?_ ?_ ?_⟩
  · rw [List.filterMap_append]
    refine run_append.mpr ⟨queued, ha.ledger, ?_⟩
    cases he : e.entry <;> simpa [he] using hl
  · have hstep := popped_step hC h
    have hpre := ha.popped
    have hlast : ∀ f : Event α → Option α, [e].filterMap f = (f e).toList := fun f => by
      cases he : f e <;> simp [he]
    simp only [List.filterMap_append, hlast]
    have hswap : (tr.filterMap Event.started ++ s.frames.filterMap Pc.taken ++
        e.popped.toList).Perm
        (tr.filterMap Event.started ++ (e.popped.toList ++ s.frames.filterMap Pc.taken)) := by
      rw [List.append_assoc]
      exact List.perm_append_comm.append_left _
    rw [List.append_assoc]
    exact (hpre.append_right _).trans (hswap.trans (hstep.append_left _))
  · intro hmem
    rcases List.mem_append.mp hmem with hmem | hmem
    · exact ha.noFault hmem
    · exact ne_fault hC h (List.mem_singleton.mp hmem).symm

/-- A step that does not meet the condition breaks the accounts. -/
theorem Accounted.frontKept {queued' : List α} (ha : Accounted tr s queued)
    (h : TriggerInterrupt.step s e = some s') (ha' : Accounted (tr ++ [e]) s' queued') :
    FrontKept s e := by
  intro hcall
  have hfault : e ≠ .fault := fun he => ha'.noFault (by simp [he])
  cases step_move h with
  | enqueue | dequeue | run => cases hcall
  | more | ret | start | finish | count => trivial
  | front hhead => simp [State.FrontKept, hhead]
  | noFront | noPop => exact absurd rfl hfault
  | @pop m fs t u hhead =>
      refine Classical.byContradiction fun hne => ?_
      -- `u` has left the list, and its flag is still set
      have hmem : u ∈ queued := List.mem_of_mem_head? (ha.linked.head.symm.trans hhead)
      have hut : u ≠ t := fun he => hne (by rw [← he]; exact hhead)
      have hpend : (m.popTask t .shared).2.pending u = true := by
        simpa [Manager.popTask, hut] using (ha.pending u).mpr hmem
      have hgone : u ∉ queued' := by
        have hl := ha'.ledger
        rw [List.filterMap_append] at hl
        obtain ⟨q, hq, hsettle⟩ := run_append.mp hl
        obtain rfl := Option.some.inj (ha.ledger.symm.trans hq)
        obtain ⟨-, rfl⟩ : u ∈ queued ∧ queued.erase u = queued' := by
          simpa [Event.entry] using hsettle
        simp [ha.linked.nodup.mem_erase_iff]
      exact hgone ((ha'.pending u).mp hpend)

end Steps

/-! ### Every run -/

theorem accounted_init : Accounted [] (State.init : State α) [] :=
  kept_init.accounted (run_nil.mpr rfl) (by simp [State.init]) (by simp)

/-- A run keeps its accounts, up to every state it reaches, exactly if no interrupt takes
from an activation of `run` the front it has seen. -/
theorem accounted_iff_frontKept {tr : List (Event α)} {s : State α} (h : Run step .init tr s) :
    (∀ tr' s', tr' <+: tr → Run step .init tr' s' → ∃ queued, Accounted tr' s' queued) ↔
      EachStep step FrontKept .init tr := by
  constructor
  · intro hall
    refine Run.induction (P := fun tr _ => (∀ tr' s', tr' <+: tr → Run step .init tr' s' →
      ∃ queued, Accounted tr' s' queued) → EachStep step FrontKept .init tr)
      (fun _ => trivial) ?_ h hall
    intro tr s e s' hr ih he hall
    have hpre := ih fun tr' u hp hu => hall tr' u (hp.trans (List.prefix_append ..)) hu
    obtain ⟨queued, ha⟩ := hall tr s (List.prefix_append ..) hr
    obtain ⟨queued', ha'⟩ := hall (tr ++ [e]) s' List.prefix_rfl (hr.concat he)
    exact hpre.concat hr (ha.frontKept he ha')
  · rintro hC tr' s' ⟨rest, rfl⟩ hr
    refine Run.induction_of_eachStep (P := fun tr s => ∃ queued, Accounted tr s queued)
      ⟨[], accounted_init⟩ ?_ hr (hC.of_append hr).1
    rintro tr u e u' - ⟨queued, ha⟩ hc he
    exact ha.step hc he

/-- Interrupts between the section and the task's `run`, and inside the task: one enqueues
the task again, the other withdraws it and runs what is queued behind it. -/
def busyTrace : List (Event ℕ) :=
  [.enqueue 0 true, .enqueue 1 true, .run, .test true, .front 0, .enqueue 0 false, .pop 0 0,
    .enqueue 0 true, .start 0, .dequeue 0 true, .run, .test true, .front 1, .pop 1 1, .start 1,
    .finish 1, .count, .test false, .finish 0, .count, .test false]

theorem accounted_busyTrace :
    ∃ s queued, Run step .init busyTrace s ∧ Accounted busyTrace s queued := by
  obtain ⟨s, hs⟩ : ∃ s, Run step .init busyTrace s := exists_run_iff.mpr rfl
  obtain ⟨queued, ha⟩ := (accounted_iff_frontKept hs).mpr (by decide) _ s List.prefix_rfl hs
  exact ⟨s, queued, hs, ha⟩

/-- The front is withdrawn between `q.front()` and the section: the section pops the task
behind it, which is never run, and the task that was withdrawn is run. -/
theorem not_accounted_withdrawn_front :
    ¬ ∀ (tr : List (Event ℕ)) (s : State ℕ), Run step .init tr s →
      ∃ queued, Accounted tr s queued := by
  intro hall
  obtain ⟨queued, ha⟩ := hall [.enqueue 0 true, .enqueue 1 true, .run, .test true, .front 0,
    .dequeue 0 true, .pop 0 1, .start 0] _ rfl
  have hperm : [1].Perm [0] := ha.popped
  simp at hperm

/-! ### Without interrupts

Where nothing comes between the statements of `run`, and the policy is `immediate` each time, the
runs of `Trigger` are runs of this machine.
-/

/-- The statements of a step of `Trigger`. -/
def statements : Trigger.Event α → List (Event α)
  | .enqueue t added => [.enqueue t added]
  | .dequeue t removed => [.dequeue t removed]
  | .run _ => [.run]
  | .start t => [.test true, .front t, .pop t t, .start t]
  | .finish t => [.finish t, .count]
  | .ret => [.test false]

def Pc.ofFrame (f : Trigger.Frame α) : Pc α :=
  match f.task with
  | none => .test
  | some t => .inside t

def State.ofTrigger (s : Trigger.State α) : State α := ⟨s.mgr, s.frames.map Pc.ofFrame⟩

/-- All activations use the member list. -/
def Immediate (s : Trigger.State α) : Prop := ∀ f ∈ s.frames, f.q = .shared

omit [DecidableEq α] in
theorem defined_ofTrigger (s : Trigger.State α) : (State.ofTrigger s).defined = true := by
  obtain ⟨mgr, _ | ⟨⟨q, _ | t⟩, fs⟩⟩ := s <;> rfl

theorem statements_of_step {s s' : Trigger.State α} {e : Trigger.Event α} (hq : Immediate s)
    (he : e ≠ .run .deferred) (hs : Trigger.step s e = some s') :
    Run step (State.ofTrigger s) (statements e) (State.ofTrigger s') ∧ Immediate s' := by
  have hdefined := defined_ofTrigger s
  obtain ⟨mgr, frames⟩ := s
  cases e with
  | enqueue t added =>
      simp only [Trigger.step] at hs
      split at hs <;> cases hs
      next h =>
        exact ⟨run_cons.mpr ⟨_, if_pos ⟨hdefined, h.2⟩, run_nil.mpr rfl⟩, hq⟩
  | dequeue t removed =>
      simp only [Trigger.step] at hs
      split at hs <;> cases hs
      next h =>
        exact ⟨run_cons.mpr ⟨_, if_pos ⟨hdefined, h.2⟩, run_nil.mpr rfl⟩, hq⟩
  | run rqp =>
      simp only [Trigger.step] at hs
      split at hs <;> cases hs
      cases rqp with
      | deferred => exact absurd rfl he
      | immediate =>
          exact ⟨run_cons.mpr ⟨_, if_pos hdefined, run_nil.mpr rfl⟩,
            List.forall_mem_cons.mpr ⟨rfl, hq⟩⟩
  | start t =>
      simp only [Trigger.step] at hs
      split at hs
      · next q fs =>
          obtain ⟨rfl, hfs⟩ := List.forall_mem_cons.mp hq
          split at hs <;> cases hs
          next hhead =>
            have hhead' : mgr.tasks.head = some t := hhead
            refine ⟨?_, List.forall_mem_cons.mpr ⟨rfl, hfs⟩⟩
            simp [statements, step, State.ofTrigger, Pc.ofFrame, hhead', Manager.popTask]
      · cases hs
  | finish t =>
      simp only [Trigger.step] at hs
      split at hs
      · next q u fs =>
          split at hs <;> cases hs
          next hu =>
            obtain rfl := hu
            refine ⟨?_, List.forall_mem_cons.mpr (List.forall_mem_cons.mp hq)⟩
            simp [statements, step, State.ofTrigger, Pc.ofFrame]
      · cases hs
  | ret =>
      simp only [Trigger.step] at hs
      split at hs
      · next q fs =>
          obtain ⟨rfl, hfs⟩ := List.forall_mem_cons.mp hq
          split at hs <;> cases hs
          next hhead =>
            have hhead' : mgr.tasks.head = none := hhead
            refine ⟨?_, hfs⟩
            simp [statements, step, State.ofTrigger, Pc.ofFrame, hhead']
      · cases hs

/-- A run of `Trigger` with the policy `immediate` is one of this machine that nothing
interrupts. -/
theorem statements_of_run {tr : List (Trigger.Event α)} {s : Trigger.State α}
    (h : Run Trigger.step .init tr s) (himmediate : .run .deferred ∉ tr) :
    Run step .init (tr.flatMap statements) (State.ofTrigger s) := by
  have hrun : Run step .init (tr.flatMap statements) (State.ofTrigger s) ∧ Immediate s := by
    refine Run.induction (P := fun tr s => .run .deferred ∉ tr →
      Run step .init (tr.flatMap statements) (State.ofTrigger s) ∧ Immediate s) ?_ ?_ h himmediate
    · exact fun _ => ⟨run_nil.mpr rfl, by simp [Immediate, Trigger.State.init]⟩
    · intro tr s e s' _ ih hs hnot
      rw [List.mem_append, List.mem_singleton, not_or] at hnot
      obtain ⟨hr, hq⟩ := ih hnot.1
      obtain ⟨hr', hq'⟩ := statements_of_step hq (fun he => hnot.2 he.symm) hs
      rw [List.flatMap_append, List.flatMap_singleton]
      exact ⟨run_append.mpr ⟨_, hr, hr'⟩, hq'⟩
  exact hrun.1

end BaremetalSenders.TriggerInterrupt
