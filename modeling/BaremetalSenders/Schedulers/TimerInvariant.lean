import BaremetalSenders.Foundation.StableOrder
import BaremetalSenders.Schedulers.TimerManager

/-!
The representation invariant of the timer manager and its protocol with the HAL.

The HAL is a small state machine: it is enabled and disabled in turns, and only
while it is enabled may its clock be read and its event be set. What the
manager keeps invariant is that this machine has accepted every call so far and
that the state it is in is read off the queue: disabled when the queue is
empty, else enabled with the event of the first task programmed.

The queue itself is ordered by expiration time, and among equal times by the
order in which the tasks were scheduled; `seq` is that order. The two branches
of `schedule_at` and `schedule_after` are the two lemmas `QueueOk.link_first`
and `QueueOk.link_next`.
-/

namespace BaremetalSenders.Timer

variable {α τ δ : Type*}

/-- What the HAL knows: whether it runs, and the event it is programmed for. -/
inductive HalState (τ : Type*) where
  | disabled
  | enabled (event : Option τ)
  deriving DecidableEq

/-- The calls the HAL permits. The fused `enable` programs the event it returns. -/
def halStep : HalState τ → HalCall τ δ → Option (HalState τ)
  | .disabled, .enable => some (.enabled none)
  | .disabled, .enableFor _ tp => some (.enabled (some tp))
  | .enabled ev, .now _ => some (.enabled ev)
  | .enabled _, .setEventTime tp => some (.enabled (some tp))
  | .enabled _, .disable => some .disabled
  | _, _ => none

theorem run_now (ev : Option τ) (readings : List τ) :
    Run (halStep (δ := δ)) (.enabled ev) (readings.map .now) (.enabled ev) := by
  induction readings with
  | nil => exact run_nil.mpr rfl
  | cons r rs ih => exact run_cons.mpr ⟨_, rfl, ih⟩

/-- Enabling and disabling, as entries about the one timer there is. -/
def HalCall.power : HalCall τ δ → Option (Entry Unit)
  | .enable | .enableFor _ _ => some (.arm ())
  | .disable => some (.settle ())
  | _ => none

/-- The calls the HAL accepts enable and disable it in turns, beginning with an enable. -/
theorem power_alternates {cs : List (HalCall τ δ)} {st : HalState τ}
    (h : Run halStep .disabled cs st) : Ledger.Alternates () (cs.filterMap HalCall.power) := by
  obtain ⟨q, hq, -⟩ := h.ledger HalCall.power
    (R := fun st q => st = .disabled ∧ q = [] ∨ ∃ ev, st = .enabled ev ∧ q = [()])
    (.inl ⟨rfl, rfl⟩)
    (by
      rintro st q c st' (⟨rfl, rfl⟩ | ⟨ev, rfl, rfl⟩) - hc <;> cases c <;>
        simp_all [halStep, HalCall.power, Ledger.step, eq_comm])
    (EachStep.trivial cs)
  exact Ledger.alternates_of_run hq ()

/-! ### The HAL follows the queue -/

/-- The state the HAL ought to be in. -/
def Manager.halState (m : Manager α τ δ) : HalState τ :=
  match m.taskQueue with
  | [] => .disabled
  | u :: _ => .enabled (some (m.expirationTime u))

section ComputeNextEvent

variable (m : Manager α τ δ)

@[simp] theorem computeNextEvent_taskQueue : m.computeNextEvent.taskQueue = m.taskQueue := by
  cases hq : m.taskQueue <;> simp [Manager.computeNextEvent, Manager.call, hq]

@[simp] theorem computeNextEvent_expirationTime :
    m.computeNextEvent.expirationTime = m.expirationTime := by
  cases hq : m.taskQueue <;> simp [Manager.computeNextEvent, Manager.call, hq]

@[simp] theorem computeNextEvent_pending : m.computeNextEvent.pending = m.pending := by
  cases hq : m.taskQueue <;> simp [Manager.computeNextEvent, Manager.call, hq]

@[simp] theorem computeNextEvent_taskCount : m.computeNextEvent.taskCount = m.taskCount := by
  cases hq : m.taskQueue <;> simp [Manager.computeNextEvent, Manager.call, hq]

variable {m}

/-- `compute_next_event` brings a HAL that runs in line with the queue. -/
theorem run_computeNextEvent {ev : Option τ} (hal : Run halStep .disabled m.hal (.enabled ev)) :
    Run halStep .disabled m.computeNextEvent.hal m.computeNextEvent.halState := by
  simp only [Manager.halState, computeNextEvent_taskQueue, computeNextEvent_expirationTime]
  cases hq : m.taskQueue with
  | nil => simpa only [Manager.computeNextEvent, Manager.call, hq] using hal.concat rfl
  | cons u us => simpa only [Manager.computeNextEvent, Manager.call, hq] using hal.concat rfl

end ComputeNextEvent

/-! ### Scheduling leaves the flags and the counter alone -/

section Frame

variable [DecidableEq α] [LT τ] [DecidableLT τ] {m m' : Manager α τ δ} {t : α}

omit [DecidableEq α] in
@[simp] theorem enqueue_pending : (m.enqueue t).pending = m.pending := by
  simp only [Manager.enqueue]
  split <;> rfl

omit [DecidableEq α] in
@[simp] theorem enqueue_taskCount : (m.enqueue t).taskCount = m.taskCount := by
  simp only [Manager.enqueue]
  split <;> rfl

theorem scheduleAt_frame {ep : ExpirationProvider τ} {readings : List τ}
    (hm : m.scheduleAt t ep readings = some m') :
    m'.pending = m.pending ∧ m'.taskCount = m.taskCount := by
  obtain ⟨tp, -, rfl⟩ := Option.map_eq_some_iff.mp hm
  split
  · exact ⟨rfl, rfl⟩
  · exact ⟨enqueue_pending, enqueue_taskCount⟩

theorem scheduleAfter_frame [HAdd τ δ τ] (m : Manager α τ δ) (t : α) (fused : Bool) (d : δ)
    (reading : τ) :
    (m.scheduleAfter fused t d reading).pending = m.pending ∧
      (m.scheduleAfter fused t d reading).taskCount = m.taskCount := by
  simp only [Manager.scheduleAfter]
  split
  · cases fused <;> exact ⟨rfl, rfl⟩
  · exact ⟨enqueue_pending, enqueue_taskCount⟩

end Frame

/-! ### The invariant -/

variable [LT τ]

/-- The queue holds the tasks `seq`, given in order of scheduling, and the HAL follows it. -/
structure QueueOk (m : Manager α τ δ) (seq : List α) : Prop where
  order : StableSorted (· < ·) m.expirationTime seq m.taskQueue
  perm : m.taskQueue.Perm seq
  nodup : seq.Nodup
  hal : Run halStep .disabled m.hal m.halState

/-- `QueueOk`, and the pending flags are those of the queued tasks. -/
structure Good (m : Manager α τ δ) (seq : List α) : Prop extends QueueOk m seq where
  pending : ∀ t, m.pending t = true ↔ t ∈ seq

theorem good_init (expirationTime : α → τ) :
    Good (Manager.init expirationTime : Manager α τ δ) [] where
  order := List.Pairwise.nil
  perm := .nil
  nodup := List.nodup_nil
  hal := run_nil.mpr rfl
  pending := by simp [Manager.init]

section Operations

variable {m m' : Manager α τ δ} {seq : List α} {t u : α} {us : List α} {tp : τ}
  {cs : List (HalCall τ δ)}

theorem QueueOk.mem_iff (h : QueueOk m seq) : t ∈ m.taskQueue ↔ t ∈ seq := h.perm.mem_iff

variable [DecidableEq α]

/-- Linking a task into the empty queue, with calls that enable the HAL and program
the task's time. -/
theorem QueueOk.link_first (h : QueueOk m seq) (hempty : m.taskQueue = [])
    (hcs : Run halStep .disabled cs (.enabled (some tp))) :
    QueueOk ({ m with
      taskQueue := [t]
      expirationTime := Function.update m.expirationTime t tp
      hal := m.hal ++ cs }) (seq ++ [t]) := by
  obtain rfl : seq = [] := List.perm_nil.mp (hempty ▸ h.perm).symm
  have hoff : Run halStep .disabled m.hal .disabled := by
    simpa only [Manager.halState, hempty] using h.hal
  refine ⟨List.pairwise_singleton _ _, .refl _, by simp, ?_⟩
  simpa only [Manager.halState, Function.update_self] using run_append.mpr ⟨_, hoff, hcs⟩

variable [DecidableLT τ] [IsStrictWeakOrder τ (· < ·)]

/-- Linking a task into a queue that is not empty, after calls that leave the HAL as
it was: only a task that becomes the first is made known to the HAL. -/
theorem QueueOk.link_next (tp : τ) (h : QueueOk m seq) (hqueue : m.taskQueue = u :: us)
    (hnew : t ∉ seq) (hcs : ∀ ev, Run halStep (.enabled ev) cs (.enabled ev)) :
    QueueOk (((m.call cs).setExpirationTime t tp).enqueue t) (seq ++ [t]) := by
  let m₁ := (m.call cs).setExpirationTime t tp
  have hne : ∀ x ∈ m.taskQueue, x ≠ t := fun x hx e => hnew (e ▸ h.mem_iff.mp hx)
  have hkey : ∀ x ∈ m.taskQueue, m₁.expirationTime x = m.expirationTime x := fun x hx =>
    Function.update_of_ne (hne x hx) _ _
  have hsorted : StableSorted (· < ·) m₁.expirationTime seq m.taskQueue :=
    h.order.congr_key hkey
  have hon : Run halStep .disabled m₁.hal (.enabled (some (m.expirationTime u))) := by
    have := h.hal
    simp only [Manager.halState, hqueue] at this
    exact run_append.mpr ⟨_, this, hcs _⟩
  have hsplit := List.takeWhile_append_dropWhile
    (p := fun v => decide (¬ m₁.expirationTime t < m₁.expirationTime v)) (l := m.taskQueue)
  have hqueue' : (m₁.enqueue t).taskQueue =
      m.taskQueue.takeWhile (fun v => ¬ m₁.expirationTime t < m₁.expirationTime v) ++
        t :: m.taskQueue.dropWhile (fun v => ¬ m₁.expirationTime t < m₁.expirationTime v) := rfl
  have hexp : (m₁.enqueue t).expirationTime = m₁.expirationTime := by
    simp only [Manager.enqueue]
    split <;> rfl
  have hperm : (m₁.enqueue t).taskQueue.Perm (seq ++ [t]) := by
    rw [hqueue']
    refine List.perm_middle.trans ?_
    rw [hsplit]
    exact (h.perm.cons t).trans (List.perm_append_singleton t seq).symm
  refine ⟨?_, hperm, ?_, ?_⟩
  · rw [hqueue', hexp]
    exact hsorted.insert fun x hx => h.mem_iff.mp hx
  · exact List.nodup_append.mpr ⟨h.nodup, by simp, fun a ha b hb e => hnew (by simp_all)⟩
  · change Run halStep .disabled (m₁.enqueue t).hal (m₁.enqueue t).halState
    have hu := hkey u (hqueue ▸ List.mem_cons_self)
    by_cases hlt : m₁.expirationTime t < m₁.expirationTime u
    · -- `t` becomes the first task, and the HAL is told.
      have hq : (m₁.enqueue t).taskQueue = t :: m.taskQueue := by
        simp [hqueue', hqueue, hlt]
      have hcalls : (m₁.enqueue t).hal = m₁.hal ++ [.setEventTime (m₁.expirationTime t)] := by
        have hfront : m₁.taskQueue = u :: us := hqueue
        simp [Manager.enqueue, Manager.call, hfront, hlt]
      simp only [Manager.halState, hq, hcalls, hexp]
      exact hon.concat rfl
    · obtain ⟨vs, hq⟩ : ∃ vs, (m₁.enqueue t).taskQueue = u :: vs := by
        simp [hqueue', hqueue, hlt]
      have hcalls : (m₁.enqueue t).hal = m₁.hal := by
        have hfront : m₁.taskQueue = u :: us := hqueue
        simp [Manager.enqueue, hfront, hlt]
      simp only [Manager.halState, hq, hcalls, hexp, hu]
      exact hon

/-- `schedule_at` queues a new task, whichever branch it takes. -/
theorem QueueOk.scheduleAt {ep : ExpirationProvider τ} {readings : List τ} (h : QueueOk m seq)
    (hnew : t ∉ seq) (hm : m.scheduleAt t ep readings = some m') :
    QueueOk m' (seq ++ [t]) := by
  obtain ⟨tp, -, rfl⟩ := Option.map_eq_some_iff.mp hm
  cases hq : m.taskQueue with
  | nil =>
      have hcs : Run halStep .disabled
          (HalCall.enable (δ := δ) :: (readings.map .now ++ [.setEventTime tp]))
          (.enabled (some tp)) :=
        run_cons.mpr ⟨_, rfl, (run_now none readings).concat rfl⟩
      simpa [hq, Manager.call, Manager.setExpirationTime] using h.link_first (t := t) hq hcs
  | cons u us =>
      have hnext := QueueOk.link_next tp h hq hnew fun ev => run_now ev readings
      simpa only [hq, reduceCtorEq, if_false] using hnext

theorem QueueOk.scheduleAfter [HAdd τ δ τ] {fused : Bool} {d : δ} {reading : τ}
    (h : QueueOk m seq) (hnew : t ∉ seq) :
    QueueOk (m.scheduleAfter fused t d reading) (seq ++ [t]) := by
  cases hq : m.taskQueue with
  | nil =>
      cases fused with
      | true =>
          have hcs : Run halStep .disabled [HalCall.enableFor d (reading + d)]
              (.enabled (some (reading + d))) := run_cons.mpr ⟨_, rfl, run_nil.mpr rfl⟩
          simpa [Manager.scheduleAfter, hq, Manager.call, Manager.setExpirationTime]
            using h.link_first (t := t) hq hcs
      | false =>
          have hcs : Run halStep .disabled
              [HalCall.enable (δ := δ), .now reading, .setEventTime (reading + d)]
              (.enabled (some (reading + d))) :=
            run_cons.mpr ⟨_, rfl, (run_now none [reading]).concat rfl⟩
          simpa [Manager.scheduleAfter, hq, Manager.call, Manager.setExpirationTime]
            using h.link_first (t := t) hq hcs
  | cons u us =>
      have hnext := QueueOk.link_next (reading + d) h hq hnew fun ev => run_now ev [reading]
      simpa only [Manager.scheduleAfter, hq, reduceCtorEq, if_false, List.map_cons, List.map_nil]
        using hnext

omit [DecidableLT τ] [IsStrictWeakOrder τ (· < ·)] in
/-- Unlinking a task and looking for the next event. -/
theorem QueueOk.unlink (h : QueueOk m seq) (ht : t ∈ m.taskQueue) :
    QueueOk (Manager.computeNextEvent { m with taskQueue := m.taskQueue.erase t })
      (seq.erase t) := by
  have hnd : m.taskQueue.Nodup := h.perm.nodup_iff.mpr h.nodup
  have hon : ∃ ev, m.halState = .enabled ev := by
    cases hq : m.taskQueue with
    | nil => simp [hq] at ht
    | cons u us => exact ⟨some (m.expirationTime u), by simp only [Manager.halState, hq]⟩
  obtain ⟨ev, hev⟩ := hon
  refine ⟨?_, ?_, h.nodup.erase t, run_computeNextEvent (hev ▸ h.hal)⟩
  · rw [computeNextEvent_taskQueue, computeNextEvent_expirationTime]
    exact (h.order.sublist List.erase_sublist).erase_seq fun hmem =>
      (hnd.mem_erase_iff.mp hmem).1 rfl
  · simpa only [computeNextEvent_taskQueue] using h.perm.erase t

/-! ### The public functions -/

omit [DecidableLT τ] [IsStrictWeakOrder τ (· < ·)] in
theorem Good.pending_eq (h : Good m seq) (t : α) : m.pending t = decide (t ∈ seq) := by
  by_cases ht : t ∈ seq
  · simp [ht, (h.pending t).mpr ht]
  · simpa [ht] using mt (h.pending t).mp ht

omit [DecidableEq α] [DecidableLT τ] [IsStrictWeakOrder τ (· < ·)] in
/-- The queue does not depend on the flags and the counter. -/
theorem QueueOk.with_flags (h : QueueOk m seq) (pending : α → Bool) (taskCount : Int) :
    QueueOk { m with pending, taskCount } seq := ⟨h.order, h.perm, h.nodup, h.hal⟩

omit [DecidableLT τ] [IsStrictWeakOrder τ (· < ·)] in
theorem Good.exchange_pending (h : Good m seq) (ht : t ∈ seq) :
    { m with pending := Function.update m.pending t true } = m := by
  have hsame : Function.update m.pending t true = m.pending := by
    rw [← (h.pending t).mpr ht]
    exact Function.update_eq_self t m.pending
  rw [hsame]

omit [DecidableLT τ] [IsStrictWeakOrder τ (· < ·)] in
theorem Good.of_scheduled (h : Good m seq) (hq : QueueOk m' (seq ++ [t]))
    (hp : m'.pending = Function.update m.pending t true) : Good m' (seq ++ [t]) := by
  refine { hq with pending := fun u => ?_ }
  rw [hp]
  rcases eq_or_ne u t with rfl | hne
  · simp
  · simp [hne, h.pending u]

/-- `run_after`: a pending task is left as it is, another one is scheduled. -/
theorem Good.runAfter [HAdd τ δ τ] {fused added : Bool} {d : δ} {reading : τ} (h : Good m seq)
    (hm : m.runAfter fused t d reading = (added, m')) :
    added = false ∧ t ∈ seq ∧ m' = m ∨
      added = true ∧ t ∉ seq ∧ Good m' (seq ++ [t]) ∧ m'.taskCount = m.taskCount + 1 := by
  by_cases ht : t ∈ seq
  · refine .inl ?_
    have hp := (h.pending t).mpr ht
    rw [Manager.runAfter, hp, h.exchange_pending ht] at hm
    obtain ⟨rfl, rfl⟩ := Prod.mk.inj hm
    exact ⟨rfl, ht, rfl⟩
  · refine .inr ?_
    have hp : m.pending t = false := by simpa using mt (h.pending t).mp ht
    rw [Manager.runAfter, hp] at hm
    obtain ⟨rfl, rfl⟩ := Prod.mk.inj hm
    obtain ⟨hpending, hcount⟩ := scheduleAfter_frame
      { m with
        pending := Function.update m.pending t true
        taskCount := m.taskCount + 1 } t fused d reading
    exact ⟨rfl, ht, h.of_scheduled ((h.with_flags _ _).scheduleAfter ht) hpending, hcount⟩

/-- `run_at`: likewise, whatever the expiration provider computes. -/
theorem Good.runAt {ep : ExpirationProvider τ} {readings : List τ} {added : Bool}
    (h : Good m seq) (hm : m.runAt t ep readings = some (added, m')) :
    added = false ∧ t ∈ seq ∧ m' = m ∨
      added = true ∧ t ∉ seq ∧ Good m' (seq ++ [t]) ∧ m'.taskCount = m.taskCount + 1 := by
  by_cases ht : t ∈ seq
  · refine .inl ?_
    have hp := (h.pending t).mpr ht
    rw [Manager.runAt, hp, h.exchange_pending ht] at hm
    obtain ⟨rfl, rfl⟩ := Prod.mk.inj (Option.some.inj hm)
    exact ⟨rfl, ht, rfl⟩
  · refine .inr ?_
    have hp : m.pending t = false := by simpa using mt (h.pending t).mp ht
    rw [Manager.runAt, hp] at hm
    obtain ⟨m₁, hm₁, heq⟩ := Option.map_eq_some_iff.mp hm
    obtain ⟨rfl, rfl⟩ := Prod.mk.inj heq
    obtain ⟨hpending, hcount⟩ := scheduleAt_frame hm₁
    exact ⟨rfl, ht, h.of_scheduled ((h.with_flags _ _).scheduleAt ht hm₁) hpending, hcount⟩

omit [DecidableLT τ] [IsStrictWeakOrder τ (· < ·)] in
theorem Good.of_unlinked (h : Good m seq) (ht : t ∈ seq) (taskCount : Int) :
    Good (Manager.computeNextEvent { m with
      taskQueue := m.taskQueue.erase t
      pending := Function.update m.pending t false
      taskCount := taskCount }) (seq.erase t) := by
  have hq := (h.with_flags (Function.update m.pending t false) taskCount).unlink
    (h.mem_iff.mpr ht)
  refine { hq with pending := fun u => ?_ }
  rw [computeNextEvent_pending, h.nodup.mem_erase_iff]
  rcases eq_or_ne u t with rfl | hne
  · simp
  · simp [hne, h.pending u]

omit [DecidableLT τ] [IsStrictWeakOrder τ (· < ·)] in
/-- `cancel`: a pending task is unlinked, another one is left as it is. -/
theorem Good.cancel {cancelled : Bool} (h : Good m seq) (hm : m.cancel t = (cancelled, m')) :
    cancelled = false ∧ t ∉ seq ∧ m' = m ∨
      cancelled = true ∧ t ∈ seq ∧ Good m' (seq.erase t) ∧ m'.taskCount = m.taskCount - 1 := by
  by_cases ht : t ∈ seq
  · refine .inr ?_
    rw [Manager.cancel, if_pos ((h.pending t).mpr ht)] at hm
    obtain ⟨rfl, rfl⟩ := Prod.mk.inj hm
    exact ⟨rfl, ht, h.of_unlinked ht _, by simp⟩
  · refine .inl ?_
    rw [Manager.cancel, if_neg (mt (h.pending t).mp ht)] at hm
    obtain ⟨rfl, rfl⟩ := Prod.mk.inj hm
    exact ⟨rfl, ht, rfl⟩

omit [DecidableLT τ] [IsStrictWeakOrder τ (· < ·)] in
/-- `service_task` takes the task that is to be served before all the others. -/
theorem Good.popTask {popped : Option α} (h : Good m seq) (hm : m.popTask = (popped, m')) :
    popped = none ∧ seq = [] ∧ m' = m ∨
      ∃ t, popped = some t ∧ t ∈ seq ∧ Good m' (seq.erase t) ∧ m'.taskCount = m.taskCount ∧
        ∀ u ∈ seq, u ≠ t → Before (· < ·) m.expirationTime seq t u := by
  cases hq : m.taskQueue with
  | nil =>
      refine .inl ?_
      simp only [Manager.popTask, hq, Prod.mk.injEq] at hm
      exact ⟨hm.1.symm, List.perm_nil.mp (hq ▸ h.perm).symm, hm.2.symm⟩
  | cons n rest =>
      refine .inr ⟨n, ?_⟩
      simp only [Manager.popTask, hq, Prod.mk.injEq] at hm
      obtain ⟨rfl, rfl⟩ := hm
      have hn : n ∈ seq := h.mem_iff.mp (hq ▸ List.mem_cons_self)
      have hgood := h.of_unlinked hn m.taskCount
      rw [hq, List.erase_cons_head] at hgood
      refine ⟨rfl, hn, hgood, by simp, fun u hu hne => ?_⟩
      exact (hq ▸ h.order).head_before (hq ▸ h.mem_iff.mpr hu) hne

end Operations

end BaremetalSenders.Timer
