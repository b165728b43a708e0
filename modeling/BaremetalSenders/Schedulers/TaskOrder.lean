import BaremetalSenders.Schedulers.TaskAccounting

/-!
The order in which tasks run, and when a call of `service_tasks` is done.

Two remarks carry everything. Tasks leave a queue in the order they entered
it, and a call runs what it took in the order it took it. When the calls for a
priority do not overlap, the second remark applies to all of them together and
the tasks of the priority run in the order of their enqueues. Otherwise they
need not: a call can be overtaken with a task in its hand, or with its
snapshot still to run.

A call under `deferred` has three steps for each task of its snapshot, whatever
is enqueued in the meantime.
-/

namespace BaremetalSenders.Tasks

open Trigger (RequeuePolicy)

variable {n : ℕ} {α : Type*}

/-! ### Readings of a trace -/

def Event.prio : Event n α → Fin n
  | .enqueue _ p _ | .service _ p _ _ | .pop _ p _ _ | .observedEmpty _ p _ | .run _ p _
  | .finish _ p _ => p

def Event.accepted : Event n α → List α
  | .enqueue t _ true => [t]
  | _ => []

/-- The tasks an event removes from a queue: a snapshot takes them all, a pop
under `immediate` takes one. -/
def Event.taken : Event n α → List α
  | .service _ _ _ xs => xs
  | .pop _ _ .immediate t => [t]
  | _ => []

def Event.popped : Event n α → List α
  | .pop _ _ _ t => [t]
  | _ => []

def Event.ran : Event n α → List α
  | .run _ _ t => [t]
  | _ => []

/-- The tasks accepted at priority `p`, in this order. -/
def enqueuedAt (p : Fin n) (tr : List (Event n α)) : List α :=
  tr.flatMap fun e => if e.prio = p then e.accepted else []

/-- The tasks that left the queue of priority `p`, in this order. -/
def takenAt (p : Fin n) (tr : List (Event n α)) : List α :=
  tr.flatMap fun e => if e.prio = p then e.taken else []

/-- The tasks run at priority `p`, in this order. -/
def runsAt (p : Fin n) (tr : List (Event n α)) : List α :=
  tr.flatMap fun e => if e.prio = p then e.ran else []

/-- The steps of call number `i`. -/
def stepsOf (i : ℕ) (tr : List (Event n α)) : List (Event n α) :=
  tr.filter fun e => e.call = some i

/-- What call number `i` took from the queue of its priority, in this order. -/
def takenBy (i : ℕ) (tr : List (Event n α)) : List α := (stepsOf i tr).flatMap Event.taken

/-- What call number `i` popped, in this order. -/
def poppedBy (i : ℕ) (tr : List (Event n α)) : List α := (stepsOf i tr).flatMap Event.popped

/-- What call number `i` ran, in this order. -/
def ranBy (i : ℕ) (tr : List (Event n α)) : List α := (stepsOf i tr).flatMap Event.ran

/-- The event marks the queue of `p` as drained: a snapshot of it, or a pop
under `immediate` that finds it empty. -/
def Event.Drains (p : Fin n) : Event n α → Prop
  | .service _ p' .deferred _ => p' = p
  | .observedEmpty _ p' .immediate => p' = p
  | _ => False

/-! ### What a call has still to do -/

/-- The task that is popped and not run yet. -/
def Hand.poppedTask : Hand α → List α
  | .popped t => [t]
  | _ => []

/-- What a call has taken and not run yet. -/
def Call.todo (c : Call n α) : List α := c.hand.poppedTask ++ c.q.held

/-- The steps up to the end of the loop's round. -/
def Hand.steps : Hand α → ℕ
  | .looking => 1
  | .popped _ => 3
  | .running _ => 2
  | .returned => 0

/-- The steps a call has still to take when nobody adds to its queue. -/
def Call.steps (c : Call n α) : ℕ := c.hand.steps + 3 * c.q.held.length

structure CallMove (e : Event n α) (c c' : Call n α) : Prop where
  active : c.hand ≠ .returned
  prio : c.prio = e.prio
  prio' : c'.prio = c.prio
  policy : c'.q.policy = c.q.policy
  todo : c.todo ++ e.taken = e.ran ++ c'.todo
  popped : c.hand.poppedTask ++ e.popped = e.ran ++ c'.hand.poppedTask
  steps : c.q.policy = .deferred → c.steps = c'.steps + 1
  taken : c.q.policy = .deferred → e.taken = []
  returned : c'.hand = .returned →
    c'.todo = [] ∧ ∃ i, e = .observedEmpty i c.prio c.q.policy ∧ e.call = some i

theorem stepsOf_concat_self {i : ℕ} {e : Event n α} (h : e.call = some i)
    (tr : List (Event n α)) : stepsOf i (tr ++ [e]) = stepsOf i tr ++ [e] := by
  simp [stepsOf, h]

theorem stepsOf_concat_of_ne {i : ℕ} {e : Event n α} (h : e.call ≠ some i)
    (tr : List (Event n α)) : stepsOf i (tr ++ [e]) = stepsOf i tr := by
  simp [stepsOf, h]

theorem getElem?_setCall {cs : List (Call n α)} {i : ℕ} {c : Call n α} (h : cs[i]? = some c)
    (c' : Call n α) (j : ℕ) : (cs.set i c')[j]? = if i = j then some c' else cs[j]? := by
  have hlt : i < cs.length := (List.getElem?_eq_some_iff.mp h).1
  by_cases hij : i = j
  · subst hij
    simp [hlt]
  · simp [hij]

variable [DecidableEq α]

/-- What a step does to the calls: nothing, begin a new one, or move one. -/
theorem call_move {s s' : State n α} {e : Event n α} (h : Move s e s') :
    (e.call = none ∧ s'.calls = s.calls ∧ e.taken = [] ∧ e.ran = []) ∨
    (∃ c, e = .service s.calls.length c.prio c.q.policy c.todo ∧ s'.calls = s.calls ++ [c] ∧
      c.hand = .looking) ∨
    ∃ i c c', e.call = some i ∧ s.calls[i]? = some c ∧ s'.calls = s.calls.set i c' ∧
      CallMove e c c' := by
  cases h with
  | refuse t p => exact .inl ⟨rfl, rfl, rfl, rfl⟩
  | accept t p hp => exact .inl ⟨rfl, rfl, rfl, rfl⟩
  | follow p => exact .inr (.inl ⟨⟨p, .shared, .looking⟩, rfl, rfl, rfl⟩)
  | detach p => exact .inr (.inl ⟨⟨p, .detached (s.mgr.taskQueues p), .looking⟩, rfl, rfl, rfl⟩)
  | popShared i p t ts hi hq =>
      exact .inr (.inr ⟨i, _, _, rfl, hi, rfl,
        { active := by simp, prio := rfl, prio' := rfl, policy := rfl, todo := rfl, popped := rfl,
          steps := by simp [Queue.policy], taken := by simp [Queue.policy], returned := by simp }⟩)
  | popDetached i p t ts hi =>
      exact .inr (.inr ⟨i, _, _, rfl, hi, rfl,
        { active := by simp, prio := rfl, prio' := rfl, policy := rfl
          todo := by simp [Call.todo, Hand.poppedTask, Queue.held, Event.taken, Event.ran]
          popped := rfl
          steps := by
            intro _
            simp only [Call.steps, Hand.steps, Queue.held, List.length_cons]
            omega
          taken := fun _ => rfl, returned := by simp }⟩)
  | empty i p q hi hq =>
      have hheld : q.held = [] := by
        cases q with
        | shared => rfl
        | detached l => exact hq
      exact .inr (.inr ⟨i, _, _, rfl, hi, rfl,
        { active := by simp, prio := rfl, prio' := rfl, policy := rfl
          todo := by simp [Call.todo, Hand.poppedTask, Event.taken, Event.ran]
          popped := rfl
          steps := by
            intro _
            simp [Call.steps, Hand.steps, hheld]
          taken := fun _ => rfl
          returned := fun _ => ⟨by simp [Call.todo, Hand.poppedTask, hheld], i, rfl, rfl⟩ }⟩)
  | run i p q t hi =>
      exact .inr (.inr ⟨i, _, _, rfl, hi, rfl,
        { active := by simp, prio := rfl, prio' := rfl, policy := rfl
          todo := by simp [Call.todo, Hand.poppedTask, Event.taken, Event.ran]
          popped := rfl
          steps := by
            intro _
            simp only [Call.steps, Hand.steps]
            omega
          taken := fun _ => rfl, returned := by simp }⟩)
  | finish i p q t hi =>
      exact .inr (.inr ⟨i, _, _, rfl, hi, rfl,
        { active := by simp, prio := rfl, prio' := rfl, policy := rfl
          todo := by simp [Call.todo, Hand.poppedTask, Event.taken, Event.ran]
          popped := rfl
          steps := by
            intro _
            simp only [Call.steps, Hand.steps]
            omega
          taken := fun _ => rfl, returned := by simp }⟩)

/-! ### One call -/

/-- What the trace says about call number `i`, which is now `c`. -/
structure CallOk (tr : List (Event n α)) (i : ℕ) (c : Call n α) : Prop where
  order : takenBy i tr = ranBy i tr ++ c.todo
  hand : poppedBy i tr = ranBy i tr ++ c.hand.poppedTask
  prio : ∀ e ∈ stepsOf i tr, e.prio = c.prio
  steps : c.q.policy = .deferred →
    (stepsOf i tr).length + c.steps = 3 * (takenBy i tr).length + 2
  returned : c.hand = .returned →
    c.todo = [] ∧ (stepsOf i tr).getLast? = some (.observedEmpty i c.prio c.q.policy)

omit [DecidableEq α] in
theorem CallOk.frame {tr : List (Event n α)} {i : ℕ} {c : Call n α} {e : Event n α}
    (h : CallOk tr i c) (he : e.call ≠ some i) : CallOk (tr ++ [e]) i c := by
  have hsame := stepsOf_concat_of_ne he tr
  constructor
  · simpa only [takenBy, ranBy, hsame] using h.order
  · simpa only [poppedBy, ranBy, hsame] using h.hand
  · simpa only [hsame] using h.prio
  · simpa only [takenBy, hsame] using h.steps
  · simpa only [hsame] using h.returned

omit [DecidableEq α] in
theorem CallOk.begin {tr : List (Event n α)} {i : ℕ} {c : Call n α}
    (hnew : stepsOf i tr = []) (hhand : c.hand = .looking) :
    CallOk (tr ++ [.service i c.prio c.q.policy c.todo]) i c := by
  have hsteps : stepsOf i (tr ++ [.service i c.prio c.q.policy c.todo]) =
      [.service i c.prio c.q.policy c.todo] := by
    rw [stepsOf_concat_self rfl, hnew, List.nil_append]
  constructor
  · simp [takenBy, ranBy, hsteps, Event.taken, Event.ran]
  · simp [poppedBy, ranBy, hsteps, Event.popped, Event.ran, hhand, Hand.poppedTask]
  · simp [hsteps, Event.prio]
  · intro _
    have hheld : c.q.held = c.todo := by simp [Call.todo, hhand, Hand.poppedTask]
    rw [takenBy, hsteps]
    simp only [Call.steps, hhand, Hand.steps, hheld, List.length_singleton,
      List.flatMap_singleton, Event.taken]
    omega
  · simp [hhand]

omit [DecidableEq α] in
theorem CallOk.move {tr : List (Event n α)} {i : ℕ} {c c' : Call n α} {e : Event n α}
    (h : CallOk tr i c) (he : e.call = some i) (hm : CallMove e c c') :
    CallOk (tr ++ [e]) i c' := by
  have hsteps := stepsOf_concat_self he tr
  have htaken : takenBy i (tr ++ [e]) = takenBy i tr ++ e.taken := by
    simp [takenBy, hsteps]
  have hran : ranBy i (tr ++ [e]) = ranBy i tr ++ e.ran := by
    simp [ranBy, hsteps]
  have hpopped : poppedBy i (tr ++ [e]) = poppedBy i tr ++ e.popped := by
    simp [poppedBy, hsteps]
  constructor
  · rw [htaken, hran, h.order, List.append_assoc, hm.todo, List.append_assoc]
  · rw [hpopped, hran, h.hand, List.append_assoc, hm.popped, List.append_assoc]
  · intro e' he'
    rw [hsteps, List.mem_append, List.mem_singleton] at he'
    rcases he' with he' | rfl
    · rw [h.prio e' he', hm.prio']
    · rw [hm.prio', hm.prio]
  · intro hd
    rw [hm.policy] at hd
    have hold := h.steps hd
    have hstep := hm.steps hd
    rw [htaken, hm.taken hd, hsteps, List.append_nil, List.length_append, List.length_singleton]
    omega
  · intro hr
    obtain ⟨htodo, j, hj, hcall⟩ := hm.returned hr
    obtain rfl : j = i := Option.some.inj (hcall.symm.trans he)
    refine ⟨htodo, ?_⟩
    rw [hsteps, hm.prio', hm.policy, ← hj]
    simp

structure CallsOk (tr : List (Event n α)) (s : State n α) : Prop where
  fresh : ∀ i, s.calls.length ≤ i → stepsOf i tr = []
  each : ∀ i c, s.calls[i]? = some c → CallOk tr i c
  began : ∀ i p rqp xs, .service i p rqp xs ∈ tr →
    ∃ c, s.calls[i]? = some c ∧ c.prio = p ∧ c.q.policy = rqp ∧
      (rqp = .deferred → takenBy i tr = xs)

theorem callsOk_of_run {tr : List (Event n α)} {s : State n α} (h : Run step .init tr s) :
    CallsOk tr s := by
  refine Run.induction (P := CallsOk) ⟨by simp [stepsOf], by simp [State.init], by simp⟩ ?_ h
  intro tr s e s' _ ih hs
  obtain ⟨hcall, hcalls, -, -⟩ | ⟨c, rfl, hcalls, hhand⟩ | ⟨i, c, c', hcall, hi, hcalls, hm⟩ :=
    call_move (step_move hs)
  · have hother : ∀ i, e.call ≠ some i := by simp [hcall]
    refine ⟨fun i hi => ?_, fun i c hi => ?_, fun i p rqp xs hmem => ?_⟩
    · rw [stepsOf_concat_of_ne (hother i)]
      exact ih.fresh i (hcalls ▸ hi)
    · exact (ih.each i c (hcalls ▸ hi)).frame (hother i)
    · rw [List.mem_append, List.mem_singleton] at hmem
      rcases hmem with hmem | rfl
      · rw [hcalls, takenBy, stepsOf_concat_of_ne (hother i)]
        exact ih.began i p rqp xs hmem
      · exact absurd rfl (hother i)
  · have hlen : s'.calls.length = s.calls.length + 1 := by simp [hcalls]
    have hnew := ih.fresh s.calls.length le_rfl
    refine ⟨fun i hi => ?_, fun i d hi => ?_, fun i p rqp xs hmem => ?_⟩
    · rw [stepsOf_concat_of_ne (by simp only [Event.call, ne_eq, Option.some.injEq]; omega)]
      exact ih.fresh i (by omega)
    · by_cases hlast : i = s.calls.length
      · subst hlast
        obtain rfl : c = d := by simpa [hcalls] using hi
        exact .begin hnew hhand
      · have hold : s.calls[i]? = some d := by
          rw [hcalls, List.getElem?_append] at hi
          split at hi
          · exact hi
          · have := (List.getElem?_eq_some_iff.mp hi).1
            simp only [List.length_singleton] at this
            omega
        exact (ih.each i d hold).frame (by simpa [Event.call, eq_comm] using hlast)
    · rw [List.mem_append, List.mem_singleton] at hmem
      rcases hmem with hmem | he
      · obtain ⟨d, hd, hp, hq, ht⟩ := ih.began i p rqp xs hmem
        have hlt := (List.getElem?_eq_some_iff.mp hd).1
        refine ⟨d, by rw [hcalls, List.getElem?_append_left hlt, hd], hp, hq, fun h => ?_⟩
        rw [takenBy, stepsOf_concat_of_ne]
        · exact ht h
        · simp only [Event.call, ne_eq, Option.some.injEq]
          omega
      · cases he
        refine ⟨c, by simp [hcalls], rfl, rfl, fun _ => ?_⟩
        rw [takenBy, stepsOf_concat_self rfl, hnew]
        simp [Event.taken]
  · have hlt := (List.getElem?_eq_some_iff.mp hi).1
    have hlook := getElem?_setCall hi c'
    refine ⟨fun j hj => ?_, fun j d hj => ?_, fun j p rqp xs hmem => ?_⟩
    · have hj' : s.calls.length ≤ j := by simpa [hcalls] using hj
      rw [stepsOf_concat_of_ne (by simp only [hcall, ne_eq, Option.some.injEq]; omega)]
      exact ih.fresh j hj'
    · rw [hcalls, hlook] at hj
      split at hj
      · next hij =>
          subst hij
          obtain rfl := Option.some.inj hj
          exact (ih.each i c hi).move hcall hm
      · next hij => exact (ih.each j d hj).frame (by simpa [hcall] using hij)
    · rw [List.mem_append, List.mem_singleton] at hmem
      rcases hmem with hmem | rfl
      · obtain ⟨d, hd, hp, hq, ht⟩ := ih.began j p rqp xs hmem
        rw [hcalls, hlook]
        split
        · next hij =>
            subst hij
            obtain rfl := Option.some.inj (hi.symm.trans hd)
            refine ⟨c', rfl, by rw [hm.prio', hp], by rw [hm.policy, hq], fun h => ?_⟩
            rw [takenBy, stepsOf_concat_self hcall, List.flatMap_append, List.flatMap_singleton,
              hm.taken (hq.trans h), List.append_nil]
            exact ht h
        · next hij =>
            refine ⟨d, hd, hp, hq, fun h => ?_⟩
            rw [takenBy, stepsOf_concat_of_ne (by simpa [hcall] using hij)]
            exact ht h
      · obtain rfl : j = i := by simpa [Event.call] using hcall
        have : j = s.calls.length := by
          simp only [step] at hs
          split at hs
          · next hc => exact hc.1
          · cases hs
        omega

/-! ### One priority -/

theorem queue_move {s s' : State n α} {e : Event n α} (h : Move s e s') (p : Fin n) :
    s.mgr.taskQueues p ++ (if e.prio = p then e.accepted else []) =
      (if e.prio = p then e.taken else []) ++ s'.mgr.taskQueues p := by
  cases h with
  | refuse t p' => simp [Event.accepted, Event.taken]
  | accept t p' hp =>
      rw [enqueueTask_accepted hp]
      by_cases hpp : p' = p
      · subst hpp
        simp [Event.prio, Event.accepted, Event.taken]
      · simp [Event.prio, hpp, Ne.symm hpp]
  | follow p' => simp [Event.accepted, Event.taken]
  | detach p' =>
      by_cases hpp : p' = p
      · subst hpp
        simp [Event.prio, Event.accepted, Event.taken]
      · simp [Event.prio, hpp, Ne.symm hpp]
  | popShared i p' t ts hi hq =>
      by_cases hpp : p' = p
      · subst hpp
        simp [Event.prio, Event.accepted, Event.taken, hq]
      · simp [Event.prio, hpp, Ne.symm hpp]
  | popDetached i p' t ts hi => simp [Event.accepted, Event.taken]
  | empty i p' q hi hq => simp [Event.accepted, Event.taken, State.setCall]
  | run i p' q t hi => simp [Event.accepted, Event.taken, State.setCall]
  | finish i p' q t hi => simp [Event.accepted, Event.taken]

/-- Tasks leave the queue of a priority in the order they were accepted. -/
theorem takenAt_of_run {tr : List (Event n α)} {s : State n α} (h : Run step .init tr s)
    (p : Fin n) : enqueuedAt p tr = takenAt p tr ++ s.mgr.taskQueues p := by
  refine Run.induction (P := fun tr s => enqueuedAt p tr = takenAt p tr ++ s.mgr.taskQueues p)
    (by simp [enqueuedAt, takenAt, State.init, Manager.init]) ?_ h
  intro tr s e s' _ ih hs
  have hq := queue_move (step_move hs) p
  simp only [enqueuedAt, takenAt, List.flatMap_append, List.flatMap_singleton] at ih ⊢
  rw [ih, List.append_assoc, hq, List.append_assoc]

/-- Call number `i` is `c`, services priority `p` and has not returned. -/
def State.Active (s : State n α) (p : Fin n) (i : ℕ) (c : Call n α) : Prop :=
  s.calls[i]? = some c ∧ c.prio = p ∧ c.hand ≠ .returned

/-- When the calls for a priority do not overlap, at most one of them is under
way, and it has taken what the runs at that priority are short of. -/
structure Lone (p : Fin n) (tr : List (Event n α)) (s : State n α) : Prop where
  only : ∀ i j c d, s.Active p i c → s.Active p j d → i = j
  order : ∀ i c, s.Active p i c → takenAt p tr = runsAt p tr ++ c.todo
  rest : (∀ i c, ¬ s.Active p i c) → takenAt p tr = runsAt p tr

omit [DecidableEq α] in
theorem active_concat {s s' : State n α} {c : Call n α} (h : s'.calls = s.calls ++ [c])
    (hc : c.hand = .looking) (p : Fin n) (i : ℕ) (d : Call n α) :
    s'.Active p i d ↔ s.Active p i d ∨ i = s.calls.length ∧ d = c ∧ c.prio = p := by
  simp only [State.Active, h, List.getElem?_append]
  split
  · next hlt =>
      have hne : i ≠ s.calls.length := by omega
      simp [hne]
  · next hge =>
      have hnone : s.calls[i]? = none := List.getElem?_eq_none (by omega)
      rw [List.getElem?_singleton, hnone]
      constructor
      · rintro ⟨hd, hp, hr⟩
        split at hd
        · cases hd
          exact .inr ⟨by omega, rfl, hp⟩
        · cases hd
      · rintro (⟨hd, -⟩ | ⟨rfl, rfl, hp⟩)
        · cases hd
        · exact ⟨by simp, hp, by simp [hc]⟩

omit [DecidableEq α] in
theorem active_set {s s' : State n α} {i : ℕ} {c c' : Call n α} (hi : s.calls[i]? = some c)
    (h : s'.calls = s.calls.set i c') (p : Fin n) (j : ℕ) (d : Call n α) :
    s'.Active p j d ↔
      if i = j then c' = d ∧ d.prio = p ∧ d.hand ≠ .returned else s.Active p j d := by
  simp only [State.Active, h, getElem?_setCall hi]
  split <;> simp

omit [DecidableEq α] in
theorem takenAt_concat (p : Fin n) (tr : List (Event n α)) (e : Event n α) :
    takenAt p (tr ++ [e]) = takenAt p tr ++ if e.prio = p then e.taken else [] := by
  simp [takenAt]

omit [DecidableEq α] in
theorem runsAt_concat (p : Fin n) (tr : List (Event n α)) (e : Event n α) :
    runsAt p (tr ++ [e]) = runsAt p tr ++ if e.prio = p then e.ran else [] := by
  simp [runsAt]

theorem lone_of_run {tr : List (Event n α)} {s : State n α} {p : Fin n} (h : Run step .init tr s)
    (hC : EachStep step (Apart p) .init tr) : Lone p tr s := by
  refine Run.induction_of_eachStep (P := Lone p) ⟨?_, ?_, ?_⟩ ?_ h hC
  · simp [State.Active, State.init]
  · simp [State.Active, State.init]
  · simp [takenAt, runsAt]
  intro tr s e s' hr ih hapart hs
  obtain ⟨hcall, hcalls, htaken, hran⟩ | ⟨c, rfl, hcalls, hhand⟩ |
    ⟨i, c, c', hcall, hi, hcalls, hm⟩ := call_move (step_move hs)
  · have hactive : ∀ i c, s'.Active p i c ↔ s.Active p i c := by simp [State.Active, hcalls]
    constructor
    · simpa only [hactive] using ih.only
    · simpa [hactive, takenAt_concat, runsAt_concat, htaken, hran] using ih.order
    · simpa [hactive, takenAt_concat, runsAt_concat, htaken, hran] using ih.rest
  · have hactive := active_concat hcalls hhand p
    by_cases hp : c.prio = p
    · -- the new call is alone, and what it took is all it has to do
      have hnone : ∀ i d, ¬ s.Active p i d := fun i d hd =>
        hd.2.2 (hapart hp d (List.mem_of_getElem? hd.1) hd.2.1)
      have hold := ih.rest hnone
      constructor
      · intro i j d d' hd hd'
        rcases (hactive i d).mp hd with hd | ⟨rfl, -⟩
        · exact absurd hd (hnone i d)
        · rcases (hactive j d').mp hd' with hd' | ⟨rfl, -⟩
          · exact absurd hd' (hnone j d')
          · rfl
      · intro i d hd
        rcases (hactive i d).mp hd with hd | ⟨-, rfl, -⟩
        · exact absurd hd (hnone i d)
        · simp [takenAt_concat, runsAt_concat, hold, Event.prio, Event.taken, Event.ran, hp]
      · intro h
        exact absurd ((hactive _ c).mpr (.inr ⟨rfl, rfl, hp⟩)) (h _ c)
    · have hsame : ∀ i d, s'.Active p i d ↔ s.Active p i d := by simp [hactive, hp]
      constructor
      · simpa only [hsame] using ih.only
      · simpa [hsame, takenAt_concat, runsAt_concat, Event.prio, hp] using ih.order
      · simpa [hsame, takenAt_concat, runsAt_concat, Event.prio, hp] using ih.rest
  · have hactive := active_set hi hcalls p
    by_cases hp : c.prio = p
    · have hme : s.Active p i c := ⟨hi, hp, hm.active⟩
      have hlone : ∀ j d, s'.Active p j d → i = j ∧ c' = d := by
        intro j d hd
        have hd' := (hactive j d).mp hd
        split at hd'
        · next hij => exact ⟨hij, hd'.1⟩
        · next hij => exact absurd (ih.only i j c d hme hd') hij
      have horder : takenAt p (tr ++ [e]) = runsAt p (tr ++ [e]) ++ c'.todo := by
        rw [takenAt_concat, runsAt_concat, ih.order i c hme, if_pos (hm.prio ▸ hp),
          if_pos (hm.prio ▸ hp), List.append_assoc, hm.todo, List.append_assoc]
      constructor
      · intro j k d d' hd hd'
        exact (hlone j d hd).1.symm.trans (hlone k d' hd').1
      · intro j d hd
        obtain ⟨-, rfl⟩ := hlone j d hd
        exact horder
      · intro h
        by_cases hret : c'.hand = .returned
        · rw [horder, (hm.returned hret).1, List.append_nil]
        · have := h i c'
          rw [hactive, if_pos rfl] at this
          exact absurd ⟨rfl, hm.prio'.trans hp, hret⟩ this
    · have hpe : e.prio ≠ p := fun he => hp (hm.prio.trans he)
      have hsame : ∀ j d, s'.Active p j d ↔ s.Active p j d := by
        intro j d
        rw [hactive]
        split
        · next hij =>
            subst hij
            constructor
            · rintro ⟨rfl, hd, -⟩
              exact absurd (hm.prio'.symm.trans hd) hp
            · rintro ⟨hd, hd', -⟩
              obtain rfl := Option.some.inj (hi.symm.trans hd)
              exact absurd hd' hp
        · rfl
      constructor
      · simpa only [hsame] using ih.only
      · simpa [hsame, takenAt_concat, runsAt_concat, hpe] using ih.order
      · simpa [hsame, takenAt_concat, runsAt_concat, hpe] using ih.rest

/-- Tasks of one priority run in the order they were accepted, none left out,
when the calls for that priority do not overlap. -/
theorem runsAt_prefix {tr : List (Event n α)} {s : State n α} {p : Fin n}
    (h : Run step .init tr s) (hC : EachStep step (Apart p) .init tr) :
    runsAt p tr <+: enqueuedAt p tr := by
  have hlone := lone_of_run h hC
  rw [takenAt_of_run h p]
  by_cases hnone : ∀ i c, ¬ s.Active p i c
  · rw [hlone.rest hnone]
    exact List.prefix_append _ _
  · simp only [not_forall, not_not] at hnone
    obtain ⟨i, c, hc⟩ := hnone
    rw [hlone.order i c hc, List.append_assoc]
    exact List.prefix_append _ _

/-! ### The scheduled interrupt -/

theorem scheduled_move {s s' : State n α} {e : Event n α} (h : Move s e s') :
    s'.mgr.scheduled = s.mgr.scheduled ++ if e.accepted = [] then [] else [e.prio] := by
  cases h with
  | accept t p hp => simp [enqueueTask_accepted hp, Event.accepted, Event.prio]
  | _ => simp [Event.accepted, State.setCall]

/-- From a state where the queue of `p` is empty: `S::schedule` has been called
for `p` by the time it is not. -/
theorem scheduled_since {s₁ s : State n α} {tr : List (Event n α)} {p : Fin n}
    (hempty : s₁.mgr.taskQueues p = []) (h : Run step s₁ tr s) :
    ∃ new, s.mgr.scheduled = s₁.mgr.scheduled ++ new ∧ (s.mgr.taskQueues p ≠ [] → p ∈ new) := by
  refine Run.induction (P := fun _ s => ∃ new, s.mgr.scheduled = s₁.mgr.scheduled ++ new ∧
    (s.mgr.taskQueues p ≠ [] → p ∈ new)) ⟨[], by simp, absurd hempty⟩ ?_ h
  rintro tr s e s' - ⟨new, hnew, hp⟩ hs
  have hm := step_move hs
  refine ⟨new ++ if e.accepted = [] then [] else [e.prio], ?_, fun hne => ?_⟩
  · rw [scheduled_move hm, hnew, List.append_assoc]
  · have hq := queue_move hm p
    by_cases hpe : e.prio = p ∧ e.accepted ≠ []
    · simp [hpe.1, hpe.2]
    · refine List.mem_append_left _ (hp fun hold => hne ?_)
      have hnone : (if e.prio = p then e.accepted else []) = [] := by
        by_cases he : e.prio = p
        · simpa [he] using hpe
        · simp [he]
      rw [hold, hnone, List.nil_append, eq_comm, List.append_eq_nil_iff] at hq
      exact hq.2

theorem empty_of_drains {s s' : State n α} {e : Event n α} {p : Fin n} (h : Move s e s')
    (hd : e.Drains p) : s'.mgr.taskQueues p = [] := by
  cases h with
  | detach p' =>
      obtain rfl : p' = p := hd
      simp
  | empty i p' q hi hq =>
      cases q with
      | shared =>
          obtain rfl : p' = p := hd
          exact hq
      | detached l => cases hd
  | _ => cases hd

end BaremetalSenders.Tasks
