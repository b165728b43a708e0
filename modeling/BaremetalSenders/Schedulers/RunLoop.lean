import BaremetalSenders.Foundation.Run

/-!
`run_loop`: a list of operations that are executed by the context that is in
`run`.

Any number of contexts push operations and call `finish`, from interrupts or
from other threads, and so can an operation while it is executed. One context
calls `run`, once. A list operation is one step, and so is what `wait` does when
its predicate holds; `wait` cannot return while the list is empty and `done` is
not set, for the condition variable as for the critical section. Between `wait`
and the pop anything can happen.

An operation state is pushed by its `start`, so it is not pushed while it is in
the list. What its receiver does when it is completed is not modelled, only that
it can push and finish, and that anything can happen before `execute` returns.
-/

namespace BaremetalSenders.RunLoop

variable {κ α : Type*}

inductive Context (κ : Type*) where
  | runner
  | other (c : κ)
  deriving DecidableEq

/-- What an operation completes its receiver with. -/
inductive Completion where
  | value
  | stopped
  deriving DecidableEq

/-- Where `run` is: not called; in front of `sync.wait` or in it; between it and
the pop; between the pop of an operation and its `execute`; in that `execute`;
or it has returned. -/
inductive Loop (α : Type*) where
  | idle
  | waiting
  | popping
  | popped (op : α)
  | executing (op : α)
  | returned
  deriving DecidableEq

/-- The operation that is in no list and still to be executed. -/
def Loop.inHand : Loop α → List α
  | .popped op => [op]
  | _ => []

/-- `run` is not under way, or is in an operation's `execute`. -/
def Loop.callsOut : Loop α → Bool
  | .idle | .executing _ | .returned => true
  | .waiting | .popping | .popped _ => false

/-- The loop, with what the stop tokens of the operations' receivers say. -/
structure State (α : Type*) where
  tasks : List α
  done : Bool
  stopRequested : α → Bool
  loop : Loop α

def State.init : State α := ⟨[], false, fun _ => false, .idle⟩

/-- The steps; `pop` has the operation that `pop_front` returns. -/
inductive Event (κ α : Type*) where
  | pushBack (c : Context κ) (op : α)
  | finish (c : Context κ)
  | requestStop (op : α)
  | run
  | wait
  | pop (front : Option α)
  | execute (op : α) (completion : Completion)
  | executed (op : α)
  deriving DecidableEq

def State.mayCall (s : State α) : Context κ → Bool
  | .runner => s.loop.callsOut
  | .other _ => true

def State.completion (s : State α) (op : α) : Completion :=
  if s.stopRequested op then .stopped else .value

section Step

variable [DecidableEq α]

def step (s : State α) : Event κ α → Option (State α)
  | .pushBack c op =>
      if s.mayCall c ∧ op ∉ s.tasks then some { s with tasks := s.tasks ++ [op] } else none
  | .finish c => if s.mayCall c then some { s with done := true } else none
  | .requestStop op =>
      some { s with stopRequested := fun op' => op' = op || s.stopRequested op' }
  | .run => if s.loop = .idle then some { s with loop := .waiting } else none
  | .wait =>
      if s.loop = .waiting ∧ (s.tasks ≠ [] ∨ s.done) then some { s with loop := .popping }
      else none
  | .pop front =>
      match s.loop, s.tasks, front with
      | .popping, [], none => some { s with loop := .returned }
      | .popping, op :: ops, some op' =>
          if op' = op then some { s with tasks := ops, loop := .popped op } else none
      | _, _, _ => none
  | .execute op completion =>
      if s.loop = .popped op ∧ completion = s.completion op then
        some { s with loop := .executing op }
      else none
  | .executed op => if s.loop = .executing op then some { s with loop := .waiting } else none

/-! ### What a step can do -/

inductive Move (s : State α) : Event κ α → State α → Prop
  | pushBack (c op) : op ∉ s.tasks →
      Move s (.pushBack c op) { s with tasks := s.tasks ++ [op] }
  | finish (c) : Move s (.finish c) { s with done := true }
  | requestStop (op) : Move s (.requestStop op)
      { s with stopRequested := fun op' => op' = op || s.stopRequested op' }
  | run : s.loop = .idle → Move s .run { s with loop := .waiting }
  | wait : s.loop = .waiting → (s.tasks ≠ [] ∨ s.done = true) →
      Move s .wait { s with loop := .popping }
  | popNone : s.loop = .popping → s.tasks = [] →
      Move s (.pop none) { s with loop := .returned }
  | popSome (op ops) : s.loop = .popping → s.tasks = op :: ops →
      Move s (.pop (some op)) { s with tasks := ops, loop := .popped op }
  | execute (op) : s.loop = .popped op →
      Move s (.execute op (s.completion op)) { s with loop := .executing op }
  | executed (op) : s.loop = .executing op → Move s (.executed op) { s with loop := .waiting }

theorem step_move {s s' : State α} {e : Event κ α} (h : step s e = some s') : Move s e s' := by
  cases e with
  | pushBack c op =>
      simp only [step] at h
      split at h <;> cases h
      next hc => exact .pushBack c op hc.2
  | finish c =>
      simp only [step] at h
      split at h <;> cases h
      exact .finish c
  | requestStop op =>
      obtain rfl := Option.some.inj h
      exact .requestStop op
  | run =>
      simp only [step] at h
      split at h <;> cases h
      next hidle => exact .run hidle
  | wait =>
      simp only [step] at h
      split at h <;> cases h
      next hc => exact .wait hc.1 hc.2
  | pop front =>
      simp only [step] at h
      split at h
      next hloop htasks =>
        obtain rfl := Option.some.inj h
        exact .popNone hloop htasks
      next op ops op' hloop htasks =>
        split at h <;> cases h
        next he =>
          obtain rfl := he
          exact .popSome op' ops hloop htasks
      next => cases h
  | execute op completion =>
      simp only [step] at h
      split at h <;> cases h
      next hc =>
        obtain ⟨hloop, rfl⟩ := hc
        exact .execute op hloop
  | executed op =>
      simp only [step] at h
      split at h <;> cases h
      next hloop => exact .executed op hloop

end Step

/-! ### The history of a run -/

def Event.pushed : Event κ α → Option α
  | .pushBack _ op => some op
  | _ => none

def Event.executes : Event κ α → Option α
  | .execute op _ => some op
  | _ => none

def Event.ofRun : Event κ α → Bool
  | .wait | .pop _ | .execute _ _ | .executed _ => true
  | _ => false

/-- The operations pushed in a run, in order. -/
def pushes (tr : List (Event κ α)) : List α := tr.filterMap Event.pushed

/-- The operations executed in a run, in order. -/
def executions (tr : List (Event κ α)) : List α := tr.filterMap Event.executes

theorem pushes_append (tr tr' : List (Event κ α)) :
    pushes (tr ++ tr') = pushes tr ++ pushes tr' := List.filterMap_append

theorem pushes_concat (tr : List (Event κ α)) (e : Event κ α) :
    pushes (tr ++ [e]) = pushes tr ++ e.pushed.toList := by
  rw [pushes_append]
  cases e <;> rfl

theorem executions_concat (tr : List (Event κ α)) (e : Event κ α) :
    executions (tr ++ [e]) = executions tr ++ e.executes.toList := by
  rw [executions, List.filterMap_append]
  cases e <;> rfl

def Finished (tr : List (Event κ α)) : Prop := ∃ c, .finish c ∈ tr

theorem Finished.append_left {tr : List (Event κ α)} (h : Finished tr) (tr' : List (Event κ α)) :
    Finished (tr ++ tr') := by
  obtain ⟨c, hc⟩ := h
  exact ⟨c, List.mem_append_left tr' hc⟩

section Runs

variable [DecidableEq α] {tr : List (Event κ α)} {s s' : State α}

/-- Every push is accounted for, in order: executed, in the hand of `run`, or in the list. -/
theorem pushes_of_run (h : Run step .init tr s) :
    pushes tr = executions tr ++ s.loop.inHand ++ s.tasks := by
  refine Run.induction
    (P := fun tr s => pushes tr = executions tr ++ s.loop.inHand ++ s.tasks) rfl ?_ h
  intro tr s l s' _ ih hs
  rw [pushes_concat, executions_concat, ih]
  cases step_move hs with
  | pushBack c op _ => simp [Event.pushed, Event.executes]
  | finish c => simp [Event.pushed, Event.executes]
  | requestStop op => simp [Event.pushed, Event.executes]
  | run hl => simp [Event.pushed, Event.executes, hl, Loop.inHand]
  | wait hl _ => simp [Event.pushed, Event.executes, hl, Loop.inHand]
  | popNone hl ht => simp [Event.pushed, Event.executes, hl, Loop.inHand]
  | popSome op ops hl ht => simp [Event.pushed, Event.executes, hl, ht, Loop.inHand]
  | execute op hl => simp [Event.pushed, Event.executes, hl, Loop.inHand]
  | executed op hl => simp [Event.pushed, Event.executes, hl, Loop.inHand]

theorem executions_isPrefix (h : Run step .init tr s) : executions tr <+: pushes tr := by
  rw [pushes_of_run h, List.append_assoc]
  exact List.prefix_append _ _

theorem count_executions_le (h : Run step .init tr s) (op : α) :
    (executions tr).count op ≤ (pushes tr).count op :=
  (executions_isPrefix h).sublist.count_le op

theorem done_of_run (h : Run step .init tr s) : s.done = true ↔ Finished tr := by
  refine Run.induction (P := fun tr s => s.done = true ↔ Finished tr) ?_ ?_ h
  · simp [State.init, Finished]
  · intro tr s l s' _ ih hs
    have hother : (∀ c, l ≠ .finish c) → s'.done = s.done →
        (s'.done = true ↔ Finished (tr ++ [l])) := by
      intro hl hdone
      rw [hdone, ih]
      refine ⟨fun hf => hf.append_left [l], ?_⟩
      rintro ⟨c, hc⟩
      rcases List.mem_append.mp hc with hc | hc
      · exact ⟨c, hc⟩
      · exact absurd (List.mem_singleton.mp hc).symm (hl c)
    cases step_move hs with
    | finish c => exact iff_of_true rfl ⟨c, by simp⟩
    | _ => exact hother (by intro c hc; cases hc) rfl

/-- Nobody but `run` takes anything out of the list, so what `wait` has seen is still true
when `run` pops. -/
theorem popping_of_run (h : Run step .init tr s) (hl : s.loop = .popping) :
    s.tasks ≠ [] ∨ s.done = true := by
  refine Run.induction (P := fun _ s => s.loop = .popping → s.tasks ≠ [] ∨ s.done = true)
    (by intro hl; cases hl) ?_ h hl
  intro tr s l s' _ ih hs hl
  cases step_move hs with
  | pushBack c op _ => exact .inl (by simp)
  | finish c => exact .inr rfl
  | requestStop op => exact ih hl
  | wait _ hready => exact hready
  | run | popNone | popSome | execute | executed => cases hl

end Runs

/-! ### The guarantees -/

section Guarantees

variable [DecidableEq α] {tr : List (Event κ α)} {s s' : State α}

/-- What holds after the run `tr` has led to `s`. -/
structure Delivers (tr : List (Event κ α)) (s : State α) : Prop where
  /-- The operations are executed in the order in which they are pushed, each push once. -/
  inOrder : executions tr <+: pushes tr
  /-- What is pushed and not executed is in the list, or has just been popped. -/
  accounted : pushes tr = executions tr ++ s.loop.inHand ++ s.tasks
  /-- An operation that is pushed once is executed at most once. -/
  atMostOnce : ∀ op, (pushes tr).count op = 1 → (executions tr).count op ≤ 1
  /-- An operation is popped from a list that has it. -/
  pop : ∀ op s', step s (.pop (some op) : Event κ α) = some s' → ∃ ops, s.tasks = op :: ops
  /-- `run` returns after `finish`, when the list is empty and everything is executed. -/
  returns : ∀ s', step s (.pop none : Event κ α) = some s' →
    Finished tr ∧ s.tasks = [] ∧ executions tr = pushes tr
  /-- It has returned in that way. -/
  returned : s.loop = .returned → ∃ tr₁ tr₂ s₁, tr = tr₁ ++ .pop none :: tr₂ ∧
    Run step .init tr₁ s₁ ∧ s₁.tasks = [] ∧ Finished tr₁ ∧ executions tr = pushes tr₁
  /-- When it has returned, all that was pushed before `finish` has been executed. -/
  finished : s.loop = .returned → ∀ tr₁ c tr₂, tr = tr₁ ++ .finish c :: tr₂ →
    ¬ Finished tr₁ → pushes tr₁ <+: executions tr ∧
      ∀ op ∈ pushes tr₁, (pushes tr).count op = 1 → (executions tr).count op = 1
  /-- `run` only ever waits for a push or for `finish`. -/
  progress : s.loop ≠ .idle → s.loop ≠ .returned →
    (s.loop = .waiting → s.tasks ≠ [] ∨ Finished tr) →
    ∃ e s', e.ofRun = true ∧ step s (e : Event κ α) = some s'

theorem returns_of_run (h : Run step .init tr s) (hs : step s (.pop none : Event κ α) = some s') :
    Finished tr ∧ s.tasks = [] ∧ executions tr = pushes tr := by
  cases step_move hs with
  | popNone hl ht =>
      have hdone := (popping_of_run h hl).resolve_left (fun hne => hne ht)
      have hacc := pushes_of_run h
      rw [hl, ht] at hacc
      exact ⟨(done_of_run h).mp hdone, ht, by simpa [Loop.inHand] using hacc.symm⟩

/-- Nothing is executed any more. -/
theorem returned_step {e : Event κ α} (hl : s.loop = .returned) (hs : step s e = some s') :
    s'.loop = .returned ∧ e.executes = none := by
  cases step_move hs with
  | pushBack | finish | requestStop => exact ⟨hl, rfl⟩
  | run h | wait h | popNone h | popSome _ _ h | execute _ h | executed _ h =>
      rw [hl] at h
      cases h

theorem returned_of_run (h : Run step .init tr s) (hl : s.loop = .returned) :
    ∃ tr₁ tr₂ s₁, tr = tr₁ ++ .pop none :: tr₂ ∧ Run step .init tr₁ s₁ ∧ s₁.tasks = [] ∧
      Finished tr₁ ∧ executions tr = pushes tr₁ := by
  refine Run.induction (P := fun tr s => s.loop = .returned → ∃ tr₁ tr₂ s₁,
    tr = tr₁ ++ .pop none :: tr₂ ∧ Run step .init tr₁ s₁ ∧ s₁.tasks = [] ∧ Finished tr₁ ∧
      executions tr = pushes tr₁) (by intro hl; cases hl) ?_ h hl
  intro tr s e s' hr ih hs hl'
  have hearlier : s.loop = .returned → ∃ tr₁ tr₂ s₁, tr ++ [e] = tr₁ ++ .pop none :: tr₂ ∧
      Run step .init tr₁ s₁ ∧ s₁.tasks = [] ∧ Finished tr₁ ∧
        executions (tr ++ [e]) = pushes tr₁ := by
    intro hl
    obtain ⟨tr₁, tr₂, s₁, htr, hrun, htasks, hfin, hexec⟩ := ih hl
    refine ⟨tr₁, tr₂ ++ [e], s₁, by simp [htr], hrun, htasks, hfin, ?_⟩
    rw [executions_concat, hexec, (returned_step hl hs).2, Option.toList_none, List.append_nil]
  cases step_move hs with
  | popNone hpopping ht =>
      obtain ⟨hfin, _, hexec⟩ := returns_of_run hr hs
      refine ⟨tr, [], s, rfl, hr, ht, hfin, ?_⟩
      rw [executions_concat, hexec]
      simp [Event.executes]
  | pushBack | finish | requestStop => exact hearlier hl'
  | run | wait | popSome | execute | executed => cases hl'

theorem finished_of_run (h : Run step .init tr s) (hl : s.loop = .returned)
    {tr₁ tr₂ : List (Event κ α)} {c : Context κ} (htr : tr = tr₁ ++ .finish c :: tr₂)
    (hfirst : ¬ Finished tr₁) : pushes tr₁ <+: executions tr := by
  obtain ⟨tr₃, tr₄, _, htr', _, _, hfin, hexec⟩ := returned_of_run h hl
  have hsplit := htr.symm.trans htr'
  rw [hexec]
  -- the pop that ends the loop is behind the first call of `finish`
  rcases List.append_eq_append_iff.mp hsplit with ⟨rest, rfl, _⟩ | ⟨rest, rfl, _⟩
  · rw [pushes_append]
    exact List.prefix_append _ _
  · exact absurd (hfin.append_left rest) hfirst

/-- `run` executes what is pushed, in order, and does not return before all of it that came
before `finish` has been executed. -/
theorem run_delivers (tr : List (Event κ α)) (s : State α) (h : Run step .init tr s) :
    Delivers tr s where
  inOrder := executions_isPrefix h
  accounted := pushes_of_run h
  atMostOnce := fun op hop => hop ▸ count_executions_le h op
  pop := by
    intro op s' hs
    cases step_move hs with
    | popSome _ ops _ ht => exact ⟨ops, ht⟩
  returns := fun s' hs => returns_of_run h hs
  returned := returned_of_run h
  finished := by
    intro hl tr₁ c tr₂ htr hfirst
    have hpre := finished_of_run h hl htr hfirst
    refine ⟨hpre, fun op hop hcount => ?_⟩
    have hpos := List.count_pos_iff.mpr (hpre.subset hop)
    have hle := count_executions_le h op
    omega
  progress := by
    intro hidle hreturned hwait
    cases hl : s.loop with
    | idle => exact absurd hl hidle
    | waiting =>
        have hready := (hwait hl).imp_right (done_of_run h).mpr
        exact ⟨.wait, _, rfl, if_pos ⟨hl, hready⟩⟩
    | popping =>
        cases ht : s.tasks with
        | nil => exact ⟨.pop none, _, rfl, by simp only [step, hl, ht]; rfl⟩
        | cons op ops =>
            exact ⟨.pop (some op), _, rfl, by simp only [step, hl, ht, if_true]; rfl⟩
    | popped op => exact ⟨.execute op (s.completion op), _, rfl, if_pos ⟨hl, rfl⟩⟩
    | executing op => exact ⟨.executed op, _, rfl, if_pos hl⟩
    | returned => exact absurd hl hreturned

end Guarantees

/-- An operation pushes another one while it is executed, and a third one is pushed when
`finish` has been called and `wait` has returned; all three are executed. -/
def lateTrace : List (Event ℕ ℕ) :=
  [.pushBack (.other 0) 0, .run, .wait, .pop (some 0), .execute 0 .value, .pushBack .runner 1,
    .executed 0, .wait, .pop (some 1), .execute 1 .value, .finish .runner, .executed 1, .wait,
    .pushBack (.other 1) 2, .requestStop 2, .pop (some 2), .execute 2 .stopped, .executed 2,
    .wait, .pop none, .pushBack (.other 0) 0]

theorem run_delivers_late : ∃ s, Run step .init lateTrace s ∧ Delivers lateTrace s ∧
    executions lateTrace = [0, 1, 2] := by
  obtain ⟨s, hs⟩ : ∃ s, Run step .init lateTrace s := exists_run_iff.mpr rfl
  exact ⟨s, hs, run_delivers lateTrace s hs, rfl⟩

end BaremetalSenders.RunLoop
