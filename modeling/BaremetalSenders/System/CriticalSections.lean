import BaremetalSenders.Foundation.Sections
import BaremetalSenders.Schedulers.TaskManager
import BaremetalSenders.Schedulers.TimerManager
import BaremetalSenders.Schedulers.TriggerManager
import BaremetalSenders.StopToken.StopSource

/-!
Who holds which critical section when code that the library does not know is called.

The public functions of the timer manager, the task manager, the trigger manager, the stop
source and the detached operations are written out as what they do in which order: the
sections they enter, the operations on their data, and where they call a task's `run`, a
stop callback, or the `start` and the destructor of an operation. What is called there is
work: it can call any of the functions again, complete a receiver, or return. The
completion of a detached operation is the library's `die`.

All sections but one only touch data. `stop_detached` calls `request_stop` in the section
of its name, so the callbacks of the operation it stops run in that section; and a
callback that completes the operation there and then comes to `die`, which enters it a
second time.
-/

namespace BaremetalSenders.System

open Sections
open Trigger (RequeuePolicy)

variable {n : ℕ} {α τ δ κ X N K : Type}

/-- The tags of the critical sections: a mutex for each manager, one for all stop sources,
one for each name of detached operations, and that of their storage. -/
inductive Tag (N : Type*) where
  | timer
  | tasks
  | triggers
  | stopSource
  | uniq (name : N)
  | storage
  deriving DecidableEq

/-- What the library calls and does not know; `completion` is a receiver's. -/
inductive Work (α κ X : Type*) where
  | timerTask (t : α)
  | priorityTask (t : α)
  | triggerTask (t : α)
  | callback (cb : κ)
  | start (ops : X)
  | destroyAt (ops : X)
  | completion
  deriving DecidableEq

/-- The data of the library. A stop source has its address in `X`; a detached operation has
the address of its source, and the `used` flags of its storage are kept by name and type. -/
structure Shared (n : ℕ) (α τ δ κ X N K : Type*) where
  timer : Timer.Manager α τ δ
  tasks : Tasks.Manager n α
  triggers : Trigger.Manager α
  sources : X → StopToken.Source κ
  pending : κ → Bool
  used : N → K → ℕ → Bool
  stopSourceFor : N → Option X

/-- What is done to the data between two instructions that the other contexts can see. -/
inductive Op (n : ℕ) (α τ δ κ X N K : Type*) where
  | runAfter (t : α) (d : δ) (reading : τ)
  | runAt (t : α) (ep : Timer.ExpirationProvider τ) (readings : List τ)
  | cancel (t : α)
  | popTimerTask
  | timerTaskDone
  | enqueueTask (t : α) (p : Fin n)
  | getTaskQueue (p : Fin n) (rqp : RequeuePolicy)
  | popPriorityTask (p : Fin n)
  | clearPending (p : Fin n) (t : α) (ts : List α)
  | priorityTaskDone
  | enqueueTrigger (t : α)
  | dequeueTrigger (t : α)
  | getTriggerQueue (rqp : RequeuePolicy)
  | triggerFront (q : Trigger.Queue α)
  | popTrigger (t : α) (q : Trigger.Queue α)
  | triggerDone
  | exchange (x : X)
  | getNextCb (x : X)
  | registerCallback (x : X) (cb : κ)
  | unregisterCallback (x : X) (cb : κ)
  | useStorage (name : N) (k : K) (limit : ℕ)
  | constructAt (x : X)
  | setStopSource (name : N) (p : Option X)
  | readStopSource (name : N)
  | releaseStorage (name : N) (k : K) (i : ℕ)

def Res : Op n α τ δ κ X N K → Type
  | .runAt _ _ _ => Option Bool
  | .runAfter .. | .cancel _ | .enqueueTask .. | .enqueueTrigger _ | .dequeueTrigger _
  | .exchange _ | .registerCallback .. => Bool
  | .popTimerTask | .popPriorityTask _ | .triggerFront _ => Option α
  | .getTaskQueue .. => Tasks.Queue α
  | .getTriggerQueue _ | .popTrigger .. => Trigger.Queue α
  | .getNextCb _ => Option κ
  | .useStorage .. => Option ℕ
  | .readStopSource _ => Option X
  | .timerTaskDone | .clearPending .. | .priorityTaskDone | .triggerDone
  | .unregisterCallback .. | .constructAt _ | .setStopSource .. | .releaseStorage .. => Unit

section Perform

variable [DecidableEq α] [LT τ] [DecidableLT τ] [HAdd τ δ τ] [DecidableEq κ] [DecidableEq X]
  [DecidableEq N] [DecidableEq K]

def Shared.setSource (s : Shared n α τ δ κ X N K) (x : X) (src : StopToken.Source κ) :
    Shared n α τ δ κ X N K :=
  { s with sources := Function.update s.sources x src }

def Shared.setPending (s : Shared n α τ δ κ X N K) (cb : κ) (b : Bool) :
    Shared n α τ δ κ X N K :=
  { s with pending := Function.update s.pending cb b }

/-- `used` of the storage of a name and a type. -/
def Shared.setUsed (s : Shared n α τ δ κ X N K) (name : N) (k : K) (i : ℕ) (b : Bool) :
    Shared n α τ δ κ X N K :=
  let flags := Function.update (s.used name) k (Function.update (s.used name k) i b)
  { s with used := Function.update s.used name flags }

/-- The operations. `lowest_unset` is the search in `useStorage`. -/
def perform (fused : Bool) : (o : Op n α τ δ κ X N K) → Shared n α τ δ κ X N K →
    Res o × Shared n α τ δ κ X N K
  | .runAfter t d reading, s =>
      ((s.timer.runAfter fused t d reading).1,
        { s with timer := (s.timer.runAfter fused t d reading).2 })
  | .runAt t ep readings, s =>
      match s.timer.runAt t ep readings with
      | some (added, timer) => (some added, { s with timer := timer })
      | none => (none, s)
  | .cancel t, s => ((s.timer.cancel t).1, { s with timer := (s.timer.cancel t).2 })
  | .popTimerTask, s => (s.timer.popTask.1, { s with timer := s.timer.popTask.2 })
  | .timerTaskDone, s =>
      ((), { s with timer := { s.timer with taskCount := s.timer.taskCount - 1 } })
  | .enqueueTask t p, s =>
      ((s.tasks.enqueueTask t p).1, { s with tasks := (s.tasks.enqueueTask t p).2 })
  | .getTaskQueue p rqp, s =>
      ((s.tasks.getQueue p rqp).1, { s with tasks := (s.tasks.getQueue p rqp).2 })
  | .popPriorityTask p, s =>
      match s.tasks.taskQueues p with
      | [] => (none, s)
      | t :: ts => (some t, { s with tasks := (s.tasks.popTask p t ts .shared).2 })
  | .clearPending p t ts, s =>
      ((), { s with tasks := (s.tasks.popTask p t ts (.detached (t :: ts))).2 })
  | .priorityTaskDone, s =>
      ((), { s with tasks := { s.tasks with taskCount := s.tasks.taskCount - 1 } })
  | .enqueueTrigger t, s =>
      ((s.triggers.enqueue t).1, { s with triggers := (s.triggers.enqueue t).2 })
  | .dequeueTrigger t, s =>
      ((s.triggers.dequeue t).1, { s with triggers := (s.triggers.dequeue t).2 })
  | .getTriggerQueue rqp, s =>
      ((rqp.getQueue s.triggers).1, { s with triggers := (rqp.getQueue s.triggers).2 })
  | .triggerFront q, s => ((s.triggers.ends q).head, s)
  | .popTrigger t q, s =>
      ((s.triggers.popTask t q).1, { s with triggers := (s.triggers.popTask t q).2 })
  | .triggerDone, s =>
      ((), { s with triggers := { s.triggers with taskCount := s.triggers.taskCount - 1 } })
  | .exchange x, s =>
      (!(s.sources x).requested, s.setSource x { s.sources x with requested := true })
  | .getNextCb x, s =>
      match (s.sources x).callbacks with
      | [] => (none, s)
      | cb :: cbs =>
          (some cb, (s.setSource x { s.sources x with callbacks := cbs }).setPending cb false)
  | .registerCallback x cb, s =>
      if (s.sources x).requested then (false, s)
      else (true, (s.setSource x { s.sources x with
        callbacks := (s.sources x).callbacks ++ [cb] }).setPending cb true)
  | .unregisterCallback x cb, s =>
      ((), (if s.pending cb then s.setSource x { s.sources x with
        callbacks := (s.sources x).callbacks.erase cb } else s).setPending cb false)
  | .useStorage name k limit, s =>
      match (List.range limit).find? fun i => !s.used name k i with
      | none => (none, s)
      | some i => (some i, s.setUsed name k i true)
  | .constructAt x, s => ((), s.setSource x .init)
  | .setStopSource name p, s =>
      ((), { s with stopSourceFor := Function.update s.stopSourceFor name p })
  | .readStopSource name, s => (s.stopSourceFor name, s)
  | .releaseStorage name k i, s => ((), s.setUsed name k i false)

end Perform

/-! ### The functions -/

/-- The functions of the library, and the loops of three of them. `startDetached` is given
where the operation's stop source is going to be, `die` also which storage it is in. -/
inductive Fn (n : ℕ) (α τ δ κ X N K : Type) where
  | runAfter (t : α) (d : δ) (reading : τ)
  | runAt (t : α) (ep : Timer.ExpirationProvider τ) (readings : List τ)
  | cancel (t : α)
  | serviceTask
  | enqueueTask (t : α) (p : Fin n)
  | serviceTasks (p : Fin n) (rqp : RequeuePolicy)
  | serviceLoop (p : Fin n) (q : Tasks.Queue α)
  | enqueue (t : α)
  | dequeue (t : α)
  | run (rqp : RequeuePolicy)
  | runLoop (q : Trigger.Queue α)
  | requestStop (x : X)
  | drain (x : X)
  | registerCallback (x : X) (cb : κ)
  | unregisterCallback (x : X) (cb : κ)
  | startDetached (name : N) (k : K) (x : X)
  | die (name : N) (k : K) (i : ℕ) (x : X)
  | stopDetached (name : N)

abbrev Body (n : ℕ) (α τ δ κ X N K : Type) :=
  Code (Res (n := n) (α := α) (τ := τ) (δ := δ) (κ := κ) (X := X) (N := N) (K := K)) (Tag N)
    (Fn n α τ δ κ X N K) (Work α κ X)

def inSection (t : Tag N) (o : Op n α τ δ κ X N K) (k : Res o → Body n α τ δ κ X N K) :
    Body n α τ δ κ X N K :=
  .enter t (.op o fun r => .leave t (k r))

def setStopSource (limit : N → ℕ) (name : N) (p : Option X) (k : Body n α τ δ κ X N K) :
    Body n α τ δ κ X N K :=
  if limit name = 1 then inSection (.uniq name) (.setStopSource name p) fun _ => k else k

/-- `static_allocator_t::construct` up to the construction: with room for one object the
flag is exchanged, and no section is needed. -/
def allocate (limit : N → ℕ) (name : N) (k : K) (next : Option ℕ → Body n α τ δ κ X N K) :
    Body n α τ δ κ X N K :=
  if limit name = 1 then .op (.useStorage name k 1) next
  else inSection .storage (.useStorage name k (limit name)) next

def deallocate (limit : N → ℕ) (name : N) (k : K) (i : ℕ) : Body n α τ δ κ X N K :=
  if limit name = 1 then .op (.releaseStorage name k i) fun _ => .ret
  else inSection .storage (.releaseStorage name k i) fun _ => .ret

/-- What each function does; `limit` is `static_allocation_limit`. -/
def body (limit : N → ℕ) : Fn n α τ δ κ X N K → Body n α τ δ κ X N K
  | .runAfter t d reading => inSection .timer (.runAfter t d reading) fun _ => .ret
  | .runAt t ep readings => inSection .timer (.runAt t ep readings) fun _ => .ret
  | .cancel t => inSection .timer (.cancel t) fun _ => .ret
  | .serviceTask => inSection .timer .popTimerTask fun
      | none => .ret
      | some t => .invoke (.timerTask t) (.op .timerTaskDone fun _ => .ret)
  | .enqueueTask t p => inSection .tasks (.enqueueTask t p) fun _ => .ret
  | .serviceTasks p .immediate => .jump (.serviceLoop p .shared)
  | .serviceTasks p .deferred =>
      inSection .tasks (.getTaskQueue p .deferred) fun q => .jump (.serviceLoop p q)
  | .serviceLoop p .shared => inSection .tasks (.popPriorityTask p) fun
      | none => .ret
      | some t => .invoke (.priorityTask t) (.op .priorityTaskDone fun _ =>
          .jump (.serviceLoop p .shared))
  | .serviceLoop _ (.detached []) => .ret
  | .serviceLoop p (.detached (t :: ts)) => inSection .tasks (.clearPending p t ts) fun _ =>
      .invoke (.priorityTask t) (.op .priorityTaskDone fun _ =>
        .jump (.serviceLoop p (.detached ts)))
  | .enqueue t => inSection .triggers (.enqueueTrigger t) fun _ => .ret
  | .dequeue t => inSection .triggers (.dequeueTrigger t) fun _ => .ret
  | .run .immediate => .jump (.runLoop .shared)
  | .run .deferred => inSection .triggers (.getTriggerQueue .deferred) fun q => .jump (.runLoop q)
  | .runLoop q => .op (.triggerFront q) fun
      | none => .ret
      | some t => inSection .triggers (.popTrigger t q) fun q' =>
          .invoke (.triggerTask t) (.op .triggerDone fun _ => .jump (.runLoop q'))
  | .requestStop x => .op (.exchange x) fun (first : Bool) =>
      if first then .jump (.drain x) else .ret
  | .drain x => inSection .stopSource (.getNextCb x) fun
      | none => .ret
      | some cb => .invoke (.callback cb) (.jump (.drain x))
  | .registerCallback x cb =>
      inSection .stopSource (.registerCallback x cb) fun (registered : Bool) =>
        if registered then .ret else .invoke (.callback cb) .ret
  | .unregisterCallback x cb => inSection .stopSource (.unregisterCallback x cb) fun _ => .ret
  | .startDetached name k x => allocate limit name k fun
      | none => .ret
      | some _ => .op (.constructAt x) fun _ =>
          setStopSource limit name (some x) (.invoke (.start x) .ret)
  | .die name k i x => setStopSource limit name none
      (.invoke (.destroyAt x) (deallocate limit name k i))
  | .stopDetached name => .enter (.uniq name) (.op (.readStopSource name) fun
      | none => .leave (.uniq name) .ret
      | some x => .call (.requestStop x) (.leave (.uniq name) .ret))

/-! ### The check -/

/-- `request_stop` is the one function that is called from inside a section. -/
def Admits (outer : List (Tag N)) (f : Fn n α τ δ κ X N K) : Prop :=
  outer = [] ∨ (∃ name, outer = [.uniq name]) ∧ ∃ x, f = .requestStop x ∨ f = .drain x

/-- There it finds no callback. -/
def Answers (outer : List (Tag N)) : (o : Op n α τ δ κ X N K) → Res o → Prop
  | .getNextCb _, cb => outer ≠ [] → cb = none
  | _, _ => True

section Check

variable {outer : List (Tag N)} {limit : N → ℕ}

theorem inSection_ok {t : Tag N} {o : Op n α τ δ κ X N K} {k : Res o → Body n α τ δ κ X N K}
    (ht : t ∉ outer) (hk : ∀ r, Answers outer o r → (k r).Ok Admits Answers outer []) :
    (inSection t o k).Ok Admits Answers outer [] :=
  ⟨by simpa using ht, fun r hr => ⟨[], rfl, hk r hr⟩⟩

theorem setStopSource_ok {name : N} {p : Option X} {k : Body n α τ δ κ X N K}
    (hk : k.Ok Admits Answers [] []) :
    (setStopSource limit name p k).Ok Admits Answers [] [] := by
  unfold setStopSource
  split
  · exact inSection_ok (by simp) fun _ _ => hk
  · exact hk

theorem allocate_ok {name : N} {k : K} {next : Option ℕ → Body n α τ δ κ X N K}
    (hk : ∀ i, (next i).Ok Admits Answers [] []) :
    (allocate limit name k next).Ok Admits Answers [] [] := by
  unfold allocate
  split
  · exact fun i _ => hk i
  · exact inSection_ok (by simp) fun i _ => hk i

theorem deallocate_ok {name : N} {k : K} {i : ℕ} :
    (deallocate limit name k i : Body n α τ δ κ X N K).Ok Admits Answers [] [] := by
  unfold deallocate
  split
  · exact fun _ _ => rfl
  · exact inSection_ok (by simp) fun _ _ => rfl

theorem admits_nil (f : Fn n α τ δ κ X N K) : Admits [] f := .inl rfl

/-- The functions, called from where no section is held. -/
theorem body_ok_nil (f : Fn n α τ δ κ X N K) : (body limit f).Ok Admits Answers [] [] := by
  have hloop : ∀ f : Fn n α τ δ κ X N K, Admits [] f := admits_nil
  cases f with
  | runAfter | runAt | cancel | enqueueTask | enqueue | dequeue | unregisterCallback =>
      exact inSection_ok (by simp) fun _ _ => rfl
  | serviceTask =>
      refine inSection_ok (by simp) fun t _ => ?_
      cases t with
      | none => rfl
      | some t => exact ⟨rfl, rfl, fun _ _ => rfl⟩
  | serviceTasks p rqp =>
      cases rqp with
      | immediate => exact ⟨rfl, hloop _⟩
      | deferred => exact inSection_ok (by simp) fun _ _ => ⟨rfl, hloop _⟩
  | serviceLoop p q =>
      cases q with
      | shared =>
          refine inSection_ok (by simp) fun t _ => ?_
          cases t with
          | none => rfl
          | some t => exact ⟨rfl, rfl, fun _ _ => ⟨rfl, hloop _⟩⟩
      | detached l =>
          cases l with
          | nil => rfl
          | cons t ts =>
              exact inSection_ok (by simp) fun _ _ => ⟨rfl, rfl, fun _ _ => ⟨rfl, hloop _⟩⟩
  | run rqp =>
      cases rqp with
      | immediate => exact ⟨rfl, hloop _⟩
      | deferred => exact inSection_ok (by simp) fun _ _ => ⟨rfl, hloop _⟩
  | runLoop q =>
      intro t _
      cases t with
      | none => rfl
      | some t =>
          exact inSection_ok (by simp) fun _ _ => ⟨rfl, rfl, fun _ _ => ⟨rfl, hloop _⟩⟩
  | requestStop x =>
      intro first _
      cases first with
      | true => exact ⟨rfl, hloop _⟩
      | false => rfl
  | drain x =>
      refine inSection_ok (by simp) fun cb _ => ?_
      cases cb with
      | none => rfl
      | some cb => exact ⟨rfl, rfl, rfl, hloop _⟩
  | registerCallback x cb =>
      refine inSection_ok (by simp) fun registered _ => ?_
      cases registered with
      | true => rfl
      | false => exact ⟨rfl, rfl, rfl⟩
  | startDetached name k x =>
      refine allocate_ok fun i => ?_
      cases i with
      | none => rfl
      | some i => exact fun _ _ => setStopSource_ok ⟨rfl, rfl, rfl⟩
  | die name k i x => exact setStopSource_ok ⟨rfl, rfl, deallocate_ok⟩
  | stopDetached name =>
      refine ⟨by simp, fun x _ => ?_⟩
      cases x with
      | none => exact ⟨[], rfl, rfl⟩
      | some x => exact ⟨.inr ⟨⟨name, rfl⟩, x, .inl rfl⟩, [], rfl, rfl⟩

theorem body_ok (f : Fn n α τ δ κ X N K) (hf : Admits outer f) :
    (body limit f).Ok Admits Answers outer [] := by
  rcases hf with rfl | ⟨⟨name, rfl⟩, x, rfl | rfl⟩
  · exact body_ok_nil f
  · -- `request_stop`, called by `stop_detached`
    intro first _
    cases first with
    | true => exact ⟨rfl, .inr ⟨⟨name, rfl⟩, x, .inr rfl⟩⟩
    | false => rfl
  · -- and its loop, in the section of the name: there is no callback to call
    refine inSection_ok (by simp) fun cb hcb => ?_
    obtain rfl := hcb (by simp)
    rfl

end Check

/-! ### Every run -/

section Runs

variable [DecidableEq α] [LT τ] [DecidableLT τ] [HAdd τ δ τ] [DecidableEq κ] [DecidableEq X]
  [DecidableEq N] [DecidableEq K] {Ctx : Type} [DecidableEq Ctx]

abbrev Sys (n : ℕ) (α τ δ κ X N K Ctx : Type) :=
  State (Shared n α τ δ κ X N K)
    (Res (n := n) (α := α) (τ := τ) (δ := δ) (κ := κ) (X := X) (N := N) (K := K))
    (Tag N) (Fn n α τ δ κ X N K) (Work α κ X) Ctx

def step (fused : Bool) (limit : N → ℕ) (s : Sys n α τ δ κ X N K Ctx) :
    Label (Fn n α τ δ κ X N K) (Work α κ X) Ctx → Option (Sys n α τ δ κ X N K Ctx) :=
  Sections.step (body limit) (perform fused) s

/-- The side condition of a step: where `request_stop` looks for the next callback and has
been called from inside a section, that is by `stop_detached`, there is none. -/
def noCallback (s : Sys n α τ δ κ X N K Ctx) :
    Label (Fn n α τ δ κ X N K) (Work α κ X) Ctx → Bool
  | .exec c =>
      match s.stackOf c with
      | .lib _ (.op (.getNextCb x) _) :: rest =>
          (held rest).isEmpty || (s.shared.sources x).callbacks.isEmpty
      | _ => true
  | _ => true

omit [DecidableEq Ctx] in
theorem answered_of_noCallback (fused : Bool) {s : Sys n α τ δ κ X N K Ctx}
    {l : Label (Fn n α τ δ κ X N K) (Work α κ X) Ctx} (h : noCallback s l = true) :
    Answered Answers (perform fused) s l := by
  cases l with
  | call | invoke | ret => trivial
  | exec c =>
      simp only [Answered]
      split
      next hs o k rest hc =>
        cases o with
        | getNextCb x =>
            intro hne
            have hempty : (s.shared.sources x).callbacks = [] := by
              simpa [noCallback, hc, hne] using h
            simp only [perform, hempty]
            rfl
        | _ => trivial
      next => trivial

/-- In every run in which `stop_detached` only meets operations without a registered stop
callback, no task, callback or receiver is called by a context that is in a critical
section, and no context waits for a section it is in. -/
theorem unlocked_of_noCallback (fused : Bool) (limit : N → ℕ) {shared : Shared n α τ δ κ X N K}
    {tr : List (Label (Fn n α τ δ κ X N K) (Work α κ X) Ctx)} {s : Sys n α τ δ κ X N K Ctx}
    (h : Run (step fused limit) (.init shared) tr s)
    (hC : EachStep (step fused limit) (fun s l => noCallback s l = true) (.init shared) tr) :
    Unlocked s :=
  unlocked_of_run (fun _ f hf => body_ok f hf) admits_nil h
    (hC.imp fun _ _ => answered_of_noCallback fused)

/-- The condition leaves out nothing but what is wrong: where it does not hold, the callback
is called in the section. -/
theorem locked_of_callback (fused : Bool) (limit : N → ℕ) {s : Sys n α τ δ κ X N K Ctx} {c : Ctx}
    {x : X} {cb : κ} {cbs : List κ}
    {rest : List (Activation (Res (n := n) (α := α) (τ := τ) (δ := δ) (κ := κ) (X := X) (N := N)
      (K := K)) (Tag N) (Fn n α τ δ κ X N K) (Work α κ X))}
    (hdrain : s.stackOf c = .lib [] (body limit (.drain x)) :: rest)
    (hfree : s.owner .stopSource = none) (hrest : held rest ≠ [])
    (hcb : (s.shared.sources x).callbacks = cb :: cbs) :
    ∃ s', Run (step fused limit) s [.exec c, .exec c, .exec c, .invoke c (.callback cb)] s' ∧
      ¬ Unlocked s' := by
  obtain ⟨s', hs', hstack⟩ : ∃ s', Run (step fused limit) s
      [.exec c, .exec c, .exec c, .invoke c (.callback cb)] s' ∧
      s'.stackOf c = .work (.callback cb) :: .lib [] (.jump (.drain x)) :: rest := by
    simp [step, Sections.step, hdrain, body, inSection, execute, hfree, State.setStack, perform,
      hcb]
  refine ⟨s', hs', fun hu => hrest ?_⟩
  simpa [hstack, Activation.held] using hu.work c _ _ hstack

def Shared.init : Shared n ℕ ℕ ℕ ℕ ℕ ℕ ℕ where
  timer := .init fun _ => 0
  tasks := .init
  triggers := .init
  sources := fun _ => .init
  pending := fun _ => false
  used := fun _ _ _ => false
  stopSourceFor := fun _ => none

/-- A detached operation that waits for a task, which an interrupt runs after the operation
has been asked to stop. -/
def taskTrace : List (Label (Fn 1 ℕ ℕ ℕ ℕ ℕ ℕ ℕ) (Work ℕ ℕ ℕ) ℕ) :=
  [.call 0 (.startDetached 7 0 0), .exec 0, .exec 0, .exec 0, .exec 0, .exec 0,
    .invoke 0 (.start 0), .call 0 (.enqueueTask 5 ⟨0, Nat.one_pos⟩), .exec 0, .exec 0, .exec 0,
    .exec 0, .ret 0, .exec 0, .call 0 (.stopDetached 7), .exec 0, .exec 0, .exec 0, .exec 0,
    .exec 0, .exec 0, .exec 0, .exec 0, .exec 0, .exec 0, .exec 0,
    .call 1 (.serviceTasks ⟨0, Nat.one_pos⟩ .immediate), .exec 1, .exec 1, .exec 1, .exec 1,
    .invoke 1 (.priorityTask 5), .invoke 1 .completion, .call 1 (.die 7 0 0 0)]

theorem unlocked_taskTrace :
    ∃ s, Run (step false fun _ => 1) (.init Shared.init) taskTrace s ∧ Unlocked s := by
  obtain ⟨s, hs⟩ : ∃ s, Run (step false fun _ => 1) (.init Shared.init) taskTrace s :=
    exists_run_iff.mpr rfl
  exact ⟨s, hs, unlocked_of_noCallback false (fun _ => 1) hs (by decide)⟩

/-- A detached operation registers a stop callback and is stopped, and the callback completes
it: `die` waits for the section that `stop_detached` is in. -/
def callbackTrace : List (Label (Fn 1 ℕ ℕ ℕ ℕ ℕ ℕ ℕ) (Work ℕ ℕ ℕ) ℕ) :=
  [.call 0 (.startDetached 7 0 0), .exec 0, .exec 0, .exec 0, .exec 0, .exec 0,
    .invoke 0 (.start 0), .call 0 (.registerCallback 0 3), .exec 0, .exec 0, .exec 0, .exec 0,
    .ret 0, .exec 0, .call 1 (.stopDetached 7), .exec 1, .exec 1, .exec 1, .exec 1, .exec 1,
    .exec 1, .exec 1, .exec 1, .invoke 1 (.callback 3), .invoke 1 .completion,
    .call 1 (.die 7 0 0 0)]

theorem not_unlocked_stopDetached :
    ¬ ∀ (tr : List (Label (Fn 1 ℕ ℕ ℕ ℕ ℕ ℕ ℕ) (Work ℕ ℕ ℕ) ℕ)) (s : Sys 1 ℕ ℕ ℕ ℕ ℕ ℕ ℕ ℕ),
      Run (step false fun _ => 1) (.init Shared.init) tr s → Unlocked s := by
  intro hall
  have hu := hall callbackTrace _ rfl
  exact hu.reentry 1 [] (.uniq 7) _ _ rfl (by decide)

end Runs

end BaremetalSenders.System
