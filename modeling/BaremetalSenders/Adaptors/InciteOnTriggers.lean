import BaremetalSenders.Adaptors.InciteOnOperation
import BaremetalSenders.Schedulers.TriggerRefinement

/-!
The trigger managers under `incite_on` and `incite_on_any`, and what they leave of the system.

The activations of `run` on one manager are a part of the stack, and with the manager they
are a state of `Trigger`. As long as the steps meet the condition `Undisturbed` every
manager represents a queue, so a task that `run` finds at the front is pending. What is then
left of the system for the operation is a step of the operation, or nothing.
-/

namespace BaremetalSenders.InciteOn

open Trigger (Manager Queue RequeuePolicy Represents Call)

variable {ν β τ : Type*} [DecidableEq ν] [DecidableEq τ]

/-! ### The parts of the stack -/

def Pc.task {α : Type*} : Pc α → Option α
  | .call t | .inside t | .count t => some t
  | _ => none

/-- The frame is an activation of `run` of the manager of `k`. -/
def Frame.activation (k : ν) : Frame ν β τ → Option (Trigger.Frame (Queued ν τ))
  | .run j _ q pc => if j = k then some ⟨q, pc.task⟩ else none
  | _ => none

def activations (k : ν) (stack : List (Frame ν β τ)) : List (Trigger.Frame (Queued ν τ)) :=
  stack.filterMap (Frame.activation k)

section Activations

variable {k j : ν} {fs : List (Frame ν β τ)} {args : Option β} {q : Queue (Queued ν τ)}
  {pc : Pc (Queued ν τ)} {ks : List ν}

omit [DecidableEq τ]

@[simp] theorem activations_nil : activations k ([] : List (Frame ν β τ)) = [] := rfl

@[simp] theorem activations_append {fs' : List (Frame ν β τ)} :
    activations k (fs ++ fs') = activations k fs ++ activations k fs' :=
  List.filterMap_append

@[simp] theorem activations_run :
    activations k (.run k args q pc :: fs) = ⟨q, pc.task⟩ :: activations k fs := by
  simp [activations, Frame.activation]

@[simp] theorem activations_run_of_ne (h : j ≠ k) :
    activations j (.run k args q pc :: fs) = activations j fs := by
  simp [activations, Frame.activation, h.symm]

@[simp] theorem activations_op {st : Stmt ν β} :
    activations k (.op st :: fs) = activations k fs := rfl

@[simp] theorem activations_incite : activations k (.incite :: fs) = activations k fs := rfl

@[simp] theorem activations_invoke : activations k (.invoke :: fs) = activations k fs := rfl

@[simp] theorem activations_inside : activations k (.inside ks :: fs) = activations k fs := rfl

@[simp] theorem activations_ops (l : List (Stmt ν β)) :
    activations k (l.map (Frame.op (τ := τ))) = [] := by
  simp [activations, Frame.activation]

end Activations

/-- The manager of `k` and its activations. -/
def State.trigger (s : State ν β τ) (k : ν) : Trigger.State (Queued ν τ) :=
  ⟨s.mgr k, activations k s.stack⟩

/-- The statement of the operation that is executed when the frame is on top. -/
def Frame.stmt : Frame ν β τ → Option (Stmt ν β)
  | .op st => some st
  | .run _ args _ (.call (.inl t)) => some (.run t args)
  | _ => none

/-- What the operation has to do with. -/
def State.operation (op : Adaptor ν) (s : State ν β τ) : Operation ν β where
  core := s.core
  pending t := (s.mgr (op.home t)).pending (.inl t)
  todo := s.stack.filterMap Frame.stmt

/-- The task that is withdrawn by the statement. -/
def Stmt.dequeues : Stmt ν β → Option (Task ν)
  | .dequeue t => some t
  | _ => none

/-- The side condition of a step. No `dequeue` hits the end of a list that `run` has moved
to itself; when `run` goes on, the front it has seen is still the front; and the
operation on the internal trigger is not used any more when `sequence` has put another one
in its place. -/
def Undisturbed (op : Adaptor ν) (s : State ν β τ) : Event ν β τ → Prop
  | .exec =>
      match s.stack with
      | .op st :: _ =>
          (s.core.sequenced && st.onInternal) = false ∧
            ∀ t ∈ st.dequeues, ¬ (s.trigger (op.home t)).AtDetachedEnd (.inl t)
      | .run k _ q .front :: _ => ((s.mgr k).ends q).head ≠ none
      | .run k _ q (.pop t) :: _ => ((s.mgr k).ends q).head = some t
      | _ => True
  | .dequeue k x => ¬ (s.trigger k).AtDetachedEnd (.inr x)
  | _ => True

instance (op : Adaptor ν) : (s : State ν β τ) → (e : Event ν β τ) → Decidable (Undisturbed op s e)
  | ⟨c, m, .op st :: fs, d⟩, .exec =>
      inferInstanceAs (Decidable ((c.sequenced && st.onInternal) = false ∧ ∀ t ∈ st.dequeues,
        ¬ (State.trigger ⟨c, m, .op st :: fs, d⟩ (op.home t)).AtDetachedEnd (.inl t)))
  | ⟨_, m, .run k _ q .front :: _, _⟩, .exec =>
      inferInstanceAs (Decidable (((m k).ends q).head ≠ none))
  | ⟨_, m, .run k _ q (.pop t) :: _, _⟩, .exec =>
      inferInstanceAs (Decidable (((m k).ends q).head = some t))
  | ⟨_, _, [], _⟩, .exec | ⟨_, _, .run _ _ _ .test :: _, _⟩, .exec
  | ⟨_, _, .run _ _ _ (.call _) :: _, _⟩, .exec | ⟨_, _, .run _ _ _ (.inside _) :: _, _⟩, .exec
  | ⟨_, _, .run _ _ _ (.count _) :: _, _⟩, .exec | ⟨_, _, .incite :: _, _⟩, .exec
  | ⟨_, _, .invoke :: _, _⟩, .exec | ⟨_, _, .inside _ :: _, _⟩, .exec =>
      inferInstanceAs (Decidable True)
  | s, .dequeue k x => inferInstanceAs (Decidable (¬ (s.trigger k).AtDetachedEnd (.inr x)))
  | _, .fire .. | _, .enqueue .. | _, .requestStop | _, .send => inferInstanceAs (Decidable True)

/-! ### What a step does to the stack -/

/-- A step that meets the condition: the frames `old` are replaced by `new`, and the frames
`fs` are below. -/
inductive Turn (op : Adaptor ν) (c : Core ν β) (m : ν → Manager (Queued ν τ))
    (fs : List (Frame ν β τ)) : Event ν β τ →
    List (Frame ν β τ) → Core ν β → (ν → Manager (Queued ν τ)) → List (Frame ν β τ) → Prop where
  | exec {st} (hdequeue : ∀ t, st = .dequeue t →
        ¬ Trigger.State.AtDetachedEnd ⟨m (op.home t), activations (op.home t) fs⟩ (.inl t)) :
      Turn op c m fs .exec [.op st] (st.exec op (State.dequeued op ⟨c, m, fs, true⟩) c).1
        (State.enqueues op ⟨c, m, fs, true⟩ st)
        ((st.exec op (State.dequeued op ⟨c, m, fs, true⟩) c).2.map .op)
  | ret {k args q} (h : ((m k).ends q).head = none) :
      Turn op c m fs .exec [.run k args q .test] c m []
  | test {k args q} : Turn op c m fs .exec [.run k args q .test] c m [.run k args q .front]
  | front {k args q t} : Turn op c m fs .exec [.run k args q .front] c m [.run k args q (.pop t)]
  | pop {k args q t} (h : ((m k).ends q).head = some t) :
      Turn op c m fs .exec [.run k args q (.pop t)] c (Function.update m k ((m k).popTask t q).2)
        [.run k args ((m k).popTask t q).1 (.call t)]
  | run {k args q t} :
      Turn op c m fs .exec [.run k args q (.call (.inl t))] c m
        [.op (.run t args), .run k args q (.inside (.inl t))]
  | other {k args q x} :
      Turn op c m fs .exec [.run k args q (.call (.inr x))] c m [.run k args q (.inside (.inr x))]
  | inside {k args q t} :
      Turn op c m fs .exec [.run k args q (.inside t)] c m [.run k args q (.count t)]
  | count {k args q t} :
      Turn op c m fs .exec [.run k args q (.count t)] c
        (Function.update m k { m k with taskCount := (m k).taskCount - 1 }) [.run k args q .test]
  | inciteOn (h : op.uniq = none) : Turn op c m fs .exec [.incite] c m [.invoke]
  | incite {u} (h : op.uniq = some u) :
      Turn op c m fs .exec [.incite] c
        (Function.update m u (RequeuePolicy.deferred.getQueue (m u)).2)
        [.run u none (RequeuePolicy.deferred.getQueue (m u)).1 .test, .invoke]
  | invoke : Turn op c m fs .exec [.invoke] c m [.inside []]
  | leave {ks} : Turn op c m fs .exec [.inside ks] c m []
  | fireInside {ks k args} {rqp : RequeuePolicy} :
      Turn op c m fs (.fire k rqp args) [.inside ks] c (Function.update m k (rqp.getQueue (m k)).2)
        [.run k args (rqp.getQueue (m k)).1 .test, .inside (k :: ks)]
  | fire {k args} {rqp : RequeuePolicy} (h : ∀ ks fs', fs ≠ .inside ks :: fs') :
      Turn op c m fs (.fire k rqp args) [] c (Function.update m k (rqp.getQueue (m k)).2)
        [.run k args (rqp.getQueue (m k)).1 .test]
  | enqueue {k x} :
      Turn op c m fs (.enqueue k x) [] c (Function.update m k ((m k).enqueue (.inr x)).2) []
  | dequeue {k x} (h : ¬ Trigger.State.AtDetachedEnd ⟨m k, activations k fs⟩ (.inr x)) :
      Turn op c m fs (.dequeue k x) [] c (Function.update m k ((m k).dequeue (.inr x)).2) []
  | requestStop : Turn op c m fs .requestStop [] c m [.op (.requestStop .receiver)]
  | send (h : c.sent = false) :
      Turn op c m fs .send [] { c with sent := true } m (op.first.map .op ++ [.incite])

theorem step_turn {op : Adaptor ν} {s s' : State ν β τ} {e : Event ν β τ}
    (hC : Undisturbed op s e) (h : step op s e = some s') :
    ∃ fs old c m new, s.stack = old ++ fs ∧ s' = ⟨c, m, new ++ fs, true⟩ ∧
      Turn op s.core s.mgr fs e old c m new := by
  obtain ⟨c, m, stack, defined⟩ := s
  cases defined with
  | false => cases h
  | true =>
      cases e with
      | fire k rqp args =>
          cases h
          match stack with
          | .inside ks :: fs => exact ⟨fs, [_], _, _, [_, _], rfl, rfl, .fireInside⟩
          | [] | .op _ :: _ | .run .. :: _ | .incite :: _ | .invoke :: _ =>
              exact ⟨_, [], _, _, [_], rfl, rfl, .fire (by simp)⟩
      | enqueue k x =>
          cases h
          exact ⟨stack, [], _, _, [], rfl, rfl, .enqueue⟩
      | dequeue k x =>
          cases h
          exact ⟨stack, [], _, _, [], rfl, rfl, .dequeue hC⟩
      | requestStop =>
          cases h
          exact ⟨stack, [], _, _, [_], rfl, rfl, .requestStop⟩
      | send =>
          simp only [step, if_true] at h
          split at h <;> cases h
          next hsent => exact ⟨stack, [], _, _, _, rfl, by simp, .send (by simpa using hsent)⟩
      | exec =>
          change State.exec op ⟨c, m, stack, true⟩ = some s' at h
          cases stack with
          | nil => cases h
          | cons f fs =>
              refine ⟨fs, [f], ?_⟩
              cases f with
              | op st =>
                  obtain ⟨hinternal, hdequeue⟩ := hC
                  simp only [State.exec, hinternal] at h
                  cases h
                  refine ⟨_, _, _, rfl, rfl, .exec ?_⟩
                  rintro t rfl
                  exact hdequeue t rfl
              | run k args q pc =>
                  cases h
                  cases pc with
                  | test =>
                      by_cases hhead : ((m k).ends q).head = none
                      · exact ⟨_, _, [], rfl, by simp [State.execRun, hhead], .ret hhead⟩
                      · exact ⟨_, _, [_], rfl, by simp [State.execRun, hhead], .test⟩
                  | front =>
                      obtain ⟨t, ht⟩ := Option.ne_none_iff_exists'.mp hC
                      exact ⟨_, _, [_], rfl, by simp [State.execRun, ht], .front (t := t)⟩
                  | pop t =>
                      have hhead : ((m k).ends q).head = some t := hC
                      exact ⟨_, _, [_], rfl, by simp [State.execRun, hhead], .pop hhead⟩
                  | call t =>
                      cases t with
                      | inl t => exact ⟨_, _, _, rfl, rfl, .run⟩
                      | inr x => exact ⟨_, _, _, rfl, rfl, .other⟩
                  | inside t => exact ⟨_, _, _, rfl, rfl, .inside⟩
                  | count t => exact ⟨_, _, _, rfl, rfl, .count⟩
              | incite =>
                  simp only [State.exec] at h
                  split at h <;> cases h
                  next hu => exact ⟨_, _, [_], rfl, rfl, .inciteOn hu⟩
                  next u hu => exact ⟨_, _, [_, _], rfl, rfl, .incite hu⟩
              | invoke =>
                  cases h
                  exact ⟨_, _, [_], rfl, rfl, .invoke⟩
              | inside ks =>
                  cases h
                  exact ⟨_, _, [], rfl, rfl, .leave⟩

/-! ### The operation -/

section Pending

variable {α : Type*} [DecidableEq α] (m : Manager α) (t : α) (q : Queue α) (rqp : RequeuePolicy)

@[simp] theorem enqueue_pending : (m.enqueue t).2.pending = Function.update m.pending t true := by
  simp only [Manager.enqueue]
  split <;> rfl

@[simp] theorem dequeue_fst : (m.dequeue t).1 = m.pending t := by
  simp only [Manager.dequeue]
  split <;> simp_all

@[simp] theorem dequeue_pending : (m.dequeue t).2.pending = Function.update m.pending t false := by
  simp only [Manager.dequeue]
  split <;> rfl

@[simp] theorem popTask_pending :
    (m.popTask t q).2.pending = Function.update m.pending t false := by
  cases q <;> rfl

omit [DecidableEq α] in
@[simp] theorem getQueue_pending : (rqp.getQueue m).2.pending = m.pending := by
  cases rqp <;> rfl

omit [DecidableEq α] in
/-- The front of the list an activation drains is pending. -/
theorem pending_of_head {m : Manager α} {f : Trigger.Frame α} {fs : List (Trigger.Frame α)}
    {a : Trigger.Spec α} {t : α} (hr : Represents ⟨m, f :: fs⟩ a)
    (h : (m.ends f.q).head = some t) : m.pending t = true := by
  rw [hr.pending, Trigger.mem_outstanding]
  obtain ⟨w, cs⟩ := a
  cases hr.frames with
  | @cons _ c _ cs hf _ =>
      obtain ⟨q, u⟩ := f
      obtain ⟨snapshot, v⟩ := c
      cases q with
      | shared =>
          have hhead := hr.waiting.head.symm.trans h
          exact .inr (List.mem_of_mem_head? hhead)
      | detached l =>
          cases snapshot with
          | none => exact hf.2.elim
          | some xs =>
              have hhead := (IntrusiveList.Holds.head hf.2).symm.trans h
              exact .inl ⟨_, List.mem_cons_self, List.mem_of_mem_head? hhead⟩

end Pending

section Turn

variable {op : Adaptor ν} {c c' : Core ν β} {m m' : ν → Manager (Queued ν τ)}
  {fs old new : List (Frame ν β τ)} {e : Event ν β τ}

omit [DecidableEq τ] in
theorem pending_update {k : ν} {mk : Manager (Queued ν τ)}
    (h : ∀ t, mk.pending (.inl t) = (m k).pending (.inl t)) (j : ν) (t : Task ν) :
    (Function.update m k mk j).pending (.inl t) = (m j).pending (.inl t) := by
  rcases eq_or_ne j k with rfl | hne
  · simp [h]
  · simp [hne]

omit [DecidableEq ν] [DecidableEq τ] in
/-- The operation does not see the tasks of others. -/
theorem operation_congr (hp : ∀ j t, (m' j).pending (.inl t) = (m j).pending (.inl t))
    (htodo : new.filterMap Frame.stmt = old.filterMap Frame.stmt) :
    State.operation op ⟨c, m', new ++ fs, true⟩ = State.operation op ⟨c, m, old ++ fs, true⟩ := by
  simp only [State.operation, List.filterMap_append, htodo, hp]

omit [DecidableEq ν] [DecidableEq τ] in
theorem filterMap_stmt_op (l : List (Stmt ν β)) :
    (l.map (Frame.op (τ := τ))).filterMap Frame.stmt = l := by
  simp [List.filterMap_map, Function.comp_def, Frame.stmt]

omit [DecidableEq ν] [DecidableEq τ] in
theorem filterMap_stmt_send (l : List (Stmt ν β)) :
    (l.map Frame.op ++ [Frame.incite] ++ fs).filterMap Frame.stmt =
      l ++ fs.filterMap Frame.stmt := by
  have hincite : [Frame.incite (ν := ν) (β := β) (τ := τ)].filterMap Frame.stmt = [] := rfl
  rw [List.filterMap_append, List.filterMap_append, filterMap_stmt_op, hincite, List.append_nil]

/-- A change of the flag of one of the operation's tasks. -/
theorem pending_settled {u : Task ν} {b : Bool} {mk : Manager (Queued ν τ)} (t : Task ν)
    (h : mk.pending = Function.update (m (op.home u)).pending (.inl u) b) :
    (Function.update m (op.home u) mk (op.home t)).pending (.inl t) =
      Function.update (fun t => (m (op.home t)).pending (.inl t)) u b t := by
  rcases eq_or_ne t u with rfl | hne
  · simp [h]
  · rcases eq_or_ne (op.home t) (op.home u) with hhome | hhome
    · simp [h, hhome, hne]
    · simp [hhome, hne]

/-- What a statement does to the flags of the operation's tasks. -/
theorem pending_enqueues (st : Stmt ν β) (t : Task ν) :
    (State.enqueues op ⟨c, m, fs, true⟩ st (op.home t)).pending (.inl t) =
      st.flags (fun u => (m (op.home u)).pending (.inl u)) t := by
  cases st with
  | enqueue u => exact pending_settled t (enqueue_pending _ _)
  | dequeue u => exact pending_settled t (dequeue_pending _ _)
  | _ => rfl

/-- A step of the system is a step of the operation, or the operation does not see it. -/
theorem Turn.operation {a : ν → Trigger.Spec (Queued ν τ)}
    (hrep : ∀ k, Represents ⟨m k, activations k (old ++ fs)⟩ (a k))
    (hhome : ∀ k t, (m k).pending (.inl t) = true → op.home t = k)
    (h : Turn op c m fs e old c' m' new) :
    State.operation op ⟨c', m', new ++ fs, true⟩ = State.operation op ⟨c, m, old ++ fs, true⟩ ∨
      Move op (State.operation op ⟨c, m, old ++ fs, true⟩)
        (State.operation op ⟨c', m', new ++ fs, true⟩) := by
  cases h with
  | @exec st =>
      refine .inr (step_move (a := .exec) ?_)
      have hdequeued : State.dequeued op ⟨c, m, fs, true⟩ =
          fun t => (m (op.home t)).pending (.inl t) := funext fun t => dequeue_fst _ _
      simp only [Operation.step, State.operation, hdequeued, List.filterMap_append,
        filterMap_stmt_op, pending_enqueues]
      rfl
  | ret | test | front | run | other | inside | inciteOn | invoke | leave => exact .inl rfl
  | count => exact .inl (operation_congr (pending_update fun t => rfl) rfl)
  | incite | fireInside | fire =>
      exact .inl (operation_congr (pending_update fun t => by rw [getQueue_pending]) rfl)
  | enqueue | dequeue => exact .inl (operation_congr (pending_update fun t => by simp) rfl)
  | requestStop => exact .inr .requestStop
  | send hsent =>
      refine .inr ?_
      simp only [State.operation, filterMap_stmt_send]
      exact .send hsent
  | @pop k args q t hhead =>
      cases t with
      | inr x => exact .inl (operation_congr (pending_update fun t => by simp) rfl)
      | inl u =>
          have hp : (m k).pending (.inl u) = true := by
            have hr := hrep k
            simp only [activations, List.cons_append, List.nil_append, List.filterMap_cons,
              Frame.activation, if_true] at hr
            exact pending_of_head hr hhead
          obtain rfl := hhome k u hp
          have hflags : (fun t => (Function.update m (op.home u)
              ((m (op.home u)).popTask (.inl u) q).2 (op.home t)).pending (.inl t)) =
              Function.update (fun t => (m (op.home t)).pending (.inl t)) u false := by
            funext t
            exact pending_settled t (by simp)
          refine .inr ?_
          simp only [State.operation, hflags]
          exact .pop hp

omit [DecidableEq τ] in
theorem home_update {j : ν} {mj : Manager (Queued ν τ)}
    (hhome : ∀ k t, (m k).pending (.inl t) = true → op.home t = k)
    (hj : ∀ t, mj.pending (.inl t) = true → (m j).pending (.inl t) = true ∨ op.home t = j)
    (k : ν) (t : Task ν) (hp : (Function.update m j mj k).pending (.inl t) = true) :
    op.home t = k := by
  rcases eq_or_ne k j with rfl | hne
  · exact (hj t (by simpa using hp)).elim (hhome k t) id
  · exact hhome k t (by simpa [hne] using hp)

/-- The operation's tasks are queued on their own triggers. -/
theorem Turn.home (hhome : ∀ k t, (m k).pending (.inl t) = true → op.home t = k)
    (h : Turn op c m fs e old c' m' new) :
    ∀ k t, (m' k).pending (.inl t) = true → op.home t = k := by
  have hless {j : ν} {x : Queued ν τ} {b : Task ν}
      (hp : Function.update (m j).pending x false (.inl b) = true) :
      (m j).pending (.inl b) = true := by
    rcases eq_or_ne (.inl b) x with rfl | hne
    · simp at hp
    · simpa [hne] using hp
  cases h with
  | @exec st =>
      cases st with
      | enqueue u =>
          refine home_update hhome fun t hp => ?_
          rw [enqueue_pending] at hp
          rcases eq_or_ne t u with rfl | hne
          · exact .inr rfl
          · exact .inl (by simpa [hne] using hp)
      | dequeue u =>
          refine home_update hhome fun t hp => .inl (hless (x := .inl u) ?_)
          rwa [dequeue_pending] at hp
      | _ => exact hhome
  | @pop k args q x =>
      refine home_update hhome fun t hp => .inl (hless (x := x) ?_)
      rwa [popTask_pending] at hp
  | @dequeue k x =>
      refine home_update hhome fun t hp => .inl (hless (x := .inr x) ?_)
      rwa [dequeue_pending] at hp
  | count | incite | fire | fireInside | enqueue =>
      exact home_update hhome fun t hp => .inl (by simpa using hp)
  | _ => exact hhome

/-- What a step does to the queues: it adds no task to the lists of the activations below, and
of the operation's tasks only the one it enqueues to a waiting list. -/
structure Follows (a a' : ν → Trigger.Spec (Queued ν τ)) (old new : List (Frame ν β τ)) :
    Prop where
  held : ∀ k n, ∀ c' ∈ (a' k).calls.drop ((activations k new).length + n),
    ∃ c ∈ (a k).calls.drop ((activations k old).length + n), c'.held ⊆ c.held
  waiting : ∀ k t, .inl t ∈ (a' k).waiting → .inl t ∈ (a k).waiting ∨ old = [.op (.enqueue t)]

omit [DecidableEq τ] in
theorem Follows.refl {a : ν → Trigger.Spec (Queued ν τ)}
    (hacts : ∀ k, activations k new = activations k old) : Follows a a old new where
  held k n c hc := ⟨c, by rwa [← hacts k], List.Subset.refl _⟩
  waiting _ _ := .inl

omit [DecidableEq τ] in
/-- A step that changes the queue of one manager. -/
theorem queues_update {a : ν → Trigger.Spec (Queued ν τ)} {k : ν} {mk : Manager (Queued ν τ)}
    {b : Trigger.Spec (Queued ν τ)}
    (hrep : ∀ j, Represents ⟨m j, activations j (old ++ fs)⟩ (a j))
    (hacts : ∀ j, j ≠ k → activations j new = activations j old)
    (hb : Represents ⟨mk, activations k (new ++ fs)⟩ b)
    (hheld : ∀ n, ∀ c' ∈ b.calls.drop ((activations k new).length + n),
      ∃ c ∈ (a k).calls.drop ((activations k old).length + n), c'.held ⊆ c.held)
    (hwaiting : ∀ t, .inl t ∈ b.waiting → .inl t ∈ (a k).waiting ∨ old = [.op (.enqueue t)]) :
    ∃ a', (∀ j, Represents ⟨Function.update m k mk j, activations j (new ++ fs)⟩ (a' j)) ∧
      Follows a a' old new := by
  refine ⟨Function.update a k b, fun j => ?_, fun j => ?_, fun j => ?_⟩
  · rcases eq_or_ne j k with rfl | hne
    · simpa using hb
    · have hj := hrep j
      simp only [activations_append, hacts j hne] at hj ⊢
      simpa [hne] using hj
  · rcases eq_or_ne j k with rfl | hne
    · simpa using hheld
    · intro n c hc
      exact ⟨c, by simpa [hne, hacts j hne] using hc, List.Subset.refl _⟩
  · rcases eq_or_ne j k with rfl | hne
    · simpa using hwaiting
    · exact fun t ht => .inl (by simpa [hne] using ht)

omit [DecidableEq ν] [DecidableEq τ] in
theorem held_of_drop {a b : Trigger.Spec (Queued ν τ)} {n n' : ℕ}
    (h : b.calls.drop n' = a.calls.drop n) :
    ∀ c' ∈ b.calls.drop n', ∃ c ∈ a.calls.drop n, c'.held ⊆ c.held :=
  fun c hc => ⟨c, h ▸ hc, List.Subset.refl _⟩

theorem withdraw_held {a : Trigger.Spec (Queued ν τ)} {x : Queued ν τ} {n n' : ℕ} (h : n' = n) :
    ∀ c' ∈ (a.withdraw x).calls.drop n', ∃ c ∈ a.calls.drop n, c'.held ⊆ c.held := by
  subst h
  intro c' hc'
  rw [Trigger.Spec.withdraw, ← List.map_drop] at hc'
  obtain ⟨c, hc, rfl⟩ := List.mem_map.mp hc'
  refine ⟨c, hc, ?_⟩
  rw [Trigger.Spec.held_withdraw]
  exact List.filter_subset_self _

theorem drop_one_add {α : Type*} (l : List α) (n : ℕ) : l.drop (1 + n) = l.tail.drop n := by
  rw [List.drop_tail, Nat.add_comm]

theorem Turn.queues {a : ν → Trigger.Spec (Queued ν τ)}
    (hrep : ∀ k, Represents ⟨m k, activations k (old ++ fs)⟩ (a k))
    (h : Turn op c m fs e old c' m' new) :
    ∃ a', (∀ k, Represents ⟨m' k, activations k (new ++ fs)⟩ (a' k)) ∧ Follows a a' old new := by
  have hsilent (hacts : ∀ k, activations k new = activations k old) :
      ∃ a', (∀ k, Represents ⟨m k, activations k (new ++ fs)⟩ (a' k)) ∧ Follows a a' old new :=
    ⟨a, fun k => by rw [activations_append, hacts k, ← activations_append]; exact hrep k,
      .refl hacts⟩
  cases h with
  | @test k args q | @front k args q | @run k args q | @other k args q | @inside k args q =>
      refine hsilent fun j => ?_
      rcases eq_or_ne j k with rfl | hne
      · simp [Pc.task]
      · simp [hne]
  | inciteOn | invoke | leave | requestStop => exact hsilent fun k => rfl
  | send => exact hsilent fun k => by simp
  | @exec st hdequeue =>
      cases st with
      | enqueue u =>
          have hr : Represents ⟨m (op.home u), activations (op.home u) fs⟩ _ := hrep (op.home u)
          refine queues_update hrep (fun _ _ => rfl) (hr.enqueued (t := .inl u)) (fun n => ?_)
            fun t ht => ?_
          · exact held_of_drop (by rw [Trigger.Spec.calls_enqueued]; rfl)
          · rcases Trigger.Spec.mem_waiting_enqueued ht with hw | h
            · exact .inl hw
            · cases h
              exact .inr rfl
      | dequeue u =>
          have hr : Represents ⟨m (op.home u), activations (op.home u) fs⟩ _ := hrep (op.home u)
          have hwithdrawn := hr.withdrawn (hdequeue u rfl)
          refine queues_update hrep (fun j _ => by simp) (b := (a (op.home u)).withdraw (.inl u))
            ?_ (fun n => ?_) fun t ht => ?_
          · rwa [activations_append, activations_ops]
          · exact withdraw_held (by simp)
          · exact .inl (List.mem_of_mem_filter ht)
      | _ => exact hsilent fun k => by simp
  | @dequeue k x hdequeue =>
      have hr : Represents ⟨m k, activations k fs⟩ _ := hrep k
      refine queues_update hrep (fun _ _ => rfl) (hr.withdrawn hdequeue) (fun n => ?_)
        fun t ht => ?_
      · exact withdraw_held rfl
      · exact .inl (List.mem_of_mem_filter ht)
  | @enqueue k x =>
      have hr : Represents ⟨m k, activations k fs⟩ _ := hrep k
      refine queues_update hrep (fun _ _ => rfl) (hr.enqueued (t := .inr x)) (fun n => ?_)
        fun t ht => ?_
      · exact held_of_drop (by rw [Trigger.Spec.calls_enqueued])
      · rcases Trigger.Spec.mem_waiting_enqueued ht with hw | h
        · exact .inl hw
        · cases h
  | @ret k args q hhead =>
      have hr := hrep k
      simp only [List.cons_append, List.nil_append, activations_run, Pc.task] at hr
      have hret : Trigger.step ⟨m k, ⟨q, none⟩ :: activations k fs⟩ .ret =
          some ⟨m k, activations k fs⟩ := by
        simp [Trigger.step, hhead]
      obtain ⟨b, hb, hrb⟩ := hr.ret hret
      obtain ⟨hwaiting, htail⟩ := Trigger.Spec.of_ret hb
      obtain ⟨a', hrep', hf⟩ : ∃ a',
          (∀ j, Represents ⟨Function.update m k (m k) j, activations j ([] ++ fs)⟩ (a' j)) ∧
            Follows a a' [.run k args q .test] [] := by
        refine queues_update hrep (fun j hj => by simp [hj]) hrb (fun n => held_of_drop ?_)
          fun t ht => .inl (hwaiting ▸ ht)
        simp [htail, Nat.add_comm]
      exact ⟨a', by simpa using hrep', hf⟩
  | @pop k args q t hhead =>
      have hr := hrep k
      simp only [List.cons_append, List.nil_append, activations_run, Pc.task] at hr
      obtain ⟨b, hb, hrb⟩ := hr.start (t := t) (by simp [Trigger.step, hhead]; rfl)
      obtain ⟨hwaiting, htail⟩ := Trigger.Spec.of_start hb
      refine queues_update hrep (fun j hj => by simp [hj]) (by simpa [Pc.task] using hrb)
        (fun n => held_of_drop ?_) fun t ht => .inl (hwaiting ht)
      simp [drop_one_add, htail]
  | @count k args q t =>
      have hr := hrep k
      simp only [List.cons_append, List.nil_append, activations_run, Pc.task] at hr
      obtain ⟨b, hb, hrb⟩ := hr.finish (t := t) (by simp [Trigger.step]; rfl)
      obtain ⟨hwaiting, htail⟩ := Trigger.Spec.of_finish hb
      refine queues_update hrep (fun j hj => by simp [hj]) (by simpa [Pc.task] using hrb)
        (fun n => held_of_drop ?_) fun t ht => .inl (hwaiting ▸ ht)
      simp [drop_one_add, htail]
  | @incite u | @fireInside ks u args rqp | @fire u args rqp =>
      refine queues_update hrep (fun j hj => by simp [hj])
        (by simpa [Pc.task] using (hrep u).called _) (fun n => held_of_drop ?_)
        fun t ht => .inl (Trigger.Spec.waiting_called _ ht)
      simp [drop_one_add, Trigger.Spec.tail_called]

end Turn

end BaremetalSenders.InciteOn
