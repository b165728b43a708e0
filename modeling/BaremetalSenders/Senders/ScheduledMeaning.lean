import BaremetalSenders.Foundation.Crew
import BaremetalSenders.Senders.ScheduledOperations

/-!
What `connect` and `start` do is what the expression means, in any number of contexts.

An operation in the middle of what it does is related to the rest of a resumption. That a
receiver goes on with `g` is said for the receivers of adaptors by the cells they point to, and
that is all that is known of the cells of an expression but for the last ones. A step of the
operation is then a step of the resumption, or only brings a call to where it goes; there is
always one.
-/

namespace BaremetalSenders.Scheduled

open Repeat (Channel)
open BaremetalSenders.Sequential (Completion Args)
open Crew (OutcomeRel Simulates)

variable {ℓ K V W : Type*}

/-! ### Receivers -/

/-- What `let_...` does when it is completed on a channel that it has a tag for. -/
def letting (fn : Channel → List V → K → W → Sender ℓ K V W)
    (effect : Channel → List V → K → W → W) (c : Completion V) : Behaviour ℓ K V W :=
  .act (fun k w => effect c.channel c.args k w) fun k w => denote (fn c.channel c.args k w)

/-- What `sequence` does when it is completed with a value. -/
def sequencing (func : K → W → Sender ℓ K V W) (effect : K → W → W) : Behaviour ℓ K V W :=
  .act (fun k w => effect k w) fun k w => denote (func k w)

/-- Go on with `f` and then `g` where `p` holds, else with `g`. -/
def handling (p : Completion V → Bool) (f g : Completion V → Behaviour ℓ K V W)
    (c : Completion V) : Behaviour ℓ K V W :=
  if p c then (f c).bind g else g c

section Handling

variable {p : Completion V → Bool} {f g : Completion V → Behaviour ℓ K V W} {c : Completion V}

theorem handling_pos (h : p c = true) : handling p f g c = (f c).bind g := if_pos h

theorem handling_neg (h : p c = false) : handling p f g c = g c := if_neg (by simp [h])

end Handling

/-- To complete the receiver is to go on with `g`, after less than `n` calls. -/
inductive Receives : List (Cell ℓ K V W) → Receiver K V W → ℕ →
    (Completion V → Behaviour ℓ K V W) → Prop
  | outer {heap} : Receives heap .outer 0 .done
  | then {heap tag complete fs r n g} (h : Receives heap r n g) :
      Receives heap (.then tag complete fs r) (n + 1)
        (handling (fun c => c.channel == tag) (fun c => calling complete fs c.args) g)
  | let {heap ops tags fn effect r results n g}
      (hcell : heap[ops]? = some (.let fn effect (some r) results))
      (h : Receives (heap.take ops) r n g) :
      Receives heap (.let ops tags) (n + 1)
        (handling (fun c => tags c.channel) (letting fn effect) g)
  | sequence {heap ops func effect r n g}
      (hcell : heap[ops]? = some (.sequence (some (func, effect)) (some r)))
      (h : Receives (heap.take ops) r n g) :
      Receives heap (.sequence ops) (n + 1)
        (handling (fun c => c.channel == .value) (fun _ => sequencing func effect) g)

section Receives

variable {heap above below : List (Cell ℓ K V W)} {r : Receiver K V W} {n : ℕ}
  {g : Completion V → Behaviour ℓ K V W} {cell cell' : Cell ℓ K V W} {args : Args V}

/-- What a receiver points to is not changed by cells that are put behind it. -/
theorem Receives.append (h : Receives heap r n g) : Receives (heap ++ above) r n g := by
  have hlt {ops : ℕ} {c : Cell ℓ K V W} (hcell : heap[ops]? = some c) : ops < heap.length :=
    (List.getElem?_eq_some_iff.mp hcell).1
  induction h with
  | outer => exact .outer
  | «then» _ ih => exact .then (ih hlt)
  | «let» hcell h _ =>
      refine .let (by rwa [List.getElem?_append_left (hlt hcell)]) ?_
      rwa [List.take_append_of_le_length (hlt hcell).le]
  | sequence hcell h _ =>
      refine .sequence (by rwa [List.getElem?_append_left (hlt hcell)]) ?_
      rwa [List.take_append_of_le_length (hlt hcell).le]

/-- Nor by what is made of a cell behind it. -/
theorem Receives.set {ops : ℕ} (h : Receives (heap.take ops) r n g) :
    Receives (heap.set ops cell) r n g := by
  rw [← List.take_append_drop ops (heap.set ops cell), List.take_set_of_le (Nat.le_refl ops)]
  exact h.append

theorem getElem?_below : (below ++ cell :: above)[below.length]? = some cell := by
  rw [List.getElem?_append_right (Nat.le_refl _), Nat.sub_self]
  rfl

theorem set_below : (below ++ cell :: above).set below.length cell' = below ++ cell' :: above := by
  rw [List.set_append_right _ _ (Nat.le_refl _), Nat.sub_self]
  rfl

/-- What arguments refer to is not in the cells of `let_...` and `sequence`. -/
theorem readArgs_set (cell' : Cell ℓ K V W) {ops : ℕ} (hcell : heap[ops]? = some cell)
    (hnone : cell.values = none) (hnone' : cell'.values = none) :
    readArgs (heap.set ops cell') args = readArgs heap args := by
  cases args with
  | results vs => rfl
  | values a =>
      simp only [readArgs, List.getElem?_set]
      split
      · next ha =>
          subst ha
          rw [hcell]
          split
          · exact hnone'.trans hnone.symm
          · next hlt => exact absurd (List.getElem?_eq_some_iff.mp hcell).1 hlt
      · rfl

end Receives

/-! ### Operations -/

def Sender.depth : Sender ℓ K V W → ℕ
  | .just _ | .schedule _ => 0
  | .then _ _ s _ | .let _ s _ _ | .sequence s _ _ => s.depth + 1

/-- What is left to be done by an operation, with less than `n` calls before the first thing
that is seen from outside. -/
inductive Means : ℕ → Config ℓ K V W → Behaviour ℓ K V W → Prop
  | start {below s r n g} (h : Receives below r n g) :
      Means (n + 2 * s.depth + 1) ⟨below ++ connect s r below.length, .start below.length⟩
        ((denote s).bind g)
  | enqueue {below p r n g} (h : Receives below r n g) :
      Means (n + 1) ⟨below ++ [.schedule (.executor (.priority p)) (some r)],
        .enqueue below.length⟩ (.hop (.priority p) ((Executor.priority p).completed.bind g))
  | run {below e r n g} (h : Receives below r n g) :
      Means (n + 1) ⟨below ++ [.schedule (.executor e) (some r)], .run below.length⟩
        (e.completed.bind g)
  | complete {heap args r n g} (c : Completion V) (hargs : readArgs heap args = some c.args)
      (h : Receives heap r n g) : Means n ⟨heap, .complete c.channel args r⟩ (g c)

/-- A step is answered by the resumption, or brings the operation nearer to what is. -/
def Answered (n : ℕ) (a : Behaviour ℓ K V W) (k : K) (b : Bool) (w : W) (e : Effect ℓ K V W) :
    Prop :=
  (∃ n' c', n' < n ∧ e.1 = .more c' ∧ e.2 = w ∧ Means n' c' a) ∨
    ∃ o', a.step k b w = some (o', e.2) ∧ OutcomeRel (fun c a => ∃ n, Means n c a) e.1 o'

theorem Answered.mono {n n' : ℕ} {a : Behaviour ℓ K V W} {k : K} {b : Bool} {w : W}
    {e : Effect ℓ K V W} (h : Answered n a k b w e) (hn : n ≤ n') : Answered n' a k b w e :=
  h.imp_left fun ⟨m, c', hm, hrest⟩ => ⟨m, c', hm.trans_le hn, hrest⟩

section Steps

variable {below heap : List (Cell ℓ K V W)} {r : Receiver K V W} {n : ℕ} {args : Args V}
  {g : Completion V → Behaviour ℓ K V W} (k : K) (b : Bool) (w : W)

theorem means_completeScheduled (sched sched' : Scheduler ℓ) (control : Control K V W)
    (c : Completion V) (h : Receives below r n g) :
    Means n (Config.completeScheduled ⟨below ++ [.schedule sched (some r)], control⟩ below.length
      sched' c r) (g c) :=
  .complete c rfl (by rw [set_below]; exact h.append)

/-- `run` of a task and the like. -/
theorem exists_run_step {e : Executor ℓ} (h : Receives below r n g) :
    ∃ out, Config.step ⟨below ++ [.schedule (.executor e) (some r)], .run below.length⟩ k b w =
      some out ∧ Answered (n + 1) (e.completed.bind g) k b w out := by
  have hstep : Config.step ⟨below ++ [.schedule (.executor e) (some r)], .run below.length⟩ k b w =
      some (.more (Config.completeScheduled ⟨below ++ [.schedule (.executor e) (some r)],
        .run below.length⟩ below.length (.executor e)
        (if e.checks && b then .stopped else .value []) r), w) := by
    simp only [Config.step, Config.run, getElem?_below]
  have hmeans := means_completeScheduled (.executor e) (.executor e) (.run below.length)
    (if e.checks && b then .stopped else .value []) h
  refine ⟨_, hstep, ?_⟩
  cases hchecks : e.checks with
  | false =>
      refine .inl ⟨n, _, Nat.lt_succ_self n, rfl, rfl, ?_⟩
      simpa [Executor.completed, hchecks] using hmeans
  | true =>
      refine .inr ⟨.more _, by simp only [Executor.completed, hchecks]; rfl, .more ⟨n, ?_⟩⟩
      cases b <;> simpa [hchecks] using hmeans

/-- The operation state behind a cell is started. -/
theorem means_inner {cell : Cell ℓ K V W} (s : Sender ℓ K V W)
    (h : Receives (below ++ [cell]) r n g) :
    Means (n + 2 * s.depth + 1)
      ⟨below ++ cell :: connect s r (below.length + 1), .start (below.length + 1)⟩
      ((denote s).bind g) := by
  have hmeans : Means (n + 2 * s.depth + 1) _ _ := .start h
  rwa [List.append_assoc, List.singleton_append, List.length_append, List.length_singleton]
    at hmeans

/-- A step that brings the call to where it goes. -/
theorem exists_step_of_means {c c' : Config ℓ K V W} {a : Behaviour ℓ K V W} {n' : ℕ}
    (hs : c.step k b w = some (.more c', w)) (hn : n' < n) (h : Means n' c' a) :
    ∃ out, c.step k b w = some out ∧ Answered n a k b w out :=
  ⟨_, hs, .inl ⟨n', c', hn, rfl, rfl, h⟩⟩

/-- A step that calls a function. -/
theorem exists_step_of_act {c c' : Config ℓ K V W} {a a' : Behaviour ℓ K V W} {n' : ℕ} {w' : W}
    (hs : c.step k b w = some (.more c', w')) (ha : a.step k b w = some (.more a', w'))
    (h : Means n' c' a') : ∃ out, c.step k b w = some out ∧ Answered n a k b w out :=
  ⟨_, hs, .inr ⟨_, ha, .more ⟨n', h⟩⟩⟩

theorem exists_start_step (s : Sender ℓ K V W) (h : Receives below r n g) :
    ∃ out, Config.step ⟨below ++ connect s r below.length, .start below.length⟩ k b w = some out ∧
      Answered (n + 2 * s.depth + 1) ((denote s).bind g) k b w out := by
  induction s generalizing r n g with
  | just c =>
      have hargs : readArgs (below ++ [(.just c none : Cell ℓ K V W)]) (.values below.length) =
          some c.args := by
        simp only [readArgs, getElem?_below, Option.bind_some, Cell.values]
      refine exists_step_of_means k b w ?_ (Nat.lt_succ_self n) (.complete c hargs h.append)
      simp only [connect, Config.step, Config.start, getElem?_below, set_below]
  | schedule sched =>
      cases sched with
      | inline =>
          refine exists_step_of_means k b w ?_ (Nat.lt_succ_self n)
            (means_completeScheduled .inline .inline (.start below.length) (.value []) h)
          simp only [connect, Config.step, Config.start, getElem?_below]
      | executor e =>
          cases e with
          | thread | runLoop l =>
              refine ⟨_, by simp only [connect, Config.step, Config.start, getElem?_below]; rfl, ?_⟩
              exact .inr ⟨_, rfl, .hop ⟨_, .run h⟩⟩
          | priority p =>
              cases b with
              | true =>
                  refine ⟨_, by
                    simp only [connect, Config.step, Config.start, getElem?_below, if_true]
                    rfl, ?_⟩
                  exact .inr ⟨_, rfl, .more ⟨n, means_completeScheduled _ _ _ .stopped h⟩⟩
              | false =>
                  refine ⟨_, by
                    simp only [connect, Config.step, Config.start, getElem?_below]; rfl, ?_⟩
                  exact .inr ⟨_, rfl, .more ⟨_, .enqueue h⟩⟩
  | «then» tag complete s fs ih =>
      -- nothing is called: `connect` only wraps the receiver
      have hthen : Receives below (.then tag complete fs r) (n + 1)
          (handling (fun c => c.channel == tag) (fun c => calling complete fs c.args) g) := h.then
      obtain ⟨out, hs, hout⟩ := ih hthen
      refine ⟨out, hs, ?_⟩
      rw [denote, Resumption.handle_bind]
      exact hout.mono (by simp only [Sender.depth]; omega)
  | «let» tags s fn effect =>
      have hreceives : Receives (below ++ [.let fn effect (some r) none]) (.let below.length tags)
          (n + 1) (handling (fun c => tags c.channel) (letting fn effect) g) := by
        refine .let getElem?_below ?_
        rwa [List.take_left']
        rfl
      rw [denote, Resumption.handle_bind]
      refine exists_step_of_means k b w ?_ ?_ (means_inner s hreceives)
      · simp only [connect, Config.step, Config.start, getElem?_below]
      · simp only [Sender.depth]
        omega
  | sequence s func effect =>
      have hreceives : Receives (below ++ [.sequence (some (func, effect)) (some r)])
          (.sequence below.length) (n + 1)
          (handling (fun c => c.channel == .value) (fun _ => sequencing func effect) g) := by
        refine .sequence getElem?_below ?_
        rwa [List.take_left']
        rfl
      rw [denote, Resumption.handle_bind]
      refine exists_step_of_means k b w ?_ ?_ (means_inner s hreceives)
      · simp only [connect, Config.step, Config.start, getElem?_below]
      · simp only [Sender.depth]
        omega

theorem exists_complete_step (c : Completion V) (hargs : readArgs heap args = some c.args)
    (h : Receives heap r n g) :
    ∃ out, Config.step ⟨heap, .complete c.channel args r⟩ k b w = some out ∧
      Answered n (g c) k b w out := by
  cases h with
  | outer =>
      refine ⟨(.done c, w), ?_, .inr ⟨_, rfl, .done⟩⟩
      simp only [Config.step, hargs, Option.bind_some, Config.complete, Signature.mk_args_channel]
  | @«then» _ tag complete fs r n g h =>
      cases htag : c.channel == tag with
      | true =>
          rw [handling_pos htag]
          have hresults (vs : List V) : readArgs heap (.results vs) = some vs := rfl
          refine exists_step_of_act k b w ?_ rfl
            (.complete (.mk (fs k c.args w).1 complete) (hresults _) h)
          simp only [Config.step, hargs, Option.bind_some, Config.complete,
            if_pos (beq_iff_eq.mp htag), Config.send]
      | false =>
          rw [handling_neg htag]
          refine exists_step_of_means k b w ?_ (Nat.lt_succ_self n) (.complete c hargs h)
          simp only [Config.step, hargs, Option.bind_some, Config.complete,
            if_neg (beq_eq_false_iff_ne.mp htag)]
  | @«let» _ ops tags fn effect r results n g hcell h =>
      cases htags : tags c.channel with
      | true =>
          -- what the function returns is where the first operation was, with the receiver that
          -- the `let_...` has
          rw [handling_pos htags]
          have hlen : (heap.take ops).length = ops :=
            List.length_take_of_le (List.getElem?_eq_some_iff.mp hcell).1.le
          have hcell' : Receives (heap.take ops ++ [.let fn effect (some r) (some c.args)]) r n g :=
            h.append
          have hinner := means_inner (fn c.channel c.args k w) hcell'
          rw [hlen] at hinner
          refine exists_step_of_act k b w ?_ rfl hinner
          simp only [Config.step, hargs, Option.bind_some, Config.complete, htags, if_true,
            Config.completeFirstLet, hcell]
      | false =>
          -- only the cell of the `let_...` changes, which the arguments do not refer to
          rw [handling_neg htags]
          refine exists_step_of_means k b w ?_ (Nat.lt_succ_self n)
            (.complete c ((readArgs_set (.let fn effect none results) hcell rfl rfl).trans hargs)
              h.set)
          simp only [Config.step, hargs, Option.bind_some, Config.complete, htags,
            Bool.false_eq_true, if_false, Config.passthrough, hcell]
  | @sequence _ ops func effect r n g hcell h =>
      cases htag : c.channel == .value with
      | true =>
          rw [handling_pos htag]
          have hlen : (heap.take ops).length = ops :=
            List.length_take_of_le (List.getElem?_eq_some_iff.mp hcell).1.le
          have hcell' : Receives (heap.take ops ++ [.sequence none none]) r n g := h.append
          have hinner := means_inner (func k w) hcell'
          rw [hlen] at hinner
          refine exists_step_of_act k b w ?_ rfl hinner
          simp only [Config.step, hargs, Option.bind_some, Config.complete,
            if_pos (beq_iff_eq.mp htag), Config.completeFirstSequence, hcell]
      | false =>
          rw [handling_neg htag]
          refine exists_step_of_means k b w ?_ (Nat.lt_succ_self n)
            (.complete c ((readArgs_set (.sequence (some (func, effect)) none) hcell rfl
              rfl).trans hargs) h.set)
          simp only [Config.step, hargs, Option.bind_some, Config.complete,
            if_neg (beq_eq_false_iff_ne.mp htag), Config.passthrough, hcell]

/-- There is always a step, and it is answered. -/
theorem Means.exists_step {c : Config ℓ K V W} {a : Behaviour ℓ K V W} (h : Means n c a) :
    ∃ out, c.step k b w = some out ∧ Answered n a k b w out := by
  cases h with
  | start h => exact exists_start_step k b w _ h
  | run h => exact exists_run_step k b w h
  | complete c hargs h => exact exists_complete_step k b w c hargs h
  | enqueue h =>
      refine ⟨_, by simp only [Config.step, Config.enqueue, getElem?_below]; rfl, ?_⟩
      exact .inr ⟨_, rfl, .hop ⟨_, .run h⟩⟩

end Steps

/-- An expression that has been connected is to do what it means. -/
theorem means_init (s : Sender ℓ K V W) : ∃ n, Means n (.init s) (denote s) := by
  have houter : Receives ([] : List (Cell ℓ K V W)) .outer 0 .done := .outer
  have hmeans : Means (0 + 2 * s.depth + 1) (.init s) ((denote s).bind .done) := .start houter
  rw [Resumption.bind_done] at hmeans
  exact ⟨_, hmeans⟩

/-- Operation states make the steps of what they mean. -/
theorem simulates_means :
    Simulates Config.step Resumption.step
      (Means : ℕ → Config ℓ K V W → Behaviour ℓ K V W → Prop) := by
  intro n c a k b w o w' h hs
  obtain ⟨out, hstep, hout⟩ := h.exists_step k b w
  obtain rfl := Option.some.inj (hs.symm.trans hstep)
  exact hout

end BaremetalSenders.Scheduled
