import BaremetalSenders.Adaptors.InciteOnFunction
import BaremetalSenders.Foundation.Run

/-!
`incite_on` and `incite_on_any` do not miss the trigger that is fired by the function.

Whenever the function is what is executed next, at its beginning or back from what it has
called, either every trigger is still waited for, or the receiver has been completed with
what the first trigger brought, or with set_stopped where its stop was requested, and no
list of any manager has a task of the operation. After it has fired one of the triggers it
is the second.

This is so in every run the steps of which are `Undisturbed`. Without the condition it is not:
a task that has been withdrawn from the list that `run` is draining is run all the same,
and the receiver is completed twice.
-/

namespace BaremetalSenders.InciteOn

open Trigger (Manager Queue RequeuePolicy Represents Call)
open IntrusiveList

variable {ν β τ : Type*} [DecidableEq ν] [DecidableEq τ]

structure State.Waits (op : Adaptor ν) (s : State ν β τ) : Prop where
  requested : s.core.requested .receiver = false
  fired : s.core.fired = []
  received : s.core.received = []
  queued : ∀ k ∈ op.scheds,
    ∃ xs, Holds (s.mgr k).links (s.mgr k).tasks xs ∧ .inl (.scheduled k) ∈ xs

/-- No list has a task of the operation, neither that of a manager nor one that an activation
of `run` has to itself. -/
structure State.Clean (s : State ν β τ) : Prop where
  tasks : ∀ k, ∃ xs, Holds (s.mgr k).links (s.mgr k).tasks xs ∧ ∀ t, .inl t ∉ xs
  detached : ∀ k args l pc, .run k args (.detached l) pc ∈ s.stack →
    ∃ xs, Holds (s.mgr k).links l xs ∧ ∀ t, .inl t ∉ xs

structure State.Completed (s : State ν β τ) : Prop where
  answer : ∃ c, s.core.received = [c] ∧ s.core.Answer c
  clean : s.Clean

/-- The operation, after the events `tr` have led to the state `s`. -/
structure Incited (op : Adaptor ν) (tr : List (Event ν β τ)) (s : State ν β τ) : Prop where
  defined : s.defined = true
  once : s.core.received.length ≤ 1
  completed : s.core.received ≠ [] → s.Completed
  /-- The operations on the triggers have been started when the function begins. -/
  begins : ∀ below, s.stack = .invoke :: below → s.Waits op ∨ s.Completed
  inside : ∀ ks below, s.stack = .inside ks :: below → s.Waits op ∨ s.Completed
  /-- The receiver has been completed when the function is back from firing a trigger. -/
  fired : ∀ ks below, s.stack = .inside ks :: below → (∃ k ∈ ks, k ∈ op.scheds) → s.Completed
  /-- It is the same when all is over, and when an interrupt or a stop request is over after it. -/
  idle : s.core.sent = true → s.stack = [] → s.Waits op ∨ s.Completed
  /-- What a trigger brings is what it was run with. -/
  brought : ∀ p ∈ s.core.fired, p.1 ∈ op.scheds ∧
    (op.uniq ≠ some p.1 → ∃ rqp, .fire p.1 rqp p.2 ∈ tr)
  /-- Where stop was requested before the function was sent, nothing is waited for or fired. -/
  refused : ∀ tr₁ tr₂ s₁, tr = tr₁ ++ .send :: tr₂ → Run (step op) .init tr₁ s₁ →
    s₁.core.requested .receiver = true →
      ¬ s.Waits op ∧ s.core.fired = [] ∧ ∀ c ∈ s.core.received, c = .stopped

/-! ### At the function -/

omit [DecidableEq ν] in
@[simp] theorem home_scheduled (op : Adaptor ν) (k : ν) : op.home (.scheduled k) = k := by
  cases op <;> rfl

section Function

variable {op : Adaptor ν} {s : State ν β τ} {a : ν → Trigger.Spec (Queued ν τ)}
  {f : Frame ν β τ} {below : List (Frame ν β τ)}

omit [DecidableEq τ]

/-- No task of the operation is pending, so no list has one. -/
theorem Inciting.clean (hi : Inciting op s a)
    (hp : ∀ t, (s.mgr (op.home t)).pending (.inl t) = false) : s.Clean := by
  have hnone (k : ν) (t : Task ν) : .inl t ∉ (a k).outstanding := by
    intro hout
    have hpend := ((hi.represents k).pending _).mpr hout
    obtain rfl := hi.home k t hpend
    cases hpend.symm.trans (hp t)
  refine ⟨fun k => ?_, fun k args l pc hmem => ?_⟩
  · exact ⟨_, (hi.represents k).waiting, fun t ht =>
      hnone k t (Trigger.mem_outstanding.mpr (.inr ht))⟩
  · have hact : ⟨.detached l, pc.task⟩ ∈ activations k s.stack :=
      List.mem_filterMap.mpr ⟨_, hmem, by simp [Frame.activation]⟩
    obtain ⟨xs, hxs, hout⟩ := (hi.represents k).detached hact
    exact ⟨xs, hxs, fun t ht => hnone k t (hout _ ht)⟩

theorem Inciting.completed (hi : Inciting op s a) (hreceived : s.core.received ≠ []) :
    s.Completed := by
  obtain ⟨hanswer, hp⟩ := answered_of_received hi.operating.counted hi.operating.answered hreceived
  exact ⟨hanswer, hi.clean hp⟩

/-- The function is on top: its frame is the one the stack is split at. -/
theorem Inciting.during (hi : Inciting op s a) (hs : s.stack = f :: below) (hf : f.isFn = true) :
    During op s a [] f below := by
  cases hi.phase with
  | before _ hfn | after _ hfn => cases hf.symm.trans (hfn f (by simp [hs]))
  | during hd =>
      obtain ⟨rfl, rfl, rfl⟩ := cons_eq_append_fn (hs.symm.trans hd.stack) hf hd.noneAbove
      exact hd

/-- Where no activation has a task of the operation to itself, a pending one is in the member
list of its trigger. -/
theorem Inciting.mem_waiting (hi : Inciting op s a)
    (hheld : ∀ k, ∀ call ∈ (a k).calls, ∀ t, .inl t ∉ call.held) {t : Task ν}
    (hp : (s.mgr (op.home t)).pending (.inl t) = true) : .inl t ∈ (a (op.home t)).waiting := by
  have hout := ((hi.represents (op.home t)).pending (.inl t)).mp hp
  rcases Trigger.mem_outstanding.mp hout with ⟨call, hcall, hmem⟩ | hw
  · exact absurd hmem (hheld _ call hcall t)
  · exact hw

/-- Nothing is left to do of the operation. -/
theorem Inciting.waits_or_completed (hi : Inciting op s a) (hr : (s.operation op).Resting)
    (hsent : s.core.sent = true) (hheld : ∀ k, ∀ call ∈ (a k).calls, ∀ t, .inl t ∉ call.held)
    (hp : (s.mgr (op.home .internal)).pending (.inl .internal) = false) :
    (s.Waits op ∧ ∀ k ∈ op.scheds, .inl (.scheduled k) ∈ (a k).waiting) ∨ s.Completed := by
  rcases waiting_or_answered hr hsent hp hi.operating.counted hi.operating.withdrawable
    hi.operating.stopping hi.operating.answered with ⟨hreq, hfired, hreceived, hall⟩ | ⟨hanswer, hp⟩
  · have hwaiting (k : ν) (hk : k ∈ op.scheds) : .inl (.scheduled k) ∈ (a k).waiting := by
      have hw := hi.mem_waiting hheld (hall k hk)
      rwa [home_scheduled] at hw
    have hwaits : s.Waits op :=
      ⟨hreq, hfired, hreceived, fun k hk => ⟨_, (hi.represents k).waiting, hwaiting k hk⟩⟩
    exact .inl ⟨hwaits, hwaiting⟩
  · exact .inr ⟨hanswer, hi.clean hp⟩

/-- The function is what is executed next. -/
theorem During.resting (hd : During op s a [] f below) : (s.operation op).Resting := by
  have htodo : (s.operation op).todo = below.filterMap Frame.stmt := by
    have hf := hd.isFn
    simp only [State.operation, hd.stack, List.nil_append]
    cases f with
    | op | run => cases hf
    | incite | invoke | inside => rfl
  exact ⟨fun st hst => hd.todo st (htodo ▸ hst), fun hmem => (hd.nextCb (htodo ▸ hmem)).2⟩

theorem Inciting.begins (hi : Inciting op s a) (hs : s.stack = .invoke :: below) :
    s.Waits op ∨ s.Completed := by
  have hd := hi.during hs rfl
  obtain ⟨-, hinternal⟩ := hd.progress
  refine (hi.waits_or_completed hd.resting hd.sent hd.held ?_).imp_left And.left
  by_contra hp
  exact hinternal _ (hi.mem_waiting hd.held (by simpa using hp))

theorem Inciting.inside {ks : List ν} (hi : Inciting op s a) (hs : s.stack = .inside ks :: below) :
    s.Waits op ∨ s.Completed := by
  have hd := hi.during hs rfl
  obtain ⟨hstarted, -⟩ := hd.progress
  exact (hi.waits_or_completed hd.resting hd.sent hd.held hstarted.pending).imp_left And.left

/-- A trigger the function has fired is not waited for. -/
theorem Inciting.fired {ks : List ν} (hi : Inciting op s a) (hs : s.stack = .inside ks :: below)
    (hk : ∃ k ∈ ks, k ∈ op.scheds) : s.Completed := by
  have hd := hi.during hs rfl
  obtain ⟨hstarted, hnot⟩ := hd.progress
  refine (hi.waits_or_completed hd.resting hd.sent hd.held hstarted.pending).resolve_left ?_
  rintro ⟨-, hwaiting⟩
  obtain ⟨k, hk, hsched⟩ := hk
  obtain ⟨args, pc, hrun⟩ := hnot k hk (hwaiting k hsched)
  cases hrun

theorem Inciting.idle (hi : Inciting op s a) (hsent : s.core.sent = true) (hs : s.stack = []) :
    s.Waits op ∨ s.Completed := by
  cases hi.phase with
  | before hnot => cases hnot.symm.trans hsent
  | during hd => simp [hd.stack] at hs
  | after hstarted =>
      have hcalls (k : ν) : (a k).calls = [] := by
        have hframes := (hi.represents k).frames
        simpa [State.trigger, hs] using hframes
      have htodo : (s.operation op).todo = [] := by simp [State.operation, hs]
      refine (hi.waits_or_completed ?_ hsent (by simp [hcalls]) hstarted.pending).imp_left And.left
      exact ⟨by simp [htodo], by simp [htodo]⟩

end Function

/-! ### What is brought -/

/-- A trigger that was run by somebody, or is the internal one. -/
def Fired (op : Adaptor ν) (tr : List (Event ν β τ)) (k : ν) (args : Option β) : Prop :=
  op.uniq ≠ some k → ∃ rqp, .fire k rqp args ∈ tr

/-- The arguments that a frame passes on are those of a trigger that was fired. -/
def Frame.Passes (op : Adaptor ν) (tr : List (Event ν β τ)) : Frame ν β τ → Prop
  | .op (.run (.scheduled k) args) => Fired op tr k args
  | .run k args _ pc => Fired op tr k args ∧ ∀ t, pc = .call (.inl t) → op.home t = k
  | _ => True

section Brought

variable {op : Adaptor ν} {tr : List (Event ν β τ)} {e : Event ν β τ} {c c' : Core ν β}
  {m m' : ν → Manager (Queued ν τ)} {fs old new : List (Frame ν β τ)}
  {a : ν → Trigger.Spec (Queued ν τ)}

omit [DecidableEq ν] [DecidableEq τ] in
theorem Fired.concat {k : ν} {args : Option β} (h : Fired op tr k args) :
    Fired op (tr ++ [e]) k args :=
  fun hu => (h hu).imp fun _ => List.mem_append_left _

omit [DecidableEq ν] [DecidableEq τ] in
theorem Frame.Passes.concat {x : Frame ν β τ} (h : x.Passes op tr) : x.Passes op (tr ++ [e]) := by
  unfold Frame.Passes at *
  split at h
  · exact Fired.concat h
  · exact ⟨Fired.concat h.1, h.2⟩
  · trivial

theorem Turn.passes (hrep : ∀ k, Represents ⟨m k, activations k (old ++ fs)⟩ (a k))
    (hhome : ∀ k t, (m k).pending (.inl t) = true → op.home t = k)
    (h : Turn op c m fs e old c' m' new) (hold : ∀ x ∈ old, x.Passes op tr) :
    ∀ x ∈ new, x.Passes op (tr ++ [e]) := by
  cases h with
  | exec =>
      rintro x hx
      obtain ⟨st, hst, rfl⟩ := List.mem_map.mp hx
      cases st with
      | run t args => cases exec_ne_run hst
      | _ => trivial
  | @pop k args q t hhead =>
      have hpass := (hold _ List.mem_cons_self).1.concat (e := .exec)
      refine List.forall_mem_singleton.mpr ⟨hpass, ?_⟩
      rintro u hu
      cases hu
      have hr := hrep k
      simp only [List.cons_append, List.nil_append, activations_run] at hr
      exact hhome k u (pending_of_head hr hhead)
  | @run k args q t =>
      obtain ⟨hfired, hhome'⟩ := hold _ List.mem_cons_self
      have hpass := hfired.concat (e := .exec)
      refine List.forall_mem_cons.mpr ⟨?_, List.forall_mem_singleton.mpr ⟨hpass, by simp⟩⟩
      cases t with
      | internal => trivial
      | scheduled j =>
          obtain rfl : j = k := by simpa using hhome' _ rfl
          exact hpass
  | incite hu =>
      exact List.forall_mem_cons.mpr ⟨⟨fun hne => absurd hu hne, by simp⟩,
        List.forall_mem_singleton.mpr trivial⟩
  | @fire k args rqp => exact List.forall_mem_singleton.mpr ⟨fun _ => ⟨rqp, by simp⟩, by simp⟩
  | @fireInside ks k args rqp =>
      exact List.forall_mem_cons.mpr ⟨⟨fun _ => ⟨rqp, by simp⟩, by simp⟩,
        List.forall_mem_singleton.mpr trivial⟩
  | send =>
      refine List.forall_mem_append.mpr ⟨?_, List.forall_mem_singleton.mpr trivial⟩
      rintro x hx
      obtain ⟨st, hst, rfl⟩ := List.mem_map.mp hx
      simp only [mem_first, mem_second] at hst
      rcases hst with ⟨-, ⟨k, -, rfl⟩ | ⟨-, rfl | ⟨-, rfl⟩⟩⟩ | ⟨-, rfl⟩ <;> trivial
  | test | front | other | inside | count =>
      have hpass := (hold _ List.mem_cons_self).1.concat (e := .exec)
      refine List.forall_mem_singleton.mpr ⟨hpass, by simp⟩
  | ret | leave | enqueue | dequeue => simp
  | inciteOn | invoke | requestStop => exact List.forall_mem_singleton.mpr trivial

end Brought

/-! ### Every run -/

omit [DecidableEq ν] in
theorem Brought.imp {P Q : ν × Option β → Prop} {o : Operation ν β} (hb : Brought P o)
    (hPQ : ∀ p, P p → Q p) : Brought Q o where
  setValue k args h := hPQ _ (hb.setValue k args h)
  emplace t p h := hPQ p (hb.emplace t p h)
  fired p h := hPQ p (hb.fired p h)

/-- What the events say about the state they have led to. -/
structure Recorded (op : Adaptor ν) (tr : List (Event ν β τ)) (s : State ν β τ) : Prop where
  passes : ∀ x ∈ s.stack, x.Passes op tr
  brought : Brought (fun p => p.1 ∈ op.scheds ∧ Fired op tr p.1 p.2) (s.operation op)
  refused : ∀ tr₁ tr₂ s₁, tr = tr₁ ++ .send :: tr₂ → Run (step op) .init tr₁ s₁ →
    s₁.core.requested .receiver = true → Refused op (s.operation op)

section Run

variable {op : Adaptor ν} {tr : List (Event ν β τ)} {s s' : State ν β τ} {e : Event ν β τ}
  {a : ν → Trigger.Spec (Queued ν τ)}

/-- A task that is about to be run is run with what its trigger was fired with. -/
theorem Recorded.run (hr : Recorded op tr s) (hi : Inciting op s a) {k : ν} {args : Option β}
    (h : .run (.scheduled k) args ∈ (s.operation op).todo) :
    k ∈ op.scheds ∧ Fired op tr k args := by
  refine ⟨hi.operating.counted.fits _ h k rfl, ?_⟩
  obtain ⟨x, hx, hstmt⟩ := List.mem_filterMap.mp h
  have hpass := hr.passes x hx
  unfold Frame.stmt at hstmt
  split at hstmt <;> cases hstmt
  · exact hpass
  · obtain rfl := (home_scheduled op k).symm.trans (hpass.2 _ rfl)
    exact hpass.1

theorem Recorded.step (hr : Recorded op tr s) (hi : Inciting op s a)
    (hrun : Run (step op) .init tr s) (hC : Undisturbed op s e) (h : step op s e = some s') :
    Recorded op (tr ++ [e]) s' := by
  obtain ⟨fs, old, c, m, new, hstack, rfl, hturn⟩ := step_turn hC h
  have hrunning {k : ν} {args : Option β}
      (hmem : .run (.scheduled k) args ∈ (s.operation op).todo) := hr.run hi hmem
  obtain ⟨c₀, m₀, stack, defined⟩ := s
  obtain ⟨rfl, hrep, hhome, ho, -⟩ := hi
  obtain rfl : stack = old ++ fs := hstack
  obtain ⟨hold, hbelow⟩ := List.forall_mem_append.mp hr.passes
  refine ⟨?_, ?_, ?_⟩
  · refine List.forall_mem_append.mpr ⟨hturn.passes hrep hhome hold, fun x hx => ?_⟩
    exact (hbelow x hx).concat
  · have hbrought : Brought (fun p => p.1 ∈ op.scheds ∧ Fired op (tr ++ [e]) p.1 p.2)
        (State.operation op ⟨c₀, m₀, old ++ fs, true⟩) :=
      hr.brought.imp fun p hp => ⟨hp.1, hp.2.concat⟩
    rcases hturn.operation hrep hhome with hsame | hmove
    · rwa [hsame]
    · exact hbrought.step (fun k args hmem => (hrunning hmem).imp_right Fired.concat) hmove
  · rintro tr₁ tr₂ s₁ htr hs₁ hreq
    rcases List.eq_nil_or_concat tr₂ with rfl | ⟨tr₂, e', rfl⟩
    · -- the function is sent in this step
      obtain ⟨rfl, rfl⟩ := List.append_singleton_inj.mp htr
      obtain rfl := Option.some.inj (hrun.symm.trans hs₁)
      cases hturn with
      | send hsent =>
          simp only [State.operation, filterMap_stmt_send]
          exact (ho.fresh hsent).refused hreq
    · rw [List.concat_eq_append, ← List.cons_append, ← List.append_assoc] at htr
      obtain ⟨rfl, rfl⟩ := List.append_singleton_inj.mp htr
      exact hturn.stable (fun _ _ hmove ho => ho.step hmove) hrep hhome
        (hr.refused tr₁ tr₂ s₁ rfl hs₁ hreq)

theorem recorded_init (op : Adaptor ν) : Recorded op [] (State.init : State ν β τ) where
  passes := by simp [State.init]
  brought := by constructor <;> simp [State.init, State.operation, Core.init]
  refused := by simp

omit [DecidableEq τ] in
theorem inciting_init (op : Adaptor ν) :
    Inciting op (State.init : State ν β τ) fun _ => Trigger.Spec.init where
  defined := rfl
  represents _ := Trigger.represents_init
  home := by simp [State.init, Manager.init]
  operating := operating_init op
  phase := .before rfl (by simp [State.init])

/-- In every run whose steps meet the condition, up to every state it reaches, the triggers
that are fired are not missed. -/
theorem incited_of_undisturbed (op : Adaptor ν) (hnd : op.scheds.Nodup)
    (h : Run (step op) .init tr s) (hC : EachStep (step op) (Undisturbed op) .init tr) :
    Incited op tr s := by
  obtain ⟨a, hi, hr⟩ : ∃ a, Inciting op s a ∧ Recorded op tr s := by
    refine Run.induction_of_eachStep (P := fun tr s => ∃ a, Inciting op s a ∧ Recorded op tr s)
      ⟨_, inciting_init op, recorded_init op⟩ ?_ h hC
    rintro tr s e s' hrun ⟨a, hi, hr⟩ hc hs
    obtain ⟨a', hi'⟩ := hi.step hnd hc hs
    exact ⟨a', hi', hr.step hi hrun hc hs⟩
  exact {
    defined := hi.defined
    once := by
      by_cases hreceived : s.core.received = []
      · simp [hreceived]
      · obtain ⟨c, hc, -⟩ := (hi.completed hreceived).answer
        simp [hc]
    completed := hi.completed
    begins := fun _ => hi.begins
    inside := fun _ _ => hi.inside
    fired := fun _ _ => hi.fired
    idle := hi.idle
    brought := hr.brought.fired
    refused := by
      intro tr₁ tr₂ s₁ htr hs₁ hreq
      have hrefused := hr.refused tr₁ tr₂ s₁ htr hs₁ hreq
      refine ⟨fun hw => ?_, hrefused.fired, hrefused.received⟩
      cases hw.requested.symm.trans hrefused.requested }

end Run

/-- Somebody else's tasks are queued on the internal trigger and on one of the named ones. The
function fires the other one. -/
def inciteTrace : List (Event ℕ ℕ ℕ) :=
  [.enqueue 0 8, .enqueue 1 7, .send] ++ List.replicate 28 .exec ++
    [.fire 2 .immediate (some 42)] ++ List.replicate 22 .exec

theorem incited_inciteTrace :
    ∃ s, Run (step (.inciteOnAny 0 [1, 2])) .init inciteTrace s ∧
      Incited (.inciteOnAny 0 [1, 2]) inciteTrace s ∧ s.stack.length = 1 ∧
      s.core.received = [.value (2, some 42)] :=
  ⟨_, rfl, incited_of_undisturbed (.inciteOnAny 0 [1, 2]) (by decide) rfl (by decide), rfl, rfl⟩

/-- The task in front of the operation's requests stop of it. The operation's task is withdrawn
from the list `run` is draining, and completes; `run` goes on to run it. -/
def stopTrace : List (Event ℕ ℕ ℕ) :=
  [.enqueue 1 7, .send] ++ List.replicate 5 .exec ++ [.fire 1 .deferred (some 42)] ++
    List.replicate 4 .exec ++ [.requestStop] ++ List.replicate 19 .exec

theorem not_incited_stopTrace :
    ¬ ∀ (op : Adaptor ℕ) (tr : List (Event ℕ ℕ ℕ)) (s : State ℕ ℕ ℕ), op.scheds.Nodup →
      Run (step op) .init tr s → Incited op tr s := by
  intro hall
  have honce := (hall (.inciteOn 1) stopTrace _ (by decide) rfl).once
  exact absurd honce (by decide)

end BaremetalSenders.InciteOn
