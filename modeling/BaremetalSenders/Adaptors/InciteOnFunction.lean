import BaremetalSenders.Adaptors.InciteOnBegin
import BaremetalSenders.Adaptors.InciteOnTriggers

/-!
The function that is sent to `incite_on` or `incite_on_any`, while it runs.

The frame of the function splits the stack. What is below it was there when the function
was sent, and has nothing to do with the operation: no list below holds one of its tasks.
What is above it has been called from it. So when the function itself is what is executed
next, the tasks of the operation are in the member lists of the managers, or nowhere.
-/

namespace BaremetalSenders.InciteOn

open Trigger (Manager Queue RequeuePolicy Represents Call)

variable {ν β τ : Type*}

def Frame.isFn : Frame ν β τ → Bool
  | .incite | .invoke | .inside _ => true
  | _ => false

variable [DecidableEq ν] [DecidableEq τ]

/-- How far the function has come. Once it has been entered a trigger it has fired is not
waited for, unless a `run` that looks at the member list is still above it. -/
def Progress (op : Adaptor ν) (s : State ν β τ) (a : ν → Trigger.Spec (Queued ν τ))
    (above : List (Frame ν β τ)) : Frame ν β τ → Prop
  | .invoke => Begun (s.operation op) ∧ ∀ k, .inl .internal ∉ (a k).waiting
  | .inside ks => Started (s.operation op) ∧ ∀ k ∈ ks, .inl (.scheduled k) ∈ (a k).waiting →
      ∃ args pc, .run k args .shared pc ∈ above
  | _ => True

/-- The frame `f` of the function is on the stack. -/
structure During (op : Adaptor ν) (s : State ν β τ) (a : ν → Trigger.Spec (Queued ν τ))
    (above : List (Frame ν β τ)) (f : Frame ν β τ) (below : List (Frame ν β τ)) : Prop where
  stack : s.stack = above ++ f :: below
  sent : s.core.sent = true
  isFn : f.isFn = true
  noneAbove : ∀ x ∈ above, x.isFn = false
  noneBelow : ∀ x ∈ below, x.isFn = false
  todo : ∀ st ∈ below.filterMap Frame.stmt, st.Asks
  nextCb : .nextCb .receiver ∈ below.filterMap Frame.stmt →
    s.core.requested .receiver = true ∧ s.core.callbacks .receiver = []
  held : ∀ k, ∀ c ∈ (a k).calls.drop (activations k above).length, ∀ t, .inl t ∉ c.held
  progress : Progress op s a above f

/-- The function is on the stack once, after it has been sent and until it returns. -/
inductive Phase (op : Adaptor ν) (s : State ν β τ) (a : ν → Trigger.Spec (Queued ν τ)) : Prop where
  | before (hsent : s.core.sent = false) (hfn : ∀ x ∈ s.stack, x.isFn = false)
  | during {above f below} (h : During op s a above f below)
  | after (hstarted : Started (s.operation op)) (hfn : ∀ x ∈ s.stack, x.isFn = false)

/-- What is kept by every step that meets the condition. -/
structure Inciting (op : Adaptor ν) (s : State ν β τ) (a : ν → Trigger.Spec (Queued ν τ)) :
    Prop where
  defined : s.defined = true
  represents : ∀ k, Represents (s.trigger k) (a k)
  home : ∀ k t, (s.mgr k).pending (.inl t) = true → op.home t = k
  operating : Operating op (s.operation op)
  phase : Phase op s a

section Step

variable {op : Adaptor ν} {c c' : Core ν β} {m m' : ν → Manager (Queued ν τ)}
  {fs old new above below : List (Frame ν β τ)} {e : Event ν β τ} {f : Frame ν β τ}
  {a a' : ν → Trigger.Spec (Queued ν τ)}

/-- What every step of the operation keeps. -/
theorem Turn.stable {P : Operation ν β → Prop}
    (hP : ∀ o o' : Operation ν β, Move op o o' → P o → P o')
    (hrep : ∀ k, Represents ⟨m k, activations k (old ++ fs)⟩ (a k))
    (hhome : ∀ k t, (m k).pending (.inl t) = true → op.home t = k)
    (h : Turn op c m fs e old c' m' new)
    (hp : P (State.operation op ⟨c, m, old ++ fs, true⟩)) :
    P (State.operation op ⟨c', m', new ++ fs, true⟩) := by
  rcases h.operation hrep hhome with hsame | hmove
  · rwa [hsame]
  · exact hP _ _ hmove hp

omit [DecidableEq ν] [DecidableEq τ] in
/-- Frames that are not the function's are above it or below it. -/
theorem append_eq_append_fn (h : old ++ fs = above ++ f :: below) (hlen : old.length ≤ 1)
    (hold : ∀ x ∈ old, x.isFn = false) (hf : f.isFn = true) :
    ∃ above', above = old ++ above' ∧ fs = above' ++ f :: below := by
  match old with
  | [] => exact ⟨above, rfl, h⟩
  | [x] =>
      cases above with
      | nil =>
          obtain ⟨rfl, -⟩ := List.cons.inj h
          cases hf.symm.trans (hold x List.mem_cons_self)
      | cons y above' =>
          obtain ⟨rfl, hfs⟩ := List.cons.inj h
          exact ⟨above', rfl, hfs⟩
  | _ :: _ :: _ =>
      simp only [List.length_cons] at hlen
      omega

omit [DecidableEq ν] [DecidableEq τ] in
/-- The function is on top. -/
theorem cons_eq_append_fn {x : Frame ν β τ} (h : x :: fs = above ++ f :: below)
    (hx : x.isFn = true) (habove : ∀ y ∈ above, y.isFn = false) :
    above = [] ∧ f = x ∧ below = fs := by
  cases above with
  | nil =>
      obtain ⟨rfl, rfl⟩ := List.cons.inj h
      exact ⟨rfl, rfl, rfl⟩
  | cons y above' =>
      obtain ⟨rfl, -⟩ := List.cons.inj h
      cases hx.symm.trans (habove x List.mem_cons_self)

/-- A `run` that looks at the member list goes on, or there is nothing waiting. -/
theorem Turn.shared {k : ν} {args : Option β} {pc : Pc (Queued ν τ)}
    (hrep : ∀ k, Represents ⟨m' k, activations k (new ++ fs)⟩ (a' k))
    (h : Turn op c m fs e old c' m' new) (hmem : .run k args .shared pc ∈ old) :
    (∃ args pc, .run k args .shared pc ∈ new) ∨ (a' k).waiting = [] := by
  cases h with
  | @ret j args' q hhead =>
      cases List.mem_singleton.mp hmem
      exact .inr ((hrep k).waiting.head_eq_none_iff.mp hhead)
  | test | front | other | inside | count | pop =>
      cases List.mem_singleton.mp hmem
      exact .inl ⟨_, _, List.mem_singleton_self _⟩
  | run =>
      cases List.mem_singleton.mp hmem
      exact .inl ⟨_, _, List.mem_cons_of_mem _ (List.mem_singleton_self _)⟩
  | _ => simp at hmem

/-- The steps that are not the function's leave it where it is. -/
theorem During.plain (hd : During op ⟨c, m, old ++ fs, true⟩ a above f below)
    (hlen : old.length ≤ 1) (hold : ∀ x ∈ old, x.isFn = false) (hnew : ∀ x ∈ new, x.isFn = false)
    (hrep : ∀ k, Represents ⟨m k, activations k (old ++ fs)⟩ (a k))
    (hrep' : ∀ k, Represents ⟨m' k, activations k (new ++ fs)⟩ (a' k))
    (hhome : ∀ k t, (m k).pending (.inl t) = true → op.home t = k)
    (hf : Follows a a' old new) (h : Turn op c m fs e old c' m' new) :
    ∃ above', During op ⟨c', m', new ++ fs, true⟩ a' above' f below := by
  obtain ⟨above', rfl, rfl⟩ := append_eq_append_fn hd.stack hlen hold hd.isFn
  have hstable {P : Operation ν β → Prop} (hP : ∀ o o', Move op o o' → P o → P o') :=
    h.stable hP hrep hhome
  refine ⟨new ++ above', by simp, ?_, hd.isFn, ?_, hd.noneBelow, hd.todo, ?_, ?_, ?_⟩
  · exact hstable (P := fun o => o.core.sent = true) (fun _ _ => sent_mono) hd.sent
  · exact List.forall_mem_append.mpr ⟨hnew, (List.forall_mem_append.mp hd.noneAbove).2⟩
  · intro hmem
    exact hstable
      (P := fun o => o.core.requested .receiver = true ∧ o.core.callbacks .receiver = [])
      (fun _ _ hmove ho => ⟨requested_mono hmove ho.1, callbacks_eq_nil_mono hmove ho.1 ho.2⟩)
      (hd.nextCb hmem)
  · intro k c hc t ht
    rw [activations_append, List.length_append] at hc
    obtain ⟨c₀, hc₀, hsub⟩ := hf.held k _ c hc
    refine hd.held k c₀ ?_ t (hsub ht)
    rwa [activations_append, List.length_append]
  · have hprogress := hd.progress
    cases f with
    | invoke =>
        obtain ⟨hbegun, hwaiting⟩ := hprogress
        refine ⟨hstable (fun _ _ hmove ho => ho.step hmove) hbegun, fun k hk => ?_⟩
        rcases hf.waiting k _ hk with hw | rfl
        · exact hwaiting k hw
        · exact hbegun.enqueue List.mem_cons_self
    | inside ks =>
        obtain ⟨hstarted, hwaiting⟩ := hprogress
        refine ⟨hstable (fun _ _ hmove ho => ho.step hmove) hstarted, fun k hk hw' => ?_⟩
        rcases hf.waiting k _ hw' with hw | rfl
        · obtain ⟨args, pc, hmem⟩ := hwaiting k hk hw
          rcases List.mem_append.mp hmem with hmem | hmem
          · rcases h.shared hrep' hmem with ⟨args, pc, hmem⟩ | hnil
            · exact ⟨args, pc, List.mem_append_left _ hmem⟩
            · simp [hnil] at hw'
          · exact ⟨args, pc, List.mem_append_right _ hmem⟩
        · cases hstarted.todo _ List.mem_cons_self
    | incite | op | run => trivial

omit [DecidableEq τ] in
/-- The function's own steps: what has been called from it is above it. -/
theorem During.next (hd : During op ⟨c, m, [f] ++ fs, true⟩ a [] f fs)
    (above : List (Frame ν β τ)) {f' : Frame ν β τ} (hf' : f'.isFn = true)
    (hnew : ∀ x ∈ above, x.isFn = false) (hf : Follows a a' [f] (above ++ [f']))
    (hprogress : Progress op ⟨c, m', above ++ [f'] ++ fs, true⟩ a' above f') :
    During op ⟨c, m', above ++ [f'] ++ fs, true⟩ a' above f' fs where
  stack := by simp
  sent := hd.sent
  isFn := hf'
  noneAbove := hnew
  noneBelow := hd.noneBelow
  todo := hd.todo
  nextCb := hd.nextCb
  held := by
    have hnone {x : Frame ν β τ} (hx : x.isFn = true) (k : ν) : activations k [x] = [] := by
      cases x with
      | op | run => cases hx
      | incite | invoke | inside => rfl
    intro k c hc t ht
    obtain ⟨c₀, hc₀, hsub⟩ := hf.held k 0 c (by simpa [hnone hf'] using hc)
    exact hd.held k c₀ (by simpa [hnone hd.isFn] using hc₀) t (hsub ht)
  progress := hprogress

omit [DecidableEq ν] in
theorem begun_of_asks {o : Operation ν β} (hsent : o.core.sent = true)
    (htodo : ∀ st ∈ o.todo, st.Asks) : Begun o where
  sent := hsent
  start h := by rcases htodo _ h with h | h <;> cases h
  enqueue h := by rcases htodo _ h with h | h <;> cases h

omit [DecidableEq ν] [DecidableEq τ] in
/-- A task that is in a list of its manager is pending. -/
theorem pending_of_waiting {t : Task ν} {s : Trigger.State (Queued ν τ)}
    {b : Trigger.Spec (Queued ν τ)} (hr : Represents s b) (h : .inl t ∈ b.waiting) :
    s.mgr.pending (.inl t) = true :=
  (hr.pending _).mpr (Trigger.mem_outstanding.mpr (.inr h))

/-- The function goes on. -/
theorem During.turn (hd : During op ⟨c, m, old ++ fs, true⟩ a above f below)
    (hrep : ∀ k, Represents ⟨m k, activations k (old ++ fs)⟩ (a k))
    (hrep' : ∀ k, Represents ⟨m' k, activations k (new ++ fs)⟩ (a' k))
    (hhome : ∀ k t, (m k).pending (.inl t) = true → op.home t = k)
    (ho : Operating op (State.operation op ⟨c, m, old ++ fs, true⟩))
    (hf : Follows a a' old new) (h : Turn op c m fs e old c' m' new) :
    Phase op ⟨c', m', new ++ fs, true⟩ a' := by
  have hplain (hlen : old.length ≤ 1) (hold : ∀ x ∈ old, x.isFn = false)
      (hnew : ∀ x ∈ new, x.isFn = false) : Phase op ⟨c', m', new ++ fs, true⟩ a' := by
    obtain ⟨above', hd'⟩ := hd.plain hlen hold hnew hrep hrep' hhome hf h
    exact .during hd'
  have hhome' := h.home hhome
  have hstable {P : Operation ν β → Prop} (hP : ∀ o o', Move op o o' → P o → P o') :=
    h.stable hP hrep hhome
  cases h with
  | inciteOn hu =>
      obtain ⟨rfl, rfl, rfl⟩ := cons_eq_append_fn hd.stack rfl hd.noneAbove
      refine .during (hd.next [] rfl (by simp) hf ⟨begun_of_asks hd.sent hd.todo, ?_⟩)
      intro k hk
      have hp := pending_of_waiting (hrep' k) hk
      obtain rfl := hhome k _ hp
      cases hp.symm.trans (ho.unused hu).1
  | @incite u hu =>
      obtain ⟨rfl, rfl, rfl⟩ := cons_eq_append_fn hd.stack rfl hd.noneAbove
      refine .during (hd.next [_] rfl (by simp [Frame.isFn]) hf
        ⟨begun_of_asks hd.sent hd.todo, ?_⟩)
      intro k hk
      have hp := pending_of_waiting (hrep' k) hk
      obtain rfl : u = k := by
        have hk := hhome' k _ hp
        cases op with
        | inciteOn j => cases hu
        | inciteOnAny j ks =>
            cases hu
            exact hk
      have hnil : (a' u).waiting = [] := by
        refine (hrep' u).waiting.head_eq_none_iff.mp ?_
        simp [RequeuePolicy.getQueue, IntrusiveList.Ends.empty]
      simp [hnil] at hk
  | invoke =>
      obtain ⟨rfl, rfl, rfl⟩ := cons_eq_append_fn hd.stack rfl hd.noneAbove
      obtain ⟨hbegun, hwaiting⟩ := hd.progress
      have hpending : (m (op.home .internal)).pending (.inl .internal) = false := by
        by_contra hp
        have hout := ((hrep (op.home .internal)).pending (.inl .internal)).mp (by simpa using hp)
        rcases Trigger.mem_outstanding.mp hout with ⟨call, hcall, hheld⟩ | hw
        · exact hd.held _ call (by simpa using hcall) _ hheld
        · exact hwaiting _ hw
      exact .during (hd.next [] rfl (by simp) hf
        ⟨hbegun.started hpending hd.todo, by simp⟩)
  | leave =>
      obtain ⟨rfl, rfl, rfl⟩ := cons_eq_append_fn hd.stack rfl hd.noneAbove
      obtain ⟨hstarted, -⟩ := hd.progress
      exact .after (hstable (fun _ _ hmove hs => hs.step hmove) hstarted) hd.noneBelow
  | @fireInside ks k args rqp =>
      obtain ⟨rfl, rfl, rfl⟩ := cons_eq_append_fn hd.stack rfl hd.noneAbove
      obtain ⟨hstarted, hwaiting⟩ := hd.progress
      refine .during (hd.next [_] rfl (by simp [Frame.isFn]) hf ⟨?_, ?_⟩)
      · exact hstable (fun _ _ hmove hs => hs.step hmove) hstarted
      · intro j hj hw'
        rcases List.mem_cons.mp hj with rfl | hj
        · cases rqp with
          | immediate => exact ⟨_, _, List.mem_singleton_self _⟩
          | deferred =>
              have hnil : (a' j).waiting = [] := by
                refine (hrep' j).waiting.head_eq_none_iff.mp ?_
                simp [RequeuePolicy.getQueue, IntrusiveList.Ends.empty]
              simp [hnil] at hw'
        · rcases hf.waiting j _ hw' with hw | hold
          · obtain ⟨args, pc, hmem⟩ := hwaiting j hj hw
            simp at hmem
          · cases hold
  | send hsent => cases hsent.symm.trans hd.sent
  | exec => exact hplain (by simp) (by simp [Frame.isFn]) (by simp [Frame.isFn])
  | ret | test | front | pop | run | other | inside | count | fire | enqueue | dequeue
  | requestStop =>
      exact hplain (by simp) (by simp [Frame.isFn]) (by simp [Frame.isFn])

theorem Phase.turn (hphase : Phase op ⟨c, m, old ++ fs, true⟩ a)
    (hrep : ∀ k, Represents ⟨m k, activations k (old ++ fs)⟩ (a k))
    (hrep' : ∀ k, Represents ⟨m' k, activations k (new ++ fs)⟩ (a' k))
    (hhome : ∀ k t, (m k).pending (.inl t) = true → op.home t = k)
    (ho : Operating op (State.operation op ⟨c, m, old ++ fs, true⟩))
    (hf : Follows a a' old new) (h : Turn op c m fs e old c' m' new) :
    Phase op ⟨c', m', new ++ fs, true⟩ a' := by
  cases hphase with
  | during hd => exact hd.turn hrep hrep' hhome ho hf h
  | before hsent hfn =>
      obtain ⟨hold, hbelow⟩ := List.forall_mem_append.mp hfn
      cases h with
      | send =>
          have hfresh := ho.fresh hsent
          have hd : During op
              ⟨{ c with sent := true }, m, op.first.map .op ++ [.incite] ++ fs, true⟩
              a' (op.first.map .op) .incite fs := by
            refine ⟨by simp, rfl, rfl, by simp [Frame.isFn], hbelow, hfresh.todo, ?_, ?_, trivial⟩
            · exact fun hmem => ⟨ho.withdrawable.nextCb _ hmem, hfresh.callbacks _⟩
            · intro k call hcall t ht
              obtain ⟨call₀, hcall₀, hsub⟩ := hf.held k 0 call (by simpa using hcall)
              have hout := Trigger.mem_outstanding.mpr
                (.inl ⟨call₀, by simpa using hcall₀, hsub ht⟩)
              have hp := ((hrep k).pending _).mpr hout
              obtain rfl := hhome k t hp
              cases hp.symm.trans (hfresh.pending t)
          exact .during hd
      | inciteOn | incite | invoke | leave | fireInside => cases hold _ List.mem_cons_self
      | exec =>
          exact .before (exec_sent.trans hsent)
            (List.forall_mem_append.mpr ⟨by simp [Frame.isFn], hbelow⟩)
      | ret | test | front | pop | run | other | inside | count | fire | enqueue | dequeue
      | requestStop =>
          exact .before hsent (List.forall_mem_append.mpr ⟨by simp [Frame.isFn], hbelow⟩)
  | after hstarted hfn =>
      obtain ⟨hold, hbelow⟩ := List.forall_mem_append.mp hfn
      have hstarted' := h.stable (fun _ _ hmove hs => hs.step hmove) hrep hhome hstarted
      cases h with
      | send hnot => cases hnot.symm.trans hstarted.sent
      | inciteOn | incite | invoke | leave | fireInside => cases hold _ List.mem_cons_self
      | exec | ret | test | front | pop | run | other | inside | count | fire | enqueue | dequeue
      | requestStop =>
          exact .after hstarted' (List.forall_mem_append.mpr ⟨by simp [Frame.isFn], hbelow⟩)

/-- What a step that meets the condition keeps. -/
theorem Inciting.step {s s' : State ν β τ} (hi : Inciting op s a) (hnd : op.scheds.Nodup)
    (hC : Undisturbed op s e) (h : step op s e = some s') : ∃ a', Inciting op s' a' := by
  obtain ⟨fs, old, c, m, new, hstack, rfl, hturn⟩ := step_turn hC h
  obtain ⟨c₀, m₀, stack, defined⟩ := s
  obtain ⟨rfl, hrep, hhome, ho, hphase⟩ := hi
  obtain rfl : stack = old ++ fs := hstack
  obtain ⟨a', hrep', hf⟩ := hturn.queues hrep
  exact ⟨a', rfl, hrep', hturn.home hhome,
    hturn.stable (fun _ _ hmove ho => ho.step hnd hmove) hrep hhome ho,
    hphase.turn hrep hrep' hhome ho hf hturn⟩

end Step

end BaremetalSenders.InciteOn
