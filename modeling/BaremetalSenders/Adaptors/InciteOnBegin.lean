import BaremetalSenders.Adaptors.InciteOnAnswer

/-!
What stays as it is while the operation of `incite_on` or `incite_on_any` goes on.

Before the function is sent there is nothing of the operation anywhere. After that its
operations are started, the one on the internal trigger once and the others when the
internal trigger has been run; what has been started is not started again. An operation
that is refused, because stop had been requested before, enqueues nothing at all.
-/

namespace BaremetalSenders.InciteOn

variable {ν β : Type*} [DecidableEq ν]

open Operation

/-- The statement is one with which an operation on a trigger is started, or leads to one. -/
def Stmt.starts : Stmt ν β → Bool
  | .start _ | .enqueue _ | .startAny | .run .internal _ | .setValue .internal _ => true
  | _ => false

/-- The statement is one of somebody who asks the receiver to stop. -/
def Stmt.Asks (st : Stmt ν β) : Prop := st = .requestStop .receiver ∨ st = .nextCb .receiver

/-- The function has not been sent: nothing is anywhere. -/
structure Fresh (s : Operation ν β) : Prop where
  pending : ∀ t, s.pending t = false
  todo : ∀ st ∈ s.todo, st.Asks
  callbacks : ∀ src, s.core.callbacks src = []
  fired : s.core.fired = []
  received : s.core.received = []

/-- The operation on the internal trigger has been started, or there is none. -/
structure Begun (s : Operation ν β) : Prop where
  sent : s.core.sent = true
  start : .start .internal ∉ s.todo
  enqueue : .enqueue .internal ∉ s.todo

/-- All operations on triggers have been started. -/
structure Started (s : Operation ν β) : Prop where
  sent : s.core.sent = true
  pending : s.pending .internal = false
  todo : ∀ st ∈ s.todo, st.starts = false

/-- Stop was requested before. -/
structure Refused (op : Adaptor ν) (s : Operation ν β) : Prop where
  sent : s.core.sent = true
  requested : s.core.requested .receiver = true
  pending : ∀ t, s.pending t = false
  callbacks : s.core.callbacks .receiver = []
  todo : ∀ st ∈ s.todo, st.Asks ∨ st = .deliver .stopped ∨
    ∃ t, op.joined t = false ∧ (st = .start t ∨ st = .completeStopped t)
  fired : s.core.fired = []
  received : ∀ c ∈ s.core.received, c = .stopped

/-- What the triggers bring satisfies `P`. -/
structure Brought (P : ν × Option β → Prop) (s : Operation ν β) : Prop where
  setValue : ∀ k args, .setValue (.scheduled k) args ∈ s.todo → P (k, args)
  emplace : ∀ t p, .emplace t (.value p) ∈ s.todo → P p
  fired : ∀ p ∈ s.core.fired, P p

section Step

variable {op : Adaptor ν} {s s' : Operation ν β} {P : ν × Option β → Prop}

theorem sent_mono (h : Move op s s') (hs : s.core.sent = true) : s'.core.sent = true := by
  cases h with
  | _ => grind

theorem Fresh.step (hf : s.core.sent = false → Fresh s) (h : Move op s s')
    (hs : s'.core.sent = false) : Fresh s' := by
  have hsent : s.core.sent = false := by
    by_contra hsent
    simp [sent_mono h (by simpa using hsent)] at hs
  obtain ⟨hpending, htodo, hcallbacks, hfired, hreceived⟩ := hf hsent
  cases h with
  | request =>
      obtain ⟨hhead, hrest⟩ := List.forall_mem_cons.mp htodo
      rcases hhead with h | h <;> cases h
      exact ⟨hpending, List.forall_mem_cons.mpr ⟨.inr rfl, hrest⟩, hcallbacks, hfired, hreceived⟩
  | requestedBefore | noCb =>
      exact ⟨hpending, (List.forall_mem_cons.mp htodo).2, hcallbacks, hfired, hreceived⟩
  | requestStop =>
      exact ⟨hpending, List.forall_mem_cons.mpr ⟨.inl rfl, htodo⟩, hcallbacks, hfired, hreceived⟩
  | nextCb hcb => cases (hcallbacks _).symm.trans hcb
  | pop hp => cases (hpending _).symm.trans hp
  | send => cases hs
  | _ =>
      -- the other statements are not those of somebody who asks for a stop
      rcases htodo _ List.mem_cons_self with h | h <;> cases h

theorem Begun.step (hb : Begun s) (h : Move op s s') : Begun s' where
  sent := sent_mono h hb.sent
  start := by
    have hstart := hb.start
    have hsent := hb.sent
    cases h with
    | _ => grind
  enqueue := by
    have henqueue := hb.enqueue
    have hstart := hb.start
    have hsent := hb.sent
    cases h with
    | _ => grind

/-- `incite_on` has no internal trigger. -/
theorem unused_step (hu : op.uniq = none)
    (hs : s.pending .internal = false ∧ .start .internal ∉ s.todo ∧ .enqueue .internal ∉ s.todo)
    (h : Move op s s') :
    s'.pending .internal = false ∧ .start .internal ∉ s'.todo ∧ .enqueue .internal ∉ s'.todo := by
  cases h with
  | _ => grind

theorem Started.step (hs : Started s) (h : Move op s s') : Started s' := by
  obtain ⟨hsent, hpending, htodo⟩ := hs
  cases h with
  | startStopped | startEnqueue | enqueue | startAny | anyStopped =>
      cases htodo _ List.mem_cons_self
  | sequence => cases htodo _ List.mem_cons_self
  | send hnot => cases hsent.symm.trans hnot
  | @run _ _ t =>
      cases t with
      | internal => cases htodo _ List.mem_cons_self
      | scheduled k => exact ⟨hsent, hpending, forall_mem_replace htodo fun _ => rfl⟩
  | @pop _ _ t _ _ hp =>
      cases t with
      | internal => cases hpending.symm.trans hp
      | scheduled k =>
          exact ⟨hsent, by simpa using hpending, List.forall_mem_cons.mpr ⟨rfl, htodo⟩⟩
  | _ => constructor <;> grind [Stmt.starts]

theorem Refused.step (hr : Refused op s) (h : Move op s s') : Refused op s' := by
  obtain ⟨hsent, hrequested, hpending, hcallbacks, htodo, hfired, hreceived⟩ := hr
  cases h with
  | startStopped =>
      refine ⟨hsent, hrequested, hpending, hcallbacks, forall_mem_replace htodo ?_, hfired,
        hreceived⟩
      rintro ((h | h) | h | ⟨t, hj, h | h⟩) <;> cases h
      exact .inr (.inr ⟨_, hj, .inr rfl⟩)
  | startEnqueue hreq =>
      rcases htodo _ List.mem_cons_self with (h | h) | h | ⟨t, hj, h | h⟩ <;> cases h
      rw [Adaptor.source, if_neg (by simp [hj])] at hreq
      cases hrequested.symm.trans hreq
  | stoppedJoined hjoined =>
      rcases htodo _ List.mem_cons_self with (h | h) | h | ⟨t, hj, h | h⟩ <;> cases h
      cases hj.symm.trans hjoined
  | stopped =>
      exact ⟨hsent, hrequested, hpending, hcallbacks,
        forall_mem_replace htodo fun _ => .inr (.inl rfl), hfired, hreceived⟩
  | deliver =>
      obtain ⟨hhead, hrest⟩ := List.forall_mem_cons.mp htodo
      rcases hhead with (h | h) | h | ⟨t, hj, h | h⟩ <;> cases h
      refine ⟨hsent, hrequested, hpending, hcallbacks, hrest, hfired, ?_⟩
      exact List.forall_mem_append.mpr ⟨hreceived, by simp⟩
  | requestedBefore | noCb =>
      exact ⟨hsent, hrequested, hpending, hcallbacks, (List.forall_mem_cons.mp htodo).2, hfired,
        hreceived⟩
  | request hreq =>
      rcases htodo _ List.mem_cons_self with (h | h) | h | ⟨t, hj, h | h⟩ <;> cases h
      cases hrequested.symm.trans hreq
  | nextCb hcb =>
      rcases htodo _ List.mem_cons_self with (h | h) | h | ⟨t, hj, h | h⟩ <;> cases h
      cases hcallbacks.symm.trans hcb
  | requestStop =>
      exact ⟨hsent, hrequested, hpending, hcallbacks,
        List.forall_mem_cons.mpr ⟨.inl (.inl rfl), htodo⟩, hfired, hreceived⟩
  | pop hp => cases (hpending _).symm.trans hp
  | send hnot => cases hsent.symm.trans hnot
  | _ => rcases htodo _ List.mem_cons_self with (h | h) | h | ⟨t, -, h | h⟩ <;> cases h

theorem Brought.step (hb : Brought P s)
    (hrun : ∀ k args, .run (.scheduled k) args ∈ s.todo → P (k, args)) (h : Move op s s') :
    Brought P s' where
  setValue := by
    have hold := hb.setValue
    cases h with
    | _ => grind
  emplace := by
    have hold := hb.emplace
    have hvalue := hb.setValue
    cases h with
    | _ => grind
  fired := by
    have hold := hb.fired
    have hvalue := hb.setValue
    have hemplace := hb.emplace
    cases h with
    | _ => grind

omit [DecidableEq ν] in
/-- The function is sent after stop has been requested. -/
theorem Fresh.refused (hf : Fresh s) (hreq : s.core.requested .receiver = true) :
    Refused op ⟨{ s.core with sent := true }, s.pending, op.first ++ s.todo⟩ where
  sent := rfl
  requested := hreq
  pending := hf.pending
  callbacks := hf.callbacks _
  fired := hf.fired
  received c hc := by simp [hf.received] at hc
  todo := by
    refine List.forall_mem_append.mpr ⟨fun st hst => ?_, fun st hst => .inl (hf.todo st hst)⟩
    cases op with
    | inciteOn k =>
        obtain rfl : st = .start (.scheduled k) := List.mem_singleton.mp hst
        exact .inr (.inr ⟨_, rfl, .inl rfl⟩)
    | inciteOnAny u ks =>
        obtain rfl : st = .start .internal := List.mem_singleton.mp hst
        exact .inr (.inr ⟨_, rfl, .inl rfl⟩)

omit [DecidableEq ν] in
/-- What is left to do when the operations have been started is only to ask for a stop. -/
theorem Begun.started (hb : Begun s) (hp : s.pending .internal = false)
    (htodo : ∀ st ∈ s.todo, st.Asks) : Started s where
  sent := hb.sent
  pending := hp
  todo st hst := by rcases htodo st hst with rfl | rfl <;> rfl

end Step

/-! ### Every run of the operation -/

structure Operating (op : Adaptor ν) (s : Operation ν β) : Prop where
  counted : Counted op s
  withdrawable : Withdrawable op s
  stopping : Stopping op s
  answered : Answered op s
  fresh : s.core.sent = false → Fresh s
  unused : op.uniq = none →
    s.pending .internal = false ∧ .start .internal ∉ s.todo ∧ .enqueue .internal ∉ s.todo

theorem operating_init (op : Adaptor ν) : Operating op (Operation.init : Operation ν β) where
  counted := counted_init op
  withdrawable := withdrawable_init op
  stopping := stopping_init op
  answered := answered_init op
  fresh _ := by constructor <;> simp [Operation.init, Core.init]
  unused _ := by simp [Operation.init]

theorem Operating.step {op : Adaptor ν} {s s' : Operation ν β} (ho : Operating op s)
    (hnd : op.scheds.Nodup) (h : Move op s s') : Operating op s' where
  counted := ho.counted.step hnd h
  withdrawable := ho.withdrawable.step ho.counted h
  stopping := ho.stopping.step ho.counted ho.withdrawable h
  answered := ho.answered.step ho.counted ho.withdrawable ho.stopping h
  fresh := Fresh.step ho.fresh h
  unused hu := unused_step hu (ho.unused hu) h

end BaremetalSenders.InciteOn
