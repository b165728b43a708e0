import BaremetalSenders.Adaptors.InciteOnStop

/-!
What the receiver of `incite_on` and `incite_on_any` gets.

The receiver gets the value that came first, or set_stopped where its stop was requested:
a `when_any` keeps the first value it is given, and forwards set_stopped only if stop was
requested of it.
-/

namespace BaremetalSenders.InciteOn

variable {ν β : Type*} [DecidableEq ν]

open Operation

/-- The completion answers what has happened: it is what the first trigger brought, or
set_stopped because stop was requested. -/
def Core.Answer (c : Core ν β) (comp : Completion ν β) : Prop :=
  comp = .stopped ∧ c.requested .receiver = true ∨ ∃ p, comp = .value p ∧ c.fired.head? = some p

structure Answered (op : Adaptor ν) (s : Operation ν β) : Prop where
  stored : ∀ p, s.core.completions = some (.value p) → s.core.fired.head? = some p
  value : op.scheds.length ≠ 1 → s.core.fired ≠ [] → ∃ p, s.core.completions = some (.value p)
  single : op.scheds.length = 1 → s.core.fired ≠ [] →
    (∃ c, .deliver c ∈ s.todo) ∨ s.core.received ≠ []
  deliver : ∀ c, .deliver c ∈ s.todo ∨ c ∈ s.core.received → s.core.Answer c

section Step

variable {op : Adaptor ν} {s s' : Operation ν β}

omit [DecidableEq ν] in
theorem length_ne_one {t : Task ν} (h : op.joined t = true) : op.scheds.length ≠ 1 := by
  cases t with
  | internal => cases h
  | scheduled k => simpa [Adaptor.joined] using h

theorem Answered.stored_step (ha : Answered op s) (hc : Counted op s) (h : Move op s s')
    (p : ν × Option β) (hstored : s'.core.completions = some (.value p)) :
    s'.core.fired.head? = some p := by
  have hold := ha.stored p
  cases h with
  | @emplaceValue c _ t x =>
      have hvalue := ha.value (length_ne_one (hc.fits _ List.mem_cons_self).1)
      rcases completion_cases c.completions with hnone | hsome | ⟨p, hsome⟩
      · have hfirst : c.fired = [] := by
          by_contra hfired
          obtain ⟨p, hp⟩ := hvalue hfired
          cases hnone.symm.trans hp
        grind
      · have hfirst : c.fired = [] := by
          by_contra hfired
          obtain ⟨p, hp⟩ := hvalue hfired
          cases hsome.symm.trans hp
        grind
      · grind
  | @emplaceStopped c =>
      rcases completion_cases c.completions with hnone | hsome | ⟨p, hsome⟩
      · grind
      · grind
      · grind
  | _ => grind

theorem Answered.value_step (ha : Answered op s) (h : Move op s s') (hone : op.scheds.length ≠ 1)
    (hfired : s'.core.fired ≠ []) : ∃ p, s'.core.completions = some (.value p) := by
  have hold := ha.value hone
  cases h with
  | emplaceValue => exact emplace_value_eq _ _
  | emplaceStopped =>
      obtain ⟨p, hp⟩ := hold hfired
      grind
  | value hj => exact absurd (by simpa [Adaptor.joined] using hj) hone
  | _ => grind

theorem Answered.single_step (ha : Answered op s) (hc : Counted op s) (h : Move op s s')
    (hone : op.scheds.length = 1) (hfired : s'.core.fired ≠ []) :
    (∃ c, .deliver c ∈ s'.todo) ∨ s'.core.received ≠ [] := by
  have hold := ha.single hone
  cases h with
  | emplaceValue => exact absurd hone (length_ne_one (hc.fits _ List.mem_cons_self).1)
  | deliver => simp
  | _ => grind

theorem Answered.deliver_step (ha : Answered op s) (hc : Counted op s) (hw : Withdrawable op s)
    (hs : Stopping op s) (h : Move op s s') (comp : Completion ν β)
    (hmem : .deliver comp ∈ s'.todo ∨ comp ∈ s'.core.received) : s'.core.Answer comp := by
  have hold := ha.deliver comp
  unfold Core.Answer at *
  cases h with
  | stopNone =>
      have hstop := hw.callback .whenAny List.mem_cons_self
      grind
  | stopped hj =>
      have hstop := hw.stopped _ List.mem_cons_self
      grind [Adaptor.source]
  | @value c p k args rest hj =>
      -- the receiver's completion is up to this task, and it was so before
      have hone : op.scheds.length = 1 := by simpa [Adaptor.joined] using hj
      have hlive : 0 < live ⟨c, p, .setValue (.scheduled k) args :: rest⟩ (.scheduled k) := by
        simp [live, places_cons, Stmt.task]
      obtain ⟨htodo, hreceived⟩ := hc.undecided hlive
      have hfirst : c.fired = [] := by
        by_contra hfired
        rcases ha.single hone hfired with ⟨comp, hcomp⟩ | hreceived'
        · cases htodo _ hcomp
        · exact hreceived' hreceived
      grind
  | @anyStopped c p rest hreq =>
      -- nothing has been stored, so stop came from the receiver
      obtain ⟨hcount, hrest, hreceived⟩ := hc.concluding rfl
      have hone := (hc.fits _ List.mem_cons_self).1
      have hnone : c.completions = none := by
        by_contra hstored
        rcases hs.placed hstored with hpos | hmem | hmem | ⟨comp, hmem⟩ | hreceived'
        · exact hcount hone hpos
        · cases hrest .complete (by simpa using hmem)
        · cases hrest .decide (by simpa using hmem)
        · cases hrest (.deliver comp) (by simpa using hmem)
        · exact hreceived' hreceived
      have hasked := hs.origin (.inl hreq)
      grind
  | @decide c _ comp' _ hreq hstored =>
      rcases completion_cases c.completions with hnone | hsome | ⟨p, hsome⟩
      · grind
      · have hasked := hs.origin (.inl (hs.stored hsome))
        grind
      · have hfirst := ha.stored p hsome
        grind
  | _ => grind

theorem Answered.step (ha : Answered op s) (hc : Counted op s) (hw : Withdrawable op s)
    (hs : Stopping op s) (h : Move op s s') : Answered op s' where
  stored := ha.stored_step hc h
  value := ha.value_step h
  single := ha.single_step hc h
  deliver := ha.deliver_step hc hw hs h

end Step

omit [DecidableEq ν] in
theorem answered_init (op : Adaptor ν) : Answered op (Operation.init : Operation ν β) := by
  constructor <;> simp [Operation.init, Core.init]

/-! ### Nothing left to do -/

/-- Nothing is left to do of the operation but to return to a stop request of the receiver's
source, which has no callback for it. -/
structure Operation.Resting (s : Operation ν β) : Prop where
  todo : ∀ st ∈ s.todo, st = .requestStop .receiver ∨ st = .nextCb .receiver
  nextCb : .nextCb .receiver ∈ s.todo → s.core.callbacks .receiver = []

section Resting

variable {op : Adaptor ν} {s : Operation ν β} {t : Task ν}

omit [DecidableEq ν] in
/-- Stop has not been requested of a source that has a callback registered. -/
theorem Operation.Resting.requested_eq_false (hr : s.Resting) (hw : Withdrawable op s)
    {src : Source} {cb : StopCb ν} (hcb : cb ∈ s.core.callbacks src) :
    s.core.requested src = false := by
  by_contra hreq
  rcases hw.looping src (by simpa using hreq) with hnil | hmem
  · simp [hnil] at hcb
  · rcases hr.todo _ hmem with h | h
    · cases h
    · cases h
      simp [hr.nextCb hmem] at hcb

theorem Operation.Resting.live_eq (hr : s.Resting) (t : Task ν) :
    s.live t = (s.pending t).toNat := by
  have hnone : s.todo.filterMap Stmt.task = [] := by
    rw [List.filterMap_eq_nil_iff]
    rintro st hst
    rcases hr.todo st hst with rfl | rfl <;> rfl
  simp [live, places, hnone]

omit [DecidableEq ν] in
theorem Operation.Resting.concludes (hr : s.Resting) (op : Adaptor ν) {st : Stmt ν β}
    (hst : st ∈ s.todo) :
    st.concludes op = false := by
  rcases hr.todo st hst with rfl | rfl <;> rfl

omit [DecidableEq ν] in
/-- The stop callback of a pending task is registered. -/
theorem Operation.Resting.mem_callbacks (hr : s.Resting) (hw : Withdrawable op s)
    (hp : s.pending t = true) : .trigger t ∈ s.core.callbacks (op.source t) := by
  rcases hw.pending t hp with hcb | hmem | hmem | hmem
  · exact hcb
  · rcases hr.todo _ hmem with h | h <;> cases h
  · rcases hr.todo _ hmem with h | h <;> cases h
  · rcases hr.todo _ hmem with h | h <;> cases h

omit [DecidableEq ν] in
/-- A `when_any` some child of which is pending has not been asked to stop. -/
theorem Operation.Resting.not_asked (hr : s.Resting) (hw : Withdrawable op s)
    (hj : op.joined t = true) (hp : s.pending t = true) : ¬ s.Asked := by
  have hcb := hr.mem_callbacks hw hp
  rw [Adaptor.source, if_pos hj] at hcb
  rintro (hreq | hmem)
  · simp [hr.requested_eq_false hw hcb] at hreq
  · rcases hr.todo _ hmem with h | h <;> cases h

theorem answered_of_received (hc : Counted op s) (ha : Answered op s)
    (hreceived : s.core.received ≠ []) :
    (∃ c, s.core.received = [c] ∧ s.core.Answer c) ∧ ∀ t, s.pending t = false := by
  have hpos := List.length_pos_iff.mpr hreceived
  have htokens := hc.tokens
  have hsent := s.core.sent.toNat_le
  simp only [byOthers] at htokens
  have hone : s.core.received.length = 1 := by omega
  obtain ⟨c, hcomp⟩ := List.length_eq_one_iff.mp hone
  exact ⟨⟨c, hcomp, ha.deliver c (.inr (by simp [hcomp]))⟩, hc.pending_of_received hreceived⟩

/-- The receiver has not been completed: it is up to the pending tasks, or to the stop callback
of a `when_any` of no senders. -/
theorem Operation.Resting.tokens (hr : s.Resting) (hsent : s.core.sent = true)
    (hinternal : s.pending .internal = false) (hc : Counted op s)
    (hreceived : s.core.received = []) :
    (if op.scheds.length = 1 then s.children op else if 0 < s.core.count then 1 else 0) +
      (if op.scheds = [] then idle s.core.callbacks else 0) = 1 := by
  have htokens := hc.tokens
  have hnone : s.todo.countP (Stmt.concludes op) = 0 :=
    List.countP_eq_zero.mpr fun st hst => by simp [hr.concludes op hst]
  simp only [byTasks, byOthers, hr.live_eq, hinternal, hnone, hreceived, hsent] at htokens
  simpa using htokens

/-- A `when_any` of several senders none of which has completed. -/
theorem Operation.Resting.all_pending (hr : s.Resting) (hc : Counted op s)
    (hone : op.scheds.length ≠ 1) (hall : ¬ s.core.count < op.scheds.length) :
    ∀ k ∈ op.scheds, s.pending (.scheduled k) = true := by
  intro k hk
  by_contra hp
  have hlt : s.children op < (op.scheds.map fun _ => 1).sum := by
    refine List.sum_lt_sum _ _ (fun j _ => hc.once _) ⟨k, hk, ?_⟩
    simpa [hr.live_eq] using hp
  have hcount := hc.count hone
  simp at hlt
  omega

/-- Without a value the `when_any` has not been fired, and as long as it waits it hears of the
receiver's stop request. -/
theorem Operation.Resting.waits (hr : s.Resting) (hsent : s.core.sent = true)
    (hinternal : s.pending .internal = false) (hc : Counted op s) (hw : Withdrawable op s)
    (hs : Stopping op s) (ha : Answered op s) (hreceived : s.core.received = []) :
    (∃ cb, cb ∈ s.core.callbacks .receiver) ∧ s.core.fired = [] ∧
      ∀ k ∈ op.scheds, s.pending (.scheduled k) = true := by
  have htokens := hr.tokens hsent hinternal hc hreceived
  match hk : op.scheds with
  | [] =>
      have hbusy := hc.not_busy hk
      rw [not_or, not_lt] at hbusy
      simp only [hk, List.length_nil, if_true, if_neg (not_lt.mpr hbusy.2)] at htokens
      have hidle : 0 < idle s.core.callbacks := by simp at htokens; omega
      refine ⟨⟨.whenAny, List.count_pos_iff.mp hidle⟩, ?_, by simp⟩
      by_contra hfired
      obtain ⟨p, hp⟩ := ha.value (by simp [hk]) hfired
      rcases hs.placed (by simp [hp]) with hpos | hmem | hmem | ⟨comp, hmem⟩ | hne
      · exact absurd hpos (not_lt.mpr hbusy.2)
      · cases hr.concludes op hmem
      · cases hr.concludes op hmem
      · cases hr.concludes op hmem
      · exact hne hreceived
  | [k] =>
      have hp : s.pending (.scheduled k) = true := by
        simpa [hk, children, hr.live_eq] using htokens
      have hcb := hr.mem_callbacks hw hp
      rw [Adaptor.source, if_neg (by simp [Adaptor.joined, hk])] at hcb
      refine ⟨⟨_, hcb⟩, ?_, by simpa using hp⟩
      by_contra hfired
      rcases ha.single (by simp [hk]) hfired with ⟨comp, hmem⟩ | hne
      · cases hr.concludes op hmem
      · exact hne hreceived
  | k :: j :: ks =>
      have hone : op.scheds.length ≠ 1 := by simp [hk]
      have hpos : 0 < s.core.count := by
        by_contra hnot
        simp [hk, hnot] at htokens
      -- some child is pending, so the `when_any` has not been asked to stop
      have hchild : ∃ i, s.pending (.scheduled i) = true := by
        by_contra hnone
        have hzero : s.children op = 0 := by
          refine List.sum_eq_zero_iff.mpr fun n hn => ?_
          obtain ⟨i, -, rfl⟩ := List.mem_map.mp hn
          simpa [hr.live_eq] using fun hp => hnone ⟨i, hp⟩
        have hcount := hc.count hone
        omega
      obtain ⟨i, hi⟩ := hchild
      have hasked := hr.not_asked hw (by simp [Adaptor.joined, hk]) hi
      have hstored : s.core.completions = none := by
        by_contra hne
        exact hasked (hs.asked hne)
      refine ⟨?_, ?_, ?_⟩
      · rcases hs.armed hone (.inr hpos) with hcb | hmem | hmem | hask
        · exact ⟨_, hcb⟩
        · rcases hr.todo _ hmem with h | h <;> cases h
        · rcases hr.todo _ hmem with h | h <;> cases h
        · exact absurd hask hasked
      · by_contra hfired
        obtain ⟨p, hp⟩ := ha.value hone hfired
        cases hstored.symm.trans hp
      · have hall := hr.all_pending hc hone fun hlt => hs.counted hpos hlt hstored
        rwa [hk] at hall

/-- Where there is nothing left to do all triggers are waited for, or the receiver has been
completed. -/
theorem waiting_or_answered (hr : s.Resting) (hsent : s.core.sent = true)
    (hinternal : s.pending .internal = false) (hc : Counted op s) (hw : Withdrawable op s)
    (hs : Stopping op s) (ha : Answered op s) :
    (s.core.requested .receiver = false ∧ s.core.fired = [] ∧ s.core.received = [] ∧
      ∀ k ∈ op.scheds, s.pending (.scheduled k) = true) ∨
    (∃ c, s.core.received = [c] ∧ s.core.Answer c) ∧ ∀ t, s.pending t = false := by
  by_cases hreceived : s.core.received = []
  · obtain ⟨⟨cb, hcb⟩, hfired, hall⟩ := hr.waits hsent hinternal hc hw hs ha hreceived
    exact .inl ⟨hr.requested_eq_false hw hcb, hfired, hreceived, hall⟩
  · exact .inr (answered_of_received hc ha hreceived)

end Resting

end BaremetalSenders.InciteOn
