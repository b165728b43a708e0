import BaremetalSenders.Adaptors.InciteOnCompletion

/-!
What stop requests do to `incite_on` and `incite_on_any`, and what the receiver gets.

A pending task can be withdrawn: its stop callback is registered with the source of its
token, or is about to be, or is being called. A source of which stop was requested has no
callbacks left when the loop of `request_stop` is over, and so no task with a token of this
source is left pending.

The `when_any` requests stop when it has a value, or because the receiver's stop was
requested; nothing else stops its children. So the receiver gets the value that came
first, or set_stopped where its stop was requested.
-/

namespace BaremetalSenders.InciteOn

variable {ν β : Type*} [DecidableEq ν]

open Operation

/-- Where a pending task has its stop callback. -/
structure Withdrawable (op : Adaptor ν) (s : Operation ν β) : Prop where
  pending : ∀ t, s.pending t = true → .trigger t ∈ s.core.callbacks (op.source t) ∨
    .emplaceStopCb (.trigger t) ∈ s.todo ∨ .callback (.trigger t) ∈ s.todo ∨ .dequeue t ∈ s.todo
  looping : ∀ src, s.core.requested src = true → s.core.callbacks src = [] ∨ .nextCb src ∈ s.todo
  nextCb : ∀ src, .nextCb src ∈ s.todo → s.core.requested src = true
  callback : ∀ cb, .callback cb ∈ s.todo → s.core.requested (op.sourceOf cb) = true
  dequeue : ∀ t, .dequeue t ∈ s.todo → s.core.requested (op.source t) = true
  stopped : ∀ t, .completeStopped t ∈ s.todo → s.core.requested (op.source t) = true

section Step

variable {op : Adaptor ν} {s s' : Operation ν β}

/-- Nothing takes a stop request back. -/
theorem requested_mono (h : Move op s s') {src : Source} (hr : s.core.requested src = true) :
    s'.core.requested src = true := by
  cases h with
  | @request c _ src' =>
      rcases eq_or_ne src src' with rfl | hne
      · simp
      · simpa [hne] using hr
  | _ => exact hr

/-- A source of which stop was requested gets no callbacks. -/
theorem callbacks_eq_nil_mono (h : Move op s s') {src : Source}
    (hr : s.core.requested src = true) (hnil : s.core.callbacks src = []) :
    s'.core.callbacks src = [] := by
  cases h with
  | _ => grind

theorem Withdrawable.nextCb_step (hw : Withdrawable op s) (h : Move op s s') (src : Source)
    (hmem : .nextCb src ∈ s'.todo) : s'.core.requested src = true := by
  have hold := hw.nextCb src
  cases h with
  | _ => grind

theorem Withdrawable.callback_step (hw : Withdrawable op s) (hc : Counted op s) (h : Move op s s')
    (cb : StopCb ν) (hmem : .callback cb ∈ s'.todo) :
    s'.core.requested (op.sourceOf cb) = true := by
  have hold := hw.callback cb
  cases h with
  | @nextCb _ _ src cb' _ _ hnext =>
      have hloop := hw.nextCb src List.mem_cons_self
      have hsrc := (hc.callbacks src cb' (by simp [hnext])).1
      grind
  | _ => grind

theorem Withdrawable.dequeue_step (hw : Withdrawable op s) (h : Move op s s') (t : Task ν)
    (hmem : .dequeue t ∈ s'.todo) : s'.core.requested (op.source t) = true := by
  have hold := hw.dequeue t
  have hcb := hw.callback (.trigger t)
  cases h with
  | _ => grind

theorem Withdrawable.stopped_step (hw : Withdrawable op s) (h : Move op s s') (t : Task ν)
    (hmem : .completeStopped t ∈ s'.todo) : s'.core.requested (op.source t) = true := by
  have hold := hw.stopped t
  have hdequeue := hw.dequeue t
  cases h with
  | _ => grind

theorem Withdrawable.looping_step (hw : Withdrawable op s) (h : Move op s s') (src : Source)
    (hr : s'.core.requested src = true) :
    s'.core.callbacks src = [] ∨ .nextCb src ∈ s'.todo := by
  have hold := hw.looping src
  cases h with
  | _ => grind

theorem Withdrawable.pending_step (hw : Withdrawable op s) (hc : Counted op s) (h : Move op s s')
    (t : Task ν) (hp : s'.pending t = true) :
    .trigger t ∈ s'.core.callbacks (op.source t) ∨ .emplaceStopCb (.trigger t) ∈ s'.todo ∨
      .callback (.trigger t) ∈ s'.todo ∨ .dequeue t ∈ s'.todo := by
  have hold := hw.pending t
  cases h with
  | run =>
      have hidle := pending_eq_false rfl (hc.once _)
      grind
  | _ => grind

theorem Withdrawable.step (hw : Withdrawable op s) (hc : Counted op s) (h : Move op s s') :
    Withdrawable op s' where
  pending := hw.pending_step hc h
  looping := hw.looping_step h
  nextCb := hw.nextCb_step h
  callback := hw.callback_step hc h
  dequeue := hw.dequeue_step h
  stopped := hw.stopped_step h

end Step

omit [DecidableEq ν] in
theorem withdrawable_init (op : Adaptor ν) : Withdrawable op (Operation.init : Operation ν β) := by
  constructor <;> simp [Operation.init, Core.init]

/-! ### The source of the `when_any` -/

/-- The `when_any` has been asked to stop, or is about to ask itself. -/
def Operation.Asked (s : Operation ν β) : Prop :=
  s.core.requested .whenAny = true ∨ .requestStop .whenAny ∈ s.todo

/-- Why the `when_any` is stopped, and what follows from it. -/
structure Stopping (op : Adaptor ν) (s : Operation ν β) : Prop where
  emplace : ∀ t, .emplace t .stopped ∈ s.todo → s.core.requested .whenAny = true
  stored : s.core.completions = some .stopped → s.core.requested .whenAny = true
  asked : s.core.completions ≠ none → s.Asked
  origin : s.Asked →
    s.core.requested .receiver = true ∨ ∃ p, s.core.completions = some (.value p)
  /-- It hears of a stop request of the receiver's source. -/
  armed : op.scheds.length ≠ 1 → .startAny ∈ s.todo ∨ 0 < s.core.count →
    .whenAny ∈ s.core.callbacks .receiver ∨ .emplaceStopCb .whenAny ∈ s.todo ∨
      .callback .whenAny ∈ s.todo ∨ s.Asked
  counted : 0 < s.core.count → s.core.count < op.scheds.length → s.core.completions ≠ none
  /-- What is stored is on its way to the receiver as soon as no task is left. -/
  placed : s.core.completions ≠ none → 0 < s.core.count ∨ .complete ∈ s.todo ∨ .decide ∈ s.todo ∨
    (∃ c, .deliver c ∈ s.todo) ∨ s.core.received ≠ []

section Step

variable {op : Adaptor ν} {s s' : Operation ν β}

theorem Stopping.emplace_step (hs : Stopping op s) (hw : Withdrawable op s) (h : Move op s s')
    (t : Task ν) (hmem : .emplace t .stopped ∈ s'.todo) : s'.core.requested .whenAny = true := by
  have hold := hs.emplace t
  have hstopped := hw.stopped t
  cases h with
  | _ => grind [Adaptor.source]

theorem Stopping.stored_step (hs : Stopping op s) (h : Move op s s')
    (hstored : s'.core.completions = some .stopped) : s'.core.requested .whenAny = true := by
  have hold := hs.stored
  cases h with
  | emplaceValue =>
      obtain ⟨p, hp⟩ := emplace_value_eq _ _
      cases hp.symm.trans hstored
  | emplaceStopped => exact hs.emplace _ List.mem_cons_self
  | _ => grind

theorem Stopping.asked_step (hs : Stopping op s) (h : Move op s s')
    (hstored : s'.core.completions ≠ none) : s'.Asked := by
  have hold := hs.asked
  unfold Operation.Asked at *
  cases h with
  | emplaceValue => simp
  | emplaceStopped => exact .inl (hs.emplace _ List.mem_cons_self)
  | _ => grind

theorem Stopping.origin_step (hs : Stopping op s) (hw : Withdrawable op s) (h : Move op s s')
    (hasked : s'.Asked) :
    s'.core.requested .receiver = true ∨ ∃ p, s'.core.completions = some (.value p) := by
  have hold := hs.origin
  have hcb := hw.callback .whenAny
  unfold Operation.Asked at *
  cases h with
  | emplaceValue => exact .inr (emplace_value_eq _ _)
  | @emplaceStopped c =>
      rcases completion_cases c.completions with hnone | hsome | ⟨p, hsome⟩
      · grind
      · grind
      · grind
  | _ => grind

/-- A `when_any` of no senders starts none. -/
theorem Counted.not_busy (hc : Counted op s) (hnone : op.scheds = []) :
    ¬ (.startAny ∈ s.todo ∨ 0 < s.core.count) := by
  rintro (hmem | hpos)
  · exact (hc.fits _ hmem).2 hnone
  · have hcount := hc.count (by simp [hnone])
    simp [children, hnone] at hcount
    omega

theorem Stopping.armed_step (hs : Stopping op s) (hc : Counted op s) (h : Move op s s')
    (hone : op.scheds.length ≠ 1) (hbusy : .startAny ∈ s'.todo ∨ 0 < s'.core.count) :
    .whenAny ∈ s'.core.callbacks .receiver ∨ .emplaceStopCb .whenAny ∈ s'.todo ∨
      .callback .whenAny ∈ s'.todo ∨ s'.Asked := by
  have hold := hs.armed hone
  unfold Operation.Asked at *
  cases h with
  | @complete c p rest =>
      -- the `when_any` is not being started, and has been counted down
      obtain ⟨hcount, hrest, -⟩ := hc.concluding rfl
      have hstart : .startAny ∉ rest := fun hmem => Bool.noConfusion (hrest _ hmem)
      grind
  | stopNone hnone =>
      have hidle := hc.not_busy hnone
      grind
  | reset =>
      have hidle := hc.not_busy (hc.fits .resetStopCb List.mem_cons_self)
      grind
  | _ => grind

theorem Stopping.counted_step (hs : Stopping op s) (hc : Counted op s) (h : Move op s s')
    (hpos : 0 < s'.core.count) (hlt : s'.core.count < op.scheds.length) :
    s'.core.completions ≠ none := by
  have hold := hs.counted
  cases h with
  | emplaceValue | emplaceStopped => exact emplace_ne_none _ _
  | countDown | countLast => exact fun hnone => absurd List.mem_cons_self ((hc.stored hnone).2.2 _)
  | _ => grind

theorem Stopping.placed_step (hs : Stopping op s) (hc : Counted op s) (h : Move op s s')
    (hstored : s'.core.completions ≠ none) :
    0 < s'.core.count ∨ .complete ∈ s'.todo ∨ .decide ∈ s'.todo ∨
      (∃ c, .deliver c ∈ s'.todo) ∨ s'.core.received ≠ [] := by
  have hold := hs.placed
  cases h with
  | startAny =>
      have hsome : op.scheds ≠ [] := (hc.fits _ List.mem_cons_self).2
      exact .inl (by simpa using List.length_pos_iff.mpr hsome)
  | emplaceValue | emplaceStopped =>
      exact .inl (hc.count_pos (hc.fits _ List.mem_cons_self).1
        (by simp [live, places_cons, Stmt.task]))
  | @countDown c =>
      have hpos : 0 < c.count := hc.count_pos (hc.fits _ List.mem_cons_self).1
        (by simp [live, places_cons, Stmt.task])
      exact .inl (by simp only; omega)
  | deliver => simp
  | _ => grind

theorem Stopping.step (hs : Stopping op s) (hc : Counted op s) (hw : Withdrawable op s)
    (h : Move op s s') : Stopping op s' where
  emplace := hs.emplace_step hw h
  stored := hs.stored_step h
  asked := hs.asked_step h
  origin := hs.origin_step hw h
  armed := hs.armed_step hc h
  counted := hs.counted_step hc h
  placed := hs.placed_step hc h

end Step

omit [DecidableEq ν] in
theorem stopping_init (op : Adaptor ν) : Stopping op (Operation.init : Operation ν β) := by
  constructor <;> simp [Operation.init, Core.init, Operation.Asked]

end BaremetalSenders.InciteOn
