import BaremetalSenders.StartDetached.Detached
import BaremetalSenders.StopToken.StopInvariant

/-!
A stop request stays with the operation it was aimed at.

The loop of `request_stop` looks into the source again after each callback. If
the operation is destroyed meanwhile, because the callback has completed it or
because it has completed in another context, the loop goes on in a source that
has been released; and if the storage has been used again, it pops the
callbacks of another operation. `aimed_of_run` shows that nothing of the kind
happens as long as no operation is destroyed during a call of `request_stop` on
its source (or while a callback is being registered with it), and
`untouched_iff` that this is the exact condition.
-/

namespace BaremetalSenders.Detached

variable {κ ρ : Type*} [DecidableEq κ] [DecidableEq ρ]
variable {s s' : State κ ρ} {tr : List (Label κ ρ)} {l : Label κ ρ} {op : ℕ} {r : ℕ × ρ}

def State.InProgress (s : State κ ρ) (r : ℕ × ρ) : Prop :=
  s.called r = true ∧ (s.source.calls r).isReturned = false

instance (s : State κ ρ) (r : ℕ × ρ) : Decidable (s.InProgress r) :=
  inferInstanceAs (Decidable (_ ∧ _))

def Label.requestOf : Label κ ρ → Option (ℕ × ρ)
  | .source (.exchange r) | .source (.getNextCb r _) | .source (.run r _) | .source (.ran r _) =>
      some r
  | _ => none

/-- The steps of `request_stop` on the source of an operation are taken while this operation is
in the storage, and the callbacks popped and run are its own. -/
def Aimed (s : State κ ρ) : Label κ ρ → Prop
  | .source (.exchange r) => s.slot.live = some r.1
  | .source (.getNextCb r none) => s.slot.live = some r.1
  | .source (.getNextCb r (some cb)) => s.slot.live = some r.1 ∧ cb.1 = r.1
  | .source (.run r cb) => s.slot.live = some r.1 ∧ cb.1 = r.1
  | _ => True

/-- An operation is destroyed when no call of `request_stop` on its source is in progress,
nor the registration of a callback. -/
def Quiet (s : State κ ρ) : Label κ ρ → Prop
  | .destroyAt => (∀ op ∈ s.slot.live, ∀ k, ¬ s.InProgress (op, k)) ∧ s.source.mutex = none
  | _ => True

instance (s : State κ ρ) : (l : Label κ ρ) → Decidable (Aimed s l)
  | .source (.exchange r) => inferInstanceAs (Decidable (s.slot.live = some r.1))
  | .source (.getNextCb r none) => inferInstanceAs (Decidable (s.slot.live = some r.1))
  | .source (.getNextCb _ (some _)) | .source (.run _ _) => inferInstanceAs (Decidable (_ ∧ _))
  | .source (.ran _ _) | .source (.enterRegister _) | .source (.leaveRegister _ _)
  | .source (.invoke _) | .source (.invoked _) | .source (.unregister _ _)
  | .construct _ | .constructAt | .setStopSource | .die | .destroyAt | .deallocate
  | .requestStop _ | .stopDetached _ | .stopDetachedReturn _ => inferInstanceAs (Decidable True)

instance [Fintype ρ] (s : State κ ρ) : (l : Label κ ρ) → Decidable (Quiet s l)
  | .destroyAt => inferInstanceAs (Decidable (_ ∧ _))
  | .construct _ | .constructAt | .setStopSource | .die | .deallocate | .requestStop _
  | .stopDetached _ | .stopDetachedReturn _ | .source _ => inferInstanceAs (Decidable True)

/-! ### What a step can do -/

inductive Move (s : State κ ρ) : Label κ ρ → State κ ρ → Prop
  | construct (hslot : s.slot = .free) : Move s (.construct true) { s with slot := .allocated }
  | constructFail (hslot : s.slot ≠ .free) : Move s (.construct false) s
  | constructAt (hslot : s.slot = .allocated) :
      Move s .constructAt { s with
        slot := .constructed s.constructed
        constructed := s.constructed + 1
        source := { s.source with source := .init } }
  | setStopSource {op : ℕ} (hslot : s.slot = .constructed op) (huniq : s.mayEnter = true) :
      Move s .setStopSource { s with slot := .started op }
  | die {op : ℕ} (hslot : s.slot = .started op) (huniq : s.mayEnter = true) :
      Move s .die { s with slot := .dying op }
  | destroyAt {op : ℕ} (hslot : s.slot = .dying op) (hcbs : s.source.source.callbacks = []) :
      Move s .destroyAt { s with slot := .destroyed }
  | deallocate (hslot : s.slot = .destroyed) : Move s .deallocate { s with slot := .free }
  | requestStop {r : ℕ × ρ} (hlive : s.slot.live = some r.1) (hcalled : s.called r = false) :
      Move s (.requestStop r) (s.call r)
  | stopDetachedNull (hsource : s.slot.stopSourceFor = none) : Move s (.stopDetached none) s
  | stopDetached {r : ℕ × ρ} (hsource : s.slot.stopSourceFor = some r.1)
      (hcalled : s.called r = false) :
      Move s (.stopDetached (some r)) { s.call r with uniq := r :: s.uniq }
  | stopDetachedReturn {r : ℕ × ρ} :
      Move s (.stopDetachedReturn r) { s with uniq := s.uniq.tail }
  | source {l : StopToken.Label (ℕ × κ) (ℕ × ρ)} {source : StopToken.State (ℕ × κ) (ℕ × ρ)}
      (hadmits : s.admits l = true) (hs : StopToken.step s.source l = some source) :
      Move s (.source l) { s with source := source }

theorem step_move (h : step s l = some s') : Move s l s' := by
  cases l with
  | construct allocated =>
      simp only [step] at h
      split at h
      next hused =>
        cases allocated with
        | false =>
            cases h
            exact .constructFail fun e => by simp [e, Slot.used] at hused
        | true =>
            cases h
            refine .construct ?_
            cases hslot : s.slot <;> simp_all [Slot.used]
      next => cases h
  | constructAt =>
      simp only [step] at h
      split at h <;> cases h
      next hslot => exact .constructAt hslot
  | setStopSource =>
      simp only [step] at h
      split at h
      next op hslot =>
        split at h <;> cases h
        next huniq => exact .setStopSource hslot huniq
      next => cases h
  | die =>
      simp only [step] at h
      split at h
      next op hslot =>
        split at h <;> cases h
        next huniq => exact .die hslot huniq
      next => cases h
  | destroyAt =>
      simp only [step] at h
      split at h
      next op hslot =>
        split at h <;> cases h
        next hcbs => exact .destroyAt hslot hcbs
      next => cases h
  | deallocate =>
      simp only [step] at h
      split at h <;> cases h
      next hslot => exact .deallocate hslot
  | requestStop r =>
      simp only [step] at h
      split at h <;> cases h
      next hc => exact .requestStop hc.1 hc.2
  | stopDetached r =>
      cases r with
      | none =>
          simp only [step] at h
          split at h <;> cases h
          next hc => exact .stopDetachedNull hc.2
      | some r =>
          simp only [step] at h
          split at h <;> cases h
          next hc => exact .stopDetached hc.2.1 hc.2.2
  | stopDetachedReturn r =>
      simp only [step] at h
      split at h <;> cases h
      exact .stopDetachedReturn
  | source l =>
      simp only [step] at h
      split at h
      next hadmits =>
        obtain ⟨source, hs, rfl⟩ := Option.map_eq_some_iff.mp h
        exact .source hadmits hs
      next => cases h

/-! ### The calls in progress -/

/-- A call that has taken a step has been begun, and the operations are numbered in order. -/
structure Numbered (s : State κ ρ) : Prop where
  called : ∀ r, s.source.calls r ≠ .idle → s.called r = true
  fresh : ∀ op, s.slot.live = some op → op < s.constructed

omit [DecidableEq κ] [DecidableEq ρ] in
theorem numbered_init : Numbered (State.init : State κ ρ) := by
  constructor <;> simp [State.init, StopToken.State.init, Slot.live]

theorem Numbered.inProgress (h : Numbered s) (hs : step s l = some s')
    (hl : l.requestOf = some r) : s.InProgress r := by
  cases step_move hs with
  | @source l source hadmits hsource =>
      -- The call is idle and begun, or in the loop.
      have hloop {r : ℕ × ρ} (hr : (s.source.calls r).isReturned = false)
          (hidle : s.source.calls r ≠ .idle) : s.InProgress r := ⟨h.called r hidle, hr⟩
      cases StopToken.step_move hsource with
      | win hr | lose hr =>
          obtain rfl := Option.some.inj hl
          exact ⟨hadmits, by rw [hr]; rfl⟩
      | finish hr | pop hr | run hr | ran hr =>
          obtain rfl := Option.some.inj hl
          exact hloop (by rw [hr]; rfl) (by simp [hr])
      | enterRegister | register | refuse | invoke | invoked | unregister => cases hl
  | _ => cases hl

/-- A call in progress can go on whenever the mutex is free. -/
theorem exists_step_of_inProgress (h : s.InProgress r) (hm : s.source.mutex = none) :
    ∃ l s', step s l = some s' ∧ l.requestOf = some r := by
  obtain ⟨hcalled, hr⟩ := h
  have hstep {l : StopToken.Label (ℕ × κ) (ℕ × ρ)} {source : StopToken.State (ℕ × κ) (ℕ × ρ)}
      (hadmits : s.admits l = true) (hs : StopToken.step s.source l = some source) :
      step s (.source l) = some { s with source := source } := by simp [step, hadmits, hs]
  cases hcall : s.source.calls r with
  | idle => exact ⟨.source (.exchange r), _, hstep hcalled (if_pos hcall), rfl⟩
  | draining =>
      refine ⟨.source (.getNextCb r s.source.source.callbacks.head?), ?_⟩
      cases hhead : s.source.source.callbacks.head? with
      | none => exact ⟨_, hstep rfl (if_pos ⟨hcall, hm, hhead⟩), rfl⟩
      | some cb => exact ⟨_, hstep rfl (if_pos ⟨hcall, hm, hhead⟩), rfl⟩
  | popped cb => exact ⟨.source (.run r cb), _, hstep rfl (if_pos hcall), rfl⟩
  | running cb => exact ⟨.source (.ran r cb), _, hstep rfl (if_pos hcall), rfl⟩
  | returned won => simp [hcall, StopToken.Call.isReturned] at hr

omit [DecidableEq κ] in
theorem Numbered.call {uniq : List (ℕ × ρ)} (h : Numbered s) :
    Numbered { s.call r with uniq := uniq } := by
  refine { h with called := fun r' hr' => ?_ }
  rcases eq_or_ne r' r with rfl | hne
  · simp [State.call]
  · simpa [State.call, hne] using h.called r' hr'

omit [DecidableEq κ] [DecidableEq ρ] in
theorem Numbered.setSlot {slot : Slot} (h : Numbered s)
    (hlive : ∀ op, slot.live = some op → s.slot.live = some op) :
    Numbered { s with slot := slot } :=
  { h with fresh := fun op hop => h.fresh op (hlive op hop) }

theorem Numbered.step (h : Numbered s) (hs : step s l = some s') : Numbered s' := by
  have hprogress {r : ℕ × ρ} (hl : l.requestOf = some r) := (h.inProgress hs hl).1
  cases step_move hs with
  | construct hslot | deallocate hslot => exact h.setSlot (by simp [Slot.live])
  | constructFail | stopDetachedNull => exact h
  | constructAt => exact ⟨h.called, fun op hop => by simp_all [Slot.live]⟩
  | setStopSource hslot | die hslot | destroyAt hslot =>
      exact h.setSlot (by simp [hslot, Slot.live])
  | requestStop | stopDetached => exact h.call
  | stopDetachedReturn => exact { h with }
  | @source l source hadmits hsource =>
      refine { h with called := fun r' hr' => ?_ }
      cases StopToken.step_move hsource with
      | @win r | @lose r | @finish r | @pop r | @run r | @ran r =>
          rcases eq_or_ne r' r with rfl | hne
          · exact hprogress rfl
          · exact h.called r' (by simpa [hne] using hr')
      | enterRegister | register | refuse | invoke | invoked | unregister => exact h.called r' hr'

/-! ### The invariant -/

/-- The calls in progress, the callbacks in the list and the one being registered belong to the
operation in the storage. -/
structure Held (s : State κ ρ) : Prop where
  inProgress : ∀ r, s.InProgress r → s.slot.live = some r.1
  listed : ∀ cb ∈ s.source.source.callbacks, s.slot.live = some cb.1
  popped : ∀ r cb, s.source.calls r = .popped cb → cb.1 = r.1
  registering : ∀ cb b, s.source.mutex = some (cb, b) → s.slot.live = some cb.1

omit [DecidableEq κ] [DecidableEq ρ] in
theorem held_init : Held (State.init : State κ ρ) := by
  constructor <;>
    simp [State.init, State.InProgress, StopToken.State.init, StopToken.Source.init]

omit [DecidableEq κ] [DecidableEq ρ] in
/-- A step of the allocator, of `start` or of `die` that leaves the operation where it is. -/
theorem Held.setSlot {slot : Slot} (h : Held s) (hlive : slot.live = s.slot.live) :
    Held { s with slot := slot } := by
  constructor
  · exact fun r hr => hlive.trans (h.inProgress r hr)
  · exact fun cb hcb => hlive.trans (h.listed cb hcb)
  · exact h.popped
  · exact fun cb b hm => hlive.trans (h.registering cb b hm)

theorem Slot.live_of_stopSourceFor {slot : Slot} (h : slot.stopSourceFor = some op) :
    slot.live = some op := by
  cases slot <;> simp_all [Slot.stopSourceFor, Slot.live]

omit [DecidableEq κ] in
theorem Held.call {uniq : List (ℕ × ρ)} (h : Held s) (hlive : s.slot.live = some r.1) :
    Held { s.call r with uniq := uniq } := by
  refine { h with inProgress := fun r' hr' => ?_ }
  rcases eq_or_ne r' r with rfl | hne
  · exact hlive
  · exact h.inProgress r' (by simpa [State.InProgress, State.call, hne] using hr')

omit [DecidableEq κ] in
/-- A call of `request_stop` takes a step; what it has popped then is its own. -/
theorem Held.setCall {c : StopToken.Call (ℕ × κ)} (h : Held s) (hr : s.InProgress r)
    (hc : ∀ cb, c = .popped cb → cb.1 = r.1) :
    Held { s with source := s.source.setCall r c } := by
  refine { h with inProgress := fun r' hr' => ?_, popped := fun r' cb hr' => ?_ }
  · rcases eq_or_ne r' r with rfl | hne
    · exact h.inProgress r' hr
    · exact h.inProgress r' (by simpa [State.InProgress, hne] using hr')
  · rcases eq_or_ne r' r with rfl | hne
    · exact hc cb (by simpa using hr')
    · exact h.popped r' cb (by simpa [hne] using hr')

omit [DecidableEq κ] [DecidableEq ρ] in
/-- A step of a callback, after which the list and the mutex hold nothing foreign. -/
theorem Held.callback {source : StopToken.State (ℕ × κ) (ℕ × ρ)} (h : Held s)
    (hcalls : source.calls = s.source.calls)
    (hlisted : ∀ cb ∈ source.source.callbacks, s.slot.live = some cb.1)
    (hreg : ∀ cb b, source.mutex = some (cb, b) → s.slot.live = some cb.1) :
    Held { s with source := source } where
  inProgress := fun r hr => h.inProgress r (by simpa only [State.InProgress, hcalls] using hr)
  listed := hlisted
  popped := fun r cb hr => h.popped r cb (by simpa only [hcalls] using hr)
  registering := hreg

theorem Held.source_step {l : StopToken.Label (ℕ × κ) (ℕ × ρ)}
    {source : StopToken.State (ℕ × κ) (ℕ × ρ)} (h : Held s) (hadmits : s.admits l = true)
    (hs : StopToken.step s.source l = some source)
    (hprogress : ∀ r, (Label.source l).requestOf = some r → s.InProgress r) :
    Held { s with source := source } ∧ Aimed s (.source l) := by
  cases StopToken.step_move hs with
  | @win r hr =>
      have h' : Held { s with source := s.source.setCall r .draining } :=
        h.setCall (hprogress r rfl) (by simp)
      exact ⟨{ h' with }, h.inProgress r (hprogress r rfl)⟩
  | @lose r hr =>
      exact ⟨h.setCall (hprogress r rfl) (by simp), h.inProgress r (hprogress r rfl)⟩
  | @finish r hr =>
      exact ⟨h.setCall (hprogress r rfl) (by simp), h.inProgress r (hprogress r rfl)⟩
  | @pop r cb cbs hr _ hcbs =>
      have hlive := h.inProgress r (hprogress r rfl)
      have hcb : cb.1 = r.1 :=
        Option.some.inj ((h.listed cb (by simp [hcbs])).symm.trans hlive)
      have h' : Held { s with source := s.source.popFront cb } :=
        h.callback rfl (fun cb' hmem => h.listed cb' (List.mem_of_mem_tail hmem)) h.registering
      exact ⟨h'.setCall (hprogress r rfl) (by simpa using hcb), hlive, hcb⟩
  | @run r cb hr =>
      exact ⟨h.setCall (hprogress r rfl) (by simp), h.inProgress r (hprogress r rfl),
        h.popped r cb hr⟩
  | @ran r cb hr => exact ⟨h.setCall (hprogress r rfl) (by simp), True.intro⟩
  | @enterRegister cb =>
      have hcb : s.slot.live = some cb.1 := by simpa [State.admits] using hadmits
      refine ⟨h.callback rfl h.listed fun cb' b hm => ?_, True.intro⟩
      obtain ⟨rfl, -⟩ : cb = cb' ∧ s.source.source.requested = b := by simpa using hm
      exact hcb
  | @register cb hm =>
      refine ⟨h.callback rfl (fun cb' hmem => ?_) (by simp), True.intro⟩
      rcases List.mem_append.mp hmem with hold | hnew
      · exact h.listed cb' hold
      · obtain rfl : cb' = cb := by simpa using hnew
        exact h.registering cb' false hm
  | refuse => exact ⟨h.callback rfl h.listed (by simp), True.intro⟩
  | invoke | invoked => exact ⟨h.callback rfl h.listed h.registering, True.intro⟩
  | @unregister cb =>
      refine ⟨h.callback rfl (fun cb' hmem => ?_) h.registering, True.intro⟩
      exact h.listed cb' (StopToken.mem_of_mem_unregister hmem)

theorem Held.step (h : Held s) (hnum : Numbered s) (hquiet : Quiet s l) (hs : step s l = some s') :
    Held s' ∧ Aimed s l := by
  have hprogress {r : ℕ × ρ} (hl : l.requestOf = some r) : s.InProgress r := hnum.inProgress hs hl
  cases step_move hs with
  | construct hslot => exact ⟨h.setSlot (by simp [hslot, Slot.live]), True.intro⟩
  | constructFail | stopDetachedNull => exact ⟨h, True.intro⟩
  | constructAt hslot =>
      -- There is no operation, so nobody is at work on the source.
      have hnone {op : ℕ} : s.slot.live ≠ some op := by simp [hslot, Slot.live]
      refine ⟨⟨fun r hr => absurd (h.inProgress r hr) hnone, by simp [StopToken.Source.init],
        h.popped, fun cb b hm => absurd (h.registering cb b hm) hnone⟩, True.intro⟩
  | setStopSource hslot | die hslot => exact ⟨h.setSlot (by simp [hslot, Slot.live]), True.intro⟩
  | @destroyAt op hslot hcbs =>
      refine ⟨⟨fun r hr => absurd hr (hquiet.1 r.1 (h.inProgress r hr) r.2), by simp [hcbs],
        h.popped, fun cb b hm => ?_⟩, True.intro⟩
      exact absurd (hquiet.2.symm.trans hm) (by simp)
  | deallocate hslot => exact ⟨h.setSlot (by simp [hslot, Slot.live]), True.intro⟩
  | requestStop hlive => exact ⟨h.call hlive, True.intro⟩
  | stopDetached hsource => exact ⟨h.call (Slot.live_of_stopSourceFor hsource), True.intro⟩
  | stopDetachedReturn => exact ⟨{ h with }, True.intro⟩
  | source hadmits hsource => exact h.source_step hadmits hsource fun _ => hprogress

theorem numbered_of_run (h : Run step State.init tr s) : Numbered s :=
  Run.induction (P := fun _ s => Numbered s) numbered_init (fun _ _ _ _ _ ih => ih.step) h

/-! ### The result -/

/-- When no operation is destroyed during a call of `request_stop` on its source or the
registration of a callback, no call leaves the source it was aimed at, and none pops or runs
a callback of another operation. -/
theorem aimed_of_run (h : Run step State.init tr s) (hquiet : EachStep step Quiet State.init tr) :
    EachStep step Aimed State.init tr := by
  refine (Run.induction_of_eachStep (C := Quiet)
    (P := fun tr s => EachStep step Aimed State.init tr ∧ Held s) ⟨True.intro, held_init⟩ ?_
    h hquiet).1
  intro tr s l s' hr ih hquiet hs
  obtain ⟨hheld, haimed⟩ := ih.2.step (numbered_of_run hr) hquiet hs
  exact ⟨ih.1.concat hr haimed, hheld⟩

def starts (op : ℕ) : List (Label (Fin 1) (Fin 1)) :=
  [.construct true, .constructAt, .setStopSource, .source (.enterRegister (op, 0)),
    .source (.leaveRegister (op, 0) true)]

def completes (op : ℕ) : List (Label (Fin 1) (Fin 1)) :=
  [.source (.unregister (op, 0) false), .die, .destroyAt, .deallocate]

/-- Operation 0 is stopped and ends afterwards; operation 1 is stopped by `stop_detached`. -/
def oneAfterTheOther : List (Label (Fin 1) (Fin 1)) :=
  starts 0 ++ [.requestStop (0, 0), .source (.exchange (0, 0)),
    .source (.getNextCb (0, 0) (some (0, 0))), .source (.run (0, 0) (0, 0)),
    .source (.ran (0, 0) (0, 0)), .source (.getNextCb (0, 0) none)] ++ completes 0 ++ starts 1 ++
  [.stopDetached (some (1, 0)), .source (.exchange (1, 0)),
    .source (.getNextCb (1, 0) (some (1, 0))), .source (.run (1, 0) (1, 0)),
    .source (.ran (1, 0) (1, 0)), .source (.getNextCb (1, 0) none), .stopDetachedReturn (1, 0)]

theorem aimed_of_run_oneAfterTheOther :
    (∃ s, Run step State.init oneAfterTheOther s) ∧
      EachStep step Aimed State.init oneAfterTheOther := by
  obtain ⟨s, hs⟩ : ∃ s, Run step State.init oneAfterTheOther s := exists_run_iff.mpr rfl
  exact ⟨⟨s, hs⟩, aimed_of_run hs (by decide)⟩

/-- The callback of operation 0 completes it inline, operation 1 is started in its place, and
the call of `request_stop` on the source of operation 0 goes on. -/
def inlineCompletion : List (Label (Fin 1) (Fin 1)) :=
  starts 0 ++ [.requestStop (0, 0), .source (.exchange (0, 0)),
    .source (.getNextCb (0, 0) (some (0, 0))), .source (.run (0, 0) (0, 0))] ++ completes 0 ++
  starts 1 ++ [.source (.ran (0, 0) (0, 0)), .source (.getNextCb (0, 0) (some (1, 0)))]

theorem not_aimed_inlineCompletion :
    ¬ ∀ (tr : List (Label (Fin 1) (Fin 1))) (s : State (Fin 1) (Fin 1)),
      Run step State.init tr s → EachStep step Aimed State.init tr := by
  intro hevery
  obtain ⟨s, hs⟩ : ∃ s, Run step State.init inlineCompletion s := exists_run_iff.mpr rfl
  exact absurd (hevery _ s hs) (by decide)

/-! ### The condition is exact -/

/-- From `s` on no call of `request_stop` on the source of the operation takes a step. -/
def Untouched (s : State κ ρ) (op : ℕ) : Prop :=
  ∀ tr s', Run step s tr s' → ∀ l ∈ tr, ∀ r, l.requestOf = some r → r.1 ≠ op

/-- The operation is gone, and so are the calls on its source. -/
structure Left (op : ℕ) (s : State κ ρ) : Prop where
  quiet : ∀ r, s.InProgress r → r.1 ≠ op
  absent : s.slot.live ≠ some op
  past : op < s.constructed

omit [DecidableEq κ] [DecidableEq ρ] in
theorem Left.setSlot {slot : Slot} (h : Left op s)
    (hlive : ∀ op, slot.live = some op → s.slot.live = some op) :
    Left op { s with slot := slot } :=
  { h with absent := fun e => h.absent (hlive op e) }

omit [DecidableEq κ] in
theorem Left.call {uniq : List (ℕ × ρ)} (h : Left op s) (hlive : s.slot.live = some r.1) :
    Left op { s.call r with uniq := uniq } := by
  refine { h with quiet := fun r' hr' => ?_ }
  rcases eq_or_ne r' r with rfl | hne
  · exact fun e => h.absent (e ▸ hlive)
  · exact h.quiet r' (by simpa [State.InProgress, State.call, hne] using hr')

theorem Left.step (h : Left op s) (hnum : Numbered s) (hs : step s l = some s') :
    Left op s' := by
  have hprogress {r : ℕ × ρ} (hl : l.requestOf = some r) : s.InProgress r := hnum.inProgress hs hl
  cases step_move hs with
  | construct hslot | deallocate hslot => exact h.setSlot (by simp [Slot.live])
  | constructFail | stopDetachedNull => exact h
  | constructAt =>
      refine ⟨h.quiet, ?_, Nat.lt_succ_of_lt h.past⟩
      have hnew : s.constructed ≠ op := h.past.ne'
      simpa [Slot.live] using hnew
  | setStopSource hslot | die hslot | destroyAt hslot =>
      exact h.setSlot (by simp [hslot, Slot.live])
  | requestStop hlive => exact h.call hlive
  | stopDetached hsource => exact h.call (Slot.live_of_stopSourceFor hsource)
  | stopDetachedReturn => exact { h with }
  | @source l source hadmits hsource =>
      -- A call that is in progress after its step was so before.
      refine { h with quiet := fun r' hr' => ?_ }
      cases StopToken.step_move hsource with
      | @win r | @lose r | @finish r | @pop r | @run r | @ran r =>
          rcases eq_or_ne r' r with rfl | hne
          · exact h.quiet r' (hprogress rfl)
          · exact h.quiet r' (by simpa [State.InProgress, hne] using hr')
      | enterRegister | register | refuse | invoke | invoked | unregister => exact h.quiet r' hr'

theorem Left.untouched (h : Left op s) (hnum : Numbered s) : Untouched s op := by
  intro tr s' hr
  refine Run.forall_mem (I := fun s => Left op s ∧ Numbered s)
    (P := fun l => ∀ r, l.requestOf = some r → r.1 ≠ op) ⟨h, hnum⟩ (fun s l s' hinv hs => ?_) hr
  obtain ⟨hleft, hnum⟩ := hinv
  exact ⟨⟨hleft.step hnum hs, hnum.step hs⟩, fun r hl => hleft.quiet r (hnum.inProgress hs hl)⟩

/-- After an operation has been destroyed the calls of `request_stop` leave its source alone
exactly when none was in progress then. -/
theorem untouched_iff (h : Run step State.init tr s) (hop : s.slot.live = some op)
    (hm : s.source.mutex = none) (hs : step s .destroyAt = some s') :
    Untouched s' op ↔ ∀ k, ¬ s.InProgress (op, k) := by
  have hnum := numbered_of_run h
  constructor
  · intro huntouched k hk
    cases step_move hs with
    | destroyAt =>
        obtain ⟨l, s'', hl, hlk⟩ := exists_step_of_inProgress (s := { s with slot := .destroyed })
          (r := (op, k)) hk hm
        have hrun : Run step { s with slot := .destroyed } [l] s'' := by simpa using hl
        exact huntouched [l] s'' hrun l (by simp) (op, k) hlk rfl
  · intro hquiet
    cases step_move hs with
    | destroyAt =>
        have hleft : Left op { s with slot := .destroyed } := by
          refine ⟨fun r hr e => ?_, by simp [Slot.live], hnum.fresh op hop⟩
          exact hquiet r.2 (e ▸ hr)
        exact hleft.untouched (hnum.step hs)

end BaremetalSenders.Detached
