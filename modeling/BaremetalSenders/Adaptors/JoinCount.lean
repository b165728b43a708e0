import BaremetalSenders.Adaptors.Join
import BaremetalSenders.Foundation.Countdown
import Mathlib.Data.List.Nodup
import Mathlib.Data.List.FinRange

/-!
Exactly one completion, and not too early.

`Move` lists what a step can do, with everything it has checked. From it the
invariant `Counted` follows for every operation state that is given by `Ops`:
`count` is the number of the children that have not been counted, the one that
brings it to zero is alone in `complete`, and the receiver gets nothing before.
The second invariant, `Recorded`, says which completion a child is in by what
was observed.
-/

namespace BaremetalSenders.Join

variable {n : ℕ} {V E D : Type*} {ops : Ops n V E D}

inductive Move (ops : Ops n V E D) (s : State n V E D) : Label n V E → State n V E D → Prop
  | rcvrRequestStop (hreq : s.rcvrRequested = false) :
      Move ops s .rcvrRequestStop { s with rcvrRequested := true }
  | popStopCb (hreq : s.rcvrRequested = true) (hcb : s.stopCb = .registered) :
      Move ops s .popStopCb { s with stopCb := .popped }
  | runStopCb (hcb : s.stopCb = .popped ∨ s.stopCb = .refused) :
      Move ops s .runStopCb { s with stopCb := .spent, requested := true }
  | emplaceStopCb (hsource : ops.hasStopSource = true) (hpc : s.pc = .unstarted) :
      Move ops s (.emplaceStopCb (!s.rcvrRequested)) { s with
        pc := .stopCbEmplaced
        stopCb := if s.rcvrRequested then .refused else .registered }
  | startStopped (hpc : s.pc = .stopCbEmplaced) (hcb : s.stopCb ≠ .refused)
      (hreq : s.requested = true) :
      Move ops s .startStopped { s with pc := .stopped, received := s.received ++ [.stopped] }
  | startChildren (hstart : ops.mayStart s = true) :
      Move ops s .startChildren { s with pc := .starting 0, count := n }
  | startChild {i : Fin n} (hpc : s.pc = .starting i) :
      Move ops s (.startChild i) { s.setPhase i .running with pc := .starting (i + 1) }
  | complete {i : Fin n} {c : Completion V E} (hphase : s.phase i = .running)
      (hc : ops.admits i c = true) :
      Move ops s (.complete i c) { s.setPhase i (.completing c (ops.rest i c s.data)) with
        data := ops.store i c s.data }
  | act {i : Fin n} {c : Completion V E} {a : Action D} {as : List (Action D)}
      (hphase : s.phase i = .completing c (a :: as)) :
      Move ops s (.act i) ((s.apply a).setPhase i (.completing c as))
  | arrive {i : Fin n} {c : Completion V E} (hphase : s.phase i = .completing c [])
      (hc : ops.arrives c = true) (hcount : s.count - 1 ≠ 0) :
      Move ops s (.leave i) { s.setPhase i (.done c) with count := s.count - 1 }
  | arriveLast {i : Fin n} {c : Completion V E} (hphase : s.phase i = .completing c [])
      (hc : ops.arrives c = true) (hcount : s.count - 1 = 0) :
      Move ops s (.leave i) { s.setPhase i (.deciding c (!ops.hasStopSource)) with
        count := s.count - 1 }
  | ignore {i : Fin n} {c : Completion V E} (hphase : s.phase i = .completing c [])
      (hc : ops.arrives c = false) :
      Move ops s (.leave i) (s.setPhase i (.ignored c))
  | resetStopCb {i : Fin n} {c : Completion V E} (hphase : s.phase i = .deciding c false) :
      Move ops s (.resetStopCb i) { s.setPhase i (.deciding c true) with
        stopCb := if s.stopCb = .registered then .absent else s.stopCb }
  | finish {i : Fin n} {c : Completion V E} (hphase : s.phase i = .deciding c true) :
      Move ops s (.finish i) { s.setPhase i (.finished c) with
        received := s.received ++ (ops.outcome s.rcvrRequested s.requested s.data).toList }

theorem step_move {s s' : State n V E D} {l : Label n V E} (h : step ops s l = some s') :
    Move ops s l s' := by
  cases l with
  | rcvrRequestStop =>
      simp only [step] at h
      split at h <;> cases h
      next hreq => exact .rcvrRequestStop (by simpa using hreq)
  | popStopCb =>
      simp only [step] at h
      split at h <;> cases h
      next hc => exact .popStopCb hc.1 hc.2
  | runStopCb =>
      simp only [step] at h
      split at h <;> cases h
      next hc => exact .runStopCb hc
  | emplaceStopCb registered =>
      simp only [step] at h
      split at h <;> cases h
      next hc =>
        obtain ⟨hsource, hpc, rfl⟩ := hc
        cases hreq : s.rcvrRequested <;> simpa [hreq] using Move.emplaceStopCb hsource hpc
  | startStopped =>
      simp only [step] at h
      split at h <;> cases h
      next hc => exact .startStopped hc.1 hc.2.1 hc.2.2
  | startChildren =>
      simp only [step] at h
      split at h <;> cases h
      next hc => exact .startChildren hc
  | startChild i =>
      simp only [step] at h
      split at h <;> cases h
      next hc => exact .startChild hc
  | complete i c =>
      simp only [step] at h
      split at h
      next hphase =>
        split at h <;> cases h
        next hc => exact .complete hphase hc
      next => cases h
  | act i =>
      simp only [step] at h
      split at h <;> cases h
      next hphase => exact .act hphase
  | leave i =>
      simp only [step] at h
      split at h
      next c hphase =>
        split at h <;> cases h
        next hc =>
          by_cases hcount : s.count - 1 = 0
          · simpa only [if_pos hcount] using Move.arriveLast hphase hc hcount
          · simpa only [if_neg hcount] using Move.arrive hphase hc hcount
        next hc => exact .ignore hphase (by simpa using hc)
      next => cases h
  | resetStopCb i =>
      simp only [step] at h
      split at h <;> cases h
      next hphase => exact .resetStopCb hphase
  | finish i =>
      simp only [step] at h
      split at h <;> cases h
      next hphase => exact .finish hphase

/-! ### The counter -/

namespace Phase

def isIdle : Phase V E D → Bool
  | .idle => true
  | _ => false

/-- The child has decremented `count`. -/
def arrived : Phase V E D → Bool
  | .done _ | .deciding _ _ | .finished _ => true
  | _ => false

/-- The child has brought `count` to zero. -/
def isLast : Phase V E D → Bool
  | .deciding _ _ | .finished _ => true
  | _ => false

/-- The child is back from `complete`. -/
def isFinished : Phase V E D → Bool
  | .finished _ => true
  | _ => false

end Phase

/-- The number of children started. -/
def StartPc.started : StartPc → ℕ
  | .starting k => k
  | _ => 0

structure Counted (s : State n V E D) : Prop where
  idle_iff : ∀ i, (s.phase i).isIdle = true ↔ s.pc.started ≤ i
  count : ∀ k, s.pc = .starting k → s.count = remaining Phase.arrived s.phase
  last_unique : ∀ i j, (s.phase i).isLast = true → (s.phase j).isLast = true → i = j
  last_iff : ∀ k, s.pc = .starting k → (s.count = 0 ↔ ∃ i, (s.phase i).isLast = true)
  received_stopped : s.pc = .stopped → s.received = [.stopped]
  received_nil : s.pc ≠ .stopped → (∀ i, (s.phase i).isFinished = false) → s.received = []
  received_le : s.received.length ≤ 1

theorem counted_init (ops : Ops n V E D) : Counted ops.initial where
  idle_iff := by simp [Ops.initial, Phase.isIdle, StartPc.started]
  count := by simp [Ops.initial]
  last_unique := by simp [Ops.initial, Phase.isLast]
  last_iff := by simp [Ops.initial]
  received_stopped := by simp [Ops.initial]
  received_nil := by simp [Ops.initial]
  received_le := by simp [Ops.initial]

section Counted

variable {s s' : State n V E D} {i : Fin n} {p : Phase V E D}

/-- A child that is somewhere between its start and its arrival is not idle. -/
theorem Counted.starting_of_not_idle (h : Counted s) (hi : (s.phase i).isIdle = false) :
    ∃ k, s.pc = .starting k ∧ i < k := by
  have hlt : ¬ s.pc.started ≤ i := fun hle => by simp [(h.idle_iff i).mpr hle] at hi
  cases hpc : s.pc with
  | starting k => exact ⟨k, rfl, by simpa [hpc, StartPc.started] using hlt⟩
  | unstarted | stopCbEmplaced | stopped => simp [hpc, StartPc.started] at hlt

/-- The counter does not see the steps of a child between its start and its arrival, or
inside `complete`. -/
theorem Counted.of_phase (h : Counted s) (hphase : s'.phase = Function.update s.phase i p)
    (hpc : s'.pc = s.pc) (hcount : s'.count = s.count) (hreceived : s'.received = s.received)
    (hidle : p.isIdle = (s.phase i).isIdle) (harrived : p.arrived = (s.phase i).arrived)
    (hlast : p.isLast = (s.phase i).isLast) (hfin : p.isFinished = (s.phase i).isFinished) :
    Counted s' := by
  have hsame (f : Phase V E D → Bool) (hf : f p = f (s.phase i)) (j : Fin n) :
      f (s'.phase j) = f (s.phase j) := by rw [hphase, view_update hf]
  refine ⟨?_, ?_, ?_, ?_, ?_, ?_, ?_⟩
  · intro j
    rw [hsame _ hidle, hpc]
    exact h.idle_iff j
  · intro k hk
    rw [hcount, hphase, remaining_update harrived]
    exact h.count k (hpc ▸ hk)
  · intro j k hj hk
    rw [hsame _ hlast] at hj hk
    exact h.last_unique j k hj hk
  · intro k hk
    simp only [hcount, hsame _ hlast]
    exact h.last_iff k (hpc ▸ hk)
  · rw [hpc, hreceived]
    exact h.received_stopped
  · simp only [hpc, hreceived, hsame _ hfin]
    exact h.received_nil
  · rw [hreceived]
    exact h.received_le

theorem Counted.count_pos (h : Counted s) (hidle : (s.phase i).isIdle = false)
    (harrived : (s.phase i).arrived = false) : s.count ≠ 0 := by
  obtain ⟨k, hk, -⟩ := h.starting_of_not_idle hidle
  rw [h.count k hk]
  intro hzero
  simp [remaining_eq_zero.mp hzero i] at harrived

/-- Nobody is in `complete` while there are children to be counted. -/
theorem Counted.not_last (h : Counted s) {k : ℕ} (hk : s.pc = .starting k) (hcount : s.count ≠ 0)
    (j : Fin n) : (s.phase j).isLast = false := by
  by_contra hj
  exact hcount ((h.last_iff k hk).mpr ⟨j, by simpa using hj⟩)

/-- As long as `start` has not come to the children they are idle. -/
theorem Counted.idle_of_not_started (h : Counted s) (hpc : s.pc.started = 0) (j : Fin n) :
    s.phase j = .idle := by
  have hj : (s.phase j).isIdle = true := (h.idle_iff j).mpr (by omega)
  cases hp : s.phase j <;> simp_all [Phase.isIdle]

theorem pc_of_mayStart (h : ops.mayStart s = true) :
    s.pc = .unstarted ∨ s.pc = .stopCbEmplaced := by
  unfold Ops.mayStart at h
  split at h
  · simp only [Bool.and_eq_true, beq_iff_eq] at h
    exact .inr h.1.1
  · exact .inl (by simpa using h)

theorem Counted.startStopped (h : Counted s) (hpc : s.pc = .stopCbEmplaced) :
    Counted { s with pc := .stopped, received := s.received ++ [.stopped] } := by
  have hidle := h.idle_of_not_started (by rw [hpc]; rfl)
  have hnil : s.received = [] :=
    h.received_nil (by simp [hpc]) fun j => by simp [hidle j, Phase.isFinished]
  refine ⟨?_, by simp, h.last_unique, by simp, by simp [hnil], by simp, by simp [hnil]⟩
  intro j
  simp [hidle j, Phase.isIdle, StartPc.started]

theorem Counted.startChildren (h : Counted s) (hn : 0 < n) (hstart : ops.mayStart s = true) :
    Counted { s with pc := .starting 0, count := n } := by
  have hpc : s.pc.started = 0 ∧ s.pc ≠ .stopped := by
    rcases pc_of_mayStart hstart with hpc | hpc <;> simp [hpc, StartPc.started]
  have hidle := h.idle_of_not_started hpc.1
  have hnil : s.received = [] :=
    h.received_nil hpc.2 fun j => by simp [hidle j, Phase.isFinished]
  refine ⟨?_, ?_, h.last_unique, ?_, by simp, by simp [hnil], h.received_le⟩
  · intro j
    simp [hidle j, Phase.isIdle, StartPc.started]
  · intro k _
    have hall : remaining Phase.arrived s.phase = Fintype.card (Fin n) :=
      remaining_of_none_arrived fun j => by simp [hidle j, Phase.arrived]
    simpa using hall.symm
  · intro k _
    simp [hidle, Phase.isLast, hn.ne']

theorem Counted.idle_of_next (h : Counted s) (hpc : s.pc = .starting i) : s.phase i = .idle := by
  have hi : (s.phase i).isIdle = true := (h.idle_iff i).mpr (by simp [hpc, StartPc.started])
  cases hp : s.phase i <;> simp_all [Phase.isIdle]

theorem Counted.startChild (h : Counted s) (hpc : s.pc = .starting i) :
    Counted { s.setPhase i .running with pc := .starting (i + 1) } := by
  have hi := h.idle_of_next hpc
  have hlast (j : Fin n) : ((s.setPhase i .running).phase j).isLast = (s.phase j).isLast :=
    view_update (by simp [hi, Phase.isLast]) j
  have hfin (j : Fin n) : ((s.setPhase i .running).phase j).isFinished = (s.phase j).isFinished :=
    view_update (by simp [hi, Phase.isFinished]) j
  refine ⟨?_, ?_, ?_, ?_, by simp, ?_, h.received_le⟩
  · intro j
    rcases eq_or_ne j i with rfl | hne
    · simp [State.setPhase, Phase.isIdle, StartPc.started]
    · have hj := h.idle_iff j
      have hval : (j : ℕ) ≠ i := fun e => hne (Fin.ext e)
      simp only [hpc, StartPc.started] at hj
      simp only [State.setPhase, Function.update_of_ne hne, hj, StartPc.started]
      omega
  · intro k _
    have hupdate : remaining Phase.arrived (Function.update s.phase i .running) =
        remaining Phase.arrived s.phase := remaining_update (by simp [hi, Phase.arrived])
    exact (h.count _ hpc).trans hupdate.symm
  · intro j k hj hk
    exact h.last_unique j k (hlast j ▸ hj) (hlast k ▸ hk)
  · intro k _
    simp only [hlast]
    exact h.last_iff _ hpc
  · intro _ hnone
    exact h.received_nil (by simp [hpc]) fun j => hfin j ▸ hnone j

theorem Counted.remaining_arrive (h : Counted s) {k : ℕ} (hk : s.pc = .starting k)
    (hi : (s.phase i).arrived = false) (hp : p.arrived = true) :
    remaining Phase.arrived (Function.update s.phase i p) = s.count - 1 := by
  have hdown := BaremetalSenders.remaining_arrive hp hi
  rw [← h.count k hk] at hdown
  omega

/-- A child arrives and is not the last one. -/
theorem Counted.arrive {c : Completion V E} (h : Counted s)
    (hphase : s.phase i = .completing c []) (hcount : s.count - 1 ≠ 0) :
    Counted { s.setPhase i (.done c) with count := s.count - 1 } := by
  obtain ⟨k, hk, -⟩ := h.starting_of_not_idle (i := i) (by simp [hphase, Phase.isIdle])
  have hidle (j : Fin n) : ((s.setPhase i (.done c)).phase j).isIdle = (s.phase j).isIdle :=
    view_update (by simp [hphase, Phase.isIdle]) j
  have hlast (j : Fin n) : ((s.setPhase i (.done c)).phase j).isLast = (s.phase j).isLast :=
    view_update (by simp [hphase, Phase.isLast]) j
  have hfin (j : Fin n) : ((s.setPhase i (.done c)).phase j).isFinished = (s.phase j).isFinished :=
    view_update (by simp [hphase, Phase.isFinished]) j
  refine ⟨?_, ?_, ?_, ?_, h.received_stopped, ?_, h.received_le⟩
  · intro j
    simp only [hidle]
    exact h.idle_iff j
  · intro _ _
    exact (h.remaining_arrive hk (by simp [hphase, Phase.arrived]) rfl).symm
  · intro j j' hj hj'
    exact h.last_unique j j' (hlast j ▸ hj) (hlast j' ▸ hj')
  · intro _ _
    simp only [hlast, h.not_last hk (by omega : s.count ≠ 0), hcount, Bool.false_eq_true,
      exists_false]
  · intro hpc hnone
    exact h.received_nil hpc fun j => hfin j ▸ hnone j

/-- The last child arrives, and is alone in `complete`. -/
theorem Counted.arriveLast {c : Completion V E} {b : Bool} (h : Counted s)
    (hphase : s.phase i = .completing c []) (hcount : s.count - 1 = 0) :
    Counted { s.setPhase i (.deciding c b) with count := s.count - 1 } := by
  have hi : (s.phase i).isIdle = false := by simp [hphase, Phase.isIdle]
  have hpos : s.count ≠ 0 := h.count_pos hi (by simp [hphase, Phase.arrived])
  obtain ⟨k, hk, -⟩ := h.starting_of_not_idle hi
  have hnone := h.not_last hk hpos
  have hidle (j : Fin n) : ((s.setPhase i (.deciding c b)).phase j).isIdle = (s.phase j).isIdle :=
    view_update (by simp [hphase, Phase.isIdle]) j
  have hfin (j : Fin n) :
      ((s.setPhase i (.deciding c b)).phase j).isFinished = (s.phase j).isFinished :=
    view_update (by simp [hphase, Phase.isFinished]) j
  have hlast (j : Fin n) : ((s.setPhase i (.deciding c b)).phase j).isLast = true ↔ j = i := by
    rcases eq_or_ne j i with rfl | hne
    · simp [State.setPhase, Phase.isLast]
    · simp [State.setPhase, hne, hnone]
  refine ⟨?_, ?_, ?_, ?_, h.received_stopped, ?_, h.received_le⟩
  · intro j
    simp only [hidle]
    exact h.idle_iff j
  · intro _ _
    exact (h.remaining_arrive hk (by simp [hphase, Phase.arrived]) rfl).symm
  · intro j j' hj hj'
    exact ((hlast j).mp hj).trans ((hlast j').mp hj').symm
  · intro _ _
    simp only [hlast, hcount, exists_eq]
  · intro hpc hnone
    exact h.received_nil hpc fun j => hfin j ▸ hnone j

/-- Before the child that decides has completed the receiver, nobody has. -/
theorem Counted.received_of_deciding {c : Completion V E} {b : Bool} (h : Counted s)
    (hphase : s.phase i = .deciding c b) : s.received = [] := by
  obtain ⟨k, hk, -⟩ := h.starting_of_not_idle (i := i) (by simp [hphase, Phase.isIdle])
  refine h.received_nil (by simp [hk]) fun j => ?_
  rcases eq_or_ne j i with rfl | hne
  · simp [hphase, Phase.isFinished]
  · by_contra hj
    refine hne (h.last_unique j i ?_ (by simp [hphase, Phase.isLast]))
    cases hp : s.phase j <;> simp_all [Phase.isFinished, Phase.isLast]

theorem Counted.finish {c : Completion V E} (h : Counted s) (hphase : s.phase i = .deciding c true)
    (o : Option (Completion V E)) :
    Counted { s.setPhase i (.finished c) with received := s.received ++ o.toList } := by
  have hnil := h.received_of_deciding hphase
  obtain ⟨k, hk, -⟩ := h.starting_of_not_idle (i := i) (by simp [hphase, Phase.isIdle])
  have hidle (j : Fin n) : ((s.setPhase i (.finished c)).phase j).isIdle = (s.phase j).isIdle :=
    view_update (by simp [hphase, Phase.isIdle]) j
  have hlast (j : Fin n) : ((s.setPhase i (.finished c)).phase j).isLast = (s.phase j).isLast :=
    view_update (by simp [hphase, Phase.isLast]) j
  refine ⟨?_, ?_, ?_, ?_, ?_, ?_, ?_⟩
  · intro j
    simp only [hidle]
    exact h.idle_iff j
  · intro k hk
    exact (h.count k hk).trans (remaining_update (by simp [hphase, Phase.arrived])).symm
  · intro j j' hj hj'
    exact h.last_unique j j' (hlast j ▸ hj) (hlast j' ▸ hj')
  · intro k hk
    simp only [hlast]
    exact h.last_iff k hk
  · intro hpc
    exact absurd (hpc.symm.trans hk) (by simp)
  · intro _ hnone
    simpa [State.setPhase, Phase.isFinished] using hnone i
  · cases o <;> simp [hnil]

theorem Counted.step {l : Label n V E} (h : Counted s) (hn : 0 < n)
    (hs : step ops s l = some s') : Counted s' := by
  cases step_move hs with
  | rcvrRequestStop | popStopCb | runStopCb => exact { h with }
  | emplaceStopCb hsource hpc =>
      have hidle := h.idle_of_not_started (by rw [hpc]; rfl)
      have hnil := h.received_nil (by simp [hpc]) fun j => by simp [hidle j, Phase.isFinished]
      exact { h with
        idle_iff := fun j => by simp [hidle j, Phase.isIdle, StartPc.started]
        count := by simp
        last_iff := by simp
        received_stopped := by simp
        received_nil := fun _ _ => hnil }
  | startStopped hpc => exact h.startStopped hpc
  | startChildren hstart => exact h.startChildren hn hstart
  | startChild hpc => exact h.startChild hpc
  | complete hphase =>
      exact h.of_phase rfl rfl rfl rfl (by rw [hphase]; rfl) (by rw [hphase]; rfl)
        (by rw [hphase]; rfl) (by rw [hphase]; rfl)
  | @act i c a as hphase =>
      cases a with
      | update | requestStop =>
          exact h.of_phase rfl rfl rfl rfl (by rw [hphase]; rfl) (by rw [hphase]; rfl)
            (by rw [hphase]; rfl) (by rw [hphase]; rfl)
  | arrive hphase _ hcount => exact h.arrive hphase hcount
  | arriveLast hphase _ hcount => exact h.arriveLast hphase hcount
  | ignore hphase =>
      exact h.of_phase rfl rfl rfl rfl (by rw [hphase]; rfl) (by rw [hphase]; rfl)
        (by rw [hphase]; rfl) (by rw [hphase]; rfl)
  | resetStopCb hphase =>
      exact h.of_phase rfl rfl rfl rfl (by rw [hphase]; rfl) (by rw [hphase]; rfl)
        (by rw [hphase]; rfl) (by rw [hphase]; rfl)
  | finish hphase => exact h.finish hphase _

/-- A child is idle until it is started. -/
theorem isIdle_step {l : Label n V E} (hs : step ops s l = some s') (j : Fin n) :
    (s'.phase j).isIdle = (s.phase j).isIdle ∨
      l = .startChild j ∧ (s'.phase j).isIdle = false := by
  have hsame {k : Fin n} {p : Phase V E D} (hp : p.isIdle = (s.phase k).isIdle) :
      (Function.update s.phase k p j).isIdle = (s.phase j).isIdle := view_update hp j
  cases step_move hs with
  | rcvrRequestStop | popStopCb | runStopCb | emplaceStopCb | startStopped | startChildren =>
      exact .inl rfl
  | @startChild k =>
      rcases eq_or_ne j k with rfl | hne
      · exact .inr ⟨rfl, by simp [Phase.isIdle]⟩
      · exact .inl (by simp [hne])
  | @act k c a as hphase => cases a <;> exact .inl (hsame (by rw [hphase]; rfl))
  | complete hphase | arrive hphase | arriveLast hphase | ignore hphase | resetStopCb hphase
  | finish hphase => exact .inl (hsame (by rw [hphase]; rfl))

end Counted

/-! ### What was observed -/

namespace Phase

def completion : Phase V E D → Option (Completion V E)
  | .completing c _ | .ignored c | .done c | .deciding c _ | .finished c => some c
  | _ => none

/-- What is left of its treatment before `count` is decremented. -/
def todo : Phase V E D → List (Action D)
  | .completing _ as => as
  | _ => []

end Phase

theorem completions_concat (tr : List (Label n V E)) (l : Label n V E) :
    completions (tr ++ [l]) = completions tr ++ l.completion.toList := by
  cases h : l.completion <;> simp [completions, h]

/-- The phases of the children agree with the completions in the trace. -/
structure Recorded (ops : Ops n V E D) (tr : List (Label n V E)) (s : State n V E D) : Prop where
  completion : ∀ i c, (s.phase i).completion = some c ↔ (i, c) ∈ completions tr
  nodup : ((completions tr).map Prod.fst).Nodup
  admitted : ∀ i c, (i, c) ∈ completions tr → ops.admits i c = true
  todo : ∀ i c, (i, c) ∈ completions tr → ∃ d, (s.phase i).todo <:+ ops.rest i c d

section Recorded

variable {s s' : State n V E D} {tr : List (Label n V E)} {l : Label n V E} {i : Fin n}
  {p : Phase V E D}

theorem recorded_init (ops : Ops n V E D) : Recorded ops [] ops.initial where
  completion := by simp [Ops.initial, Phase.completion, completions]
  nodup := List.nodup_nil
  admitted := by simp [completions]
  todo := by simp [completions]

theorem Recorded.of_phases (h : Recorded ops tr s) (hl : l.completion = none)
    (hcompletion : ∀ j, (s'.phase j).completion = (s.phase j).completion)
    (htodo : ∀ j, (s'.phase j).todo <:+ (s.phase j).todo) : Recorded ops (tr ++ [l]) s' := by
  have hsame : completions (tr ++ [l]) = completions tr := by
    simp [completions_concat, hl]
  refine ⟨?_, hsame ▸ h.nodup, hsame ▸ h.admitted, ?_⟩
  · intro j c
    rw [hcompletion, hsame]
    exact h.completion j c
  · intro j c hc
    obtain ⟨d, hd⟩ := h.todo j c (hsame ▸ hc)
    exact ⟨d, (htodo j).trans hd⟩

/-- A step that moves one child on in the treatment of its completion. -/
theorem Recorded.of_phase (h : Recorded ops tr s) (hl : l.completion = none)
    (hphase : s'.phase = Function.update s.phase i p)
    (hcompletion : p.completion = (s.phase i).completion) (htodo : p.todo <:+ (s.phase i).todo) :
    Recorded ops (tr ++ [l]) s' := by
  refine h.of_phases hl (fun j => ?_) (fun j => ?_) <;> rw [hphase]
  · exact view_update hcompletion j
  · rcases eq_or_ne j i with rfl | hne
    · rwa [Function.update_self]
    · rw [Function.update_of_ne hne]

theorem Recorded.complete {c : Completion V E} (h : Recorded ops tr s)
    (hphase : s.phase i = .running) (hc : ops.admits i c = true) (data : D) :
    Recorded ops (tr ++ [.complete i c])
      { s.setPhase i (.completing c (ops.rest i c s.data)) with data } := by
  have hnew : ∀ c', (i, c') ∉ completions tr := fun c' hmem => by
    have := (h.completion i c').mpr hmem
    simp [hphase, Phase.completion] at this
  have hlist : completions (tr ++ [.complete i c]) = completions tr ++ [(i, c)] :=
    completions_concat tr _
  refine ⟨?_, ?_, ?_, ?_⟩
  · intro j c'
    rw [hlist, List.mem_append]
    rcases eq_or_ne j i with rfl | hne
    · simp [State.setPhase, Phase.completion, hnew, eq_comm]
    · simp [State.setPhase, hne, h.completion]
  · rw [hlist, List.map_append, List.nodup_append]
    refine ⟨h.nodup, by simp, fun a ha b hb e => ?_⟩
    obtain ⟨⟨j, c'⟩, hmem, rfl⟩ := List.mem_map.mp ha
    obtain rfl : b = i := by simpa using hb
    exact hnew c' (e ▸ hmem)
  · intro j c' hmem
    rw [hlist, List.mem_append] at hmem
    rcases hmem with hmem | hmem
    · exact h.admitted j c' hmem
    · obtain ⟨rfl, rfl⟩ : j = i ∧ c' = c := by simpa using hmem
      exact hc
  · intro j c' hmem
    rw [hlist, List.mem_append] at hmem
    rcases hmem with hmem | hmem
    · have hne : j ≠ i := fun e => hnew c' (e ▸ hmem)
      simpa [State.setPhase, hne] using h.todo j c' hmem
    · obtain ⟨rfl, rfl⟩ : j = i ∧ c' = c := by simpa using hmem
      exact ⟨s.data, by simp [State.setPhase, Phase.todo]⟩

theorem Recorded.step (h : Recorded ops tr s) (hcounted : Counted s)
    (hs : step ops s l = some s') : Recorded ops (tr ++ [l]) s' := by
  cases step_move hs with
  | rcvrRequestStop | popStopCb | runStopCb | emplaceStopCb | startStopped | startChildren =>
      exact h.of_phases rfl (fun _ => rfl) fun _ => List.suffix_rfl
  | @startChild i hpc =>
      have hidle := hcounted.idle_of_next hpc
      exact h.of_phase rfl rfl (by rw [hidle]; rfl) (by rw [hidle]; exact List.suffix_rfl)
  | complete hphase hc => exact h.complete hphase hc _
  | @act i c a as hphase =>
      cases a with
      | update | requestStop =>
          exact h.of_phase rfl rfl (by rw [hphase]; rfl)
            (by rw [hphase]; exact List.suffix_cons _ as)
  | arrive hphase | arriveLast hphase | ignore hphase | resetStopCb hphase | finish hphase =>
      exact h.of_phase rfl rfl (by rw [hphase]; rfl) (by rw [hphase]; exact List.suffix_rfl)

end Recorded

end BaremetalSenders.Join
