import BaremetalSenders.Foundation.Countdown
import BaremetalSenders.StopToken.StopSource
import Mathlib.Data.List.Nodup

/-!
The invariant of the stop source.

The flag is set outside the mutex, so a registration that has read it as false
may come to push its callback after the exchange. But it holds the mutex since,
so the call of `request_stop` that won the exchange does not get to look into
the list before; and registrations that begin later are refused. Therefore the
list is empty for good when that call finds it empty. `NothingLeft` says this;
it rests on the two simpler invariants that there is one winner and that the
list, the pending flags and the mutex agree.
-/

namespace BaremetalSenders.StopToken

variable {κ ρ : Type*}

variable [DecidableEq κ] [DecidableEq ρ]

inductive Move (s : State κ ρ) : Label κ ρ → State κ ρ → Prop
  | win {r : ρ} (hr : s.calls r = .idle) (hreq : s.source.requested = false) :
      Move s (.exchange r) { s.setCall r .draining with
        source := { s.source with requested := true } }
  | lose {r : ρ} (hr : s.calls r = .idle) (hreq : s.source.requested = true) :
      Move s (.exchange r) (s.setCall r (.returned false))
  | finish {r : ρ} (hr : s.calls r = .draining) (hm : s.mutex = none)
      (hempty : s.source.callbacks = []) :
      Move s (.getNextCb r none) (s.setCall r (.returned true))
  | pop {r : ρ} {cb : κ} {cbs : List κ} (hr : s.calls r = .draining) (hm : s.mutex = none)
      (hcbs : s.source.callbacks = cb :: cbs) :
      Move s (.getNextCb r (some cb)) ((s.popFront cb).setCall r (.popped cb))
  | run {r : ρ} {cb : κ} (hr : s.calls r = .popped cb) :
      Move s (.run r cb) (s.setCall r (.running cb))
  | ran {r : ρ} {cb : κ} (hr : s.calls r = .running cb) :
      Move s (.ran r cb) (s.setCall r .draining)
  | enterRegister {cb : κ} (hcb : s.life cb = .unborn) (hm : s.mutex = none) :
      Move s (.enterRegister cb) { s.setLife cb .constructing with
        mutex := some (cb, s.source.requested) }
  | register {cb : κ} (hm : s.mutex = some (cb, false)) :
      Move s (.leaveRegister cb true) { (s.pushBack cb).setLife cb .registered with mutex := none }
  | refuse {cb : κ} (hm : s.mutex = some (cb, true)) :
      Move s (.leaveRegister cb false) { s.setLife cb .refused with mutex := none }
  | invoke {cb : κ} (hcb : s.life cb = .refused) : Move s (.invoke cb) (s.setLife cb .invoking)
  | invoked {cb : κ} (hcb : s.life cb = .invoking) :
      Move s (.invoked cb) (s.setLife cb .constructed)
  | unregister {cb : κ} (hcb : s.life cb = .registered ∨ s.life cb = .constructed)
      (hm : s.mutex = none) :
      Move s (.unregister cb (s.pending cb)) ((s.unregisterCallback cb).setLife cb .destroyed)

theorem step_move {s s' : State κ ρ} {l : Label κ ρ} (h : step s l = some s') : Move s l s' := by
  cases l with
  | exchange r =>
      simp only [step] at h
      split at h <;> cases h
      next hr =>
        obtain ⟨⟨req, cbs⟩, m, p, li, ca⟩ := s
        cases req with
        | true => exact Move.lose hr rfl
        | false => exact Move.win hr rfl
  | getNextCb r cb =>
      simp only [step] at h
      split at h
      next hc =>
        obtain ⟨hr, hm, hhead⟩ := hc
        cases cb with
        | none =>
            cases h
            exact .finish hr hm (List.head?_eq_none_iff.mp hhead)
        | some cb =>
            cases h
            obtain ⟨cbs, hcbs⟩ := List.head?_eq_some_iff.mp hhead
            exact .pop hr hm hcbs
      next => cases h
  | run r cb =>
      simp only [step] at h
      split at h <;> cases h
      next hr => exact .run hr
  | ran r cb =>
      simp only [step] at h
      split at h <;> cases h
      next hr => exact .ran hr
  | enterRegister cb =>
      simp only [step] at h
      split at h <;> cases h
      next hc => exact .enterRegister hc.1 hc.2
  | leaveRegister cb registered =>
      simp only [step] at h
      split at h
      next hm => cases registered <;> cases h <;> [exact .refuse hm; exact .register hm]
      next => cases h
  | invoke cb =>
      simp only [step] at h
      split at h <;> cases h
      next hcb => exact .invoke hcb
  | invoked cb =>
      simp only [step] at h
      split at h <;> cases h
      next hcb => exact .invoked hcb
  | unregister cb removed =>
      simp only [step] at h
      split at h <;> cases h
      next hc =>
        obtain ⟨hcb, hm, rfl⟩ := hc
        exact .unregister hcb hm

section State

variable {s s' : State κ ρ} {l : Label κ ρ} {r : ρ} {cb : κ} {c : Call κ} {li : Life}

/-! ### One winner -/

def Call.isWinner : Call κ → Bool
  | .draining | .popped _ | .running _ | .returned true => true
  | .idle | .returned false => false

/-- The flag is set when one call has won the exchange. -/
structure OneWinner (s : State κ ρ) : Prop where
  requested : s.source.requested = true ↔ ∃ r, (s.calls r).isWinner = true
  unique : ∀ r r', (s.calls r).isWinner = true → (s.calls r').isWinner = true → r = r'

omit [DecidableEq κ] [DecidableEq ρ] in
theorem oneWinner_init : OneWinner (State.init : State κ ρ) := by
  constructor <;> simp [State.init, Source.init, Call.isWinner]

omit [DecidableEq κ] [DecidableEq ρ] in
theorem OneWinner.of_view (h : OneWinner s) (hreq : s'.source.requested = s.source.requested)
    (hview : ∀ r, (s'.calls r).isWinner = (s.calls r).isWinner) : OneWinner s' := by
  constructor
  · simp only [hreq, hview]
    exact h.requested
  · simp only [hview]
    exact h.unique

theorem OneWinner.step (h : OneWinner s) (hs : step s l = some s') : OneWinner s' := by
  have hview {r : ρ} {c : Call κ} (hc : c.isWinner = (s.calls r).isWinner) (r' : ρ) :
      (Function.update s.calls r c r').isWinner = (s.calls r').isWinner := view_update hc r'
  cases step_move hs with
  | @win r hr hreq =>
      have hnone : ∀ r', (s.calls r').isWinner = false := fun r' => by
        by_contra hr'
        have := h.requested.mpr ⟨r', by simpa using hr'⟩
        simp [hreq] at this
      have honly : ∀ r', (Function.update s.calls r Call.draining r').isWinner = true ↔ r' = r := by
        intro r'
        rcases eq_or_ne r' r with rfl | hne
        · simp [Call.isWinner]
        · simp [hne, hnone]
      refine ⟨iff_of_true rfl ⟨r, (honly r).mpr rfl⟩, fun r₁ r₂ h₁ h₂ => ?_⟩
      exact ((honly r₁).mp h₁).trans ((honly r₂).mp h₂).symm
  | lose hr | finish hr | run hr | ran hr => exact h.of_view rfl (hview (by rw [hr]; rfl))
  | pop hr => exact h.of_view rfl (hview (by rw [hr]; rfl))
  | enterRegister | register | refuse | invoke | invoked | unregister =>
      exact h.of_view rfl fun _ => rfl

/-! ### The list and the mutex -/

structure ListOk (s : State κ ρ) : Prop where
  pending : ∀ cb, s.pending cb = true ↔ cb ∈ s.source.callbacks
  nodup : s.source.callbacks.Nodup
  registered : ∀ cb, cb ∈ s.source.callbacks → s.life cb = .registered
  mutex : ∀ cb b, s.mutex = some (cb, b) →
    s.life cb = .constructing ∧ (b = true → s.source.requested = true)

omit [DecidableEq κ] [DecidableEq ρ] in
theorem listOk_init : ListOk (State.init : State κ ρ) := by
  constructor <;> simp [State.init, Source.init]

omit [DecidableEq κ] in
theorem ListOk.setCall (h : ListOk s) : ListOk (s.setCall r c) := { h with }

omit [DecidableEq ρ] in
/-- A step in the life of a callback that is neither in the list nor being registered. -/
theorem ListOk.setLife (h : ListOk s) (hcb : cb ∉ s.source.callbacks)
    (hm : s.life cb ≠ .constructing) : ListOk (s.setLife cb li) := by
  refine { h with registered := fun cb' hmem => ?_, mutex := fun cb' b hm' => ?_ }
  · have hne : cb' ≠ cb := fun e => hcb (e ▸ hmem)
    simpa [State.setLife, hne] using h.registered cb' hmem
  · have hne : cb' ≠ cb := fun e => hm (e ▸ (h.mutex cb' b hm').1)
    simpa [State.setLife, hne] using h.mutex cb' b hm'

omit [DecidableEq κ] [DecidableEq ρ] in
theorem ListOk.notMem (h : ListOk s) (hcb : s.life cb ≠ .registered) :
    cb ∉ s.source.callbacks := fun hmem => hcb (h.registered cb hmem)

omit [DecidableEq ρ] in
theorem ListOk.popFront {cbs : List κ} (h : ListOk s) (hcbs : s.source.callbacks = cb :: cbs) :
    ListOk (s.popFront cb) := by
  obtain ⟨hnot, hnd⟩ := List.nodup_cons.mp (hcbs ▸ h.nodup)
  refine { h with pending := fun cb' => ?_, nodup := ?_, registered := fun cb' hmem => ?_ }
  · rcases eq_or_ne cb' cb with rfl | hne
    · simp [State.popFront, hcbs, hnot]
    · simp [State.popFront, hne, hcbs, h.pending cb']
  · simpa [State.popFront, hcbs] using hnd
  · exact h.registered cb' (List.mem_of_mem_tail hmem)

omit [DecidableEq ρ] in
theorem ListOk.register (h : ListOk s) (hm : s.mutex = some (cb, false)) :
    ListOk { (s.pushBack cb).setLife cb .registered with mutex := none } := by
  have hlife := (h.mutex cb false hm).1
  have hnew : cb ∉ s.source.callbacks := h.notMem (by simp [hlife])
  refine ⟨fun cb' => ?_, ?_, fun cb' hmem => ?_, by simp⟩
  · rcases eq_or_ne cb' cb with rfl | hne
    · simp [State.setLife, State.pushBack]
    · simp [State.setLife, State.pushBack, hne, h.pending cb']
  · exact List.nodup_append.mpr ⟨h.nodup, by simp, fun a ha b hb e => hnew (by simp_all)⟩
  · rcases eq_or_ne cb' cb with rfl | hne
    · simp [State.setLife]
    · have hold : cb' ∈ s.source.callbacks := by
        simpa [State.setLife, State.pushBack, hne] using hmem
      simpa [State.setLife, State.pushBack, hne] using h.registered cb' hold

omit [DecidableEq ρ] in
theorem mem_of_mem_unregister {cb' : κ}
    (hmem : cb' ∈ (s.unregisterCallback cb).source.callbacks) : cb' ∈ s.source.callbacks := by
  simp only [State.unregisterCallback] at hmem
  split at hmem
  · exact List.mem_of_mem_erase hmem
  · exact hmem

omit [DecidableEq ρ] in
theorem ListOk.callbacks_unregister (h : ListOk s) (cb : κ) :
    (s.unregisterCallback cb).source.callbacks = s.source.callbacks.erase cb := by
  cases hp : s.pending cb with
  | true => simp [State.unregisterCallback, hp]
  | false =>
      have hnot : cb ∉ s.source.callbacks := fun hmem => by simp [(h.pending cb).mpr hmem] at hp
      simp [State.unregisterCallback, hp, List.erase_of_not_mem hnot]

omit [DecidableEq ρ] in
theorem ListOk.unregister (h : ListOk s) (hm : s.mutex = none) :
    ListOk ((s.unregisterCallback cb).setLife cb .destroyed) := by
  have hlist : ((s.unregisterCallback cb).setLife cb .destroyed).source.callbacks =
      s.source.callbacks.erase cb := h.callbacks_unregister cb
  refine ⟨fun cb' => ?_, ?_, fun cb' hmem => ?_, fun cb' b hm' => ?_⟩
  · rw [hlist, h.nodup.mem_erase_iff, ← h.pending]
    rcases eq_or_ne cb' cb with rfl | hne
    · simp [State.setLife, State.unregisterCallback]
    · simp [State.setLife, State.unregisterCallback, hne]
  · rw [hlist]
    exact h.nodup.erase cb
  · rw [hlist, h.nodup.mem_erase_iff] at hmem
    simpa [State.setLife, State.unregisterCallback, hmem.1] using h.registered cb' hmem.2
  · exact absurd (hm.symm.trans hm') (by simp)

theorem ListOk.step (h : ListOk s) (hs : step s l = some s') : ListOk s' := by
  cases step_move hs with
  | win => exact { h with mutex := fun cb b hm => ⟨(h.mutex cb b hm).1, fun _ => rfl⟩ }
  | lose | finish | run | ran => exact h.setCall
  | pop _ _ hcbs => exact (h.popFront hcbs).setCall
  | @enterRegister cb hcb hm =>
      have h' : ListOk (s.setLife cb .constructing) :=
        h.setLife (h.notMem (by simp [hcb])) (by simp [hcb])
      refine { h' with mutex := fun cb' b hm' => ?_ }
      obtain ⟨rfl, rfl⟩ : cb = cb' ∧ s.source.requested = b := by simpa using hm'
      exact ⟨by simp [State.setLife], id⟩
  | register hm => exact h.register hm
  | @refuse cb hm =>
      have hlife := (h.mutex cb true hm).1
      have hnot : cb ∉ s.source.callbacks := h.notMem (by simp [hlife])
      refine { h with registered := fun cb' hmem => ?_, mutex := by simp }
      have hne : cb' ≠ cb := fun e => hnot (e ▸ hmem)
      simpa [State.setLife, hne] using h.registered cb' hmem
  | invoke hcb => exact h.setLife (h.notMem (by simp [hcb])) (by simp [hcb])
  | invoked hcb => exact h.setLife (h.notMem (by simp [hcb])) (by simp [hcb])
  | unregister _ hm => exact h.unregister hm

/-! ### Nothing is left behind -/

/-- When the winner has returned, the list is empty and nobody is about to push to it. -/
def NothingLeft (s : State κ ρ) : Prop :=
  ∀ r, s.calls r = .returned true →
    s.source.callbacks = [] ∧ ∀ cb, s.mutex ≠ some (cb, false)

omit [DecidableEq κ] [DecidableEq ρ] in
theorem OneWinner.requested_of_returned (h : OneWinner s) (hr : s.calls r = .returned true) :
    s.source.requested = true := h.requested.mpr ⟨r, by rw [hr]; rfl⟩

omit [DecidableEq κ] in
theorem NothingLeft.setCall (h : NothingLeft s) (hc : c ≠ .returned true) :
    NothingLeft (s.setCall r c) := by
  intro r' hr'
  rcases eq_or_ne r' r with rfl | hne
  · exact absurd (by simpa [State.setCall] using hr') hc
  · exact h r' (by simpa [State.setCall, hne] using hr')

theorem NothingLeft.step (h : NothingLeft s) (hone : OneWinner s) (hlist : ListOk s)
    (hs : step s l = some s') : NothingLeft s' := by
  cases step_move hs with
  | win _ hreq =>
      -- Before the exchange is won nobody can have returned as the winner.
      refine NothingLeft.setCall (s := { s with source := { s.source with requested := true } })
        (fun r' hr' => ?_) (by simp)
      simp [hone.requested_of_returned hr'] at hreq
  | lose => exact h.setCall (by simp)
  | finish _ hm hempty => exact fun _ _ => ⟨hempty, by simp [State.setCall, hm]⟩
  | @pop r cb cbs _ _ hcbs =>
      refine NothingLeft.setCall (fun r' hr' => ?_) (by simp)
      simp [(h r' hr').1] at hcbs
  | run | ran => exact h.setCall (by simp)
  | enterRegister =>
      intro r' hr'
      refine ⟨(h r' hr').1, fun cb hm => ?_⟩
      simp [hone.requested_of_returned hr'] at hm
  | register hm => exact fun r' hr' => absurd hm ((h r' hr').2 _)
  | refuse => exact fun r' hr' => ⟨(h r' hr').1, by simp⟩
  | invoke | invoked => exact h
  | unregister _ hm =>
      intro r' hr'
      have hempty : s.source.callbacks = [] := (h r' hr').1
      refine ⟨?_, by simp [State.setLife, State.unregisterCallback, hm]⟩
      exact (hlist.callbacks_unregister _).trans (by simp [hempty])

end State

end BaremetalSenders.StopToken
