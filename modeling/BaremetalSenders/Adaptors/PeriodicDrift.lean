import BaremetalSenders.Adaptors.Periodic
import BaremetalSenders.Schedulers.TimerAccounting

/-!
The expirations of `periodic` in real time.

The clock of the HAL runs with real time while the HAL is enabled, and starts
again from anywhere when it is enabled. What it shows is therefore real time
with an offset that changes at `enable` and at no other time. The periodic
operation keeps the expiration time of its child in `tp`, as a reading of the
clock, and computes the next one from it.

Real time passes between the steps, and within a critical section up to each of
its readings.
-/

namespace BaremetalSenders.Periodic

open Timer (ExpirationProvider HalCall Manager)

variable {P β : Type*}

/-! ### The clock -/

/-- Real time, and what the clock shows beyond it. -/
structure Clock where
  real : ℤ
  offset : ℤ

/-- What the clock shows. -/
def Clock.now (c : Clock) : ℤ := c.real + c.offset

theorem Clock.now_sub_real (c : Clock) : c.now - c.real = c.offset := by
  simp only [Clock.now]
  omega

/-- A call to the HAL, whose clock shows `epoch` when it has been enabled. -/
def Clock.call (epoch : ℤ) (c : Clock) : HalCall ℤ ℤ → Option Clock
  | .enable => some { c with offset := epoch - c.real }
  | .enableFor d tp => if tp = epoch + d then some { c with offset := epoch - c.real } else none
  | .now tp => if c.now ≤ tp then some { c with real := tp - c.offset } else none
  | .setEventTime _ | .disable => some c

/-! ### The operation and the clock -/

inductive Expiry where
  | unsafeExpiry
  | safeImmediateExpiry
  | safeQuantizedExpiry

def Expiry.provider : Expiry → ℤ → ℤ → ExpirationProvider ℤ
  | .unsafeExpiry => Periodic.unsafeExpiry
  | .safeImmediateExpiry => Periodic.safeImmediateExpiry
  | .safeQuantizedExpiry => Periodic.safeQuantizedExpiry

/-- The child's scheduler has no duration of its own. -/
def timed (x : Expiry) (d : ℤ) (pred : P → Bool × P) (checksStop : Bool) : Sender P ℤ ℤ :=
  ⟨d, pred, x.provider, .timepoint, checksStop⟩

/-- The place of the periodic operation, the clock, and the expirations of the operation's
children in real time, the last one first. -/
structure Observed (P β : Type*) where
  periodic : State P β ℤ ℤ
  clock : Clock
  expirations : List ℤ

/-- Real time passes, or a step is taken, in which the clock shows `epoch` if the HAL is
enabled. -/
inductive Timeline (P β : Type*) where
  | tick (real : ℤ)
  | call (e : Event P β ℤ ℤ) (epoch : ℤ)

namespace Observed

def init (expirationTime : ℕ ⊕ β → ℤ) (clock : Clock) : Observed P β :=
  ⟨.init expirationTime, clock, []⟩

section Step

variable [DecidableEq β] (fused : Bool) (S : Sender P ℤ ℤ)

def record (s : Observed P β) (p : State P β ℤ ℤ) (c : Clock) : Event P β ℤ ℤ → List ℤ
  | .construct _ => []
  | .start (some _) | .restart (some _) =>
      (p.timer.mgr.expirationTime (.inl s.periodic.next) - c.offset) :: s.expirations
  | _ => s.expirations

def step (s : Observed P β) : Timeline P β → Option (Observed P β)
  | .tick real => some { s with clock := { s.clock with real := max s.clock.real real } }
  | .call e epoch =>
      (Periodic.step fused S s.periodic e).bind fun p =>
        (exec (Clock.call epoch) s.clock
          (p.timer.mgr.hal.drop s.periodic.timer.mgr.hal.length)).map fun c =>
            ⟨p, c, s.record p c e⟩

/-- The iteration is over, and its child scheduled again, within the period. -/
def Punctual (s : Observed P β) : Timeline P β → Prop
  | .call (.restart (some readings)) epoch =>
      ∀ s', s.step fused S (.call (.restart (some readings)) epoch) = some s' →
        ∀ x ∈ s.expirations.head?, s'.clock.real ≤ x + S.d
  | _ => True

/-- The operation has started a child and may start another one. -/
def underWay (s : Observed P β) : Bool :=
  s.periodic.slot.any fun op =>
    op.phase == .running || op.phase == .completing || op.phase == .restarting

/-- If the HAL is enabled while a periodic operation is under way, its clock goes on as if it
had never been disabled. -/
def Carried (s : Observed P β) : Timeline P β → Prop
  | .call _ epoch =>
      s.underWay = true → s.periodic.timer.mgr.taskQueue = [] → epoch = s.clock.now
  | _ => True

instance Punctual.decidable (s : Observed P β) :
    (l : Timeline P β) → Decidable (s.Punctual fused S l)
  | .call (.restart (some readings)) epoch =>
      inferInstanceAs (Decidable (∀ s' ∈ s.step fused S (.call (.restart (some readings)) epoch),
        ∀ x ∈ s.expirations.head?, s'.clock.real ≤ x + S.d))
  | .tick _ | .call (.construct _) _ | .call .destroy _ | .call (.start _) _
  | .call (.complete _ _) _ | .call (.evaluate _) _ | .call (.restart none) _ | .call .stopped _
  | .call (.deliver _) _ | .call .leave _ | .call (.timer _) _ => inferInstanceAs (Decidable True)

instance Carried.decidable (s : Observed P β) : (l : Timeline P β) → Decidable (s.Carried l)
  | .call _ epoch => inferInstanceAs (Decidable (s.underWay = true →
      s.periodic.timer.mgr.taskQueue = [] → epoch = s.clock.now))
  | .tick _ => inferInstanceAs (Decidable True)

/-- Consecutive expirations are one period apart. -/
def Steady (d : ℤ) (s : Observed P β) : Prop :=
  s.expirations.IsChain fun later earlier => later = earlier + d

end Step

end Observed

/-! ### The calls of the timer manager -/

/-- The call enables the HAL. -/
def enables : HalCall ℤ ℤ → Bool
  | .enable | .enableFor _ _ => true
  | _ => false

/-- The new calls in a step: only the first one enables, and only on an empty queue. -/
def Calls {α : Type*} (m m' : Manager α ℤ ℤ) (cs : List (HalCall ℤ ℤ)) : Prop :=
  m'.hal = m.hal ++ cs ∧ (∀ c ∈ cs.tail, enables c = false) ∧
    (m.taskQueue ≠ [] → ∀ c ∈ cs, enables c = false)

section Calls

variable {α : Type*} {m m' : Manager α ℤ ℤ} {t : α}

/-- A step that enables nothing. -/
theorem Calls.of_quiet {cs : List (HalCall ℤ ℤ)} (h : m'.hal = m.hal ++ cs)
    (hquiet : ∀ c ∈ cs, enables c = false) : Calls m m' cs :=
  ⟨h, fun c hc => hquiet c (List.mem_of_mem_tail hc), fun _ => hquiet⟩

theorem calls_nil (h : m'.hal = m.hal) : Calls m m' [] := .of_quiet (by simp [h]) (by simp)

theorem hal_computeNextEvent (m : Manager α ℤ ℤ) :
    ∃ c, m.computeNextEvent.hal = m.hal ++ [c] ∧ enables c = false := by
  simp only [Manager.computeNextEvent]
  split
  · exact ⟨.disable, rfl, rfl⟩
  · next u _ _ => exact ⟨.setEventTime (m.expirationTime u), rfl, rfl⟩

theorem hal_enqueue (m : Manager α ℤ ℤ) (t : α) :
    ∃ post, (m.enqueue t).hal = m.hal ++ post ∧ (∀ c ∈ post, enables c = false) := by
  simp only [Manager.enqueue]
  split
  · exact ⟨[.setEventTime (m.expirationTime t)], rfl, by simp [enables]⟩
  · exact ⟨[], by simp, by simp⟩

variable [DecidableEq α]

/-- `schedule_at`: the time that has been computed, from these readings of the clock. -/
theorem calls_scheduleAt {ep : ExpirationProvider ℤ} {readings : List ℤ}
    (h : m.scheduleAt t ep readings = some m') :
    ∃ pre post, ep.computeExpiration readings = some (m'.expirationTime t) ∧
      Calls m m' (pre ++ (readings.map .now ++ post)) := by
  obtain ⟨tp, htp, rfl⟩ := Option.map_eq_some_iff.mp h
  have hreadings : ∀ c ∈ readings.map HalCall.now, enables (c : HalCall ℤ ℤ) = false := by
    simp [enables]
  by_cases hq : m.taskQueue = []
  · have hafter : ∀ c ∈ readings.map .now ++ [HalCall.setEventTime tp], enables c = false :=
      List.forall_mem_append.mpr ⟨hreadings, by simp [enables]⟩
    refine ⟨[.enable], [.setEventTime tp], ?_, ?_, hafter, fun hne => absurd hq hne⟩
    · simp [hq, htp, Manager.call, Manager.setExpirationTime]
    · simp [hq, Manager.call, Manager.setExpirationTime]
  · obtain ⟨post, hpost, hquiet⟩ :=
      hal_enqueue ((m.call (readings.map .now)).setExpirationTime t tp) t
    have hafter : ∀ c ∈ readings.map .now ++ post, enables c = false :=
      List.forall_mem_append.mpr ⟨hreadings, hquiet⟩
    refine ⟨[], post, ?_, .of_quiet ?_ hafter⟩
    · have htimes (m : Manager α ℤ ℤ) : (m.enqueue t).expirationTime = m.expirationTime := by
        simp only [Manager.enqueue]
        split <;> rfl
      simp [hq, htp, htimes, Manager.setExpirationTime]
    · simp only [hq, if_false]
      rw [hpost]
      simp [Manager.call, Manager.setExpirationTime]

theorem calls_scheduleAfter (m : Manager α ℤ ℤ) (t : α) (fused : Bool) (d reading : ℤ) :
    ∃ cs, Calls m (m.scheduleAfter fused t d reading) cs := by
  by_cases hq : m.taskQueue = []
  · cases fused with
    | true => exact ⟨[.enableFor d (reading + d)], by
        simp [Calls, Manager.scheduleAfter, hq, Manager.call, Manager.setExpirationTime]⟩
    | false => exact ⟨[.enable, .now reading, .setEventTime (reading + d)], by
        simp [Calls, Manager.scheduleAfter, hq, Manager.call, Manager.setExpirationTime, enables]⟩
  · obtain ⟨post, hpost, hquiet⟩ :=
      hal_enqueue ((m.call [.now reading]).setExpirationTime t (reading + d)) t
    refine ⟨.now reading :: post, .of_quiet ?_ (by simpa [enables] using hquiet)⟩
    simp only [Manager.scheduleAfter, hq, if_false]
    rw [hpost]
    simp [Manager.call, Manager.setExpirationTime]

/-- Each step of the timer manager makes such calls. -/
theorem step_calls {fused : Bool} {t t' : Timer.State α ℤ ℤ} {e : Timer.Event α ℤ ℤ}
    (h : Timer.step fused t e = some t') : ∃ cs, Calls t.mgr t'.mgr cs := by
  cases e with
  | runAfter u d reading added =>
      obtain ⟨m, hm, rfl⟩ := Timer.step_runAfter h
      simp only [Manager.runAfter] at hm
      split at hm <;> cases hm
      · exact calls_scheduleAfter { t.mgr with
          pending := Function.update t.mgr.pending u true
          taskCount := t.mgr.taskCount + 1 } u fused d reading
      · exact ⟨[], calls_nil rfl⟩
  | runAt u ep readings added =>
      obtain ⟨m, hm, rfl⟩ := Timer.step_runAt h
      simp only [Manager.runAt] at hm
      split at hm
      · obtain ⟨m', hm', heq⟩ := Option.map_eq_some_iff.mp hm
        obtain ⟨-, rfl⟩ := Prod.mk.inj heq
        obtain ⟨pre, post, -, hcalls⟩ := calls_scheduleAt hm'
        exact ⟨_, hcalls⟩
      · cases hm
        exact ⟨[], calls_nil rfl⟩
  | cancel u cancelled =>
      obtain ⟨m, hm, rfl⟩ := Timer.step_cancel h
      simp only [Manager.cancel] at hm
      split at hm <;> cases hm
      · obtain ⟨c, hc, hquiet⟩ := hal_computeNextEvent { t.mgr with
          taskQueue := t.mgr.taskQueue.erase u
          pending := Function.update t.mgr.pending u false
          taskCount := t.mgr.taskCount - 1 }
        exact ⟨[c], .of_quiet hc (List.forall_mem_singleton.mpr hquiet)⟩
      · exact ⟨[], calls_nil rfl⟩
  | service u =>
      obtain ⟨m, hm, rfl⟩ := Timer.step_service h
      simp only [Manager.popTask] at hm
      split at hm <;> cases hm
      · exact ⟨[], calls_nil rfl⟩
      · next n rest _ =>
          obtain ⟨c, hc, hquiet⟩ := hal_computeNextEvent { t.mgr with
            taskQueue := rest
            pending := Function.update t.mgr.pending n false }
          exact ⟨[c], .of_quiet hc (List.forall_mem_singleton.mpr hquiet)⟩
  | run u =>
      obtain ⟨-, rfl⟩ := Timer.step_run h
      exact ⟨[], calls_nil rfl⟩
  | finish u =>
      obtain ⟨-, rfl⟩ := Timer.step_finish h
      exact ⟨[], calls_nil rfl⟩

end Calls

/-! ### What the clock shows after the calls -/

/-- The clock goes on in the calls, and their readings are not from the future. -/
structure Kept (c c' : Clock) (cs : List (HalCall ℤ ℤ)) : Prop where
  offset : c'.offset = c.offset
  real : c.real ≤ c'.real
  readings : ∀ r, .now r ∈ cs → r ≤ c'.now

theorem kept_call {epoch : ℤ} {c c' : Clock} {x : HalCall ℤ ℤ}
    (h : c.call epoch x = some c') (hx : enables x = true → epoch = c.now) : Kept c c' [x] := by
  cases x with
  | enable =>
      cases h
      exact ⟨by rw [hx rfl]; exact c.now_sub_real, le_rfl, by simp⟩
  | enableFor d tp =>
      simp only [Clock.call] at h
      split at h <;> cases h
      exact ⟨by rw [hx rfl]; exact c.now_sub_real, le_rfl, by simp⟩
  | now tp =>
      simp only [Clock.call] at h
      split at h <;> cases h
      next hnow =>
        simp only [Clock.now] at hnow
        exact ⟨rfl, by dsimp only; omega, by simp [Clock.now]⟩
  | setEventTime | disable =>
      cases h
      exact ⟨rfl, le_rfl, by simp⟩

theorem Kept.trans {c c' c'' : Clock} {cs cs' : List (HalCall ℤ ℤ)} (h : Kept c c' cs)
    (h' : Kept c' c'' cs') : Kept c c'' (cs ++ cs') := by
  refine ⟨h'.offset.trans h.offset, h.real.trans h'.real, fun r hr => ?_⟩
  rcases List.mem_append.mp hr with hr | hr
  · have hoffset := h'.offset
    have hreal := h'.real
    have := h.readings r hr
    simp only [Clock.now] at this ⊢
    omega
  · exact h'.readings r hr

theorem kept_of_quiet {epoch : ℤ} {c c' : Clock} {cs : List (HalCall ℤ ℤ)}
    (h : Run (Clock.call epoch) c cs c') (hquiet : ∀ x ∈ cs, enables x = false) : Kept c c' cs := by
  induction cs generalizing c with
  | nil =>
      obtain rfl := run_nil.mp h
      exact ⟨rfl, le_rfl, by simp⟩
  | cons x xs ih =>
      obtain ⟨c₁, hx, hxs⟩ := run_cons.mp h
      have hquiet₁ := hquiet x List.mem_cons_self
      exact (kept_call hx (by simp [hquiet₁])).trans
        (ih hxs fun y hy => hquiet y (List.mem_cons_of_mem x hy))

/-- The clock goes on unless the HAL is enabled and shows something else. -/
theorem Calls.kept {α : Type*} {m m' : Manager α ℤ ℤ} {epoch : ℤ} {c c' : Clock}
    {cs : List (HalCall ℤ ℤ)} (hcalls : Calls m m' cs) (h : Run (Clock.call epoch) c cs c')
    (hcarried : m.taskQueue = [] → epoch = c.now) : Kept c c' cs := by
  by_cases hq : m.taskQueue = []
  · cases cs with
    | nil => exact kept_of_quiet h (by simp)
    | cons x xs =>
        obtain ⟨c₁, hx, hxs⟩ := run_cons.mp h
        exact (kept_call hx fun _ => hcarried hq).trans (kept_of_quiet hxs hcalls.2.1)
  · exact kept_of_quiet h (hcalls.2.2 hq)

/-! ### The steps of the operation -/

variable [DecidableEq β] {fused : Bool} {x : Expiry} {d : ℤ} {pred : P → Bool × P}
  {checksStop : Bool}

/-- `start` of a child that schedules its task: the expiration time of the task. -/
theorem schedule_timed {ep : ExpirationProvider ℤ} {t t' : Timer.State (ℕ ⊕ β) ℤ ℤ} {tp tp' : ℤ}
    {k : ℕ} {readings : List ℤ}
    (h : schedule fused (timed x d pred checksStop) ep t tp k (some readings) = some (tp', t')) :
    ep.computeExpiration readings = some tp' ∧ t'.mgr.expirationTime (.inl k) = tp' ∧
      ∃ pre post, Calls t.mgr t'.mgr (pre ++ (readings.map .now ++ post)) := by
  obtain ⟨tp₁, htp, h⟩ := Option.bind_eq_some_iff.mp h
  obtain ⟨t₁, ht, heq⟩ := Option.map_eq_some_iff.mp h
  obtain ⟨rfl, rfl⟩ := Prod.mk.inj heq
  obtain ⟨m, hm, rfl⟩ := Timer.step_runAt ht
  simp only [Manager.runAt] at hm
  split at hm
  · obtain ⟨m', hm', heq⟩ := Option.map_eq_some_iff.mp hm
    obtain ⟨-, rfl⟩ := Prod.mk.inj heq
    obtain ⟨pre, post, hep, hcalls⟩ := calls_scheduleAt hm'
    exact ⟨htp, Option.some.inj (hep.symm.trans htp), pre, post, hcalls⟩
  · cases hm

/-- A child that is started makes such calls, also when it schedules nothing. -/
theorem schedule_calls {ep : ExpirationProvider ℤ} {t t' : Timer.State (ℕ ⊕ β) ℤ ℤ} {tp tp' : ℤ}
    {k : ℕ} {readings : Option (List ℤ)}
    (h : schedule fused (timed x d pred checksStop) ep t tp k readings = some (tp', t')) :
    ∃ cs, Calls t.mgr t'.mgr cs := by
  cases readings with
  | none =>
      cases h
      exact ⟨[], calls_nil rfl⟩
  | some readings =>
      obtain ⟨-, -, pre, post, hcalls⟩ := schedule_timed h
      exact ⟨_, hcalls⟩

theorem move_calls {s s' : State P β ℤ ℤ} {e : Event P β ℤ ℤ}
    (h : Move fused (timed x d pred checksStop) s e s') :
    ∃ cs, Calls s.timer.mgr s'.timer.mgr cs := by
  cases h with
  | start readings op tp t _ _ hschedule => exact schedule_calls hschedule
  | restart readings op tp t _ _ hschedule => exact schedule_calls hschedule
  | timer e t _ ht => exact step_calls ht
  | construct | destroy | complete | evaluate | stopped | deliver | leave =>
      exact ⟨[], calls_nil rfl⟩

/-- Each policy adds one period when that is not in the past. -/
theorem computeExpiration_eq {tp tp' : ℤ} {readings : List ℤ}
    (h : (x.provider d tp).computeExpiration readings = some tp')
    (hreadings : ∀ r ∈ readings, r ≤ tp + d) : tp' = tp + d := by
  cases x with
  | unsafeExpiry =>
      cases readings with
      | nil => exact (Option.some.inj h).symm
      | cons r rs => cases h
  | safeImmediateExpiry =>
      obtain _ | ⟨r, _ | ⟨r', rs⟩⟩ := readings
      · cases h
      · have hr := hreadings r List.mem_cons_self
        exact (Option.some.inj h).symm.trans (max_eq_left hr)
      · cases h
  | safeQuantizedExpiry =>
      have hquantized : ∀ r ≤ tp + d, (if tp + d < r then
          ExpirationProvider.answer (tp + d + d * ((r - (tp + d) - 1) / d + 1))
          else .answer (tp + d)) = .answer (tp + d) := fun r hr => if_neg (not_lt.mpr hr)
      obtain _ | ⟨r, rs⟩ := readings
      · cases h
      · have hr := hreadings r List.mem_cons_self
        simp only [Expiry.provider, safeQuantizedExpiry, ExpirationProvider.computeExpiration,
          hquantized r hr] at h
        cases rs with
        | nil => exact (Option.some.inj h).symm
        | cons r' rs => cases h

namespace Observed

variable {s s' : Observed P β} {e : Event P β ℤ ℤ} {epoch : ℤ}

theorem step_call
    (h : s.step fused (timed x d pred checksStop) (.call e epoch) = some s') :
    Move fused (timed x d pred checksStop) s.periodic e s'.periodic ∧
      (∀ cs, s'.periodic.timer.mgr.hal = s.periodic.timer.mgr.hal ++ cs →
        Run (Clock.call epoch) s.clock cs s'.clock) ∧
      s'.expirations = s.record s'.periodic s'.clock e := by
  obtain ⟨p, hp, h⟩ := Option.bind_eq_some_iff.mp h
  obtain ⟨c, hc, rfl⟩ := Option.map_eq_some_iff.mp h
  refine ⟨step_move hp, fun cs hcs => ?_, rfl⟩
  rwa [show p.timer.mgr.hal = _ from hcs, List.drop_left] at hc

/-- While an operation is under way the clock goes on. -/
theorem kept_of_underWay
    (h : s.step fused (timed x d pred checksStop) (.call e epoch) = some s')
    (hcarried : s.Carried (.call e epoch)) (hunder : s.underWay = true) :
    s'.clock.offset = s.clock.offset := by
  obtain ⟨hmove, hrun, -⟩ := step_call h
  obtain ⟨cs, hcs⟩ := move_calls hmove
  exact (hcs.kept (hrun cs hcs.1) (hcarried hunder)).offset

/-- `tp` is the last expiration time, as the clock shows it. -/
structure Following (d : ℤ) (s : Observed P β) : Prop where
  steady : s.Steady d
  fresh : ∀ op, s.periodic.slot = some op → op.phase = .connected → s.expirations = []
  last : s.underWay = true → ∀ op, s.periodic.slot = some op →
    ∀ y ∈ s.expirations.head?, y = op.tp - s.clock.offset

omit [DecidableEq β] in
theorem following_init (expirationTime : ℕ ⊕ β → ℤ) (clock : Clock) :
    Following d (init expirationTime clock : Observed P β) :=
  ⟨.nil, fun _ _ _ => rfl, fun hunder => by cases hunder⟩

/-- A child that has been started, with the time that it is scheduled for, if it is. -/
theorem Following.started {op : Op P ℤ} {tp : ℤ} {t : Timer.State (ℕ ⊕ β) ℤ ℤ}
    {ep : ExpirationProvider ℤ} {readings : Option (List ℤ)} (h : Following d s)
    (hschedule : schedule fused (timed x d pred checksStop) ep s.periodic.timer op.tp
      s.periodic.next readings = some (tp, t))
    (hp : s'.periodic = s.periodic.started op tp t)
    (hexpirations : s'.expirations = if readings.isSome then
      (s'.periodic.timer.mgr.expirationTime (.inl s.periodic.next) - s'.clock.offset) ::
        s.expirations else s.expirations)
    (hlast : ∀ y ∈ s.expirations.head?, y = op.tp - s'.clock.offset)
    (hnext : readings.isSome = true → ∀ y ∈ s.expirations.head?, tp - s'.clock.offset = y + d) :
    Following d s' := by
  have hphase : ∀ op', s'.periodic.slot = some op' → op'.tp = tp ∧ op'.phase = .running := by
    intro op' hop'
    rw [hp] at hop'
    obtain rfl := Option.some.inj hop'
    exact ⟨rfl, rfl⟩
  have hnotfresh : ∀ op', s'.periodic.slot = some op' → op'.phase = .connected →
      s'.expirations = [] := fun op' hop' hc => by
    rw [(hphase op' hop').2] at hc
    cases hc
  cases readings with
  | none =>
      cases hschedule
      refine ⟨?_, hnotfresh, fun _ op' hop' => ?_⟩
      · rw [Steady, hexpirations]
        exact h.steady
      · rw [(hphase op' hop').1, hexpirations]
        exact hlast
  | some readings =>
      obtain ⟨-, htime, -⟩ := schedule_timed hschedule
      have htime' : s'.periodic.timer.mgr.expirationTime (.inl s.periodic.next) = tp := by
        rw [hp]
        exact htime
      rw [htime', Option.isSome_some, if_pos rfl] at hexpirations
      refine ⟨?_, hnotfresh, fun _ op' hop' y hy => ?_⟩
      · rw [Steady, hexpirations]
        exact List.isChain_cons.mpr ⟨hnext rfl, h.steady⟩
      · rw [hexpirations] at hy
        rw [(hphase op' hop').1]
        exact (Option.some.inj hy).symm

omit [DecidableEq β] in
/-- The operation is where it was, or further on, with the same child. -/
theorem Following.of_under (h : Following d s) (hexpirations : s'.expirations = s.expirations)
    (hfresh : ∀ op, s'.periodic.slot = some op → op.phase = .connected →
      ∃ op', s.periodic.slot = some op' ∧ op'.phase = .connected)
    (hunder : s'.underWay = true → s.underWay = true ∧ s'.clock.offset = s.clock.offset ∧
      ∀ op', s'.periodic.slot = some op' → ∃ op, s.periodic.slot = some op ∧ op'.tp = op.tp) :
    Following d s' := by
  refine ⟨?_, fun op hop hphase => ?_, fun hu op' hop' => ?_⟩
  · rw [Steady, hexpirations]
    exact h.steady
  · obtain ⟨op', hop', hphase'⟩ := hfresh op hop hphase
    rw [hexpirations]
    exact h.fresh op' hop' hphase'
  · obtain ⟨hu, hoffset, hsame⟩ := hunder hu
    obtain ⟨op, hop, htp⟩ := hsame op' hop'
    rw [hexpirations, htp, hoffset]
    exact h.last hu op hop

omit [DecidableEq β] in
/-- The operation goes on to a phase in which its child has been started. -/
theorem Following.of_op (h : Following d s) (hexpirations : s'.expirations = s.expirations)
    {op op' : Op P ℤ} (hop : s.periodic.slot = some op) (hop' : s'.periodic.slot = some op')
    (hphase : op'.phase ≠ .connected)
    (hunder : s'.underWay = true → s.underWay = true ∧ s'.clock.offset = s.clock.offset ∧
      op'.tp = op.tp) : Following d s' := by
  refine h.of_under hexpirations (fun o ho hc => ?_) fun hu => ?_
  · obtain rfl := Option.some.inj (hop'.symm.trans ho)
    exact absurd hc hphase
  · obtain ⟨hu, hoffset, htp⟩ := hunder hu
    refine ⟨hu, hoffset, fun o ho => ?_⟩
    obtain rfl := Option.some.inj (hop'.symm.trans ho)
    exact ⟨op, hop, htp⟩

theorem following_step {l : Timeline P β} (h : Following d s)
    (hpunctual : s.Punctual fused (timed x d pred checksStop) l) (hcarried : s.Carried l)
    (hs : s.step fused (timed x d pred checksStop) l = some s') : Following d s' := by
  cases l with
  | tick real =>
      cases hs
      exact h.of_under rfl (fun op hop hphase => ⟨op, hop, hphase⟩)
        fun hu => ⟨hu, rfl, fun op' hop' => ⟨op', hop', rfl⟩⟩
  | call e epoch =>
      obtain ⟨hmove, hrun, hexpirations⟩ := step_call hs
      have hkept := kept_of_underWay hs hcarried
      generalize hp : s'.periodic = p at hmove
      rw [hp] at hexpirations
      cases hmove with
      | construct p =>
          refine ⟨?_, fun _ _ _ => hexpirations, fun hu => ?_⟩
          · rw [Steady, hexpirations]
            exact .nil
          · simp [underWay, hp] at hu
      | destroy =>
          refine h.of_under hexpirations (fun op hop => ?_) fun hu => ?_
          · rw [hp] at hop
            cases hop
          · simp [underWay, hp] at hu
      | start readings op tp t hop hphase hschedule =>
          have hnone := h.fresh op hop hphase
          refine h.started hschedule hp ?_ (by simp [hnone]) (by simp [hnone])
          rw [hp]
          cases readings with
          | none => exact hexpirations
          | some readings => exact hexpirations
      | complete k ch op hop hphase =>
          have hu : s.underWay = true := by simp [underWay, hop, hphase]
          refine h.of_op hexpirations hop (congrArg State.slot hp) ?_ fun _ => ⟨hu, hkept hu, rfl⟩
          cases ch <;> simp
      | evaluate op hop hphase =>
          have hu : s.underWay = true := by simp [underWay, hop, hphase]
          refine h.of_op hexpirations hop (congrArg State.slot hp) ?_ fun _ => ⟨hu, hkept hu, rfl⟩
          simp only
          split <;> simp
      | restart readings op tp t hop hphase hschedule =>
          have hu : s.underWay = true := by simp [underWay, hop, hphase]
          have hoffset := hkept hu
          have hlast : ∀ y ∈ s.expirations.head?, y = op.tp - s'.clock.offset := by
            rw [hoffset]
            exact h.last hu op hop
          refine h.started hschedule hp ?_ hlast fun hreadings y hy => ?_
          · rw [hp]
            cases readings with
            | none => exact hexpirations
            | some readings => exact hexpirations
          · obtain ⟨readings, rfl⟩ := Option.isSome_iff_exists.mp hreadings
            obtain ⟨hep, -, pre, post, hcalls⟩ := schedule_timed hschedule
            -- the readings are taken before the child has been scheduled, and that is in time
            have hnow := (hcalls.kept (hrun _ (by rw [hp]; exact hcalls.1)) (hcarried hu)).readings
            have hreal := hpunctual s' hs y hy
            have hy' := hlast y hy
            have htp : tp = op.tp + d := computeExpiration_eq hep fun r hr => by
              have := hnow r (by simp [hr])
              simp only [Clock.now, timed] at this hreal
              omega
            omega
      | stopped op hop hphase =>
          exact h.of_op hexpirations hop (congrArg State.slot hp) (by simp) fun hu => by
            simp [underWay, hp] at hu
      | deliver ch op hop hphase =>
          exact h.of_op hexpirations hop (congrArg State.slot hp) (by simp) fun hu => by
            simp [underWay, hp] at hu
      | leave =>
          have hslot (op' : Op P ℤ) (hop' : s'.periodic.slot = some op') :
              ∃ op, s.periodic.slot = some op ∧ op' = { op with state := none } := by
            rw [hp] at hop'
            obtain ⟨op, hop, rfl⟩ := Option.map_eq_some_iff.mp hop'
            exact ⟨op, hop, rfl⟩
          refine h.of_under hexpirations (fun op' hop' hc => ?_) fun hu' => ?_
          · obtain ⟨op, hop, rfl⟩ := hslot op' hop'
            exact ⟨op, hop, hc⟩
          · have hu : s.underWay = true := by
              rw [← hu', underWay, underWay, hp]
              cases s.periodic.slot <;> rfl
            refine ⟨hu, hkept hu, fun op' hop' => ?_⟩
            obtain ⟨op, hop, rfl⟩ := hslot op' hop'
            exact ⟨op, hop, rfl⟩
      | timer e t hadmits ht =>
          have hslot : s'.periodic.slot = s.periodic.slot := by rw [hp]
          refine h.of_under hexpirations (fun op' hop' hc => ⟨op', hslot ▸ hop', hc⟩) fun hu' => ?_
          have hu : s.underWay = true := by
            rw [← hu', underWay, underWay, hslot]
          exact ⟨hu, hkept hu, fun op' hop' => ⟨op', hslot ▸ hop', rfl⟩⟩

/-- The expirations of `periodic` are one period apart if no iteration takes longer
than that and the clock goes on whenever the HAL is enabled under the operation. -/
theorem steady_of_carried (fused : Bool) (x : Expiry) (d : ℤ) (pred : P → Bool × P)
    (checksStop : Bool) (expirationTime : ℕ ⊕ β → ℤ) (clock : Clock) (tr : List (Timeline P β))
    (s : Observed P β)
    (h : Run (step fused (timed x d pred checksStop)) (init expirationTime clock) tr s)
    (hsteps : EachStep (step fused (timed x d pred checksStop))
      (fun s l => s.Punctual fused (timed x d pred checksStop) l ∧ s.Carried l)
      (init expirationTime clock) tr) : s.Steady d := by
  have hfollowing : Following d s := Run.induction_of_eachStep (P := fun _ s => Following d s)
    (following_init expirationTime clock)
    (fun _ _ _ _ _ ih hl hs => following_step ih hl.1 hl.2 hs) h hsteps
  exact hfollowing.steady

/-- Another task is put into the queue behind the first child's, and stays there when
the clock would start at 0. -/
def accompaniedTrace : List (Timeline Unit Unit) :=
  [.call (.construct ()) 0, .call (.start (some [3])) 3,
    .call (.timer (.runAfter (.inr ()) 100 3 true)) 0, .tick 10,
    .call (.timer (.service (some (.inl 0)))) 0, .call (.timer (.run (.inl 0))) 0,
    .call (.complete 0 .value) 0, .tick 12, .call (.evaluate false) 0,
    .call (.restart (some [15])) 0]

theorem steady_of_carried_accompanied : ∃ s,
    Run (step false (timed .safeImmediateExpiry 10 (fun p => (false, p)) true))
      (init (fun _ => 0) ⟨0, 0⟩) accompaniedTrace s ∧ s.expirations = [20, 10] ∧ s.Steady 10 := by
  obtain ⟨s, hs⟩ : ∃ s, Run (step false (timed .safeImmediateExpiry 10 (fun p => (false, p)) true))
      (init (fun _ => 0) ⟨0, 0⟩) accompaniedTrace s := exists_run_iff.mpr rfl
  have hexpirations : s.expirations = [20, 10] := by
    have hview : (exec (step false (timed .safeImmediateExpiry 10 (fun p => (false, p)) true))
        (init (fun _ => 0) ⟨0, 0⟩) accompaniedTrace).map expirations = some [20, 10] := rfl
    rw [show exec _ _ accompaniedTrace = some s from hs] at hview
    exact Option.some.inj hview
  refine ⟨s, hs, hexpirations, steady_of_carried false .safeImmediateExpiry 10 (fun p => (false, p))
    true (fun _ => 0) ⟨0, 0⟩ accompaniedTrace s hs (by decide)⟩

/-- The HAL starts its clock at 0 each time that it is enabled. -/
def aloneTrace : List (Timeline Unit Unit) :=
  [.call (.construct ()) 0, .call (.start (some [0])) 0, .tick 10,
    .call (.timer (.service (some (.inl 0)))) 0, .call (.timer (.run (.inl 0))) 0,
    .call (.complete 0 .value) 0, .call (.evaluate false) 0, .call (.restart (some [0])) 0]

/-- With nothing else in the queue the second expiration is as far from the first one
as the clock had come. -/
theorem not_steady_alone : ¬ ∀ (x : Expiry) (d : ℤ) (tr : List (Timeline Unit Unit))
    (s : Observed Unit Unit), 0 < d →
    Run (step false (timed x d (fun p => (false, p)) true)) (init (fun _ => 0) ⟨0, 0⟩) tr s →
    EachStep (step false (timed x d (fun p => (false, p)) true))
      (fun s l => s.Punctual false (timed x d (fun p => (false, p)) true) l)
      (init (fun _ => 0) ⟨0, 0⟩) tr → s.Steady d := by
  intro hall
  obtain ⟨s, hs⟩ : ∃ s, Run (step false (timed .safeImmediateExpiry 10 (fun p => (false, p)) true))
      (init (fun _ => 0) ⟨0, 0⟩) aloneTrace s := exists_run_iff.mpr rfl
  have hexpirations : s.expirations = [30, 10] := by
    have hview : (exec (step false (timed .safeImmediateExpiry 10 (fun p => (false, p)) true))
        (init (fun _ => 0) ⟨0, 0⟩) aloneTrace).map expirations = some [30, 10] := rfl
    rw [show exec _ _ aloneTrace = some s from hs] at hview
    exact Option.some.inj hview
  have hsteady := hall .safeImmediateExpiry 10 aloneTrace s (by decide) hs (by decide)
  rw [Steady, hexpirations] at hsteady
  exact absurd hsteady (by decide)

end Observed

end BaremetalSenders.Periodic
