import BaremetalSenders.Schedulers.TimerAccounting

/-!
The timer manager with the hardware that interrupts for it.

The hardware has a clock that runs while it is enabled and starts again from
anywhere at `enable`. It compares the clock with one programmed time; when that
is reached the interrupt becomes pending, and it stays pending until the
interrupt service routine is entered. Programming another time replaces the
programmed time and nothing else. The routine calls `service_task` first, and
time may pass, and other contexts may get in, between its entry and the
critical section of `service_task`. It is not entered again before that.

Time passes between the critical sections and inside of them. What the hardware
sees of a critical section is its calls, so time that passes in one is taken to
pass before its calls: up to the reading for `now`, and up to the time `at` for
the others.
-/

namespace BaremetalSenders.Timer

variable {α τ δ : Type*}

/-! ### The hardware -/

/-- The clock, the programmed time if it has not been reached, and whether the
interrupt is pending. -/
structure Hardware (τ : Type*) where
  now : τ
  event : Option τ
  interrupt : Bool

namespace Hardware

variable [LinearOrder τ]

/-- Time passes until the clock shows `tp`, if it does not show more. -/
def advance (h : Hardware τ) (tp : τ) : Hardware τ :=
  let now := max h.now tp
  match h.event with
  | some ev =>
      if ev ≤ now then ⟨now, none, true⟩ else { h with now := now }
  | none => { h with now := now }

/-- A time that has been reached makes the interrupt pending at once. -/
def program (h : Hardware τ) (tp : τ) : Hardware τ :=
  if tp ≤ h.now then { h with event := none, interrupt := true } else { h with event := some tp }

/-- A call to the HAL, at the clock reading `epoch` for one that enables, `at` for one that
programs or disables. `withdraws` says whether `disable` withdraws a pending interrupt. -/
def call [HAdd τ δ τ] (withdraws : Bool) (epoch «at» : τ) (h : Hardware τ) :
    HalCall τ δ → Option (Hardware τ)
  | .enable => some { h with now := epoch, event := none }
  | .enableFor d tp =>
      if tp = epoch + d then some ({ h with now := epoch, event := none }.program tp) else none
  | .now tp => if h.now ≤ tp then some (h.advance tp) else none
  | .setEventTime tp => some ((h.advance «at»).program tp)
  | .disable =>
      let h := h.advance «at»
      some { h with event := none, interrupt := h.interrupt && !withdraws }

end Hardware

/-! ### The system -/

/-- `entered` says that the interrupt service routine has been entered and is not in the
critical section of `service_task` yet. -/
structure Interrupted (α τ δ : Type*) where
  timer : State α τ δ
  hardware : Hardware τ
  entered : Bool

/-- Time passes, the interrupt service routine is entered, or a step of the timer manager is
taken, in which the clock shows `epoch` when the HAL is enabled and `at` when it is
programmed. -/
inductive Timeline (α τ δ : Type*) where
  | tick (tp : τ)
  | enter
  | call (e : Event α τ δ) (epoch «at» : τ)

section Step

variable [DecidableEq α] [LinearOrder τ] [HAdd τ δ τ] (fused withdraws : Bool)

def Interrupted.init (expirationTime : α → τ) (now : τ) : Interrupted α τ δ :=
  ⟨.init expirationTime, ⟨now, none, false⟩, false⟩

/-- `service_task` is called by the routine that has been entered. -/
def Interrupted.admits (s : Interrupted α τ δ) : Event α τ δ → Bool
  | .service _ => s.entered
  | _ => true

def Interrupted.step (s : Interrupted α τ δ) : Timeline α τ δ → Option (Interrupted α τ δ)
  | .tick tp => some { s with hardware := s.hardware.advance tp }
  | .enter =>
      if s.hardware.interrupt ∧ s.entered = false then
        some { s with hardware := { s.hardware with interrupt := false }, entered := true }
      else none
  | .call e epoch «at» =>
      if s.admits e then
        (Timer.step fused s.timer e).bind fun t =>
          (exec (Hardware.call withdraws epoch «at») s.hardware
            (t.mgr.hal.drop s.timer.mgr.hal.length)).map fun h =>
              ⟨t, h, match e with
                | .service _ => false
                | _ => s.entered⟩
      else none

/-- The number of tasks in a queue whose time has come. -/
def expired (exp : α → τ) (now : τ) (q : List α) : ℕ := q.countP fun t => exp t ≤ now

/-- A task that `service_task` takes is one whose time has come. -/
def InTime (s : Interrupted α τ δ) : Timeline α τ δ → Prop
  | .call (.service (some t)) _ _ => s.timer.mgr.expirationTime t ≤ s.hardware.now
  | _ => True

/-- While an interrupt is pending, or the routine has been entered and has not called
`service_task`, no task is cancelled unless enough tasks whose time has come remain: one for
the interrupt and two for the routine, since `cancel` programs the first of them once more.
With an interrupt pending, the queue may also become empty if `disable` withdraws it. -/
def Kept (s : Interrupted α τ δ) : Timeline α τ δ → Prop
  | .call (.cancel t true) _ «at» =>
      let h := s.hardware.advance «at»
      let rest := s.timer.mgr.taskQueue.erase t
      let left := expired s.timer.mgr.expirationTime h.now rest
      (s.entered = true → 2 ≤ left) ∧
        (h.interrupt = true → 1 ≤ left ∨ rest = [] ∧ withdraws = true)
  | _ => True

end Step

/-! ### The calls of the manager -/

section Calls

variable [DecidableEq α] [LT τ] [DecidableLT τ] {m m' : Manager α τ δ} {t : α} {tp : τ}

/-- The ways a task with expiration time `tp` is linked into the queue, with the calls made
for it. -/
inductive Linked (q : List α) (exp : α → τ) (t : α) (tp : τ) :
    List (HalCall τ δ) → List α → Prop
  | fused (d) : q = [] → Linked q exp t tp [.enableFor d tp] [t]
  | first (readings : List τ) : q = [] →
      Linked q exp t tp (.enable :: (readings.map .now ++ [.setEventTime tp])) [t]
  | front (readings : List τ) (u us) : q = u :: us → tp < exp u →
      Linked q exp t tp (readings.map .now ++ [.setEventTime tp]) (t :: u :: us)
  | behind (readings : List τ) (u us us') : q = u :: us → us'.Perm (t :: us) →
      Linked q exp t tp (readings.map .now) (u :: us')

/-- A task has been linked: the queue, the times and the calls afterwards. -/
def Schedules (m : Manager α τ δ) (t : α) (m' : Manager α τ δ) : Prop :=
  ∃ tp cs, Linked m.taskQueue m.expirationTime t tp cs m'.taskQueue ∧ m'.hal = m.hal ++ cs ∧
    m'.expirationTime = Function.update m.expirationTime t tp

theorem schedules_next (readings : List τ) (hne : m.taskQueue ≠ []) (ht : t ∉ m.taskQueue) :
    Schedules m t (((m.call (readings.map .now)).setExpirationTime t tp).enqueue t) := by
  let m₁ := (m.call (readings.map .now)).setExpirationTime t tp
  have hself : m₁.expirationTime t = tp := by
    simp [m₁, Manager.setExpirationTime]
  have hhal : m₁.hal = m.hal ++ readings.map .now := rfl
  have htimes : (m₁.enqueue t).expirationTime = Function.update m.expirationTime t tp := by
    simp only [Manager.enqueue]
    split <;> rfl
  refine ⟨tp, ?_⟩
  cases hq : m.taskQueue with
  | nil => exact absurd hq hne
  | cons u us =>
      have hfront : m₁.taskQueue = u :: us := hq
      have hu : m₁.expirationTime u = m.expirationTime u :=
        Function.update_of_ne (fun e => ht (by rw [hq, ← e]; exact List.mem_cons_self)) _ _
      by_cases hlt : tp < m.expirationTime u
      · refine ⟨readings.map .now ++ [.setEventTime tp], ?_, ?_, htimes⟩
        · have hqueue : (m₁.enqueue t).taskQueue = t :: u :: us := by
            simp [Manager.enqueue, hfront, hself, hu, hlt]
          exact hqueue ▸ .front readings u us rfl hlt
        · have hcalls : (m₁.enqueue t).hal = m₁.hal ++ [.setEventTime tp] := by
            simp [Manager.enqueue, Manager.call, hfront, hself, hu, hlt]
          rw [hcalls, hhal, List.append_assoc]
      · refine ⟨readings.map .now, ?_, ?_, htimes⟩
        · have hsplit := List.takeWhile_append_dropWhile
            (p := fun v => decide (¬ tp < m₁.expirationTime v)) (l := us)
          have hqueue : (m₁.enqueue t).taskQueue = u ::
              (us.takeWhile (fun v => ¬ tp < m₁.expirationTime v) ++
                t :: us.dropWhile (fun v => ¬ tp < m₁.expirationTime v)) := by
            simp [Manager.enqueue, hfront, hself, hu, hlt]
          refine hqueue ▸ .behind readings u us _ rfl ?_
          exact List.perm_middle.trans (by rw [hsplit])
        · have hcalls : (m₁.enqueue t).hal = m₁.hal := by
            simp [Manager.enqueue, hfront, hself, hu, hlt]
          rw [hcalls, hhal]

theorem schedules_scheduleAt {ep : ExpirationProvider τ} {readings : List τ}
    (ht : t ∉ m.taskQueue) (h : m.scheduleAt t ep readings = some m') : Schedules m t m' := by
  obtain ⟨tp, -, rfl⟩ := Option.map_eq_some_iff.mp h
  by_cases hq : m.taskQueue = []
  · simp only [hq, if_true, List.nil_append]
    refine ⟨tp, .enable :: (readings.map .now ++ [.setEventTime tp]), .first readings hq, ?_, rfl⟩
    simp [Manager.call, Manager.setExpirationTime]
  · simp only [hq, if_false]
    exact schedules_next readings hq ht

theorem schedules_scheduleAfter [HAdd τ δ τ] {fused : Bool} {d : δ} {reading : τ}
    (ht : t ∉ m.taskQueue) : Schedules m t (m.scheduleAfter fused t d reading) := by
  by_cases hq : m.taskQueue = []
  · cases fused with
    | true =>
        simp only [Manager.scheduleAfter, hq, if_true, List.nil_append]
        exact ⟨reading + d, [.enableFor d (reading + d)], .fused d hq, by
          simp [Manager.call, Manager.setExpirationTime], rfl⟩
    | false =>
        simp only [Manager.scheduleAfter, hq, if_true, List.nil_append, Bool.false_eq_true,
          if_false]
        exact ⟨reading + d, .enable :: ([reading].map .now ++ [.setEventTime (reading + d)]),
          .first [reading] hq, by simp [Manager.call, Manager.setExpirationTime], rfl⟩
  · simp only [Manager.scheduleAfter, hq, if_false]
    exact schedules_next [reading] hq ht

end Calls

/-! ### The interrupts are covered -/

section Timed

variable [LinearOrder τ] {exp : α → τ} {q : List α} {h : Hardware τ} {entered : Bool} {t u : α}
  {us : List α} {tp : τ}

/-- The programmed time is that of the first task and has not come, and for each interrupt
that will call `service_task` there is a task in the queue whose time has come. -/
structure Timed (exp : α → τ) (q : List α) (h : Hardware τ) (entered : Bool) : Prop where
  sorted : q.Pairwise fun a b => exp a ≤ exp b
  event : ∀ ev, h.event = some ev → h.now < ev ∧ ∃ u us, q = u :: us ∧ exp u = ev
  covered : h.interrupt.toNat + entered.toNat ≤ expired exp h.now q

theorem expired_mono {now now' : τ} (hnow : now ≤ now') (q : List α) :
    expired exp now q ≤ expired exp now' q :=
  List.countP_mono_left fun t _ ht => by simpa using (of_decide_eq_true ht).trans hnow

theorem expired_cons (now : τ) :
    expired exp now (u :: us) = expired exp now us + if exp u ≤ now then 1 else 0 := by
  simp [expired, List.countP_cons]

theorem expired_eq_zero {now : τ} (hsorted : (u :: us).Pairwise fun a b => exp a ≤ exp b)
    (hu : now < exp u) : expired exp now (u :: us) = 0 := by
  refine List.countP_eq_zero.mpr fun v hv => ?_
  have hle : exp u ≤ exp v := by
    rcases List.mem_cons.mp hv with rfl | hv
    · exact le_rfl
    · exact (List.pairwise_cons.mp hsorted).1 v hv
  simpa using hu.trans_le hle

theorem le_now_of_expired {now : τ} (hsorted : (u :: us).Pairwise fun a b => exp a ≤ exp b)
    (hpos : 0 < expired exp now (u :: us)) : exp u ≤ now := by
  by_contra hu
  rw [expired_eq_zero hsorted (not_le.mp hu)] at hpos
  exact lt_irrefl 0 hpos

@[simp] theorem advance_now (h : Hardware τ) (tp : τ) : (h.advance tp).now = max h.now tp := by
  simp only [Hardware.advance]
  split
  · split <;> rfl
  · rfl

theorem Timed.advance (ht : Timed exp q h entered) (tp : τ) :
    Timed exp q (h.advance tp) entered := by
  have hmono : expired exp h.now q ≤ expired exp (max h.now tp) q :=
    expired_mono (le_max_left h.now tp) q
  cases hev : h.event with
  | none =>
      refine ⟨ht.sorted, by simp [Hardware.advance, hev], ?_⟩
      simpa [Hardware.advance, hev] using ht.covered.trans hmono
  | some ev =>
      obtain ⟨hlt, u, us, rfl, rfl⟩ := ht.event ev hev
      by_cases hle : exp u ≤ max h.now tp
      · -- The time of the first task has come, and nothing was outstanding before.
        have hcovered := ht.covered
        rw [expired_eq_zero ht.sorted hlt] at hcovered
        have hfirst : 1 ≤ expired exp (max h.now tp) (u :: us) := by
          rw [expired_cons, if_pos hle]
          omega
        refine ⟨ht.sorted, by simp [Hardware.advance, hev, hle], ?_⟩
        simp only [Hardware.advance, hev, hle, if_true, Bool.toNat_true]
        omega
      · refine ⟨ht.sorted, ?_, ?_⟩
        · simp only [Hardware.advance, hev, hle, if_false]
          rintro ev ⟨⟩
          exact ⟨not_le.mp hle, u, us, rfl, rfl⟩
        · simpa [Hardware.advance, hev, hle] using ht.covered.trans hmono

/-- The first task is programmed. -/
theorem timed_program (hsorted : (u :: us).Pairwise fun a b => exp a ≤ exp b)
    (hcovered : h.interrupt.toNat + entered.toNat ≤ expired exp h.now (u :: us))
    (hlate : exp u ≤ h.now → 1 + entered.toNat ≤ expired exp h.now (u :: us)) :
    Timed exp (u :: us) (h.program (exp u)) entered := by
  by_cases hle : exp u ≤ h.now
  · refine ⟨hsorted, by simp [Hardware.program, hle], ?_⟩
    simpa [Hardware.program, hle] using hlate hle
  · refine ⟨hsorted, ?_, by simpa [Hardware.program, hle] using hcovered⟩
    simp only [Hardware.program, hle, if_false]
    rintro ev ⟨⟩
    exact ⟨not_le.mp hle, u, us, rfl, rfl⟩

variable [HAdd τ δ τ] {withdraws : Bool} {epoch «at» : τ} {h' : Hardware τ}

theorem Timed.readings (ht : Timed exp q h entered) {readings : List τ}
    (hr : Run (Hardware.call (δ := δ) withdraws epoch «at») h (readings.map .now) h') :
    Timed exp q h' entered := by
  induction readings generalizing h with
  | nil =>
      obtain rfl := run_nil.mp hr
      exact ht
  | cons r rs ih =>
      obtain ⟨h₁, hcall, hr⟩ := run_cons.mp hr
      simp only [Hardware.call] at hcall
      split at hcall <;> cases hcall
      exact ih (ht.advance r) hr

/-- A reading does not disturb what is not in the queue. -/
theorem Timed.congr {exp' : α → τ} (ht : Timed exp q h entered)
    (hexp : ∀ t ∈ q, exp' t = exp t) : Timed exp' q h entered := by
  refine ⟨ht.sorted.imp_of_mem fun ha hb hab => by rwa [hexp _ ha, hexp _ hb], fun ev hev => ?_, ?_⟩
  · obtain ⟨hlt, u, us, rfl, rfl⟩ := ht.event ev hev
    exact ⟨hlt, u, us, rfl, hexp u List.mem_cons_self⟩
  · have hsame : expired exp' h.now q = expired exp h.now q :=
      List.countP_congr fun t ht => by rw [hexp t ht]
    rw [hsame]
    exact ht.covered

/-- The clock has been started again: nothing is in the queue, and nothing outstanding. -/
theorem Timed.enable (ht : Timed exp [] h entered) (epoch : τ) :
    Timed exp [] { h with now := epoch, event := none } entered :=
  ⟨List.Pairwise.nil, nofun, by simpa [expired] using ht.covered⟩

/-- A task is linked in front of the queue and programmed. -/
theorem Timed.link_front (ht : Timed exp q h entered) (tp : τ)
    (hsorted : (t :: q).Pairwise fun a b => exp a ≤ exp b) :
    Timed exp (t :: q) ((h.advance tp).program (exp t)) entered := by
  have hadvanced := (ht.advance tp).covered
  refine timed_program hsorted ?_ fun hle => ?_
  · rw [expired_cons]
    omega
  · rw [expired_cons, if_pos hle]
    omega

variable [DecidableEq α] {m m' : Manager α τ δ} {cs : List (HalCall τ δ)}

theorem Timed.linked (ht : Timed m.expirationTime m.taskQueue h entered)
    (hlinked : Linked m.taskQueue m.expirationTime t tp cs q) (hnew : t ∉ m.taskQueue)
    (hexp : exp = Function.update m.expirationTime t tp)
    (hsorted : q.Pairwise fun a b => exp a ≤ exp b)
    (hr : Run (Hardware.call withdraws epoch «at») h cs h') : Timed exp q h' entered := by
  have hself : exp t = tp := by simp [hexp]
  have hsame : Timed exp m.taskQueue h entered := ht.congr fun u hu => by
    have hne : u ≠ t := fun e => hnew (e ▸ hu)
    rw [hexp, Function.update_of_ne hne]
  cases hlinked with
  | fused d hq =>
      rw [hq] at hsame
      obtain ⟨_, hcall, hr⟩ := run_cons.mp hr
      obtain rfl := run_nil.mp hr
      simp only [Hardware.call] at hcall
      split at hcall <;> cases hcall
      have henabled := hsame.enable epoch
      have hadvance : ({ h with now := epoch, event := none } : Hardware τ).advance epoch =
          { h with now := epoch, event := none } := by
        simp [Hardware.advance]
      simpa only [hself, hadvance] using henabled.link_front (t := t) epoch (by simp)
  | first readings hq =>
      rw [hq] at hsame
      obtain ⟨_, hcall, hr⟩ := run_cons.mp hr
      cases hcall
      obtain ⟨h₂, hreadings, hprogram⟩ := run_append.mp hr
      obtain ⟨_, hcall, hr⟩ := run_cons.mp hprogram
      obtain rfl := run_nil.mp hr
      cases hcall
      have hread := (hsame.enable epoch).readings hreadings
      simpa only [hself] using hread.link_front (t := t) «at» (by simp)
  | front readings u us hq _ =>
      rw [hq] at hsame
      obtain ⟨h₂, hreadings, hprogram⟩ := run_append.mp hr
      obtain ⟨_, hcall, hr⟩ := run_cons.mp hprogram
      obtain rfl := run_nil.mp hr
      cases hcall
      simpa only [hself] using (hsame.readings hreadings).link_front «at» hsorted
  | behind readings u us us' hq hperm =>
      rw [hq] at hsame
      have hread := hsame.readings hr
      refine ⟨hsorted, fun ev hev => ?_, ?_⟩
      · obtain ⟨hlt, v, vs, heq, hv⟩ := hread.event ev hev
        obtain ⟨rfl, rfl⟩ := List.cons.inj heq
        exact ⟨hlt, _, us', rfl, hv⟩
      · have hcount : expired exp h'.now us' = expired exp h'.now (t :: us) :=
          hperm.countP_eq _
        have hcovered := hread.covered
        rw [expired_cons] at hcovered ⊢
        rw [hcount, expired_cons]
        omega

omit [DecidableEq α] in
/-- The calls of `compute_next_event`. -/
theorem Timed.next (m : Manager α τ δ) (hsorted : m.taskQueue.Pairwise fun a b =>
      m.expirationTime a ≤ m.expirationTime b)
    (hempty : m.taskQueue = [] → ((h.advance «at»).interrupt && !withdraws) = false ∧
      entered = false)
    (hcovered : m.taskQueue ≠ [] → (h.advance «at»).interrupt.toNat + entered.toNat ≤
      expired m.expirationTime (h.advance «at»).now m.taskQueue)
    (hlate : entered = true → m.taskQueue ≠ [] →
      2 ≤ expired m.expirationTime (h.advance «at»).now m.taskQueue)
    (hr : Run (Hardware.call withdraws epoch «at») h
      (m.computeNextEvent.hal.drop m.hal.length) h') :
    Timed m.expirationTime m.taskQueue h' entered := by
  cases hq : m.taskQueue with
  | nil =>
      simp only [Manager.computeNextEvent, Manager.call, hq, List.drop_left] at hr
      obtain ⟨_, hcall, hr⟩ := run_cons.mp hr
      obtain rfl := run_nil.mp hr
      cases hcall
      obtain ⟨hinterrupt, hentered⟩ := hempty hq
      exact ⟨List.Pairwise.nil, by simp, by simp [hinterrupt, hentered]⟩
  | cons u us =>
      simp only [Manager.computeNextEvent, Manager.call, hq, List.drop_left] at hr
      obtain ⟨_, hcall, hr⟩ := run_cons.mp hr
      obtain rfl := run_nil.mp hr
      cases hcall
      have hne : m.taskQueue ≠ [] := by simp [hq]
      rw [hq] at hsorted hcovered hlate
      refine timed_program hsorted (hcovered (by simp)) fun hle => ?_
      cases hentered : entered with
      | true => exact hlate hentered (by simp)
      | false =>
          rw [expired_cons, if_pos hle]
          simp

end Timed

/-! ### Runs -/

section Runs

variable [DecidableEq α] [LinearOrder τ] [HAdd τ δ τ] {fused withdraws : Bool}
  {s s' : Interrupted α τ δ} {l : Timeline α τ δ} {q : List α}

/-- The queue and the hardware belong together. -/
structure OnTime (s : Interrupted α τ δ) (q : List α) : Prop where
  keeps : Keeps s.timer q
  timed : Timed s.timer.mgr.expirationTime s.timer.mgr.taskQueue s.hardware s.entered

omit [DecidableEq α] [HAdd τ δ τ] in
theorem QueueOk.pairwise {m : Manager α τ δ} (h : QueueOk m q) :
    m.taskQueue.Pairwise fun a b => m.expirationTime a ≤ m.expirationTime b :=
  List.Pairwise.imp (fun hab => not_lt.mp hab.not_lt) h.order

theorem OnTime.schedule (h : OnTime s q) {m : Manager α τ δ} {t : α} {h' : Hardware τ}
    {epoch «at» : τ} (hm : Schedules s.timer.mgr t m) (ht : t ∉ q) {q' : List α} (hgood : Good m q')
    (hr : Run (Hardware.call withdraws epoch «at») s.hardware
      (m.hal.drop s.timer.mgr.hal.length) h') :
    Timed m.expirationTime m.taskQueue h' s.entered := by
  obtain ⟨tp, cs, hlinked, hhal, hexp⟩ := hm
  rw [hhal, List.drop_left] at hr
  have hnew : t ∉ s.timer.mgr.taskQueue := fun hmem => ht (h.keeps.good.mem_iff.mp hmem)
  exact h.timed.linked hlinked hnew hexp hgood.pairwise hr

theorem OnTime.cancel {t : α} {h' : Hardware τ} {epoch «at» : τ}
    (hC : Kept withdraws s (.call (.cancel t true) epoch «at»)) {m : Manager α τ δ}
    (hm : s.timer.mgr.cancel t = (true, m)) {q' : List α} (hgood : Good m q')
    (hr : Run (Hardware.call withdraws epoch «at») s.hardware
      (m.hal.drop s.timer.mgr.hal.length) h') :
    Timed m.expirationTime m.taskQueue h' s.entered := by
  obtain ⟨hentered, hinterrupt⟩ := hC
  simp only [Manager.cancel] at hm
  split at hm <;> cases hm
  have hsorted := hgood.pairwise
  simp only [computeNextEvent_taskQueue, computeNextEvent_expirationTime] at hsorted ⊢
  refine Timed.next { s.timer.mgr with
    taskQueue := s.timer.mgr.taskQueue.erase t
    pending := Function.update s.timer.mgr.pending t false
    taskCount := s.timer.mgr.taskCount - 1 } hsorted (fun hempty => ?_) (fun hne => ?_)
    (fun he _ => hentered he) hr
  · -- Nothing is left: the routine has not been entered, and the interrupt is withdrawn.
    dsimp only at hempty
    rw [hempty] at hentered hinterrupt
    simp only [expired, List.countP_nil] at hentered hinterrupt
    constructor
    · by_contra hpending
      simp only [Bool.and_eq_true, Bool.not_eq_true', Bool.not_eq_false] at hpending
      obtain hle | ⟨-, hwithdraws⟩ := hinterrupt hpending.1
      · exact absurd hle (by simp)
      · simp [hwithdraws] at hpending
    · by_contra he
      exact absurd (hentered (by simpa using he)) (by simp)
  · dsimp only at hne ⊢
    cases he : s.entered with
    | true =>
        have hle := hentered he
        have := Bool.toNat_le (s.hardware.advance «at»).interrupt
        simp only [Bool.toNat_true]
        omega
    | false =>
        cases hi : (s.hardware.advance «at»).interrupt with
        | false => simp
        | true =>
            obtain hle | ⟨hempty, -⟩ := hinterrupt hi
            · simpa using hle
            · exact absurd hempty hne

/-- The routine that has been entered takes a task whose time has come. -/
theorem OnTime.service (h : OnTime s q) (hentered : s.entered = true) {t : Option α}
    {h' : Hardware τ} {epoch «at» : τ} {m : Manager α τ δ} (hm : s.timer.mgr.popTask = (t, m))
    {q' : List α} (hgood : Good m q')
    (hr : Run (Hardware.call withdraws epoch «at») s.hardware
      (m.hal.drop s.timer.mgr.hal.length) h') :
    (∃ u, t = some u ∧ s.timer.mgr.expirationTime u ≤ s.hardware.now) ∧
      Timed m.expirationTime m.taskQueue h' false := by
  have hadvance := h.timed.advance «at»
  have hcovered := h.timed.covered
  have hcovered' := hadvance.covered
  have hsorted := h.timed.sorted
  -- the routine has been entered for a task whose time has come, so no event is programmed
  have hinterrupt : (s.hardware.advance «at»).event = none ∧
      (s.hardware.advance «at»).interrupt = s.hardware.interrupt := by
    cases hev : s.hardware.event with
    | none => simp [Hardware.advance, hev]
    | some ev =>
        obtain ⟨hlt, u, us, hq, rfl⟩ := h.timed.event ev hev
        rw [hq] at hcovered hsorted
        rw [expired_eq_zero hsorted hlt] at hcovered
        simp [hentered] at hcovered
  cases hq : s.timer.mgr.taskQueue with
  | nil => simp [hq, hentered, expired] at hcovered
  | cons n rest =>
      simp only [Manager.popTask, hq, Prod.mk.injEq] at hm
      obtain ⟨rfl, rfl⟩ := hm
      rw [hq] at hcovered hcovered' hsorted
      simp only [hentered, Bool.toNat_true, expired_cons] at hcovered'
      have hfirst : s.timer.mgr.expirationTime n ≤ s.hardware.now := by
        simp only [hentered, Bool.toNat_true] at hcovered
        exact le_now_of_expired hsorted (by omega)
      refine ⟨⟨n, rfl, hfirst⟩, ?_⟩
      have hsorted' := hgood.pairwise
      simp only [computeNextEvent_taskQueue, computeNextEvent_expirationTime] at hsorted' ⊢
      have hle : (s.hardware.advance «at»).interrupt.toNat ≤
          expired s.timer.mgr.expirationTime (s.hardware.advance «at»).now rest := by
        split at hcovered' <;> omega
      refine Timed.next { s.timer.mgr with
        taskQueue := rest
        pending := Function.update s.timer.mgr.pending n false } hsorted' (fun hempty => ?_)
        (fun _ => by simpa using hle) (by simp) hr
      dsimp only at hempty
      rw [hempty] at hle
      have hnone : (s.hardware.advance «at»).interrupt = false := by
        simpa [expired] using hle
      simp [hnone]

omit [DecidableEq α] in
/-- A call that makes none to the HAL. -/
theorem OnTime.quiet (h : OnTime s q) {m : Manager α τ δ} {h' : Hardware τ} {epoch «at» : τ}
    (hqueue : m.taskQueue = s.timer.mgr.taskQueue)
    (hexp : m.expirationTime = s.timer.mgr.expirationTime) (hhal : m.hal = s.timer.mgr.hal)
    (hr : Run (Hardware.call withdraws epoch «at») s.hardware
      (m.hal.drop s.timer.mgr.hal.length) h') :
    Timed m.expirationTime m.taskQueue h' s.entered := by
  rw [hhal, List.drop_length] at hr
  obtain rfl := run_nil.mp hr
  rw [hqueue, hexp]
  exact h.timed

omit [DecidableEq α] [HAdd τ δ τ] in
/-- A task that is not in the abstract queue is not in the manager's, nor pending. -/
theorem OnTime.not_scheduled (h : OnTime s q) {t : α} (ht : t ∉ q) :
    t ∉ s.timer.mgr.taskQueue ∧ s.timer.mgr.pending t = false :=
  ⟨fun hmem => ht (h.keeps.good.mem_iff.mp hmem), by simpa using mt (h.keeps.good.pending t).mp ht⟩

theorem OnTime.step (h : OnTime s q) (hC : Kept withdraws s l)
    (hs : s.step fused withdraws l = some s') : (∃ q', OnTime s' q') ∧ InTime s l := by
  cases l with
  | tick tp =>
      cases hs
      exact ⟨⟨q, h.keeps, h.timed.advance tp⟩, True.intro⟩
  | enter =>
      simp only [Interrupted.step] at hs
      split at hs <;> cases hs
      next hc =>
        refine ⟨⟨q, h.keeps, h.timed.sorted, h.timed.event, ?_⟩, True.intro⟩
        simpa [hc.1, hc.2] using h.timed.covered
  | call e epoch «at» =>
      simp only [Interrupted.step] at hs
      split at hs
      · next hadmits =>
          obtain ⟨u, hu, hs⟩ := Option.bind_eq_some_iff.mp hs
          obtain ⟨h', hr, rfl⟩ := Option.map_eq_some_iff.mp hs
          obtain ⟨q', -, hkeeps⟩ := h.keeps.step hu
          cases e with
          | runAfter t d reading added =>
              obtain ⟨m, hm, rfl⟩ := step_runAfter hu
              refine ⟨⟨q', hkeeps, ?_⟩, True.intro⟩
              rcases h.keeps.good.runAfter hm with ⟨rfl, -, rfl⟩ | ⟨rfl, ht, hgood, -⟩
              · exact h.quiet rfl rfl rfl hr
              · refine h.schedule ?_ ht hgood hr
                obtain ⟨hnew, hp⟩ := h.not_scheduled ht
                rw [Manager.runAfter, hp] at hm
                obtain ⟨-, rfl⟩ := Prod.mk.inj hm
                exact schedules_scheduleAfter (m := { s.timer.mgr with
                  pending := Function.update s.timer.mgr.pending t true
                  taskCount := s.timer.mgr.taskCount + 1 }) hnew
          | runAt t ep readings added =>
              obtain ⟨m, hm, rfl⟩ := step_runAt hu
              refine ⟨⟨q', hkeeps, ?_⟩, True.intro⟩
              rcases h.keeps.good.runAt hm with ⟨rfl, -, rfl⟩ | ⟨rfl, ht, hgood, -⟩
              · exact h.quiet rfl rfl rfl hr
              · refine h.schedule ?_ ht hgood hr
                obtain ⟨hnew, hp⟩ := h.not_scheduled ht
                rw [Manager.runAt, hp] at hm
                obtain ⟨m₁, hm₁, heq⟩ := Option.map_eq_some_iff.mp hm
                obtain ⟨-, rfl⟩ := Prod.mk.inj heq
                exact schedules_scheduleAt (m := { s.timer.mgr with
                  pending := Function.update s.timer.mgr.pending t true
                  taskCount := s.timer.mgr.taskCount + 1 }) hnew hm₁
          | cancel t cancelled =>
              obtain ⟨m, hm, rfl⟩ := step_cancel hu
              refine ⟨⟨q', hkeeps, ?_⟩, True.intro⟩
              rcases h.keeps.good.cancel hm with ⟨rfl, -, rfl⟩ | ⟨rfl, ht, hgood, -⟩
              · exact h.quiet rfl rfl rfl hr
              · exact OnTime.cancel hC hm hgood hr
          | service popped =>
              -- the only call that takes a task, and only the routine makes it
              obtain ⟨m, hm, rfl⟩ := step_service hu
              obtain ⟨⟨t, rfl, hle⟩, htimed⟩ := h.service hadmits hm hkeeps.good hr
              exact ⟨⟨q', hkeeps, htimed⟩, hle⟩
          | run t =>
              obtain ⟨-, rfl⟩ := step_run hu
              exact ⟨⟨q', hkeeps, h.quiet rfl rfl rfl hr⟩, True.intro⟩
          | finish t =>
              obtain ⟨-, rfl⟩ := step_finish hu
              exact ⟨⟨q', hkeeps, h.quiet rfl rfl rfl hr⟩, True.intro⟩
      · cases hs

end Runs

/-- `service_task` takes no task before its time, if no task whose interrupt is outstanding is
cancelled. -/
theorem inTime_of_kept [DecidableEq α] [LinearOrder τ] [HAdd τ δ τ] {fused withdraws : Bool}
    {expirationTime : α → τ} {now : τ} {tr : List (Timeline α τ δ)} {s : Interrupted α τ δ}
    (h : Run (Interrupted.step fused withdraws) (.init expirationTime now) tr s)
    (hC : EachStep (Interrupted.step fused withdraws) (Kept withdraws)
      (.init expirationTime now) tr) :
    EachStep (Interrupted.step fused withdraws) InTime (.init expirationTime now) tr := by
  have hrun := h.induction_of_eachStep
    (P := fun tr s => EachStep (Interrupted.step fused withdraws) InTime
        (.init expirationTime now) tr ∧ ∃ q, OnTime s q)
    ⟨True.intro, [], ⟨good_init expirationTime, rfl⟩, List.Pairwise.nil, nofun, Nat.zero_le _⟩
    (fun tr s l s' hr ih hC hs => by
      obtain ⟨hin, q, hq⟩ := ih
      obtain ⟨hnext, hstep⟩ := hq.step hC hs
      exact ⟨hin.concat hr hstep, hnext⟩) hC
  exact hrun.1

/-- Two tasks are scheduled, and their times come. -/
def bothServed : List (Timeline Bool ℤ ℤ) :=
  [.call (.runAfter false 10 0 true) 0 0, .call (.runAfter true 20 1 true) 1 1, .tick 25, .enter,
    .call (.service (some false)) 0 26, .enter, .call (.service (some true)) 0 27]

theorem inTime_of_kept_bothServed :
    EachStep (Interrupted.step false false) InTime (.init (fun _ => 0) 0) bothServed := by
  obtain ⟨s, hs⟩ : ∃ s, Run (Interrupted.step false false) (.init (fun _ => 0) 0) bothServed s :=
    exists_run_iff.mpr rfl
  refine inTime_of_kept hs ?_
  exact ⟨True.intro, fun _ _ => ⟨True.intro, fun _ _ => ⟨True.intro, fun _ _ => ⟨True.intro,
    fun _ _ => ⟨True.intro, fun _ _ => ⟨True.intro, fun _ _ => ⟨True.intro,
      fun _ _ => True.intro⟩⟩⟩⟩⟩⟩⟩

/-- The first of two tasks is cancelled when its time has come and before the routine is
entered, which then finds the other one. -/
def cancelledLate : List (Timeline Bool ℤ ℤ) :=
  [.call (.runAfter false 10 0 true) 0 0, .call (.runAfter true 20 0 true) 0 0, .tick 10,
    .call (.cancel false true) 0 10, .enter]

theorem not_inTime_cancelledLate :
    ¬ ∀ (withdraws : Bool) (tr : List (Timeline Bool ℤ ℤ)) (s s' : Interrupted Bool ℤ ℤ)
        (t : Bool) («at» : ℤ), Run (Interrupted.step false withdraws) (.init (fun _ => 0) 0) tr s →
      s.step false withdraws (.call (.service (some t)) 0 «at») = some s' →
      s.timer.mgr.expirationTime t ≤ s.hardware.now := by
  intro hall
  have hle := hall true cancelledLate _ _ true 10 rfl rfl
  exact absurd hle (by decide)

end BaremetalSenders.Timer
