import BaremetalSenders.Adaptors.TimeoutAfter
import BaremetalSenders.Schedulers.TimeSchedulerCompletion

/-!
What `timeout_after` completes with.

A run of the whole is a run of the `when_any` and a run of the `time_scheduler`
operation, so everything that holds of these holds here. What connects the two
is little (`Linked`): the flag of the stop source, the order of the starts, and
that the first child completes with what the `time_scheduler` operation has
sent. If that is a set_stopped, stop was requested by the other child's
completion or by the receiver, so a set_stopped of the timer's is never what
the receiver gets instead of the other child's completion.
-/

namespace BaremetalSenders.TimeoutAfter

open Join

variable {α τ δ κ V E : Type*}

def Op.anyLabel (op : Op α κ τ δ V E) : Label α τ δ κ V E → Option (Join.Label 2 V E)
  | .any l => some l
  | .send r => some (.complete 0 (op.sends r))
  | .destroy | .timeout _ => none

def Label.timeoutLabel : Label α τ δ κ V E → Option (TimeScheduler.Label α τ δ κ Caller)
  | .any l => (requestOf l).map fun r => .source (.exchange r)
  | .destroy | .send _ => none
  | .timeout l => some l

variable [DecidableEq α] [DecidableEq κ] [LT τ] [DecidableLT τ] [HAdd τ δ τ]

/-! ### What a step can do -/

inductive Move (fused : Bool) (op : Op α κ τ δ V E) (s : State α τ δ κ V E) :
    Label α τ δ κ V E → State α τ δ κ V E → Prop
  | any {l : Join.Label 2 V E} {any : Join.State 2 V E (Option (Completion V E))}
      (hadmits : s.admitsAny l = true) (hs : Join.step (anyOps V E) s.any l = some any)
      (hr : requestOf l = none) : Move fused op s (.any l) { s with any }
  | request {l : Join.Label 2 V E} {any : Join.State 2 V E (Option (Completion V E))} {r : Caller}
      {timeout : TimeScheduler.State α τ δ κ Caller} (hadmits : s.admitsAny l = true)
      (hs : Join.step (anyOps V E) s.any l = some any) (hr : requestOf l = some r)
      (ht : TimeScheduler.step fused op.timer s.timeout (.source (.exchange r)) = some timeout) :
      Move fused op s (.any l) { s with any, timeout }
  | send {r : TimeScheduler.Completion} {any : Join.State 2 V E (Option (Completion V E))}
      (hreceived : s.timeout.received = [r]) (hdestroyed : r = .value → s.destroyed = true)
      (hs : Join.step (anyOps V E) s.any (.complete 0 (op.sends r)) = some any) :
      Move fused op s (.send r) { s with any }
  | destroy (hreceived : s.timeout.received = [.value])
      (hstart : s.timeout.start.hasReturned = false) :
      Move fused op s .destroy { s with destroyed := true }
  | timeout {l : TimeScheduler.Label α τ δ κ Caller}
      {timeout : TimeScheduler.State α τ δ κ Caller} (hadmits : s.admits op l = true)
      (ht : TimeScheduler.step fused op.timer s.timeout l = some timeout) :
      Move fused op s (.timeout l) { s with
        timeout
        destroyed := s.destroyed || op.destroys l
        fault := s.destroyed && op.touches l }

variable {fused : Bool} {op : Op α κ τ δ V E} {s s' : State α τ δ κ V E}
  {tr : List (Label α τ δ κ V E)} {l : Label α τ δ κ V E} {expirationTime : α → τ}

theorem step_eq_act (h : step fused op s l = some s') :
    s.fault = false ∧ act fused op s l = some s' := by
  unfold step at h
  split at h
  · cases h
  · next hfault => exact ⟨by simpa using hfault, h⟩

theorem step_move (h : step fused op s l = some s') : Move fused op s l s' := by
  replace h := (step_eq_act h).2
  cases l with
  | any l =>
      simp only [act] at h
      split at h
      next hadmits =>
        obtain ⟨any, hs, hrest⟩ := Option.bind_eq_some_iff.mp h
        split at hrest
        next hr =>
          cases hrest
          exact .any hadmits hs hr
        next r hr =>
          obtain ⟨timeout, ht, rfl⟩ := Option.map_eq_some_iff.mp hrest
          exact .request hadmits hs hr ht
      next => cases h
  | destroy =>
      simp only [act] at h
      split at h <;> cases h
      next hc => exact .destroy hc.1 hc.2.1
  | send r =>
      simp only [act] at h
      split at h
      next hc =>
        obtain ⟨any, hs, rfl⟩ := Option.map_eq_some_iff.mp h
        exact .send hc.1 hc.2 hs
      next => cases h
  | timeout l =>
      simp only [act] at h
      split at h
      next hadmits =>
        obtain ⟨timeout, ht, rfl⟩ := Option.map_eq_some_iff.mp h
        exact .timeout hadmits ht
      next => cases h

theorem any_of_run (h : Run (step fused op) (.init expirationTime) tr s) :
    Run (Join.step (anyOps V E)) (anyOps V E).initial (tr.filterMap op.anyLabel) s.any := by
  refine h.project State.any op.anyLabel fun s l s' hs => ?_
  cases step_move hs with
  | any _ hs' | request _ hs' | send _ _ hs' => simpa [Op.anyLabel] using hs'
  | destroy | timeout => exact run_nil.mpr rfl

theorem timeout_of_run (h : Run (step fused op) (.init expirationTime) tr s) :
    Run (TimeScheduler.step fused op.timer) (.init expirationTime)
      (tr.filterMap Label.timeoutLabel) s.timeout := by
  refine h.project State.timeout Label.timeoutLabel fun s l s' hs => ?_
  cases step_move hs with
  | any _ _ hr => simp [Label.timeoutLabel, hr]
  | request _ _ hr ht => simpa [Label.timeoutLabel, hr] using ht
  | destroy | send => exact run_nil.mpr rfl
  | timeout _ ht => simpa [Label.timeoutLabel] using ht

theorem reached_of_run (h : Run (step fused op) (.init expirationTime) tr s) :
    Join.Reached (anyOps V E) (tr.filterMap op.anyLabel) s.any :=
  Join.reached_of_run (by decide) (any_of_run h)

/-! ### What connects the two -/

/-- The completions of the children, in the order in which they got to `emplace`. -/
def Op.completions (op : Op α κ τ δ V E) (tr : List (Label α τ δ κ V E)) :
    List (Fin 2 × Completion V E) := Join.completions (tr.filterMap op.anyLabel)

/-- The steps of the `when_any` and the calls of `request_stop`. -/
theorem requested_of_any {s s' : Join.State 2 V E (Option (Completion V E))}
    {l : Join.Label 2 V E} {tr : List (Join.Label 2 V E)}
    (hr : Run (Join.step (anyOps V E)) (anyOps V E).initial tr s)
    (hs : Join.step (anyOps V E) s l = some s') :
    s'.requested = (s.requested || (requestOf l).isSome) := by
  cases Join.step_move hs with
  | runStopCb => simp [requestOf]
  | @act i c a as hphase =>
      have hrec := (Join.reached_of_run (by decide) hr).recorded
      obtain ⟨d, hd⟩ := hrec.todo i c ((hrec.completion i c).mp (by rw [hphase]; rfl))
      have hmem : a ∈ (anyOps V E).rest i c d := hd.subset (by simp [hphase, Phase.todo])
      obtain rfl : a = .requestStop := by
        simpa [anyOps, WhenAny.opState, WhenAny.operation, WhenAny.firstComplete] using hmem
      simp [requestOf, State.apply]
  | rcvrRequestStop | popStopCb | emplaceStopCb | startStopped | startChildren | startChild
  | complete | arrive | arriveLast | ignore | resetStopCb | finish => simp [requestOf]

omit [DecidableEq α] [DecidableEq κ] [LT τ] [DecidableLT τ] [HAdd τ δ τ] in
theorem mem_completions_concat {x : Fin 2 × Completion V E} :
    x ∈ op.completions (tr ++ [l]) ↔
      x ∈ op.completions tr ∨ (op.anyLabel l).bind Join.Label.completion = some x := by
  cases hl : op.anyLabel l with
  | none => simp [Op.completions, hl]
  | some l' => simp [Op.completions, hl, Join.completions_concat, eq_comm]

omit [DecidableEq α] [DecidableEq κ] [LT τ] [DecidableLT τ] [HAdd τ δ τ] in
theorem mem_second {c : Completion V E} :
    (1, c) ∈ op.completions tr ↔ .any (.complete 1 c) ∈ tr := by
  simp only [Op.completions, Join.completions, List.mem_filterMap]
  constructor
  · rintro ⟨l', ⟨l, hl, hany⟩, hc⟩
    obtain rfl : l' = .complete 1 c := by
      cases l' <;> simp_all [Join.Label.completion]
    cases l with
    | any l =>
        cases hany
        exact hl
    | send r => simp [Op.anyLabel] at hany
    | destroy | timeout => cases hany
  · exact fun h => ⟨_, ⟨_, h, rfl⟩, rfl⟩

structure Linked (op : Op α κ τ δ V E) (tr : List (Label α τ δ κ V E))
    (s : State α τ δ κ V E) : Prop where
  requested : s.any.requested = s.timeout.source.source.requested
  started : (s.any.phase 0).isIdle = true → s.timeout.start = .connected
  second : (s.any.phase 1).isIdle = false → s.timeout.start.hasReturned = true
  sent : ∀ r, .send r ∈ tr → s.timeout.received = [r]
  first : ∀ c, (0, c) ∈ op.completions tr → ∃ r, .send r ∈ tr ∧ c = op.sends r
  finished : .timeout (.timer (.finish op.timer.task)) ∈ tr → ∃ c, (0, c) ∈ op.completions tr
  /-- The timer was stopped by the other child's completion or by the receiver. -/
  asked : s.timeout.received = [.stopped] →
    (∃ c, (1, c) ∈ op.completions tr) ∨ s.any.rcvrRequested = true

omit [DecidableEq α] [DecidableEq κ] [LT τ] [DecidableLT τ] [HAdd τ δ τ] in
theorem linked_init :
    Linked op [] (.init expirationTime : State α τ δ κ V E) where
  requested := rfl
  started := fun _ => rfl
  second := fun h => by cases h
  sent := by simp
  first := by simp [Op.completions, Join.completions]
  finished := by simp
  asked := fun h => by cases h

omit [DecidableEq α] [DecidableEq κ] [LT τ] [DecidableLT τ] [HAdd τ δ τ] in
/-- A label that stands for nothing that is counted here. -/
theorem Linked.label (h : Linked op tr s) (hany : op.anyLabel l = none) (hsend : ∀ r, l ≠ .send r)
    (hfinish : l ≠ .timeout (.timer (.finish op.timer.task))) : Linked op (tr ++ [l]) s where
  requested := h.requested
  started := h.started
  second := h.second
  sent := by simpa [(hsend _).symm] using h.sent
  first := by
    intro c hc
    rw [mem_completions_concat, hany] at hc
    obtain ⟨r, hr, hc⟩ := h.first c (by simpa using hc)
    exact ⟨r, List.mem_append_left _ hr, hc⟩
  finished := by
    simpa [mem_completions_concat, hany, hfinish.symm] using h.finished
  asked := by simpa [mem_completions_concat, hany] using h.asked

omit [DecidableEq α] [DecidableEq κ] [LT τ] [DecidableLT τ] [HAdd τ δ τ] in
/-- A step of the `when_any`, with or without a call of `request_stop`. -/
theorem Linked.any {l : Join.Label 2 V E} {any : Join.State 2 V E (Option (Completion V E))}
    {timeout : TimeScheduler.State α τ δ κ Caller} (h : Linked op tr s)
    (hadmits : s.admitsAny l = true) (hs : Join.step (anyOps V E) s.any l = some any)
    (hrequested : any.requested = timeout.source.source.requested)
    (hstart : timeout.start = s.timeout.start) (hreceived : timeout.received = s.timeout.received) :
    Linked op (tr ++ [.any l]) { s with any, timeout } where
  requested := hrequested
  started := fun hidle => by
    dsimp only
    rw [hstart]
    refine h.started ?_
    rcases Join.isIdle_step hs 0 with hsame | ⟨-, hnot⟩
    · rw [← hsame]
      exact hidle
    · simp [hnot] at hidle
  second := fun hidle => by
    dsimp only
    rw [hstart]
    rcases Join.isIdle_step hs 1 with hsame | ⟨rfl, -⟩
    · exact h.second (hsame ▸ hidle)
    · simpa [State.admitsAny] using hadmits
  sent := fun r hmem => by
    dsimp only
    rw [hreceived]
    exact h.sent r (by simpa using hmem)
  first := fun c hmem => by
    rcases mem_completions_concat.mp hmem with hold | hnew
    · obtain ⟨r, hr, hc⟩ := h.first c hold
      exact ⟨r, List.mem_append_left _ hr, hc⟩
    · cases l <;> simp_all [Op.anyLabel, Join.Label.completion, State.admitsAny]
  finished := fun hmem => by
    obtain ⟨c, hc⟩ := h.finished (by simpa using hmem)
    exact ⟨c, mem_completions_concat.mpr (.inl hc)⟩
  asked := fun hstopped => by
    refine (h.asked (hreceived ▸ hstopped)).imp ?_ fun hreq => ?_
    · rintro ⟨c, hc⟩
      exact ⟨c, mem_completions_concat.mpr (.inl hc)⟩
    · by_contra hno
      simp [Join.rcvrRequested_of_step hs (by simpa using hno)] at hreq

omit [DecidableEq α] [DecidableEq κ] [LT τ] [DecidableLT τ] [HAdd τ δ τ] in
theorem Linked.send {r : TimeScheduler.Completion}
    {any : Join.State 2 V E (Option (Completion V E))} (h : Linked op tr s)
    (hr : Run (Join.step (anyOps V E)) (anyOps V E).initial (tr.filterMap op.anyLabel) s.any)
    (hreceived : s.timeout.received = [r])
    (hs : Join.step (anyOps V E) s.any (.complete 0 (op.sends r)) = some any) :
    Linked op (tr ++ [.send r]) { s with any } where
  requested := by
    dsimp only
    rw [requested_of_any hr hs, h.requested]
    simp [requestOf]
  started := fun hidle => h.started (by
    rcases Join.isIdle_step hs 0 with hsame | ⟨hl, -⟩
    · rw [← hsame]
      exact hidle
    · cases hl)
  second := fun hidle => h.second (by
    rcases Join.isIdle_step hs 1 with hsame | ⟨hl, -⟩
    · rw [← hsame]
      exact hidle
    · cases hl)
  sent := fun r' hmem => by
    rcases List.mem_append.mp hmem with hold | hnew
    · exact h.sent r' hold
    · obtain rfl : r' = r := by simpa using hnew
      exact hreceived
  first := fun c hmem => by
    rcases mem_completions_concat.mp hmem with hold | hnew
    · obtain ⟨r', hr', hc⟩ := h.first c hold
      exact ⟨r', List.mem_append_left _ hr', hc⟩
    · exact ⟨r, by simp, by simpa [Op.anyLabel, Join.Label.completion, eq_comm] using hnew⟩
  finished := fun hmem => by
    obtain ⟨c, hc⟩ := h.finished (by simpa using hmem)
    exact ⟨c, mem_completions_concat.mpr (.inl hc)⟩
  asked := fun hstopped => by
    refine (h.asked hstopped).imp ?_ fun hreq => ?_
    · rintro ⟨c, hc⟩
      exact ⟨c, mem_completions_concat.mpr (.inl hc)⟩
    · by_contra hno
      simp [Join.rcvrRequested_of_step hs (by simpa using hno)] at hreq

variable [IsStrictWeakOrder τ (· < ·)]

omit [IsStrictWeakOrder τ (· < ·)] in
/-- Before the first child has completed, stop was requested by the other one's completion or
by the receiver. -/
theorem Linked.cause (h : Linked op tr s)
    (hr : Run (step fused op) (.init expirationTime) tr s) (hreceived : s.timeout.received = [])
    (hreq : s.any.requested = true) :
    (∃ c, (1, c) ∈ op.completions tr) ∨ s.any.rcvrRequested = true := by
  have hstop := (reached_of_run hr).stopOk
  rcases hstop.origin hreq with hran | ⟨i, c, d, hmem, -⟩
  · exact .inr (hstop.wanted (.inr (.inr (hstop.spent.mpr hran))))
  · refine .inl ⟨c, ?_⟩
    rcases Fin.exists_fin_two.mp ⟨i, rfl⟩ with rfl | rfl
    · obtain ⟨r, hr, -⟩ := h.first c hmem
      have hsent := h.sent r hr
      simp [hreceived] at hsent
    · exact hmem

theorem Linked.timeout {l : TimeScheduler.Label α τ δ κ Caller}
    {timeout : TimeScheduler.State α τ δ κ Caller} (h : Linked op tr s)
    (hr : Run (step fused op) (.init expirationTime) tr s) (hadmits : s.admits op l = true)
    (ht : TimeScheduler.step fused op.timer s.timeout l = some timeout) :
    Linked op (tr ++ [.timeout l]) { s with timeout } := by
  have hrun := timeout_of_run hr
  have hcompletions {x : Fin 2 × Completion V E} :
      x ∈ op.completions (tr ++ [.timeout l]) ↔ x ∈ op.completions tr := by
    rw [mem_completions_concat]
    simp [Op.anyLabel]
  obtain ⟨cs, hcs⟩ := TimeScheduler.received_step ht
  have hle := TimeScheduler.length_received_le (hrun.concat ht)
  refine ⟨?_, fun hidle => ?_, fun hidle => ?_, fun r hmem => ?_, fun c hmem => ?_,
    fun hmem => ?_, fun hstopped => ?_⟩
  · have hnot : l.stopLabel.any StopToken.Label.isExchange = false := by
      cases l with
      | source l =>
          cases l <;> simp_all [State.admits, TimeScheduler.Label.stopLabel,
            StopToken.Label.isExchange]
      | check | setStopped | schedule | startReturn | cancel | callbackSetStopped | timer => rfl
    dsimp only
    rw [TimeScheduler.requested_step ht, hnot, Bool.or_false, h.requested]
  · refine TimeScheduler.connected_step ht (h.started hidle) ?_
    rintro b rfl
    simp [State.admits, show (s.any.phase 0).isIdle = true from hidle] at hadmits
  · exact TimeScheduler.hasReturned_step ht (h.second hidle)
  · have hreceived := h.sent r (by simpa using hmem)
    rw [hcs, hreceived, List.length_append, List.length_singleton] at hle
    obtain rfl : cs = [] := List.length_eq_zero_iff.mp (by omega)
    simp [hcs, hreceived]
  · obtain ⟨r, hr, hc⟩ := h.first c (hcompletions.mp hmem)
    exact ⟨r, List.mem_append_left _ hr, hc⟩
  · rcases List.mem_append.mp hmem with hold | hnew
    · obtain ⟨c, hc⟩ := h.finished hold
      exact ⟨c, hcompletions.mpr hc⟩
    · -- `service_task` goes on when the call of the first child's completion is back.
      obtain rfl : l = .timer (.finish op.timer.task) := by simpa [eq_comm] using hnew
      have hreturned : (s.any.phase 0).returned = true := by simpa [State.admits] using hadmits
      obtain ⟨c, hc⟩ : ∃ c, (s.any.phase 0).completion = some c := by
        cases hp : s.any.phase 0 <;> simp_all [Phase.returned, Phase.completion]
      exact ⟨c, hcompletions.mpr (((reached_of_run hr).recorded.completion 0 c).mp hc)⟩
  · by_cases hold : s.timeout.received = [.stopped]
    · refine (h.asked hold).imp_left ?_
      rintro ⟨c, hc⟩
      exact ⟨c, hcompletions.mpr hc⟩
    · -- The set_stopped is sent in this step, so stop has been requested.
      have hstopped : timeout.received = [.stopped] := hstopped
      have hnil : s.timeout.received = [] := by
        rcases List.append_eq_singleton_iff.mp (hcs.symm.trans hstopped) with hnil | hone
        · exact hnil.1
        · exact absurd hone.1 hold
      have hway : s.timeout.start = .stopping ∨ s.timeout.stopCallback ≠ .idle := by
        cases TimeScheduler.step_move ht with
        | setStopped hstart => exact .inl hstart
        | callbackSetStopped hcb => exact .inr (by simp [hcb])
        | @timer e =>
            simp only [hnil, List.nil_append] at hstopped
            cases e with
            | run t =>
                simp only [TimeScheduler.Op.run] at hstopped
                split at hstopped <;> cases hstopped
            | runAfter | runAt | cancel | service | finish => cases hstopped
        | found | checked | schedule | startReturn | cancel => simp [hnil] at hstopped
        | source => simp [hnil] at hstopped
      have hreq := TimeScheduler.requested_of_run hrun hway
      refine (h.cause hr hnil (h.requested.trans hreq)).imp_left ?_
      rintro ⟨c, hc⟩
      exact ⟨c, hcompletions.mpr hc⟩

omit [IsStrictWeakOrder τ (· < ·)] in
theorem exchange_frame {op : TimeScheduler.Op α κ τ δ} {r : Caller}
    {s s' : TimeScheduler.State α τ δ κ Caller}
    (h : TimeScheduler.step fused op s (.source (.exchange r)) = some s') :
    s'.start = s.start ∧ s'.received = s.received := by
  cases TimeScheduler.step_move h with
  | source => exact ⟨rfl, rfl⟩

theorem Linked.step (h : Linked op tr s) (hr : Run (step fused op) (.init expirationTime) tr s)
    (hs : step fused op s l = some s') : Linked op (tr ++ [l]) s' := by
  cases step_move hs with
  | any hadmits hstep hnone =>
      refine h.any hadmits hstep ?_ rfl rfl
      rw [requested_of_any (any_of_run hr) hstep, hnone, h.requested]
      simp
  | request hadmits hstep hsome ht =>
      obtain ⟨hstart, hreceived⟩ := exchange_frame ht
      refine h.any hadmits hstep ?_ hstart hreceived
      rw [requested_of_any (any_of_run hr) hstep, hsome, TimeScheduler.requested_step ht]
      simp [TimeScheduler.Label.stopLabel, StopToken.Label.isExchange]
  | destroy => exact { h.label (by simp [Op.anyLabel]) (by simp) (by simp) with }
  | send hreceived _ hstep => exact h.send (any_of_run hr) hreceived hstep
  | timeout hadmits ht => exact { h.timeout hr hadmits ht with }

theorem linked_of_run (h : Run (step fused op) (.init expirationTime) tr s) : Linked op tr s :=
  Run.induction (P := Linked op) linked_init (fun _ _ _ _ hr ih hs => ih.step hr hs) h

/-! ### When every call has returned -/

/-- Every call that was begun has returned: `start`, the calls of `request_stop`, also on the
receiver's source, `service_task` as far as it is about the operation's task, and the
completions of the children. -/
structure Quiet (op : Op α κ τ δ V E) (s : State α τ δ κ V E) : Prop where
  start : s.any.pc = .stopped ∨ s.any.pc = .starting 2
  requests : ∀ r, s.timeout.source.calls r = .idle ∨ ∃ won, s.timeout.source.calls r = .returned won
  stopCb : s.any.stopCb ≠ .refused ∧ s.any.stopCb ≠ .popped
  rcvr : s.any.rcvrRequested = true → s.any.stopCb ≠ .registered
  service : op.timer.task ∉ s.timeout.timer.popped ∧ op.timer.task ∉ s.timeout.timer.running
  sent : s.timeout.received ≠ [] → ∃ c, (s.any.phase 0).completion = some c
  completions : ∀ i c, (s.any.phase i).completion = some c → (s.any.phase i).returned = true

omit [IsStrictWeakOrder τ (· < ·)] in
theorem any_raced (h : Run (step fused op) (.init expirationTime) tr s) :
    WhenAny.Raced true WhenAny.firstComplete WhenAny.earliest (tr.filterMap op.anyLabel) s.any := by
  refine WhenAny.Raced.of_run (fun cs hcs => ?_) (by decide) (any_of_run h)
  rw [WhenAny.stored_firstComplete]
  cases cs <;> simp_all [WhenAny.earliest]

omit [IsStrictWeakOrder τ (· < ·)] in
/-- A child whose completion has returned has requested stop. -/
theorem Quiet.requested_of_completion (hq : Quiet op s)
    (h : Run (step fused op) (.init expirationTime) tr s) {i : Fin 2} {c : Completion V E}
    (hmem : (i, c) ∈ op.completions tr) : s.any.requested = true := by
  have hreached := reached_of_run h
  have hreturned := hq.completions i c ((hreached.recorded.completion i c).mpr hmem)
  have htodo : (s.any.phase i).todo = [] := by
    cases hp : s.any.phase i <;> simp_all [Phase.returned, Phase.todo]
  have hrest : ∀ d, Action.requestStop ∈ (anyOps V E).rest i c d := fun _ => by
    simp [anyOps, WhenAny.opState, WhenAny.operation, WhenAny.firstComplete]
  refine (hreached.stopOk.pending i c hmem hrest).resolve_left ?_
  simp [htodo]

/-- The task is not pending when the operation of the timer has not been started. -/
theorem pending_of_connected (h : Run (step fused op) (.init expirationTime) tr s)
    (hstart : s.timeout.start = .connected) :
    s.timeout.timer.mgr.pending op.timer.task = false := by
  obtain ⟨holder, -, hh⟩ := TimeScheduler.holds_of_run (timeout_of_run h)
  obtain rfl := hh.eq_start (by simp [hstart, TimeScheduler.Start.begun])
  simp [hh.pending]

/-- Nor when it has completed. -/
theorem pending_of_received (h : Run (step fused op) (.init expirationTime) tr s)
    {r : TimeScheduler.Completion} (hreceived : s.timeout.received = [r]) :
    s.timeout.timer.mgr.pending op.timer.task = false := by
  obtain ⟨holder, -, hh⟩ := TimeScheduler.holds_of_run (timeout_of_run h)
  have hholder := hh.received
  rw [hreceived] at hholder
  cases holder with
  | discharged => simp [hh.pending]
  | start | manager | activation | callback => cases hholder

/-- Stop has been requested on the own source when something has happened to the operation. -/
theorem Quiet.requested (hq : Quiet op s) (h : Run (step fused op) (.init expirationTime) tr s)
    (hpc : s.any.pc = .starting 2)
    (hcause : .timeout (.timer (.finish op.timer.task)) ∈ tr ∨
      (∃ c, .any (.complete 1 c) ∈ tr) ∨ s.any.rcvrRequested = true) :
    s.any.requested = true := by
  have hreached := reached_of_run h
  rcases hcause with hfinish | ⟨c, hc⟩ | hrcvr
  · obtain ⟨c, hc⟩ := (linked_of_run h).finished hfinish
    exact hq.requested_of_completion h hc
  · exact hq.requested_of_completion h (mem_second.mpr hc)
  · cases hcb : s.any.stopCb with
    | registered => exact absurd hcb (hq.rcvr hrcvr)
    | refused => exact absurd hcb hq.stopCb.1
    | popped => exact absurd hcb hq.stopCb.2
    | spent => exact hreached.stopOk.ran (hreached.stopOk.spent.mp hcb)
    | absent =>
        obtain ⟨i, hi⟩ := Join.exists_isLast_of_absent (by decide) rfl (any_of_run h)
          (by simp [hpc]) hcb
        obtain ⟨c, hc⟩ := (hreached.all_completed hi 1).2
        exact hq.requested_of_completion h hc

/-- When the timer was served, the other child has completed or stop was requested, and every
call has returned, and the other child has completed if it was asked to, then the receiver
has been completed and the task is not pending. -/
theorem resolved_of_quiet (h : Run (step fused op) (.init expirationTime) tr s)
    (hq : Quiet op s) (hchild : s.any.requested = true → s.any.phase 1 ≠ .running)
    (hcause : .timeout (.timer (.finish op.timer.task)) ∈ tr ∨
      (∃ c, .any (.complete 1 c) ∈ tr) ∨ s.any.rcvrRequested = true) :
    s.any.received.length = 1 ∧ s.timeout.timer.mgr.pending op.timer.task = false := by
  have hreached := reached_of_run h
  have hlinked := linked_of_run h
  rcases hq.start with hpc | hpc
  · have hidle := hreached.idle_of_stopped hpc 0
    refine ⟨by simp [hreached.counted.received_stopped hpc], ?_⟩
    exact pending_of_connected h (hlinked.started (by rw [hidle]; rfl))
  · have hrequested := hq.requested h hpc hcause
    have hidle (i : Fin 2) : (s.any.phase i).isIdle = false := by
      have hi := hreached.counted.idle_iff i
      simp only [hpc, StartPc.started] at hi
      by_contra hno
      have := hi.mp (by simpa using hno)
      omega
    -- The other child was asked to stop and has completed.
    have hsecond : (s.any.phase 1).returned = true := by
      have hnot := hchild hrequested
      have hnotidle := hidle 1
      cases hp : s.any.phase 1 with
      | idle => simp [hp, Phase.isIdle] at hnotidle
      | running => exact absurd hp hnot
      | completing c | deciding c | ignored c | done c | finished c =>
          have hback := hq.completions 1 c (by rw [hp]; rfl)
          rwa [hp] at hback
    -- The call that won the exchange has called the callback of the operation of the timer.
    obtain ⟨r, hr⟩ : ∃ r, s.timeout.source.calls r = .returned true := by
      have hstop := TimeScheduler.reached_of_run (timeout_of_run h)
      obtain ⟨r, hr⟩ := hstop.oneWinner.requested.mp (hlinked.requested ▸ hrequested)
      refine ⟨r, ?_⟩
      rcases hq.requests r with hcall | ⟨won, hcall⟩
      · simp [hcall, StopToken.Call.isWinner] at hr
      · cases won with
        | true => exact hcall
        | false => simp [hcall, StopToken.Call.isWinner] at hr
    obtain ⟨hpending, hreceived⟩ := TimeScheduler.settled_of_run (timeout_of_run h)
      (hlinked.second (hidle 1)) (.inr (.inr ⟨r, hr⟩))
    have hone : s.timeout.received.length = 1 := by
      refine hreceived.resolve_right fun hpopped => ?_
      have hpos : 0 < s.timeout.timer.popped.count op.timer.task := by omega
      exact hq.service.1 (List.count_pos_iff.mp hpos)
    have hfirst : (s.any.phase 0).returned = true := by
      obtain ⟨c, hc⟩ := hq.sent (List.ne_nil_of_length_eq_add_one hone)
      exact hq.completions 0 c hc
    refine ⟨(any_raced h).exactly fun i => ?_, hpending⟩
    rcases Fin.exists_fin_two.mp ⟨i, rfl⟩ with rfl | rfl
    · exact hfirst
    · exact hsecond

/-! ### What the receiver gets -/

omit [IsStrictWeakOrder τ (· < ·)] in
theorem rcvrRequested_iff (h : Run (step fused op) (.init expirationTime) tr s) :
    s.any.rcvrRequested = true ↔ .any .rcvrRequestStop ∈ tr := by
  rw [(reached_of_run h).stopOk.rcvr, List.mem_filterMap]
  constructor
  · rintro ⟨l, hl, hany⟩
    cases l with
    | any l =>
        cases hany
        exact hl
    | destroy | send | timeout => cases hany
  · exact fun hmem => ⟨_, hmem, rfl⟩

omit [IsStrictWeakOrder τ (· < ·)] [DecidableEq α] [DecidableEq κ] [LT τ] [DecidableLT τ]
  [HAdd τ δ τ] in
theorem completions_append {tr₁ tr₂ : List (Label α τ δ κ V E)} {c : Completion V E} :
    op.completions (tr₁ ++ .any (.complete 1 c) :: tr₂) =
      op.completions tr₁ ++ (1, c) :: op.completions tr₂ := by
  simp [Op.completions, Join.completions, Op.anyLabel, Join.Label.completion]

omit [IsStrictWeakOrder τ (· < ·)] in
/-- Before the other child completed, only the first one can have. -/
theorem eq_zero_of_before {tr₁ tr₂ : List (Label α τ δ κ V E)} {c : Completion V E}
    (h : Run (step fused op) (.init expirationTime) (tr₁ ++ .any (.complete 1 c) :: tr₂) s)
    {x : Fin 2 × Completion V E} (hx : x ∈ op.completions tr₁) : x.1 = 0 := by
  have hnodup : ((op.completions (tr₁ ++ .any (.complete 1 c) :: tr₂)).map Prod.fst).Nodup :=
    (reached_of_run h).recorded.nodup
  rw [completions_append, List.map_append, List.nodup_append] at hnodup
  have hne : x.1 ≠ 1 := hnodup.2.2 x.1 (List.mem_map_of_mem hx) 1 (by simp)
  omega

/-- The completion that got to `emplace` first is the timeout's, if it was sent before the other
child's, or else the other child's. A set_stopped of the first child's comes before only if the
receiver's stop was requested. -/
theorem earliest_eq {tr₁ tr₂ : List (Label α τ δ κ V E)} {c : Completion V E}
    (h : Run (step fused op) (.init expirationTime) (tr₁ ++ .any (.complete 1 c) :: tr₂) s) :
    (.send .value ∈ tr₁ → WhenAny.earliest ((op.completions
        (tr₁ ++ .any (.complete 1 c) :: tr₂)).map Prod.snd) = op.completion) ∧
      (.send .value ∉ tr₁ → .any .rcvrRequestStop ∉ tr₁ → WhenAny.earliest ((op.completions
        (tr₁ ++ .any (.complete 1 c) :: tr₂)).map Prod.snd) = c) := by
  obtain ⟨s₁, h₁, -⟩ := run_append.mp h
  have hlinked := linked_of_run h₁
  rw [completions_append, WhenAny.earliest]
  cases hcs : op.completions tr₁ with
  | nil =>
      refine ⟨fun hsend => ?_, fun _ _ => rfl⟩
      have hmem : (0, op.completion) ∈ op.completions tr₁ :=
        List.mem_filterMap.mpr ⟨_, List.mem_filterMap.mpr ⟨_, hsend, rfl⟩, rfl⟩
      simp [hcs] at hmem
  | cons x xs =>
      have hx : x ∈ op.completions tr₁ := by simp [hcs]
      have hzero := eq_zero_of_before h hx
      obtain ⟨r, hr, hsends⟩ := hlinked.first x.2 (by rw [← hzero]; exact hx)
      have hreceived := hlinked.sent r hr
      constructor
      · intro hsend
        obtain rfl : r = .value := by simpa [hreceived] using hlinked.sent _ hsend
        simpa [Op.sends] using hsends
      · intro hnosend hnostop
        obtain rfl : r = .stopped := by
          cases r with
          | value => exact absurd hr hnosend
          | stopped => rfl
        rcases hlinked.asked hreceived with ⟨c', hc'⟩ | hrcvr
        · cases eq_zero_of_before h hc'
        · exact absurd ((rcvrRequested_iff h₁).mp hrcvr) hnostop

omit [IsStrictWeakOrder τ (· < ·)] in
/-- The receiver is completed by `start` or by `complete`. -/
theorem received_step (hs : step fused op s l = some s') :
    s'.any.received = s.any.received ∨ l = .any .startStopped ∨ ∃ i, l = .any (.finish i) := by
  have hany {l : Join.Label 2 V E} {any : Join.State 2 V E (Option (Completion V E))}
      (hstep : Join.step (anyOps V E) s.any l = some any) :
      any.received = s.any.received ∨ l = .startStopped ∨ ∃ i, l = .finish i := by
    cases Join.step_move hstep with
    | startStopped => exact .inr (.inl rfl)
    | finish => exact .inr (.inr ⟨_, rfl⟩)
    | @act i c a => cases a <;> exact .inl rfl
    | rcvrRequestStop | popStopCb | runStopCb | emplaceStopCb | startChildren | startChild
    | complete | arrive | arriveLast | ignore | resetStopCb => exact .inl rfl
  cases step_move hs with
  | any _ hstep | request _ hstep =>
      refine (hany hstep).imp_right (Or.imp (congrArg _) ?_)
      rintro ⟨i, rfl⟩
      exact ⟨i, rfl⟩
  | send _ _ hstep =>
      rcases hany hstep with hsame | hl | ⟨i, hl⟩
      · exact .inl hsame
      · cases hl
      · cases hl
  | destroy | timeout => exact .inl rfl

end BaremetalSenders.TimeoutAfter
