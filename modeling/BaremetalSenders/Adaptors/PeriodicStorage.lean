import BaremetalSenders.Adaptors.Periodic
import BaremetalSenders.Schedulers.TimerTask

/-!
The timer tasks of periodic operations and the storage they are in.

A child's task is pending only while its operation is running. That is true of
every run as long as no frame of `passthrough` comes back to an operation that
has been started in the meantime, or to one that has been destroyed: the frame
empties the variant of whatever operation is in the place, and the task of the
child it destroys stays in the queue of the timer manager. It writes to the
place whenever a completion returns.
-/

namespace BaremetalSenders.Periodic

open Timer (ExpirationProvider)

variable {P β τ δ : Type*} [DecidableEq β] [LT τ] [DecidableLT τ] [HAdd τ δ τ]
  {fused : Bool} {S : Sender P τ δ}

/-! ### What a step does to the children's tasks -/

/-- Scheduling a child makes no other task pending. -/
theorem pending_of_schedule {ep : ExpirationProvider τ} {t t' : Timer.State (ℕ ⊕ β) τ δ}
    {tp tp' : τ} {k : ℕ} {readings : Option (List τ)}
    (h : schedule fused S ep t tp k readings = some (tp', t')) {k' : ℕ} (hk' : k' ≠ k)
    (hp : t'.mgr.pending (.inl k') = true) : t.mgr.pending (.inl k') = true := by
  have hother : Sum.inl k' ≠ (Sum.inl k : ℕ ⊕ β) := fun heq => hk' (Sum.inl.inj heq)
  simp only [schedule] at h
  split at h
  · cases h
    exact hp
  · split at h
    · split at h
      · obtain ⟨t'', ht, heq⟩ := Option.map_eq_some_iff.mp h
        cases heq
        rw [Timer.pending_step ht] at hp
        simpa [Timer.Event.pendingAfter, hother] using hp
      · cases h
    · obtain ⟨tp'', -, h⟩ := Option.bind_eq_some_iff.mp h
      obtain ⟨t'', ht, heq⟩ := Option.map_eq_some_iff.mp h
      cases heq
      rw [Timer.pending_step ht] at hp
      simpa [Timer.Event.pendingAfter, hother] using hp

/-- The steps of the timer that are not the children's own make no child's task
pending. -/
theorem pending_of_admits {s : State P β τ δ} {e : Timer.Event (ℕ ⊕ β) τ δ}
    {t : Timer.State (ℕ ⊕ β) τ δ} (hadmits : s.admits e = true)
    (h : Timer.step fused s.timer e = some t) {k : ℕ} (hp : t.mgr.pending (.inl k) = true) :
    s.timer.mgr.pending (.inl k) = true := by
  rw [Timer.pending_step h] at hp
  cases e with
  | runAfter t _ _ _ | runAt t _ _ _ =>
      cases t with
      | inl k' => cases hadmits
      | inr b => simpa [Timer.Event.pendingAfter] using hp
  | cancel _ _ | service _ => exact (Bool.and_eq_true_iff.mp hp).1
  | run _ | finish _ => exact hp

/-! ### The invariant -/

/-- A child's task is pending only while its operation is running with it. -/
def Tracked (s : State P β τ δ) : Prop :=
  ∀ k, s.timer.mgr.pending (.inl k) = true →
    k < s.next ∧ ∃ op, s.slot = some op ∧ op.state = some k ∧ op.phase = .running

omit [DecidableEq β] [LT τ] [DecidableLT τ] [HAdd τ δ τ] in
theorem Tracked.safe {s : State P β τ δ} (h : Tracked s) : s.Safe := by
  intro k hk
  obtain ⟨-, op, hslot, hstate, -⟩ := h k hk
  simp [State.live, hslot, hstate]

omit [DecidableEq β] [LT τ] [DecidableLT τ] [HAdd τ δ τ] in
/-- No child's task is pending when nothing in the place is running. -/
theorem Tracked.none_pending {s : State P β τ δ} (h : Tracked s)
    (hslot : ∀ op, s.slot = some op → op.phase ≠ .running) (k : ℕ) :
    s.timer.mgr.pending (.inl k) = false := by
  by_contra hp
  obtain ⟨-, op, hop, -, hphase⟩ := h k (by simpa using hp)
  exact hslot op hop hphase

omit [DecidableEq β] [LT τ] [DecidableLT τ] [HAdd τ δ τ] in
theorem Tracked.of_none {s : State P β τ δ}
    (h : ∀ k, s.timer.mgr.pending (.inl k) = false) : Tracked s := by
  intro k hk
  rw [h k] at hk
  cases hk

/-- A new child is the only one whose task can be pending. -/
theorem Tracked.started {s : State P β τ δ} {op : Op P τ} {ep : ExpirationProvider τ} {tp tp' : τ}
    {t : Timer.State (ℕ ⊕ β) τ δ} {readings : Option (List τ)}
    (hnone : ∀ k, s.timer.mgr.pending (.inl k) = false)
    (ht : schedule fused S ep s.timer tp' s.next readings = some (tp, t)) :
    Tracked (s.started op tp t) := by
  intro k hk
  by_cases heq : k = s.next
  · subst heq
    exact ⟨Nat.lt_succ_self _, _, rfl, rfl, rfl⟩
  · have hp := pending_of_schedule ht heq hk
    rw [hnone k] at hp
    cases hp

omit [DecidableEq β] [LT τ] [DecidableLT τ] [HAdd τ δ τ] in
theorem not_running_of_unused {s : State P β τ δ} (h : s.unused = true) :
    ∀ op, s.slot = some op → op.phase ≠ .running := by
  intro op hop hphase
  simp [State.unused, hop, Op.unused, hphase] at h

omit [DecidableEq β] [LT τ] [DecidableLT τ] [HAdd τ δ τ] in
theorem unused_of_quiet {s : State P β τ δ} (h : Quiet s .leave) : s.unused = true := by
  obtain ⟨op, hop, hunused⟩ := h
  simp [State.unused, hop, hunused]

variable [Inhabited τ]

theorem tracked_move {s s' : State P β τ δ} {e : Event P β τ δ} (h : Tracked s)
    (hquiet : Quiet s e) (hs : Move fused S s e s') : Tracked s' := by
  have hnone : ∀ op, s.slot = some op → op.phase ≠ .running →
      ∀ k, s.timer.mgr.pending (.inl k) = false := by
    intro op hop hphase
    refine h.none_pending fun op' hop' => ?_
    obtain rfl := Option.some.inj (hop.symm.trans hop')
    exact hphase
  cases hs with
  | construct p hunused => exact .of_none (h.none_pending (not_running_of_unused hunused))
  | destroy hunused => exact .of_none (h.none_pending (not_running_of_unused hunused))
  | start readings op tp t hop hphase ht => exact .started (hnone op hop (by simp [hphase])) ht
  | restart readings op tp t hop hphase ht => exact .started (hnone op hop (by simp [hphase])) ht
  | complete k ch op hop hphase hstate hpending =>
      -- the task of the only child that could have one is not pending
      refine .of_none fun k' => ?_
      by_contra hp
      obtain ⟨-, op', hop', hstate', -⟩ := h k' (by simpa using hp)
      obtain rfl := Option.some.inj (hop.symm.trans hop')
      obtain rfl := Option.some.inj (hstate'.symm.trans hstate)
      exact hp hpending
  | evaluate op hop hphase => exact .of_none (hnone op hop (by simp [hphase]))
  | stopped op hop hphase => exact .of_none (hnone op hop (by simp [hphase]))
  | deliver ch op hop hphase => exact .of_none (hnone op hop (by simp [hphase]))
  | leave => exact .of_none (h.none_pending (not_running_of_unused (unused_of_quiet hquiet)))
  | timer e t hadmits ht => exact fun k hk => h k (pending_of_admits hadmits ht hk)

/-- In every run in which no completion returns to a running operation, the
pending tasks are those of children that are there. -/
theorem tracked_of_run {expirationTime : ℕ ⊕ β → τ} {tr : List (Event P β τ δ)}
    {s : State P β τ δ} (h : Run (step fused S) (.init expirationTime) tr s)
    (hquiet : EachStep (step fused S) Quiet (.init expirationTime) tr) : Tracked s := by
  refine Run.induction_of_eachStep (P := fun _ s => Tracked s) ?_ ?_ h hquiet
  · exact .of_none fun _ => rfl
  · exact fun _ _ _ _ _ ih hq hs => tracked_move ih hq (step_move hs)

/-! ### Writes after a completion -/

theorem Move.written {s s' : State P β τ δ} {e : Event P β τ δ} (h : Move fused S s e s') :
    s'.written = e.writes s ++ s.written := by
  cases h <;> rfl

/-- Nothing is written after a completion exactly as long as none has returned. -/
theorem written_of_run {expirationTime : ℕ ⊕ β → τ} {tr : List (Event P β τ δ)}
    {s : State P β τ δ} (h : Run (step fused S) (.init expirationTime) tr s) :
    s.written = [] ↔ .leave ∉ tr := by
  refine Run.induction (P := fun tr s => s.written = [] ↔ .leave ∉ tr) (by simp [State.init]) ?_ h
  intro tr s e s' _ ih hs
  rw [(step_move hs).written, List.append_eq_nil_iff, ih]
  cases e <;> simp [Event.writes]

/-- The pending tasks are those of children that are there and nothing is written
after a completion, exactly as long as none has returned. -/
theorem untouched_of_run {expirationTime : ℕ ⊕ β → τ} {tr : List (Event P β τ δ)}
    {s : State P β τ δ} (h : Run (step fused S) (.init expirationTime) tr s) :
    s.Safe ∧ s.written = [] ↔ .leave ∉ tr := by
  refine ⟨fun hs => (written_of_run h).mp hs.2, fun hleave => ⟨?_, (written_of_run h).mpr hleave⟩⟩
  have hquiet : EachStep (step fused S) Quiet (.init expirationTime) tr := by
    refine EachStep.of_forall_mem fun e he s => ?_
    cases e with
    | leave => exact absurd he hleave
    | _ => exact True.intro
  exact (tracked_of_run h hquiet).safe

end BaremetalSenders.Periodic
