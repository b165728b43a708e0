import BaremetalSenders.Adaptors.RepeatArguments
import Mathlib.Data.List.Perm.Basic

/-!
The loop function of `repeat`.

A call of `repeat` that restarts the child calls the loop function when
`begin_loop` has returned true, that is, when `start` of the child is back and
`begin_loop` has not found that stop was requested. The child can complete
before that, in its `start`, and the calls of `repeat` nest; or the loop function
makes it complete. Each restart has its call of the loop function, whatever
happens in between. If the operation completes while some of these calls are
still to come, they come afterwards.
-/

namespace BaremetalSenders.Repeat

variable {V P : Type*}

/-! ### The history of a run -/

/-- The restart that is under way, if any, and those that have taken place, the last one first;
a restart is known by the child whose completion it answers. -/
structure History where
  again : Option ℕ
  restarts : List ℕ

def Event.history (h : History) : Event V → History
  | .again k => { h with again := some k }
  | .begin stop => ⟨none, if stop then h.restarts else h.again.toList ++ h.restarts⟩
  | _ => h

def history (tr : List (Event V)) : History := tr.foldl Event.history ⟨none, []⟩

def restarts (tr : List (Event V)) : List ℕ := (history tr).restarts

/-- The child whose completion the call of the loop function answers. -/
def Event.loopFnOf : Event V → Option ℕ
  | .loopFn k _ => some k
  | _ => none

def loopFns (tr : List (Event V)) : List ℕ := tr.filterMap Event.loopFnOf

theorem history_concat (tr : List (Event V)) (e : Event V) :
    history (tr ++ [e]) = e.history (history tr) := by
  simp [history, List.foldl_append]

theorem loopFns_append (tr tr' : List (Event V)) :
    loopFns (tr ++ tr') = loopFns tr ++ loopFns tr' := List.filterMap_append

theorem loopFns_concat (tr : List (Event V)) (e : Event V) :
    loopFns (tr ++ [e]) = loopFns tr ++ e.loopFnOf.toList := by
  rw [loopFns_append]
  cases e <;> rfl

/-- The caller that `begin_loop` is to go back to. -/
def Phase.caller : Phase V → Option (Args V)
  | .ready caller => caller
  | _ => none

/-- The restarts whose call of the loop function is still to come. -/
def State.pending (s : State V P) : List ℕ := s.calls.map Args.k

/-- The side condition of a step: when the receiver is completed, every call of `repeat` that
has restarted the child has called the loop function. -/
def Settled (s : State V P) : Event V → Prop
  | .deliver _ _ _ => s.calls = []
  | _ => True

instance Settled.decidable (s : State V P) : (e : Event V) → Decidable (Settled s e)
  | .deliver _ _ _ => decidable_of_iff (s.calls.isEmpty = true) List.isEmpty_iff
  | .start | .begin _ | .complete _ _ _ | .evaluate _ _ _ | .again _ | .reset | .loopFn _ _ =>
      inferInstanceAs (Decidable True)

/-- The invariant: the restarts are those that have been followed by a call of the loop
function and those that still will be, and they answer different children. -/
structure Balanced (tr : List (Event V)) (s : State V P) : Prop where
  underWay : (history tr).again = s.phase.caller.map Args.k
  perm : (restarts tr).Perm (loopFns tr ++ s.pending)
  nodup : (restarts tr).Nodup
  born : ∀ k ∈ restarts tr, k + 2 ≤ s.next
  caller : ∀ args, s.phase.caller = some args →
    args.k + 2 = s.next ∧ ∀ k ∈ restarts tr, k + 2 < s.next

section Steps

variable [DecidableEq V] {pred : P → List V → Bool × P} {checksStop : Bool} {mem : ℕ → ℕ → V}
  {tr : List (Event V)} {s s' : State V P} {e : Event V}

omit [DecidableEq V] in
/-- A step that neither is one of a restart nor calls the loop function. -/
theorem Balanced.frame (h : Balanced tr s) (hhistory : e.history (history tr) = history tr)
    (hloop : e.loopFnOf = none) (hbefore : s.phase.caller = none) (hafter : s'.phase.caller = none)
    (hcalls : s'.calls = s.calls) (hnext : s.next ≤ s'.next) : Balanced (tr ++ [e]) s' := by
  have hfns : loopFns (tr ++ [e]) = loopFns tr := by
    rw [loopFns_concat, hloop, Option.toList_none, List.append_nil]
  have hrestarts : restarts (tr ++ [e]) = restarts tr := by
    rw [restarts, history_concat, hhistory, restarts]
  constructor
  · rw [history_concat, hhistory, h.underWay, hbefore, hafter]
  · rw [hrestarts, hfns, State.pending, hcalls]
    exact h.perm
  · rw [hrestarts]
    exact h.nodup
  · rw [hrestarts]
    exact fun k hk => Nat.le_trans (h.born k hk) hnext
  · rw [hafter]
    intro args hargs
    cases hargs

omit [DecidableEq V] in
/-- The loop function is called for a restart that is waiting for it. -/
theorem Balanced.loopFn (h : Balanced tr s) {args : Args V} {vals : List (Option V)}
    (hargs : args ∈ s.calls) :
    Balanced (tr ++ [.loopFn args.k vals])
      { s with calls := s.calls.filter fun args' => args'.k != args.k } := by
  have hnodup : s.pending.Nodup := (List.nodup_append.mp (h.perm.nodup_iff.mp h.nodup)).2.1
  have hrest : (s.calls.filter fun args' => args'.k != args.k).map Args.k =
      s.pending.erase args.k := by
    rw [hnodup.erase_eq_filter, State.pending, List.filter_map]
    rfl
  have hperm : (loopFns tr ++ s.pending).Perm
      (loopFns tr ++ [args.k] ++ s.pending.erase args.k) := by
    rw [List.append_assoc]
    exact (List.perm_cons_erase (List.mem_map_of_mem hargs)).append_left _
  constructor
  · rw [history_concat]
    exact h.underWay
  · rw [loopFns_concat, restarts, history_concat, State.pending, hrest]
    exact h.perm.trans hperm
  · rw [restarts, history_concat]
    exact h.nodup
  · rw [restarts, history_concat]
    exact h.born
  · rw [restarts, history_concat]
    exact h.caller

omit [DecidableEq V] in
/-- The predicate has said no, and the next child is made. -/
theorem Balanced.setup (h : Balanced tr s) {args : Args V} (hstate : args.k + 1 = s.next) :
    Balanced (tr ++ [.again args.k]) { s.setup with phase := .ready (some args) } := by
  constructor
  · rw [history_concat]
    rfl
  · rw [loopFns_concat, restarts, history_concat]
    simp only [Event.loopFnOf, Option.toList_none, List.append_nil]
    exact h.perm
  · rw [restarts, history_concat]
    exact h.nodup
  · rw [restarts, history_concat]
    intro k hk
    have := h.born k hk
    simp only [State.setup]
    omega
  · rw [restarts, history_concat]
    rintro _ ⟨⟩
    refine ⟨by simp only [State.setup]; omega, fun k hk => ?_⟩
    have := h.born k hk
    simp only [State.setup]
    omega

omit [DecidableEq V] in
/-- `begin_loop` has started the child. -/
theorem Balanced.begin (h : Balanced tr s) {caller : Option (Args V)}
    (hphase : s.phase.caller = caller) :
    Balanced (tr ++ [.begin false]) { s with
      phase := .running
      calls := caller.toList ++ s.calls } := by
  have hrestarts : restarts (tr ++ [.begin false]) =
      (caller.map Args.k).toList ++ restarts tr := by
    rw [restarts, history_concat, ← hphase, ← h.underWay]
    rfl
  cases caller with
  | none =>
      constructor
      · rw [history_concat]
        rfl
      · rw [hrestarts, loopFns_concat]
        simpa [Event.loopFnOf, State.pending] using h.perm
      · rw [hrestarts]
        exact h.nodup
      · rw [hrestarts]
        exact h.born
      · rintro _ ⟨⟩
  | some args =>
      obtain ⟨hnext, hyounger⟩ := h.caller args hphase
      constructor
      · rw [history_concat]
        rfl
      · rw [hrestarts, loopFns_concat]
        simpa [Event.loopFnOf, State.pending] using
          (h.perm.cons args.k).trans List.perm_middle.symm
      · rw [hrestarts]
        refine List.nodup_cons.mpr ⟨fun hk => ?_, h.nodup⟩
        have := hyounger args.k hk
        omega
      · rw [hrestarts]
        exact List.forall_mem_cons.mpr ⟨Nat.le_of_eq hnext, h.born⟩
      · rintro _ ⟨⟩

omit [DecidableEq V] in
/-- `begin_loop` has found that it is to stop. -/
theorem Balanced.stop (h : Balanced tr s) {phase : Phase V} (hphase : phase.caller = none) :
    Balanced (tr ++ [.begin true]) { s with phase := phase } := by
  have hrestarts : restarts (tr ++ [.begin true]) = restarts tr := by
    rw [restarts, history_concat]
    rfl
  constructor
  · rw [history_concat, hphase]
    rfl
  · rw [hrestarts, loopFns_concat]
    simpa [Event.loopFnOf, State.pending] using h.perm
  · rw [hrestarts]
    exact h.nodup
  · rw [hrestarts]
    exact h.born
  · rw [hphase]
    rintro _ ⟨⟩

theorem Balanced.step (hinv : Inv (repeatUntil pred false checksStop) tr s) (h : Balanced tr s)
    (hs : step (repeatUntil pred false checksStop) mem s e = some s') :
    Balanced (tr ++ [e]) s' := by
  have hphase := hinv.phase
  cases step_move hs with
  | start hp => exact h.frame rfl rfl (by rw [hp]; rfl) rfl rfl (Nat.le_succ _)
  | beginStop => exact h.stop rfl
  | begin hp => exact h.begin (by rw [hp]; rfl)
  | complete hp | pass hp | reset hp | deliver hp =>
      exact h.frame rfl rfl (by rw [hp]; rfl) rfl rfl (Nat.le_refl _)
  | @evaluate args vals stop hp =>
      exact h.frame rfl rfl (by rw [hp]; rfl) (by cases stop <;> rfl) rfl (Nat.le_refl _)
  | again hp =>
      simp only [PhaseOk, hp] at hphase
      exact h.setup (hinv.state _ hphase.1)
  | loopFn hargs => exact h.loopFn hargs

theorem balanced_of_run {p : P} (h : Run (step (repeatUntil pred false checksStop) mem)
    (.init p) tr s) : Balanced tr s := by
  refine Run.induction (P := Balanced) ?_ (fun _ _ _ _ hr ih hs => ih.step (inv_of_run hr) hs) h
  constructor
  · rfl
  · exact .refl _
  · exact List.nodup_nil
  · exact fun k hk => absurd hk List.not_mem_nil
  · exact fun args hargs => nomatch hargs

/-! ### Calls of the loop function -/

/-- The loop function is called after a restart and once for each, and a restart that it has
not been called for has a call that will. A restart answers the completion of a child. -/
structure CallsLoopFn (tr : List (Event V)) (s : State V P) : Prop where
  after : ∀ tr₁ k vals tr₂, tr = tr₁ ++ .loopFn k vals :: tr₂ →
    k ∈ restarts tr₁ ∧ k ∉ loopFns tr₁
  all : ∀ k ∈ restarts tr, k ∈ loopFns tr ∨ k ∈ s.pending
  once : (restarts tr).Nodup
  restarted : ∀ k ∈ restarts tr, ∃ refs, .complete k .value refs ∈ tr

/-- Once the receiver is completed the loop function is not called, however the run goes on. -/
def NeverAfterCompletion (D : Driver V P) (mem : ℕ → ℕ → V) (p : P) (tr : List (Event V)) : Prop :=
  ∀ tr₁ k ch vals tr₂, tr = tr₁ ++ .deliver k ch vals :: tr₂ → ∀ tr₃ s₃,
    Run (step D mem) (.init p) (tr₁ ++ .deliver k ch vals :: tr₃) s₃ → loopFns tr₃ = []

omit [DecidableEq V] in
theorem Balanced.disjoint (h : Balanced tr s) {k : ℕ} (hcalled : k ∈ loopFns tr) :
    k ∉ s.pending := fun hpending =>
  (List.nodup_append.mp (h.perm.nodup_iff.mp h.nodup)).2.2 k hcalled k hpending rfl

/-- A call of the loop function is one that was still to come. -/
theorem calls_of_loopFn {p : P} {tr₁ tr₂ : List (Event V)} {k : ℕ} {vals : List (Option V)}
    {D : Driver V P} (h : Run (step D mem) (.init p) (tr₁ ++ .loopFn k vals :: tr₂) s) :
    ∃ s₁ args, Run (step D mem) (.init p) tr₁ s₁ ∧ args ∈ s₁.calls ∧ args.k = k := by
  obtain ⟨s₁, h₁, hrest⟩ := run_append.mp h
  obtain ⟨s₂, hs, -⟩ := run_cons.mp hrest
  cases step_move hs with
  | loopFn hargs => exact ⟨s₁, _, h₁, hargs, rfl⟩

theorem callsLoopFn_of_run {p : P} (h : Run (step (repeatUntil pred false checksStop) mem)
    (.init p) tr s) : CallsLoopFn tr s := by
  have hbalanced := balanced_of_run h
  constructor
  · rintro tr₁ k vals tr₂ rfl
    obtain ⟨s₁, args, h₁, hargs, rfl⟩ := calls_of_loopFn h
    have hpending : args.k ∈ s₁.pending := List.mem_map_of_mem hargs
    have hbalanced₁ := balanced_of_run h₁
    exact ⟨hbalanced₁.perm.mem_iff.mpr (List.mem_append_right _ hpending),
      fun hcalled => hbalanced₁.disjoint hcalled hpending⟩
  · exact fun k hk => List.mem_append.mp (hbalanced.perm.mem_iff.mp hk)
  · exact hbalanced.nodup
  · intro k hk
    rcases List.mem_append.mp (hbalanced.perm.mem_iff.mp hk) with hcalled | hpending
    · obtain ⟨e, he, hek⟩ := List.mem_filterMap.mp hcalled
      cases e <;> cases hek
      next vals =>
        obtain ⟨tr₁, tr₂, rfl⟩ := List.append_of_mem he
        obtain ⟨s₁, args, h₁, hargs, rfl⟩ := calls_of_loopFn h
        exact ⟨args.refs, List.mem_append_left _ ((inv_of_run h₁).calls args hargs).1⟩
    · obtain ⟨args, hargs, rfl⟩ := List.mem_map.mp hpending
      exact ⟨args.refs, ((inv_of_run h).calls args hargs).1⟩

/-! ### After completion -/

/-- Once the receiver is completed, only the calls that were still to come are made. -/
theorem step_of_done {D : Driver V P} (hdone : s.phase = .done) (hs : step D mem s e = some s') :
    s'.phase = .done ∧ (s.calls = [] → s'.calls = [] ∧ e.loopFnOf = none) := by
  cases step_move hs with
  | loopFn hargs => exact ⟨hdone, fun hnone => absurd (hnone ▸ hargs) List.not_mem_nil⟩
  | start hp | beginStop hp | begin hp | complete hp | evaluate hp | again hp | pass hp | reset hp
  | deliver hp =>
      rw [hdone] at hp
      cases hp

theorem loopFns_of_done {D : Driver V P} (hdone : s.phase = .done) (hnone : s.calls = [])
    (h : Run (step D mem) s tr s') : loopFns tr = [] := by
  refine List.filterMap_eq_nil_iff.mpr ?_
  refine Run.forall_mem (I := fun s => s.phase = .done ∧ s.calls = []) ⟨hdone, hnone⟩ ?_ h
  rintro s e s' ⟨hdone, hnone⟩ hs
  obtain ⟨hdone', hcalls⟩ := step_of_done hdone hs
  exact ⟨⟨hdone', (hcalls hnone).1⟩, (hcalls hnone).2⟩

/-- The innermost call that is still to come can be made. -/
theorem exists_loopFn (D : Driver V P) (mem : ℕ → ℕ → V) {s : State V P} {args : Args V}
    {rest : List (Args V)} (hcalls : s.calls = args :: rest) :
    ∃ vals s', step D mem s (.loopFn args.k vals) = some s' := by
  refine ⟨s.read mem args.refs, { s with
    calls := s.calls.filter fun args' => args'.k != args.k }, ?_⟩
  simp [Repeat.step, hcalls]

/-- The completion of the receiver. -/
theorem deliver_spec {D : Driver V P} {k : ℕ} {ch : Channel} {vals : List (Option V)}
    (hs : step D mem s (.deliver k ch vals) = some s') : s' = { s with phase := .done } := by
  cases step_move hs with
  | deliver => rfl

theorem neverAfterCompletion_iff {D : Driver V P} {p : P} (h : Run (step D mem) (.init p) tr s) :
    NeverAfterCompletion D mem p tr ↔ EachStep (step D mem) Settled (.init p) tr := by
  rw [eachStep_iff]
  constructor
  · rintro hnever tr₁ e tr₂ s₁ rfl h₁
    cases e with
    | deliver k ch vals =>
        obtain ⟨s₁', h₁', hrest⟩ := run_append.mp h
        obtain rfl := Option.some.inj (h₁.symm.trans h₁')
        obtain ⟨s₂, hs, -⟩ := run_cons.mp hrest
        cases hcalls : s₁.calls with
        | nil => exact hcalls
        | cons args rest =>
            -- the run that ends with the completion can go on with the innermost call
            obtain ⟨vals', s₃, hs'⟩ := exists_loopFn D mem (s := s₂)
              (by rw [deliver_spec hs]; exact hcalls)
            have hrun : Run (step D mem) (.init p)
                (tr₁ ++ .deliver k ch vals :: [.loopFn args.k vals']) s₃ :=
              run_append.mpr ⟨s₁, h₁, by simp [hs, hs']⟩
            have := hnever tr₁ k ch vals tr₂ rfl _ _ hrun
            simp [loopFns, Event.loopFnOf] at this
    | _ => exact True.intro
  · rintro hsettled tr₁ k ch vals tr₂ rfl tr₃ s₃ h₃
    obtain ⟨s₁, h₁, hrest⟩ := run_append.mp h₃
    obtain ⟨s₂, hs, htail⟩ := run_cons.mp hrest
    have hnone : s₁.calls = [] := hsettled tr₁ _ tr₂ s₁ rfl h₁
    rw [deliver_spec hs] at htail
    exact loopFns_of_done (s := { s₁ with phase := .done }) rfl hnone htail

/-- The loop function is called once after each restart and never otherwise, and it is not
called after the completion of the receiver exactly when all the calls of `repeat` that have
restarted the child have called it by then. -/
theorem loopFn_iff {p : P} (h : Run (step (repeatUntil pred false checksStop) mem)
    (.init p) tr s) : CallsLoopFn tr s ∧
      (NeverAfterCompletion (repeatUntil pred false checksStop) mem p tr ↔
        EachStep (step (repeatUntil pred false checksStop) mem) Settled (.init p) tr) :=
  ⟨callsLoopFn_of_run h, neverAfterCompletion_iff h⟩

end Steps

/-- A child that is restarted and completes with `set_stopped` in its `start`. -/
def cancelledTrace : List (Event ℕ) :=
  [.start, .begin false, .complete 0 .value [.ext 17], .evaluate 0 [some 17] false, .again 0,
    .begin false, .complete 1 .stopped [], .reset, .deliver 1 .stopped [], .loopFn 0 [some 17]]

/-- When the child finds in its `start` that stop was requested, the receiver is completed and
then the loop function is called. -/
theorem loopFn_after_cancellation : ¬ ∀ (tr : List (Event ℕ)) (s : State ℕ Unit),
    Run (step («repeat» false false) fun _ _ => 0) (.init ()) tr s →
      NeverAfterCompletion («repeat» false false) (fun _ _ => 0) () tr := by
  intro h
  obtain ⟨s, hs⟩ : ∃ s, Run (step («repeat» false false) fun _ _ => 0) (.init ())
      cancelledTrace s := exists_run_iff.mpr rfl
  cases h cancelledTrace s hs (cancelledTrace.take 8) 1 .stopped [] _ rfl _ _ hs

/-- A restarted child that is stopped later, when the loop function has been called. -/
def stoppedLaterTrace : List (Event ℕ) :=
  [.start, .begin false, .complete 0 .value [.ext 17], .evaluate 0 [some 17] false, .again 0,
    .begin false, .loopFn 0 [some 17], .complete 1 .stopped [], .reset, .deliver 1 .stopped []]

theorem loopFn_before_cancellation : ∃ s : State ℕ Unit,
    Run (step («repeat» false false) fun _ _ => 0) (.init ()) stoppedLaterTrace s ∧
      CallsLoopFn stoppedLaterTrace s ∧
      NeverAfterCompletion («repeat» false false) (fun _ _ => 0) () stoppedLaterTrace := by
  obtain ⟨s, hs⟩ : ∃ s, Run (step («repeat» false false) fun _ _ => 0) (.init ())
      stoppedLaterTrace s := exists_run_iff.mpr rfl
  obtain ⟨hcalls, hiff⟩ := loopFn_iff hs
  exact ⟨s, hs, hcalls, hiff.mpr (by decide)⟩

end BaremetalSenders.Repeat
