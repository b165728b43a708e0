import BaremetalSenders.Adaptors.SplitCompletion

/-!
Using the call site of a `split` again.

The static state outlives the operations of one use. `reset`, at the next use,
destroys the underlying operation and clears the result and the list, but it
leaves the stop source and the environment as they are: once stop has been
requested, every later operation finds it requested, and the environment stays
that of the first sender.

Operations of earlier uses may still be there. What they do is not the
business of the new sender, so its behaviour is what happens with operations
that have not been connected yet, and a state is only looked at as far as these
can see it.
-/

namespace BaremetalSenders.Split

variable {V E : Type*}

/-- The underlying operation is not under way. -/
def Single.idle : Single V → Bool
  | .absent | .connected | .notified => true
  | _ => false

def Event.op : Event V E → Option ℕ
  | .connect o | .requestStop o | .check o _ | .unregister o | .deliver o _ | .emplace o
  | .test o _ | .setStopped o | .link o _ | .startSingle o | .ret o | .resetCb o
  | .notified o _ | .next o => some o
  | .getEnv _ | .complete _ | .store | .notify => none

/-- A trace that only concerns the operations `N`. -/
def Concerns (N : ℕ → Prop) (tr : List (Event V E)) : Prop :=
  ∀ e ∈ tr, ∀ o, e.op = some o → N o

def State.view (N : ℕ → Prop) [DecidablePred N] (s : State V E) : State V E :=
  { s with ops := fun o => if N o then s.ops o else .unborn }

variable {N : ℕ → Prop} [DecidablePred N]

@[simp] theorem values_view (s : State V E) : (s.view N).values = s.values := rfl

@[simp] theorem linkedOps_view (s : State V E) : (s.view N).linkedOps = s.linkedOps := rfl

@[simp] theorem single_view (s : State V E) : (s.view N).single = s.single := rfl

@[simp] theorem stopRequested_view (s : State V E) :
    (s.view N).stopRequested = s.stopRequested := rfl

@[simp] theorem env_view (s : State V E) : (s.view N).env = s.env := rfl

theorem ops_view {s : State V E} {o : ℕ} (ho : N o) : (s.view N).ops o = s.ops o := by
  simp [State.view, ho]

theorem view_setOp {s : State V E} {o : ℕ} (ho : N o) (op : Op V) :
    (s.setOp o op).view N = (s.view N).setOp o op := by
  simp only [State.view, State.setOp, State.mk.injEq, true_and]
  funext o'
  by_cases heq : o' = o
  · subst heq
    simp [ho]
  · simp [heq]

variable [DecidableEq V] [DecidableEq E] {recv : ℕ → Receiver V}

/-- What an operation does depends on what it sees only. -/
theorem step_view {s : State V E} {e : Event V E} (he : ∀ o, e.op = some o → N o) :
    step recv (s.view N) e = (step recv s e).map (State.view N) := by
  cases e with
  | getEnv e =>
      by_cases henv : s.env = some e <;> simp [step, henv]
  | complete c =>
      simp only [step, single_view, linkedOps_view]
      split <;> rfl
  | store =>
      simp only [step, single_view]
      split <;> rfl
  | notify =>
      simp only [step, single_view, linkedOps_view]
      split <;> rfl
  | next o =>
      simp only [step, single_view, ops_view (he o rfl)]
      split <;> rfl
  | check o b | unregister o | test o b | setStopped o | ret o =>
      simp only [step, ops_view (he o rfl), values_view, stopRequested_view]
      split
      · rw [Option.map_some, view_setOp (he o rfl)]
      · rfl
  | connect o | requestStop o | deliver o c | emplace o | link o b | startSingle o | resetCb o
  | notified o c =>
      simp only [step, ops_view (he o rfl), values_view, linkedOps_view, single_view,
        stopRequested_view, ← view_setOp (he o rfl)]
      split <;> rfl

theorem exec_view {s : State V E} {tr : List (Event V E)} (h : Concerns N tr) :
    exec (step recv) (s.view N) tr = (exec (step recv) s tr).map (State.view N) := by
  induction tr generalizing s with
  | nil => rfl
  | cons e tr ih =>
      have he : ∀ o, e.op = some o → N o := h e (by simp)
      have hrest : Concerns N tr := fun e' he' => h e' (List.mem_cons_of_mem e he')
      simp only [exec, step_view he]
      cases step recv s e with
      | none => rfl
      | some s' => exact ih hrest

/-- Two states that look the same to `N` have the same traces with it. -/
theorem runs_iff_of_view {s t : State V E} (h : s.view N = t.view N) {tr : List (Event V E)}
    (htr : Concerns N tr) : (∃ u, Run (step recv) s tr u) ↔ ∃ u, Run (step recv) t tr u := by
  have hs : exec (step recv) (s.view N) tr = _ := exec_view htr
  rw [h, exec_view htr] at hs
  rw [exists_run_iff, exists_run_iff, ← Option.isSome_map (f := State.view N), ← hs,
    Option.isSome_map]

/-! ### Histories -/

/-- The states in which a new split sender can be made at the call site: each
earlier one was used in some way, and its underlying operation is not under way
any more. -/
inductive History (recv : ℕ → Receiver V) : State V E → Prop
  | first : History recv .init
  | again {s s' : State V E} {tr : List (Event V E)} (e : E) : History recv s →
      Run (step recv) (s.split e) tr s' → s'.single.idle = true → History recv s'

def Single.at : Single V → Option ℕ
  | .resetting o | .delivering o | .following o => some o
  | _ => none

/-- Operations that are not connected have done nothing and are not pointed to,
and there are always more of them. -/
structure Unspent (s : State V E) : Prop where
  unborn : ∀ o, (s.ops o).pc = .unborn → s.ops o = .unborn
  bound : ∃ k, ∀ o, k ≤ o → (s.ops o).pc = .unborn
  head : ∀ o, s.linkedOps = some o → (s.ops o).pc ≠ .unborn
  next : ∀ o' o, (s.ops o').nextOps = some o → (s.ops o).pc ≠ .unborn
  walk : ∀ o, s.single.at = some o → (s.ops o).pc ≠ .unborn

omit [DecidableEq V] [DecidableEq E] in
theorem Unspent.frame {s s' : State V E} (h : Unspent s) (hops : s'.ops = s.ops)
    (hhead : ∀ o, s'.linkedOps = some o → (s.ops o).pc ≠ .unborn)
    (hwalk : ∀ o, s'.single.at = some o → (s.ops o).pc ≠ .unborn) : Unspent s' := by
  constructor
  · simpa only [hops] using h.unborn
  · simpa only [hops] using h.bound
  · intro o ho
    rw [hops]
    exact hhead o ho
  · simpa only [hops] using h.next
  · simpa only [hops] using hwalk

omit [DecidableEq V] [DecidableEq E] in
/-- Changing an operation that is connected, or has become so. -/
theorem Unspent.setOp {s : State V E} (h : Unspent s) {o : ℕ} {op : Op V}
    (hop : op.pc ≠ .unborn) (hnext : op.nextOps = (s.ops o).nextOps ∨ op.nextOps = s.linkedOps) :
    Unspent (s.setOp o op) := by
  have hborn : ∀ o', (s.ops o').pc ≠ .unborn → ((s.setOp o op).ops o').pc ≠ .unborn := by
    intro o' ho'
    by_cases heq : o' = o
    · subst heq
      simpa using hop
    · rwa [ops_setOp_of_ne s op heq]
  constructor
  · intro o' ho'
    by_cases heq : o' = o
    · subst heq
      rw [ops_setOp] at ho'
      exact absurd ho' hop
    · rw [ops_setOp_of_ne s op heq] at ho' ⊢
      exact h.unborn o' ho'
  · obtain ⟨k, hk⟩ := h.bound
    refine ⟨max k (o + 1), fun o' ho' => ?_⟩
    rw [ops_setOp_of_ne s op (by omega)]
    exact hk o' (by omega)
  · exact fun o' ho' => hborn o' (h.head o' ho')
  · intro o₁ o₂ ho
    refine hborn o₂ ?_
    by_cases heq : o₁ = o
    · subst heq
      rw [ops_setOp] at ho
      rcases hnext with hn | hn
      · exact h.next o₁ o₂ (hn ▸ ho)
      · exact h.head o₂ (hn ▸ ho)
    · rw [ops_setOp_of_ne s op heq] at ho
      exact h.next o₁ o₂ ho
  · exact fun o' ho' => hborn o' (h.walk o' ho')

theorem unspent_step {s s' : State V E} {e : Event V E} (h : Unspent s)
    (hs : step recv s e = some s') : Unspent s' := by
  cases step_move hs with
  | getEnv => exact h
  | @connect o hpc =>
      have h' : Unspent (s.setOp o { s.ops o with pc := .connected }) :=
        h.setOp (by simp) (.inl rfl)
      refine h'.frame rfl h'.head fun o' ho' => h'.walk o' ?_
      cases hg : s.single <;> simp_all [Single.ensure, Single.at, State.setOp]
  | @requestStop o hpc =>
      have h' : Unspent (s.setOp o { s.ops o with requested := true }) :=
        h.setOp hpc (.inl rfl)
      exact h'.frame rfl h'.head h'.walk
  | check => exact h.setOp (by cases s.values.isSome <;> simp) (.inl rfl)
  | unregister | setStopped | ret => exact h.setOp (by simp) (.inl rfl)
  | test => exact h.setOp (by cases s.stopRequested <;> simp) (.inl rfl)
  | @deliver o c =>
      have h' : Unspent (s.setOp o { s.ops o with
        pc := .returning, received := (s.ops o).received ++ [c] }) :=
        h.setOp (by simp) (.inl rfl)
      exact h'.frame rfl h'.head h'.walk
  | @emplace o =>
      have h' : Unspent (s.setOp o { s.ops o with pc := .registered, stopCb := true }) :=
        h.setOp (by simp) (.inl rfl)
      exact h'.frame rfl h'.head h'.walk
  | @link o hpc =>
      have h' : Unspent (s.setOp o { s.ops o with
          pc := .linked s.linkedOps.isNone, nextOps := s.linkedOps }) :=
        h.setOp (by simp) (.inr rfl)
      refine h'.frame rfl (fun o' ho' => ?_) h'.walk
      obtain rfl := Option.some.inj ho'
      simp
  | @startSingle o hpc =>
      have h' : Unspent (s.setOp o { s.ops o with pc := .returning }) :=
        h.setOp (by simp) (.inl rfl)
      exact h'.frame rfl h'.head (by simp [Single.at])
  | complete =>
      refine h.frame rfl h.head ?_
      cases s.linkedOps <;> simp [Single.at]
  | store => exact h.frame rfl h.head (by simp [Single.at])
  | notify hg ho =>
      refine h.frame rfl h.head fun o' ho' => ?_
      exact h.head o' (ho.trans ho')
  | @resetCb o hg =>
      have hwalk := h.walk o (by simp [hg, Single.at])
      have h' : Unspent (s.setOp o { s.ops o with stopCb := false }) :=
        h.setOp hwalk (.inl rfl)
      refine h'.frame rfl h'.head fun o' ho' => h'.walk o' ?_
      simpa [State.setOp, hg, Single.at] using ho'
  | @notified o c hg =>
      have hwalk := h.walk o (by simp [hg, Single.at])
      have h' : Unspent (s.setOp o { s.ops o with received := (s.ops o).received ++ [c] }) :=
        h.setOp hwalk (.inl rfl)
      refine h'.frame rfl h'.head fun o' ho' => h'.walk o' ?_
      simpa [State.setOp, hg, Single.at] using ho'
  | @next o =>
      refine h.frame rfl h.head fun o' ho' => h.next o o' ?_
      cases hn : (s.ops o).nextOps with
      | none => simp [hn, Single.at] at ho'
      | some o₁ => simpa [hn, Single.at] using ho'

theorem unspent_of_history {s : State V E} (h : History recv s) : Unspent s := by
  induction h with
  | first => constructor <;> simp [State.init, Op.unborn, Single.at]
  | again e _ hr _ ih =>
      have hsplit : Unspent (State.split _ e) := ih.frame rfl (by simp [State.split, State.reset])
        (by simp [State.split, State.reset, Single.at])
      exact Run.induction (P := fun _ s => Unspent s) hsplit
        (fun _ _ _ _ _ ih hs => unspent_step ih hs) hr

/-! ### A new sender -/

/-- The operations that have not been connected to an earlier sender. -/
def State.Untouched (s : State V E) (o : ℕ) : Prop := (s.ops o).pc = .unborn

instance State.Untouched.decidable (s : State V E) : DecidablePred s.Untouched :=
  fun o => inferInstanceAs (Decidable ((s.ops o).pc = .unborn))

omit [DecidableEq V] [DecidableEq E] in
/-- What the new operations see of the call site: a fresh one, but for the stop
source and the environment. -/
theorem view_split {s : State V E} (h : Unspent s) (e : E) :
    (s.split e).view s.Untouched = .fresh s.stopRequested (some (s.env.getD e)) := by
  simp only [State.view, State.split, State.reset, State.fresh, State.mk.injEq, true_and]
  funext o
  split
  · next ho => exact h.unborn o ho
  · rfl

theorem runs_split_iff {s : State V E} (h : Unspent s) (e : E) {tr : List (Event V E)}
    (htr : Concerns s.Untouched tr) : (∃ u, Run (step recv) (s.split e) tr u) ↔
      ∃ u, Run (step recv) (.fresh s.stopRequested (some (s.env.getD e))) tr u := by
  refine runs_iff_of_view ?_ htr
  rw [view_split h]
  simp [State.view, State.fresh]

/-- The traces of the new sender tell whether stop has been requested before. -/
def stopProbe (o : ℕ) : List (Event V E) :=
  [.connect o, .check o false, .emplace o, .test o false]

omit [DecidableEq V] [DecidableEq E] [DecidablePred N] in
theorem concerns_stopProbe {o : ℕ} (ho : N o) : Concerns N (stopProbe o : List (Event V E)) := by
  intro e he o' ho'
  obtain rfl : o = o' := by
    simp only [stopProbe, List.mem_cons, List.not_mem_nil, or_false] at he
    rcases he with rfl | rfl | rfl | rfl <;> exact Option.some.inj ho'
  exact ho

theorem stopProbe_iff {stop : Bool} {env : Option E} {o : ℕ} :
    (∃ u, Run (step recv) (.fresh stop env) (stopProbe o) u) ↔ stop = false := by
  cases stop <;>
    simp [stopProbe, step, State.fresh, State.setOp, Op.unborn, Single.ensure]

theorem getEnv_iff {stop : Bool} {env : Option E} {e : E} :
    (∃ u, Run (step recv) (.fresh stop env) [.getEnv e] u) ↔ env = some e := by
  simp [step, State.fresh]

/-- After any history, a new split sender behaves as the first one at the call
site exactly when stop has never been requested of the call site's stop source
and the environment kept from the first sender is its own. -/
theorem split_history_iff {s : State V E} (h : History recv s) (e : E) :
    (∀ tr, Concerns s.Untouched tr → ((∃ u, Run (step recv) (s.split e) tr u) ↔
        ∃ u, Run (step recv) (State.init.split e) tr u)) ↔
      s.stopRequested = false ∧ (s.env = none ∨ s.env = some e) := by
  have hunspent := unspent_of_history h
  have hfirst : (State.init.split e : State V E) = .fresh false (some e) := rfl
  rw [hfirst]
  constructor
  · intro hsame
    constructor
    · obtain ⟨k, hk⟩ := hunspent.bound
      have hconcerns : Concerns s.Untouched (stopProbe k : List (Event V E)) :=
        concerns_stopProbe (hk k (Nat.le_refl k))
      have := (hsame _ hconcerns).mpr (stopProbe_iff.mpr rfl)
      exact stopProbe_iff.mp ((runs_split_iff hunspent e hconcerns).mp this)
    · have hconcerns : Concerns s.Untouched ([.getEnv e] : List (Event V E)) := by
        intro l hl o ho
        obtain rfl := List.mem_singleton.mp hl
        cases ho
      have := (hsame _ hconcerns).mpr (getEnv_iff.mpr rfl)
      have henv := getEnv_iff.mp ((runs_split_iff hunspent e hconcerns).mp this)
      cases hs : s.env with
      | none => exact .inl rfl
      | some e' => exact .inr (by simpa [hs] using henv)
  · rintro ⟨hstop, henv⟩ tr htr
    rw [runs_split_iff hunspent e htr, hstop]
    rcases henv with henv | henv <;> rw [henv] <;> rfl

/-- The only receiver has requested stop before `start`. -/
def cancelledTrace : List (Event ℕ ℕ) :=
  [.connect 0, .requestStop 0, .check 0 false, .emplace 0, .test 0 true, .setStopped 0, .ret 0]

/-- After a use that was cancelled, the next sender's operations are stopped. -/
theorem split_history_cancelled : ¬ ∀ (s : State ℕ ℕ), History (fun _ => ⟨id, id⟩) s → ∀ e tr,
    Concerns s.Untouched tr →
      ((∃ u, Run (step fun _ => ⟨id, id⟩) (s.split e) tr u) ↔
        ∃ u, Run (step fun _ => ⟨id, id⟩) (State.init.split e) tr u) := by
  intro h
  obtain ⟨s, hs⟩ : ∃ s, Run (step fun _ => ⟨id, id⟩) (State.init.split 0) cancelledTrace s :=
    exists_run_iff.mpr rfl
  have hview : (exec (step fun _ => ⟨id, id⟩) (State.init.split 0) cancelledTrace).map
      (fun s : State ℕ ℕ => (s.single.idle, (s.ops 1).pc, (s.split 0).stopRequested)) =
      some (true, .unborn, true) := rfl
  rw [show exec _ _ cancelledTrace = some s from hs, Option.map_some] at hview
  simp only [Option.some.injEq, Prod.mk.injEq] at hview
  have hhistory : History (fun _ => ⟨id, id⟩) s := .again 0 .first hs hview.1
  have hconcerns : Concerns s.Untouched (stopProbe 1 : List (Event ℕ ℕ)) :=
    concerns_stopProbe hview.2.1
  have hnew := (h s hhistory 0 _ hconcerns).mpr (stopProbe_iff.mpr rfl)
  have hold := (runs_split_iff (unspent_of_history hhistory) 0 hconcerns).mp hnew
  have hstop := stopProbe_iff.mp hold
  rw [← show (s.split 0).stopRequested = s.stopRequested from rfl, hview.2.2] at hstop
  cases hstop

/-- The underlying operation completes from inside its `start`, and nobody
requests stop. -/
def completedTrace : List (Event ℕ ℕ) :=
  [.getEnv 0, .connect 0, .check 0 false, .emplace 0, .test 0 false, .link 0 true,
    .startSingle 0, .complete (.value 7), .store, .notify, .resetCb 0, .notified 0 (.value 7),
    .next 0, .ret 0]

theorem split_history_completed : ∃ s : State ℕ ℕ, History (fun _ => ⟨id, id⟩) s ∧
    s.env = some 0 ∧ ∀ tr, Concerns s.Untouched tr →
      ((∃ u, Run (step fun _ => ⟨id, id⟩) (s.split 0) tr u) ↔
        ∃ u, Run (step fun _ => ⟨id, id⟩) (State.init.split 0) tr u) := by
  obtain ⟨s, hs⟩ : ∃ s, Run (step fun _ => ⟨id, id⟩) (State.init.split 0) completedTrace s :=
    exists_run_iff.mpr rfl
  have hview : (exec (step fun _ => ⟨id, id⟩) (State.init.split 0) completedTrace).map
      (fun s : State ℕ ℕ => (s.single.idle, s.stopRequested, s.env)) =
      some (true, false, some 0) := rfl
  rw [show exec _ _ completedTrace = some s from hs, Option.map_some] at hview
  simp only [Option.some.injEq, Prod.mk.injEq] at hview
  have hhistory : History (fun _ => ⟨id, id⟩) s := .again 0 .first hs hview.1
  exact ⟨s, hhistory, hview.2.2, (split_history_iff hhistory 0).mpr ⟨hview.2.1, .inr hview.2.2⟩⟩

end BaremetalSenders.Split
