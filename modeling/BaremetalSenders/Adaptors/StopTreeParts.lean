import BaremetalSenders.Adaptors.StopTree
import BaremetalSenders.StopToken.StopObject

/-!
The parts of a tree.

A run of the tree is, for each source, a run of the stop source and, for each
node, a run of the operation state, in which the receiver's stop is requested
when the flag of the source above is set. So all that is known of these holds
here. `Pair` lists what an operation state and a source do together.
-/

namespace BaremetalSenders.StopTree

open Join

universe u v

variable {V : Type u} {E : Type v}

/-! ### What a step can do -/

def Label.at {T : Tree V E} (x : Option Path) : Label T → Option SourceLabel
  | .op _ _ | .complete _ => none
  | .source y m => if y = x then some m else none
  | .both p l m => if sourceOf p l = x then some m else none

def sourceTrace {T : Tree V E} (tr : List (Label T)) (x : Option Path) : List SourceLabel :=
  tr.filterMap (Label.at x)

theorem at_source {T : Tree V E} {x y : Option Path} {m m' : SourceLabel} :
    (Label.source y m : Label T).at x = some m' ↔ y = x ∧ m = m' := by
  simp [Label.at]

theorem at_both {T : Tree V E} {x : Option Path} {p : Path} {jl : T.OpLabel p}
    {m m' : SourceLabel} :
    (Label.both p jl m).at x = some m' ↔ sourceOf p jl = x ∧ m = m' := by
  simp [Label.at]

theorem token_ne (p : Path) : token p ≠ some p := by
  cases p with
  | nil => simp [token]
  | cons i p => simp [token]

@[simp] theorem hasStopSource_ops {n : ℕ} (kind : Kind n V E) : kind.ops.hasStopSource = true := by
  cases kind <;> rfl

variable {T : Tree V E} [DecidableEq V] [DecidableEq E]

inductive Move (s : State T) : Label T → State T → Prop
  | op {p : Path} {l : T.OpLabel p} {o : T.Op p} (hp : T.leaf p = false)
      (hl : s.allowsOp p l = true) (ho : Join.step (T.ops p) (s.view p) l = some o) :
      Move s (.op p l) (s.setOp p o)
  | source {x : Option Path} {m : SourceLabel} {t : SourceState}
      (hm : s.allowsSource x m = true) (ht : StopToken.step (s.source x) m = some t) :
      Move s (.source x m) ((s.setSource x t).callBack m)
  | both {p : Path} {l : T.OpLabel p} {m : SourceLabel} {o : T.Op p} {t : SourceState}
      (hp : T.leaf p = false) (hl : s.allowsBoth p l m = true)
      (ho : Join.step (T.ops p) (s.view p) l = some o)
      (ht : StopToken.step (s.source (sourceOf p l)) m = some t) :
      Move s (.both p l m) ((s.setOp p o).setSource (sourceOf p l) t)
  | complete {p : Path} (hp : T.leaf p = true) :
      Move s (.complete p) { s with done := Function.update s.done p true }

variable {s s' : State T} {tr : List (Label T)} {l : Label T} {p : Path} {x : Option Path}

theorem step_move (h : step s l = some s') : Move s l s' := by
  cases l with
  | op p l =>
      simp only [step] at h
      split at h
      next hc =>
        obtain ⟨o, ho, rfl⟩ := Option.map_eq_some_iff.mp h
        simp only [Bool.and_eq_true, Bool.not_eq_true'] at hc
        exact .op hc.1 hc.2 ho
      next => cases h
  | source x m =>
      simp only [step] at h
      split at h
      next hm =>
        obtain ⟨t, ht, rfl⟩ := Option.map_eq_some_iff.mp h
        exact .source hm ht
      next => cases h
  | both p l m =>
      simp only [step] at h
      split at h
      next hc =>
        obtain ⟨o, ho, hrest⟩ := Option.bind_eq_some_iff.mp h
        obtain ⟨t, ht, rfl⟩ := Option.map_eq_some_iff.mp hrest
        simp only [Bool.and_eq_true, Bool.not_eq_true'] at hc
        exact .both hc.1 hc.2 ho ht
      next => cases h
  | complete p =>
      simp only [step] at h
      split at h <;> cases h
      next hc =>
        simp only [Bool.and_eq_true] at hc
        exact .complete hc.1.1

/-- The steps of an operation state and a source together. -/
inductive Pair (s : State T) (p : Path) : T.OpLabel p → SourceLabel → Prop
  | emplace {b : Bool} (hrunning : s.running p = true) :
      Pair s p (.emplaceStopCb b) (.enterRegister p)
  | pop {r : Caller} : Pair s p .popStopCb (.getNextCb r (some p))
  | run (hcalled : s.called p = true) : Pair s p .runStopCb (.exchange .stopCb)
  | act {i : Fin (T.node p).arity} (hasks : asksStop ((s.op p).phase i) = true) :
      Pair s p (.act i) (.exchange (.child i))
  | reset {i : Fin (T.node p).arity} {b : Bool} : Pair s p (.resetStopCb i) (.unregister p b)

omit [DecidableEq V] [DecidableEq E] in
theorem pair_of_allowsBoth {jl : T.OpLabel p} {m : SourceLabel}
    (h : s.allowsBoth p jl m = true) : Pair s p jl m := by
  unfold State.allowsBoth at h
  split at h
  next b q =>
    obtain ⟨rfl, hrunning⟩ : q = p ∧ s.running p = true := by simpa using h
    exact .emplace hrunning
  next r q =>
    obtain rfl : q = some p := by simpa using h
    exact .pop
  next r =>
    obtain ⟨rfl, hcalled⟩ : r = .stopCb ∧ s.called p = true := by simpa using h
    exact .run hcalled
  next i r =>
    obtain ⟨rfl, hasks⟩ : r = .child i ∧ asksStop ((s.op p).phase i) = true := by simpa using h
    exact .act hasks
  next i q b =>
    obtain rfl : q = p := by simpa using h
    exact .reset
  next => cases h

/-! ### The parts -/

section Simp

variable (q : Path) (o : T.Op p) (t : SourceState) (m : SourceLabel)

section

omit [DecidableEq V] [DecidableEq E]

@[simp] theorem setOp_source : (s.setOp p o).source = s.source := rfl
@[simp] theorem setOp_done : (s.setOp p o).done = s.done := rfl
@[simp] theorem setOp_op : (s.setOp p o).op = Function.update s.op p o := rfl
@[simp] theorem setSource_op : (s.setSource x t).op = s.op := rfl
@[simp] theorem setSource_done : (s.setSource x t).done = s.done := rfl
@[simp] theorem setSource_source : (s.setSource x t).source = Function.update s.source x t := rfl
@[simp] theorem callBack_op : (s.callBack m).op = s.op := by cases m <;> rfl
@[simp] theorem callBack_source : (s.callBack m).source = s.source := by cases m <;> rfl
@[simp] theorem callBack_done : (s.callBack m).done = s.done := by cases m <;> rfl
@[simp] theorem view_phase : (s.view p).phase = (s.op p).phase := rfl
@[simp] theorem view_pc : (s.view p).pc = (s.op p).pc := rfl
@[simp] theorem view_received : (s.view p).received = (s.op p).received := rfl

end

end Simp

/-- A source takes the steps that are its own. -/
theorem source_step (hs : step s l = some s') (x : Option Path) :
    Run StopToken.step (s.source x) (l.at x).toList (s'.source x) := by
  have hcase {y : Option Path} {m : SourceLabel} {t : SourceState}
      (ht : StopToken.step (s.source y) m = some t) :
      Run StopToken.step (s.source x) (if y = x then some m else none).toList
        (Function.update s.source y t x) := by
    rcases eq_or_ne y x with rfl | hne
    · simpa using ht
    · simp [hne, hne.symm]
  cases step_move hs with
  | op | complete => exact run_nil.mpr rfl
  | source _ ht => simpa [Label.at] using hcase ht
  | both _ _ _ ht => exact hcase ht

theorem source_of_run (h : Run step .init tr s) (x : Option Path) :
    Run StopToken.step .init (sourceTrace tr x) (s.source x) :=
  h.project (fun s => s.source x) (Label.at x) fun _ _ _ hs => source_step hs x

theorem sourceReached_of_run (h : Run step .init tr s) (x : Option Path) :
    StopToken.Reached (sourceTrace tr x) (s.source x) :=
  StopToken.reached_of_run (source_of_run h x)

/-- The flag of a source is set by the exchanges at it. -/
theorem requested_step (hs : step s l = some s') (x : Option Path) :
    (s'.source x).source.requested =
      ((s.source x).source.requested || (l.at x).any StopToken.Label.isExchange) := by
  have hsource := source_step hs x
  cases hl : l.at x with
  | none =>
      rw [hl] at hsource
      rw [run_nil.mp hsource]
      simp
  | some m =>
      rw [hl] at hsource
      obtain ⟨t, ht, hrun⟩ := run_cons.mp hsource
      rw [run_nil.mp hrun, StopToken.requested_step ht]
      rfl

theorem requested_mono (hs : step s l = some s') (hx : (s.source x).source.requested = true) :
    (s'.source x).source.requested = true := by
  rw [requested_step hs, hx, Bool.true_or]

/-- The own source of a node is asked to stop by the node. -/
theorem exchange_own (hs : step s l = some s')
    (hl : (l.at (some p)).any StopToken.Label.isExchange = true) : ∃ jl m, l = .both p jl m := by
  cases step_move hs with
  | op | complete => simp [Label.at] at hl
  | @source x m t hm =>
      simp only [Label.at] at hl
      split at hl
      next hx =>
        subst hx
        cases m with
        | exchange r => cases r <;> simp [State.allowsSource] at hm
        | _ => simp [StopToken.Label.isExchange] at hl
      next => simp at hl
  | @both q jl m o t _ hpair =>
      simp only [Label.at] at hl
      split at hl
      next hx =>
        cases pair_of_allowsBoth hpair with
        | emplace | pop | reset => simp [StopToken.Label.isExchange] at hl
        | run | act =>
            obtain rfl : q = p := Option.some.inj hx
            exact ⟨_, _, rfl⟩
      next => simp at hl

/-- A step of the operation state alone leaves the flags alone. -/
theorem flags_op {jl : T.OpLabel p} {o : T.Op p} (hl : s.allowsOp p jl = true)
    (ho : Join.step (T.ops p) (s.view p) jl = some o) :
    o.requested = (s.view p).requested ∧ o.rcvrRequested = (s.view p).rcvrRequested := by
  cases Join.step_move ho with
  | rcvrRequestStop | runStopCb => simp [State.allowsOp] at hl
  | @act i c a as hphase =>
      cases a with
      | update => exact ⟨rfl, rfl⟩
      | requestStop =>
          rw [view_phase] at hphase
          simp [State.allowsOp, hphase, asksStop] at hl
  | popStopCb | emplaceStopCb | startStopped | startChildren | startChild | complete | arrive
  | arriveLast | ignore | resetStopCb | finish => exact ⟨rfl, rfl⟩

omit [DecidableEq V] [DecidableEq E] in
theorem flags_both {jl : T.OpLabel p} {m : SourceLabel} {o : T.Op p} (hpair : Pair s p jl m)
    (ho : Join.step (T.ops p) (s.view p) jl = some o) :
    o.requested = ((s.view p).requested || m.isExchange) ∧
      o.rcvrRequested = (s.view p).rcvrRequested := by
  cases hpair with
  | emplace | pop | run | reset =>
      cases Join.step_move ho
      simp [StopToken.Label.isExchange]
  | act hasks =>
      cases Join.step_move ho with
      | @act _ c a as hphase =>
          rw [view_phase] at hphase
          cases a with
          | update => simp [hphase, asksStop] at hasks
          | requestStop => simp [State.apply, StopToken.Label.isExchange]

omit [DecidableEq V] [DecidableEq E] in
/-- A node calls `request_stop` on its own source only. -/
theorem exchange_both {jl : T.OpLabel p} {m : SourceLabel} (hpair : Pair s p jl m) :
    ((Label.both p jl m).at (some p)).any StopToken.Label.isExchange = m.isExchange ∧
      ((Label.both p jl m).at (token p)).any StopToken.Label.isExchange = false := by
  cases hpair with
  | emplace | pop | reset =>
      simp [Label.at, sourceOf, token_ne, StopToken.Label.isExchange]
  | run | act => simp [Label.at, sourceOf, (token_ne p).symm, StopToken.Label.isExchange]

/-- An operation state takes a step of its own, or sees the receiver's stop requested. -/
theorem view_step (hs : step s l = some s') (p : Path) :
    ∃ js, Run (Join.step (T.ops p)) (s.view p) js (s'.view p) := by
  -- The operation states that do not take part.
  have hother (hop : s'.op p = s.op p)
      (hown : (l.at (some p)).any StopToken.Label.isExchange = false) :
      ∃ js, Run (Join.step (T.ops p)) (s.view p) js (s'.view p) := by
    have hreq := requested_step hs (some p)
    rw [hown, Bool.or_false] at hreq
    cases hold : (s.source (token p)).source.requested with
    | true =>
        have hnew := requested_mono hs hold
        exact ⟨[], run_nil.mpr (by simp [State.view, hop, hreq, hold, hnew])⟩
    | false =>
        cases hnew : (s'.source (token p)).source.requested with
        | false => exact ⟨[], run_nil.mpr (by simp [State.view, hop, hreq, hold, hnew])⟩
        | true =>
            refine ⟨[.rcvrRequestStop], run_cons.mpr ⟨_, ?_, run_nil.mpr rfl⟩⟩
            simp [Join.step, State.view, hop, hreq, hold, hnew]
  -- The one that does sees the flags it has left.
  have hself {o : T.Op p} (hop : s'.op p = o)
      (hreq : o.requested = (s'.source (some p)).source.requested)
      (hrcvr : o.rcvrRequested = (s'.source (token p)).source.requested) : s'.view p = o := by
    subst hop
    rw [State.view, ← hreq, ← hrcvr]
  cases step_move hs with
  | @op q jl o _ hl ho =>
      rcases eq_or_ne q p with rfl | hne
      · obtain ⟨hreq, hrcvr⟩ := flags_op hl ho
        refine ⟨[jl], run_cons.mpr ⟨o, ho, run_nil.mpr ?_⟩⟩
        exact hself (by simp) hreq hrcvr
      · exact hother (by simp [hne.symm]) rfl
  | source =>
      refine hother (by simp) ?_
      by_contra hex
      obtain ⟨jl, m, hl⟩ := exchange_own hs (by simpa using hex)
      cases hl
  | @both q jl m o t _ hpair ho ht =>
      rcases eq_or_ne q p with rfl | hne
      · obtain ⟨hreq, hrcvr⟩ := flags_both (pair_of_allowsBoth hpair) ho
        obtain ⟨hown, htoken⟩ := exchange_both (pair_of_allowsBoth hpair)
        refine ⟨[jl], run_cons.mpr ⟨o, ho, run_nil.mpr (hself (by simp) ?_ ?_)⟩⟩
        · rw [hreq, requested_step hs (some q), hown]
          rfl
        · rw [hrcvr, requested_step hs (token q), htoken, Bool.or_false]
          rfl
      · refine hother (by simp [hne.symm]) ?_
        by_contra hex
        obtain ⟨jl, m, hl⟩ := exchange_own hs (by simpa using hex)
        cases hl
        exact hne rfl
  | complete => exact hother rfl rfl

theorem view_run (h : Run step s tr s') (p : Path) :
    ∃ js, Run (Join.step (T.ops p)) (s.view p) js (s'.view p) :=
  h.exists_project (fun s => s.view p) fun _ _ _ hs => view_step hs p

theorem view_of_run (h : Run step .init tr s) (p : Path) :
    ∃ js, Run (Join.step (T.ops p)) (T.ops p).initial js (s.view p) := view_run h p

theorem reached_of_run (h : Run step .init tr s) (p : Path) :
    ∃ js, Join.Reached (T.ops p) js (s.view p) := by
  obtain ⟨js, hjs⟩ := view_of_run h p
  exact ⟨js, Join.reached_of_run (T.node p).arity_pos hjs⟩

end BaremetalSenders.StopTree
