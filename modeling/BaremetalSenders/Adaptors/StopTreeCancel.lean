import BaremetalSenders.Adaptors.StopTreeLinks

/-!
How far a stop request gets in a tree.

When a call of `request_stop` on the root's source has returned, the sources of
all nodes that have leaves at work have been drained, one level after the
other: the callback of such a node is registered, so it has been run, and it
does not return before the `request_stop` in it. The exception is a source
that a child's completion is just asking to stop. There the call that comes
from above finds the flag set and returns, while the other one goes on; what is
below it is reached when this one is through.
-/

namespace BaremetalSenders.StopTree

open Join

universe u v

variable {V : Type u} {E : Type v} {T : Tree V E} [DecidableEq V] [DecidableEq E]
  {s s' : State T} {tr tr' : List (Label T)} {l : Label T} {p q : Path} {x : Option Path}

/-! ### What is said of a state -/

/-- `start` has constructed the stop callback, or is inside the constructor's call of it. -/
def Started (s : State T) (p : Path) : Prop :=
  (s.source (token p)).life p ≠ .unborn ∧ (s.source (token p)).life p ≠ .constructing ∧
    (s.source (token p)).life p ≠ .refused

/-- Somebody has called `request_stop` on the root's source. -/
def RootRequested (s : State T) : Prop :=
  ∃ k, (s.source none).calls (.external k) ≠ .idle

def RootReturned (s : State T) : Prop :=
  ∃ k won, (s.source none).calls (.external k) = .returned won

/-- The policy of a node has requested stop, for the completion of a child that makes it. -/
def PolicyRequested (s : State T) (q : Path) : Prop :=
  ∃ i c, ((s.op q).phase i).completion = some c ∧ (T.node q).kind.requestsStop c = true ∧
    (s.source (some q)).calls (.child i) ≠ .idle

/-- A call of `request_stop` on the root's source, or of the policy of a node above `p`, has
not returned. -/
def RequestInProgress (s : State T) (p : Path) : Prop :=
  (∃ k, ((s.source none).calls (.external k)).inProgress = true) ∨
    ∃ q i, q <:+ p ∧ q ≠ p ∧ ((s.source (some q)).calls (.child i)).inProgress = true

/-- The request that won has returned. -/
def Settled (s : State T) (x : Option Path) : Prop :=
  ∃ r, (s.source x).calls r = .returned true

/-! ### Who calls -/

/-- Leaves have no source of their own, and the nodes do not use the root's. -/
def MayCall (T : Tree V E) : Option Path → Caller → Prop
  | none, r => ∃ k, r = .external k
  | some p, _ => T.leaf p = false

theorem mayCall_step (hs : step s l = some s') {r : Caller} (hl : l.at x = some (.exchange r)) :
    MayCall T x r := by
  cases step_move hs with
  | op | complete => cases hl
  | @source y m t hm =>
      obtain ⟨rfl, rfl⟩ := at_source.mp hl
      cases r with
      | external k =>
          obtain rfl : y = none := by simpa [State.allowsSource, callbackOf] using hm
          exact ⟨k, rfl⟩
      | stopCb | child => simp [State.allowsSource] at hm
  | @both q jl m o t hq hpair =>
      obtain ⟨rfl, rfl⟩ := at_both.mp hl
      cases pair_of_allowsBoth hpair with
      | run | act => exact hq

theorem mayCall_of_run (h : Run step .init tr s) {r : Caller}
    (hr : (s.source x).calls r ≠ .idle) : MayCall T x r := by
  have hmem := (sourceReached_of_run h x).called.exchanged r hr
  obtain ⟨l, hl, hat⟩ := List.mem_filterMap.mp hmem
  have hall := h.forall_mem (I := fun _ => True)
    (P := fun l => ∀ r, l.at x = some (.exchange r) → MayCall T x r) True.intro
    fun s l s' _ hs => ⟨True.intro, fun r => mayCall_step hs⟩
  exact hall l hl r hat

/-! ### From the root to the leaves -/

theorem settled_requested (h : Run step .init tr s) (hx : Settled s x) :
    (s.source x).source.requested = true := by
  obtain ⟨r, hr⟩ := hx
  exact (sourceReached_of_run h x).oneWinner.requested_of_returned hr

/-- When stop has been requested and nobody is at it, the request has returned. -/
theorem settled_of_requested (h : Run step .init tr s)
    (hreq : (s.source x).source.requested = true)
    (hidle : ∀ r, (s.source x).calls r ≠ .idle → ((s.source x).calls r).inProgress = false) :
    Settled s x := by
  obtain ⟨r, hr⟩ := (sourceReached_of_run h x).oneWinner.requested.mp hreq
  have hcalled : (s.source x).calls r ≠ .idle := fun e => by
    simp [e, StopToken.Call.isWinner] at hr
  exact ⟨r, StopToken.returned_of_isWinner hr (hidle r hcalled)⟩

theorem requested_of_called (h : Run step .init tr s) {r : Caller}
    (hr : (s.source x).calls r ≠ .idle) : (s.source x).source.requested = true :=
  (sourceReached_of_run h x).called.requested r ((sourceReached_of_run h x).called.exchanged r hr)

theorem settled_root (h : Run step .init tr s) (hroot : RootReturned s)
    (hidle : ¬ RequestInProgress s p) : Settled s none := by
  obtain ⟨k, won, hk⟩ := hroot
  refine settled_of_requested h (requested_of_called h (r := .external k) (by simp [hk])) ?_
  intro r hr
  obtain ⟨k, rfl⟩ := mayCall_of_run h hr
  by_contra hprogress
  exact hidle (.inl ⟨k, by simpa using hprogress⟩)

/-- The callback of a node that is back has drained the node's source, or somebody else is
at it. -/
theorem settled_of_back (h : Run step .init tr s) (hp : T.leaf p = false)
    (hback : ((s.source (some p)).calls .stopCb).isReturned = true)
    (hidle : ∀ i, ((s.source (some p)).calls (.child i)).inProgress = false) :
    Settled s (some p) := by
  have hcalled : (s.source (some p)).calls .stopCb ≠ .idle := fun e => by
    simp [e, StopToken.Call.isReturned] at hback
  refine settled_of_requested h (requested_of_called h hcalled) fun r hr => ?_
  cases r with
  | external k => exact absurd ((linkedAt_of_run h hp).external k) hr
  | stopCb =>
      cases hc : (s.source (some p)).calls .stopCb <;>
        simp_all [StopToken.Call.isReturned, StopToken.Call.inProgress]
  | child i => exact hidle i

/-- A registered callback at a source whose request has returned is back. -/
theorem completed_of_settled (h : Run step .init tr s) (hx : Settled s x)
    (hlife : (s.source x).life p = .registered) : p ∈ StopToken.completed (sourceTrace tr x) := by
  obtain ⟨r, hr⟩ := hx
  exact (sourceReached_of_run h x).completed_of_returned hr hlife

/-- The node is at work: its callback is registered, and it has not completed its receiver. -/
structure Active (s : State T) (p : Path) : Prop where
  leaf : T.leaf p = false
  life : (s.source (token p)).life p = .registered
  received : (s.op p).received = []

/-- A node with a child at work is at work. -/
theorem active_of_running (h : Run step .init tr s) (hp : T.leaf p = false)
    {i : Fin (T.node p).arity} (hi : (s.op p).phase i = .running) : Active s p := by
  obtain ⟨js, hreached⟩ := reached_of_run h p
  have hlinked := linkedAt_of_run h hp
  have hlast (j : Fin (T.node p).arity) : ((s.op p).phase j).isLast = false := by
    by_contra hj
    have harrived := (hreached.all_completed (i := j) (by simpa using hj) i).1
    simp [hi, Phase.arrived] at harrived
  obtain ⟨k, hk, -⟩ := hreached.counted.starting_of_not_idle (i := i)
    (by rw [view_phase, hi]; rfl)
  rw [view_pc] at hk
  have hbarred (hb : Barred (s.view p)) : False := by
    have hstarted := hb.pc
    simp [hk] at hstarted
  refine ⟨hp, ?_, ?_⟩
  · cases hlife : (s.source (token p)).life p with
    | registered => rfl
    | unborn => simp [hlinked.unborn.mp hlife] at hk
    | constructing => simp [hlinked.entered (.inl hlife)] at hk
    | refused => simp [hlinked.entered (.inr hlife)] at hk
    | invoking => exact (hbarred (hlinked.refused (.inr (.inr (.inl hlife))))).elim
    | constructed => exact (hbarred (hlinked.refused (.inr (.inr (.inr hlife))))).elim
    | destroyed =>
        obtain ⟨j, hj⟩ := hlinked.gone hlife
        simp [hlast j] at hj
  · refine hreached.counted.received_nil (by simp [hk]) fun j => ?_
    have hj := hlast j
    cases hphase : (s.op p).phase j <;> simp_all [Phase.isLast, Phase.isFinished]

/-- What has been started and has not completed is running in its parent. -/
theorem running_of_born (h : Run step .init tr s) {i : ℕ}
    (hborn : (s.source (some p)).life (i :: p) ≠ .unborn) (hnot : ¬ Completed s (i :: p)) :
    T.leaf p = false ∧ ∃ j : Fin (T.node p).arity, j = i ∧ (s.op p).phase j = .running := by
  have hattached := attached_of_run h
  obtain ⟨hp, j, rfl, hidle⟩ := hattached.started i p hborn
  refine ⟨hp, j, rfl, ?_⟩
  have hcompletion (c : Completion (List V) E) : ((s.op p).phase j).completion ≠ some c :=
    fun hc => hnot (hattached.completed p j c hc)
  cases hphase : (s.op p).phase j with
  | running => rfl
  | idle => simp [hphase, Phase.isIdle] at hidle
  | completing c | ignored c | done c | deciding c | finished c =>
      exact absurd (by rw [hphase]; rfl) (hcompletion c)

omit [DecidableEq V] [DecidableEq E] in
theorem Active.not_completed (h : Active s p) : ¬ Completed s p := fun hc =>
  hc.node h.leaf h.received

/-- Down from the root: the sources of the nodes at work have been drained. -/
theorem settled_of_active (h : Run step .init tr s) (hroot : Settled s none) :
    ∀ p, Active s p →
      (∀ q i, q <:+ p → ((s.source (some q)).calls (.child i)).inProgress = false) →
      Settled s (some p) := by
  intro p
  induction p with
  | nil =>
      intro hactive hidle
      have hback := completed_of_settled h hroot hactive.life
      exact settled_of_back h hactive.leaf ((linkedAt_of_run h hactive.leaf).back (.inr hback))
        fun i => hidle [] i List.suffix_rfl
  | cons i p ih =>
      intro hactive hidle
      have hborn : (s.source (some p)).life (i :: p) ≠ .unborn := by
        have hlife : (s.source (some p)).life (i :: p) = .registered := hactive.life
        simp [hlife]
      obtain ⟨hp, j, rfl, hj⟩ := running_of_born h hborn hactive.not_completed
      have habove : Settled s (some p) := ih (active_of_running h hp hj) fun q k hq =>
        hidle q k (hq.trans (List.suffix_cons _ _))
      have hback := completed_of_settled h habove hactive.life
      exact settled_of_back h hactive.leaf ((linkedAt_of_run h hactive.leaf).back (.inr hback))
        fun k => hidle _ k List.suffix_rfl

theorem suffix_cons_ne {i : ℕ} (hq : q <:+ p) : q <:+ i :: p ∧ q ≠ i :: p := by
  refine ⟨hq.trans (List.suffix_cons _ _), fun e => ?_⟩
  have hlength := hq.length_le
  rw [e, List.length_cons] at hlength
  omega

omit [DecidableEq V] [DecidableEq E] in
theorem not_inProgress {i : ℕ} (hidle : ¬ RequestInProgress s (i :: p)) (q : Path) (k : ℕ)
    (hq : q <:+ p) : ((s.source (some q)).calls (.child k)).inProgress = false := by
  by_contra hprogress
  obtain ⟨hsuffix, hne⟩ := suffix_cons_ne (i := i) hq
  exact hidle (.inr ⟨q, k, hsuffix, hne, by simpa using hprogress⟩)

/-- The source above something that is at work has been drained. -/
theorem settled_token (h : Run step .init tr s) (hroot : RootReturned s)
    (hidle : ¬ RequestInProgress s p) (hborn : (s.source (token p)).life p ≠ .unborn)
    (hnot : ¬ Completed s p) : Settled s (token p) := by
  have hsettled := settled_root h hroot hidle
  cases p with
  | nil => exact hsettled
  | cons i p =>
      obtain ⟨hp, j, rfl, hj⟩ := running_of_born h hborn hnot
      exact settled_of_active h hsettled p (active_of_running h hp hj) (not_inProgress hidle)

/-- A leaf at work has been called. -/
theorem count_invocations (h : Run step .init tr s) (hroot : RootReturned s)
    (hp : T.leaf p = true) (hstarted : Started s p) (hdone : s.done p = false)
    (hidle : ¬ RequestInProgress s p) :
    (StopToken.invocations (sourceTrace tr (token p))).count p = 1 := by
  have hsource := source_of_run h (token p)
  have hreached := sourceReached_of_run h (token p)
  obtain ⟨hunborn, hconstructing, hrefused⟩ := hstarted
  have hnot : ¬ Completed s p := fun hc => by simp [hc.leaf hp] at hdone
  have hsettled := settled_token h hroot hidle hunborn hnot
  refine List.count_eq_one_of_mem (StopToken.nodup_invocations_of_run hsource) ?_
  rw [StopToken.mem_invocations]
  cases hlife : (s.source (token p)).life p with
  | unborn => exact absurd hlife hunborn
  | constructing => exact absurd hlife hconstructing
  | refused => exact absurd hlife hrefused
  | registered =>
      obtain ⟨r, hr⟩ := hsettled
      have hcompleted := hreached.completed_of_returned hr hlife
      obtain ⟨hbegun, hkept⟩ := hreached.drained hr
      exact .inl (by rwa [hbegun, ← hkept])
  | invoking | constructed => exact .inr (hreached.fates.fateOk hlife).2.2.1
  | destroyed => simp [(attached_of_run h).removed p hp hlife] at hdone

/-! ### What is started later -/

/-- What has not begun when the request has returned comes too late. -/
theorem late_of_settled (h : Run step .init tr s) (hx : Settled s (token p))
    (hstarted : ¬ Started s p) : StopToken.Late p (s.source (token p)) where
  requested := settled_requested h hx
  mutex := by
    obtain ⟨r, hr⟩ := hx
    exact ((sourceReached_of_run h (token p)).nothingLeft r hr).2 p
  life := fun hlife => hstarted (by simp [Started, hlife])

/-- A node that comes too late does not get to its children. -/
theorem barred_of_late (h : Run step .init tr s) (hp : T.leaf p = false)
    (hlate : StopToken.Late p (s.source (token p))) (hstarted : ¬ Started s p) :
    Barred (s.view p) := by
  have hlinked := linkedAt_of_run h hp
  cases hlife : (s.source (token p)).life p with
  | unborn => exact ⟨hlate.requested, .inl (hlinked.unborn.mp hlife)⟩
  | constructing =>
      obtain ⟨b, hb⟩ := StopToken.mutex_of_constructing (source_of_run h (token p)) hlife
      cases b with
      | false => exact absurd hb hlate.mutex
      | true => exact hlinked.refused (.inl hb)
  | refused => exact hlinked.refused (.inr (.inl hlife))
  | registered | invoking | constructed | destroyed =>
      exact absurd (by simp [Started, hlife]) hstarted

theorem late_of_run (h : StopToken.Late p (s.source x)) (hr : Run step s tr' s') :
    StopToken.Late p (s'.source x) :=
  h.run (hr.project (fun s => s.source x) (Label.at x) fun _ _ _ hs => source_step hs x)

/-- A node that is barred starts none of its children. -/
theorem idle_of_barred (h : Run step .init tr s) (hbarred : Barred (s.view p))
    (hr : Run step s tr' s') (i : Fin (T.node p).arity) : (s'.op p).phase i = .idle := by
  obtain ⟨js, hjs⟩ := view_of_run h p
  obtain ⟨js', hjs'⟩ := view_run hr p
  have hn := (T.node p).arity_pos
  have hbarred' := hbarred.run hn (hasStopSource_ops _) hjs hjs'
  have hcounted := (Join.reached_of_run hn (run_append.mpr ⟨_, hjs, hjs'⟩)).counted
  exact hcounted.idle_of_not_started hbarred'.started i

theorem idle_of_unborn (h : Run step .init tr s) (hp : T.leaf p = false)
    (hlife : (s.source (token p)).life p = .unborn) (i : Fin (T.node p).arity) :
    (s.op p).phase i = .idle := by
  obtain ⟨js, hreached⟩ := reached_of_run h p
  have hpc : (s.view p).pc = .unstarted := (linkedAt_of_run h hp).unborn.mp hlife
  exact hreached.counted.idle_of_not_started (by rw [hpc]; rfl) i

theorem not_completed (h : Run step .init tr s) (hstarted : ¬ Started s p)
    (hdone : T.leaf p = true → s.done p = false) : ¬ Completed s p := by
  intro hc
  cases hp : T.leaf p with
  | true => simp [hc.leaf hp] at hdone; simp [hdone] at hp
  | false =>
      obtain ⟨js, hreached⟩ := reached_of_run h p
      have hlinked := linkedAt_of_run h hp
      have hpc : (s.op p).pc = .unstarted ∨ (s.op p).pc = .stopCbEmplaced := by
        cases hlife : (s.source (token p)).life p with
        | unborn => exact .inl (hlinked.unborn.mp hlife)
        | constructing => exact .inr (hlinked.entered (.inl hlife))
        | refused => exact .inr (hlinked.entered (.inr hlife))
        | registered | invoking | constructed | destroyed =>
            exact absurd (by simp [Started, hlife]) hstarted
      have hzero : (s.view p).pc.started = 0 := by
        rcases hpc with hpc | hpc <;> simp [hpc, StartPc.started]
      refine hc.node hp (hreached.counted.received_nil ?_ fun i => ?_)
      · rcases hpc with hpc | hpc <;> simp [hpc]
      · rw [hreached.counted.idle_of_not_started hzero i]
        rfl

omit [DecidableEq V] [DecidableEq E] in
theorem not_requestInProgress {i : ℕ} (hidle : ¬ RequestInProgress s (i :: p)) :
    ¬ RequestInProgress s p := by
  rintro (hroot | ⟨q, k, hq, -, hprogress⟩)
  · exact hidle (.inl hroot)
  · simp [not_inProgress hidle q k hq] at hprogress

/-- What has not begun when the request has returned comes too late, if it comes at all. -/
theorem late_of_born (h : Run step .init tr s) (hroot : RootReturned s)
    (hr : Run step s tr' s') :
    ∀ p, ¬ Started s p → (T.leaf p = true → s.done p = false) → ¬ RequestInProgress s p →
      (s'.source (token p)).life p ≠ .unborn → StopToken.Late p (s.source (token p)) := by
  intro p
  induction p with
  | nil =>
      intro hstarted _ hidle _
      exact late_of_settled h (settled_root h hroot hidle) hstarted
  | cons i p ih =>
      intro hstarted hdone hidle hborn
      have h' : Run step .init (tr ++ tr') s' := run_append.mpr ⟨s, h, hr⟩
      obtain ⟨hp, j, rfl, hj⟩ := (attached_of_run h').started i p hborn
      have hlinked := linkedAt_of_run h hp
      obtain ⟨js, hreached⟩ := reached_of_run h p
      -- The parent gets to this child, so it is not stopped before, and it has not yet heard
      -- from it.
      have hnotbarred (hb : Barred (s.view p)) : False := by
        simp [idle_of_barred h hb hr j, Phase.isIdle] at hj
      have hnotcompleted (hc : ∃ c, (j, c) ∈ completions js) : False := by
        obtain ⟨c, hc⟩ := hc
        exact not_completed h hstarted hdone
          ((attached_of_run h).completed p j c ((hreached.recorded.completion j c).mpr hc))
      by_cases hparent : Started s p
      · cases hlife : (s.source (token p)).life p with
        | unborn | constructing | refused => simp [Started, hlife] at hparent
        | invoking => exact (hnotbarred (hlinked.refused (.inr (.inr (.inl hlife))))).elim
        | constructed => exact (hnotbarred (hlinked.refused (.inr (.inr (.inr hlife))))).elim
        | destroyed =>
            obtain ⟨k, hk⟩ := hlinked.gone hlife
            exact (hnotcompleted (hreached.all_completed hk j).2).elim
        | registered =>
            by_cases hreceived : (s.op p).received = []
            · have hsettled := settled_of_active h (settled_root h hroot hidle) p
                ⟨hp, hlife, hreceived⟩ (not_inProgress hidle)
              exact late_of_settled h hsettled hstarted
            · rcases hreached.early hreceived with ⟨hpc, -, hreq, -⟩ | hall
              · exact (hnotbarred ⟨hreq, .inr (.inl hpc)⟩).elim
              · exact (hnotcompleted (hall j)).elim
      · have hbornp : (s'.source (token p)).life p ≠ .unborn := fun hun => by
          simp [idle_of_unborn h' hp hun j, Phase.isIdle] at hj
        have hlate := ih hparent (by simp [hp]) (not_requestInProgress hidle) hbornp
        exact (hnotbarred (barred_of_late h hp hlate hparent)).elim

/-! ### Where a request comes from -/

omit [DecidableEq V] [DecidableEq E] in
theorem requestsStop_of_rest {n : ℕ} {kind : Kind n V E} {i : Fin n} {c : Completion (List V) E}
    {d : kind.Data} (h : .requestStop ∈ kind.ops.rest i c d) : kind.requestsStop c = true := by
  cases kind with
  | whenAny policy =>
      by_contra hnot
      simp only [Kind.requestsStop, Bool.not_eq_true] at hnot
      simp only [Kind.ops, WhenAny.opState, WhenAny.operation, Bool.true_and, hnot] at h
      cases h
  | whenAll children =>
      cases c with
      | value vs => cases h
      | error e => rfl
      | stopped => rfl

/-- Up to the root: a token is stop-requested because somebody above asked for it. -/
theorem origin_of_requested (h : Run step .init tr s) :
    ∀ p, (s.source (token p)).source.requested = true →
      RootRequested s ∨ ∃ q, q <:+ p ∧ q ≠ p ∧ PolicyRequested s q := by
  have hcaller {x : Option Path} (hreq : (s.source x).source.requested = true) :
      ∃ r, (s.source x).calls r ≠ .idle := by
    obtain ⟨r, hr⟩ := (sourceReached_of_run h x).oneWinner.requested.mp hreq
    exact ⟨r, fun e => by simp [e, StopToken.Call.isWinner] at hr⟩
  intro p
  induction p with
  | nil =>
      intro hreq
      obtain ⟨r, hr⟩ := hcaller hreq
      obtain ⟨k, rfl⟩ := mayCall_of_run h hr
      exact .inl ⟨k, hr⟩
  | cons i p ih =>
      intro hreq
      obtain ⟨r, hr⟩ := hcaller hreq
      have hlinked := linkedAt_of_run h (mayCall_of_run h hr)
      cases r with
      | external k => exact absurd (hlinked.external k) hr
      | stopCb =>
          refine (ih (hlinked.cascade hr)).imp_right ?_
          rintro ⟨q, hq, -, hpolicy⟩
          exact ⟨q, (suffix_cons_ne hq).1, (suffix_cons_ne hq).2, hpolicy⟩
      | child k =>
          obtain ⟨j, rfl, c, d, hc, hd⟩ := hlinked.policy k hr
          obtain ⟨hsuffix, hne⟩ := suffix_cons_ne (i := i) (List.suffix_refl p)
          exact .inr ⟨p, hsuffix, hne, j, c, hc, requestsStop_of_rest hd, hr⟩

/-! ### The result -/

structure Cancelled (tr : List (Label T)) (s : State T) : Prop where
  once : ∀ p, (StopToken.invocations (sourceTrace tr (token p))).count p ≤ 1
  /-- When a call of `request_stop` on the root's source has returned, the callback of every
  leaf that was started and has not completed has been called exactly once, unless another
  call is in progress above it. -/
  reached : RootReturned s → ∀ p, T.leaf p = true → Started s p → s.done p = false →
    ¬ RequestInProgress s p → (StopToken.invocations (sourceTrace tr (token p))).count p = 1
  /-- What had not been started has its token stop-requested when it is started later, with
  the same exception, so its callback is not registered and it starts no children. -/
  later : RootReturned s → ∀ p, ¬ Started s p → (T.leaf p = true → s.done p = false) →
    ¬ RequestInProgress s p → ∀ tr' s', Run step s tr' s' →
      ((s'.source (token p)).life p ≠ .unborn → (s.source (token p)).source.requested = true) ∧
      (s'.source (token p)).life p ≠ .registered ∧
      (T.leaf p = false → ∀ i, (s'.op p).phase i = .idle)
  /-- A leaf is called because the root was stopped or the policy of a node above it
  requested stop. -/
  asked : ∀ p, T.leaf p = true → p ∈ StopToken.invocations (sourceTrace tr (token p)) →
    RootRequested s ∨ ∃ q, q <:+ p ∧ q ≠ p ∧ PolicyRequested s q

theorem cancelled_of_run (h : Run step .init tr s) : Cancelled tr s where
  once := fun p =>
    List.nodup_iff_count_le_one.mp (StopToken.nodup_invocations_of_run (source_of_run h _)) p
  reached := fun hroot _ hp hstarted hdone hidle =>
    count_invocations h hroot hp hstarted hdone hidle
  later := by
    intro hroot p hstarted hdone hidle tr' s' hr
    have hlate := late_of_born h hroot hr p hstarted hdone hidle
    refine ⟨fun hborn => (hlate hborn).requested, fun hlife => ?_, fun hp i => ?_⟩
    · exact (late_of_run (hlate (by simp [hlife])) hr).life hlife
    · by_cases hborn : (s'.source (token p)).life p = .unborn
      · have h' : Run step .init (tr ++ tr') s' := run_append.mpr ⟨s, h, hr⟩
        exact idle_of_unborn h' hp hborn i
      · exact idle_of_barred h (barred_of_late h hp (hlate hborn) hstarted) hr i
  asked := fun p _ hp =>
    origin_of_requested h p (StopToken.requested_of_mem_invocations (source_of_run h _) hp)

theorem not_requestInProgress_of_settled (h : Run step .init tr s) (hroot : Settled s none)
    (habove : ∀ q, q <:+ p → q ≠ p → Settled s (some q)) : ¬ RequestInProgress s p := by
  have hidle {x : Option Path} (hx : Settled s x) (r : Caller) :
      ((s.source x).calls r).inProgress = false := by
    obtain ⟨r', hr'⟩ := hx
    exact (sourceReached_of_run h x).oneWinner.inProgress hr' r
  rintro (⟨k, hk⟩ | ⟨q, k, hq, hne, hk⟩)
  · simp [hidle hroot] at hk
  · simp [hidle (habove q hq hne)] at hk

/-- A `when_all` of a leaf and a `when_any` of two leaves. -/
def nested : Tree ℕ ℕ where
  leaf p := p != [] && p != [1]
  node
    | [] => ⟨2, by decide, .whenAll fun _ => ⟨true, true, true, false⟩⟩
    | _ => ⟨2, by decide, .whenAny WhenAny.firstComplete⟩

/-- The root is stopped when the second leaf of the `when_any` has not been started. -/
def stopNested : List (Label nested) :=
  [.both [] (.emplaceStopCb true) (.enterRegister []), .source none (.leaveRegister [] true),
    .op [] .startChildren, .op [] (.startChild (0 : Fin 2)),
    .source (some []) (.enterRegister [0]), .source (some []) (.leaveRegister [0] true),
    .op [] (.startChild (1 : Fin 2)), .both [1] (.emplaceStopCb true) (.enterRegister [1]),
    .source (some []) (.leaveRegister [1] true), .op [1] .startChildren,
    .op [1] (.startChild (0 : Fin 2)), .source (some [1]) (.enterRegister [0, 1]),
    .source (some [1]) (.leaveRegister [0, 1] true), .source none (.exchange (.external 0)),
    .both [] .popStopCb (.getNextCb (.external 0) (some [])),
    .source none (.run (.external 0) []), .both [] .runStopCb (.exchange .stopCb),
    .source (some []) (.getNextCb .stopCb (some [0])), .source (some []) (.run .stopCb [0]),
    .source (some []) (.ran .stopCb [0]), .both [1] .popStopCb (.getNextCb .stopCb (some [1])),
    .source (some []) (.run .stopCb [1]), .both [1] .runStopCb (.exchange .stopCb),
    .source (some [1]) (.getNextCb .stopCb (some [0, 1])),
    .source (some [1]) (.run .stopCb [0, 1]), .source (some [1]) (.ran .stopCb [0, 1]),
    .source (some [1]) (.getNextCb .stopCb none), .source (some []) (.ran .stopCb [1]),
    .source (some []) (.getNextCb .stopCb none), .source none (.ran (.external 0) []),
    .source none (.getNextCb (.external 0) none)]

theorem cancelled_of_run_stopNested : ∃ s, Run step .init stopNested s ∧
    (StopToken.invocations (sourceTrace stopNested (some [1]))).count [0, 1] = 1 ∧
    ∀ tr' s', Run step s tr' s' → (s'.source (some [1])).life [1, 1] ≠ .registered := by
  obtain ⟨s, hs⟩ : ∃ s, Run step .init stopNested s := exists_run_iff.mpr rfl
  have hview : (exec step .init stopNested).map (fun s => ((s.source none).calls (.external 0),
      (s.source (some [])).calls .stopCb, (s.source (some [1])).calls .stopCb,
      (s.source (some [1])).life [0, 1], (s.source (some [1])).life [1, 1], s.done [0, 1],
      s.done [1, 1])) = some (.returned true, .returned true, .returned true, .registered,
        .unborn, false, false) := rfl
  rw [show exec step .init stopNested = some s from hs, Option.map_some] at hview
  simp only [Option.some.injEq, Prod.mk.injEq] at hview
  obtain ⟨hroot, htop, hrace, hlife, hunborn, hdone, hdone'⟩ := hview
  have hreturned : RootReturned s := ⟨0, true, hroot⟩
  have hidle (i : ℕ) : ¬ RequestInProgress s [i, 1] := by
    refine not_requestInProgress_of_settled hs ⟨_, hroot⟩ fun q hq hne => ?_
    simp only [List.suffix_cons_iff, List.suffix_nil] at hq
    obtain rfl | rfl := hq.resolve_left hne
    · exact ⟨_, hrace⟩
    · exact ⟨_, htop⟩
  have hcancelled := cancelled_of_run hs
  refine ⟨s, hs, ?_, fun tr' s' hr => ?_⟩
  · exact hcancelled.reached hreturned [0, 1] rfl (by simp [Started, token, hlife]) hdone (hidle 0)
  · exact (hcancelled.later hreturned [1, 1] (by simp [Started, token, hunborn])
      (fun _ => hdone') (hidle 1) tr' s' hr).2.1

/-- A `when_any` of two leaves. -/
def race : Tree ℕ ℕ where
  leaf p := p != []
  node _ := ⟨2, by decide, .whenAny WhenAny.firstComplete⟩

/-- Both leaves have been started. -/
def raceStarted : List (Label race) :=
  [.both [] (.emplaceStopCb true) (.enterRegister []), .source none (.leaveRegister [] true),
    .op [] .startChildren, .op [] (.startChild (0 : Fin 2)),
    .source (some []) (.enterRegister [0]), .source (some []) (.leaveRegister [0] true),
    .op [] (.startChild (1 : Fin 2)), .source (some []) (.enterRegister [1]),
    .source (some []) (.leaveRegister [1] true)]

/-- The policy is about to stop the second leaf for the completion of the first one when the
root is stopped. -/
def overtaken : List (Label race) :=
  raceStarted ++ [.complete [0], .source (some []) (.unregister [0] true),
    .op [] (.complete (0 : Fin 2) (.value [])), .both [] (.act (0 : Fin 2)) (.exchange (.child 0)),
    .source none (.exchange (.external 0)),
    .both [] .popStopCb (.getNextCb (.external 0) (some [])),
    .source none (.run (.external 0) []), .both [] .runStopCb (.exchange .stopCb),
    .source none (.ran (.external 0) []), .source none (.getNextCb (.external 0) none)]

/-- The root is stopped twice. -/
def beaten : List (Label race) :=
  raceStarted ++ [.source none (.exchange (.external 0)), .source none (.exchange (.external 1))]

/-- A request returns before a leaf at work is called, because a policy's request is in
progress below, or because another one is at the root. -/
theorem returned_before_leaf :
    (∃ s, Run step .init overtaken s ∧ (s.source none).calls (.external 0) = .returned true ∧
      race.leaf [1] = true ∧ Started s [1] ∧ s.done [1] = false ∧
      (StopToken.invocations (sourceTrace overtaken (token [1]))).count [1] = 0) ∧
    ∃ s, Run step .init beaten s ∧ (s.source none).calls (.external 1) = .returned false ∧
      race.leaf [1] = true ∧ Started s [1] ∧ s.done [1] = false ∧
      (StopToken.invocations (sourceTrace beaten (token [1]))).count [1] = 0 := by
  constructor
  · obtain ⟨s, hs⟩ : ∃ s, Run step .init overtaken s := exists_run_iff.mpr rfl
    have hview : (exec step .init overtaken).map (fun s => ((s.source none).calls (.external 0),
        (s.source (some [])).life [1], s.done [1])) =
          some (.returned true, .registered, false) := rfl
    rw [show exec step .init overtaken = some s from hs, Option.map_some] at hview
    simp only [Option.some.injEq, Prod.mk.injEq] at hview
    obtain ⟨hroot, hlife, hdone⟩ := hview
    exact ⟨s, hs, hroot, rfl, by simp [Started, token, hlife], hdone, rfl⟩
  · obtain ⟨s, hs⟩ : ∃ s, Run step .init beaten s := exists_run_iff.mpr rfl
    have hview : (exec step .init beaten).map (fun s => ((s.source none).calls (.external 1),
        (s.source (some [])).life [1], s.done [1])) =
          some (.returned false, .registered, false) := rfl
    rw [show exec step .init beaten = some s from hs, Option.map_some] at hview
    simp only [Option.some.injEq, Prod.mk.injEq] at hview
    obtain ⟨hroot, hlife, hdone⟩ := hview
    exact ⟨s, hs, hroot, rfl, by simp [Started, token, hlife], hdone, rfl⟩

end BaremetalSenders.StopTree
