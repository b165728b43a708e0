import BaremetalSenders.Adaptors.StopTreeCompletion

/-!
A tree does not get stuck.

As long as the topmost node has not completed its receiver, some step is
possible that nobody outside has to take, if the completions of the children
are those their parents expect. Who holds a mutex can let go of it; then the
innermost call of `request_stop` can go on, for what it waits for is another
call further down; and when all calls are back, a node at work waits only for
its children, down to the leaves. So no call waits for itself, and no stop
request for the completion it is to bring about.
-/

namespace BaremetalSenders.StopToken

variable {κ ρ : Type*} [DecidableEq κ] [DecidableEq ρ] {s : State κ ρ} {tr : List (Label κ ρ)}
  {r : ρ} {cb : κ}

omit [DecidableEq ρ] in
/-- What a call of `request_stop` has in hand was taken out of the list. -/
theorem Reached.mem_popped_of_hand (h : Reached tr s)
    (hr : s.calls r = .popped cb ∨ s.calls r = .running cb) : cb ∈ popped tr := by
  have hwinner : (s.calls r).isWinner = true := by
    rcases hr with hr | hr <;> simp [hr, Call.isWinner]
  obtain ⟨hpopped, hbegun⟩ := h.ordered.hand r hwinner
  rcases hr with hr | hr
  · simp [hpopped, hr, Call.inHand]
  · simp [hpopped, hbegun, hr, Call.inRun]

omit [DecidableEq ρ] in
/-- It was registered. -/
theorem Reached.ne_unborn_of_calls (h : Reached tr s)
    (hr : s.calls r = .popped cb ∨ s.calls r = .running cb) : s.life cb ≠ .unborn := by
  intro hlife
  exact (h.fates.fateOk hlife).1 (h.ordered.accepted_of_popped (h.mem_popped_of_hand hr))

end BaremetalSenders.StopToken

namespace BaremetalSenders.StopTree

open Join

universe u v

variable {V : Type u} {E : Type v} {T : Tree V E} [DecidableEq V] [DecidableEq E]
  {s s' : State T} {tr tr' : List (Label T)} {l : Label T} {p q : Path} {x : Option Path}

/-! ### Who takes the steps -/

/-- Somebody outside calls `request_stop` on the root's source. -/
def Label.isExternal {T : Tree V E} : Label T → Bool
  | .source _ (.exchange (.external _)) => true
  | _ => false

/-- A leaf is started, registers its callback, begins to complete or tells its parent. -/
def Label.ofLeaf {T : Tree V E} : Label T → Bool
  | .op p (.startChild i) | .op p (.complete i _) => T.leaf (i :: p)
  | .source _ (.enterRegister _) | .complete _ => true
  | _ => false

/-- The nodes and their sources take the step. -/
def Label.isInner {T : Tree V E} (l : Label T) : Bool := !l.isExternal && !l.ofLeaf

/-- A step is possible that nobody outside takes. -/
def Enabled (s : State T) : Prop := ∃ l s', step s l = some s' ∧ l.isExternal = false

/-- A step is possible that the nodes and their sources take. -/
def Inner (s : State T) : Prop := ∃ l s', step s l = some s' ∧ l.isInner = true

theorem Inner.enabled (h : Inner s) : Enabled s := by
  obtain ⟨l, s', hs, hl⟩ := h
  have hl' : l.isExternal = false ∧ l.ofLeaf = false := by simpa [Label.isInner] using hl
  exact ⟨l, s', hs, hl'.1⟩

theorem inner_op {jl : T.OpLabel p} {o : T.Op p} (hp : T.leaf p = false)
    (hl : s.allowsOp p jl = true) (hinner : (Label.op p jl : Label T).isInner = true)
    (ho : Join.step (T.ops p) (s.view p) jl = some o) : Inner s :=
  ⟨.op p jl, s.setOp p o, by simp [step, hp, hl, ho], hinner⟩

theorem inner_source {m : SourceLabel} {t : SourceState} (hm : s.allowsSource x m = true)
    (hinner : (Label.source x m : Label T).isInner = true)
    (ht : StopToken.step (s.source x) m = some t) : Inner s :=
  ⟨.source x m, (s.setSource x t).callBack m, by simp [step, hm, ht], hinner⟩

theorem inner_both {jl : T.OpLabel p} {m : SourceLabel} {o : T.Op p} {t : SourceState}
    (hp : T.leaf p = false) (hl : s.allowsBoth p jl m = true)
    (ho : Join.step (T.ops p) (s.view p) jl = some o)
    (ht : StopToken.step (s.source (sourceOf p jl)) m = some t) : Inner s :=
  ⟨.both p jl m, (s.setOp p o).setSource (sourceOf p jl) t, by simp [step, hp, hl, ho, ht], rfl⟩

/-! ### The calls -/

/-- Nothing has happened from some depth on. -/
theorem exists_depth (h : Run step .init tr s) : ∃ N, ∀ p : Path, N ≤ p.length →
    s.op p = (T.ops p).initial ∧ s.source (some p) = .init := by
  refine Run.induction (P := fun _ s => ∃ N, ∀ p : Path, N ≤ p.length →
    s.op p = (T.ops p).initial ∧ s.source (some p) = .init) ⟨0, fun _ _ => ⟨rfl, rfl⟩⟩ ?_ h
  rintro tr s l s' - ⟨N, hN⟩ hs
  have hsource {x : Option Path} {t : SourceState} : ∃ M, ∀ p : Path, M ≤ p.length →
      Function.update s.source x t (some p) = s.source (some p) := by
    cases x with
    | none => exact ⟨0, fun p _ => by simp⟩
    | some q =>
        refine ⟨q.length + 1, fun p hp => Function.update_of_ne (fun e => ?_) ..⟩
        obtain rfl := Option.some.inj e
        omega
  have hop {q : Path} {o : T.Op q} (p : Path) (hp : q.length + 1 ≤ p.length) :
      Function.update s.op q o p = s.op p := by
    refine Function.update_of_ne (fun e => ?_) ..
    subst e
    omega
  cases step_move hs with
  | @op q jl o =>
      refine ⟨max N (q.length + 1), fun p hp => ?_⟩
      rw [setOp_op, setOp_source, hop p (by omega)]
      exact hN p (by omega)
  | @source x m t =>
      obtain ⟨M, hM⟩ := hsource (x := x) (t := t)
      refine ⟨max N M, fun p hp => ?_⟩
      rw [callBack_op, callBack_source, setSource_source, hM p (by omega)]
      exact hN p (by omega)
  | @both q jl m o t =>
      obtain ⟨M, hM⟩ := hsource (x := sourceOf q jl) (t := t)
      refine ⟨max N (max M (q.length + 1)), fun p hp => ?_⟩
      rw [setSource_op, setOp_op, setSource_source, setOp_source, hop p (by omega),
        hM p (by omega)]
      exact hN p (by omega)
  | complete => exact ⟨N, hN⟩

/-- Who holds a mutex lets go of it. -/
theorem inner_of_mutex (h : Run step .init tr s) {b : Bool}
    (hm : (s.source x).mutex = some (p, b)) : Inner s := by
  have hlife := ((sourceReached_of_run h x).listOk.mutex p b hm).1
  have htoken : token p = x := token_of_life h (by simp [hlife])
  have hstep : ∃ t, StopToken.step (s.source x) (.leaveRegister p (!b)) = some t := by
    cases b <;> simp [StopToken.step, hm]
  obtain ⟨t, ht⟩ := hstep
  exact inner_source (by simp [State.allowsSource, callbackOf, htoken]) rfl ht

/-- The callback of a node that has been called makes its call of `request_stop`. -/
theorem inner_of_called (hp : T.leaf p = false) (hcalled : s.called p = true)
    (hcb : (s.op p).stopCb = .popped ∨ (s.op p).stopCb = .refused)
    (hidle : (s.source (some p)).calls .stopCb = .idle) : Inner s := by
  have ho : ∃ o, Join.step (T.ops p) (s.view p) .runStopCb = some o := ⟨_, if_pos hcb⟩
  have ht : ∃ t, StopToken.step (s.source (some p)) (.exchange .stopCb) = some t :=
    ⟨_, if_pos hidle⟩
  obtain ⟨⟨o, ho⟩, t, ht⟩ := ho, ht
  exact inner_both hp (by simp [State.allowsBoth, hcalled]) ho ht

/-- The call takes the next callback out of the list, or finds it empty. -/
theorem inner_of_draining (h : Run step .init tr s) (hm : (s.source x).mutex = none)
    {r : Caller} (hr : (s.source x).calls r = .draining) : Inner s := by
  have hsource := sourceReached_of_run h x
  have hstep (cb : Option Path) (hcb : (s.source x).source.callbacks.head? = cb) :
      ∃ t, StopToken.step (s.source x) (.getNextCb r cb) = some t := by
    cases cb <;> exact ⟨_, if_pos ⟨hr, hm, hcb⟩⟩
  cases hhead : (s.source x).source.callbacks.head? with
  | none =>
      obtain ⟨t, ht⟩ := hstep none hhead
      exact inner_source (by simp [State.allowsSource, callbackOf]) rfl ht
  | some q =>
      obtain ⟨t, ht⟩ := hstep (some q) hhead
      have hmem : q ∈ (s.source x).source.callbacks := List.mem_of_head? hhead
      have htoken : token q = x := token_of_life h (by simp [hsource.listOk.registered q hmem])
      cases hq : T.leaf q with
      | true => exact inner_source (by simp [State.allowsSource, callbackOf, htoken, hq]) rfl ht
      | false =>
          subst htoken
          have hreq : (s.source (token q)).source.requested = true :=
            hsource.oneWinner.requested.mpr ⟨r, by rw [hr]; rfl⟩
          have hcb := ((heldAt_of_run h hq).listed hmem).2
          have ho : ∃ o, Join.step (T.ops q) (s.view q) .popStopCb = some o :=
            ⟨_, if_pos ⟨hreq, hcb⟩⟩
          obtain ⟨o, ho⟩ := ho
          exact inner_both hq (by simp [State.allowsBoth]) ho ht

def height : Option Path → ℕ
  | none => 0
  | some p => p.length + 1

theorem height_token (p : Path) : height (some p) = height (token p) + 1 := by
  cases p <;> rfl

/-- A call of `request_stop` goes on, or one further down does. -/
theorem inner_of_inProgress (h : Run step .init tr s) (hmutex : ∀ x, (s.source x).mutex = none)
    {r : Caller} (hr : ((s.source x).calls r).inProgress = true) : Inner s := by
  obtain ⟨N, hN⟩ := exists_depth h
  have hdepth : ∃ k, N + 1 ≤ height x + k := ⟨N + 1, by omega⟩
  obtain ⟨k, hk⟩ := hdepth
  induction k generalizing x r with
  | zero =>
      cases x with
      | none => simp [height] at hk
      | some p =>
          have hinit := (hN p (by simpa [height] using hk)).2
          simp [hinit, StopToken.State.init, StopToken.Call.inProgress] at hr
  | succ k ih =>
      have hsource := sourceReached_of_run h x
      cases hcall : (s.source x).calls r with
      | idle | returned => simp [hcall, StopToken.Call.inProgress] at hr
      | draining => exact inner_of_draining h (hmutex x) hcall
      | popped q =>
          have htoken : token q = x := token_of_life h (hsource.ne_unborn_of_calls (.inl hcall))
          have ht : ∃ t, StopToken.step (s.source x) (.run r q) = some t := ⟨_, if_pos hcall⟩
          obtain ⟨t, ht⟩ := ht
          exact inner_source (by simp [State.allowsSource, callbackOf, htoken]) rfl ht
      | running q =>
          have htoken : token q = x := token_of_life h (hsource.ne_unborn_of_calls (.inr hcall))
          have ht : ∃ t, StopToken.step (s.source x) (.ran r q) = some t := ⟨_, if_pos hcall⟩
          obtain ⟨t, ht⟩ := ht
          have hran (hback : T.leaf q = true ∨
              ((s.source (some q)).calls .stopCb).isReturned = true) : Inner s := by
            refine inner_source ?_ rfl ht
            rcases hback with hback | hback <;> simp [State.allowsSource, callbackOf, htoken, hback]
          cases hq : T.leaf q with
          | true => exact hran (.inl hq)
          | false =>
              subst htoken
              obtain ⟨hcalled, hcb⟩ := (heldAt_of_run h hq).running r hcall
              cases hown : (s.source (some q)).calls .stopCb with
              | idle =>
                  have hnot := mt (callsAt_of_run h hq).spent.mp (not_not.mpr hown)
                  exact inner_of_called hq hcalled (.inl (hcb.resolve_right hnot)) hown
              | draining | popped | running =>
                  refine ih (x := some q) (r := .stopCb) (by rw [hown]; rfl) ?_
                  rw [height_token]
                  omega
              | returned => exact hran (.inr (by rw [hown]; rfl))

/-- The sources have come to rest: all calls and all constructors are back. -/
structure Calm (s : State T) : Prop where
  mutex : ∀ x, (s.source x).mutex = none
  calls : ∀ x r, ((s.source x).calls r).inProgress = false
  refused : ∀ p, (s.source (token p)).life p ≠ .refused
  invoking : ∀ p, (s.source (token p)).life p ≠ .invoking

theorem calm_of_not_inner (h : Run step .init tr s) (hstuck : ¬ Inner s) : Calm s := by
  have hmutex (x : Option Path) : (s.source x).mutex = none := by
    cases hm : (s.source x).mutex with
    | none => rfl
    | some m => exact absurd (inner_of_mutex h hm) hstuck
  have hcalls (x : Option Path) (r : Caller) : ((s.source x).calls r).inProgress = false := by
    by_contra hr
    exact hstuck (inner_of_inProgress h hmutex (by simpa using hr))
  refine ⟨hmutex, hcalls, fun p hlife => hstuck ?_, fun p hlife => hstuck ?_⟩
  · have ht : ∃ t, StopToken.step (s.source (token p)) (.invoke p) = some t := ⟨_, if_pos hlife⟩
    obtain ⟨t, ht⟩ := ht
    exact inner_source (by simp [State.allowsSource, callbackOf]) rfl ht
  · have ht : ∃ t, StopToken.step (s.source (token p)) (.invoked p) = some t := ⟨_, if_pos hlife⟩
    obtain ⟨t, ht⟩ := ht
    have hinvoked (hback : T.leaf p = true ∨
        ((s.source (some p)).calls .stopCb).isReturned = true) : Inner s := by
      refine inner_source ?_ rfl ht
      rcases hback with hback | hback <;> simp [State.allowsSource, callbackOf, hback]
    cases hp : T.leaf p with
    | true => exact hinvoked (.inl hp)
    | false =>
        obtain ⟨hcalled, hcb⟩ := (heldAt_of_run h hp).invoking hlife
        cases hown : (s.source (some p)).calls .stopCb with
        | idle =>
            have hnot := mt (callsAt_of_run h hp).spent.mp (not_not.mpr hown)
            exact inner_of_called hp hcalled (.inr (hcb.resolve_right hnot)) hown
        | draining | popped | running =>
            have hidle := hcalls (some p) .stopCb
            simp [hown, StopToken.Call.inProgress] at hidle
        | returned => exact hinvoked (.inr (by rw [hown]; rfl))

/-! ### The nodes -/

/-- A child that is in `complete` has not come further than one step before. -/
theorem deciding_step {n : ℕ} {V E D : Type*} {ops : Ops n V E D} {o o' : Join.State n V E D}
    {jl : Join.Label n V E} {i : Fin n} {c : Completion V E} (ho : Join.step ops o jl = some o')
    (hi : o'.phase i = .deciding c false) :
    (o.phase i = .deciding c false ∧ jl ≠ .resetStopCb i) ∨ o.phase i = .completing c [] := by
  have hcase {j : Fin n} {p : Phase V E D} (hp : p ≠ .deciding c false)
      (hi : Function.update o.phase j p i = .deciding c false) :
      o.phase i = .deciding c false ∧ i ≠ j := by
    rcases eq_or_ne i j with rfl | hne
    · exact absurd (by simpa using hi) hp
    · exact ⟨by simpa [hne] using hi, hne⟩
  cases Join.step_move ho with
  | rcvrRequestStop | popStopCb | runStopCb | emplaceStopCb | startStopped | startChildren =>
      exact .inl ⟨hi, by simp⟩
  | startChild | complete | arrive | ignore | finish =>
      exact .inl ⟨(hcase (by simp) hi).1, by simp⟩
  | @act j c' a =>
      cases a <;> exact .inl ⟨(hcase (p := .completing c' _) (by simp) hi).1, by simp⟩
  | resetStopCb =>
      obtain ⟨hold, hne⟩ := hcase (by simp) hi
      exact .inl ⟨hold, by simpa using hne.symm⟩
  | @arriveLast j c' hphase =>
      rcases eq_or_ne i j with rfl | hne
      · obtain ⟨rfl, -⟩ : c' = c ∧ _ := by simpa using hi
        exact .inr hphase
      · exact .inl ⟨by simpa [hne] using hi, by simp⟩

/-- The callback is taken down by the child that is in `complete`, which then goes on. -/
theorem not_deciding_of_destroyed (h : Run step .init tr s) (hp : T.leaf p = false)
    (hlife : (s.source (token p)).life p = .destroyed) (i : Fin (T.node p).arity)
    (c : Completion (List V) E) : (s.op p).phase i ≠ .deciding c false := by
  refine Run.induction (P := fun _ s => (s.source (token p)).life p = .destroyed →
    ∀ i c, (s.op p).phase i ≠ .deciding c false) (fun _ _ _ h => by cases h) ?_ h hlife i c
  intro tr s l s' hr ih hs hlife i c hi
  obtain ⟨js, hreached⟩ := reached_of_run hr p
  have hnotlast (hphase : (s.op p).phase i = .completing c []) (j : Fin (T.node p).arity) :
      ((s.op p).phase j).isLast = false := by
    by_contra hj
    have harrived := (hreached.all_completed (i := j) (by simpa using hj) i).1
    simp [hphase, Phase.arrived] at harrived
  by_cases hold : (s.source (token p)).life p = .destroyed
  · rcases op_step hs p with hop | ⟨jl, ho, -⟩
    · exact ih hold i c (hop ▸ hi)
    · rcases deciding_step ho hi with ⟨hphase, -⟩ | hphase
      · exact ih hold i c hphase
      · obtain ⟨j, hj⟩ := (linkedAt_of_run hr hp).gone hold
        simp [hnotlast hphase j] at hj
  · rcases life_step hs (token p) p with hsame | ⟨m, hm, hstep⟩
    · exact hold (hsame ▸ hlife)
    · generalize (s'.source (token p)).life p = li at hstep hlife
      cases hstep with
      | same => exact hold hlife
      | enter | register | refuse | invoke | invoked => cases hlife
      | unregister =>
          cases step_move hs with
          | op | complete => cases hm
          | @source y m t hallows =>
              obtain ⟨rfl, rfl⟩ := at_source.mp hm
              simp [State.allowsSource, hp] at hallows
          | @both q jl m o t _ hpair ho =>
              obtain ⟨-, rfl⟩ := at_both.mp hm
              cases pair_of_allowsBoth hpair with
              | @reset j b =>
                  rw [setSource_op, setOp_op, Function.update_self] at hi
                  cases Join.step_move ho with
                  | @resetStopCb _ c' hphase =>
                      rcases eq_or_ne i j with rfl | hne
                      · simp at hi
                      · have hphase' : (s.op p).phase i = .deciding c false := by
                          simpa [hne] using hi
                        have hphase : (s.op p).phase j = .deciding c' false := hphase
                        exact hne (hreached.counted.last_unique i j
                          (by simp [hphase', Phase.isLast]) (by simp [hphase, Phase.isLast]))

/-- `start` has constructed the callback, so it is there until it is taken down. -/
theorem life_of_started (h : Run step .init tr s) (hcalm : Calm s) (hp : T.leaf p = false)
    (hpc : (s.op p).pc ≠ .unstarted) : (s.source (token p)).life p = .registered ∨
      (s.source (token p)).life p = .constructed ∨ (s.source (token p)).life p = .destroyed := by
  have hlinked := linkedAt_of_run h hp
  cases hlife : (s.source (token p)).life p with
  | registered | constructed | destroyed => simp
  | unborn => exact absurd (hlinked.unborn.mp hlife) hpc
  | refused => exact absurd hlife (hcalm.refused p)
  | invoking => exact absurd hlife (hcalm.invoking p)
  | constructing =>
      obtain ⟨b, hb⟩ := StopToken.mutex_of_constructing (source_of_run h (token p)) hlife
      simp [hcalm.mutex] at hb

/-- A node that has not got to its children goes on with its `start`. -/
theorem inner_of_start (h : Run step .init tr s) (hcalm : Calm s) (hp : T.leaf p = false)
    (hrunning : s.running p = true)
    (hpc : (s.op p).pc = .unstarted ∨ (s.op p).pc = .stopCbEmplaced) : Inner s := by
  obtain ⟨js, hreached⟩ := reached_of_run h p
  have hlinked := linkedAt_of_run h hp
  rcases hpc with hpc | hpc
  · have ho : ∃ o, Join.step (T.ops p) (s.view p)
        (.emplaceStopCb (!(s.view p).rcvrRequested)) = some o :=
      ⟨_, if_pos ⟨hasStopSource_ops _, hpc, rfl⟩⟩
    have ht : ∃ t, StopToken.step (s.source (token p)) (.enterRegister p) = some t :=
      ⟨_, if_pos ⟨hlinked.unborn.mpr hpc, hcalm.mutex _⟩⟩
    obtain ⟨⟨o, ho⟩, t, ht⟩ := ho, ht
    exact inner_both hp (by simp [State.allowsBoth, hrunning]) ho ht
  · have hidle := hreached.counted.idle_of_not_started
      (show (s.view p).pc.started = 0 by rw [view_pc, hpc]; rfl)
    have hlife : (s.source (token p)).life p = .registered ∨
        (s.source (token p)).life p = .constructed := by
      rcases life_of_started h hcalm hp (by simp [hpc]) with hlife | hlife | hlife
      · exact .inl hlife
      · exact .inr hlife
      · obtain ⟨i, hi⟩ := hlinked.gone hlife
        have hi' : (s.op p).phase i = .idle := hidle i
        simp [hi', Phase.isLast] at hi
    have hcallback : s.hasCallback p = true := by simpa [State.hasCallback] using hlife
    have hcb : (s.view p).stopCb ≠ .refused :=
      hlife.elim (heldAt_of_run h hp).registered (heldAt_of_run h hp).constructed
    cases hreq : (s.view p).requested with
    | true =>
        have ho : ∃ o, Join.step (T.ops p) (s.view p) .startStopped = some o :=
          ⟨_, if_pos ⟨hpc, hcb, hreq⟩⟩
        obtain ⟨o, ho⟩ := ho
        refine inner_op hp ?_ rfl ho
        exact hcallback
    | false =>
        have hstart : (T.ops p).mayStart (s.view p) = true := by
          simp [Ops.mayStart, hpc, hcb, hreq]
        have ho : ∃ o, Join.step (T.ops p) (s.view p) .startChildren = some o := ⟨_, if_pos hstart⟩
        obtain ⟨o, ho⟩ := ho
        refine inner_op hp ?_ rfl ho
        exact hcallback

/-- A child whose completion is being treated goes on with it. -/
theorem inner_of_completing (h : Run step .init tr s) (hcalm : Calm s) (hp : T.leaf p = false)
    {i : Fin (T.node p).arity} {c : Completion (List V) E}
    (hc : ((s.op p).phase i).completion = some c) (hback : ((s.op p).phase i).returned = false) :
    Inner s := by
  obtain ⟨js, hreached⟩ := reached_of_run h p
  cases hphase : (s.op p).phase i with
  | idle | running => simp [hphase, Phase.completion] at hc
  | ignored | done | finished => simp [hphase, Phase.returned] at hback
  | completing c' as =>
      cases as with
      | nil =>
          have ho : ∃ o, Join.step (T.ops p) (s.view p) (.leave i) = some o := by
            simp only [Join.step, view_phase, hphase]
            split <;> exact ⟨_, rfl⟩
          obtain ⟨o, ho⟩ := ho
          refine inner_op hp ?_ rfl ho
          have hidle := hcalm.calls (some p) (.child i)
          cases hcall : (s.source (some p)).calls (.child i) <;>
            simp_all [State.allowsOp, StopToken.Call.inProgress, StopToken.Call.isReturned]
      | cons a as =>
          have ho : ∃ o, Join.step (T.ops p) (s.view p) (.act i) = some o := by
            simp only [Join.step, view_phase, hphase]
            exact ⟨_, rfl⟩
          obtain ⟨o, ho⟩ := ho
          cases a with
          | update f => exact inner_op hp (by simp [State.allowsOp, hphase, asksStop]) rfl ho
          | requestStop =>
              have hidle : (s.source (some p)).calls (.child i) = .idle := by
                by_contra hcalled
                exact (callsAt_of_run h hp).asked i hcalled (by simp [hphase, Phase.todo])
              have ht : ∃ t, StopToken.step (s.source (some p)) (.exchange (.child i)) = some t :=
                ⟨_, if_pos hidle⟩
              obtain ⟨t, ht⟩ := ht
              exact inner_both hp (by simp [State.allowsBoth, hphase, asksStop]) ho ht
  | deciding c' cbReset =>
      cases cbReset with
      | true =>
          have ho : ∃ o, Join.step (T.ops p) (s.view p) (.finish i) = some o := by
            simp only [Join.step, view_phase, hphase]
            exact ⟨_, rfl⟩
          obtain ⟨o, ho⟩ := ho
          exact inner_op hp rfl rfl ho
      | false =>
          have hpc : (s.op p).pc ≠ .unstarted := by
            obtain ⟨k, hk, -⟩ := hreached.counted.starting_of_not_idle (i := i)
              (by rw [view_phase, hphase]; rfl)
            rw [view_pc] at hk
            simp [hk]
          have hlife : (s.source (token p)).life p = .registered ∨
              (s.source (token p)).life p = .constructed := by
            rcases life_of_started h hcalm hp hpc with hlife | hlife | hlife
            · exact .inl hlife
            · exact .inr hlife
            · exact absurd hphase (not_deciding_of_destroyed h hp hlife i c')
          have ho : ∃ o, Join.step (T.ops p) (s.view p) (.resetStopCb i) = some o := by
            simp only [Join.step, view_phase, hphase]
            exact ⟨_, rfl⟩
          have ht : ∃ t, StopToken.step (s.source (token p))
              (.unregister p ((s.source (token p)).pending p)) = some t :=
            ⟨_, if_pos ⟨hlife, hcalm.mutex _, rfl⟩⟩
          obtain ⟨⟨o, ho⟩, t, ht⟩ := ho, ht
          exact inner_both hp (by simp [State.allowsBoth]) ho ht

/-- A child that has completed tells its parent. -/
theorem exists_step_complete (hp : T.leaf p = false) {i : Fin (T.node p).arity}
    {c : Completion (List V) E} (hphase : (s.op p).phase i = .running)
    (hc : (T.ops p).admits i c = true)
    (hsent : if T.leaf (i :: p) then s.done (i :: p) = true else (s.op (i :: p)).received = [c]) :
    ∃ s', step s (.op p (.complete i c)) = some s' := by
  have ho : ∃ o, Join.step (T.ops p) (s.view p) (.complete i c) = some o := by
    simp only [Join.step, view_phase, hphase, hc]
    exact ⟨_, rfl⟩
  obtain ⟨o, ho⟩ := ho
  have hl : s.allowsOp p (.complete i c) = true := by
    split at hsent <;> simp_all [State.allowsOp]
  exact ⟨s.setOp p o, by simp [step, hp, hl, ho]⟩

/-- A leaf is the next child to be started, or is at work. -/
def AtLeaf (s : State T) : Prop :=
  ∃ p, ∃ i : Fin (T.node p).arity, T.leaf p = false ∧ T.leaf (i :: p) = true ∧
    ((s.op p).pc = .starting i ∨ (s.op p).phase i = .running)

/-- A node at work can go on, or one below it can, or they wait for a leaf. -/
theorem inner_or_atLeaf_of_running (h : Run step .init tr s) (hT : WellTyped T) (hcalm : Calm s) :
    ∀ p, T.leaf p = false → s.running p = true → (s.op p).received = [] → Inner s ∨ AtLeaf s := by
  obtain ⟨N, hN⟩ := exists_depth h
  intro p
  have hdepth : ∃ k, N ≤ p.length + k := ⟨N, by omega⟩
  obtain ⟨k, hk⟩ := hdepth
  induction k generalizing p with
  | zero =>
      intro hp hrunning _
      have hinit : s.op p = (T.ops p).initial := (hN p (by simpa using hk)).1
      exact .inl (inner_of_start h hcalm hp hrunning (.inl (by rw [hinit]; rfl)))
  | succ k ih =>
      intro hp hrunning hreceived
      obtain ⟨js, hjs⟩ := view_of_run h p
      have hn := (T.node p).arity_pos
      have hreached := Join.reached_of_run hn hjs
      cases hpc : (s.op p).pc with
      | unstarted => exact .inl (inner_of_start h hcalm hp hrunning (.inl hpc))
      | stopCbEmplaced => exact .inl (inner_of_start h hcalm hp hrunning (.inr hpc))
      | stopped =>
          have hstopped : (s.op p).received = [.stopped] := hreached.counted.received_stopped hpc
          simp [hstopped] at hreceived
      | starting m =>
          by_cases hm : m < (T.node p).arity
          · cases hleaf : T.leaf (m :: p) with
            | true => exact .inr ⟨p, ⟨m, hm⟩, hp, hleaf, .inl hpc⟩
            | false =>
                have ho : ∃ o, Join.step (T.ops p) (s.view p) (.startChild ⟨m, hm⟩) = some o :=
                  ⟨_, if_pos hpc⟩
                obtain ⟨o, ho⟩ := ho
                refine .inl (inner_op hp rfl ?_ ho)
                simp [Label.isInner, Label.isExternal, Label.ofLeaf, hleaf]
          · -- All children have been started, and one of them is not back.
            obtain ⟨i, hi⟩ : ∃ i, ((s.op p).phase i).returned = false := by
              by_contra hall
              refine Kind.received_of_returned (hT.stores p hp) hn hjs (fun i => ?_) hreceived
              by_contra hi
              exact hall ⟨i, by simpa using hi⟩
            cases hphase : (s.op p).phase i with
            | idle =>
                have hle := (hreached.counted.idle_iff i).mp (by rw [view_phase, hphase]; rfl)
                rw [view_pc, hpc, StartPc.started] at hle
                have hlt := i.isLt
                omega
            | running =>
                have hchild : s.running (i :: p) = true := running_cons.mpr ⟨hp, i, rfl, hphase⟩
                cases hleaf : T.leaf (i :: p) with
                | true => exact .inr ⟨p, i, hp, hleaf, .inr hphase⟩
                | false =>
                    by_cases hnil : (s.op (i :: p)).received = []
                    · refine ih (i :: p) ?_ hleaf hchild hnil
                      rw [List.length_cons]
                      omega
                    · obtain ⟨c, hsends, hc⟩ := sends_of_received h hleaf hnil
                      have hexpects := hsends.mono fun _ _ _ => expects_of_sent h
                      obtain ⟨s', hs'⟩ := exists_step_complete hp hphase
                        (hT.node p i c hp hleaf hexpects) (by simp [hleaf, hc])
                      refine .inl ⟨_, s', hs', ?_⟩
                      simp [Label.isInner, Label.isExternal, Label.ofLeaf, hleaf]
            | completing c | ignored c | done c | deciding c | finished c =>
                exact .inl (inner_of_completing h hcalm hp (by rw [hphase]; rfl) hi)

/-- Until the topmost node has completed its receiver, the nodes can go on, or they wait for a
leaf. -/
theorem inner_or_atLeaf (h : Run step .init tr s) (hT : WellTyped T) (htop : T.leaf [] = false)
    (hreceived : (s.op []).received = []) : Inner s ∨ AtLeaf s := by
  by_cases hinner : Inner s
  · exact .inl hinner
  · have hcalm := calm_of_not_inner h hinner
    exact inner_or_atLeaf_of_running h hT hcalm [] htop rfl hreceived

/-- Leaves can be started, and they can complete. -/
theorem AtLeaf.enabled (h : AtLeaf s) (hT : WellTyped T) : Enabled s := by
  obtain ⟨p, i, hp, hleaf, hpc | hphase⟩ := h
  · have ho : ∃ o, Join.step (T.ops p) (s.view p) (.startChild i) = some o := ⟨_, if_pos hpc⟩
    obtain ⟨o, ho⟩ := ho
    exact ⟨.op p (.startChild i), s.setOp p o, by simp [step, State.allowsOp, hp, ho], rfl⟩
  · cases hdone : s.done (i :: p) with
    | true =>
        obtain ⟨c, hc⟩ := hT.leaf p i hp hleaf
        obtain ⟨s', hs'⟩ := exists_step_complete hp hphase hc (by simp [hleaf, hdone])
        exact ⟨_, s', hs', rfl⟩
    | false =>
        have hrunning : s.running (i :: p) = true := running_cons.mpr ⟨hp, i, rfl, hphase⟩
        exact ⟨.complete (i :: p), { s with done := Function.update s.done (i :: p) true }, by
          simp [step, hleaf, hrunning, hdone], rfl⟩

/-- Until the topmost node has completed its receiver, the tree can go on by itself. -/
theorem enabled_of_run (h : Run step .init tr s) (hT : WellTyped T) (htop : T.leaf [] = false)
    (hreceived : (s.op []).received = []) : Enabled s :=
  (inner_or_atLeaf h hT htop hreceived).elim Inner.enabled fun h => h.enabled hT

theorem wellTyped_nested : WellTyped nested where
  leaf := fun p i _ _ => ⟨.stopped, by cases p <;> rfl⟩
  node := fun p i c _ _ _ => by cases p <;> cases c <;> rfl
  stores := fun p _ => by
    cases p with
    | nil => trivial
    | cons => exact fun _ => rfl

theorem enabled_of_run_stopNested : ∃ s, Run step .init stopNested s ∧ Enabled s := by
  have hexec : (exec step .init stopNested).map (fun s => (s.op []).received) = some [] := rfl
  obtain ⟨s, hs, hreceived⟩ := Option.map_eq_some_iff.mp hexec
  exact ⟨s, hs, enabled_of_run hs wellTyped_nested rfl hreceived⟩

end BaremetalSenders.StopTree
