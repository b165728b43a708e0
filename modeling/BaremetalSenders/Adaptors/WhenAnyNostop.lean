import BaremetalSenders.Adaptors.WhenAny

/-!
The operation state of `when_any` for children that cannot be stopped.

It has no stop source and no stop callback, and its `complete` does not look at
the receiver's token. Where the receiver's stop is not requested and a child
does the same whether or not it is asked to stop, nobody can tell the difference:
the steps that are not about stop requests are the same in the two operation
states, and the receiver gets the same in the same one of them. This is shown in
both directions, by leaving out the other steps and by taking each of them as
soon as it can be taken.
-/

namespace BaremetalSenders.WhenAny

open Join

variable {n : ℕ} {V E : Type*}

/-- The steps that both operation states have: the starts and the completions of the
children, the counter, and the completion of the receiver. -/
def shared : Label n V E → Option (Label n V E)
  | .startChildren => some .startChildren
  | .startChild i => some (.startChild i)
  | .complete i c => some (.complete i c)
  | .leave i => some (.leave i)
  | .finish i => some (.finish i)
  | .rcvrRequestStop | .popStopCb | .runStopCb | .emplaceStopCb _ | .startStopped | .act _
  | .resetStopCb _ => none

/-- What is done about stop requests for a child is left out. -/
def nostopPhase {D : Type*} : Phase V E D → Phase V E D
  | .completing c _ => .completing c []
  | .deciding c _ => .deciding c true
  | p => p

def nostopPc : StartPc → StartPc
  | .stopCbEmplaced => .unstarted
  | pc => pc

/-- The state of `nostop_op_state` when `op_state` is in state `s`. -/
def nostop {D : Type*} (s : State n V E D) : State n V E D where
  data := s.data
  count := s.count
  requested := false
  rcvrRequested := false
  stopCb := .absent
  pc := nostopPc s.pc
  phase i := nostopPhase (s.phase i)
  received := s.received

section Simp

variable {D : Type*} (c : Completion V E) (as : List (Action D)) (b : Bool) (k : ℕ)

@[simp] theorem nostopPhase_running : nostopPhase (.running : Phase V E D) = .running := rfl
@[simp] theorem nostopPhase_completing : nostopPhase (.completing c as) = .completing c [] := rfl
@[simp] theorem nostopPhase_done : nostopPhase (.done c : Phase V E D) = .done c := rfl
@[simp] theorem nostopPhase_deciding :
    nostopPhase (.deciding c b : Phase V E D) = .deciding c true := rfl
@[simp] theorem nostopPhase_finished :
    nostopPhase (.finished c : Phase V E D) = .finished c := rfl
@[simp] theorem nostopPc_starting : nostopPc (.starting k) = .starting k := rfl

theorem nostopPhase_update (phase : Fin n → Phase V E D) (i : Fin n) (p : Phase V E D) :
    (fun j => nostopPhase (Function.update phase i p j)) =
      Function.update (fun j => nostopPhase (phase j)) i (nostopPhase p) := by
  funext j
  rcases eq_or_ne j i with rfl | hne
  · simp
  · simp [hne]

end Simp

/-- A step of a child about stop requests. -/
theorem nostopPhase_update_same {D : Type*} {phase : Fin n → Phase V E D} {i : Fin n}
    {p : Phase V E D} (h : nostopPhase p = nostopPhase (phase i)) :
    (fun j => nostopPhase (Function.update phase i p j)) = fun j => nostopPhase (phase j) := by
  rw [nostopPhase_update, h, Function.update_eq_self_iff]

/-! ### From `op_state` -/

/-- The step of `nostop_op_state` that answers one of `op_state`, if there is one. -/
theorem nostop_step {policy : StopPolicy V E} {tr : List (Label n V E)}
    {s s' : State n V E (Option (Completion V E))} {l : Label n V E} (hn : 0 < n)
    (hr : Run (step (opState n policy)) (opState n policy).initial tr s)
    (hreq : s.rcvrRequested = false) (hl : l ≠ .rcvrRequestStop)
    (hs : step (opState n policy) s l = some s') :
    Run (step (nostopOpState n policy)) (nostop s) (shared l).toList (nostop s') ∧
      s'.rcvrRequested = false := by
  have hreached := reached_of_run hn hr
  cases step_move hs with
  | rcvrRequestStop => exact absurd rfl hl
  | popStopCb hreq' => simp [hreq] at hreq'
  | runStopCb hcb => exact ⟨run_nil.mpr rfl, hreq⟩
  | emplaceStopCb _ hpc =>
      refine ⟨run_nil.mpr ?_, hreq⟩
      simp [nostop, nostopPc, hpc]
  | startStopped hpc _ hrequested =>
      have hidle := hreached.counted.idle_of_not_started (by rw [hpc]; rfl)
      have := hreached.rcvrRequested hrequested hidle
      simp [hreq] at this
  | startChildren hstart =>
      have hpc : (nostop s).pc = .unstarted := by
        rcases pc_of_mayStart hstart with hpc | hpc <;> exact congrArg nostopPc hpc
      have hmay : (nostopOpState n policy).mayStart (nostop s) = true := by
        simp [Ops.mayStart, nostopOpState, operation, hpc]
      refine ⟨run_cons.mpr ⟨_, if_pos hmay, run_nil.mpr rfl⟩, hreq⟩
  | startChild hpc =>
      refine ⟨?_, hreq⟩
      simp [shared, step, nostop, hpc, State.setPhase, nostopPhase_update]
  | complete hphase =>
      refine ⟨?_, hreq⟩
      simp [shared, step, nostop, hphase, State.setPhase, nostopPhase_update, nostopOpState,
        opState, operation]
  | @act i c a as hphase =>
      obtain rfl := act_requestStop hn hr hphase
      have hsame := nostopPhase_update_same (i := i) (p := .completing c as)
        (congrArg nostopPhase hphase).symm
      refine ⟨run_nil.mpr ?_, hreq⟩
      simp only [nostop, State.setPhase, State.apply, hsame]
  | arrive hphase _ hcount =>
      refine ⟨?_, hreq⟩
      simp [shared, step, nostop, hphase, State.setPhase, nostopPhase_update, nostopOpState,
        operation, hcount]
  | arriveLast hphase _ hcount =>
      refine ⟨?_, hreq⟩
      simp [shared, step, nostop, hphase, State.setPhase, nostopPhase_update, nostopOpState,
        operation, hcount]
  | ignore _ hc => cases hc
  | @resetStopCb i c hphase =>
      refine ⟨run_nil.mpr ?_, hreq⟩
      have hsame := nostopPhase_update_same (i := i) (p := .deciding c true)
        (congrArg nostopPhase hphase).symm
      simp only [nostop, State.setPhase, hsame]
  | finish hphase =>
      refine ⟨?_, hreq⟩
      simp [shared, step, nostop, hphase, State.setPhase, nostopPhase_update,
        nostopOpState, opState, operation, hreq]

/-- What `op_state` does while nobody requests stop from the receiver's side,
`nostop_op_state` does too. -/
theorem nostop_of_run {policy : StopPolicy V E} {tr : List (Label n V E)}
    {s : State n V E (Option (Completion V E))} (hn : 0 < n)
    (h : Run (step (opState n policy)) (opState n policy).initial tr s)
    (hreq : .rcvrRequestStop ∉ tr) :
    Run (step (nostopOpState n policy)) (nostopOpState n policy).initial (tr.filterMap shared)
      (nostop s) := by
  have hnot : ∀ l ∈ tr, ∀ s : State n V E (Option (Completion V E)), l ≠ .rcvrRequestStop :=
    fun l hl _ heq => hreq (heq ▸ hl)
  obtain ⟨t, ht, rfl, -⟩ : ∃ t, Run (step (nostopOpState n policy))
      (nostopOpState n policy).initial (tr.filterMap shared) t ∧ nostop s = t ∧
        s.rcvrRequested = false := by
    refine h.simulation (C := fun _ l => l ≠ .rcvrRequestStop) shared
      (R := fun s t => nostop s = t ∧ s.rcvrRequested = false) ⟨rfl, rfl⟩ ?_
      (EachStep.of_forall_mem hnot)
    rintro tr s t l s' hr ⟨rfl, hfalse⟩ hl hs
    obtain ⟨hrun, hfalse'⟩ := nostop_step hn hr hfalse hl hs
    exact ⟨nostop s', hrun, rfl, hfalse'⟩
  exact ht

/-! ### From `nostop_op_state` -/

/-- A state of `op_state` in which everything that is to be done about stop requests has
been done. -/
structure Prompt (s : State n V E (Option (Completion V E))) : Prop where
  rcvrRequested : s.rcvrRequested = false
  pc : s.pc ≠ .stopCbEmplaced
  requested : s.pc = .unstarted → s.requested = false
  phase : ∀ i, nostopPhase (s.phase i) = s.phase i

/-- How `op_state` answers a step of `nostop_op_state` in state `s`: with what is to be done
about stop requests after it, or before it. -/
def answer (policy : StopPolicy V E) (s : State n V E (Option (Completion V E))) :
    Label n V E → List (Label n V E)
  | .startChildren => [.emplaceStopCb true, .startChildren]
  | .complete i c =>
      if policy.requestsStop c then [.complete i c, .act i] else [.complete i c]
  | .leave i => if s.count - 1 = 0 then [.leave i, .resetStopCb i] else [.leave i]
  | l => [l]

theorem filterMap_answer (policy : StopPolicy V E) (s : State n V E (Option (Completion V E)))
    {l : Label n V E} (hl : shared l = some l) :
    (answer policy s l).filterMap shared = [l] ∧ .rcvrRequestStop ∉ answer policy s l := by
  cases l with
  | startChildren | startChild | finish => exact ⟨rfl, by simp [answer]⟩
  | complete | leave =>
      simp only [answer]
      split <;> exact ⟨rfl, by simp⟩
  | rcvrRequestStop | popStopCb | runStopCb | emplaceStopCb | startStopped | act | resetStopCb =>
      cases hl

theorem Prompt.update {s : State n V E (Option (Completion V E))} (h : Prompt s) {i : Fin n}
    {p : Phase V E (Option (Completion V E))} (hp : nostopPhase p = p) (j : Fin n) :
    nostopPhase (Function.update s.phase i p j) = Function.update s.phase i p j := by
  rcases eq_or_ne j i with rfl | hne
  · simpa using hp
  · simpa [hne] using h.phase j

/-- The answer to a step that `nostop_op_state` can take. -/
theorem answer_step {policy : StopPolicy V E} {s t : State n V E (Option (Completion V E))}
    {l : Label n V E} (h : Prompt s) (hidle : s.pc.started = 0 → ∀ i, s.phase i = .idle)
    (hl : l ≠ .rcvrRequestStop) (hs : step (nostopOpState n policy) (nostop s) l = some t) :
    shared l = some l ∧
      ∃ s', Run (step (opState n policy)) s (answer policy s l) s' ∧ Prompt s' := by
  have hphases {i : Fin n} {p : Phase V E (Option (Completion V E))}
      (hp : (nostop s).phase i = p) : s.phase i = p := (h.phase i).symm.trans hp
  have hpcs : (nostop s).pc = s.pc := by
    cases hpc : s.pc with
    | stopCbEmplaced => exact absurd hpc h.pc
    | unstarted | stopped | starting => exact congrArg nostopPc hpc
  have hstarted {i : Fin n} (hi : s.phase i ≠ .idle) : s.pc ≠ .unstarted :=
    fun hpc => hi (hidle (by rw [hpc]; rfl) i)
  cases step_move hs with
  | rcvrRequestStop => exact absurd rfl hl
  | popStopCb hreq => cases hreq
  | runStopCb hcb => rcases hcb with hcb | hcb <;> cases hcb
  | emplaceStopCb hsource => cases hsource
  | startStopped hpc => exact absurd (hpcs.symm.trans hpc) h.pc
  | startChildren hstart =>
      have hpc : s.pc = .unstarted := hpcs.symm.trans (by
        rcases pc_of_mayStart hstart with hpc | hpc
        · exact hpc
        · exact absurd (hpcs.symm.trans hpc) h.pc)
      refine ⟨rfl, { s with stopCb := .registered, pc := .starting 0, count := n }, ?_, ?_⟩
      · simp [answer, step, opState, operation, Ops.mayStart, hpc, h.rcvrRequested,
          h.requested hpc]
      · exact ⟨h.rcvrRequested, by simp, by simp, h.phase⟩
  | @startChild i hpc =>
      refine ⟨rfl, { s.setPhase i .running with pc := .starting (i + 1) }, ?_, ?_⟩
      · simp [answer, step, hpcs.symm.trans hpc]
      · exact ⟨h.rcvrRequested, by simp, by simp, h.update rfl⟩
  | @complete i c hphase =>
      have hi := hphases hphase
      have hpc := hstarted (i := i) (by rw [hi]; simp)
      refine ⟨rfl, { s.setPhase i (.completing c []) with
        data := policy.emplace c s.data
        requested := s.requested || policy.requestsStop c }, ?_, ?_⟩
      · cases hstop : policy.requestsStop c <;>
          simp [answer, step, hi, hstop, opState, operation, State.setPhase, State.apply]
      · exact ⟨h.rcvrRequested, h.pc, fun hun => absurd hun hpc, h.update rfl⟩
  | @act i c a as hphase =>
      have := h.phase i
      rw [hphases hphase] at this
      cases this
  | @arrive i c hphase _ hcount =>
      have hi := hphases hphase
      have hpc := hstarted (i := i) (by rw [hi]; simp)
      refine ⟨rfl, { s.setPhase i (.done c) with count := s.count - 1 }, ?_, ?_⟩
      · have hcount' : s.count - 1 ≠ 0 := hcount
        simp [answer, step, hi, opState, operation, hcount']
      · exact ⟨h.rcvrRequested, h.pc, fun hun => absurd hun hpc, h.update rfl⟩
  | @arriveLast i c hphase _ hcount =>
      have hi := hphases hphase
      have hpc := hstarted (i := i) (by rw [hi]; simp)
      refine ⟨rfl, { s.setPhase i (.deciding c true) with
        count := s.count - 1
        stopCb := if s.stopCb = .registered then .absent else s.stopCb }, ?_, ?_⟩
      · have hcount' : s.count - 1 = 0 := hcount
        simp [answer, step, hi, opState, operation, hcount', State.setPhase]
      · exact ⟨h.rcvrRequested, h.pc, fun hun => absurd hun hpc, h.update rfl⟩
  | ignore _ hc => cases hc
  | @resetStopCb i c hphase =>
      have := h.phase i
      rw [hphases hphase] at this
      cases this
  | @finish i c hphase =>
      have hi := hphases hphase
      have hpc := hstarted (i := i) (by rw [hi]; simp)
      refine ⟨rfl, { s.setPhase i (.finished c) with
        received := s.received ++ s.data.toList }, ?_, ?_⟩
      · simp [answer, step, hi, opState, operation, h.rcvrRequested]
      · exact ⟨h.rcvrRequested, h.pc, fun hun => absurd hun hpc, h.update rfl⟩

/-- What `nostop_op_state` does, `op_state` can do, and do all that is to be done about stop
requests at once. -/
theorem exists_of_nostop_run {policy : StopPolicy V E} {tr : List (Label n V E)}
    {t : State n V E (Option (Completion V E))} (hn : 0 < n)
    (h : Run (step (nostopOpState n policy)) (nostopOpState n policy).initial tr t)
    (hreq : .rcvrRequestStop ∉ tr) :
    ∃ tr' s, Run (step (opState n policy)) (opState n policy).initial tr' s ∧
      .rcvrRequestStop ∉ tr' ∧ tr'.filterMap shared = tr ∧ nostop s = t ∧ Prompt s := by
  have hinit : Prompt (opState n policy).initial := by
    constructor <;> simp [Ops.initial, nostopPhase]
  obtain ⟨tr', s, hrun, hfilter, hnot, hR⟩ : ∃ tr' s, Run (step (opState n policy))
      (opState n policy).initial tr' s ∧ tr'.filterMap shared = tr ∧
        (∀ l ∈ tr', l ≠ .rcvrRequestStop) ∧ nostop s = t ∧ Prompt s := by
    refine h.lift (C := (· ≠ .rcvrRequestStop)) (Q := (· ≠ .rcvrRequestStop)) shared
      (R := fun t s => nostop s = t ∧ Prompt s) ⟨rfl, hinit⟩ ?_
      fun l hl heq => hreq (heq ▸ hl)
    rintro tr t tr' s l t' hr hrun hfilter hnot ⟨rfl, hprompt⟩ hl hs
    obtain ⟨hshared, s', hanswer, hprompt'⟩ :=
      answer_step hprompt (reached_of_run hn hrun).counted.idle_of_not_started hl hs
    obtain ⟨hls, hnot'⟩ := filterMap_answer policy s hshared
    have hrun' : Run (step (opState n policy)) (opState n policy).initial
        (tr' ++ answer policy s l) s' := run_append.mpr ⟨s, hrun, hanswer⟩
    have hnone : .rcvrRequestStop ∉ tr' ++ answer policy s l := fun hmem =>
      (List.mem_append.mp hmem).elim (fun hmem => hnot _ hmem rfl) hnot'
    -- What `nostop_op_state` does is determined by the steps that both have.
    have hback := nostop_of_run hn hrun' hnone
    rw [List.filterMap_append, hls, hfilter] at hback
    exact ⟨answer policy s l, s', hanswer, hls, fun l' hl' heq => hnot' (heq ▸ hl'),
      Option.some.inj (hback.symm.trans (hr.concat hs)), hprompt'⟩
  exact ⟨tr', s, hrun, fun hmem => hnot _ hmem rfl, hfilter, hR⟩

/-! ### The agreement -/

/-- What `complete` finds is what the policy has chosen, and so never `std::monostate`. -/
theorem data_of_deciding {hasStopSource : Bool} {policy : StopPolicy V E}
    {choice : List (Completion V E) → Completion V E}
    (hchoice : ∀ cs, cs ≠ [] → policy.stored cs = some (choice cs))
    {tr : List (Label n V E)} {s : State n V E (Option (Completion V E))} {i : Fin n}
    {c : Completion V E} {cbReset : Bool} (hn : 0 < n)
    (h : Run (step (operation n hasStopSource policy))
      (operation n hasStopSource policy).initial tr s) (hphase : s.phase i = .deciding c cbReset) :
    s.data = some (choice ((completions tr).map Prod.snd)) := by
  obtain ⟨-, c, hc⟩ := (reached_of_run hn h).all_completed (i := i)
    (by simp [hphase, Phase.isLast]) i
  have hne : (completions tr).map Prod.snd ≠ [] := by
    simpa using List.ne_nil_of_mem hc
  rw [data_of_run hn h, hchoice _ hne]

/-- The two operation states of a `when_any` with this policy, which chooses by `choice`. -/
structure Agrees (n : ℕ) (policy : StopPolicy V E)
    (choice : List (Completion V E) → Completion V E) : Prop where
  /-- Up to the steps about stop requests a run of `op_state` is one of `nostop_op_state`, and
  the receiver has got the same. -/
  toNostop : ∀ tr s, Run (step (opState n policy)) (opState n policy).initial tr s →
    .rcvrRequestStop ∉ tr → ∃ t, Run (step (nostopOpState n policy))
      (nostopOpState n policy).initial (tr.filterMap shared) t ∧ t.received = s.received
  /-- And the other way round. -/
  ofNostop : ∀ tr t, Run (step (nostopOpState n policy)) (nostopOpState n policy).initial tr t →
    .rcvrRequestStop ∉ tr → ∃ tr' s,
      Run (step (opState n policy)) (opState n policy).initial tr' s ∧ .rcvrRequestStop ∉ tr' ∧
        tr'.filterMap shared = tr ∧ s.received = t.received
  /-- Either completes the receiver once, when all children have completed. -/
  raced : ∀ hasStopSource tr s, Run (step (operation n hasStopSource policy))
    (operation n hasStopSource policy).initial tr s → Raced hasStopSource policy choice tr s
  /-- In `complete` there is a completion to be delivered. -/
  stored : ∀ hasStopSource tr s i c cbReset, Run (step (operation n hasStopSource policy))
    (operation n hasStopSource policy).initial tr s → s.phase i = .deciding c cbReset →
      s.data = some (choice ((completions tr).map Prod.snd))

theorem Agrees.of_choice {policy : StopPolicy V E}
    {choice : List (Completion V E) → Completion V E} (hn : 0 < n)
    (hchoice : ∀ cs, cs ≠ [] → policy.stored cs = some (choice cs)) :
    Agrees n policy choice where
  toNostop := fun tr s h hreq => ⟨nostop s, nostop_of_run hn h hreq, rfl⟩
  ofNostop := fun tr t h hreq => by
    obtain ⟨tr', s, hrun, hnot, hfilter, rfl, -⟩ := exists_of_nostop_run hn h hreq
    exact ⟨tr', s, hrun, hnot, hfilter, rfl⟩
  raced := fun _ _ _ h => Raced.of_run hchoice hn h
  stored := fun _ _ _ _ _ _ h hphase => data_of_deciding hchoice hn h hphase

/-- The two operation states of `when_any` agree, whatever the policy. -/
theorem nostop_agrees (hn : 2 ≤ n) :
    Agrees (V := V) (E := E) n firstSuccessful earliestValueOrFirst ∧
      Agrees (V := V) (E := E) n firstNoncancelled earliestNoncancelled ∧
      Agrees (V := V) (E := E) n firstComplete earliest :=
  have hpos : 0 < n := by omega
  ⟨.of_choice hpos fun _ hcs => stored_eq_earliestValueOrFirst hcs,
    .of_choice hpos fun _ hcs => stored_firstNoncancelled hcs,
    .of_choice hpos fun _ hcs => stored_eq_earliest hcs⟩

/-- Two children, the second of which completes first and wins. -/
def secondFirst : List (Label 2 ℕ ℕ) :=
  [.emplaceStopCb true, .startChildren, .startChild 0, .startChild 1, .complete 1 (.value 7),
    .act 1, .leave 1, .complete 0 (.error 3), .leave 0, .resetStopCb 0, .finish 0]

theorem nostop_agrees_two : ∃ s t, Run (step (opState 2 firstSuccessful))
    (opState 2 firstSuccessful).initial secondFirst s ∧
      Run (step (nostopOpState 2 firstSuccessful)) (nostopOpState 2 firstSuccessful).initial
        [.startChildren, .startChild 0, .startChild 1, .complete 1 (.value 7), .leave 1,
          .complete 0 (.error 3), .leave 0, .finish 0] t ∧
      s.received = [.value 7] ∧ t.received = s.received := by
  obtain ⟨s, hs⟩ : ∃ s, Run (step (opState 2 firstSuccessful))
      (opState 2 firstSuccessful).initial secondFirst s := exists_run_iff.mpr rfl
  have hgot : (exec (step (opState 2 firstSuccessful)) (opState 2 firstSuccessful).initial
      secondFirst).map State.received = some [.value 7] := rfl
  obtain ⟨t, ht, heq⟩ := (nostop_agrees (V := ℕ) (E := ℕ) (n := 2) (by decide)).1.toNostop
    secondFirst s hs (by simp [secondFirst])
  rw [Run] at hs
  rw [hs] at hgot
  exact ⟨s, t, hs, ht, Option.some.inj hgot, heq⟩

end BaremetalSenders.WhenAny
