import BaremetalSenders.Adaptors.JoinCount

/-!
Stop requests, and what all the operation states have in common.

The own stop source is asked to stop by the stop callback and by the children's
completions, and by nobody else; `StopOk` keeps track of who did. Together with
the two invariants of the counter this gives `Joined`: the receiver is
completed at most once, not before all children have completed, or at `start`
with no child started; `start`, every child that has been started and every
child's call can go on until they are through, and then it has been completed.
-/

namespace BaremetalSenders.Join

variable {n : ℕ} {V E D : Type*} {ops : Ops n V E D}

/-- Who has requested stop. -/
structure StopOk (ops : Ops n V E D) (tr : List (Label n V E)) (s : State n V E D) : Prop where
  absent : s.pc = .unstarted → s.stopCb = .absent
  /-- The callback is only touched when the receiver's stop was requested. -/
  wanted : s.stopCb = .refused ∨ s.stopCb = .popped ∨ s.stopCb = .spent → s.rcvrRequested = true
  rcvr : s.rcvrRequested = true ↔ .rcvrRequestStop ∈ tr
  spent : s.stopCb = .spent ↔ .runStopCb ∈ tr
  ran : .runStopCb ∈ tr → s.requested = true
  origin : s.requested = true →
    .runStopCb ∈ tr ∨ ∃ i c d, (i, c) ∈ completions tr ∧ .requestStop ∈ ops.rest i c d
  pending : ∀ i c, (i, c) ∈ completions tr → (∀ d, .requestStop ∈ ops.rest i c d) →
    .requestStop ∈ (s.phase i).todo ∨ s.requested = true
  /-- A callback that was refused makes `start` stop before the children. -/
  refused : .emplaceStopCb false ∈ tr →
    s.pc = .stopped ∨ s.pc = .stopCbEmplaced ∧ (s.stopCb = .refused ∨ s.requested = true)
  asked : s.pc = .stopped → s.requested = true

section Step

variable {s s' : State n V E D} {tr : List (Label n V E)} {l : Label n V E} {i : Fin n}
  {p : Phase V E D}

theorem stopOk_init (ops : Ops n V E D) : StopOk ops [] ops.initial := by
  constructor <;> simp [Ops.initial, completions]

theorem mem_completions_concat (hl : l.completion = none) {x : Fin n × Completion V E} :
    x ∈ completions (tr ++ [l]) ↔ x ∈ completions tr := by
  simp [completions_concat, hl]

/-- `start` gets to the children only with a callback that was registered. -/
theorem StopOk.not_refused (h : StopOk ops tr s) (hstart : ops.mayStart s = true) :
    .emplaceStopCb false ∉ tr := by
  intro hmem
  unfold Ops.mayStart at hstart
  split at hstart
  · simp only [Bool.and_eq_true, beq_iff_eq, bne_iff_ne, Bool.not_eq_true'] at hstart
    obtain ⟨⟨hpc, hcb⟩, hreq⟩ := hstart
    rcases h.refused hmem with hst | ⟨-, hr | hr⟩
    · simp [hpc] at hst
    · exact hcb hr
    · simp [hreq] at hr
  · have hpc : s.pc = .unstarted := by simpa using hstart
    rcases h.refused hmem with hst | ⟨hst, -⟩ <;> simp [hpc] at hst

/-- Labels that are not about stop requests leave no trace here. -/
theorem StopOk.label (h : StopOk ops tr s) (hl : l.completion = none) (hrun : l ≠ .runStopCb)
    (hreq : l ≠ .rcvrRequestStop) (hrefused : l ≠ .emplaceStopCb false) :
    StopOk ops (tr ++ [l]) s where
  absent := h.absent
  wanted := h.wanted
  rcvr := by simpa [hreq.symm] using h.rcvr
  spent := by simpa [hrun.symm] using h.spent
  ran := by simpa [hrun.symm] using h.ran
  origin := by simpa only [mem_completions_concat hl, List.mem_append, List.mem_singleton,
    hrun.symm, or_false] using h.origin
  pending := by simpa only [mem_completions_concat hl] using h.pending
  refused := by simpa [hrefused.symm] using h.refused
  asked := h.asked

/-- A step of a child that does nothing about stop requests. -/
theorem StopOk.of_phase (h : StopOk ops tr s) (htodo : p.todo = (s.phase i).todo) :
    StopOk ops tr (s.setPhase i p) :=
  { h with
    pending := fun j c hmem hall => by
      rw [show ((s.setPhase i p).phase j).todo = (s.phase j).todo from view_update htodo j]
      exact h.pending j c hmem hall }

theorem StopOk.rcvrRequestStop (h : StopOk ops tr s) :
    StopOk ops (tr ++ [.rcvrRequestStop]) { s with rcvrRequested := true } where
  absent := h.absent
  wanted := fun _ => rfl
  rcvr := by simp
  spent := by simpa using h.spent
  ran := by simpa using h.ran
  origin := by simpa [completions_concat, Label.completion] using h.origin
  pending := by simpa [completions_concat, Label.completion] using h.pending
  refused := by simpa using h.refused
  asked := h.asked

theorem StopOk.runStopCb (h : StopOk ops tr s) (hcb : s.stopCb = .popped ∨ s.stopCb = .refused) :
    StopOk ops (tr ++ [.runStopCb]) { s with stopCb := .spent, requested := true } where
  absent := fun hpc => by rcases hcb with hcb | hcb <;> simp [h.absent hpc] at hcb
  wanted := fun _ => h.wanted (hcb.elim (.inr ∘ .inl) .inl)
  rcvr := by simpa using h.rcvr
  spent := by simp
  ran := fun _ => rfl
  origin := by simp
  pending := fun _ _ _ _ => .inr rfl
  refused := fun hmem => (h.refused (by simpa using hmem)).imp_right fun hpc => ⟨hpc.1, .inr rfl⟩
  asked := fun _ => rfl

theorem StopOk.emplaceStopCb (h : StopOk ops tr s) (hpc : s.pc = .unstarted) :
    StopOk ops (tr ++ [.emplaceStopCb (!s.rcvrRequested)]) { s with
      pc := .stopCbEmplaced
      stopCb := if s.rcvrRequested then .refused else .registered } := by
  have hnotspent : .runStopCb ∉ tr := fun hmem => by
    have := h.spent.mpr hmem
    simp [h.absent hpc] at this
  have hfirst : Label.emplaceStopCb false ∉ tr := fun hmem => by
    rcases h.refused hmem with hst | ⟨hst, -⟩ <;> simp [hpc] at hst
  exact {
    absent := by simp
    wanted := by
      dsimp only
      split <;> simp_all
    rcvr := by simpa using h.rcvr
    spent := by
      dsimp only
      split <;> simpa using hnotspent
    ran := by simpa using h.ran
    origin := by simpa [completions_concat, Label.completion] using h.origin
    pending := by simpa [completions_concat, Label.completion] using h.pending
    refused := by
      cases hreq : s.rcvrRequested <;> simp [hfirst]
    asked := by simp }

/-- The requests of a completion are pending until they are made. -/
theorem StopOk.complete {c : Completion V E} (h : StopOk ops tr s) (hrec : Recorded ops tr s)
    (hphase : s.phase i = .running) (data : D) :
    StopOk ops (tr ++ [.complete i c])
      { s.setPhase i (.completing c (ops.rest i c s.data)) with data } := by
  have hlist : completions (tr ++ [.complete i c]) = completions tr ++ [(i, c)] :=
    completions_concat tr _
  refine {
    absent := h.absent
    wanted := h.wanted
    rcvr := by simpa using h.rcvr
    spent := by simpa using h.spent
    ran := by simpa using h.ran
    origin := ?_
    pending := ?_
    refused := by simpa using h.refused
    asked := h.asked }
  · intro hreq
    rcases h.origin hreq with hran | ⟨j, c', d, hmem, hstop⟩
    · exact .inl (List.mem_append_left _ hran)
    · exact .inr ⟨j, c', d, hlist ▸ List.mem_append_left _ hmem, hstop⟩
  · intro j c' hmem hall
    rw [hlist, List.mem_append] at hmem
    rcases eq_or_ne j i with rfl | hne
    · have hnew : (j, c') ∉ completions tr := fun hmem => by
        have := (hrec.completion j c').mpr hmem
        simp [hphase, Phase.completion] at this
      obtain rfl : c' = c := by simpa [hnew] using hmem
      exact .inl (by simpa [State.setPhase, Phase.todo] using hall s.data)
    · have hold : (j, c') ∈ completions tr := by simpa [hne] using hmem
      simpa [State.setPhase, hne] using h.pending j c' hold hall

theorem StopOk.act {c : Completion V E} {a : Action D} {as : List (Action D)}
    (h : StopOk ops tr s) (hrec : Recorded ops tr s)
    (hphase : s.phase i = .completing c (a :: as)) :
    StopOk ops tr ((s.apply a).setPhase i (.completing c as)) := by
  cases a with
  | update f =>
      have h' : StopOk ops tr (s.apply (.update f)) := { h with }
      refine { h' with pending := fun j c' hmem hall => ?_ }
      rcases eq_or_ne j i with rfl | hne
      · simpa [State.setPhase, State.apply, hphase, Phase.todo] using h.pending j c' hmem hall
      · simpa [State.setPhase, State.apply, hne] using h.pending j c' hmem hall
  | requestStop =>
      have hmem : (i, c) ∈ completions tr :=
        (hrec.completion i c).mp (by rw [hphase]; rfl)
      obtain ⟨d, hd⟩ := hrec.todo i c hmem
      have hstop : .requestStop ∈ ops.rest i c d := hd.subset (by simp [hphase, Phase.todo])
      exact { h with
        ran := fun _ => rfl
        origin := fun _ => .inr ⟨i, c, d, hmem, hstop⟩
        pending := fun _ _ _ _ => .inr rfl
        refused := fun href => (h.refused href).imp_right fun hpc => ⟨hpc.1, .inr rfl⟩
        asked := fun _ => rfl }

theorem StopOk.step (h : StopOk ops tr s) (hcounted : Counted s) (hrec : Recorded ops tr s)
    (hs : step ops s l = some s') : StopOk ops (tr ++ [l]) s' := by
  cases step_move hs with
  | rcvrRequestStop => exact h.rcvrRequestStop
  | popStopCb hreq hcb =>
      have h' := h.label (l := .popStopCb) rfl (by simp) (by simp) (by simp)
      exact { h' with
        absent := fun hpc => by simp [h.absent hpc] at hcb
        wanted := fun _ => hreq
        spent := by simpa [hcb] using h'.spent
        refused := fun hmem => (h'.refused hmem).imp_right fun hpc =>
          ⟨hpc.1, .inr (hpc.2.resolve_left (by simp [hcb]))⟩ }
  | runStopCb hcb => exact h.runStopCb hcb
  | emplaceStopCb _ hpc => exact h.emplaceStopCb hpc
  | startStopped hpc _ hreq =>
      have h' := h.label (l := .startStopped) rfl (by simp) (by simp) (by simp)
      exact { h' with absent := by simp, refused := fun _ => .inl rfl, asked := fun _ => hreq }
  | startChildren hstart =>
      have h' := h.label (l := .startChildren) rfl (by simp) (by simp) (by simp)
      have hnot := h.not_refused hstart
      exact { h' with absent := by simp, refused := by simpa using hnot, asked := by simp }
  | @startChild i hpc =>
      have hidle := hcounted.idle_of_next hpc
      have h' := (h.of_phase (i := i) (p := .running) (by rw [hidle]; rfl)).label
        (l := .startChild i) rfl (by simp) (by simp) (by simp)
      have hnot : .emplaceStopCb false ∉ tr := fun hmem => by
        rcases h.refused hmem with hst | ⟨hst, -⟩ <;> simp [hpc] at hst
      exact { h' with absent := by simp, refused := by simpa using hnot, asked := by simp }
  | complete hphase => exact h.complete hrec hphase _
  | act hphase => exact (h.act hrec hphase).label rfl (by simp) (by simp) (by simp)
  | arrive hphase =>
      exact { (h.of_phase (by rw [hphase]; rfl)).label rfl (by simp) (by simp) (by simp) with }
  | arriveLast hphase =>
      exact { (h.of_phase (by rw [hphase]; rfl)).label rfl (by simp) (by simp) (by simp) with }
  | ignore hphase =>
      exact (h.of_phase (by rw [hphase]; rfl)).label rfl (by simp) (by simp) (by simp)
  | @resetStopCb i c hphase =>
      have h' := (h.of_phase (i := i) (p := .deciding c true) (by rw [hphase]; rfl)).label
        (l := .resetStopCb i) rfl (by simp) (by simp) (by simp)
      by_cases hcb : s.stopCb = .registered
      · exact { h' with
          absent := fun _ => if_pos hcb
          wanted := by simp [hcb]
          spent := by simpa [hcb] using h'.spent
          refused := fun hmem => (h'.refused hmem).imp_right fun hpc =>
            ⟨hpc.1, .inr (hpc.2.resolve_left (by simp [hcb]))⟩ }
      · simp only [if_neg hcb]
        exact h'
  | finish hphase =>
      exact { (h.of_phase (by rw [hphase]; rfl)).label rfl (by simp) (by simp) (by simp) with }

end Step

/-! ### The common result -/

/-- The child's call of the operation state has returned. -/
def Phase.returned : Phase V E D → Bool
  | .ignored _ | .done _ | .finished _ => true
  | _ => false

/-- `start` takes the step. -/
def Label.ofStart : Label n V E → Bool
  | .emplaceStopCb _ | .startStopped | .startChildren | .startChild _ => true
  | _ => false

def StartPc.returned (n : ℕ) : StartPc → Bool
  | .stopped => true
  | .starting k => k == n
  | _ => false

structure Joined (ops : Ops n V E D) (tr : List (Label n V E)) (s : State n V E D) : Prop where
  once : s.received.length ≤ 1
  /-- What the receiver got, it got from `start`, because stop had been requested and with
  no child started, or after all children had completed. -/
  early : s.received ≠ [] →
    s.pc = .stopped ∧ s.received = [.stopped] ∧ s.rcvrRequested = true ∧ (∀ i, s.phase i = .idle) ∨
      ∀ i, ∃ c, (i, c) ∈ completions tr
  /-- If stop had been requested before `start` emplaced its callback, no child is started,
  and the receiver has been completed or `start` goes on to complete it. -/
  stopped : .emplaceStopCb false ∈ tr → (∀ i, s.phase i = .idle) ∧
    (s.received = [.stopped] ∨ ∃ l ∈ [Label.runStopCb, .startStopped], ∃ s', step ops s l = some s')
  /-- `start`, or the callback that is refused in it, goes on until `start` has returned. -/
  starts : s.pc.returned n = false →
    ∃ l, (l.ofStart = true ∨ l = .runStopCb ∧ s.stopCb = .refused) ∧ ∃ s', step ops s l = some s'
  /-- It has returned before the children because stop was requested, and has completed the
  receiver. -/
  halted : s.pc = .stopped → s.received = [.stopped] ∧ ∀ i, s.phase i = .idle
  /-- Or it has started all children. -/
  started : s.pc = .starting n → ∀ i, (s.phase i).isIdle = false
  /-- A child that has been started can complete as its signatures say. -/
  completes : ∀ i c, s.phase i = .running → ops.admits i c = true →
    ∃ s', step ops s (.complete i c) = some s'
  completion : ∀ i c, (s.phase i).completion = some c ↔ (i, c) ∈ completions tr
  nodup : ((completions tr).map Prod.fst).Nodup
  /-- A call that has not returned can go on. -/
  progress : ∀ i c, (i, c) ∈ completions tr → (s.phase i).returned = false →
    ∃ l ∈ [Label.act i, .leave i, .resetStopCb i, .finish i], ∃ s', step ops s l = some s'
  /-- When all calls have returned, one of them has been in `complete`. -/
  finished : (∀ i, (s.phase i).returned = true) → ∃ i, (s.phase i).isFinished = true

structure Reached (ops : Ops n V E D) (tr : List (Label n V E)) (s : State n V E D) : Prop where
  counted : Counted s
  recorded : Recorded ops tr s
  stopOk : StopOk ops tr s

variable {s s' : State n V E D} {tr : List (Label n V E)} {l : Label n V E} {i : Fin n}

theorem reached_of_run (hn : 0 < n) (h : Run (step ops) ops.initial tr s) : Reached ops tr s := by
  refine Run.induction (P := Reached ops)
    ⟨counted_init ops, recorded_init ops, stopOk_init ops⟩ ?_ h
  rintro tr s l s' - ⟨hcounted, hrec, hstop⟩ hs
  exact ⟨hcounted.step hn hs, hrec.step hcounted hs, hstop.step hcounted hrec hs⟩

theorem Counted.all_arrived (h : Counted s) {k : ℕ} (hk : s.pc = .starting k) (hcount : s.count = 0)
    (i : Fin n) : (s.phase i).arrived = true :=
  remaining_eq_zero.mp ((h.count k hk).symm.trans hcount) i

theorem Phase.exists_completion {p : Phase V E D} (h : p.arrived = true) :
    ∃ c, p.completion = some c := by
  cases p with
  | done c | deciding c _ | finished c => exact ⟨c, rfl⟩
  | idle | running | completing | ignored => cases h

/-- While a child decides what the receiver gets, all children have completed and been
counted. -/
theorem Reached.all_completed (h : Reached ops tr s) (hlast : (s.phase i).isLast = true)
    (j : Fin n) : (s.phase j).arrived = true ∧ ∃ c, (j, c) ∈ completions tr := by
  have hidle : (s.phase i).isIdle = false := by
    cases hp : s.phase i <;> simp_all [Phase.isIdle, Phase.isLast]
  obtain ⟨k, hk, -⟩ := h.counted.starting_of_not_idle hidle
  have hcount := (h.counted.last_iff k hk).mpr ⟨i, hlast⟩
  have harrived := h.counted.all_arrived hk hcount j
  obtain ⟨c, hc⟩ := Phase.exists_completion harrived
  exact ⟨harrived, c, (h.recorded.completion j c).mp hc⟩

def Phase.isIgnored : Phase V E D → Bool
  | .ignored _ => true
  | _ => false

/-- Where every completion the children admit is counted, none is ignored. -/
theorem Reached.not_ignored (h : Reached ops tr s)
    (harrives : ∀ i c, ops.admits i c = true → ops.arrives c = true)
    (hold : ∀ j, (s.phase j).isIgnored = false) (hs : step ops s l = some s') (j : Fin n) :
    (s'.phase j).isIgnored = false := by
  have hupdate : ∀ (i : Fin n) (p : Phase V E D), p.isIgnored = false →
      (Function.update s.phase i p j).isIgnored = false := fun i p hp => by
    rcases eq_or_ne j i with rfl | hne
    · rwa [Function.update_self]
    · rw [Function.update_of_ne hne, hold]
  cases step_move hs with
  | rcvrRequestStop | popStopCb | runStopCb | emplaceStopCb | startStopped | startChildren =>
      exact hold j
  | startChild | complete | arrive | arriveLast | resetStopCb | finish => exact hupdate _ _ rfl
  | @act i c a =>
      cases a with
      | update | requestStop => exact hupdate _ _ rfl
  | ignore hphase hc =>
      have hmem := (h.recorded.completion _ _).mp (by rw [hphase]; rfl)
      rw [harrives _ _ (h.recorded.admitted _ _ hmem)] at hc
      cases hc

/-- A child that has completed and not returned can go on. -/
theorem exists_step {c : Completion V E} (hc : (s.phase i).completion = some c)
    (hreturned : (s.phase i).returned = false) :
    ∃ l ∈ [Label.act i, .leave i, .resetStopCb i, .finish i], ∃ s', step ops s l = some s' := by
  cases hphase : s.phase i with
  | idle | running => simp [hphase, Phase.completion] at hc
  | ignored | done | finished => simp [hphase, Phase.returned] at hreturned
  | completing c as =>
      cases as with
      | cons a as =>
          refine ⟨.act i, by simp, ?_⟩
          simp only [step, hphase]
          exact ⟨_, rfl⟩
      | nil =>
          refine ⟨.leave i, by simp, ?_⟩
          simp only [step, hphase]
          split <;> exact ⟨_, rfl⟩
  | deciding c cbReset =>
      cases cbReset with
      | false =>
          refine ⟨.resetStopCb i, by simp, ?_⟩
          simp only [step, hphase]
          exact ⟨_, rfl⟩
      | true =>
          refine ⟨.finish i, by simp, ?_⟩
          simp only [step, hphase]
          exact ⟨_, rfl⟩

/-- Nobody but the children that have completed can have requested stop before the
children are started. -/
theorem Reached.rcvrRequested (h : Reached ops tr s) (hreq : s.requested = true)
    (hidle : ∀ i, s.phase i = .idle) : s.rcvrRequested = true := by
  rcases h.stopOk.origin hreq with hran | ⟨i, c, d, hmem, -⟩
  · exact h.stopOk.wanted (.inr (.inr (h.stopOk.spent.mpr hran)))
  · have := (h.recorded.completion i c).mpr hmem
    simp [hidle i, Phase.completion] at this

theorem Reached.idle_of_stopped (h : Reached ops tr s) (hpc : s.pc = .stopped) (i : Fin n) :
    s.phase i = .idle := h.counted.idle_of_not_started (by rw [hpc]; rfl) i

/-- When all children are back, one of them is back from `complete`. -/
theorem Reached.exists_finished (h : Reached ops tr s) (hn : 0 < n)
    (hignored : ∀ j, (s.phase j).isIgnored = false) (hreturned : ∀ j, (s.phase j).returned = true) :
    ∃ i, (s.phase i).isFinished = true := by
  have harrived (j : Fin n) : (s.phase j).arrived = true := by
    have h₁ := hignored j
    have h₂ := hreturned j
    cases hp : s.phase j <;> simp_all [Phase.isIgnored, Phase.returned, Phase.arrived]
  have hidle : (s.phase ⟨0, hn⟩).isIdle = false := by
    have h₀ := harrived ⟨0, hn⟩
    cases hp : s.phase ⟨0, hn⟩ <;> simp_all [Phase.isIdle, Phase.arrived]
  obtain ⟨k, hk, -⟩ := h.counted.starting_of_not_idle hidle
  have hcount : s.count = 0 := (h.counted.count k hk).trans (remaining_eq_zero.mpr harrived)
  obtain ⟨i, hi⟩ := (h.counted.last_iff k hk).mp hcount
  have hback := hreturned i
  exact ⟨i, by cases hp : s.phase i <;> simp_all [Phase.isLast, Phase.returned, Phase.isFinished]⟩

/-- What the receiver has got came from `start` or from `complete`. -/
theorem Reached.early (h : Reached ops tr s) (hreceived : s.received ≠ []) :
    s.pc = .stopped ∧ s.received = [.stopped] ∧ s.rcvrRequested = true ∧ (∀ i, s.phase i = .idle) ∨
      ∀ i, ∃ c, (i, c) ∈ completions tr := by
  by_cases hpc : s.pc = .stopped
  · have hidle := h.idle_of_stopped hpc
    exact .inl ⟨hpc, h.counted.received_stopped hpc,
      h.rcvrRequested (h.stopOk.asked hpc) hidle, hidle⟩
  · obtain ⟨i, hi⟩ : ∃ i, (s.phase i).isFinished = true := by
      by_contra hnone
      exact hreceived (h.counted.received_nil hpc (by simpa using hnone))
    have hlast : (s.phase i).isLast = true := by
      cases hp : s.phase i <;> simp_all [Phase.isFinished, Phase.isLast]
    exact .inr fun j => (h.all_completed hlast j).2

theorem Reached.stopped (h : Reached ops tr s) (hmem : .emplaceStopCb false ∈ tr) :
    (∀ i, s.phase i = .idle) ∧ (s.received = [.stopped] ∨
      ∃ l ∈ [Label.runStopCb, .startStopped], ∃ s', step ops s l = some s') := by
  rcases h.stopOk.refused hmem with hpc | ⟨hpc, hnext⟩
  · exact ⟨h.idle_of_stopped hpc, .inl (h.counted.received_stopped hpc)⟩
  · refine ⟨h.counted.idle_of_not_started (by rw [hpc]; rfl), .inr ?_⟩
    by_cases hcb : s.stopCb = .refused
    · exact ⟨.runStopCb, by simp, _, if_pos (.inr hcb)⟩
    · exact ⟨.startStopped, by simp, _, if_pos ⟨hpc, hcb, hnext.resolve_left hcb⟩⟩

/-- `start` gets to its check with a stop source only, and no further than to the last child. -/
theorem pc_of_run (h : Run (step ops) ops.initial tr s) :
    (s.pc = .stopCbEmplaced → ops.hasStopSource = true) ∧ ∀ k, s.pc = .starting k → k ≤ n := by
  refine Run.induction (P := fun _ s => (s.pc = .stopCbEmplaced → ops.hasStopSource = true) ∧
    ∀ k, s.pc = .starting k → k ≤ n) (by simp [Ops.initial]) ?_ h
  intro tr s l s' _ ih hs
  cases step_move hs with
  | emplaceStopCb hsource => exact ⟨fun _ => hsource, by simp⟩
  | startStopped | startChildren => simp
  | @startChild i hpc =>
      refine ⟨by simp, fun k hk => ?_⟩
      obtain rfl : (i : ℕ) + 1 = k := by simpa using hk
      exact i.isLt
  | @act i c a => cases a <;> exact ih
  | rcvrRequestStop | popStopCb | runStopCb | complete | arrive | arriveLast | ignore | resetStopCb
  | finish => exact ih

/-- `start` waits for nobody. -/
theorem exists_step_of_start (h : Run (step ops) ops.initial tr s)
    (hpc : s.pc.returned n = false) :
    ∃ l, (l.ofStart = true ∨ l = .runStopCb ∧ s.stopCb = .refused) ∧
      ∃ s', step ops s l = some s' := by
  obtain ⟨hsource, hle⟩ := pc_of_run h
  cases hp : s.pc with
  | stopped => simp [hp, StartPc.returned] at hpc
  | unstarted =>
      cases hhas : ops.hasStopSource with
      | true => exact ⟨.emplaceStopCb (!s.rcvrRequested), .inl rfl, _, if_pos ⟨hhas, hp, rfl⟩⟩
      | false => exact ⟨.startChildren, .inl rfl, _, if_pos (by simp [Ops.mayStart, hhas, hp])⟩
  | stopCbEmplaced =>
      by_cases hcb : s.stopCb = .refused
      · exact ⟨.runStopCb, .inr ⟨rfl, hcb⟩, _, if_pos (.inr hcb)⟩
      · cases hreq : s.requested with
        | true => exact ⟨.startStopped, .inl rfl, _, if_pos ⟨hp, hcb, hreq⟩⟩
        | false =>
            refine ⟨.startChildren, .inl rfl, _, if_pos ?_⟩
            simp [Ops.mayStart, hsource hp, hp, hcb, hreq]
  | starting k =>
      have hne : k ≠ n := by simpa [hp, StartPc.returned] using hpc
      have hlt : k < n := lt_of_le_of_ne (hle k hp) hne
      exact ⟨.startChild ⟨k, hlt⟩, .inl rfl, _, if_pos hp⟩

/-- The common part of what the adaptors' theorems say. -/
theorem joined_of_run (hn : 0 < n)
    (harrives : ∀ i c, ops.admits i c = true → ops.arrives c = true)
    (h : Run (step ops) ops.initial tr s) : Joined ops tr s := by
  have hreached := reached_of_run hn h
  have hignored : ∀ j, (s.phase j).isIgnored = false := by
    refine Run.induction (P := fun _ s => ∀ j, (s.phase j).isIgnored = false)
      (fun _ => rfl) ?_ h
    exact fun tr s l s' hr hold hs => (reached_of_run hn hr).not_ignored harrives hold hs
  exact {
    once := hreached.counted.received_le
    early := hreached.early
    stopped := hreached.stopped
    starts := exists_step_of_start h
    halted := fun hpc => ⟨hreached.counted.received_stopped hpc, hreached.idle_of_stopped hpc⟩
    started := fun hpc i => by
      have hidle := hreached.counted.idle_iff i
      rw [hpc, StartPc.started] at hidle
      simpa using mt hidle.mp (by omega)
    completes := fun i c hphase hc => by simp [step, hphase, hc]
    completion := hreached.recorded.completion
    nodup := hreached.recorded.nodup
    progress := fun i c hmem => exists_step ((hreached.recorded.completion i c).mpr hmem)
    finished := hreached.exists_finished hn hignored }

/-- Where there is a last child it stays the last one. -/
theorem Counted.isLast_step (h : Counted s) (hs : Join.step ops s l = some s')
    (hlast : ∃ i, (s.phase i).isLast = true) : ∃ i, (s'.phase i).isLast = true := by
  have hkeep {i : Fin n} {p : Phase V E D} (hp : p.isLast = (s.phase i).isLast) :
      ∃ j, (Function.update s.phase i p j).isLast = true := by
    obtain ⟨j, hj⟩ := hlast
    exact ⟨j, (view_update hp j).trans hj⟩
  cases step_move hs with
  | rcvrRequestStop | popStopCb | runStopCb | emplaceStopCb | startStopped | startChildren =>
      exact hlast
  | startChild hst =>
      have hidle := h.idle_of_next hst
      exact hkeep (by rw [hidle]; rfl)
  | complete hphase | arrive hphase | ignore hphase | finish hphase =>
      exact hkeep (by rw [hphase]; rfl)
  | @act i c a as hphase => cases a <;> exact hkeep (by rw [hphase]; rfl)
  | @arriveLast i c hphase => exact ⟨i, by simp [Phase.isLast]⟩
  | @resetStopCb i c hphase => exact ⟨i, by simp [Phase.isLast]⟩

/-- A stop callback that is not there any more has been reset by the last child. -/
theorem exists_isLast_of_absent (hn : 0 < n) (hsource : ops.hasStopSource = true)
    (h : Run (step ops) ops.initial tr s) (hpc : s.pc ≠ .unstarted) (hcb : s.stopCb = .absent) :
    ∃ i, (s.phase i).isLast = true := by
  refine Run.induction (P := fun _ s => s.pc ≠ .unstarted → s.stopCb = .absent →
    ∃ i, (s.phase i).isLast = true) (fun hpc => absurd rfl hpc) ?_ h hpc hcb
  intro tr s l s' hr ih hs hpc hcb
  have hreached := reached_of_run hn hr
  have hkeep (hpc : s.pc ≠ .unstarted) (hcb : s.stopCb = .absent) :
      ∃ i, (s'.phase i).isLast = true := hreached.counted.isLast_step hs (ih hpc hcb)
  have hstarted {i : Fin n} (hidle : (s.phase i).isIdle = false) : s.pc ≠ .unstarted := by
    obtain ⟨k, hk, -⟩ := hreached.counted.starting_of_not_idle hidle
    simp [hk]
  cases step_move hs with
  | rcvrRequestStop => exact hkeep hpc hcb
  | popStopCb | runStopCb => cases hcb
  | emplaceStopCb _ hun => cases hreq : s.rcvrRequested <;> simp [hreq] at hcb
  | startStopped hst => exact hkeep (by simp [hst]) hcb
  | startChildren hstart =>
      have hst : s.pc = .stopCbEmplaced := by
        simp only [Ops.mayStart, hsource, if_true, Bool.and_eq_true, beq_iff_eq] at hstart
        exact hstart.1.1
      exact hkeep (by simp [hst]) hcb
  | startChild hst => exact hkeep (by simp [hst]) hcb
  | complete hphase | arrive hphase | ignore hphase | finish hphase =>
      exact hkeep (hstarted (by rw [hphase]; rfl)) hcb
  | @act i c a as hphase =>
      cases a <;> exact hkeep (hstarted (by rw [hphase]; rfl)) hcb
  | @arriveLast i c hphase => exact ⟨i, by simp [Phase.isLast]⟩
  | @resetStopCb i c hphase => exact ⟨i, by simp [Phase.isLast]⟩

/-- A child has completed when it had before, or does so now. -/
theorem completion_step (hn : 0 < n) (h : Run (step ops) ops.initial tr s)
    (hs : step ops s l = some s') (i : Fin n) (c : Completion V E) :
    (s'.phase i).completion = some c ↔ (s.phase i).completion = some c ∨ l = .complete i c := by
  have hbefore := (reached_of_run hn h).recorded.completion i c
  have hafter := (reached_of_run hn (h.concat hs)).recorded.completion i c
  rw [hbefore, hafter, completions_concat, List.mem_append]
  cases l <;> simp [Label.completion, eq_comm]

/-- What the receiver has got it keeps. -/
theorem received_step (hs : step ops s l = some s') (h : s.received ≠ []) : s'.received ≠ [] := by
  cases step_move hs with
  | startStopped | finish => simp [h]
  | @act i c a => cases a <;> exact h
  | rcvrRequestStop | popStopCb | runStopCb | emplaceStopCb | startChildren | startChild | complete
  | arrive | arriveLast | ignore | resetStopCb => exact h

inductive PcStep (s s' : State n V E D) : Label n V E → Prop
  | same {l : Label n V E} (hpc : s'.pc = s.pc) : PcStep s s' l
  | emplace {b : Bool} (hpc : s.pc = .unstarted) (hpc' : s'.pc = .stopCbEmplaced) :
      PcStep s s' (.emplaceStopCb b)
  | stopped (hpc : s.pc = .stopCbEmplaced) (hpc' : s'.pc = .stopped) : PcStep s s' .startStopped
  | children (hpc : s.pc = .stopCbEmplaced) (hpc' : s'.pc = .starting 0) :
      PcStep s s' .startChildren
  | child {i : Fin n} (hpc : s.pc = .starting i) (hpc' : s'.pc = .starting (i + 1)) :
      PcStep s s' (.startChild i)

theorem pc_step (hsource : ops.hasStopSource = true) (hs : step ops s l = some s') :
    PcStep s s' l := by
  cases step_move hs with
  | emplaceStopCb _ hpc => exact .emplace hpc rfl
  | startStopped hpc => exact .stopped hpc rfl
  | startChildren hstart =>
      simp only [Ops.mayStart, hsource, if_true, Bool.and_eq_true, beq_iff_eq] at hstart
      exact .children hstart.1.1 rfl
  | startChild hpc => exact .child hpc rfl
  | @act i c a => cases a <;> exact .same rfl
  | rcvrRequestStop | popStopCb | runStopCb | complete | arrive | arriveLast | ignore | resetStopCb
  | finish => exact .same rfl

/-! ### Stopped before the children -/

/-- Stop was requested before `start` has got to the children, and it will not get there. -/
structure Barred (s : State n V E D) : Prop where
  rcvrRequested : s.rcvrRequested = true
  pc : s.pc = .unstarted ∨ s.pc = .stopped ∨
    s.pc = .stopCbEmplaced ∧ (s.stopCb = .refused ∨ s.requested = true)

theorem Barred.started (h : Barred s) : s.pc.started = 0 := by
  rcases h.pc with hpc | hpc | ⟨hpc, -⟩ <;> simp [hpc, StartPc.started]

theorem Barred.step (h : Barred s) (hsource : ops.hasStopSource = true) (hcounted : Counted s)
    (hs : step ops s l = some s') : Barred s' := by
  have hidle := hcounted.idle_of_not_started h.started
  cases step_move hs with
  | rcvrRequestStop => exact ⟨rfl, h.pc⟩
  | popStopCb _ hcb =>
      refine ⟨h.rcvrRequested, h.pc.imp_right fun hpc => hpc.imp_right fun hpc => ⟨hpc.1, ?_⟩⟩
      exact .inr (hpc.2.resolve_left (by simp [hcb]))
  | runStopCb =>
      refine ⟨h.rcvrRequested, h.pc.imp_right fun hpc => hpc.imp_right fun hpc => ⟨hpc.1, ?_⟩⟩
      exact .inr rfl
  | emplaceStopCb => exact ⟨h.rcvrRequested, .inr (.inr ⟨rfl, .inl (if_pos h.rcvrRequested)⟩)⟩
  | startStopped => exact ⟨h.rcvrRequested, .inr (.inl rfl)⟩
  | startChildren hstart =>
      simp only [Ops.mayStart, hsource, if_true, Bool.and_eq_true, beq_iff_eq, bne_iff_ne,
        Bool.not_eq_true'] at hstart
      obtain ⟨⟨hpc, hcb⟩, hreq⟩ := hstart
      rcases h.pc with hpc' | hpc' | ⟨-, hcb' | hreq'⟩
      · simp [hpc] at hpc'
      · simp [hpc] at hpc'
      · exact absurd hcb' hcb
      · simp [hreq] at hreq'
  | @startChild i hpc =>
      have hstarted := h.pc
      simp [hpc] at hstarted
  | complete hphase | act hphase | arrive hphase | arriveLast hphase | ignore hphase
  | resetStopCb hphase | finish hphase => simp [hidle] at hphase

theorem Barred.run {tr' : List (Label n V E)} (h : Barred s) (hn : 0 < n)
    (hsource : ops.hasStopSource = true) (hr : Run (Join.step ops) ops.initial tr s)
    (hr' : Run (Join.step ops) s tr' s') : Barred s' := by
  refine Run.induction (P := fun _ s => Barred s) h ?_ hr'
  intro tr' s₁ l s₂ hr' ih hs
  exact ih.step hsource (reached_of_run hn (run_append.mpr ⟨s, hr, hr'⟩)).counted hs

/-! ### What the receiver got -/

/-- Stop requests are not taken back. -/
theorem rcvrRequested_of_step (hs : step ops s l = some s') (h : s'.rcvrRequested = false) :
    s.rcvrRequested = false := by
  cases step_move hs with
  | rcvrRequestStop hreq => exact hreq
  | @act i c a => cases a <;> exact h
  | popStopCb | runStopCb | emplaceStopCb | startStopped | startChildren | startChild | complete
  | arrive | arriveLast | ignore | resetStopCb | finish => exact h

/-- Once a child is back from `complete` the receiver has got what `complete` delivers, and
anything about it that the steps since then have not changed. -/
theorem received_of_finished {Q : List (Label n V E) → State n V E D → Completion V E → Prop}
    (hn : 0 < n)
    (hout : ∀ tr s i c, Run (step ops) ops.initial tr s → s.phase i = .deciding c true →
      ∃ r, ops.outcome s.rcvrRequested s.requested s.data = some r ∧ Q tr s r)
    (hstable : ∀ tr s l s' r, step ops s l = some s' → l.completion = none → Q tr s r →
      Q (tr ++ [l]) s' r)
    (h : Run (step ops) ops.initial tr s) (hi : (s.phase i).isFinished = true) :
    ∃ r, s.received = [r] ∧ Q tr s r := by
  refine Run.induction (P := fun tr s => ∀ i, (s.phase i).isFinished = true →
    ∃ r, s.received = [r] ∧ Q tr s r) (fun j hj => by cases hj) ?_ h i hi
  intro tr s l s' hr ih hs j hj
  have hreached := reached_of_run hn hr
  have hold : ∀ (i : Fin n) (p : Phase V E D), p.isFinished = false →
      (Function.update s.phase i p j).isFinished = true → (s.phase j).isFinished = true := by
    intro i p hp hfin
    rcases eq_or_ne j i with rfl | hne
    · simp [hp] at hfin
    · simpa [hne] using hfin
  have hkeep (hfin : (s.phase j).isFinished = true) (hl : l.completion = none)
      (hreceived : s'.received = s.received) : ∃ r, s'.received = [r] ∧ Q (tr ++ [l]) s' r := by
    obtain ⟨r, hr, hq⟩ := ih j hfin
    exact ⟨r, hreceived.trans hr, hstable tr s l s' r hs hl hq⟩
  cases step_move hs with
  | rcvrRequestStop | popStopCb | runStopCb | emplaceStopCb | startChildren =>
      exact hkeep hj rfl rfl
  | startStopped hpc =>
      have hidle := hreached.counted.idle_of_not_started (by rw [hpc]; rfl) j
      simp [hidle, Phase.isFinished] at hj
  | startChild | arrive | arriveLast | ignore | resetStopCb =>
      exact hkeep (hold _ _ rfl hj) rfl rfl
  | @act i c a =>
      cases a with
      | update | requestStop => exact hkeep (hold _ _ rfl hj) rfl rfl
  | @complete i c hphase =>
      -- Every child has arrived, so none is there to complete.
      have hfin := hold _ _ rfl hj
      have hlast : (s.phase j).isLast = true := by
        cases hp : s.phase j <;> simp_all [Phase.isFinished, Phase.isLast]
      have harrived := (hreached.all_completed hlast i).1
      simp [hphase, Phase.arrived] at harrived
  | @finish i c hphase =>
      have hnil := hreached.counted.received_of_deciding hphase
      obtain ⟨r, hr, hq⟩ := hout tr s i c hr hphase
      exact ⟨r, by simp [hnil, hr], hstable tr s _ _ r hs rfl hq⟩

/-- What the receiver gets of `complete`, when this is `deliver` of the run so far and comes
to `result` of the completions as long as no stop is requested. -/
structure Answered (ops : Ops n V E D)
    (deliver : List (Label n V E) → State n V E D → Completion V E)
    (result : List (Fin n × Completion V E) → Completion V E) (tr : List (Label n V E))
    (s : State n V E D) : Prop where
  exactly : (∀ i, (s.phase i).returned = true) → s.received.length = 1
  unstopped : (∀ i, (s.phase i).returned = true) → s.rcvrRequested = false →
    s.received = [result (completions tr)]
  delivered : ∀ i s', step ops s (.finish i) = some s' →
    (∀ j, ∃ c, (j, c) ∈ completions tr) ∧ s'.received = [deliver tr s]

theorem answered_of_run {deliver : List (Label n V E) → State n V E D → Completion V E}
    {result : List (Fin n × Completion V E) → Completion V E} (hn : 0 < n)
    (harrives : ∀ i c, ops.admits i c = true → ops.arrives c = true)
    (hout : ∀ tr s i c, Run (step ops) ops.initial tr s → s.phase i = .deciding c true →
      ops.outcome s.rcvrRequested s.requested s.data = some (deliver tr s))
    (hresult : ∀ tr s, Run (step ops) ops.initial tr s → s.rcvrRequested = false →
      deliver tr s = result (completions tr))
    (h : Run (step ops) ops.initial tr s) : Answered ops deliver result tr s := by
  have hjoined := joined_of_run hn harrives h
  -- No stop request is taken back, so what was delivered without one has not been overtaken.
  have hgot {i : Fin n} (hi : (s.phase i).isFinished = true) :
      ∃ r, s.received = [r] ∧ (s.rcvrRequested = false → r = result (completions tr)) := by
    refine received_of_finished
      (Q := fun tr s r => s.rcvrRequested = false → r = result (completions tr)) hn
      (fun tr s i c hr hc => ⟨_, hout tr s i c hr hc, hresult tr s hr⟩) ?_ h hi
    intro tr s l s' r hs hl hq hreq
    simpa [completions_concat, hl] using hq (rcvrRequested_of_step hs hreq)
  constructor
  · intro hback
    obtain ⟨i, hi⟩ := hjoined.finished hback
    obtain ⟨r, hr, -⟩ := hgot hi
    rw [hr, List.length_singleton]
  · intro hback hreq
    obtain ⟨i, hi⟩ := hjoined.finished hback
    obtain ⟨r, hr, hresult⟩ := hgot hi
    rw [hr, hresult hreq]
  · intro i s' hs
    cases step_move hs with
    | finish hphase =>
        have hreached := reached_of_run hn h
        refine ⟨fun j => (hreached.all_completed (i := i) (by simp [hphase, Phase.isLast]) j).2, ?_⟩
        simp [hreached.counted.received_of_deciding hphase, hout tr s i _ h hphase]

end BaremetalSenders.Join
