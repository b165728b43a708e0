import BaremetalSenders.Adaptors.JoinStop

/-!
`when_any` with its three stop policies.

Whatever the policy, the variant `completions` is a function of the order in
which the children's completions got to the critical section of `emplace`, and
of nothing else. For `first_noncancelled` and `first_complete` this function is
what the policy's description says. For `first_successful` it is not: an error
is stored only when nothing is, so a set_stopped that was there before hides it.
-/

namespace BaremetalSenders.WhenAny

open Join

variable {n : ℕ} {V E : Type*}

/-- The `emplace` of a stop policy: its critical section, which computes the new
`completions` (`none` is `std::monostate`), and whether it requests stop after it. -/
structure StopPolicy (V E : Type*) where
  shouldStore : Completion V E → Option (Completion V E) → Bool
  requestsStop : Completion V E → Bool

def StopPolicy.emplace (policy : StopPolicy V E) (c : Completion V E)
    (completions : Option (Completion V E)) : Option (Completion V E) :=
  if policy.shouldStore c completions then some c else completions

def firstSuccessful : StopPolicy V E where
  shouldStore c completions :=
    match c with
    | .value _ => !completions.any Completion.isValue
    | _ => completions.isNone
  requestsStop := Completion.isValue

def firstNoncancelled : StopPolicy V E where
  shouldStore c completions :=
    match c with
    | .stopped => completions.isNone
    | _ => completions.all Completion.isStopped
  requestsStop c := !c.isStopped

def firstComplete : StopPolicy V E where
  shouldStore _ completions := completions.isNone
  requestsStop _ := true

/-- The two operation states. The one without a stop source does not look at the
receiver's token either. -/
def operation (n : ℕ) (hasStopSource : Bool) (policy : StopPolicy V E) :
    Ops n V E (Option (Completion V E)) where
  hasStopSource := hasStopSource
  admits _ _ := true
  init := none
  store _ c completions := policy.emplace c completions
  rest _ c _ := if hasStopSource && policy.requestsStop c then [.requestStop] else []
  arrives _ := true
  outcome rcvrRequested _ completions :=
    if hasStopSource && rcvrRequested then some .stopped else completions

def opState (n : ℕ) (policy : StopPolicy V E) := operation n true policy

def nostopOpState (n : ℕ) (policy : StopPolicy V E) := operation n false policy

/-! ### What is stored -/

/-- What is in `completions` after the children have completed in this order. -/
def StopPolicy.stored (policy : StopPolicy V E) (cs : List (Completion V E)) :
    Option (Completion V E) :=
  cs.foldl (fun completions c => policy.emplace c completions) none

theorem stored_concat (policy : StopPolicy V E) (cs : List (Completion V E)) (c : Completion V E) :
    policy.stored (cs ++ [c]) = policy.emplace c (policy.stored cs) := by
  simp [StopPolicy.stored, List.foldl_append]

/-- What a completion does after its critical section is to request stop. -/
theorem act_requestStop {hasStopSource : Bool} {policy : StopPolicy V E}
    {tr : List (Label n V E)} {s : State n V E (Option (Completion V E))} {i : Fin n}
    {c : Completion V E} {a : Action (Option (Completion V E))}
    {as : List (Action (Option (Completion V E)))} (hn : 0 < n)
    (h : Run (step (operation n hasStopSource policy))
      (operation n hasStopSource policy).initial tr s)
    (hphase : s.phase i = .completing c (a :: as)) : a = .requestStop := by
  have hrec := (reached_of_run hn h).recorded
  obtain ⟨d, hd⟩ := hrec.todo i c ((hrec.completion i c).mp (by rw [hphase]; rfl))
  have hmem : a ∈ (operation n hasStopSource policy).rest i c d :=
    hd.subset (by simp [hphase, Phase.todo])
  simp only [operation] at hmem
  split at hmem <;> simp_all

/-- `completions` is determined by the order in which the children completed. -/
theorem data_of_run {hasStopSource : Bool} {policy : StopPolicy V E} {tr : List (Label n V E)}
    {s : State n V E (Option (Completion V E))} (hn : 0 < n)
    (h : Run (step (operation n hasStopSource policy))
      (operation n hasStopSource policy).initial tr s) :
    s.data = policy.stored ((completions tr).map Prod.snd) := by
  refine Run.induction
    (P := fun tr s => s.data = policy.stored ((completions tr).map Prod.snd)) rfl ?_ h
  intro tr s l s' hr ih hs
  rw [completions_concat]
  cases step_move hs with
  | complete =>
      simp only [Label.completion, Option.toList, List.map_append, List.map_cons, List.map_nil,
        stored_concat, ← ih]
      rfl
  | @act i c a as hphase =>
      obtain rfl := act_requestStop hn hr hphase
      simpa [State.apply, Label.completion] using ih
  | rcvrRequestStop | popStopCb | runStopCb | emplaceStopCb | startStopped | startChildren
  | startChild | arrive | arriveLast | ignore | resetStopCb | finish =>
      simpa [Label.completion] using ih

/-! ### The three policies -/

/-- The earliest completion that is not a set_stopped, or else set_stopped. -/
def earliestNoncancelled (cs : List (Completion V E)) : Completion V E :=
  (cs.find? fun c => !c.isStopped).getD .stopped

theorem earliestNoncancelled_eq_stopped {cs : List (Completion V E)} :
    earliestNoncancelled cs = .stopped ↔ ∀ c ∈ cs, c = .stopped := by
  rw [earliestNoncancelled]
  cases hf : cs.find? fun c => !c.isStopped with
  | none =>
      have hall := List.find?_eq_none.mp hf
      refine iff_of_true rfl fun c hc => ?_
      have hstopped := hall c hc
      cases c with
      | stopped => rfl
      | value | error => simp at hstopped
  | some d =>
      have hd := List.find?_some hf
      have hmem := List.mem_of_find?_eq_some hf
      refine iff_of_false ?_ fun hall => ?_
      · rintro rfl
        simp at hd
      · simp [hall d hmem] at hd

theorem stored_firstNoncancelled {cs : List (Completion V E)} (hcs : cs ≠ []) :
    firstNoncancelled.stored cs = some (earliestNoncancelled cs) := by
  induction cs using List.reverseRecOn with
  | nil => exact absurd rfl hcs
  | append_singleton cs c ih =>
      rw [stored_concat, earliestNoncancelled, List.find?_append]
      rcases eq_or_ne cs [] with rfl | hne
      · cases c <;> rfl
      · rw [ih hne, earliestNoncancelled]
        cases hf : cs.find? fun c => !c.isStopped with
        | none => cases c <;> rfl
        | some d =>
            have hd : d.isStopped = false := by simpa using List.find?_some hf
            cases c <;> simp [StopPolicy.emplace, firstNoncancelled, hd]

theorem stored_firstComplete (cs : List (Completion V E)) :
    firstComplete.stored cs = cs.head? := by
  induction cs using List.reverseRecOn with
  | nil => rfl
  | append_singleton cs c ih =>
      rw [stored_concat, ih]
      cases cs <;> rfl

/-- What `first_successful` stores: the earliest value, or else the earliest completion
of any channel. -/
theorem stored_firstSuccessful (cs : List (Completion V E)) :
    firstSuccessful.stored cs = (cs.find? Completion.isValue).or cs.head? := by
  induction cs using List.reverseRecOn with
  | nil => rfl
  | append_singleton cs c ih =>
      rw [stored_concat, ih, List.find?_append]
      cases hf : cs.find? Completion.isValue with
      | none =>
          have hnone := List.find?_eq_none.mp hf
          cases cs with
          | nil => cases c <;> rfl
          | cons d ds =>
              have hd : d.isValue = false := by simpa using hnone d (by simp)
              cases c <;> simp [StopPolicy.emplace, firstSuccessful, hd]
      | some d =>
          have hd : d.isValue = true := List.find?_some hf
          cases c <;> simp [StopPolicy.emplace, firstSuccessful, hd]

def earliest (cs : List (Completion V E)) : Completion V E := cs.head?.getD .stopped

/-- The earliest value, or else the earliest error, or else set_stopped. -/
def earliestSuccess (cs : List (Completion V E)) : Completion V E :=
  ((cs.find? Completion.isValue).or (cs.find? Completion.isError)).getD .stopped

/-- What `first_successful` chooses. -/
def earliestValueOrFirst (cs : List (Completion V E)) : Completion V E :=
  ((cs.find? Completion.isValue).or cs.head?).getD .stopped

theorem stored_eq_earliest {cs : List (Completion V E)} (hcs : cs ≠ []) :
    firstComplete.stored cs = some (earliest cs) := by
  rw [stored_firstComplete]
  cases cs <;> simp_all [earliest]

theorem stored_eq_earliestValueOrFirst {cs : List (Completion V E)} (hcs : cs ≠ []) :
    firstSuccessful.stored cs = some (earliestValueOrFirst cs) := by
  rw [stored_firstSuccessful]
  cases cs <;> simp_all [earliestValueOrFirst]

/-! ### The results -/

/-- What holds of a `when_any` whose policy chooses by `choice`. -/
structure Raced (hasStopSource : Bool) (policy : StopPolicy V E)
    (choice : List (Completion V E) → Completion V E) (tr : List (Label n V E))
    (s : State n V E (Option (Completion V E))) : Prop
    extends Joined (operation n hasStopSource policy) tr s where
  /-- When all children are back the receiver has been completed, once. -/
  exactly : (∀ i, (s.phase i).returned = true) → s.received.length = 1
  /-- If no stop has been requested by then it got the policy's choice. -/
  unstopped : (∀ i, (s.phase i).returned = true) → s.rcvrRequested = false →
    s.received = [choice ((completions tr).map Prod.snd)]
  /-- It is completed when all children have completed, with set_stopped if its token is
  stop-requested then, or else with the policy's choice. -/
  delivered : ∀ i s', step (operation n hasStopSource policy) s (.finish i) = some s' →
    (∀ j, ∃ c, (j, c) ∈ completions tr) ∧
      s'.received = [if hasStopSource && s.rcvrRequested then .stopped
        else choice ((completions tr).map Prod.snd)]

theorem Raced.of_run {hasStopSource : Bool} {policy : StopPolicy V E}
    {choice : List (Completion V E) → Completion V E}
    (hchoice : ∀ cs, cs ≠ [] → policy.stored cs = some (choice cs))
    {tr : List (Label n V E)} {s : State n V E (Option (Completion V E))} (hn : 0 < n)
    (h : Run (step (operation n hasStopSource policy))
      (operation n hasStopSource policy).initial tr s) :
    Raced hasStopSource policy choice tr s := by
  have houtcome : ∀ tr s i c, Run (step (operation n hasStopSource policy))
      (operation n hasStopSource policy).initial tr s → s.phase i = .deciding c true →
      (operation n hasStopSource policy).outcome s.rcvrRequested s.requested s.data =
        some (if hasStopSource && s.rcvrRequested then .stopped
          else choice ((completions tr).map Prod.snd)) := by
    intro tr s i c hr hphase
    obtain ⟨-, c, hc⟩ := (reached_of_run hn hr).all_completed (i := i)
      (by simp [hphase, Phase.isLast]) i
    have hne : (completions tr).map Prod.snd ≠ [] := by
      simpa using List.ne_nil_of_mem hc
    simp only [operation, data_of_run hn hr, hchoice _ hne]
    split <;> rfl
  have hanswered : Answered (operation n hasStopSource policy)
      (fun tr s => if hasStopSource && s.rcvrRequested then .stopped
        else choice ((completions tr).map Prod.snd))
      (fun order => choice (order.map Prod.snd)) tr s := by
    refine answered_of_run hn (fun _ _ _ => rfl) houtcome (fun tr s _ hreq => ?_) h
    simp [hreq]
  exact { joined_of_run hn (fun _ _ _ => rfl) h, hanswered with }

/-- Without a stop request `first_noncancelled` delivers set_stopped if all children were stopped,
and only then. -/
theorem Raced.stopped_iff {hasStopSource : Bool} {tr : List (Label n V E)}
    {s : State n V E (Option (Completion V E))}
    (h : Raced hasStopSource firstNoncancelled earliestNoncancelled tr s)
    (hback : ∀ i, (s.phase i).returned = true) (hreq : s.rcvrRequested = false) :
    s.received = [.stopped] ↔ ∀ i, (i, .stopped) ∈ completions tr := by
  have hsent (i : Fin n) : ∃ c, (i, c) ∈ completions tr := by
    have hi := hback i
    obtain ⟨c, hc⟩ : ∃ c, (s.phase i).completion = some c := by
      cases hp : s.phase i <;> simp_all [Phase.returned, Phase.completion]
    exact ⟨c, (h.completion i c).mp hc⟩
  rw [h.unstopped hback hreq, List.singleton_inj, earliestNoncancelled_eq_stopped]
  constructor
  · intro hall i
    obtain ⟨c, hc⟩ := hsent i
    obtain rfl := hall c (List.mem_map_of_mem hc)
    exact hc
  · intro hall c hc
    obtain ⟨⟨i, c'⟩, hmem, rfl⟩ := List.mem_map.mp hc
    have hcompletion := (h.completion i c').mpr hmem
    rw [(h.completion i .stopped).mpr (hall i)] at hcompletion
    exact (Option.some.inj hcompletion).symm

/-- `when_any` with the policies `first_noncancelled` and `first_complete`. -/
theorem raced_of_run (hn : 0 < n) :
    (∀ (tr : List (Label n V E)) s, Run (step (opState n firstNoncancelled))
        (opState n firstNoncancelled).initial tr s →
      Raced true firstNoncancelled earliestNoncancelled tr s ∧
        ((∀ i, (s.phase i).returned = true) → s.rcvrRequested = false →
          (s.received = [.stopped] ↔ ∀ i, (i, .stopped) ∈ completions tr))) ∧
    (∀ (tr : List (Label n V E)) s, Run (step (opState n firstComplete))
        (opState n firstComplete).initial tr s → Raced true firstComplete earliest tr s) := by
  constructor
  · intro tr s h
    have hraced : Raced true firstNoncancelled earliestNoncancelled tr s :=
      Raced.of_run (fun cs hcs => stored_firstNoncancelled hcs) hn h
    exact ⟨hraced, hraced.stopped_iff⟩
  · exact fun tr s h => Raced.of_run (fun cs hcs => stored_eq_earliest hcs) hn h

/-- Three children, the second of which completes inside its `start`; the error of the
third one wins, until stop is requested just before the receiver is completed. -/
def stopAtTheEnd : List (Label 3 ℕ ℕ) :=
  [.emplaceStopCb true, .startChildren, .startChild 0, .startChild 1, .complete 1 .stopped,
    .leave 1, .startChild 2, .complete 2 (.error 7), .act 2, .complete 0 .stopped, .leave 0,
    .leave 2, .resetStopCb 2, .rcvrRequestStop]

theorem raced_of_run_stopAtTheEnd :
    ∃ s, Run (step (opState 3 firstNoncancelled)) (opState 3 firstNoncancelled).initial
        stopAtTheEnd s ∧ Raced true firstNoncancelled earliestNoncancelled stopAtTheEnd s := by
  obtain ⟨s, hs⟩ : ∃ s, Run (step (opState 3 firstNoncancelled))
      (opState 3 firstNoncancelled).initial stopAtTheEnd s := exists_run_iff.mpr rfl
  exact ⟨s, hs, ((raced_of_run (by decide)).1 stopAtTheEnd s hs).1⟩

/-! ### `first_successful` -/

/-- The completions from which `first_successful` chooses as it says. -/
def ChoosesSuccess (cs : List (Completion V E)) : Prop :=
  (∃ c ∈ cs, c.isValue = true) ∨ cs.head? ≠ some .stopped ∨ ∀ c ∈ cs, c.isError = false

theorem earliestValueOrFirst_eq_iff {cs : List (Completion V E)} (hcs : cs ≠ []) :
    earliestValueOrFirst cs = earliestSuccess cs ↔ ChoosesSuccess cs := by
  obtain ⟨d, ds, rfl⟩ := List.exists_cons_of_ne_nil hcs
  rw [earliestValueOrFirst, earliestSuccess, ChoosesSuccess]
  cases hv : (d :: ds).find? Completion.isValue with
  | some v =>
      refine iff_of_true rfl (.inl ⟨v, List.mem_of_find?_eq_some hv, ?_⟩)
      simpa using List.find?_some hv
  | none =>
      have hnone := List.find?_eq_none.mp hv
      have hnovalue : ¬ ∃ c ∈ d :: ds, c.isValue = true := by simpa using hnone
      cases d with
      | value v => simp at hv
      | error e => exact iff_of_true (by simp [List.find?_cons]) (.inr (.inl (by simp)))
      | stopped =>
          -- The set_stopped is chosen, which is right if there is no error to report.
          cases he : ds.find? Completion.isError with
          | none =>
              have hnoerror := List.find?_eq_none.mp he
              exact iff_of_true (by simp [he]) (.inr (.inr (by simpa using hnoerror)))
          | some e =>
              have hmem := List.mem_of_find?_eq_some he
              have herror : e.isError = true := List.find?_some he
              refine iff_of_false ?_ ?_
              · simp only [List.head?_cons, Option.none_or, Option.getD_some, List.find?_cons,
                  Completion.isError_stopped, he]
                rintro rfl
                simp at herror
              · rintro (h | h | h)
                · exact hnovalue h
                · exact h rfl
                · simp [h e (List.mem_cons_of_mem _ hmem)] at herror

/-- When all children are back and no stop was requested, the receiver of a
`first_successful` got the earliest value, or else the earliest error, or else
set_stopped, exactly when some child succeeded, the first completion was not a
set_stopped, or there was no error. -/
theorem first_successful_iff (hn : 0 < n) {hasStopSource : Bool} {tr : List (Label n V E)}
    {s : State n V E (Option (Completion V E))}
    (h : Run (step (operation n hasStopSource firstSuccessful))
      (operation n hasStopSource firstSuccessful).initial tr s)
    (hreq : s.rcvrRequested = false) (hback : ∀ i, (s.phase i).returned = true) :
    s.received = [earliestSuccess ((completions tr).map Prod.snd)] ↔
      ChoosesSuccess ((completions tr).map Prod.snd) := by
  have hraced : Raced hasStopSource firstSuccessful earliestValueOrFirst tr s :=
    Raced.of_run (fun cs hcs => stored_eq_earliestValueOrFirst hcs) hn h
  have hne : (completions tr).map Prod.snd ≠ [] := by
    have hfirst := hback ⟨0, hn⟩
    obtain ⟨c, hc⟩ : ∃ c, (s.phase ⟨0, hn⟩).completion = some c := by
      cases hp : s.phase ⟨0, hn⟩ <;> simp_all [Phase.returned, Phase.completion]
    simpa using List.ne_nil_of_mem ((hraced.completion _ c).mp hc)
  rw [hraced.unstopped hback hreq, ← earliestValueOrFirst_eq_iff hne]
  simp

def errorFirst : List (Label 2 ℕ ℕ) :=
  [.emplaceStopCb true, .startChildren, .startChild 0, .startChild 1, .complete 1 (.error 7),
    .leave 1, .complete 0 .stopped, .leave 0, .resetStopCb 0, .finish 0]

theorem first_successful_iff_errorFirst :
    ∃ s, Run (step (opState 2 firstSuccessful)) (opState 2 firstSuccessful).initial errorFirst s ∧
      (s.received = [earliestSuccess [.error 7, .stopped]] ↔
        ChoosesSuccess [Completion.error (V := ℕ) 7, .stopped]) :=
  ⟨_, rfl, @first_successful_iff 2 ℕ ℕ (by decide) true errorFirst _ rfl rfl (by decide)⟩

def stoppedFirst : List (Label 2 ℕ ℕ) :=
  [.emplaceStopCb true, .startChildren, .startChild 0, .startChild 1, .complete 0 .stopped,
    .leave 0, .complete 1 (.error 7), .leave 1, .resetStopCb 1, .finish 1]

/-- A set_stopped that comes before the only error hides it. -/
theorem not_first_successful :
    ¬ ∀ (tr : List (Label 2 ℕ ℕ)) (s : State 2 ℕ ℕ (Option (Completion ℕ ℕ))),
      Run (step (opState 2 firstSuccessful)) (opState 2 firstSuccessful).initial tr s →
      s.rcvrRequested = false → (∀ i, (s.phase i).returned = true) →
      s.received = [earliestSuccess ((completions tr).map Prod.snd)] := by
  intro hall
  have hgot := hall stoppedFirst _ rfl rfl (by decide)
  exact absurd hgot (by decide)

end BaremetalSenders.WhenAny
