import BaremetalSenders.Adaptors.RepeatArguments

/-!
The iteration that `repeat_until` and `retry_until` are for.

The reference is a recursive function: look whether to stop, start the child,
ask the predicate if the child has completed on the looped channel, and go on
if the predicate says no. What it depends on is given: how each child
completes, and whether stop has been requested when the adaptor looks for the
n-th time. What the operation state does is a beginning of what the reference
does, and everything the reference does is done in some run.
-/

namespace BaremetalSenders.Repeat

variable {V P : Type*}

/-- What is not the adaptor's choice: how child number `k` completes, and whether stop has been
requested when `begin_loop` looks before it starts this child. -/
structure Inputs (V : Type*) where
  outcome : ℕ → Channel × List (Ref V)
  stop : ℕ → Bool
  within : ∀ k, (outcome k).2.all (Ref.within k) = true

/-- What is compared: the starts of children, the evaluations of the predicate with what it is
asked and says, and the completion of the receiver. -/
inductive Observation (V : Type*) where
  | started
  | evaluated (k : ℕ) (vals : List (Option V)) (stop : Bool)
  | finished (k : ℕ) (ch : Channel)
  deriving DecidableEq

def Inputs.sent (I : Inputs V) (mem : ℕ → ℕ → V) (k : ℕ) : List V := sentWith mem (I.outcome k).2

/-- The reference once child number `k` has been started. `again` is how it goes on if the
predicate says no. -/
def answered (D : Driver V P) (mem : ℕ → ℕ → V) (I : Inputs V) (k : ℕ) (p : P)
    (again : P → List (Observation V)) : List (Observation V) :=
  if (I.outcome k).1 = D.looped then
    .evaluated k ((I.sent mem k).map some) (D.pred p (I.sent mem k)).1 ::
      if (D.pred p (I.sent mem k)).1 then [.finished k (I.outcome k).1]
      else again (D.pred p (I.sent mem k)).2
  else [.finished k (I.outcome k).1]

/-- The reference: the first `n` iterations from child number `k` on, with the predicate's
state `p`. -/
def iterate (D : Driver V P) (mem : ℕ → ℕ → V) (I : Inputs V) : ℕ → ℕ → P → List (Observation V)
  | 0, _, _ => []
  | n + 1, k, p =>
      if D.checksStop && I.stop k then [.finished k .stopped]
      else .started :: answered D mem I k p (iterate D mem I n (k + 1))

def Event.observation : Event V → Option (Observation V)
  | .begin false => some .started
  | .evaluate k vals stop => some (.evaluated k vals stop)
  | .deliver k ch _ => some (.finished k ch)
  | _ => none

def observed (tr : List (Event V)) : List (Observation V) := tr.filterMap Event.observation

/-- The side condition of a step: the environment does what is given. -/
def Follows (D : Driver V P) (I : Inputs V) (s : State V P) : Event V → Prop
  | .complete k ch refs => I.outcome k = (ch, refs)
  | .begin stop => ∀ k, s.state = some k → stop = (D.checksStop && I.stop k)
  | _ => True

theorem observed_concat (tr : List (Event V)) (e : Event V) :
    observed (tr ++ [e]) = observed tr ++ e.observation.toList := by
  rw [observed, List.filterMap_append]
  cases h : e.observation <;> simp [observed, h]

theorem answered_mono {D : Driver V P} {mem : ℕ → ℕ → V} {I : Inputs V} {k : ℕ} {p : P}
    {again again' : P → List (Observation V)} (h : ∀ p, again p <+: again' p) :
    answered D mem I k p again <+: answered D mem I k p again' := by
  simp only [answered]
  split
  · refine (List.prefix_cons_inj _).mpr ?_
    split
    · exact List.prefix_refl _
    · exact h _
  · exact List.prefix_refl _

/-- More iterations do not change what the first ones do. -/
theorem iterate_mono {D : Driver V P} {mem : ℕ → ℕ → V} {I : Inputs V} {m n : ℕ} (hmn : m ≤ n)
    (k : ℕ) (p : P) : iterate D mem I m k p <+: iterate D mem I n k p := by
  induction m generalizing n k p with
  | zero => exact List.nil_prefix
  | succ m ih =>
      obtain ⟨n, rfl⟩ : ∃ n', n = n' + 1 := ⟨n - 1, by omega⟩
      simp only [iterate]
      split
      · exact List.prefix_refl _
      · exact (List.prefix_cons_inj _).mpr (answered_mono (ih (by omega) (k + 1)))

/-- The reference does not depend on the rest of the driver. -/
theorem iterate_congr {D D' : Driver V P} {mem : ℕ → ℕ → V} {I : Inputs V}
    (hlooped : D.looped = D'.looped) (hpred : D.pred = D'.pred)
    (hchecks : D.checksStop = D'.checksStop) : iterate D mem I = iterate D' mem I := by
  funext n
  induction n with
  | zero => rfl
  | succ n ih =>
      funext k p
      simp only [iterate, answered, hlooped, hpred, hchecks, ih]

/-! ### What the operation state does -/

/-- What the reference still has to do when the operation state is in state `s`. -/
def State.rest (D : Driver V P) (mem : ℕ → ℕ → V) (I : Inputs V) (n : ℕ) (s : State V P) :
    List (Observation V) :=
  match s.phase with
  | .idle => iterate D mem I n 0 s.pred
  | .ready _ => iterate D mem I n (s.next - 1) s.pred
  | .running => answered D mem I (s.next - 1) s.pred (iterate D mem I n s.next)
  | .completing _ args => answered D mem I args.k s.pred (iterate D mem I n (args.k + 1))
  | .looping args => iterate D mem I n (args.k + 1) s.pred
  | .resetting ch args | .forwarding ch args => [.finished args.k ch]
  | .done => []

/-- What has been observed, followed by what the reference still has to do, is the reference. -/
structure Accounted (D : Driver V P) (mem : ℕ → ℕ → V) (I : Inputs V) (p : P)
    (tr : List (Event V)) (s : State V P) : Prop where
  rest : ∃ m, ∀ n, iterate D mem I (n + m) 0 p = observed tr ++ s.rest D mem I n
  idle : s.phase = .idle → s.next = 0
  outcome : ∀ ch args, s.phase = .completing ch args → I.outcome args.k = (ch, args.refs)

variable {D : Driver V P} {mem : ℕ → ℕ → V} {I : Inputs V} {p : P} {tr : List (Event V)}
  {s s' : State V P} {e : Event V}

/-- A step that is not observed and that the reference does not have. -/
theorem Accounted.silent (h : Accounted D mem I p tr s) (he : e.observation = none)
    (hrest : ∀ n, s'.rest D mem I n = s.rest D mem I n) (hidle : s'.phase ≠ .idle)
    (houtcome : ∀ ch args, s'.phase = .completing ch args → I.outcome args.k = (ch, args.refs)) :
    Accounted D mem I p (tr ++ [e]) s' where
  rest := by
    obtain ⟨m, hm⟩ := h.rest
    exact ⟨m, fun n => by simp [hm n, observed_concat, he, hrest n]⟩
  idle := fun hphase => absurd hphase hidle
  outcome := houtcome

/-- A step the reference has too. -/
theorem Accounted.observe (h : Accounted D mem I p tr s) {j : ℕ}
    (hrest : ∀ n, s.rest D mem I (n + j) = e.observation.toList ++ s'.rest D mem I n)
    (hidle : s'.phase ≠ .idle) (houtcome : ∀ ch args, s'.phase ≠ .completing ch args) :
    Accounted D mem I p (tr ++ [e]) s' where
  rest := by
    obtain ⟨m, hm⟩ := h.rest
    refine ⟨j + m, fun n => ?_⟩
    rw [← Nat.add_assoc, hm, hrest, observed_concat, List.append_assoc]
  idle := fun hphase => absurd hphase hidle
  outcome := fun ch args hphase => absurd hphase (houtcome ch args)

variable [DecidableEq V]

theorem Accounted.step (hinv : Inv D tr s) (h : Accounted D mem I p tr s)
    (hfollows : Follows D I s e) (hs : step D mem s e = some s') :
    Accounted D mem I p (tr ++ [e]) s' := by
  have hphase := hinv.phase
  cases step_move hs with
  | start hp =>
      refine h.silent rfl (fun n => ?_) (by simp) (by simp)
      simp [State.rest, hp, State.setup, h.idle hp]
  | @beginStop caller k hp hk =>
      obtain hnext : s.next = k + 1 := (hinv.state k hk).symm
      have hstop := hfollows k hk
      refine h.observe (j := 1) (fun n => ?_) (by simp) (by simp)
      simp [State.rest, hp, hnext, iterate, ← hstop, Event.observation]
  | @begin caller k hp hk =>
      obtain hnext : s.next = k + 1 := (hinv.state k hk).symm
      have hstop := hfollows k hk
      refine h.observe (j := 1) (fun n => ?_) (by simp) (by simp)
      simp [State.rest, hp, hnext, iterate, ← hstop, Event.observation]
  | @complete k ch refs hp hk =>
      obtain hnext : s.next = k + 1 := (hinv.state k hk).symm
      refine h.silent rfl (fun n => ?_) (by simp) ?_
      · simp [State.rest, hp, hnext]
      · rintro _ _ ⟨⟩
        exact hfollows
  | @evaluate args vals stop hp hvals hstop =>
      simp only [PhaseOk, hp] at hphase
      subst hvals hstop
      have hout := h.outcome _ _ hp
      have hread : s.read mem args.refs = (I.sent mem args.k).map some := by
        rw [State.read, hphase.1, Inputs.sent, hout]
        exact read_within (hinv.within _ _ _ hphase.2)
      refine h.observe (j := 0) (fun n => ?_) ?_ ?_
      · simp only [Nat.add_zero, State.rest, hp, answered, hout, if_true, hread]
        cases hstop : (D.pred s.pred (I.sent mem args.k)).1 <;>
          simp [Event.observation, hstop]
      · dsimp only
        split <;> simp
      · dsimp only
        split <;> simp
  | again hp =>
      simp only [PhaseOk, hp] at hphase
      refine h.silent rfl (fun n => ?_) (by simp) (by simp)
      simp [State.rest, hp, State.setup, ← hinv.state _ hphase.1]
  | pass hp hch =>
      refine h.silent rfl (fun n => ?_) (by simp) (by simp)
      simp [State.rest, hp, answered, h.outcome _ _ hp, hch]
  | reset hp =>
      refine h.silent rfl (fun n => ?_) (by simp) (by simp)
      simp [State.rest, hp]
  | deliver hp =>
      refine h.observe (j := 0) (fun n => ?_) (by simp) (by simp)
      simp [State.rest, hp, Event.observation]
  | loopFn =>
      refine ⟨?_, h.idle, h.outcome⟩
      obtain ⟨m, hm⟩ := h.rest
      refine ⟨m, fun n => ?_⟩
      rw [hm n, observed_concat]
      simp [Event.observation, State.rest]

/-- What is observed is a beginning of what the reference does. -/
theorem reference_of_run (h : Run (step D mem) (.init p) tr s)
    (hfollows : EachStep (step D mem) (Follows D I) (.init p) tr) :
    Accounted D mem I p tr s := by
  refine Run.induction_of_eachStep (P := Accounted D mem I p) ?_
    (fun _ _ _ _ hr ih hf hs => ih.step (inv_of_run hr) hf hs) h hfollows
  exact ⟨⟨0, fun n => by simp [observed, State.rest, State.init]⟩, fun _ => rfl,
    by simp [State.init]⟩

/-! ### What the reference does is done -/

/-- From `s`, doing what is given, the operation state comes to something that is observed. -/
def Emits (D : Driver V P) (mem : ℕ → ℕ → V) (I : Inputs V) (s : State V P) : Prop :=
  ∃ tr s' x, Run (step D mem) s tr s' ∧ EachStep (step D mem) (Follows D I) s tr ∧
    observed tr = [x]

theorem Emits.of_step {x : Observation V} (hs : step D mem s e = some s')
    (hfollows : Follows D I s e) (he : e.observation = some x) : Emits D mem I s :=
  ⟨[e], s', x, by simpa using hs, ⟨hfollows, fun _ _ => True.intro⟩, by simp [observed, he]⟩

/-- A step that is not observed comes before. -/
theorem Emits.silent (h : Emits D mem I s') (hs : step D mem s e = some s')
    (hfollows : Follows D I s e) (he : e.observation = none) : Emits D mem I s := by
  obtain ⟨tr, s'', x, hrun, heach, hx⟩ := h
  refine ⟨e :: tr, s'', x, run_cons.mpr ⟨s', hs, hrun⟩, ⟨hfollows, fun u hu => ?_⟩, ?_⟩
  · obtain rfl := Option.some.inj (hs.symm.trans hu)
    exact heach
  · simpa [observed, he] using hx

theorem emits_forwarding {ch : Channel} {args : Args V} (hp : s.phase = .forwarding ch args) :
    Emits D mem I s :=
  have hs : step D mem s (.deliver args.k ch (s.read mem args.refs)) =
      some { s with phase := .done } := by simp [Repeat.step, hp]
  .of_step hs True.intro rfl

theorem emits_resetting {ch : Channel} {args : Args V} (hp : s.phase = .resetting ch args) :
    Emits D mem I s :=
  (emits_forwarding (s := { s with state := none, phase := .forwarding ch args }) rfl).silent
    (e := .reset) (by simp [Repeat.step, hp]) True.intro rfl

theorem emits_completing {ch : Channel} {args : Args V} (hp : s.phase = .completing ch args) :
    Emits D mem I s := by
  by_cases hch : ch = D.looped
  · exact .of_step (e := .evaluate args.k (s.read mem args.refs)
      (D.pred s.pred ((s.read mem args.refs).filterMap id)).1)
      (by simp only [Repeat.step, hp, hch, and_self, if_true]; rfl) True.intro rfl
  · exact (emits_forwarding (s := { s with state := none, phase := .forwarding ch args })
      rfl).silent (e := .reset) (by simp [Repeat.step, hp, hch]) True.intro rfl

theorem emits_running {k : ℕ} (hp : s.phase = .running) (hk : s.state = some k) :
    Emits D mem I s :=
  (emits_completing (s := { s with phase := .completing (I.outcome k).1 ⟨k, (I.outcome k).2⟩ })
    rfl).silent (e := .complete k (I.outcome k).1 (I.outcome k).2)
    (by simpa [Repeat.step, hp, hk] using I.within k) rfl rfl

theorem emits_ready {k : ℕ} {caller : Option (Args V)} (hp : s.phase = .ready caller)
    (hk : s.state = some k) : Emits D mem I s := by
  cases hstop : D.checksStop && I.stop k with
  | true =>
      have hchecks : D.checksStop = true := (Bool.and_eq_true_iff.mp hstop).1
      refine (emits_resetting (s := { s with phase := .resetting .stopped ⟨k, []⟩ }) rfl).silent
        (e := .begin true) (by simp [Repeat.step, hp, hk, hchecks]) (fun k' hk' => ?_) rfl
      rw [← Option.some.inj (hk.symm.trans hk'), hstop]
  | false =>
      refine .of_step (e := .begin false) (by simp only [Repeat.step, hp, hk]; rfl)
        (fun k' hk' => ?_) rfl
      rw [← Option.some.inj (hk.symm.trans hk'), hstop]

theorem emits_of_run (h : Run (step D mem) (.init p) tr s) (hdone : s.phase ≠ .done) :
    Emits D mem I s := by
  have hphase := (inv_of_run h).phase
  cases hp : s.phase with
  | idle =>
      exact (emits_ready (s := { s.setup with phase := .ready none }) rfl rfl).silent
        (e := .start) (by simp [Repeat.step, hp]) True.intro rfl
  | ready caller =>
      simp only [PhaseOk, hp] at hphase
      obtain ⟨⟨k, hk, -⟩, -⟩ := hphase
      exact emits_ready hp hk
  | running =>
      simp only [PhaseOk, hp] at hphase
      obtain ⟨k, hk, -⟩ := hphase
      exact emits_running hp hk
  | completing ch args => exact emits_completing hp
  | looping args =>
      exact (emits_ready (s := { s.setup with
        phase := .ready (if D.isSync then none else some args) }) rfl rfl).silent
        (e := .again args.k) (by simp [Repeat.step, hp]) True.intro rfl
  | resetting ch args => exact emits_resetting hp
  | forwarding ch args => exact emits_forwarding hp
  | done => exact absurd hp hdone

/-- A sequence that is observed in some run in which the environment does what is given. -/
def Observed (D : Driver V P) (mem : ℕ → ℕ → V) (I : Inputs V) (p : P)
    (l : List (Observation V)) : Prop :=
  ∃ tr s, Run (step D mem) (.init p) tr s ∧
    EachStep (step D mem) (Follows D I) (.init p) tr ∧ observed tr = l

/-- What is observed are the beginnings of what the reference does. -/
theorem observed_iff {l : List (Observation V)} :
    Observed D mem I p l ↔ ∃ n, l <+: iterate D mem I n 0 p := by
  constructor
  · rintro ⟨tr, s, hrun, hfollows, rfl⟩
    obtain ⟨m, hm⟩ := (reference_of_run hrun hfollows).rest
    exact ⟨0 + m, hm 0 ▸ List.prefix_append _ _⟩
  · rintro ⟨n, hl⟩
    induction l using List.reverseRecOn with
    | nil => exact ⟨[], _, run_nil.mpr rfl, True.intro, rfl⟩
    | append_singleton l x ih =>
        obtain ⟨tr, s, hrun, hfollows, hobs⟩ := ih ((List.prefix_append _ _).trans hl)
        obtain ⟨m, hm⟩ := (reference_of_run hrun hfollows).rest
        -- The reference goes on with `x`, so the operation has not completed.
        have hx : [x] <+: s.rest D mem I n := by
          have hlong := hl.trans (iterate_mono (Nat.le_add_right n m) 0 p)
          rwa [hm n, hobs, List.prefix_append_right_inj] at hlong
        have hdone : s.phase ≠ .done := by
          intro hp
          simp [State.rest, hp] at hx
        obtain ⟨tr', s', y, hrun', heach', hy⟩ := emits_of_run (I := I) hrun hdone
        have hrun'' : Run (step D mem) (.init p) (tr ++ tr') s' := run_append.mpr ⟨s, hrun, hrun'⟩
        have heach'' := hfollows.append hrun heach'
        have hall : observed (tr ++ tr') = l ++ [y] := by
          rw [observed, List.filterMap_append, ← observed, ← observed, hobs, hy]
        obtain ⟨m', hm'⟩ := (reference_of_run hrun'' heach'').rest
        have hlong := hl.trans (iterate_mono (Nat.le_add_right n m') 0 p)
        rw [hm' n, hall, List.append_assoc, List.prefix_append_right_inj] at hlong
        obtain rfl : x = y := by simpa using hlong
        exact ⟨tr ++ tr', s', hrun'', heach'', hall⟩

/-! ### The predicate -/

/-- The children whose completion the predicate has been asked about. -/
def Event.evaluated : Event V → Option ℕ
  | .evaluate k _ _ => some k
  | _ => none

/-- The children that have completed on the looped channel. -/
def Event.loopedOn (looped : Channel) : Event V → Option ℕ
  | .complete k ch _ => if ch = looped then some k else none
  | _ => none

/-- The child whose completion the predicate is about to be asked about. -/
def State.toEvaluate (looped : Channel) (s : State V P) : Option ℕ :=
  match s.phase with
  | .completing ch args => if ch = looped then some args.k else none
  | _ => none

/-- The predicate is asked once about each completion on the looped channel, in their order. -/
theorem evaluated_of_run (h : Run (step D mem) (.init p) tr s) :
    tr.filterMap Event.evaluated ++ (s.toEvaluate D.looped).toList =
      tr.filterMap (Event.loopedOn D.looped) := by
  refine Run.induction (P := fun tr s => tr.filterMap Event.evaluated ++
    (s.toEvaluate D.looped).toList = tr.filterMap (Event.loopedOn D.looped)) rfl ?_ h
  intro tr s e s' _ ih hs
  rw [List.filterMap_append, List.filterMap_append, ← ih, List.append_assoc, List.append_assoc]
  congr 1
  have hsingle (f : Event V → Option ℕ) : [e].filterMap f = (f e).toList := by
    cases h : f e <;> simp [h]
  rw [hsingle, hsingle]
  have hkeep (he : e.evaluated = none) (hl : e.loopedOn D.looped = none)
      (hsame : s'.toEvaluate D.looped = s.toEvaluate D.looped) :
      e.evaluated.toList ++ (s'.toEvaluate D.looped).toList =
        (s.toEvaluate D.looped).toList ++ (e.loopedOn D.looped).toList := by
    simp [he, hl, hsame]
  cases step_move hs with
  | start hp | beginStop hp | begin hp | again hp | reset hp | deliver hp =>
      exact hkeep rfl rfl (by simp [State.toEvaluate, hp])
  | complete hp => simp [State.toEvaluate, hp, Event.evaluated, Event.loopedOn]
  | @evaluate args vals stop hp =>
      cases stop <;> simp [State.toEvaluate, hp, Event.evaluated, Event.loopedOn]
  | pass hp hch => exact hkeep rfl rfl (by simp [State.toEvaluate, hp, hch])
  | loopFn => exact hkeep rfl rfl rfl

/-! ### `repeat_n` -/

/-- What `repeat_n` does with a child that always succeeds, from child number `k` on, when the
predicate will say no `c` times. -/
def countdown (mem : ℕ → ℕ → V) (I : Inputs V) : ℕ → ℕ → List (Observation V)
  | 0, k => [.started, .evaluated k ((I.sent mem k).map some) true, .finished k .value]
  | c + 1, k =>
      .started :: .evaluated k ((I.sent mem k).map some) false :: countdown mem I c (k + 1)

theorem count_countdown (c k : ℕ) : (countdown mem I c k).count .started = c + 1 := by
  induction c generalizing k with
  | zero => simp [countdown]
  | succ c ih => simp [countdown, ih]

omit [DecidableEq V] in
theorem getLast?_countdown (c k : ℕ) :
    (countdown mem I c k).getLast? = some (.finished (k + c) .value) := by
  induction c generalizing k with
  | zero => rfl
  | succ c ih =>
      have hne : countdown mem I c (k + 1) ≠ [] := by
        intro hnil
        have := ih (k + 1)
        simp [hnil] at this
      obtain ⟨x, l, hl⟩ := List.exists_cons_of_ne_nil hne
      have hlast := ih (k + 1)
      simp only [countdown, hl, List.getLast?_cons_cons] at hlast ⊢
      rw [hlast]
      congr 2
      omega

/-- The counter is decremented each time, so it says yes when it has been decremented to 0. -/
theorem iterate_repeatN {isSync checksStop : Bool} (hvalue : ∀ k, (I.outcome k).1 = .value)
    (hstop : ∀ k, (checksStop && I.stop k) = false) {n : ℕ} {c : UInt32} (hn : c.toNat < n)
    (k : ℕ) : iterate (repeatN isSync checksStop) mem I n k c = countdown mem I c.toNat k := by
  induction n generalizing c k with
  | zero => omega
  | succ n ih =>
      have hstart : (repeatN (V := V) isSync checksStop).checksStop = checksStop := rfl
      have hpred : (repeatN (V := V) isSync checksStop).pred c (I.sent mem k) =
          (c == 0, c - 1) := rfl
      have hlooped : (repeatN (V := V) isSync checksStop).looped = .value := rfl
      simp only [iterate, answered, hstart, hstop, hvalue, hlooped, hpred, Bool.false_eq_true,
        if_false, if_true]
      rcases eq_or_ne c 0 with rfl | hc
      · rfl
      · have hpos : 1 ≤ c.toNat := by
          by_contra hzero
          exact hc (UInt32.toNat_inj.mp (by simp; omega))
        have hdec : (c - 1).toNat = c.toNat - 1 :=
          UInt32.toNat_sub_of_le _ _ (UInt32.le_iff_toNat_le.mpr hpos)
        obtain ⟨m, hm⟩ : ∃ m, c.toNat = m + 1 := ⟨c.toNat - 1, by omega⟩
        have hnot : (c == 0) = false := by simpa using hc
        rw [ih (by omega), hdec, hm]
        simp [countdown, hnot]

end BaremetalSenders.Repeat
