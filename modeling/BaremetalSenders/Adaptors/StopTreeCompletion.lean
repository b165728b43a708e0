import BaremetalSenders.Adaptors.StopTreeCancel
import BaremetalSenders.Adaptors.StopTreeCallbacks

/-!
A tree comes to its end, and is then at its end everywhere.

When a node has completed its receiver, nothing goes on below it: what has been
started there has completed, and nothing is started any more. And until the
topmost node has, some step is possible that nobody outside has to take, if the
completions of the children are those their parents expect: no call waits for
itself, and no stop request for the completion it is to bring about.
-/

namespace BaremetalSenders.StopTree

open Join

universe u v

variable {V : Type u} {E : Type v}

/-! ### What a node sends -/

namespace Kind

variable {n : ℕ} {kind : Kind n V E} {i : Fin n} {js : List (Join.Label n (List V) E)}
  {o : Join.State n (List V) E kind.Data} {c r : Completion (List V) E}

/-- What `complete` may make of the completions of the children. -/
def Answers : Kind n V E → List (Fin n × Completion (List V) E) → Completion (List V) E → Prop
  | .whenAny policy, order, r => r = .stopped ∨ policy.stored (order.map Prod.snd) = some r
  | .whenAll _, order, r => ∃ stop, WhenAll.gathered order stop = r

/-- A stop policy stores the first completion in any case. -/
def StoresFirst : Kind n V E → Prop
  | .whenAny policy => ∀ c, policy.shouldStore c none = true
  | .whenAll _ => True

theorem arrives_ops (kind : Kind n V E) (c : Completion (List V) E) :
    kind.ops.arrives c = true := by
  cases kind <;> rfl

theorem answers_of_outcome (hn : 0 < n) (h : Run (Join.step kind.ops) kind.ops.initial js o)
    (hphase : o.phase i = .deciding c true)
    (hr : kind.ops.outcome o.rcvrRequested o.requested o.data = some r) :
    kind.Answers (completions js) r := by
  cases kind with
  | whenAny policy =>
      have hdata := WhenAny.data_of_run hn h
      by_cases hreq : o.rcvrRequested = true
      · simp only [ops, WhenAny.opState, WhenAny.operation, hreq, Bool.and_self] at hr
        exact .inl (Option.some.inj hr).symm
      · simp only [ops, WhenAny.opState, WhenAny.operation, hreq, Bool.and_false,
          Bool.false_eq_true] at hr
        exact .inr (hdata.symm.trans hr)
  | whenAll children =>
      exact ⟨_, Option.some.inj ((WhenAll.outcome_of_deciding hn h hphase).symm.trans hr)⟩

theorem stored_ne_none {policy : WhenAny.StopPolicy (List V) E}
    {cs : List (Completion (List V) E)} (hstores : ∀ c, policy.shouldStore c none = true)
    (hcs : cs ≠ []) : policy.stored cs ≠ none := by
  induction cs using List.reverseRecOn with
  | nil => exact absurd rfl hcs
  | append_singleton cs c ih =>
      rw [WhenAny.stored_concat, WhenAny.StopPolicy.emplace]
      split
      · simp
      next hnot =>
        refine ih fun hnil => hnot ?_
        subst hnil
        exact hstores c

/-- There is something to send when all children have completed. -/
theorem exists_outcome (hstores : kind.StoresFirst) (hn : 0 < n)
    (h : Run (Join.step kind.ops) kind.ops.initial js o) (hphase : o.phase i = .deciding c true) :
    ∃ r, kind.ops.outcome o.rcvrRequested o.requested o.data = some r := by
  cases kind with
  | whenAny policy =>
      have hdata := WhenAny.data_of_run hn h
      obtain ⟨c', hc'⟩ := ((Join.reached_of_run hn h).all_completed (i := i)
        (by simp [hphase, Phase.isLast]) i).2
      have hne : (completions js).map Prod.snd ≠ [] := by simpa using List.ne_nil_of_mem hc'
      obtain ⟨r, hr⟩ := Option.ne_none_iff_exists'.mp (stored_ne_none hstores hne)
      by_cases hreq : o.rcvrRequested = true
      · exact ⟨.stopped, if_pos (by simpa using hreq)⟩
      · exact ⟨r, (if_neg (by simpa using hreq)).trans (hdata.trans hr)⟩
  | whenAll children => exact ⟨_, WhenAll.outcome_of_deciding hn h hphase⟩

/-- When all children are back the receiver has got something. -/
theorem received_of_returned (hstores : kind.StoresFirst) (hn : 0 < n)
    (h : Run (Join.step kind.ops) kind.ops.initial js o)
    (hback : ∀ i, (o.phase i).returned = true) : o.received ≠ [] := by
  obtain ⟨i, hi⟩ := (joined_of_run hn (fun _ c _ => kind.arrives_ops c) h).finished hback
  obtain ⟨r, hr, -⟩ := received_of_finished (Q := fun _ _ _ => True) hn
    (fun _ _ _ _ hr hphase => (exists_outcome hstores hn hr hphase).imp fun _ hr => ⟨hr, trivial⟩)
    (fun _ _ _ _ _ _ _ _ => trivial) h hi
  simp [hr]

end Kind

/-- What the nodes and leaves of a tree send, if the leaves send what `R` says: a node sends what
it makes of what its children send, or that it has been stopped. -/
inductive Sends (T : Tree V E) (R : Path → Completion (List V) E → Prop) :
    Path → Completion (List V) E → Prop
  | leaf {p : Path} {c : Completion (List V) E} (hp : T.leaf p = true) (hc : R p c) : Sends T R p c
  | stopped {p : Path} (hp : T.leaf p = false) : Sends T R p .stopped
  | node {p : Path} {order : List (Fin (T.node p).arity × Completion (List V) E)}
      {r : Completion (List V) E} (hp : T.leaf p = false)
      (hchildren : ∀ i c, (i, c) ∈ order → Sends T R (i :: p) c)
      (hr : (T.node p).kind.Answers order r) : Sends T R p r

theorem Sends.mono {T : Tree V E} {R R' : Path → Completion (List V) E → Prop} {p : Path}
    {c : Completion (List V) E} (h : Sends T R p c)
    (hR : ∀ q c, T.leaf q = true → R q c → R' q c) : Sends T R' p c := by
  induction h with
  | leaf hp hc => exact .leaf hp (hR _ _ hp hc)
  | stopped hp => exact .stopped hp
  | node hp _ hr ih => exact .node hp ih hr

/-- What a parent expects of its children. -/
def Tree.Expects (T : Tree V E) : Path → Completion (List V) E → Prop
  | [], _ => False
  | i :: p, c => ∃ h : i < (T.node p).arity, (T.ops p).admits ⟨i, h⟩ c = true

/-- What the types of the senders say: every child can complete in some way that its parent
expects, and a node only in such ways. -/
structure WellTyped (T : Tree V E) : Prop where
  leaf : ∀ p (i : Fin (T.node p).arity), T.leaf p = false → T.leaf (i :: p) = true →
    ∃ c, (T.ops p).admits i c = true
  node : ∀ p (i : Fin (T.node p).arity) c, T.leaf p = false → T.leaf (i :: p) = false →
    Sends T T.Expects (i :: p) c → (T.ops p).admits i c = true
  stores : ∀ p, T.leaf p = false → (T.node p).kind.StoresFirst

variable {T : Tree V E} [DecidableEq V] [DecidableEq E] {s s' : State T} {tr tr' : List (Label T)}
  {l : Label T} {p q : Path} {x : Option Path}

/-- What has been sent to a parent. -/
def State.Sent (s : State T) : Path → Completion (List V) E → Prop
  | [], _ => False
  | i :: p, c => ∃ h : i < (T.node p).arity, ((s.op p).phase ⟨i, h⟩).completion = some c

structure Typed (s : State T) : Prop where
  received : ∀ p c, T.leaf p = false → c ∈ (s.op p).received → Sends T s.Sent p c
  completion : ∀ p (i : Fin (T.node p).arity) c, ((s.op p).phase i).completion = some c →
    Sends T s.Sent (i :: p) c

omit [DecidableEq V] [DecidableEq E] in
theorem typed_init : Typed (.init : State T) where
  received := fun _ _ _ hc => by cases hc
  completion := fun _ _ _ hc => by cases hc

theorem sent_step (hr : Run step .init tr s) (hs : StopTree.step s l = some s') {q : Path}
    {c : Completion (List V) E} (h : s.Sent q c) : s'.Sent q c := by
  cases q with
  | nil => exact h
  | cons i p =>
      obtain ⟨hi, hc⟩ := h
      obtain ⟨js, hjs⟩ := view_of_run hr p
      rcases op_step hs p with hop | ⟨jl, ho, -⟩
      · exact ⟨hi, by rwa [hop]⟩
      · exact ⟨hi, (Join.completion_step (T.node p).arity_pos hjs ho ⟨i, hi⟩ c).mpr (.inl hc)⟩

theorem expects_of_sent (hr : Run step .init tr s) {q : Path} {c : Completion (List V) E}
    (h : s.Sent q c) : T.Expects q c := by
  cases q with
  | nil => exact h
  | cons i p =>
      obtain ⟨hi, hc⟩ := h
      obtain ⟨js, hreached⟩ := reached_of_run hr p
      exact ⟨hi, hreached.recorded.admitted _ c ((hreached.recorded.completion _ c).mp hc)⟩

theorem received_cases {n : ℕ} {V E D : Type*} {ops : Ops n V E D} {o o' : Join.State n V E D}
    {jl : Join.Label n V E} {c : Completion V E} (ho : Join.step ops o jl = some o')
    (hc : c ∈ o'.received) : c ∈ o.received ∨ c = .stopped ∨
      ∃ i c', o.phase i = .deciding c' true ∧
        ops.outcome o.rcvrRequested o.requested o.data = some c := by
  cases Join.step_move ho with
  | startStopped =>
      rcases List.mem_append.mp hc with hc | hc
      · exact .inl hc
      · exact .inr (.inl (by simpa using hc))
  | @finish i c' hphase =>
      rcases List.mem_append.mp hc with hc | hc
      · exact .inl hc
      · exact .inr (.inr ⟨i, c', hphase, by simpa using hc⟩)
  | @act i c' a => cases a <;> exact .inl hc
  | rcvrRequestStop | popStopCb | runStopCb | emplaceStopCb | startChildren | startChild | complete
  | arrive | arriveLast | ignore | resetStopCb => exact .inl hc

theorem Typed.step (h : Typed s) (hr : Run step .init tr s) (hs : StopTree.step s l = some s') :
    Typed s' := by
  have hmono {p : Path} {c : Completion (List V) E} (hc : Sends T s.Sent p c) :
      Sends T s'.Sent p c := hc.mono fun _ _ _ => sent_step hr hs
  refine ⟨fun p c hp hc => ?_, fun p i c hc => ?_⟩
  · obtain ⟨js, hjs⟩ := view_of_run hr p
    have hn := (T.node p).arity_pos
    rcases op_step hs p with hop | ⟨jl, ho, -⟩
    · exact hmono (h.received p c hp (hop ▸ hc))
    · rcases received_cases ho hc with hold | rfl | ⟨i, c', hphase, hout⟩
      · exact hmono (h.received p c hp hold)
      · exact .stopped hp
      · refine .node hp (fun j c hmem => ?_) (Kind.answers_of_outcome hn hjs hphase hout)
        exact hmono (h.completion p j c
          ((Join.reached_of_run hn hjs).recorded.completion j c |>.mpr hmem))
  · obtain ⟨js, hjs⟩ := view_of_run hr p
    rcases op_step hs p with hop | ⟨jl, ho, hwho⟩
    · exact hmono (h.completion p i c (hop ▸ hc))
    · rcases (Join.completion_step (T.node p).arity_pos hjs ho i c).mp hc with hold | rfl
      · exact hmono (h.completion p i c hold)
      · rcases hwho with ⟨-, hallowed⟩ | ⟨m, -, hpair⟩
        · simp only [State.allowsOp] at hallowed
          cases hleaf : T.leaf (i :: p) with
          | true => exact .leaf hleaf ⟨i.isLt, hc⟩
          | false => exact hmono (h.received _ c hleaf (by simp_all))
        · cases hpair

theorem typed_of_run (h : Run step .init tr s) : Typed s :=
  Run.induction (P := fun _ s => Typed s) typed_init (fun _ _ _ _ hr ih hs => ih.step hr hs) h

/-! ### Nothing goes on below -/

/-- It is not at work: it has not begun, or it has completed. -/
def Through (s : State T) (p : Path) : Prop :=
  s.running p = false ∧ ((s.source (token p)).life p ≠ .unborn → Completed s p)

/-- A node that has not begun or has completed has no children at work. -/
theorem through_child (h : Run step .init tr s)
    (hp : T.leaf p = false → (s.source (token p)).life p = .unborn ∨ (s.op p).received ≠ [])
    (i : ℕ) : Through s (i :: p) := by
  have hattached := attached_of_run h
  have hchild (hleaf : T.leaf p = false) (j : Fin (T.node p).arity) :
      (s.op p).phase j = .idle ∨ ∃ c, ((s.op p).phase j).completion = some c := by
    obtain ⟨js, hreached⟩ := reached_of_run h p
    rcases hp hleaf with hunborn | hreceived
    · exact .inl (idle_of_unborn h hleaf hunborn j)
    · rcases hreached.early hreceived with ⟨-, -, -, hidle⟩ | hall
      · exact .inl (hidle j)
      · exact .inr ((hall j).imp fun c hc => (hreached.recorded.completion j c).mpr hc)
  constructor
  · by_contra hrunning
    obtain ⟨hleaf, j, -, hj⟩ := running_cons.mp (by simpa using hrunning)
    rcases hchild hleaf j with hidle | ⟨c, hc⟩
    · simp [hj] at hidle
    · simp [hj, Phase.completion] at hc
  · intro hborn
    obtain ⟨hleaf, j, rfl, hj⟩ := hattached.started i p hborn
    rcases hchild hleaf j with hidle | ⟨c, hc⟩
    · simp [hidle, Phase.isIdle] at hj
    · exact hattached.completed p j c hc

theorem Through.below (h : Run step .init tr s) (hp : Through s p) (i : ℕ) :
    Through s (i :: p) := by
  refine through_child h (fun hleaf => ?_) i
  by_cases hborn : (s.source (token p)).life p = .unborn
  · exact .inl hborn
  · exact .inr ((hp.2 hborn).node hleaf)

/-- Nothing goes on below a node that has completed. -/
theorem through_of_received (h : Run step .init tr s) (hreceived : (s.op p).received ≠ []) :
    ∀ q, p <:+ q → q ≠ p → Through s q := by
  intro q
  induction q with
  | nil => exact fun hq hne => absurd (List.suffix_nil.mp hq).symm hne
  | cons i q ih =>
      intro hq hne
      rcases eq_or_ne q p with rfl | hne'
      · exact through_child h (fun _ => .inr hreceived) i
      · have hq' : p <:+ q := (List.suffix_cons_iff.mp hq).resolve_left fun e => hne e.symm
        exact (ih hq' hne').below h i

theorem received_isPrefix {n : ℕ} {V E D : Type*} {ops : Ops n V E D} {o o' : Join.State n V E D}
    {jl : Join.Label n V E} (ho : Join.step ops o jl = some o') : o.received <+: o'.received := by
  cases Join.step_move ho with
  | startStopped | finish => exact List.prefix_append ..
  | @act i c a => cases a <;> exact List.prefix_rfl
  | rcvrRequestStop | popStopCb | runStopCb | emplaceStopCb | startChildren | startChild | complete
  | arrive | arriveLast | ignore | resetStopCb => exact List.prefix_rfl

/-- What a node has sent is all it ever sends. -/
theorem received_of_run (h : Run step .init tr s) (hreceived : (s.op p).received ≠ [])
    (hr : Run step s tr' s') : (s'.op p).received = (s.op p).received := by
  have hkept : (s.op p).received <+: (s'.op p).received := by
    refine Run.induction (P := fun _ s' => (s.op p).received <+: (s'.op p).received)
      List.prefix_rfl ?_ hr
    intro _ s₁ l s₂ _ ih hs
    rcases op_step hs p with hop | ⟨jl, ho, -⟩
    · rwa [hop]
    · exact ih.trans (received_isPrefix (o := s₁.view p) ho)
  obtain ⟨js, hreached⟩ := reached_of_run (run_append.mpr ⟨s, h, hr⟩) p
  have hle : (s'.op p).received.length ≤ 1 := hreached.counted.received_le
  have hpos := List.length_pos_iff.mpr hreceived
  exact (hkept.eq_of_length_le (by omega)).symm

theorem sends_of_received (h : Run step .init tr s) (hp : T.leaf p = false)
    (hreceived : (s.op p).received ≠ []) :
    ∃ c, Sends T s.Sent p c ∧ (s.op p).received = [c] := by
  obtain ⟨js, hreached⟩ := reached_of_run h p
  have hle : (s.op p).received.length ≤ 1 := hreached.counted.received_le
  have hpos := List.length_pos_iff.mpr hreceived
  obtain ⟨c, hc⟩ := List.length_eq_one_iff.mp (show (s.op p).received.length = 1 by omega)
  exact ⟨c, (typed_of_run h).received p c hp (by simp [hc]), hc⟩

/-- A node completes its receiver once, with what it makes of what the leaves below it have sent.
From then on nothing below it is both started and not completed, and nothing is started there. -/
theorem ended_of_received (h : Run step .init tr s) (hp : T.leaf p = false)
    (hreceived : (s.op p).received ≠ []) (hr : Run step s tr' s') :
    (∃ c, Sends T s.Sent p c ∧ (s.op p).received = [c] ∧ (s'.op p).received = [c]) ∧
      ∀ q, p <:+ q → q ≠ p → Through s' q := by
  have hsame := received_of_run h hreceived hr
  obtain ⟨c, hsends, hc⟩ := sends_of_received h hp hreceived
  refine ⟨⟨c, hsends, hc, hsame.trans hc⟩, ?_⟩
  exact through_of_received (run_append.mpr ⟨s, h, hr⟩) (hsame ▸ hreceived)

/-- The first leaf wins, and the second one stops for it. -/
def raceWon : List (Label race) :=
  raceStarted ++ [.complete [0], .source (some []) (.unregister [0] true),
    .op [] (.complete (0 : Fin 2) (.value [7])), .both [] (.act (0 : Fin 2)) (.exchange (.child 0)),
    .source (some []) (.getNextCb (.child 0) (some [1])), .source (some []) (.run (.child 0) [1]),
    .complete [1], .op [] (.complete (1 : Fin 2) .stopped),
    .both [] (.act (1 : Fin 2)) (.exchange (.child 1)), .op [] (.leave (1 : Fin 2)),
    .source (some []) (.ran (.child 0) [1]), .source (some []) (.getNextCb (.child 0) none),
    .op [] (.leave (0 : Fin 2)), .both [] (.resetStopCb (0 : Fin 2)) (.unregister [] true),
    .op [] (.finish (0 : Fin 2))]

theorem ended_of_received_raceWon : ∃ s, Run step .init raceWon s ∧
    (∃ c, Sends race s.Sent [] c ∧ (s.op []).received = [c]) ∧ Through s [1] := by
  have hexec : (exec step .init raceWon).map (fun s => (s.op []).received) =
    some [.value [7]] := rfl
  obtain ⟨s, hs, hreceived⟩ := Option.map_eq_some_iff.mp hexec
  obtain ⟨⟨c, hc, hsent, -⟩, hbelow⟩ :=
    ended_of_received (p := []) hs rfl (by simp [hreceived]) (run_nil.mpr rfl)
  exact ⟨s, hs, ⟨c, hc, hsent⟩, hbelow [1] (List.nil_suffix ..) (by simp)⟩

end BaremetalSenders.StopTree
