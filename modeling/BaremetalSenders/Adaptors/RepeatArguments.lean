import BaremetalSenders.Adaptors.Repeat

/-!
Whether the arguments of a completion still denote what was sent when they are
read.

The predicate reads them while the child that sent them is in `state`.
`passthrough` resets `state` before it completes the receiver, and `repeat`
has put the next child into it before it calls the loop function; references
into the child are dead by then. So what is delivered is what was sent exactly
when the arguments that are delivered do not refer to the child.
-/

namespace BaremetalSenders.Repeat

variable {V P : Type*}

inductive Move (D : Driver V P) (mem : ℕ → ℕ → V) (s : State V P) : Event V → State V P → Prop
  | start (hp : s.phase = .idle) : Move D mem s .start { s.setup with phase := .ready none }
  | beginStop {caller : Option (Args V)} {k : ℕ} (hp : s.phase = .ready caller)
      (hk : s.state = some k) (hchecks : D.checksStop = true) :
      Move D mem s (.begin true) { s with phase := .resetting .stopped ⟨k, []⟩ }
  | begin {caller : Option (Args V)} {k : ℕ} (hp : s.phase = .ready caller)
      (hk : s.state = some k) :
      Move D mem s (.begin false) { s with
        phase := .running
        calls := if D.callsLoopFn then caller.toList ++ s.calls else s.calls }
  | complete {k : ℕ} {ch : Channel} {refs : List (Ref V)} (hp : s.phase = .running)
      (hk : s.state = some k) (hrefs : ∀ r ∈ refs, r.within k = true) :
      Move D mem s (.complete k ch refs) { s with phase := .completing ch ⟨k, refs⟩ }
  | evaluate {args : Args V} {vals : List (Option V)} {stop : Bool}
      (hp : s.phase = .completing D.looped args) (hvals : vals = s.read mem args.refs)
      (hstop : stop = (D.pred s.pred (vals.filterMap id)).1) :
      Move D mem s (.evaluate args.k vals stop) { s with
        pred := (D.pred s.pred (vals.filterMap id)).2
        phase := if stop then .resetting D.looped args else .looping args }
  | again {args : Args V} (hp : s.phase = .looping args) :
      Move D mem s (.again args.k)
        { s.setup with phase := .ready (if D.isSync then none else some args) }
  | pass {ch : Channel} {args : Args V} (hp : s.phase = .completing ch args)
      (hch : ch ≠ D.looped) :
      Move D mem s .reset { s with state := none, phase := .forwarding ch args }
  | reset {ch : Channel} {args : Args V} (hp : s.phase = .resetting ch args) :
      Move D mem s .reset { s with state := none, phase := .forwarding ch args }
  | deliver {ch : Channel} {args : Args V} {vals : List (Option V)}
      (hp : s.phase = .forwarding ch args) (hvals : vals = s.read mem args.refs) :
      Move D mem s (.deliver args.k ch vals) { s with phase := .done }
  | loopFn {args : Args V} {vals : List (Option V)} (hargs : args ∈ s.calls)
      (hvals : vals = s.read mem args.refs) :
      Move D mem s (.loopFn args.k vals)
        { s with calls := s.calls.filter fun args' => args'.k != args.k }

theorem step_move [DecidableEq V] {D : Driver V P} {mem : ℕ → ℕ → V} {s s' : State V P}
    {e : Event V} (hs : step D mem s e = some s') : Move D mem s e s' := by
  cases e with
  | start =>
      simp only [step] at hs
      split at hs <;> cases hs
      next hp => exact .start hp
  | begin stop =>
      simp only [step] at hs
      split at hs
      · next hp hk =>
          split at hs
          · next hstop =>
              split at hs <;> cases hs
              next hchecks =>
                rw [hstop]
                exact .beginStop hp hk hchecks
          · next hstop =>
              cases hs
              rw [Bool.not_eq_true] at hstop
              rw [hstop]
              exact .begin hp hk
      · cases hs
  | complete k ch refs =>
      simp only [step] at hs
      split at hs
      · next hp =>
          split at hs <;> cases hs
          next hc => exact .complete hp hc.1 (List.all_eq_true.mp hc.2)
      · cases hs
  | evaluate k vals stop =>
      simp only [step] at hs
      split at hs
      · next hp =>
          split at hs <;> cases hs
          next hc =>
            obtain ⟨rfl, rfl, hvals, hstop⟩ := hc
            exact .evaluate hp hvals hstop
      · cases hs
  | again k =>
      simp only [step] at hs
      split at hs
      · next hp =>
          split at hs <;> cases hs
          next hk =>
            subst hk
            exact .again hp
      · cases hs
  | reset =>
      simp only [step] at hs
      split at hs
      · next hp =>
          split at hs <;> cases hs
          next hch => exact .pass hp hch
      · next hp =>
          cases hs
          exact .reset hp
      · cases hs
  | deliver k ch vals =>
      simp only [step] at hs
      split at hs
      · next hp =>
          split at hs <;> cases hs
          next hc =>
            obtain ⟨rfl, rfl, hvals⟩ := hc
            exact .deliver hp hvals
      · cases hs
  | loopFn k vals =>
      simp only [step] at hs
      split at hs
      · next args hfind =>
          have hk : args.k = k := by simpa using List.find?_some hfind
          split at hs <;> cases hs
          next hvals =>
            subst hk
            exact .loopFn (List.mem_of_find?_eq_some hfind) hvals
      · cases hs

def sentWith (mem : ℕ → ℕ → V) (refs : List (Ref V)) : List V := refs.map (Ref.sent mem)

/-- The arguments the receiver is about to be completed with. -/
def Phase.forwarded : Phase V → List (Ref V)
  | .forwarding _ args => args.refs
  | _ => []

/-- The side condition of a step: no argument that is about to be delivered, or
handed to the loop function, refers to the storage of a child. -/
def External (s : State V P) : Event V → Prop
  | .deliver _ _ _ => ∀ r ∈ s.phase.forwarded, r.isExt = true
  | .loopFn k _ => ∀ args ∈ s.calls, args.k = k → ∀ r ∈ args.refs, r.isExt = true
  | _ => True

instance External.decidable (s : State V P) : (e : Event V) → Decidable (External s e)
  | .deliver _ _ _ => inferInstanceAs (Decidable (∀ r ∈ s.phase.forwarded, r.isExt = true))
  | .loopFn k _ =>
      inferInstanceAs (Decidable (∀ args ∈ s.calls, args.k = k → ∀ r ∈ args.refs, r.isExt = true))
  | .start | .begin _ | .complete _ _ _ | .evaluate _ _ _ | .again _ | .reset =>
      inferInstanceAs (Decidable True)

/-- Everything the receiver and the loop function are handed is what the child in
question completed with. -/
structure Faithful (D : Driver V P) (mem : ℕ → ℕ → V) (tr : List (Event V)) : Prop where
  deliver : ∀ k ch vals, .deliver k ch vals ∈ tr → ∀ ch' refs, .complete k ch' refs ∈ tr →
    ch = ch' ∧ vals = (sentWith mem refs).map some
  loopFn : ∀ k vals, .loopFn k vals ∈ tr → ∀ ch' refs, .complete k ch' refs ∈ tr →
    ch' = D.looped ∧ vals = (sentWith mem refs).map some

/-! ### Reading references -/

theorem read_within {mem : ℕ → ℕ → V} {k : ℕ} {refs : List (Ref V)}
    (h : ∀ r ∈ refs, r.within k = true) :
    refs.map (Ref.read mem (some k)) = (sentWith mem refs).map some := by
  rw [sentWith, List.map_map]
  refine List.map_congr_left fun r hr => ?_
  cases r with
  | own k' i =>
      obtain rfl : k' = k := by simpa [Ref.within] using h _ hr
      simp [Ref.read, Ref.sent]
  | ext v => rfl

/-- When the child is gone, only what is outside of it can be read. -/
theorem read_gone_iff {m : ℕ → ℕ → V} {k : ℕ} {state : Option ℕ} {refs : List (Ref V)}
    (h : ∀ r ∈ refs, r.within k = true) (hgone : state ≠ some k) :
    refs.map (Ref.read m state) = (sentWith m refs).map some ↔
      ∀ r ∈ refs, r.isExt = true := by
  rw [sentWith, List.map_map, List.map_inj_left]
  refine forall₂_congr fun r hr => ?_
  cases r with
  | own k' i =>
      obtain rfl : k' = k := by simpa [Ref.within] using h _ hr
      simp [Ref.read, Ref.isExt, hgone]
  | ext v => simp [Ref.read, Ref.sent, Ref.isExt]

/-! ### Where the arguments are -/

/-- The arguments `args` are those child `args.k` completed with, on channel
`ch`, in the run `tr`. -/
def Origin (tr : List (Event V)) (ch : Channel) (args : Args V) : Prop :=
  .complete args.k ch args.refs ∈ tr

/-- What the place the adaptor is at says about the child in `state`. -/
def PhaseOk (D : Driver V P) (tr : List (Event V)) (s : State V P) : Prop :=
  match s.phase with
  | .idle | .done => True
  | .ready caller => (∃ k, s.state = some k ∧ ∀ ch refs, .complete k ch refs ∉ tr) ∧
      ∀ args ∈ caller, Origin tr D.looped args
  | .running => ∃ k, s.state = some k ∧ ∀ ch refs, .complete k ch refs ∉ tr
  | .completing ch args => s.state = some args.k ∧ Origin tr ch args
  | .looping args => s.state = some args.k ∧ Origin tr D.looped args
  | .resetting ch args => Origin tr ch args ∨
      args.refs = [] ∧ ∀ ch refs, .complete args.k ch refs ∉ tr
  | .forwarding ch args => s.state = none ∧ (Origin tr ch args ∨
      args.refs = [] ∧ ∀ ch refs, .complete args.k ch refs ∉ tr)

/-- The invariant: children complete once, with references to themselves, and
only the youngest child is in `state`. -/
structure Inv (D : Driver V P) (tr : List (Event V)) (s : State V P) : Prop where
  state : ∀ k, s.state = some k → k + 1 = s.next
  born : ∀ k ch refs, .complete k ch refs ∈ tr → k < s.next
  once : ∀ k ch refs ch' refs', .complete k ch refs ∈ tr → .complete k ch' refs' ∈ tr →
    ch = ch' ∧ refs = refs'
  within : ∀ k ch refs, .complete k ch refs ∈ tr → ∀ r ∈ refs, r.within k = true
  phase : PhaseOk D tr s
  calls : ∀ args ∈ s.calls, Origin tr D.looped args ∧ s.state ≠ some args.k
  called : ∀ k vals, .loopFn k vals ∈ tr → ∃ ch refs, .complete k ch refs ∈ tr
  delivered : ∀ k ch vals, .deliver k ch vals ∈ tr → s.phase = .done

def Event.isComplete : Event V → Bool
  | .complete _ _ _ => true
  | _ => false

theorem complete_mem_concat {tr : List (Event V)} {e : Event V} (he : e.isComplete = false)
    {k : ℕ} {ch : Channel} {refs : List (Ref V)} :
    .complete k ch refs ∈ tr ++ [e] ↔ .complete k ch refs ∈ tr := by
  rw [List.mem_append, List.mem_singleton, or_iff_left]
  rintro rfl
  cases he

/-- What the invariant says about the completions does not change with a step
that is none. -/
theorem Inv.frame {D : Driver V P} {tr : List (Event V)} {s s' : State V P} {e : Event V}
    (h : Inv D tr s) (he : e.isComplete = false) (hborn : s.next ≤ s'.next)
    (hstate : ∀ k, s'.state = some k → k + 1 = s'.next) (hphase : PhaseOk D tr s')
    (hcalls : ∀ args ∈ s'.calls, Origin tr D.looped args ∧ s'.state ≠ some args.k)
    (hcalled : ∀ k vals, e = .loopFn k vals → ∃ ch refs, .complete k ch refs ∈ tr)
    (hdone : s.phase ≠ .done ∧ (∀ k ch vals, e ≠ .deliver k ch vals) ∨ s'.phase = .done) :
    Inv D (tr ++ [e]) s' := by
  have hmem : ∀ {k ch refs}, .complete k ch refs ∈ tr ++ [e] ↔ .complete k ch refs ∈ tr :=
    complete_mem_concat he
  constructor
  · exact hstate
  · intro k ch refs hc
    exact Nat.lt_of_lt_of_le (h.born k ch refs (hmem.mp hc)) hborn
  · intro k ch refs ch' refs' hc hc'
    exact h.once k ch refs ch' refs' (hmem.mp hc) (hmem.mp hc')
  · intro k ch refs hc
    exact h.within k ch refs (hmem.mp hc)
  · simpa only [PhaseOk, Origin, hmem] using hphase
  · simpa only [Origin, hmem] using hcalls
  · intro k vals hl
    simp only [hmem]
    rcases List.mem_append.mp hl with hl | hl
    · exact h.called k vals hl
    · exact hcalled k vals (List.mem_singleton.mp hl).symm
  · intro k ch vals hd
    rcases hdone with ⟨hnot, hno⟩ | hdone
    · rcases List.mem_append.mp hd with hd | hd
      · exact absurd (h.delivered k ch vals hd) hnot
      · exact absurd (List.mem_singleton.mp hd).symm (hno k ch vals)
    · exact hdone

/-- A new child is put into `state`. -/
theorem Inv.setup {D : Driver V P} {tr : List (Event V)} {s : State V P} (h : Inv D tr s) :
    (∀ k, s.setup.state = some k → k + 1 = s.setup.next) ∧
      (∀ ch refs, .complete s.next ch refs ∉ tr) ∧
      ∀ args ∈ s.calls, Origin tr D.looped args ∧ s.setup.state ≠ some args.k := by
  refine ⟨by simp [State.setup], fun ch refs hc => Nat.lt_irrefl _ (h.born _ ch refs hc), ?_⟩
  intro args hargs
  obtain ⟨horigin, -⟩ := h.calls args hargs
  refine ⟨horigin, fun hk => ?_⟩
  have hlt := h.born _ _ _ horigin
  have heq : s.next = args.k := Option.some.inj hk
  omega

variable [DecidableEq V] {D : Driver V P} {mem : ℕ → ℕ → V}

omit [DecidableEq V] in
/-- A child completes, for the first time. -/
theorem Inv.complete {tr : List (Event V)} {s : State V P} (h : Inv D tr s) {k : ℕ}
    {ch : Channel} {refs : List (Ref V)} (hp : s.phase = .running) (hk : s.state = some k)
    (hwithin : ∀ r ∈ refs, r.within k = true) :
    Inv D (tr ++ [.complete k ch refs]) { s with phase := .completing ch ⟨k, refs⟩ } := by
  have hnone : ∀ ch refs, .complete k ch refs ∉ tr := by
    have hphase := h.phase
    simp only [PhaseOk, hp] at hphase
    obtain ⟨k', hk', hnone⟩ := hphase
    obtain rfl := Option.some.inj (hk.symm.trans hk')
    exact hnone
  have hmem : ∀ {k' ch' refs'}, .complete k' ch' refs' ∈ tr ++ [.complete k ch refs] →
      .complete k' ch' refs' ∈ tr ∨ k' = k ∧ ch' = ch ∧ refs' = refs := by
    intro k' ch' refs' hc
    simpa using hc
  constructor
  · exact h.state
  · intro k' ch' refs' hc
    rcases hmem hc with hc | ⟨rfl, -, -⟩
    · exact h.born k' ch' refs' hc
    · have := h.state k' hk
      simp only
      omega
  · intro k' ch₁ refs₁ ch₂ refs₂ h₁ h₂
    rcases hmem h₁ with hold₁ | ⟨rfl, rfl, rfl⟩
    · rcases hmem h₂ with hold₂ | ⟨rfl, -, -⟩
      · exact h.once k' ch₁ refs₁ ch₂ refs₂ hold₁ hold₂
      · exact absurd hold₁ (hnone ch₁ refs₁)
    · rcases hmem h₂ with hold₂ | ⟨-, rfl, rfl⟩
      · exact absurd hold₂ (hnone ch₂ refs₂)
      · exact ⟨rfl, rfl⟩
  · intro k' ch' refs' hc
    rcases hmem hc with hc | ⟨rfl, -, rfl⟩
    · exact h.within k' ch' refs' hc
    · exact hwithin
  · simp [PhaseOk, Origin, hk]
  · intro args hargs
    obtain ⟨horigin, hne⟩ := h.calls args hargs
    exact ⟨List.mem_append_left _ horigin, hne⟩
  · intro k' vals hl
    obtain ⟨ch', refs', hc⟩ := h.called k' vals (by simpa using hl)
    exact ⟨ch', refs', List.mem_append_left _ hc⟩
  · intro k' ch' vals hd
    have := h.delivered k' ch' vals (by simpa using hd)
    rw [hp] at this
    cases this

theorem inv_step {tr : List (Event V)} {s s' : State V P} {e : Event V} (h : Inv D tr s)
    (hs : step D mem s e = some s') : Inv D (tr ++ [e]) s' := by
  have hphase := h.phase
  cases step_move hs with
  | start hp =>
      obtain ⟨hstate, hnew, hcalls⟩ := h.setup
      exact h.frame rfl (by simp [State.setup]) hstate ⟨⟨s.next, rfl, hnew⟩, by simp⟩ hcalls
        (by simp) (.inl (by simp [hp]))
  | @beginStop caller k hp hk =>
      simp only [PhaseOk, hp] at hphase
      obtain ⟨⟨k', hk', hnone⟩, -⟩ := hphase
      obtain rfl := Option.some.inj (hk.symm.trans hk')
      exact h.frame rfl (Nat.le_refl _) h.state (.inr ⟨rfl, hnone⟩) h.calls (by simp)
        (.inl (by simp [hp]))
  | @begin caller k hp hk =>
      simp only [PhaseOk, hp] at hphase
      obtain ⟨⟨k', hk', hnone⟩, hcaller⟩ := hphase
      obtain rfl := Option.some.inj (hk.symm.trans hk')
      refine h.frame rfl (Nat.le_refl _) h.state ⟨k, hk, hnone⟩ (fun args hargs => ?_)
        (by simp) (.inl (by simp [hp]))
      have hargs' : args ∈ caller ∨ args ∈ s.calls := by
        simp only at hargs
        split at hargs
        · simpa using hargs
        · exact .inr hargs
      rcases hargs' with hargs' | hargs'
      · refine ⟨hcaller args hargs', fun hargsk => ?_⟩
        obtain rfl := Option.some.inj (hk.symm.trans hargsk)
        exact hnone _ _ (hcaller args hargs')
      · exact h.calls args hargs'
  | complete hp hk hrefs => exact h.complete hp hk hrefs
  | @evaluate args vals stop hp =>
      simp only [PhaseOk, hp] at hphase
      refine h.frame rfl (Nat.le_refl _) h.state ?_ h.calls (by simp) (.inl (by simp [hp]))
      cases stop with
      | true => exact .inl hphase.2
      | false => exact hphase
  | again hp =>
      simp only [PhaseOk, hp] at hphase
      obtain ⟨hstate, hnew, hcalls⟩ := h.setup
      refine h.frame rfl (by simp [State.setup]) hstate ⟨⟨s.next, rfl, hnew⟩, ?_⟩ hcalls
        (by simp) (.inl (by simp [hp]))
      cases D.isSync <;> simp [hphase.2]
  | pass hp =>
      simp only [PhaseOk, hp] at hphase
      refine h.frame rfl (Nat.le_refl _) (by simp) ⟨rfl, .inl hphase.2⟩ (fun args hargs => ?_)
        (by simp) (.inl (by simp [hp]))
      exact ⟨(h.calls args hargs).1, by simp⟩
  | reset hp =>
      simp only [PhaseOk, hp] at hphase
      refine h.frame rfl (Nat.le_refl _) (by simp) ⟨rfl, hphase⟩ (fun args hargs => ?_)
        (by simp) (.inl (by simp [hp]))
      exact ⟨(h.calls args hargs).1, by simp⟩
  | deliver => exact h.frame rfl (Nat.le_refl _) h.state True.intro h.calls (by simp) (.inr rfl)
  | @loopFn args vals hargs =>
      refine h.frame rfl (Nat.le_refl _) h.state hphase (fun args hargs => ?_) ?_ ?_
      · exact h.calls args (List.mem_filter.mp hargs).1
      · rintro k' vals' ⟨rfl, rfl⟩
        exact ⟨D.looped, args.refs, (h.calls args hargs).1⟩
      · by_cases hdone : s.phase = .done
        · exact .inr hdone
        · exact .inl ⟨hdone, by simp⟩

theorem inv_of_run {p : P} {tr : List (Event V)} {s : State V P}
    (h : Run (step D mem) (.init p) tr s) : Inv D tr s := by
  refine Run.induction (P := Inv D) ?_ (fun _ _ _ _ _ ih hs => inv_step ih hs) h
  constructor <;> simp [State.init, PhaseOk]

/-! ### What is delivered -/

/-- What the event hands out is what the child in question completed with. -/
def Event.Good (D : Driver V P) (mem : ℕ → ℕ → V) (tr : List (Event V)) : Event V → Prop
  | .deliver k ch vals => ∀ ch' refs, .complete k ch' refs ∈ tr →
      ch = ch' ∧ vals = (sentWith mem refs).map some
  | .loopFn k vals => ∀ ch' refs, .complete k ch' refs ∈ tr →
      ch' = D.looped ∧ vals = (sentWith mem refs).map some
  | _ => True

omit [DecidableEq V] in
/-- The completion of a child comes before anything that is done with it. -/
theorem faithful_concat_iff {tr : List (Event V)} {s : State V P} {e : Event V} (h : Inv D tr s)
    (hnew : ∀ k ch refs, e = .complete k ch refs →
      s.phase = .running ∧ ∀ ch refs, .complete k ch refs ∉ tr) :
    Faithful D mem (tr ++ [e]) ↔ Faithful D mem tr ∧ e.Good D mem tr := by
  have hcomplete : ∀ {k ch refs}, .complete k ch refs ∈ tr ++ [e] →
      .complete k ch refs ∈ tr ∨ e = .complete k ch refs := by
    intro k ch refs hc
    rcases List.mem_append.mp hc with hc | hc
    · exact .inl hc
    · exact .inr (List.mem_singleton.mp hc).symm
  constructor
  · intro hf
    refine ⟨⟨fun k ch vals hd ch' refs hc => ?_, fun k vals hl ch' refs hc => ?_⟩, ?_⟩
    · exact hf.deliver k ch vals (List.mem_append_left _ hd) ch' refs (List.mem_append_left _ hc)
    · exact hf.loopFn k vals (List.mem_append_left _ hl) ch' refs (List.mem_append_left _ hc)
    · cases e with
      | deliver k ch vals =>
          exact fun ch' refs hc => hf.deliver k ch vals (by simp) ch' refs
            (List.mem_append_left _ hc)
      | loopFn k vals =>
          exact fun ch' refs hc => hf.loopFn k vals (by simp) ch' refs (List.mem_append_left _ hc)
      | _ => exact True.intro
  · rintro ⟨hf, hgood⟩
    constructor
    · intro k ch vals hd ch' refs hc
      rcases List.mem_append.mp hd with hold | hlast
      · rcases hcomplete hc with hc | rfl
        · exact hf.deliver k ch vals hold ch' refs hc
        · have hrun := (hnew k ch' refs rfl).1
          rw [h.delivered k ch vals hold] at hrun
          cases hrun
      · obtain rfl := List.mem_singleton.mp hlast
        rcases hcomplete hc with hc | hc
        · exact hgood ch' refs hc
        · cases hc
    · intro k vals hl ch' refs hc
      rcases List.mem_append.mp hl with hold | hlast
      · rcases hcomplete hc with hc | rfl
        · exact hf.loopFn k vals hold ch' refs hc
        · obtain ⟨ch₁, refs₁, hearlier⟩ := h.called k vals hold
          exact absurd hearlier ((hnew k ch' refs rfl).2 ch₁ refs₁)
      · obtain rfl := List.mem_singleton.mp hlast
        rcases hcomplete hc with hc | hc
        · exact hgood ch' refs hc
        · cases hc

theorem good_iff_external {tr : List (Event V)} {s s' : State V P} {e : Event V}
    (h : Inv D tr s) (hs : step D mem s e = some s') : e.Good D mem tr ↔ External s e := by
  cases step_move hs with
  | @deliver ch args vals hp hvals =>
      have hphase := h.phase
      simp only [PhaseOk, hp] at hphase
      obtain ⟨hstate, horigin⟩ := hphase
      subst hvals
      simp only [Event.Good, External, hp, Phase.forwarded]
      rcases horigin with horigin | ⟨hnil, hnone⟩
      · have hgone : s.state ≠ some args.k := by simp [hstate]
        have hread := read_gone_iff (m := mem) (h.within _ _ _ horigin) hgone
        rw [← hread]
        constructor
        · exact fun hgood => (hgood ch args.refs horigin).2
        · intro heq ch₁ refs₁ hc
          obtain ⟨rfl, rfl⟩ := h.once _ _ _ _ _ horigin hc
          exact ⟨rfl, heq⟩
      · simp [hnil, hnone]
  | @loopFn args vals hargs hvals =>
      obtain ⟨horigin, hgone⟩ := h.calls args hargs
      have hread := read_gone_iff (m := mem) (h.within _ _ _ horigin) hgone
      subst hvals
      simp only [Event.Good, External]
      constructor
      · intro hgood args' hargs' hk
        have horigin' := (h.calls args' hargs').1
        simp only [Origin, hk] at horigin'
        rw [← (h.once _ _ _ _ _ horigin horigin').2]
        exact hread.mp (hgood _ _ horigin).2
      · intro hext ch refs hc
        obtain ⟨rfl, rfl⟩ := h.once _ _ _ _ _ horigin hc
        exact ⟨rfl, hread.mpr (hext args hargs rfl)⟩
  | start | beginStop | begin | complete | evaluate | again | pass | reset => exact Iff.rfl

/-- Everything that is delivered downstream or handed to the loop function is
what the child completed with exactly when none of it refers to the child. -/
theorem repeat_delivers_iff {p : P} {tr : List (Event V)} {s : State V P}
    (h : Run (step D mem) (.init p) tr s) :
    Faithful D mem tr ↔ EachStep (step D mem) External (.init p) tr := by
  refine Run.induction (P := fun tr _ => Faithful D mem tr ↔
    EachStep (step D mem) External (.init p) tr) ?_ ?_ h
  · exact ⟨fun _ => True.intro, fun _ => ⟨by simp, by simp⟩⟩
  · intro tr s e s' hr ih hs
    have hinv := inv_of_run hr
    rw [eachStep_concat_iff hr, ← ih, ← good_iff_external hinv hs]
    refine faithful_concat_iff hinv fun k ch refs he => ?_
    subst he
    have hphase := hinv.phase
    cases step_move hs with
    | complete hp hk =>
        simp only [PhaseOk, hp] at hphase
        obtain ⟨k', hk', hnone⟩ := hphase
        obtain rfl := Option.some.inj (hk'.symm.trans hk)
        exact ⟨hp, hnone⟩

/-- The predicate is asked about what the child completed with: the child is
still there. -/
theorem evaluate_reads_sent {p : P} {tr : List (Event V)} {s s' : State V P} {k : ℕ}
    {vals : List (Option V)} {stop : Bool} (h : Run (step D mem) (.init p) tr s)
    (hs : step D mem s (.evaluate k vals stop) = some s') :
    ∃ refs, .complete k D.looped refs ∈ tr ∧ vals = (sentWith mem refs).map some ∧
      stop = (D.pred s.pred (sentWith mem refs)).1 := by
  have hinv := inv_of_run h
  have hphase := hinv.phase
  cases step_move hs with
  | @evaluate args vals stop hp hvals hstop =>
      simp only [PhaseOk, hp] at hphase
      obtain ⟨hstate, horigin⟩ := hphase
      have hread : s.read mem args.refs = (sentWith mem args.refs).map some := by
        rw [State.read, hstate]
        exact read_within (hinv.within _ _ _ horigin)
      refine ⟨args.refs, horigin, hvals.trans hread, ?_⟩
      rw [hstop, hvals, hread]
      simp

/-- One iteration with a child that stores what it sends, as `just` does. -/
def ownTrace (delivered : Option ℕ) (r : Ref ℕ) : List (Event ℕ) :=
  [.start, .begin false, .complete 0 .value [r], .evaluate 0 [some 7] true, .reset,
    .deliver 0 .value [delivered]]

/-- With a child that stores what it sends, the receiver reads a child that has
been destroyed. -/
theorem repeat_n_reads_destroyed : ¬ ∀ (mem : ℕ → ℕ → ℕ) (tr : List (Event ℕ))
    (s : State ℕ UInt32), Run (step (repeatN true true) mem) (.init 0) tr s →
      Faithful (repeatN true true) mem tr := by
  intro h
  obtain ⟨s, hs⟩ : ∃ s, Run (step (repeatN true true) fun _ _ => 7) (.init 0)
      (ownTrace none (.own 0 0)) s := exists_run_iff.mpr rfl
  have := (h _ _ s hs).deliver 0 .value [none] (by simp [ownTrace]) .value [.own 0 0]
    (by simp [ownTrace])
  cases this.2

theorem repeat_n_delivers_external : ∃ s : State ℕ UInt32,
    Run (step (repeatN true true) fun _ _ => 0) (.init 0) (ownTrace (some 7) (.ext 7)) s ∧
      Faithful (repeatN true true) (fun _ _ => 0) (ownTrace (some 7) (.ext 7)) := by
  obtain ⟨s, hs⟩ : ∃ s, Run (step (repeatN true true) fun _ _ => 0) (.init 0)
      (ownTrace (some 7) (.ext 7)) s := exists_run_iff.mpr rfl
  exact ⟨s, hs, (repeat_delivers_iff hs).mpr (by decide)⟩

end BaremetalSenders.Repeat
