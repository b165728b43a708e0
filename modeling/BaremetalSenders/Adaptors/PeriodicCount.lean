import BaremetalSenders.Adaptors.PeriodicRepeat
import Mathlib.Tactic.Ring

/-!
How often `periodic_n(d, n)` inside `repeat_n(m)` starts its child, and when its
timer tasks stay those of a child that is there.

The count is an equation between the starts so far and those that are left,
which are read off the two counters and where the two operations are; it does
not depend on what returning completions do to the place. What depends on it is
whether the child that is waited for is still there.
-/

namespace BaremetalSenders.Periodic

open Timer (ExpirationProvider)
open Repeat (Channel Args repeatN)

variable {β τ δ : Type*} [DecidableEq β] [LT τ] [DecidableLT τ] [HAdd τ δ τ] [Inhabited τ]
  {fused : Bool} {d : δ} {expiry : δ → τ → ExpirationProvider τ} {policy : ExpirationPolicy δ}
  {checksStop : Bool} {n m : UInt32}

/-! ### The starts -/

def RepeatedEvent.startsChild : RepeatedEvent β τ δ → Bool
  | .outer (.begin false) _ | .inner (.restart _) => true
  | _ => false

def starts (tr : List (RepeatedEvent β τ δ)) : ℕ := tr.countP RepeatedEvent.startsChild

/-- Children are scheduled and complete with a value, and nobody is stopped. -/
def RepeatedEvent.isPlain : RepeatedEvent β τ δ → Bool
  | .outer (.begin true) _ | .inner .stopped => false
  | .outer (.begin false) readings | .inner (.restart readings) => readings.isSome
  | .inner (.complete _ ch) => ch == .value
  | _ => true

/-- The starts of its child that an operation has in front of it. -/
def Op.left (op : Op UInt32 τ) : ℕ :=
  match op.phase with
  | .connected | .restarting => op.pred.toNat + 1
  | .running | .completing => op.pred.toNat
  | .passing _ | .completed => 0

/-- The same for what is in the place. -/
def State.left (s : State UInt32 β τ δ) : ℕ := s.slot.elim 0 Op.left

def Repeated.left (n : UInt32) (s : Repeated β τ δ) : ℕ :=
  match s.outer.phase with
  | .idle | .looping _ => (s.outer.pred.toNat + 1) * (n.toNat + 1)
  | .ready _ | .running => s.inner.left + s.outer.pred.toNat * (n.toNat + 1)
  | .completing _ _ => s.outer.pred.toNat * (n.toNat + 1)
  | .resetting _ _ | .forwarding _ _ | .done => 0

theorem toNat_sub_one {q : UInt32} (hq : (q == 0) = false) : (q - 1).toNat + 1 = q.toNat := by
  have hne : q.toNat ≠ 0 := fun h0 => by
    have : q = 0 := UInt32.toNat_inj.mp h0
    simp [this] at hq
  have hle : (1 : UInt32) ≤ q := by
    rw [UInt32.le_iff_toNat_le]
    exact Nat.one_le_iff_ne_zero.mpr hne
  rw [UInt32.toNat_sub_of_le q 1 hle]
  exact Nat.sub_add_cancel (Nat.one_le_iff_ne_zero.mpr hne)

/-! ### Where the two operations are -/

/-- Where the periodic operation is while the repeat operation is somewhere. -/
def Joined (s : Repeated β τ δ) : Prop :=
  match s.outer.phase with
  | .ready _ => s.outer.state.isSome = true ∧ ∃ op, s.inner.slot = some op ∧ op.phase = .connected
  | .running => s.outer.state.isSome = true ∧ ∃ op, s.inner.slot = some op ∧ op.unused = false
  | _ => s.inner.unused = true

structure Valued (s : Repeated β τ δ) : Prop where
  passing : ∀ op ch, s.inner.slot = some op → op.phase = .passing ch → ch = .value
  completing : ∀ ch args, s.outer.phase = .completing ch args → ch = .value

/-- A step that is not the owner's keeps an operation in use in use, and does
nothing to the phase of one that is not. -/
theorem Move.internal {P : Type*} {S : Sender P τ δ} {s s' : State P β τ δ} {e : Event P β τ δ}
    (h : Move fused S s e s') (he : e.isInternal = true) :
    (s.slot = none ∧ s'.slot = none) ∨ ∃ op op', s.slot = some op ∧ s'.slot = some op' ∧
      (op'.phase = op.phase ∨ op.unused = false ∧ op'.unused = false) := by
  cases h with
  | construct | destroy | start | deliver => cases he
  | complete k ch op hop hphase =>
      refine .inr ⟨op, _, hop, rfl, .inr ⟨by simp [Op.unused, hphase], ?_⟩⟩
      cases ch <;> rfl
  | evaluate op hop hphase =>
      refine .inr ⟨op, _, hop, rfl, .inr ⟨by simp [Op.unused, hphase], ?_⟩⟩
      cases hstop : (S.pred op.pred).1 <;> simp [Op.unused]
  | restart readings op tp t hop hphase =>
      exact .inr ⟨op, _, hop, rfl, .inr ⟨by simp [Op.unused, hphase], rfl⟩⟩
  | stopped op hop hphase =>
      exact .inr ⟨op, _, hop, rfl, .inr ⟨by simp [Op.unused, hphase], rfl⟩⟩
  | leave =>
      cases hop : s.slot with
      | none => exact .inl ⟨rfl, rfl⟩
      | some op => exact .inr ⟨op, { op with state := none }, rfl, rfl, .inl rfl⟩
  | timer e t =>
      cases hop : s.slot with
      | none => exact .inl ⟨rfl, rfl⟩
      | some op => exact .inr ⟨op, op, rfl, rfl, .inl rfl⟩

theorem Move.unused_internal {P : Type*} {S : Sender P τ δ} {s s' : State P β τ δ}
    {e : Event P β τ δ} (h : Move fused S s e s') (he : e.isInternal = true)
    (hunused : s.unused = true) : s'.unused = true := by
  rcases h.internal he with ⟨-, hnone⟩ | ⟨op, op', hop, hop', hphase | ⟨huse, -⟩⟩
  · simp [State.unused, hnone]
  · simp only [State.unused, hop, hop', Option.all_some, Op.unused, hphase] at hunused ⊢
    exact hunused
  · simp [State.unused, hop, huse] at hunused

/-- In a plain run an operation is left with a value. -/
theorem Move.passing {P : Type*} {S : Sender P τ δ} {s s' : State P β τ δ} {e : Event P β τ δ}
    (h : Move fused S s e s') (hplain : ∀ k ch, e = .complete k ch → ch = .value)
    (hstopped : e ≠ .stopped)
    (hs : ∀ op ch, s.slot = some op → op.phase = .passing ch → ch = .value) :
    ∀ op ch, s'.slot = some op → op.phase = .passing ch → ch = .value := by
  intro op ch hop hphase
  cases h with
  | stopped => exact absurd rfl hstopped
  | complete k ch' op' hop' =>
      obtain rfl := hplain k ch' rfl
      obtain rfl := Option.some.inj hop
      cases hphase
  | evaluate op' hop' =>
      obtain rfl := Option.some.inj hop
      cases hstop : (S.pred op'.pred).1 <;> simp_all
  | leave =>
      obtain ⟨op', hop', rfl⟩ := Option.map_eq_some_iff.mp hop
      exact hs op' ch hop' hphase
  | timer => exact hs op ch hop hphase
  | destroy => cases hop
  | construct | start | restart | deliver =>
      obtain rfl := Option.some.inj hop
      cases hphase

/-- What is left for an operation decreases with the starts. -/
theorem Move.left_internal {s s' : State UInt32 β τ δ} {e : Event UInt32 β τ δ}
    (h : Move fused (periodicN d expiry policy checksStop) s e s') (he : e.isInternal = true)
    (hplain : (RepeatedEvent.inner e).isPlain = true) :
    s'.left + (if (RepeatedEvent.inner e).startsChild then 1 else 0) = s.left := by
  cases h with
  | construct | destroy | start | deliver => cases he
  | stopped => cases hplain
  | complete k ch op hop hphase =>
      obtain rfl : ch = .value := by simpa [RepeatedEvent.isPlain] using hplain
      simp [State.left, hop, Op.left, hphase, RepeatedEvent.startsChild]
  | evaluate op hop hphase =>
      cases hstop : op.pred == 0 with
      | true =>
          obtain hzero : op.pred = 0 := by simpa using hstop
          simp [State.left, hop, Op.left, hphase, RepeatedEvent.startsChild, periodicN, hzero]
      | false =>
          have hdec := toNat_sub_one hstop
          simp only [State.left, hop, Op.left, hphase, RepeatedEvent.startsChild, periodicN, hstop,
            Option.elim_some, Bool.false_eq_true, if_false]
          exact hdec
  | restart readings op tp t hop hphase =>
      simp [State.left, State.started, hop, Op.left, hphase, RepeatedEvent.startsChild]
  | leave =>
      cases hop : s.slot <;> simp [State.left, hop, Op.left, RepeatedEvent.startsChild]
  | timer => simp [State.left, RepeatedEvent.startsChild]

/-! ### The invariant -/

omit [LT τ] [DecidableLT τ] [HAdd τ δ τ] [Inhabited τ] in
theorem passing_of_some {P : Type*} {op' : Op P τ} (h : ∀ ch, op'.phase ≠ .passing ch) :
    ∀ op ch, some op' = some op → op.phase = .passing ch → ch = .value := by
  rintro op ch heq hphase
  obtain rfl := Option.some.inj heq
  exact absurd hphase (h ch)

theorem joined_step {S : Sender UInt32 τ δ} {s s' : Repeated β τ δ} {e : RepeatedEvent β τ δ}
    (h : Joined s) (hs : Together fused S n s e s') : Joined s' := by
  simp only [Joined] at h ⊢
  cases hs with
  | start | again => exact ⟨rfl, _, rfl, rfl⟩
  | stop r caller k hphase =>
      simp only [hphase] at h
      obtain ⟨-, op, hop, hconnected⟩ := h
      simp [State.unused, hop, Op.unused, hconnected]
  | begin r caller calls op tp t hphase =>
      simp only [hphase] at h
      exact ⟨h.1, _, rfl, rfl⟩
  | complete => rfl
  | evaluate r k vals args hphase =>
      simp only [hphase] at h
      cases s.outer.pred == 0 <;> exact h
  | reset => rfl
  | deliver r k ch vals args hphase =>
      simp only [hphase] at h
      exact h
  | loopFn => exact h
  | inner e i he hi =>
      dsimp only
      cases hphase : s.outer.phase with
      | ready caller =>
          simp only [hphase] at h ⊢
          obtain ⟨hstate, op, hop, hconnected⟩ := h
          refine ⟨hstate, ?_⟩
          rcases hi.internal he with ⟨hnone, -⟩ | ⟨op₁, op', hop₁, hop', hsame | ⟨huse, -⟩⟩
          · simp [hop] at hnone
          · obtain rfl := Option.some.inj (hop.symm.trans hop₁)
            exact ⟨op', hop', hsame.trans hconnected⟩
          · obtain rfl := Option.some.inj (hop.symm.trans hop₁)
            simp [Op.unused, hconnected] at huse
      | running =>
          simp only [hphase] at h ⊢
          obtain ⟨hstate, op, hop, huse⟩ := h
          refine ⟨hstate, ?_⟩
          rcases hi.internal he with ⟨hnone, -⟩ | ⟨op₁, op', hop₁, hop', hsame | ⟨-, huse'⟩⟩
          · simp [hop] at hnone
          · obtain rfl := Option.some.inj (hop.symm.trans hop₁)
            exact ⟨op', hop', by simpa [Op.unused, hsame] using huse⟩
          · exact ⟨op', hop', huse'⟩
      | idle | completing | looping | resetting | forwarding | done =>
          simp only [hphase] at h ⊢
          exact hi.unused_internal he h

theorem valued_step {S : Sender UInt32 τ δ} {s s' : Repeated β τ δ} {e : RepeatedEvent β τ δ}
    (h : Valued s) (hplain : e.isPlain = true) (hs : Together fused S n s e s') : Valued s' := by
  obtain ⟨hpassing, hcompleting⟩ := h
  cases hs with
  | start | again | begin => exact ⟨passing_of_some (by simp), by simp⟩
  | stop | deliver => exact ⟨hpassing, by simp⟩
  | complete r k ch refs op hphase hop hpass =>
      refine ⟨passing_of_some (by simp), ?_⟩
      rintro ch' args heq
      obtain ⟨rfl, -⟩ := Repeat.Phase.completing.inj heq
      exact hpassing op ch hop hpass
  | evaluate => exact ⟨hpassing, by cases s.outer.pred == 0 <;> simp⟩
  | reset => exact ⟨by simp, by simp⟩
  | loopFn => exact ⟨hpassing, hcompleting⟩
  | inner e i he hi =>
      have hcomplete : ∀ k ch, e = .complete k ch → ch = .value := by
        rintro k ch rfl
        simpa [RepeatedEvent.isPlain] using hplain
      have hstopped : e ≠ .stopped := by
        rintro rfl
        cases hplain
      exact ⟨hi.passing hcomplete hstopped hpassing, hcompleting⟩

/-- One step starts as many children as there are fewer left. -/
theorem left_step {s s' : Repeated β τ δ} {e : RepeatedEvent β τ δ} (h : Joined s)
    (hvalued : Valued s) (hplain : e.isPlain = true)
    (hs : Together fused (periodicN d expiry policy checksStop) n s e s') :
    s'.left n + (if e.startsChild then 1 else 0) = s.left n := by
  simp only [Joined] at h
  cases hs with
  | start r hphase hunused | again r k args hphase hunused =>
      simp only [Repeated.left, hphase, State.left, Op.left, Option.elim_some, Repeat.State.setup,
        RepeatedEvent.startsChild, Bool.false_eq_true, if_false]
      ring
  | stop => cases hplain
  | begin r caller calls op tp t hphase hop hconnected ht =>
      simp only [Repeated.left, hphase, State.left, State.started, hop, Op.left, hconnected,
        Option.elim_some, RepeatedEvent.startsChild, if_true]
      ring
  | complete r k ch refs op hphase hop hpass =>
      simp [Repeated.left, hphase, State.left, hop, Op.left, hpass, RepeatedEvent.startsChild]
  | evaluate r k vals args hphase =>
      cases hstop : s.outer.pred == 0 with
      | true =>
          obtain hzero : s.outer.pred = 0 := by simpa using hstop
          simp [Repeated.left, hphase, RepeatedEvent.startsChild, hzero]
      | false =>
          have hdec := toNat_sub_one hstop
          simp [Repeated.left, hphase, RepeatedEvent.startsChild, hdec]
  | reset r ch args hphase hunused =>
      rcases hphase with ⟨hphase, hch⟩ | hphase
      · exact absurd (hvalued.completing ch args hphase) hch
      · simp [Repeated.left, hphase, RepeatedEvent.startsChild]
  | deliver r k ch vals args hphase =>
      simp [Repeated.left, hphase, RepeatedEvent.startsChild]
  | loopFn => simp [Repeated.left, RepeatedEvent.startsChild]
  | inner e i he hi =>
      have hleft := hi.left_internal he hplain
      cases hphase : s.outer.phase with
      | ready | running =>
          simp only [Repeated.left, hphase]
          omega
      | idle | completing | looping | resetting | forwarding | done =>
          -- an operation that is not in use starts nothing
          simp only [hphase] at h
          have hnone : (RepeatedEvent.inner e).startsChild = false := by
            cases hi with
            | restart readings op tp t hop hrestarting =>
                simp [State.unused, hop, Op.unused, hrestarting] at h
            | _ => rfl
          simp [Repeated.left, hphase, hnone]

/-- In a plain run the starts so far and those that are left are `(n + 1) * (m + 1)`. -/
theorem counted_of_run {expirationTime : ℕ ⊕ β → τ} {tr : List (RepeatedEvent β τ δ)}
    {s : Repeated β τ δ}
    (h : Run (Repeated.step fused (periodicN d expiry policy checksStop) n checksStop)
      (.init m expirationTime) tr s) : Joined s ∧ ((∀ e ∈ tr, e.isPlain = true) → Valued s ∧
        starts tr + s.left n = (n.toNat + 1) * (m.toNat + 1)) := by
  refine Run.induction (P := fun tr s => Joined s ∧ ((∀ e ∈ tr, e.isPlain = true) → Valued s ∧
    starts tr + s.left n = (n.toNat + 1) * (m.toNat + 1))) ⟨?_, fun _ => ⟨?_, ?_⟩⟩ ?_ h
  · exact (rfl : State.unused (.init expirationTime) = true)
  · exact ⟨by simp [Repeated.init, State.init], by simp [Repeated.init, Repeat.State.init]⟩
  · simp [starts, Repeated.left, Repeated.init, Repeat.State.init, Nat.mul_comm]
  · intro tr s e s' _ ih hs
    have hmove := step_together hs
    refine ⟨joined_step ih.1 hmove, fun hall => ?_⟩
    obtain ⟨htr, he⟩ := List.forall_mem_append.mp hall
    obtain ⟨hvalued, hcount⟩ := ih.2 htr
    have hplain := he e (by simp)
    have hleft := left_step ih.1 hvalued hplain hmove
    have hstarts : starts (tr ++ [e]) = starts tr + if e.startsChild then 1 else 0 := by
      simp [starts, List.countP_append, List.countP_singleton]
    exact ⟨valued_step hvalued hplain hmove, by omega⟩

end BaremetalSenders.Periodic
