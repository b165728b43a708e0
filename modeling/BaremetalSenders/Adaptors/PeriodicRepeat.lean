import BaremetalSenders.Adaptors.PeriodicStorage

/-!
`periodic_n` inside `repeat_n`: the operation of `repeat_n` owns the place of the
periodic operation, and constructs and starts the next one from inside of the
completion of the one before.

The two operations are those of the modules about each, with the calls between
them taken together. The `completion` of the periodic operation is the child's
of the repeat operation; the frame of `passthrough` that made it goes on when
the repeat operation has returned, after it has started the next one.
-/

namespace BaremetalSenders.Periodic

open Timer (ExpirationProvider)
open Repeat (Channel Args repeatN)

variable {P β τ δ : Type*}

structure Repeated (β τ δ : Type*) where
  outer : Repeat.State Unit UInt32
  inner : State UInt32 β τ δ

def Repeated.init (m : UInt32) (expirationTime : ℕ ⊕ β → τ) : Repeated β τ δ :=
  ⟨.init m, .init expirationTime⟩

/-- The steps of the repeat operation, with the readings of the clock if one
schedules a task, and those of the periodic operation, its child and the timer. -/
inductive RepeatedEvent (β τ δ : Type*) where
  | outer (e : Repeat.Event Unit) (readings : Option (List τ))
  | inner (e : Event UInt32 β τ δ)

def induced (n : UInt32) (readings : Option (List τ)) :
    Repeat.Event Unit → Option (Event UInt32 β τ δ)
  | .start | .again _ => some (.construct n)
  | .begin false => some (.start readings)
  | .complete _ ch _ => some (.deliver ch)
  | .reset => some .destroy
  | .begin true | .evaluate _ _ _ | .deliver _ _ _ | .loopFn _ _ => none

/-- The step is not one of the owner of the place. -/
def Event.isInternal : Event P β τ δ → Bool
  | .construct _ | .destroy | .start _ | .deliver _ => false
  | _ => true

section Step

variable [DecidableEq β] [LT τ] [DecidableLT τ] [HAdd τ δ τ] [Inhabited τ] (fused : Bool)
  (S : Sender UInt32 τ δ) (n : UInt32) (checksStop : Bool)

def Repeated.step (s : Repeated β τ δ) : RepeatedEvent β τ δ → Option (Repeated β τ δ)
  | .outer e readings =>
      (Repeat.step (repeatN false checksStop) (fun _ _ => ()) s.outer e).bind fun outer =>
        match induced n readings e with
        | some e' => (Periodic.step fused S s.inner e').map fun inner => ⟨outer, inner⟩
        | none => some ⟨outer, s.inner⟩
  | .inner e =>
      if e.isInternal then
        (Periodic.step fused S s.inner e).map fun inner => { s with inner := inner }
      else none

/-! ### What a step can do -/

inductive Together (s : Repeated β τ δ) : RepeatedEvent β τ δ → Repeated β τ δ → Prop
  | start (r) : s.outer.phase = .idle → s.inner.unused = true →
      Together s (.outer .start r) ⟨{ s.outer.setup with phase := .ready none },
        { s.inner with slot := some ⟨n, default, none, .connected⟩ }⟩
  | stop (r caller k) : s.outer.phase = .ready caller →
      Together s (.outer (.begin true) r)
        ⟨{ s.outer with phase := .resetting .stopped ⟨k, []⟩ }, s.inner⟩
  | begin (r caller calls op tp t) : s.outer.phase = .ready caller →
      s.inner.slot = some op → op.phase = .connected →
      schedule fused S (firstExpiration S.d) s.inner.timer op.tp s.inner.next r = some (tp, t) →
      Together s (.outer (.begin false) r)
        ⟨{ s.outer with phase := .running, calls := calls }, s.inner.started op tp t⟩
  | complete (r k ch refs op) : s.outer.phase = .running → s.inner.slot = some op →
      op.phase = .passing ch →
      Together s (.outer (.complete k ch refs) r)
        ⟨{ s.outer with phase := .completing ch ⟨k, refs⟩ }, { s.inner with
          slot := some { op with phase := .completed }
          frames := s.inner.frames + 1 }⟩
  | evaluate (r k vals args) : s.outer.phase = .completing .value args →
      Together s (.outer (.evaluate k vals (s.outer.pred == 0)) r) ⟨{ s.outer with
        pred := s.outer.pred - 1
        phase := if s.outer.pred == 0 then .resetting .value args else .looping args }, s.inner⟩
  | again (r k args) : s.outer.phase = .looping args → s.inner.unused = true →
      Together s (.outer (.again k) r) ⟨{ s.outer.setup with phase := .ready (some args) },
        { s.inner with slot := some ⟨n, default, none, .connected⟩ }⟩
  | reset (r ch args) : s.outer.phase = .completing ch args ∧ ch ≠ .value ∨
        s.outer.phase = .resetting ch args → s.inner.unused = true →
      Together s (.outer .reset r) ⟨{ s.outer with state := none, phase := .forwarding ch args },
        { s.inner with slot := none }⟩
  | deliver (r k ch vals args) : s.outer.phase = .forwarding ch args →
      Together s (.outer (.deliver k ch vals) r) ⟨{ s.outer with phase := .done }, s.inner⟩
  | loopFn (r k vals calls) :
      Together s (.outer (.loopFn k vals) r) ⟨{ s.outer with calls := calls }, s.inner⟩
  | inner (e i) : e.isInternal = true → Move fused S s.inner e i →
      Together s (.inner e) { s with inner := i }

variable {fused S n checksStop}

theorem repeated_step_outer {s s' : Repeated β τ δ} {e : Repeat.Event Unit}
    {r : Option (List τ)} (h : s.step fused S n checksStop (.outer e r) = some s') :
    ∃ outer, Repeat.step (repeatN false checksStop) (fun _ _ => ()) s.outer e = some outer ∧
      s'.outer = outer ∧
      match induced (β := β) (δ := δ) n r e with
      | some e' => Move fused S s.inner e' s'.inner
      | none => s'.inner = s.inner := by
  obtain ⟨outer, houter, h⟩ := Option.bind_eq_some_iff.mp h
  refine ⟨outer, houter, ?_⟩
  cases hinduced : induced (β := β) (δ := δ) n r e with
  | some e' =>
      rw [hinduced] at h
      obtain ⟨i, hi, rfl⟩ := Option.map_eq_some_iff.mp h
      exact ⟨rfl, step_move hi⟩
  | none =>
      rw [hinduced] at h
      cases h
      exact ⟨rfl, rfl⟩

theorem step_together {s s' : Repeated β τ δ} {e : RepeatedEvent β τ δ}
    (h : s.step fused S n checksStop e = some s') : Together fused S n s e s' := by
  cases e with
  | inner e =>
      simp only [Repeated.step] at h
      split at h
      · next he =>
          obtain ⟨i, hi, rfl⟩ := Option.map_eq_some_iff.mp h
          exact .inner e i he (step_move hi)
      · cases h
  | outer e r =>
      obtain ⟨outer, inner⟩ := s
      obtain ⟨outer', inner'⟩ := s'
      obtain ⟨o, houter, rfl, hinner⟩ := repeated_step_outer h
      dsimp only at houter hinner ⊢
      cases e with
      | start =>
          simp only [Repeat.step] at houter
          split at houter <;> cases houter
          next hphase =>
            cases hinner with
            | construct _ hunused => exact .start r hphase hunused
      | begin stop =>
          simp only [Repeat.step] at houter
          split at houter
          · next caller k hphase hstate =>
              cases stop with
              | true =>
                  simp only [if_true] at houter
                  split at houter <;> cases houter
                  subst hinner
                  exact .stop r caller k hphase
              | false =>
                  simp only [Bool.false_eq_true, if_false] at houter
                  cases houter
                  cases hinner with
                  | start _ op tp t hop hconnected ht =>
                      exact .begin r caller _ op tp t hphase hop hconnected ht
          · cases houter
      | complete k ch refs =>
          simp only [Repeat.step] at houter
          split at houter
          · next hphase =>
              split at houter <;> cases houter
              cases hinner with
              | deliver _ op hop hpassing => exact .complete r k ch refs op hphase hop hpassing
          · cases houter
      | evaluate k vals stop =>
          simp only [Repeat.step] at houter
          split at houter
          · next ch args hphase =>
              split at houter <;> cases houter
              next hc =>
                obtain ⟨rfl, -, -, hstop⟩ := hc
                obtain rfl : stop = (outer.pred == 0) := hstop
                subst hinner
                exact .evaluate r k vals args hphase
          · cases houter
      | again k =>
          simp only [Repeat.step] at houter
          split at houter
          · next args hphase =>
              split at houter <;> cases houter
              cases hinner with
              | construct _ hunused => exact .again r k args hphase hunused
          · cases houter
      | reset =>
          simp only [Repeat.step] at houter
          split at houter
          · next ch args hphase =>
              split at houter <;> cases houter
              next hch =>
                cases hinner with
                | destroy hunused => exact .reset r ch args (.inl ⟨hphase, hch⟩) hunused
          · next ch args hphase =>
              cases houter
              cases hinner with
              | destroy hunused => exact .reset r ch args (.inr hphase) hunused
          · cases houter
      | deliver k ch vals =>
          simp only [Repeat.step] at houter
          split at houter
          · next ch' args hphase =>
              split at houter <;> cases houter
              next hc =>
                obtain ⟨rfl, -, -⟩ := hc
                subst hinner
                exact .deliver r k ch' vals args hphase
          · cases houter
      | loopFn k vals =>
          simp only [Repeat.step] at houter
          split at houter
          · split at houter <;> cases houter
            subst hinner
            exact .loopFn r k vals _
          · cases houter

end Step

end BaremetalSenders.Periodic
