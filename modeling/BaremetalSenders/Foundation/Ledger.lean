import BaremetalSenders.Foundation.Run
import Mathlib.Data.List.Nodup
import Mathlib.Data.List.Chain

/-!
A ledger of outstanding items.

A queue that hands its items out again is specified by what an observer sees
of it: an item is *armed* when the queue accepts it, and *settled* when the
queue gives it up, whichever way. The ledger is the list of the items armed
and not settled yet, in the order they were armed. It refuses to arm an
outstanding item and to settle one that is not outstanding; so the entries of
an accepted run concern each item alternately, an arm first, and the last one
is an arm exactly while the item is outstanding. That is what it means for
every arm to be matched by exactly one settlement and for none to be lost.

`Run.ledger` is the rule by which a component is shown to keep such a ledger.
-/

namespace BaremetalSenders

variable {α σ ι : Type*}

/-- One line of the ledger. -/
inductive Entry (α : Type*) where
  | arm (x : α)
  | settle (x : α)
  deriving DecidableEq

namespace Ledger

def item : Entry α → α
  | .arm x => x
  | .settle x => x

variable [DecidableEq α]

/-- Accept one entry, given the outstanding items in order of arming. -/
def step (q : List α) : Entry α → Option (List α)
  | .arm x => if x ∈ q then none else some (q ++ [x])
  | .settle x => if x ∈ q then some (q.erase x) else none

@[simp] theorem step_arm {q q' : List α} {x : α} :
    step q (.arm x) = some q' ↔ x ∉ q ∧ q ++ [x] = q' := by
  by_cases h : x ∈ q <;> simp [step, h]

@[simp] theorem step_settle {q q' : List α} {x : α} :
    step q (.settle x) = some q' ↔ x ∈ q ∧ q.erase x = q' := by
  by_cases h : x ∈ q <;> simp [step, h]

def about (x : α) (es : List (Entry α)) : List (Entry α) :=
  es.filter fun e => item e = x

theorem about_concat_self (x : α) (es : List (Entry α)) {e : Entry α} (he : item e = x) :
    about x (es ++ [e]) = about x es ++ [e] := by
  simp [about, he]

theorem about_concat_of_ne (x : α) (es : List (Entry α)) {e : Entry α} (he : item e ≠ x) :
    about x (es ++ [e]) = about x es := by
  simp [about, he]

/-- The entries `es` arm and settle `x` in turns, beginning with an arm. -/
structure Alternates (x : α) (es : List (Entry α)) : Prop where
  turns : (about x es).IsChain (· ≠ ·)
  first : ∀ e, (about x es).head? = some e → e = .arm x

theorem nodup_of_run {es : List (Entry α)} {q : List α} (h : Run step [] es q) : q.Nodup := by
  refine Run.induction (P := fun _ q => q.Nodup) List.nodup_nil ?_ h
  intro _ q e q' _ hq he
  cases e with
  | arm x =>
      obtain ⟨hx, rfl⟩ := step_arm.mp he
      exact List.nodup_append.mpr ⟨hq, by simp, fun a ha b hb e => hx (by simp_all)⟩
  | settle x =>
      obtain ⟨-, rfl⟩ := step_settle.mp he
      exact hq.erase x

/-- The last entry about an item tells whether it is outstanding. -/
theorem last_iff {es : List (Entry α)} {q : List α} (h : Run step [] es q) (x : α) :
    (about x es).getLast? = some (.arm x) ↔ x ∈ q := by
  refine Run.induction (P := fun es q => (about x es).getLast? = some (.arm x) ↔ x ∈ q)
    (by simp [about]) ?_ h
  intro es q e q' hr ih he
  have hnd := nodup_of_run hr
  by_cases hx : item e = x
  · rw [about_concat_self x es hx]
    cases e with
    | arm y =>
        obtain rfl : y = x := hx
        obtain ⟨-, rfl⟩ := step_arm.mp he
        simp
    | settle y =>
        obtain rfl : y = x := hx
        obtain ⟨-, rfl⟩ := step_settle.mp he
        simp [hnd.mem_erase_iff]
  · rw [about_concat_of_ne x es hx, ih]
    cases e with
    | arm y =>
        obtain ⟨-, rfl⟩ := step_arm.mp he
        have hne : x ≠ y := fun e => hx e.symm
        simp [hne]
    | settle y =>
        obtain ⟨-, rfl⟩ := step_settle.mp he
        have hne : x ≠ y := fun e => hx e.symm
        simp [List.mem_erase_of_ne hne]

/-- Every arm is followed by exactly one settlement before the next arm. -/
theorem alternates_of_run {es : List (Entry α)} {q : List α} (h : Run step [] es q) (x : α) :
    Alternates x es := by
  refine Run.induction (P := fun es _ => Alternates x es)
    ⟨by simp [about], by simp [about]⟩ ?_ h
  intro es q e q' hr ih he
  by_cases hx : item e = x
  · have hlast := last_iff hr x
    constructor
    · rw [about_concat_self x es hx, List.isChain_append]
      refine ⟨ih.turns, by simp, fun a ha b hb => ?_⟩
      obtain rfl : b = e := by simpa [eq_comm] using hb
      cases b with
      | arm y =>
          obtain rfl : y = x := hx
          intro e
          exact (step_arm.mp he).1 (hlast.mp (e ▸ ha))
      | settle y =>
          obtain rfl : y = x := hx
          have := hlast.mpr (step_settle.mp he).1
          rw [this] at ha
          obtain rfl := Option.some.inj ha
          simp
    · intro e' he'
      rw [about_concat_self x es hx] at he'
      cases hes : about x es with
      | cons a as => exact ih.first e' (by simpa [hes] using he')
      | nil =>
          obtain rfl : e = e' := by simpa [hes] using he'
          cases e with
          | arm y => exact congrArg Entry.arm hx
          | settle y =>
              obtain rfl : y = x := hx
              have := hlast.mpr (step_settle.mp he).1
              simp [hes] at this
  · have hsame := about_concat_of_ne x es hx
    exact ⟨by rw [hsame]; exact ih.turns, by rw [hsame]; exact ih.first⟩

end Ledger

/-- The component with actions `ι` keeps a ledger: its entries are read off its
trace, and `R` ties its state to the outstanding items. -/
theorem Run.ledger [DecidableEq α] {step : σ → ι → Option σ} {s₀ : σ}
    {C : σ → ι → Prop} (entry : ι → Option (Entry α)) {R : σ → List α → Prop}
    (hinit : R s₀ [])
    (hstep : ∀ s q l s', R s q → C s l → step s l = some s' →
      ∃ q', Run Ledger.step q (entry l).toList q' ∧ R s' q')
    {tr : List ι} {s : σ} (h : Run step s₀ tr s) (hC : EachStep step C s₀ tr) :
    ∃ q, Run Ledger.step [] (tr.filterMap entry) q ∧ R s q :=
  h.simulation entry hinit (fun _ s q l s' _ hR hc hl => hstep s q l s' hR hc hl) hC

end BaremetalSenders
