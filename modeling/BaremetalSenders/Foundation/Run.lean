import Mathlib.Data.List.Induction

/-!
Runs of a labelled transition system given by a partial step function.

A component is modelled as a function `step : σ → ι → Option σ`: in state `s`
the action labelled `l` is possible when `step s l` is defined, and a label
carries what the action returned to its caller, so the list of labels of a run
is everything an outside observer sees. Nothing is said about who performs an
action. A list of labels is therefore one interleaving of all the parties, and
a statement about every run is a statement about every interleaving.

The module packages the inductions the developments above it use: an invariant
that relates the trace to the state, an invariant of the runs whose steps all
meet a side condition, an invariant that excludes some labels from then on, and
a simulation by another machine, of which the projection to a part is a case.
For machines that never have a choice there is that all runs are beginnings of
the same one.
-/

namespace BaremetalSenders

variable {σ ι : Type*}

/-- Execute a list of actions; `none` as soon as one of them is impossible. -/
def exec (step : σ → ι → Option σ) : σ → List ι → Option σ
  | s, [] => some s
  | s, l :: ls => (step s l).bind fun s' => exec step s' ls

/-- `Run step s tr s'`: the actions `tr`, in this order, lead from `s` to `s'`. -/
def Run (step : σ → ι → Option σ) (s : σ) (tr : List ι) (s' : σ) : Prop :=
  exec step s tr = some s'

/-- Every action of the run is taken in a state that satisfies `C`. -/
def EachStep (step : σ → ι → Option σ) (C : σ → ι → Prop) : σ → List ι → Prop
  | _, [] => True
  | s, l :: ls => C s l ∧ ∀ s', step s l = some s' → EachStep step C s' ls

instance EachStep.decidable (step : σ → ι → Option σ) (C : σ → ι → Prop)
    [∀ s l, Decidable (C s l)] : (s : σ) → (tr : List ι) → Decidable (EachStep step C s tr)
  | _, [] => inferInstanceAs (Decidable True)
  | s, l :: ls =>
      match h : step s l with
      | none => decidable_of_iff (C s l) (by simp [EachStep, h])
      | some s' =>
          have := EachStep.decidable step C s' ls
          decidable_of_iff (C s l ∧ EachStep step C s' ls) (by simp [EachStep, h])

section Basics

variable {step : σ → ι → Option σ} {s s' s'' : σ} {l : ι} {tr tr' : List ι}

@[simp] theorem run_nil : Run step s [] s' ↔ s' = s := by
  simp [Run, exec, eq_comm]

@[simp] theorem run_cons :
    Run step s (l :: tr) s'' ↔ ∃ s', step s l = some s' ∧ Run step s' tr s'' := by
  simp [Run, exec, Option.bind_eq_some_iff]

theorem run_append :
    Run step s (tr ++ tr') s'' ↔ ∃ s', Run step s tr s' ∧ Run step s' tr' s'' := by
  induction tr generalizing s with
  | nil => simp
  | cons l tr ih =>
      simp only [List.cons_append, run_cons, ih]
      constructor
      · rintro ⟨u, hu, v, hv, hw⟩
        exact ⟨v, ⟨u, hu, hv⟩, hw⟩
      · rintro ⟨v, ⟨u, hu, hv⟩, hw⟩
        exact ⟨u, hu, v, hv, hw⟩

theorem run_concat :
    Run step s (tr ++ [l]) s'' ↔ ∃ s', Run step s tr s' ∧ step s' l = some s'' := by
  simp [run_append]

theorem Run.concat (h : Run step s tr s') (hl : step s' l = some s'') :
    Run step s (tr ++ [l]) s'' := run_concat.mpr ⟨s', h, hl⟩

/-- Whether a list of actions is a run can be computed. -/
theorem exists_run_iff : (∃ s', Run step s tr s') ↔ (exec step s tr).isSome = true :=
  Option.isSome_iff_exists.symm

end Basics

section Rules

variable {step : σ → ι → Option σ} {s₀ : σ}

/-- The invariant rule. `P` relates the trace so far to the state it led to. -/
theorem Run.induction {P : List ι → σ → Prop} (hinit : P [] s₀)
    (hstep : ∀ tr s l s', Run step s₀ tr s → P tr s → step s l = some s' →
      P (tr ++ [l]) s') {tr : List ι} {s : σ} (h : Run step s₀ tr s) : P tr s := by
  induction tr using List.reverseRecOn generalizing s with
  | nil =>
      obtain rfl := run_nil.mp h
      exact hinit
  | append_singleton tr l ih =>
      obtain ⟨s', hs', hl⟩ := run_concat.mp h
      exact hstep tr s' l s hs' (ih hs') hl

/-- The rule for what no run from `s₀` does: the invariant `I` excludes the labels outside `P`. -/
theorem Run.forall_mem {I : σ → Prop} {P : ι → Prop} (hinit : I s₀)
    (hstep : ∀ s l s', I s → step s l = some s' → I s' ∧ P l) {tr : List ι} {s : σ}
    (h : Run step s₀ tr s) : ∀ l ∈ tr, P l := by
  have hinv : I s ∧ ∀ l ∈ tr, P l := by
    refine Run.induction (P := fun tr s => I s ∧ ∀ l ∈ tr, P l) ⟨hinit, by simp⟩ ?_ h
    intro tr s l s' _ ih hs
    obtain ⟨hI, hl⟩ := hstep s l s' ih.1 hs
    exact ⟨hI, List.forall_mem_append.mpr ⟨ih.2, List.forall_mem_singleton.mpr hl⟩⟩
  exact hinv.2

theorem EachStep.trivial (tr : List ι) : EachStep step (fun _ _ => True) s₀ tr := by
  induction tr generalizing s₀ with
  | nil => exact True.intro
  | cons l tr ih => exact ⟨True.intro, fun _ _ => ih⟩

theorem EachStep.imp {C D : σ → ι → Prop} (hCD : ∀ s l, C s l → D s l) {tr : List ι}
    (h : EachStep step C s₀ tr) : EachStep step D s₀ tr := by
  induction tr generalizing s₀ with
  | nil => exact True.intro
  | cons l tr ih => exact ⟨hCD _ _ h.1, fun s' hs' => ih (h.2 s' hs')⟩

theorem EachStep.of_append {C : σ → ι → Prop} {tr tr' : List ι} {s : σ}
    (h : EachStep step C s₀ (tr ++ tr')) (hr : Run step s₀ tr s) :
    EachStep step C s₀ tr ∧ EachStep step C s tr' := by
  induction tr generalizing s₀ with
  | nil =>
      obtain rfl := run_nil.mp hr
      exact ⟨True.intro, h⟩
  | cons l tr ih =>
      obtain ⟨u, hu, hr'⟩ := run_cons.mp hr
      have hrest := ih (h.2 u hu) hr'
      refine ⟨⟨h.1, fun v hv => ?_⟩, hrest.2⟩
      obtain rfl := Option.some.inj (hu.symm.trans hv)
      exact hrest.1

theorem EachStep.concat {C : σ → ι → Prop} {tr : List ι} {s : σ} {l : ι}
    (h : EachStep step C s₀ tr) (hr : Run step s₀ tr s) (hl : C s l) :
    EachStep step C s₀ (tr ++ [l]) := by
  induction tr generalizing s₀ with
  | nil =>
      obtain rfl := run_nil.mp hr
      exact ⟨hl, fun _ _ => True.intro⟩
  | cons l' tr ih =>
      obtain ⟨u, hu, hr'⟩ := run_cons.mp hr
      refine ⟨h.1, fun v hv => ?_⟩
      obtain rfl := Option.some.inj (hu.symm.trans hv)
      exact ih (h.2 u hu) hr'

theorem EachStep.append {C : σ → ι → Prop} {tr tr' : List ι} {s : σ}
    (h : EachStep step C s₀ tr) (hr : Run step s₀ tr s) (h' : EachStep step C s tr') :
    EachStep step C s₀ (tr ++ tr') := by
  induction tr generalizing s₀ with
  | nil =>
      obtain rfl := run_nil.mp hr
      exact h'
  | cons l tr ih =>
      obtain ⟨u, hu, hr'⟩ := run_cons.mp hr
      refine ⟨h.1, fun v hv => ?_⟩
      obtain rfl := Option.some.inj (hu.symm.trans hv)
      exact ih (h.2 u hu) hr'

/-- A condition that some labels meet in every state. -/
theorem EachStep.of_forall_mem {C : σ → ι → Prop} {tr : List ι} (h : ∀ l ∈ tr, ∀ s, C s l) :
    EachStep step C s₀ tr := by
  induction tr generalizing s₀ with
  | nil => exact True.intro
  | cons l tr ih =>
      exact ⟨h l List.mem_cons_self _,
        fun _ _ => ih fun l' hl' => h l' (List.mem_cons_of_mem l hl')⟩

theorem eachStep_concat_iff {C : σ → ι → Prop} {tr : List ι} {s : σ} {l : ι}
    (h : Run step s₀ tr s) : EachStep step C s₀ (tr ++ [l]) ↔ EachStep step C s₀ tr ∧ C s l :=
  ⟨fun hC => ⟨(hC.of_append h).1, (hC.of_append h).2.1⟩, fun hC => hC.1.concat h hC.2⟩

/-- The condition, read at each place of the run. -/
theorem eachStep_iff {C : σ → ι → Prop} {tr : List ι} : EachStep step C s₀ tr ↔
    ∀ tr₁ l tr₂ s, tr = tr₁ ++ l :: tr₂ → Run step s₀ tr₁ s → C s l := by
  constructor
  · rintro h tr₁ l tr₂ s rfl hr
    exact (h.of_append hr).2.1
  · intro h
    induction tr generalizing s₀ with
    | nil => exact True.intro
    | cons l tr ih =>
        refine ⟨h [] l tr s₀ rfl (run_nil.mpr rfl), fun s' hs' => ih ?_⟩
        rintro tr₁ l' tr₂ s rfl hr
        exact h (l :: tr₁) l' tr₂ s rfl (run_cons.mpr ⟨s', hs', hr⟩)

/-- The invariant rule for the runs whose every step meets the condition `C`. -/
theorem Run.induction_of_eachStep {C : σ → ι → Prop} {P : List ι → σ → Prop}
    (hinit : P [] s₀)
    (hstep : ∀ tr s l s', Run step s₀ tr s → P tr s → C s l → step s l = some s' →
      P (tr ++ [l]) s') {tr : List ι} {s : σ} (h : Run step s₀ tr s)
    (hC : EachStep step C s₀ tr) : P tr s := by
  refine Run.induction (P := fun tr s => EachStep step C s₀ tr → P tr s)
    (fun _ => hinit) ?_ h hC
  intro tr s l s' hr ih hl hall
  obtain ⟨hpre, hlast⟩ := hall.of_append hr
  exact hstep tr s l s' hr (ih hpre) hlast.1 hl

/-- The simulation rule. Every step is answered by the steps `act` names of another machine,
and `R` ties the two states together. -/
theorem Run.simulation {σ' ι' : Type*} {step' : σ' → ι' → Option σ'} {a₀ : σ'}
    {C : σ → ι → Prop} (act : ι → Option ι') {R : σ → σ' → Prop} (hinit : R s₀ a₀)
    (hstep : ∀ tr s a l s', Run step s₀ tr s → R s a → C s l → step s l = some s' →
      ∃ a', Run step' a (act l).toList a' ∧ R s' a')
    {tr : List ι} {s : σ} (h : Run step s₀ tr s) (hC : EachStep step C s₀ tr) :
    ∃ a, Run step' a₀ (tr.filterMap act) a ∧ R s a := by
  refine Run.induction_of_eachStep
    (P := fun tr s => ∃ a, Run step' a₀ (tr.filterMap act) a ∧ R s a)
    ⟨a₀, run_nil.mpr rfl, hinit⟩ ?_ h hC
  rintro tr s l s' hr ⟨a, ha, hR⟩ hc hl
  obtain ⟨a', ha', hR'⟩ := hstep tr s a l s' hr hR hc hl
  refine ⟨a', ?_, hR'⟩
  rw [List.filterMap_append]
  refine run_append.mpr ⟨a, ha, ?_⟩
  cases he : act l <;> simpa [he] using ha'

/-- The other way round: every step the other machine has is one of several steps of this one,
of which the rest is not observed. `C` holds of the steps that are answered and `Q` of the
answers. -/
theorem Run.lift {σ' ι' : Type*} {step' : σ' → ι' → Option σ'} {a₀ : σ'} {C : ι → Prop}
    {Q : ι' → Prop} (obs : ι' → Option ι) {R : σ → σ' → Prop} (hinit : R s₀ a₀)
    (hstep : ∀ tr s tr' a l s', Run step s₀ tr s → Run step' a₀ tr' a → tr'.filterMap obs = tr →
      (∀ l' ∈ tr', Q l') → R s a → C l → step s l = some s' →
      ∃ ls a', Run step' a ls a' ∧ ls.filterMap obs = [l] ∧ (∀ l' ∈ ls, Q l') ∧ R s' a')
    {tr : List ι} {s : σ} (h : Run step s₀ tr s) (hC : ∀ l ∈ tr, C l) :
    ∃ tr' a, Run step' a₀ tr' a ∧ tr'.filterMap obs = tr ∧ (∀ l' ∈ tr', Q l') ∧ R s a := by
  refine Run.induction (P := fun tr s => (∀ l ∈ tr, C l) → ∃ tr' a, Run step' a₀ tr' a ∧
    tr'.filterMap obs = tr ∧ (∀ l' ∈ tr', Q l') ∧ R s a) ?_ ?_ h hC
  · exact fun _ => ⟨[], a₀, run_nil.mpr rfl, rfl, by simp, hinit⟩
  · intro tr s l s' hr ih hl hC
    obtain ⟨hCtr, hCl⟩ := List.forall_mem_append.mp hC
    obtain ⟨tr', a, ha, hobs, hQ, hR⟩ := ih hCtr
    obtain ⟨ls, a', ha', hls, hQ', hR'⟩ :=
      hstep tr s tr' a l s' hr ha hobs hQ hR (hCl l (by simp)) hl
    exact ⟨tr' ++ ls, a', run_append.mpr ⟨a, ha, ha'⟩,
      by rw [List.filterMap_append, hobs, hls], List.forall_mem_append.mpr ⟨hQ, hQ'⟩, hR'⟩

/-- The projection rule. A part of the machine takes the steps `act` names. -/
theorem Run.project {σ' ι' : Type*} {step' : σ' → ι' → Option σ'} (proj : σ → σ')
    (act : ι → Option ι')
    (hstep : ∀ s l s', step s l = some s' → Run step' (proj s) (act l).toList (proj s'))
    {tr : List ι} {s : σ} (h : Run step s₀ tr s) :
    Run step' (proj s₀) (tr.filterMap act) (proj s) := by
  obtain ⟨a, ha, rfl⟩ := h.simulation act (R := fun s a => proj s = a) rfl
    (fun _ s _ l s' _ hR _ hl => ⟨proj s', hR ▸ hstep s l s' hl, rfl⟩) (EachStep.trivial tr)
  exact ha

/-- A condition on the steps of the part. -/
theorem EachStep.project {σ' ι' : Type*} {step' : σ' → ι' → Option σ'} {C : σ → ι → Prop}
    {C' : σ' → ι' → Prop} (proj : σ → σ') (act : ι → Option ι')
    (hstep : ∀ s l s', step s l = some s' → Run step' (proj s) (act l).toList (proj s'))
    (hC : ∀ s l l', C s l → act l = some l' → C' (proj s) l') {tr : List ι} {s : σ}
    (h : Run step s₀ tr s) (hall : EachStep step C s₀ tr) :
    EachStep step' C' (proj s₀) (tr.filterMap act) := by
  refine Run.induction_of_eachStep
    (P := fun tr _ => EachStep step' C' (proj s₀) (tr.filterMap act)) True.intro ?_ h hall
  intro tr s l s' hr ih hl _
  rw [List.filterMap_append]
  refine ih.append (hr.project proj act hstep) ?_
  cases he : act l with
  | none => simp [he, EachStep]
  | some l' => simpa [he, EachStep] using hC s l l' hl he

/-- The same where what answers a step depends on the state. -/
theorem Run.exists_project {σ' ι' : Type*} {step' : σ' → ι' → Option σ'} (proj : σ → σ')
    (hstep : ∀ s l s', step s l = some s' → ∃ ls, Run step' (proj s) ls (proj s'))
    {tr : List ι} {s : σ} (h : Run step s₀ tr s) : ∃ ls, Run step' (proj s₀) ls (proj s) := by
  refine Run.induction (P := fun _ s => ∃ ls, Run step' (proj s₀) ls (proj s))
    ⟨[], run_nil.mpr rfl⟩ ?_ h
  rintro tr s l s' - ⟨ls, hls⟩ hs
  obtain ⟨ls', hls'⟩ := hstep s l s' hs
  exact ⟨ls ++ ls', run_append.mpr ⟨proj s, hls, hls'⟩⟩

/-- Where there is never a choice between labels that meet the condition `C`, every run whose
steps meet it is the beginning of one that has come to an end. -/
theorem Run.extends_of_eachStep {C : σ → ι → Prop} {s s' t : σ} {tr tr' : List ι}
    (hdet : ∀ s l l' u u', C s l → C s l' → step s l = some u → step s l' = some u' → l = l')
    (hend : ∀ l, step t l = none) (h : Run step s tr t) (hC : EachStep step C s tr)
    (h' : Run step s tr' s') (hC' : EachStep step C s tr') :
    ∃ rest, tr = tr' ++ rest ∧ Run step s' rest t := by
  induction tr' generalizing s tr with
  | nil =>
      obtain rfl := run_nil.mp h'
      exact ⟨tr, rfl, h⟩
  | cons l tr' ih =>
      obtain ⟨u, hu, hrest⟩ := run_cons.mp h'
      cases tr with
      | nil =>
          obtain rfl := run_nil.mp h
          rw [hend l] at hu
          cases hu
      | cons l' tr =>
          obtain ⟨u', hu', hrest'⟩ := run_cons.mp h
          obtain rfl := hdet s l l' u u' hC'.1 hC.1 hu hu'
          obtain rfl := Option.some.inj (hu.symm.trans hu')
          obtain ⟨rest, rfl, hrun⟩ := ih hrest' (hC.2 _ hu) hrest (hC'.2 _ hu)
          exact ⟨rest, rfl, hrun⟩

/-- Where there is never a choice of labels, every run is the beginning of one that has come
to an end. -/
theorem Run.extends {s s' t : σ} {tr tr' : List ι}
    (hdet : ∀ s l l' u u', step s l = some u → step s l' = some u' → l = l')
    (hend : ∀ l, step t l = none) (h : Run step s tr t) (h' : Run step s tr' s') :
    ∃ rest, tr = tr' ++ rest ∧ Run step s' rest t :=
  h.extends_of_eachStep (fun s l l' u u' _ _ => hdet s l l' u u') hend (EachStep.trivial tr) h'
    (EachStep.trivial tr')

end Rules

end BaremetalSenders
