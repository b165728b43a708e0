import BaremetalSenders.Foundation.Resumption
import BaremetalSenders.Foundation.Run
import Mathlib.Algebra.BigOperators.Group.Finset.Basic
import Mathlib.Logic.Function.Basic
import Mathlib.Logic.Hydra
import Mathlib.Order.GameAdd
import Mathlib.Order.WellFounded

/-!
Jobs that are executed in places, each of which has a queue.

A place executes one job at a time. A job that hops is put at the end of the queue of another
place, or of the same one, and leaves the place it was in, which can take the next job from its
own queue then. Jobs are started from outside, in a place that has nothing to do, and can be
asked to stop, once. The places share a world, and one step of one job is one change of it. So a
run is an interleaving of the places.

What a step of a job is, is given by a function `act` on its configurations. Three things are
known of the whole from what is known of this function: an invariant of the world and what jobs
end with, if they are resumptions; a simulation of jobs by other jobs; and that everything comes
to an end, and when it does.
-/

namespace BaremetalSenders.Crew

variable {ι K S W C C' R : Type*}

/-- A job that has not been started, waits for the place `k`, is executed there, or has ended
there with a result. -/
inductive Job (K C R : Type*) where
  | fresh (c : C)
  | queued (k : K) (c : C)
  | running (k : K) (c : C)
  | done (k : K) (r : R)

@[simp] def Job.place : Job K C R → Option K
  | .running k _ => some k
  | _ => none

@[simp] def Job.waitsFor : Job K C R → Option K
  | .queued k _ => some k
  | _ => none

structure State (ι K W C R : Type*) where
  world : W
  stop : ι → Bool
  job : ι → Job K C R
  queue : K → List ι
  current : K → Option ι

inductive Event (ι K : Type*) where
  | start (i : ι) (k : K)
  | take (k : K)
  | step (i : ι)
  | requestStop (i : ι)
  deriving DecidableEq

/-- Something is left to be done: this is not asked for from outside. -/
def Event.works : Event ι K → Bool
  | .take _ | .step _ => true
  | _ => false

def State.init (c : ι → C) (w : W) : State ι K W C R :=
  ⟨w, fun _ => false, fun i => .fresh (c i), fun _ => [], fun _ => none⟩

variable [DecidableEq ι] [DecidableEq K]

def State.perform (s : State ι K W C R) (target : ι → S → K) (i : ι) (k : K) (w : W) :
    Outcome S C R → State ι K W C R
  | .more c => { s with world := w, job := Function.update s.job i (.running k c) }
  | .hop x c =>
      { s with
        world := w
        job := Function.update s.job i (.queued (target i x) c)
        queue := Function.update s.queue (target i x) (s.queue (target i x) ++ [i])
        current := Function.update s.current k none }
  | .done r =>
      { s with
        world := w
        job := Function.update s.job i (.done k r)
        current := Function.update s.current k none }

def step (act : C → K → Bool → W → Option (Outcome S C R × W)) (target : ι → S → K)
    (s : State ι K W C R) : Event ι K → Option (State ι K W C R)
  | .start i k =>
      match s.job i, s.current k with
      | .fresh c, none =>
          some { s with
            job := Function.update s.job i (.running k c)
            current := Function.update s.current k (some i) }
      | _, _ => none
  | .take k =>
      match s.current k, s.queue k with
      | none, i :: q =>
          match s.job i with
          | .queued _ c =>
              some { s with
                job := Function.update s.job i (.running k c)
                queue := Function.update s.queue k q
                current := Function.update s.current k (some i) }
          | _ => none
      | _, _ => none
  | .step i =>
      match s.job i with
      | .running k c =>
          (act c k (s.stop i) s.world).map fun out => s.perform target i k out.2 out.1
      | _ => none
  | .requestStop i =>
      if s.stop i then none else some { s with stop := Function.update s.stop i true }

/-! ### What a step can do -/

inductive Turn (act : C → K → Bool → W → Option (Outcome S C R × W)) (target : ι → S → K)
    (s : State ι K W C R) : Event ι K → State ι K W C R → Prop
  | start {i k c} (hjob : s.job i = .fresh c) (hcurrent : s.current k = none) :
      Turn act target s (.start i k) { s with
        job := Function.update s.job i (.running k c)
        current := Function.update s.current k (some i) }
  | take {i k k' c q} (hcurrent : s.current k = none) (hqueue : s.queue k = i :: q)
      (hjob : s.job i = .queued k' c) :
      Turn act target s (.take k) { s with
        job := Function.update s.job i (.running k c)
        queue := Function.update s.queue k q
        current := Function.update s.current k (some i) }
  | step {i k c o w} (hjob : s.job i = .running k c)
      (hact : act c k (s.stop i) s.world = some (o, w)) :
      Turn act target s (.step i) (s.perform target i k w o)
  | requestStop {i} (hstop : s.stop i = false) :
      Turn act target s (.requestStop i) { s with stop := Function.update s.stop i true }

section Steps

variable {act : C → K → Bool → W → Option (Outcome S C R × W)} {target : ι → S → K}
  {s s' : State ι K W C R} {e : Event ι K}

theorem step_turn (h : step act target s e = some s') : Turn act target s e s' := by
  cases e with
  | start i k =>
      simp only [step] at h
      split at h
      · next hjob hcurrent =>
          cases h
          exact .start hjob hcurrent
      · cases h
  | take k =>
      simp only [step] at h
      split at h
      · next hcurrent hqueue =>
          split at h
          · next hjob =>
              cases h
              exact .take hcurrent hqueue hjob
          · cases h
      · cases h
  | step i =>
      simp only [step] at h
      split at h
      · next hjob =>
          obtain ⟨⟨o, w⟩, hact, rfl⟩ := Option.map_eq_some_iff.mp h
          exact .step hjob hact
      · cases h
  | requestStop i =>
      simp only [step] at h
      split at h
      · cases h
      · next hstop =>
          cases h
          exact .requestStop (by simpa using hstop)

theorem Turn.step_eq (h : Turn act target s e s') : Crew.step act target s e = some s' := by
  cases h with
  | start hjob hcurrent => simp only [Crew.step, hjob, hcurrent]
  | take hcurrent hqueue hjob => simp only [Crew.step, hcurrent, hqueue, hjob]
  | step hjob hact => simp only [Crew.step, hjob, hact, Option.map_some]
  | requestStop hstop => simp [Crew.step, hstop]

/-- A step of a job leaves the others alone. -/
theorem job_perform_of_ne {i j : ι} (hne : i ≠ j) (k : K) (w : W) (o : Outcome S C R) :
    (s.perform target j k w o).job i = s.job i := by
  cases o <;> exact Function.update_of_ne hne _ _

/-- Only a start changes a job that has not been started. -/
theorem Turn.fresh {i : ι} {c : C} (h : Turn act target s e s') (hi : s.job i = .fresh c)
    (he : ∀ k, e ≠ .start i k) : s'.job i = .fresh c := by
  cases h with
  | requestStop => exact hi
  | start | take => grind [Function.update_apply]
  | step hjob _ =>
      rw [job_perform_of_ne, hi]
      rintro rfl
      cases hi.symm.trans hjob

/-- A job that has ended has ended for ever. -/
theorem Turn.done {i : ι} {k : K} {r : R} (h : Turn act target s e s')
    (hi : s.job i = .done k r) : s'.job i = .done k r := by
  cases h with
  | requestStop => exact hi
  | start | take => grind [Function.update_apply]
  | step hjob _ =>
      rw [job_perform_of_ne, hi]
      rintro rfl
      cases hi.symm.trans hjob

/-- Only a step of the job ends it. -/
theorem Turn.not_done {i : ι} (h : Turn act target s e s') (hi : ∀ k r, s.job i ≠ .done k r)
    (he : e ≠ .step i) (k : K) (r : R) : s'.job i ≠ .done k r := by
  cases h with
  | requestStop => exact hi k r
  | start | take => grind [Function.update_apply]
  | @step j k' c' o w hjob hact =>
      have hne : i ≠ j := fun hij => he (by rw [hij])
      rw [job_perform_of_ne hne]
      exact hi k r

/-- Nothing makes a job one that has not been started. -/
theorem Turn.not_fresh {i : ι} (h : Turn act target s e s') (hi : ∀ c, s.job i ≠ .fresh c)
    (c : C) : s'.job i ≠ .fresh c := by
  cases h with
  | requestStop => exact hi c
  | start | take => grind [Function.update_apply]
  | @step j k c' o w hjob hact =>
      rcases eq_or_ne i j with rfl | hne
      · cases o <;> simp [State.perform]
      · rw [job_perform_of_ne hne]
        exact hi c

end Steps

/-! ### Where the jobs are -/

/-- A place has the job that it executes and those that wait for it. -/
structure Placed (s : State ι K W C R) : Prop where
  current : ∀ k i, s.current k = some i ↔ (s.job i).place = some k
  queue : ∀ k i, i ∈ s.queue k ↔ (s.job i).waitsFor = some k
  nodup : ∀ k, (s.queue k).Nodup

section Placed

variable {act : C → K → Bool → W → Option (Outcome S C R × W)} {target : ι → S → K}
  {s s' : State ι K W C R} {e : Event ι K}

omit [DecidableEq ι] [DecidableEq K] in
theorem placed_init (c : ι → C) (w : W) : Placed (State.init c w : State ι K W C R) := by
  constructor <;> simp [State.init]

theorem Placed.turn (hp : Placed s) (h : Turn act target s e s') : Placed s' := by
  obtain ⟨hcurrent, hqueue, hnodup⟩ := hp
  cases h with
  | @start i k c hjob hfree =>
      have := hcurrent k
      refine ⟨fun k' i' => ?_, fun k' i' => ?_, hnodup⟩
      · grind [Function.update_apply, Job.place]
      · grind [Function.update_apply, Job.waitsFor]
  | @take i k k' c q hfree hq hjob =>
      have hfirst := hqueue k i
      have hrest := hnodup k
      have := hcurrent k
      refine ⟨fun k' i' => ?_, fun k' i' => ?_, fun k' => ?_⟩
      · grind [Function.update_apply, Job.place]
      · grind [Function.update_apply, Job.waitsFor]
      · grind [Function.update_apply]
  | requestStop => exact ⟨hcurrent, hqueue, hnodup⟩
  | @step i k c o w hjob hact =>
      have := hcurrent k i
      cases o with
      | more c' =>
          refine ⟨fun k' i' => ?_, fun k' i' => ?_, hnodup⟩
          · simp only [State.perform]
            grind [Function.update_apply, Job.place]
          · simp only [State.perform]
            grind [Function.update_apply, Job.waitsFor]
      | hop x c' =>
          have hnew : i ∉ s.queue (target i x) := by
            simp [hqueue, hjob]
          refine ⟨fun k' i' => ?_, fun k' i' => ?_, fun k' => ?_⟩
          · simp only [State.perform]
            grind [Function.update_apply, Job.place]
          · simp only [State.perform]
            grind [Function.update_apply, Job.waitsFor]
          · simp only [State.perform]
            grind [Function.update_apply]
      | done r =>
          refine ⟨fun k' i' => ?_, fun k' i' => ?_, hnodup⟩
          · simp only [State.perform]
            grind [Function.update_apply, Job.place]
          · simp only [State.perform]
            grind [Function.update_apply, Job.waitsFor]

/-- Where no job can make a step, no job is executed. -/
theorem Placed.current_eq_none (hp : Placed s)
    (hact : ∀ i k c, s.job i = .running k c → ∀ b w, act c k b w ≠ none)
    (hstep : ∀ i, step act target s (.step i) = none) (k : K) : s.current k = none := by
  by_contra hne
  obtain ⟨j, hj⟩ := Option.ne_none_iff_exists'.mp hne
  have hplace := (hp.current k j).mp hj
  cases hjob : s.job j with
  | running k' c =>
      have hnone := hstep j
      simp only [step, hjob, Option.map_eq_none_iff] at hnone
      exact hact j k' c hjob _ _ hnone
  | fresh | queued | done => simp [hjob] at hplace

/-- Where nothing is left to be done but in some places that do not take anything, every job that
has been started has ended or waits for one of them. -/
theorem Placed.ended_or_blocked (hp : Placed s)
    (hact : ∀ i k c, s.job i = .running k c → ∀ b w, act c k b w ≠ none) (blocked : K → Prop)
    (hstep : ∀ i, step act target s (.step i) = none)
    (htake : ∀ k, ¬ blocked k → step act target s (.take k) = none) :
    (∀ k, ¬ blocked k → s.queue k = []) ∧
      ∀ i, (∃ c, s.job i = .fresh c) ∨ (∃ k r, s.job i = .done k r) ∨
        ∃ k c, s.job i = .queued k c ∧ blocked k := by
  have hfree := hp.current_eq_none hact hstep
  -- a place could take the first job of its queue
  have hempty (k : K) (hk : ¬ blocked k) : s.queue k = [] := by
    by_contra hne
    obtain ⟨j, q, hq⟩ := List.exists_cons_of_ne_nil hne
    have hwaits := (hp.queue k j).mp (by simp [hq])
    have hnone := htake k hk
    cases hjob : s.job j with
    | queued k' c' => simp [step, hfree, hq, hjob] at hnone
    | fresh | running | done => simp [hjob] at hwaits
  refine ⟨hempty, fun i => ?_⟩
  cases hi : s.job i with
  | fresh c => exact .inl ⟨c, rfl⟩
  | done k r => exact .inr (.inl ⟨k, r, rfl⟩)
  | running k c =>
      have hcurrent := (hp.current k i).mpr (by simp [hi])
      cases (hfree k).symm.trans hcurrent
  | queued k c =>
      refine .inr (.inr ⟨k, c, rfl, ?_⟩)
      by_contra hk
      have hmem : i ∈ s.queue k := (hp.queue k i).mpr (by simp [hi])
      simp [hempty k hk] at hmem

/-- Where nothing is left to be done, every job that has been started has ended. -/
theorem Placed.ended_of_idle (hp : Placed s)
    (hact : ∀ i k c, s.job i = .running k c → ∀ b w, act c k b w ≠ none)
    (hidle : ∀ e, e.works = true → step act target s e = none) (i : ι) :
    (∃ c, s.job i = .fresh c) ∨ ∃ k r, s.job i = .done k r := by
  have hended := hp.ended_or_blocked hact (fun _ => False)
    (fun j => hidle (.step j) rfl) fun k _ => hidle (.take k) rfl
  simpa using hended.2 i

end Placed

theorem placed_of_run {act : C → K → Bool → W → Option (Outcome S C R × W)} {target : ι → S → K}
    {c : ι → C} {w : W} {tr : List (Event ι K)} {s : State ι K W C R}
    (h : Run (step act target) (.init c w) tr s) : Placed s :=
  Run.induction (P := fun _ s => Placed s) (placed_init c w)
    (fun _ _ _ _ _ hp hs => hp.turn (step_turn hs)) h

/-! ### What resumptions keep -/

/-- What is known of the jobs that have been started. -/
def Job.Satisfies (P : K → C → Prop) (Q : K → R → Prop) : Job K C R → Prop
  | .fresh _ => True
  | .queued k c | .running k c => P k c
  | .done k r => Q k r

section Keeps

variable {I : W → Prop} {Ans : ι → Bool → Prop} {target : ι → S → K} {Q : ι → K → R → Prop}
  {m : ι → Resumption K S W R} {w : W} {tr : List (Event ι K)}
  {s : State ι K W (Resumption K S W R) R}

/-- Every job keeps the invariant, started where it is and asked to stop or not. -/
structure Kept (I : W → Prop) (Ans : ι → Bool → Prop) (target : ι → S → K) (Q : ι → K → R → Prop)
    (m : ι → Resumption K S W R) (s : State ι K W (Resumption K S W R) R) : Prop where
  world : I s.world
  stop : ∀ i, Ans i (s.stop i)
  fresh : ∀ i c, s.job i = .fresh c → c = m i
  job : ∀ i, (s.job i).Satisfies (fun k c => c.Keeps I (Ans i) (target i) (Q i) k) (Q i)

theorem Kept.turn {s' : State ι K W (Resumption K S W R) R} {e : Event ι K}
    (hk : Kept I Ans target Q m s) (hp : Placed s)
    (hstart : ∀ i k, e = .start i k → (m i).Keeps I (Ans i) (target i) (Q i) k)
    (hstop : ∀ i, e = .requestStop i → Ans i true)
    (h : Turn Resumption.step target s e s') : Kept I Ans target Q m s' := by
  obtain ⟨hworld, hans, hfresh, hjobs⟩ := hk
  cases h with
  | @start i k c hjob hfree =>
      obtain rfl := hfresh i c hjob
      refine ⟨hworld, hans, ?_, ?_⟩
      · grind [Function.update_apply]
      · exact (Function.forall_update_iff _ _).mpr ⟨hstart i k rfl, fun j _ => hjobs j⟩
  | @take i k k' c q hfree hq hjob =>
      obtain rfl : k' = k := by
        have hwaits := (hp.queue k i).mp (by simp [hq])
        simpa [hjob] using hwaits
      have hkeeps := hjobs i
      rw [hjob] at hkeeps
      refine ⟨hworld, hans, ?_, ?_⟩
      · grind [Function.update_apply]
      · exact (Function.forall_update_iff _ _).mpr ⟨hkeeps, fun j _ => hjobs j⟩
  | @requestStop i _ =>
      refine ⟨hworld, ?_, hfresh, hjobs⟩
      exact (Function.forall_update_iff _ _).mpr ⟨hstop i rfl, fun j _ => hans j⟩
  | @step i k c o w' hjob hact =>
      have hkeeps := hjobs i
      rw [hjob] at hkeeps
      obtain ⟨hworld', ho⟩ := Resumption.Keeps.step hkeeps (hans i) hworld hact
      cases o with
      | more c' | hop x c' | done r =>
          refine ⟨hworld', hans, ?_, ?_⟩
          · simp only [State.perform]
            grind [Function.update_apply]
          · exact (Function.forall_update_iff _ _).mpr ⟨ho, fun j _ => hjobs j⟩

theorem kept_of_run (h : Run (step Resumption.step target) (.init m w) tr s) (hw : I w)
    (hstart : ∀ i k, .start i k ∈ tr → (m i).Keeps I (Ans i) (target i) (Q i) k)
    (hno : ∀ i, Ans i false) (hyes : ∀ i, .requestStop i ∈ tr → Ans i true) :
    Kept I Ans target Q m s := by
  refine Run.induction (P := fun tr s => (∀ e ∈ tr,
    (∀ i k, e = .start i k → (m i).Keeps I (Ans i) (target i) (Q i) k) ∧
    (∀ i, e = .requestStop i → Ans i true)) → Kept I Ans target Q m s) ?_ ?_ h ?_
  · exact fun _ => ⟨hw, hno, fun _ _ h => (Job.fresh.inj h).symm, fun _ => trivial⟩
  · intro tr s e s' hr ih hs hall
    obtain ⟨htr, he⟩ := List.forall_mem_append.mp hall
    obtain ⟨hstart, hstop⟩ := he e (List.mem_singleton_self e)
    exact (ih htr).turn (placed_of_run hr) hstart hstop (step_turn hs)
  · rintro e he
    exact ⟨fun i k heq => hstart i k (heq ▸ he), fun i heq => hyes i (heq ▸ he)⟩

end Keeps

/-! ### What resumptions wait for -/

/-- The job only waits for what satisfies `P`, now and later. -/
def Job.Hopping (P : S → Prop) (target : S → K) : Job K (Resumption K S W R) R → Prop
  | .fresh m | .running _ m => m.HopsTo P
  | .queued k m => m.HopsTo P ∧ ∃ x, P x ∧ target x = k
  | .done _ _ => True

theorem hopping_of_run {P : ι → S → Prop} {target : ι → S → K} {m : ι → Resumption K S W R} {w : W}
    {tr : List (Event ι K)} {s : State ι K W (Resumption K S W R) R}
    (h : Run (step Resumption.step target) (.init m w) tr s) (hm : ∀ i, (m i).HopsTo (P i)) :
    ∀ i, (s.job i).Hopping (P i) (target i) := by
  refine Run.induction (P := fun _ s => ∀ i, (s.job i).Hopping (P i) (target i)) hm ?_ h
  intro tr s e s' _ ih hs
  have hupdate {i : ι} {j : Job K (Resumption K S W R) R} (hj : j.Hopping (P i) (target i))
      (i' : ι) : (Function.update s.job i j i').Hopping (P i') (target i') := by
    rcases eq_or_ne i' i with rfl | hne
    · simpa using hj
    · simpa [hne] using ih i'
  cases step_turn hs with
  | requestStop => exact ih
  | @start i k c hjob hfree =>
      have hc : c.HopsTo (P i) := by simpa [hjob, Job.Hopping] using ih i
      exact hupdate hc
  | @take i k k' c q hfree hq hjob =>
      have hc : c.HopsTo (P i) := by
        have hhopping := ih i
        rw [hjob] at hhopping
        exact hhopping.1
      exact hupdate hc
  | @step i k c o w' hjob hact =>
      have hc : c.HopsTo (P i) := by simpa [hjob, Job.Hopping] using ih i
      have ho := hc.step hact
      cases o with
      | more c' => exact hupdate ho
      | hop x c' => exact hupdate ⟨ho.2, x, ho.1, rfl⟩
      | done r => exact hupdate True.intro

/-! ### Jobs that are simulated by others -/

/-- Two outcomes are the same but for the jobs that go on. -/
inductive OutcomeRel (Rel : C → C' → Prop) : Outcome S C R → Outcome S C' R → Prop
  | more {c a} (h : Rel c a) : OutcomeRel Rel (.more c) (.more a)
  | hop {x c a} (h : Rel c a) : OutcomeRel Rel (.hop x c) (.hop x a)
  | done {r} : OutcomeRel Rel (.done r) (.done r)

inductive JobRel (Rel : C → C' → Prop) : Job K C R → Job K C' R → Prop
  | fresh {c a} (h : Rel c a) : JobRel Rel (.fresh c) (.fresh a)
  | queued {k c a} (h : Rel c a) : JobRel Rel (.queued k c) (.queued k a)
  | running {k c a} (h : Rel c a) : JobRel Rel (.running k c) (.running k a)
  | done {k r} : JobRel Rel (.done k r) (.done k r)

section JobRel

variable {Rel : C → C' → Prop} {k : K} {c : C} {j : Job K C' R}

omit [DecidableEq K] in
theorem JobRel.fresh_inv (h : JobRel Rel (.fresh c) j) : ∃ a, j = .fresh a ∧ Rel c a := by
  cases h with
  | fresh ha => exact ⟨_, rfl, ha⟩

omit [DecidableEq K] in
theorem JobRel.queued_inv (h : JobRel Rel (.queued k c) j) : ∃ a, j = .queued k a ∧ Rel c a := by
  cases h with
  | queued ha => exact ⟨_, rfl, ha⟩

omit [DecidableEq K] in
theorem JobRel.running_inv (h : JobRel Rel (.running k c) j) :
    ∃ a, j = .running k a ∧ Rel c a := by
  cases h with
  | running ha => exact ⟨_, rfl, ha⟩

omit [DecidableEq K] in
theorem JobRel.swap {j : Job K C R} {j' : Job K C' R} (h : JobRel Rel j j') :
    JobRel (fun a c => Rel c a) j' j := by
  cases h with
  | fresh h => exact .fresh h
  | queued h => exact .queued h
  | running h => exact .running h
  | done => exact .done

end JobRel

/-- Every step of a job is one of the other, or nothing that the others see. `Rel n` relates
jobs the first of which makes less than `n` steps of the second kind before one of the first. -/
def Simulates (act : C → K → Bool → W → Option (Outcome S C R × W))
    (act' : C' → K → Bool → W → Option (Outcome S C' R × W)) (Rel : ℕ → C → C' → Prop) : Prop :=
  ∀ n c a k b w o w', Rel n c a → act c k b w = some (o, w') →
    (∃ n' c', n' < n ∧ o = .more c' ∧ w' = w ∧ Rel n' c' a) ∨
      ∃ o', act' a k b w = some (o', w') ∧ OutcomeRel (fun c a => ∃ n, Rel n c a) o o'

/-- The states of two crews are the same but for the jobs, which correspond. -/
structure Simulated (Rel : C → C' → Prop) (s : State ι K W C R) (t : State ι K W C' R) : Prop where
  world : t.world = s.world
  stop : t.stop = s.stop
  queue : t.queue = s.queue
  current : t.current = s.current
  job : ∀ i, JobRel Rel (s.job i) (t.job i)

def Event.isStep : Event ι K → Bool
  | .step _ => true
  | _ => false

/-- The events of the one are those of the other but for some steps. -/
def Abridges (tr' tr : List (Event ι K)) : Prop :=
  tr'.Sublist tr ∧ tr'.filter (!·.isStep) = tr.filter (!·.isStep)

section Simulation

variable {act : C → K → Bool → W → Option (Outcome S C R × W)}
  {act' : C' → K → Bool → W → Option (Outcome S C' R × W)} {target : ι → S → K}
  {Rel : ℕ → C → C' → Prop} {s s' : State ι K W C R} {t : State ι K W C' R} {e : Event ι K}

omit [DecidableEq ι] [DecidableEq K] in
theorem Simulated.swap {R' : C → C' → Prop} (hst : Simulated R' s t) :
    Simulated (fun a c => R' c a) t s where
  world := hst.world.symm
  stop := hst.stop.symm
  queue := hst.queue.symm
  current := hst.current.symm
  job i := (hst.job i).swap

omit [DecidableEq K] in
/-- One job and what it corresponds to are changed. -/
theorem Simulated.update_job {R' : C → C' → Prop} {i : ι} {j : Job K C R} {j' : Job K C' R}
    (hst : Simulated R' s t) (hj : JobRel R' j j') (i' : ι) :
    JobRel R' (Function.update s.job i j i') (Function.update t.job i j' i') := by
  rcases eq_or_ne i' i with rfl | hne
  · simpa using hj
  · simpa [hne] using hst.job i'

/-- A step of a job, with what corresponds to it. -/
theorem Simulated.perform (hsim : Simulates act act' Rel)
    (hst : Simulated (fun c a => ∃ n, Rel n c a) s t) {i : ι} {k : K} {n : ℕ} {c : C} {a : C'}
    {o : Outcome S C R} {w : W} (ha : Rel n c a) (hi : t.job i = .running k a)
    (hact : act c k (s.stop i) s.world = some (o, w)) :
    (∃ n' c', n' < n ∧ o = .more c' ∧ Rel n' c' a ∧
        Simulated (fun c a => ∃ n, Rel n c a) (s.perform target i k w o) t) ∨
      ∃ o', act' a k (t.stop i) t.world = some (o', w) ∧
        Simulated (fun c a => ∃ n, Rel n c a) (s.perform target i k w o)
          (t.perform target i k w o') := by
  rcases hsim n c a k _ _ o w ha hact with ⟨n', c', hn, rfl, rfl, hc'⟩ | ⟨o', hact', ho⟩
  · refine .inl ⟨n', c', hn, rfl, hc', hst.world, hst.stop, hst.queue, hst.current, fun i' => ?_⟩
    have hrunning : JobRel (fun c a => ∃ n, Rel n c a) (.running k c')
        (.running k a : Job K C' R) := .running ⟨n', hc'⟩
    have hjob := hst.update_job (i := i) hrunning i'
    rwa [← hi, Function.update_eq_self] at hjob
  · refine .inr ⟨o', by rwa [hst.stop, hst.world], ?_⟩
    cases ho with
    | more hc => exact ⟨rfl, hst.stop, hst.queue, hst.current, hst.update_job (.running hc)⟩
    | hop hc =>
        refine ⟨rfl, hst.stop, ?_, ?_, hst.update_job (.queued hc)⟩
        · simp only [State.perform, hst.queue]
        · simp only [State.perform, hst.current]
    | done =>
        refine ⟨rfl, hst.stop, hst.queue, ?_, hst.update_job .done⟩
        simp only [State.perform, hst.current]

/-- What is not a step of a job happens to both. -/
theorem Simulated.turn_of_not_isStep {R' : C → C' → Prop} (hst : Simulated R' s t)
    (h : Turn act target s e s') (he : e.isStep = false) :
    ∃ t', step act' target t e = some t' ∧ Simulated R' s' t' := by
  cases h with
  | @start i k c hjob hfree =>
      obtain ⟨a, hi, ha⟩ := (hjob ▸ hst.job i).fresh_inv
      refine ⟨_, Turn.step_eq (.start hi (by rw [hst.current, hfree])), ?_⟩
      exact ⟨hst.world, hst.stop, hst.queue, by simp only [hst.current],
        hst.update_job (.running ha)⟩
  | @take i k k' c q hfree hq hjob =>
      obtain ⟨a, hi, ha⟩ := (hjob ▸ hst.job i).queued_inv
      refine ⟨_, Turn.step_eq (.take (by rw [hst.current, hfree]) (by rw [hst.queue, hq]) hi), ?_⟩
      exact ⟨hst.world, hst.stop, by simp only [hst.queue], by simp only [hst.current],
        hst.update_job (.running ha)⟩
  | requestStop hno =>
      refine ⟨_, Turn.step_eq (.requestStop (by rw [hst.stop, hno])), ?_⟩
      exact ⟨hst.world, by simp only [hst.stop], hst.queue, hst.current, hst.job⟩
  | step => cases he

theorem Simulated.turn (hsim : Simulates act act' Rel)
    (hst : Simulated (fun c a => ∃ n, Rel n c a) s t) (h : Turn act target s e s') :
    (e.isStep = true ∧ Simulated (fun c a => ∃ n, Rel n c a) s' t) ∨
      ∃ t', step act' target t e = some t' ∧ Simulated (fun c a => ∃ n, Rel n c a) s' t' := by
  cases he : e.isStep with
  | false => exact .inr (hst.turn_of_not_isStep h he)
  | true =>
      cases h with
      | start | take | requestStop => cases he
      | @step i k c o w' hjob hact =>
          obtain ⟨a, hi, n, ha⟩ := (hjob ▸ hst.job i).running_inv
          rcases hst.perform hsim ha hi hact with ⟨-, -, -, -, -, hst'⟩ | ⟨o', hact', hst'⟩
          · exact .inl ⟨rfl, hst'⟩
          · exact .inr ⟨_, Turn.step_eq (.step hi hact'), hst'⟩

/-- Every run of the jobs is one of those that simulate them. -/
theorem exists_run_of_simulates (hsim : Simulates act act' Rel) {c : ι → C} {a : ι → C'}
    (hrel : ∀ i, ∃ n, Rel n (c i) (a i)) {w : W} {tr : List (Event ι K)}
    (h : Run (step act target) (.init c w) tr s) :
    ∃ tr' t, Run (step act' target) (.init a w) tr' t ∧
      Simulated (fun c a => ∃ n, Rel n c a) s t ∧ Abridges tr' tr := by
  refine Run.induction (P := fun tr s => ∃ tr' t, Run (step act' target) (.init a w) tr' t ∧
    Simulated (fun c a => ∃ n, Rel n c a) s t ∧ Abridges tr' tr) ?_ ?_ h
  · exact ⟨[], _, run_nil.mpr rfl, ⟨rfl, rfl, rfl, rfl, fun i => .fresh (hrel i)⟩,
      List.Sublist.refl _, rfl⟩
  · rintro tr s e s' - ⟨tr', t, hrun, hst, hsub, hfilter⟩ hs
    rcases hst.turn hsim (step_turn hs) with ⟨he, hst'⟩ | ⟨t', ht', hst'⟩
    · refine ⟨tr', t, hrun, hst', hsub.trans (List.sublist_append_left _ _), ?_⟩
      rw [hfilter, List.filter_append, List.filter_cons_of_neg (by simp [he])]
      simp
    · refine ⟨tr' ++ [e], t', hrun.concat ht', hst', hsub.append_right [e], ?_⟩
      rw [List.filter_append, hfilter, List.filter_append]

/-- What a job corresponds to makes a step: the job does so too, after some that are not seen. -/
theorem Simulated.exists_run_of_step (hsim : Simulates act act' Rel)
    (htotal : ∀ n c a, Rel n c a → ∀ k b w, act c k b w ≠ none) {i : ι} {k : K} {a : C'}
    {o' : Outcome S C' R} {w : W} (hact' : act' a k (t.stop i) t.world = some (o', w))
    (hi : t.job i = .running k a) {n : ℕ} {c : C} (ha : Rel n c a)
    (hjob : s.job i = .running k c) (hst : Simulated (fun c a => ∃ n, Rel n c a) s t) :
    ∃ tr s', Run (step act target) s (tr ++ [.step i]) s' ∧ (∀ e ∈ tr, e = .step i) ∧
      Simulated (fun c a => ∃ n, Rel n c a) s' (t.perform target i k w o') := by
  -- induction on the number of steps that are not seen
  induction n using Nat.strong_induction_on generalizing s c with
  | h n ih =>
      obtain ⟨⟨o, w₁⟩, hact⟩ := Option.ne_none_iff_exists'.mp (htotal n c a ha k (s.stop i) s.world)
      have hstep : step act target s (.step i) = some (s.perform target i k w₁ o) :=
        (Turn.step hjob hact).step_eq
      rcases hst.perform hsim ha hi hact with ⟨n', c', hn, rfl, hc', hst'⟩ | ⟨o'', hact'', hst'⟩
      · obtain ⟨tr, s', hrun, hall, hst''⟩ := ih n' hn hc' (by simp [State.perform]) hst'
        refine ⟨.step i :: tr, s', run_cons.mpr ⟨_, hstep, hrun⟩, ?_, hst''⟩
        exact List.forall_mem_cons.mpr ⟨rfl, hall⟩
      · rw [hact'] at hact''
        cases hact''
        exact ⟨[], _, run_cons.mpr ⟨_, hstep, run_nil.mpr rfl⟩, by simp, hst'⟩

/-- Every run of what jobs correspond to is one of the jobs. -/
theorem exists_run_of_simulated (hsim : Simulates act act' Rel)
    (htotal : ∀ n c a, Rel n c a → ∀ k b w, act c k b w ≠ none) {c : ι → C} {a : ι → C'}
    (hrel : ∀ i, ∃ n, Rel n (c i) (a i)) {w : W} {tr' : List (Event ι K)}
    (h : Run (step act' target) (.init a w) tr' t) :
    ∃ tr s, Run (step act target) (.init c w) tr s ∧
      Simulated (fun c a => ∃ n, Rel n c a) s t ∧ Abridges tr' tr := by
  refine Run.induction (P := fun tr' t => ∃ tr s, Run (step act target) (.init c w) tr s ∧
    Simulated (fun c a => ∃ n, Rel n c a) s t ∧ Abridges tr' tr) ?_ ?_ h
  · exact ⟨[], _, run_nil.mpr rfl, ⟨rfl, rfl, rfl, rfl, fun i => .fresh (hrel i)⟩,
      List.Sublist.refl _, rfl⟩
  · rintro tr' t e t' - ⟨tr, s, hrun, hst, hsub, hfilter⟩ hs
    cases he : e.isStep with
    | false =>
        obtain ⟨s', hs', hst'⟩ := hst.swap.turn_of_not_isStep (step_turn hs) he
        refine ⟨tr ++ [e], s', hrun.concat hs', hst'.swap, hsub.append_right [e], ?_⟩
        rw [List.filter_append, hfilter, List.filter_append]
    | true =>
        cases step_turn hs with
        | start | take | requestStop => cases he
        | @step i k a o' w' hjob hact' =>
            obtain ⟨c, hi, n, hc⟩ := (hjob ▸ (hst.job i).swap).running_inv
            obtain ⟨steps, s', hrun', hall, hst'⟩ :=
              hst.exists_run_of_step hsim htotal hact' hjob hc hi
            have hnone : steps.filter (!·.isStep) = [] :=
              List.filter_eq_nil_iff.mpr fun e he => by simp [hall e he, Event.isStep]
            refine ⟨tr ++ (steps ++ [.step i]), s', run_append.mpr ⟨s, hrun, hrun'⟩, hst', ?_, ?_⟩
            · exact hsub.append (List.sublist_append_right _ _)
            · simp [List.filter_append, hfilter, hnone]

end Simulation

/-! ### Everything comes to an end -/

def Next (act : C → K → Bool → W → Option (Outcome S C R × W)) (c' c : C) : Prop :=
  ∃ k b w o w', act c k b w = some (o, w') ∧ o.rest = some c'

inductive Less (act : C → K → Bool → W → Option (Outcome S C R × W)) :
    Job K C R → Job K C R → Prop
  | start {k c} : Less act (.running k c) (.fresh c)
  | take {k k' c} : Less act (.running k c) (.queued k' c)
  | more {k c c'} (h : Next act c' c) : Less act (.running k c') (.running k c)
  | hop {k k' c c'} (h : Next act c' c) : Less act (.queued k' c') (.running k c)
  | done {k c r} : Less act (.done k r) (.running k c)

/-- Things get less or stay as they are, so in the end they stay as they are. -/
theorem exists_forall_of_acc {α : Type*} {r : α → α → Prop} {x : ℕ → α} {P : ℕ → Prop}
    (hacc : Acc r (x 0)) (hless : ∀ n, ¬ P n → r (x (n + 1)) (x n))
    (hle : ∀ n, x (n + 1) = x n ∨ r (x (n + 1)) (x n)) : ∃ N, ∀ n, N ≤ n → P n := by
  by_contra hnot
  have hlater (n : ℕ) : ∃ m, n ≤ m ∧ ¬ P m := by
    by_contra h
    refine hnot ⟨n, fun m hm => ?_⟩
    by_contra hP
    exact h ⟨m, hm, hP⟩
  have hgets {n m : ℕ} (h : n ≤ m) : x m = x n ∨ Relation.TransGen r (x m) (x n) := by
    induction m, h using Nat.le_induction with
    | base => exact .inl rfl
    | succ m _ ih =>
        rcases hle m with hsame | hm
        · rwa [hsame]
        · rcases ih with hsame | htrans
          · exact .inr (.single (hsame ▸ hm))
          · exact .inr (.head hm htrans)
  have hnever {y : α} (hy : Acc (Relation.TransGen r) y) : ∀ n, x n ≠ y := by
    induction hy with
    | intro y _ ih =>
        rintro n rfl
        obtain ⟨m, hm, hP⟩ := hlater n
        refine ih (x (m + 1)) ?_ (m + 1) rfl
        rcases hgets hm with hsame | htrans
        · exact .single (hsame ▸ hless m hP)
        · exact .head (hless m hP) htrans
  exact hnever hacc.transGen 0 rfl

/-- One of finitely many things gets less, and the others stay as they are. -/
theorem acc_of_forall_acc [Fintype ι] {α : Type*} {r : α → α → Prop} {x : ι → α}
    (h : ∀ i, Acc r (x i)) :
    Acc (fun y x : ι → α => ∃ i, r (y i) (x i) ∧ ∀ j, j ≠ i → y j = x j) x := by
  -- all of them are a multiset, and what gets less is one element of it
  let below (a b : α) : Prop := r a b ∧ Acc r b
  have hloop {a : α} (ha : Acc r a) : ¬ r a a := by
    induction ha with
    | intro a _ ih => exact fun h => ih a h h
  have hirrefl : Std.Irrefl below := ⟨fun a h => hloop h.2 h.1⟩
  have hbelow {a : α} (ha : Acc r a) : Acc below a := by
    induction ha with
    | intro a _ ih => exact .intro a fun b hb => ih b hb.1
  let all (x : ι → α) : Multiset α := ∑ i, {x i}
  have hsplit (x : ι → α) (i : ι) : all x = {x i} + ∑ j ∈ Finset.univ.erase i, {x j} :=
    (Finset.add_sum_erase _ _ (Finset.mem_univ i)).symm
  have hall : Acc (Relation.CutExpand below) (all x) := by
    refine Relation.acc_of_singleton fun a ha => ?_
    obtain ⟨i, -, hi⟩ := Multiset.mem_sum.mp ha
    obtain rfl := Multiset.mem_singleton.mp hi
    exact (hbelow (h i)).cutExpand
  generalize hm : all x = m at hall
  induction hall generalizing x with
  | intro m _ ih =>
      subst hm
      refine .intro x fun y ⟨i, hi, hsame⟩ => ?_
      refine ih (all y) ?_ (fun j => ?_) rfl
      · have hrest : ∑ j ∈ Finset.univ.erase i, ({y j} : Multiset α) =
            ∑ j ∈ Finset.univ.erase i, {x j} :=
          Finset.sum_congr rfl fun j hj => by rw [hsame j (Finset.ne_of_mem_erase hj)]
        rw [hsplit y i, hsplit x i, hrest]
        exact Relation.cutExpand_single_add ⟨hi, h i⟩ _
      · rcases eq_or_ne j i with rfl | hne
        · exact (h j).inv hi
        · rw [hsame j hne]
          exact h j

omit [DecidableEq K] in
theorem acc_next_of_simulates {act : C → K → Bool → W → Option (Outcome S C R × W)}
    {act' : C' → K → Bool → W → Option (Outcome S C' R × W)} {Rel : ℕ → C → C' → Prop}
    (hsim : Simulates act act' Rel) {a : C'} (ha : Acc (Next act') a) {n : ℕ} {c : C}
    (h : Rel n c a) : Acc (Next act) c := by
  induction ha generalizing n c with
  | intro a _ ih =>
      induction n using Nat.strong_induction_on generalizing c with
      | h n ihn =>
          refine .intro c fun c₁ ⟨k, b, w, o, w', hact, ho⟩ => ?_
          rcases hsim n c a k b w o w' h hact with ⟨n', c', hn, rfl, -, hc'⟩ | ⟨o', hact', hrel⟩
          · -- a step that the other does not make
            cases ho
            exact ihn n' hn hc'
          · cases hrel with
            | more hc =>
                cases ho
                obtain ⟨n', hn'⟩ := hc
                exact ih _ ⟨k, b, w, _, w', hact', rfl⟩ hn'
            | hop hc =>
                cases ho
                obtain ⟨n', hn'⟩ := hc
                exact ih _ ⟨k, b, w, _, w', hact', rfl⟩ hn'
            | done => cases ho

omit [DecidableEq K] in
/-- A resumption makes finitely many steps. -/
theorem acc_next_resumption (m : Resumption K S W R) : Acc (Next Resumption.step) m := by
  induction m with
  | done r =>
      refine .intro _ fun c ⟨k, b, w, o, w', hact, ho⟩ => ?_
      cases hact
      cases ho
  | act f next ih =>
      refine .intro _ fun c ⟨k, b, w, o, w', hact, ho⟩ => ?_
      cases hact
      cases ho
      exact ih k w
  | ask next ih =>
      refine .intro _ fun c ⟨k, b, w, o, w', hact, ho⟩ => ?_
      cases hact
      cases ho
      exact ih b
  | hop s next ih =>
      refine .intro _ fun c ⟨k, b, w, o, w', hact, ho⟩ => ?_
      cases hact
      cases ho
      exact ih

section Ends

variable {act : C → K → Bool → W → Option (Outcome S C R × W)} {target : ι → S → K}
  {s s' : State ι K W C R} {e : Event ι K}

/-- What has become of a job, and whether it has been asked to stop. -/
def State.status (s : State ι K W C R) (i : ι) : Job K C R × Bool := (s.job i, s.stop i)

/-- A stop request changes no job, and everything else makes one of them less. -/
theorem Turn.less (h : Turn act target s e s') :
    (∃ i, e = .requestStop i ∧ s.stop i = false ∧
      s' = { s with stop := Function.update s.stop i true }) ∨
      s'.stop = s.stop ∧ ∃ i, Less act (s'.job i) (s.job i) ∧ ∀ j, j ≠ i → s'.job j = s.job j := by
  cases h with
  | requestStop hstop => exact .inl ⟨_, rfl, hstop, rfl⟩
  | @start i k c hjob _ =>
      refine .inr ⟨rfl, i, ?_, fun j hj => by simp [hj]⟩
      simpa [hjob] using .start
  | @take i k k' c q _ _ hjob =>
      refine .inr ⟨rfl, i, ?_, fun j hj => by simp [hj]⟩
      simpa [hjob] using .take
  | @step i k c o w hjob hact =>
      refine .inr ⟨by cases o <;> rfl, i, ?_, fun j hj => job_perform_of_ne hj k w o⟩
      cases o with
      | more c' =>
          have hnext : Next act c' c := ⟨k, _, _, _, _, hact, rfl⟩
          simpa [State.perform, hjob] using Less.more hnext
      | hop x c' =>
          have hnext : Next act c' c := ⟨k, _, _, _, _, hact, rfl⟩
          simpa [State.perform, hjob] using Less.hop hnext
      | done r => simpa [State.perform, hjob] using .done

omit [DecidableEq K] in
theorem acc_less_running {c : C} (h : Acc (Next act) c) :
    ∀ k : K, Acc (Less act) (.running k c : Job K C R) ∧
      Acc (Less act) (.queued k c : Job K C R) := by
  induction h with
  | intro c _ ih =>
      have hrunning (k : K) : Acc (Less act) (.running k c : Job K C R) := by
        refine .intro _ fun _ h => ?_
        cases h with
        | more hc => exact (ih _ hc k).1
        | hop hc => exact (ih _ hc _).2
        | done => exact .intro _ fun _ h => by cases h
      refine fun k => ⟨hrunning k, .intro _ fun _ h => ?_⟩
      cases h with
      | take => exact hrunning _

omit [DecidableEq K] in
theorem acc_less_fresh {c : C} (h : Acc (Next act) c) :
    Acc (Less act) (.fresh c : Job K C R) := by
  refine .intro _ fun _ hless => ?_
  cases hless with
  | start => exact (acc_less_running h _).1

/-- No run goes on for ever, if no job could. -/
theorem acc_init [Fintype ι] {c : ι → C} (h : ∀ i, Acc (Next act) (c i)) (w : W) :
    Acc (fun s' s : State ι K W C R => ∃ e, step act target s e = some s') (.init c w) := by
  have hacc : Acc _ fun i => ((.fresh (c i) : Job K C R), false) :=
    acc_of_forall_acc fun i => (acc_less_fresh (h i)).prod_gameAdd (wellFounded_gt.apply false)
  have hless : Subrelation (fun s' s : State ι K W C R => ∃ e, step act target s e = some s')
      (InvImage (fun y x => ∃ i, Prod.GameAdd (Less act) (· > ·) (y i) (x i) ∧
        ∀ j, j ≠ i → y j = x j) State.status) := by
    rintro s' s ⟨e, he⟩
    rcases (step_turn he).less with ⟨i, -, hi, rfl⟩ | ⟨hstop, i, hi, hsame⟩
    · exact ⟨i, by simp [State.status, Prod.gameAdd_iff, hi],
        fun j hj => by simp [State.status, hj]⟩
    · exact ⟨i, by simp [State.status, Prod.gameAdd_iff, hstop, hi],
        fun j hj => by simp [State.status, hstop, hsame j hj]⟩
  exact hless.accessible (InvImage.accessible State.status hacc)

/-- There is no run without an end, if no job could run for ever. -/
theorem not_exists_infinite [Fintype ι] {c : ι → C} {w : W} (h : ∀ i, Acc (Next act) (c i)) :
    ¬ ∃ f : ℕ → State ι K W C R, f 0 = .init c w ∧
      ∀ n, ∃ e, step act target (f n) e = some (f (n + 1)) := by
  rintro ⟨f, hinit, hstep⟩
  exact (acc_iff_isEmpty_descending_chain.mp (acc_init h w)).false ⟨f, hinit, hstep⟩

end Ends

end BaremetalSenders.Crew
