import BaremetalSenders.Foundation.Crew

/-!
Jobs whose places are served by schedulers.

In a crew a place has a queue and takes from it. Here the queues belong to schedulers that are a
machine of their own. Some of its steps put a job into the queue of a place and some call one, and
the others are its own business, in a place that executes nothing then or outside of all places.
A job that hops makes the step that puts it somewhere, and it is called with the first step that
it makes there.

All that has to be known of the schedulers for the jobs to be a crew is that, in every run of
theirs, the jobs are called in a place in the order in which they were put. That everything comes
to an end needs more: the schedulers have to take what is put and to call what waits.
-/

namespace BaremetalSenders.Crew

variable {ι K S W C R Q E : Type*}

/-- What a step of the schedulers is for the jobs and the places. `put` has the place in which the
job is executed, and the one that it hops to. -/
inductive Role (ι K : Type*) where
  | outside
  | own (k : K)
  | put (k k' : K) (i : ι)
  | call (k : K) (i : ι)
  | requestStop (i : ι)

/-- Schedulers. `free` says that a place does not execute their code, and `works` that a step is not
asked for from outside. -/
structure Dispatcher (ι K Q E : Type*) where
  init : Q
  step : Q → E → Option Q
  role : E → Role ι K
  free : Q → K → Bool
  works : E → Bool

/-- The jobs, and the schedulers that serve their places. -/
structure Driven (ι K W C R Q : Type*) where
  world : W
  stop : ι → Bool
  job : ι → Job K C R
  current : K → Option ι
  queues : Q

inductive Driven.Event (ι K E : Type*) where
  | start (i : ι) (k : K)
  | step (i : ι)
  | dispatch (e : E)
  deriving DecidableEq

/-! ### What has been put and called -/

section Waiting

variable [DecidableEq K] (D : Dispatcher ι K Q E)

def Role.putIn (k : K) : Role ι K → List ι
  | .put _ k' i => if k' = k then [i] else []
  | _ => []

def Role.calledIn (k : K) : Role ι K → List ι
  | .call k' i => if k' = k then [i] else []
  | _ => []

/-- The place whose own business the step is. -/
def Role.place : Role ι K → Option K
  | .own k | .call k _ => some k
  | .outside | .put _ _ _ | .requestStop _ => none

def Dispatcher.puts (k : K) (tr : List E) : List ι := tr.flatMap fun e => (D.role e).putIn k

def Dispatcher.calls (k : K) (tr : List E) : List ι := tr.flatMap fun e => (D.role e).calledIn k

/-- The jobs that wait for the place, in the order of their calls to come. -/
def Dispatcher.waiting (tr : List E) (k : K) : List ι := (D.puts k tr).drop (D.calls k tr).length

/-- Jobs are called in the order in which they were put, in the runs whose steps meet `P`. -/
def Dispatcher.Fifo (P : Q → E → Prop) : Prop :=
  ∀ tr q, Run D.step D.init tr q → EachStep D.step P D.init tr → ∀ k, D.calls k tr <+: D.puts k tr

variable {D} {P : Q → E → Prop} {tr : List E} {q : Q} {e : E} {k : K} {i : ι}

omit [DecidableEq K] in
/-- What is read off steps of a part. -/
theorem flatMap_part {E' : Type*} {part : E → Option E'} {f : E' → List ι} {g : E → List ι}
    (h : ∀ e, g e = (part e).toList.flatMap f) (tr : List E) :
    tr.flatMap g = (tr.filterMap part).flatMap f := by
  rw [List.filterMap_eq_flatMap_toList, List.flatMap_assoc]
  exact List.flatMap_congr fun e _ => h e

theorem Dispatcher.puts_concat (k : K) :
    D.puts k (tr ++ [e]) = D.puts k tr ++ (D.role e).putIn k := by
  simp [Dispatcher.puts]

theorem Dispatcher.calls_concat (k : K) :
    D.calls k (tr ++ [e]) = D.calls k tr ++ (D.role e).calledIn k := by
  simp [Dispatcher.calls]

theorem Dispatcher.Fifo.puts_eq (hfifo : D.Fifo P) (h : Run D.step D.init tr q)
    (hP : EachStep D.step P D.init tr) (k : K) : D.puts k tr = D.calls k tr ++ D.waiting tr k :=
  (List.prefix_iff_eq_append.mp (hfifo tr q h hP k)).symm

theorem Dispatcher.waiting_eq {ys : List ι} (h : D.puts k tr = D.calls k tr ++ ys) :
    D.waiting tr k = ys := by
  rw [Dispatcher.waiting, h, List.drop_left]

theorem Dispatcher.waiting_concat (hput : ∀ k, (D.role e).putIn k = [])
    (hcall : ∀ k, (D.role e).calledIn k = []) : D.waiting (tr ++ [e]) = D.waiting tr := by
  funext k
  simp only [Dispatcher.waiting, Dispatcher.puts_concat, Dispatcher.calls_concat, hput, hcall,
    List.append_nil]

theorem Dispatcher.Fifo.waiting_put {k' : K} (hfifo : D.Fifo P) (h : Run D.step D.init tr q)
    (hP : EachStep D.step P D.init tr) (he : D.role e = .put k k' i) :
    D.waiting (tr ++ [e]) = Function.update (D.waiting tr) k' (D.waiting tr k' ++ [i]) := by
  funext k₁
  refine Dispatcher.waiting_eq ?_
  rw [Dispatcher.puts_concat, Dispatcher.calls_concat, hfifo.puts_eq h hP, he, List.append_assoc]
  rcases eq_or_ne k₁ k' with rfl | hne
  · simp [Role.putIn, Role.calledIn]
  · simp [Role.putIn, Role.calledIn, hne, hne.symm]

/-- The job that is called is the first one that waits. -/
theorem Dispatcher.Fifo.waiting_call {q' : Q} (hfifo : D.Fifo P) (h : Run D.step D.init tr q)
    (hP : EachStep D.step P D.init tr) (hs : D.step q e = some q') (hPe : P q e)
    (he : D.role e = .call k i) :
    ∃ rest, D.waiting tr k = i :: rest ∧
      D.waiting (tr ++ [e]) = Function.update (D.waiting tr) k rest := by
  have hputs := hfifo.puts_eq (h.concat hs) (hP.concat h hPe)
  simp only [Dispatcher.puts_concat, Dispatcher.calls_concat, hfifo.puts_eq h hP, he,
    List.append_assoc, List.append_cancel_left_eq] at hputs
  refine ⟨D.waiting (tr ++ [e]) k, ?_, ?_⟩
  · simpa [Role.putIn, Role.calledIn] using hputs k
  · funext k₁
    rcases eq_or_ne k₁ k with rfl | hne
    · simp
    · simpa [Role.putIn, Role.calledIn, hne, hne.symm] using (hputs k₁).symm

end Waiting

/-! ### Steps -/

section Steps

variable [DecidableEq ι] [DecidableEq K]

/-- The jobs and places with a step of the schedulers that leads to `q`. -/
def Driven.dispatch (act : C → K → Bool → W → Option (Outcome S C R × W)) (target : ι → S → K)
    (s : Driven ι K W C R Q) (q : Q) : Role ι K → Option (Driven ι K W C R Q)
  | .outside => some { s with queues := q }
  | .own k => if s.current k = none then some { s with queues := q } else none
  | .put k k' i =>
      match s.job i with
      | .running k₀ c =>
          match act c k₀ (s.stop i) s.world with
          | some (.hop x c', w) =>
              if k₀ = k ∧ target i x = k' then
                some { s with
                  world := w
                  job := Function.update s.job i (.queued k' c')
                  current := Function.update s.current k none
                  queues := q }
              else none
          | _ => none
      | _ => none
  | .call k i =>
      match s.current k, s.job i with
      | none, .queued _ c =>
          match act c k (s.stop i) s.world with
          | some (.more c', w) =>
              some { s with
                world := w
                job := Function.update s.job i (.running k c')
                current := Function.update s.current k (some i)
                queues := q }
          | _ => none
      | _, _ => none
  | .requestStop i =>
      if s.stop i then none
      else some { s with stop := Function.update s.stop i true, queues := q }

def Dispatcher.start (D : Dispatcher ι K Q E) (c : ι → C) (w : W) : Driven ι K W C R Q :=
  ⟨w, fun _ => false, fun i => .fresh (c i), fun _ => none, D.init⟩

def Driven.step (D : Dispatcher ι K Q E) (act : C → K → Bool → W → Option (Outcome S C R × W))
    (target : ι → S → K) (s : Driven ι K W C R Q) :
    Driven.Event ι K E → Option (Driven ι K W C R Q)
  | .start i k =>
      match s.job i, s.current k, D.free s.queues k with
      | .fresh c, none, true =>
          some { s with
            job := Function.update s.job i (.running k c)
            current := Function.update s.current k (some i) }
      | _, _, _ => none
  | .step i =>
      match s.job i with
      | .running k c =>
          match act c k (s.stop i) s.world with
          | some (.more c', w) =>
              some { s with world := w, job := Function.update s.job i (.running k c') }
          | some (.done r, w) =>
              some { s with
                world := w
                job := Function.update s.job i (.done k r)
                current := Function.update s.current k none }
          | _ => none
      | _ => none
  | .dispatch e => (D.step s.queues e).bind fun q => s.dispatch act target q (D.role e)

inductive Driven.Move (D : Dispatcher ι K Q E)
    (act : C → K → Bool → W → Option (Outcome S C R × W)) (target : ι → S → K)
    (s : Driven ι K W C R Q) : Driven.Event ι K E → Driven ι K W C R Q → Prop
  | start {i k c} (hjob : s.job i = .fresh c) (hcurrent : s.current k = none)
      (hfree : D.free s.queues k = true) :
      Move D act target s (.start i k) { s with
        job := Function.update s.job i (.running k c)
        current := Function.update s.current k (some i) }
  | more {i k c c' w} (hjob : s.job i = .running k c)
      (hact : act c k (s.stop i) s.world = some (.more c', w)) :
      Move D act target s (.step i)
        { s with world := w, job := Function.update s.job i (.running k c') }
  | done {i k c r w} (hjob : s.job i = .running k c)
      (hact : act c k (s.stop i) s.world = some (.done r, w)) :
      Move D act target s (.step i) { s with
        world := w
        job := Function.update s.job i (.done k r)
        current := Function.update s.current k none }
  | outside {e q} (hs : D.step s.queues e = some q) (hrole : D.role e = .outside) :
      Move D act target s (.dispatch e) { s with queues := q }
  | own {e q k} (hs : D.step s.queues e = some q) (hrole : D.role e = .own k)
      (hcurrent : s.current k = none) : Move D act target s (.dispatch e) { s with queues := q }
  | put {e q k x i c c' w} (hs : D.step s.queues e = some q)
      (hrole : D.role e = .put k (target i x) i) (hjob : s.job i = .running k c)
      (hact : act c k (s.stop i) s.world = some (.hop x c', w)) :
      Move D act target s (.dispatch e) { s with
        world := w
        job := Function.update s.job i (.queued (target i x) c')
        current := Function.update s.current k none
        queues := q }
  | call {e q k k' i c c' w} (hs : D.step s.queues e = some q) (hrole : D.role e = .call k i)
      (hcurrent : s.current k = none) (hjob : s.job i = .queued k' c)
      (hact : act c k (s.stop i) s.world = some (.more c', w)) :
      Move D act target s (.dispatch e) { s with
        world := w
        job := Function.update s.job i (.running k c')
        current := Function.update s.current k (some i)
        queues := q }
  | requestStop {e q i} (hs : D.step s.queues e = some q) (hrole : D.role e = .requestStop i)
      (hstop : s.stop i = false) :
      Move D act target s (.dispatch e)
        { s with stop := Function.update s.stop i true, queues := q }

variable {D : Dispatcher ι K Q E} {act : C → K → Bool → W → Option (Outcome S C R × W)}
  {target : ι → S → K} {s s' : Driven ι K W C R Q} {e : Driven.Event ι K E}

theorem Driven.step_move (h : Driven.step D act target s e = some s') :
    Driven.Move D act target s e s' := by
  cases e with
  | start i k =>
      simp only [Driven.step] at h
      split at h <;> cases h
      next hjob hcurrent hfree => exact .start hjob hcurrent hfree
  | step i =>
      simp only [Driven.step] at h
      split at h
      · next hjob =>
          split at h <;> cases h
          next hact => exact .more hjob hact
          next hact => exact .done hjob hact
      · cases h
  | dispatch e =>
      obtain ⟨q, hs, hq⟩ := Option.bind_eq_some_iff.mp h
      unfold Driven.dispatch at hq
      split at hq
      · next hrole =>
          cases hq
          exact .outside hs hrole
      · next hrole =>
          split at hq <;> cases hq
          next hcurrent => exact .own hs hrole hcurrent
      · next hrole =>
          split at hq
          · next hjob =>
              split at hq
              · next hact =>
                  split at hq <;> cases hq
                  next hc =>
                    obtain ⟨rfl, rfl⟩ := hc
                    exact .put hs hrole hjob hact
              · cases hq
          · cases hq
      · next hrole =>
          split at hq
          · next hcurrent hjob =>
              split at hq <;> cases hq
              next hact => exact .call hs hrole hcurrent hjob hact
          · cases hq
      · next hrole =>
          split at hq <;> cases hq
          next hstop => exact .requestStop hs hrole (by simpa using hstop)

/-! ### The jobs are a crew -/

def Driven.Event.dispatched : Driven.Event ι K E → Option E
  | .dispatch e => some e
  | _ => none

/-- The events of the crew. Who calls a job makes its first step, too. -/
def Dispatcher.crewEvents (D : Dispatcher ι K Q E) : Driven.Event ι K E → List (Event ι K)
  | .start i k => [.start i k]
  | .step i => [.step i]
  | .dispatch e =>
      match D.role e with
      | .outside | .own _ => []
      | .put _ _ i => [.step i]
      | .call k i => [.take k, .step i]
      | .requestStop i => [.requestStop i]

def Driven.Meets (P : Q → E → Prop) (s : Driven ι K W C R Q) : Driven.Event ι K E → Prop
  | .dispatch e => P s.queues e
  | _ => True

/-- The jobs and places, with queues. -/
def Driven.toCrew (s : Driven ι K W C R Q) (queue : K → List ι) : State ι K W C R :=
  ⟨s.world, s.stop, s.job, queue, s.current⟩

variable {P : Q → E → Prop} {c : ι → C} {w : W} {tr : List (Driven.Event ι K E)}

omit [DecidableEq ι] [DecidableEq K] in
theorem dispatched_concat (tr : List (Driven.Event ι K E)) (e : Driven.Event ι K E) :
    (tr ++ [e]).filterMap Driven.Event.dispatched =
      tr.filterMap Driven.Event.dispatched ++ e.dispatched.toList := by
  cases e <;> simp [Driven.Event.dispatched]

/-- A step is what the crew does where the queues are what waits. -/
theorem Driven.Move.crew (hfifo : D.Fifo P) (hm : Driven.Move D act target s e s') {tr : List E}
    (h : Run D.step D.init tr s.queues) (hP : EachStep D.step P D.init tr)
    (he : Driven.Meets P s e) :
    Run (Crew.step act target) (s.toCrew (D.waiting tr)) (D.crewEvents e)
      (s'.toCrew (D.waiting (tr ++ e.dispatched.toList))) := by
  cases hm with
  | start hjob hcurrent hfree =>
      refine run_cons.mpr ⟨_, Turn.step_eq (.start hjob hcurrent), run_nil.mpr ?_⟩
      simp [Driven.toCrew, Driven.Event.dispatched]
  | more hjob hact | done hjob hact =>
      refine run_cons.mpr ⟨_, Turn.step_eq (.step hjob hact), run_nil.mpr ?_⟩
      simp [Driven.toCrew, State.perform, Driven.Event.dispatched]
  | @outside e q hs hrole =>
      have hwaiting : D.waiting (tr ++ [e]) = D.waiting tr :=
        Dispatcher.waiting_concat (by simp [hrole, Role.putIn]) (by simp [hrole, Role.calledIn])
      simp [Dispatcher.crewEvents, hrole, Driven.toCrew, Driven.Event.dispatched, hwaiting]
  | @own e q k hs hrole hcurrent =>
      have hwaiting : D.waiting (tr ++ [e]) = D.waiting tr :=
        Dispatcher.waiting_concat (by simp [hrole, Role.putIn]) (by simp [hrole, Role.calledIn])
      simp [Dispatcher.crewEvents, hrole, Driven.toCrew, Driven.Event.dispatched, hwaiting]
  | @requestStop e q i hs hrole hstop =>
      have hwaiting : D.waiting (tr ++ [e]) = D.waiting tr :=
        Dispatcher.waiting_concat (by simp [hrole, Role.putIn]) (by simp [hrole, Role.calledIn])
      rw [Dispatcher.crewEvents, hrole]
      refine run_cons.mpr ⟨_, Turn.step_eq (.requestStop hstop), run_nil.mpr ?_⟩
      simp [Driven.toCrew, Driven.Event.dispatched, hwaiting]
  | @put e q k x i c c' w hs hrole hjob hact =>
      have hwaiting := hfifo.waiting_put h hP hrole
      rw [Dispatcher.crewEvents, hrole]
      refine run_cons.mpr ⟨_, Turn.step_eq (.step hjob hact), run_nil.mpr ?_⟩
      simp [Driven.toCrew, State.perform, Driven.Event.dispatched, hwaiting]
  | @call e q k k' i c c' w hs hrole hcurrent hjob hact =>
      obtain ⟨rest, hfirst, hrest⟩ := hfifo.waiting_call h hP hs he hrole
      have htake : Turn act target (s.toCrew (D.waiting tr)) (.take k) _ :=
        .take hcurrent hfirst hjob
      have hrunning : Turn act target _ (.step i) _ :=
        .step (s := { s.toCrew (D.waiting tr) with
          job := Function.update s.job i (.running k c)
          queue := Function.update (D.waiting tr) k rest
          current := Function.update s.current k (some i) }) (by simp) hact
      rw [Dispatcher.crewEvents, hrole]
      refine run_cons.mpr ⟨_, htake.step_eq, run_cons.mpr ⟨_, hrunning.step_eq, run_nil.mpr ?_⟩⟩
      simp [Driven.toCrew, State.perform, Driven.Event.dispatched, hrest]

/-- What the schedulers do of a step. -/
theorem Driven.Move.queues (hm : Driven.Move D act target s e s') :
    Run D.step s.queues e.dispatched.toList s'.queues := by
  cases hm with
  | start | more | done => exact run_nil.mpr rfl
  | outside hs | own hs | put hs | call hs | requestStop hs =>
      exact run_cons.mpr ⟨_, hs, run_nil.mpr rfl⟩

/-- Jobs that are served by schedulers that call them in order are a crew. -/
theorem crew_of_run (hfifo : D.Fifo P) (h : Run (Driven.step D act target) (D.start c w) tr s)
    (hP : EachStep (Driven.step D act target) (Driven.Meets P) (D.start c w) tr) :
    Run D.step D.init (tr.filterMap Driven.Event.dispatched) s.queues ∧
      EachStep D.step P D.init (tr.filterMap Driven.Event.dispatched) ∧
      Run (Crew.step act target) (.init c w) (tr.flatMap D.crewEvents)
        (s.toCrew (D.waiting (tr.filterMap Driven.Event.dispatched))) := by
  refine Run.induction_of_eachStep (P := fun tr s =>
    Run D.step D.init (tr.filterMap Driven.Event.dispatched) s.queues ∧
      EachStep D.step P D.init (tr.filterMap Driven.Event.dispatched) ∧
      Run (Crew.step act target) (.init c w) (tr.flatMap D.crewEvents)
        (s.toCrew (D.waiting (tr.filterMap Driven.Event.dispatched)))) ?_ ?_ h hP
  · exact ⟨run_nil.mpr rfl, True.intro, run_nil.mpr rfl⟩
  · rintro tr s e s' - ⟨hqueues, hP, hcrew⟩ he hs
    have hm := Driven.step_move hs
    rw [dispatched_concat, List.flatMap_append, List.flatMap_singleton]
    refine ⟨run_append.mpr ⟨_, hqueues, hm.queues⟩, ?_,
      run_append.mpr ⟨_, hcrew, hm.crew hfifo hqueues hP he⟩⟩
    cases e with
    | start | step => simpa [Driven.Event.dispatched] using hP
    | dispatch e => exact hP.concat hqueues he

/-! ### Nothing is left waiting -/

/-- What jobs can rely on: they can hop from where they are executed to what satisfies `G`, and what
waits for a place comes nearer to its call when the place has nothing else to do, unless it is
closed. -/
structure Dispatcher.Serves (D : Dispatcher ι K Q E) (P : Q → E → Prop) (target : ι → S → K)
    (G : S → Prop) (closed : Q → K → Prop) : Prop where
  free : ∀ {q q' e k}, D.step q e = some q' → (D.role e).place ≠ some k → D.free q k = true →
    D.free q' k = true
  called : ∀ {tr q q' e k i}, Run D.step D.init tr q → EachStep D.step P D.init tr →
    D.step q e = some q' → D.role e = .call k i → D.free q' k = true
  put : ∀ {tr q i k x}, Run D.step D.init tr q → EachStep D.step P D.init tr → G x →
    D.free q k = true → (∀ k', i ∉ D.waiting tr k') →
    ∃ e q', D.step q e = some q' ∧ D.works e = true ∧ D.role e = .put k (target i x) i
  next : ∀ {tr q k}, Run D.step D.init tr q → EachStep D.step P D.init tr → ¬ closed q k →
    D.waiting tr k ≠ [] → ∃ e q', D.step q e = some q' ∧ D.works e = true ∧ P q e ∧
      (D.role e = .own k ∨ ∃ i, D.role e = .call k i)

/-- This is not asked for from outside. -/
def Dispatcher.isWork (D : Dispatcher ι K Q E) : Driven.Event ι K E → Bool
  | .start _ _ => false
  | .step _ => true
  | .dispatch e => D.works e

variable {G : S → Prop} {closed : Q → K → Prop}

/-- Jobs are executed in places that do not execute the code of the schedulers. -/
theorem Dispatcher.Serves.free_of_current (hserves : D.Serves P target G closed) (hfifo : D.Fifo P)
    (h : Run (Driven.step D act target) (D.start c w) tr s)
    (hP : EachStep (Driven.step D act target) (Driven.Meets P) (D.start c w) tr) (k : K) (i : ι)
    (hk : s.current k = some i) : D.free s.queues k = true := by
  refine Run.induction_of_eachStep
    (P := fun tr s => EachStep (Driven.step D act target) (Driven.Meets P) (D.start c w) tr →
      ∀ k i, s.current k = some i → D.free s.queues k = true) ?_ ?_ h hP hP k i hk
  · intro _ k i hk
    cases hk
  · intro tr s e s' hr ih _ hs hP k i hk
    obtain ⟨hP, -⟩ := hP.of_append hr
    obtain ⟨hqueues, hPq, -⟩ := crew_of_run hfifo hr hP
    have hold := ih hP k
    cases Driven.step_move hs with
    | @start i' k' c hjob hcurrent hfree =>
        rcases eq_or_ne k k' with rfl | hne
        · exact hfree
        · exact hold i (by simpa [hne] using hk)
    | more hjob hact => exact hold i hk
    | @done i' k' c r w hjob hact =>
        rcases eq_or_ne k k' with rfl | hne
        · simp at hk
        · exact hold i (by simpa [hne] using hk)
    | outside hq hrole => exact hserves.free hq (by simp [hrole, Role.place]) (hold i hk)
    | requestStop hq hrole hstop =>
        exact hserves.free hq (by simp [hrole, Role.place]) (hold i hk)
    | @own e q k' hq hrole hcurrent =>
        have hne : k' ≠ k := by
          rintro rfl
          cases hcurrent.symm.trans hk
        exact hserves.free hq (by simpa [hrole, Role.place] using hne) (hold i hk)
    | @put e q k' x i' c c' w hq hrole hjob hact =>
        rcases eq_or_ne k k' with rfl | hne
        · simp at hk
        · exact hserves.free hq (by simp [hrole, Role.place]) (hold i (by simpa [hne] using hk))
    | @call e q k' k'' i' c c' w hq hrole hcurrent hjob hact =>
        rcases eq_or_ne k k' with rfl | hne
        · exact hserves.called hqueues hPq hq hrole
        · exact hserves.free hq (by simpa [hrole, Role.place] using hne.symm)
            (hold i (by simpa [hne] using hk))

/-- Where nothing is left to be done, every job that has been started has ended or waits for a place
that is closed. -/
theorem Dispatcher.Serves.ended_or_closed (hserves : D.Serves P target G closed)
    (hfifo : D.Fifo P) (h : Run (Driven.step D act target) (D.start c w) tr s)
    (hP : EachStep (Driven.step D act target) (Driven.Meets P) (D.start c w) tr)
    (hrunning : ∀ i k c, s.job i = .running k c → ∀ b w,
      ∃ o w', act c k b w = some (o, w') ∧ ∀ x c', o = .hop x c' → G x)
    (hqueued : ∀ i k c, s.job i = .queued k c → ∀ k b w,
      ∃ c' w', act c k b w = some (.more c', w'))
    (hidle : ∀ e, D.isWork e = true → Driven.step D act target s e = none) (i : ι) :
    (∃ c, s.job i = .fresh c) ∨ (∃ k r, s.job i = .done k r) ∨
      ∃ k c, s.job i = .queued k c ∧ closed s.queues k ∧
        i ∈ D.waiting (tr.filterMap Driven.Event.dispatched) k := by
  obtain ⟨hqueues, hPq, hcrew⟩ := crew_of_run hfifo h hP
  have hplaced := placed_of_run hcrew
  -- a job that is executed could make a step, alone or with the schedulers
  have hnotRunning (j : ι) (k : K) (c : C) : s.job j ≠ .running k c := by
    intro hj
    obtain ⟨o, w', hact, hgoes⟩ := hrunning j k c hj (s.stop j) s.world
    have hnone := hidle (.step j) rfl
    cases o with
    | more c' => simp [Driven.step, hj, hact] at hnone
    | done r => simp [Driven.step, hj, hact] at hnone
    | hop x c' =>
        have hcurrent : s.current k = some j :=
          (hplaced.current k j).mpr (by simp [Driven.toCrew, hj])
        have hnowhere (k' : K) :
            j ∉ D.waiting (tr.filterMap Driven.Event.dispatched) k' := by
          intro hmem
          have hwaits := (hplaced.queue k' j).mp hmem
          simp [Driven.toCrew, hj] at hwaits
        obtain ⟨e, q, hs, hworks, hrole⟩ := hserves.put hqueues hPq (hgoes x c' rfl)
          (hserves.free_of_current hfifo h hP k j hcurrent) hnowhere
        have hnone' := hidle (.dispatch e) hworks
        simp [Driven.step, hs, Driven.dispatch, hrole, hj, hact] at hnone'
  have hfree (k : K) : s.current k = none := by
    by_contra hne
    obtain ⟨j, hj⟩ := Option.ne_none_iff_exists'.mp hne
    have hplace := (hplaced.current k j).mp hj
    cases hjob : s.job j with
    | running k' c' => exact hnotRunning j k' c' hjob
    | fresh | queued | done => simp [Driven.toCrew, hjob] at hplace
  cases hi : s.job i with
  | fresh c => exact .inl ⟨c, rfl⟩
  | done k r => exact .inr (.inl ⟨k, r, rfl⟩)
  | running k c => exact absurd hi (hnotRunning i k c)
  | queued k c =>
      have hmem : i ∈ D.waiting (tr.filterMap Driven.Event.dispatched) k :=
        (hplaced.queue k i).mpr (by simp [Driven.toCrew, hi])
      refine .inr (.inr ⟨k, c, rfl, ?_, hmem⟩)
      by_contra hopen
      -- the place has nothing else to do, so its scheduler could go on
      obtain ⟨e, q, hs, hworks, hPe, hrole⟩ :=
        hserves.next hqueues hPq hopen (List.ne_nil_of_mem hmem)
      have hnone := hidle (.dispatch e) hworks
      rcases hrole with hrole | ⟨j, hrole⟩
      · simp [Driven.step, hs, Driven.dispatch, hrole, hfree] at hnone
      · obtain ⟨rest, hfirst, -⟩ := hfifo.waiting_call hqueues hPq hs hPe hrole
        have hwaits := (hplaced.queue k j).mp (by simp [Driven.toCrew, hfirst])
        cases hj : s.job j with
        | fresh | running | done => simp [Driven.toCrew, hj] at hwaits
        | queued k' c' =>
            obtain ⟨c'', w', hact⟩ := hqueued j k' c' hj k (s.stop j) s.world
            simp [Driven.step, hs, Driven.dispatch, hrole, hfree, hj, hact] at hnone

/-! ### Everything comes to rest -/

/-- The step is one of a job, too. -/
def Role.ofJob : Role ι K → Bool
  | .put _ _ _ | .call _ _ | .requestStop _ => true
  | .outside | .own _ => false

omit [DecidableEq ι] [DecidableEq K] in
theorem transGen_of_run {σ l : Type*} {step : σ → l → Option σ} {s s' : σ} {tr : List l}
    (h : Run step s tr s') (hne : tr ≠ []) :
    Relation.TransGen (fun b a => ∃ e, step a e = some b) s' s := by
  induction tr generalizing s with
  | nil => exact absurd rfl hne
  | cons e tr ih =>
      obtain ⟨u, hu, hrest⟩ := run_cons.mp h
      rcases eq_or_ne tr [] with rfl | htr
      · obtain rfl := run_nil.mp hrest
        exact .single ⟨e, hu⟩
      · exact (ih hrest htr).tail ⟨e, hu⟩

/-- Nothing goes on for ever of itself where no job could and what the schedulers do between
two steps of jobs makes `rank` less. -/
theorem acc_isWork [Fintype ι] {rank : Q → ℕ} (hfifo : D.Fifo P)
    (hrank : ∀ q q' e, D.step q e = some q' → D.works e = true → (D.role e).ofJob = false →
      rank q' < rank q)
    (hworks : ∀ q e, D.works e = true → P q e) (hacc : ∀ i, Acc (Next act) (c i))
    (h : Run (Driven.step D act target) (D.start c w) tr s)
    (hP : EachStep (Driven.step D act target) (Driven.Meets P) (D.start c w) tr) :
    Acc (fun s' s => ∃ e, D.isWork e = true ∧ Driven.step D act target s e = some s') s := by
  -- the crew comes to an end, and the rank says how long it can be at rest before
  have hcrew : Acc (Relation.TransGen fun t' t => ∃ e, Crew.step act target t e = some t')
      (s.toCrew (D.waiting (tr.filterMap Driven.Event.dispatched))) := by
    have hinit : Acc (Relation.TransGen fun t' t => ∃ e, Crew.step act target t e = some t')
        (State.init c w : State ι K W C R) := (acc_init hacc w).transGen
    have hrun := (crew_of_run hfifo h hP).2.2
    rcases eq_or_ne (tr.flatMap D.crewEvents) [] with hnil | hne
    · rw [hnil, run_nil] at hrun
      rwa [hrun]
    · exact hinit.inv (transGen_of_run hrun hne)
  generalize ht : s.toCrew (D.waiting (tr.filterMap Driven.Event.dispatched)) = t at hcrew
  induction hcrew generalizing tr s with
  | intro t _ ih =>
      induction hr : rank s.queues using Nat.strong_induction_on generalizing tr s with
      | h r ihr =>
          subst ht hr
          refine .intro s fun s' ⟨e, hwork, hs⟩ => ?_
          have hmeets : Driven.Meets P s e := by
            cases e with
            | start | step => exact True.intro
            | dispatch e => exact hworks s.queues e hwork
          have hrun' := h.concat hs
          have hP' := hP.concat h hmeets
          obtain ⟨hqueues, hPq, -⟩ := crew_of_run hfifo h hP
          have hm := Driven.step_move hs
          have hcrew := hm.crew hfifo hqueues hPq hmeets
          rw [← dispatched_concat] at hcrew
          rcases eq_or_ne (D.crewEvents e) [] with hnil | hne
          · rw [hnil, run_nil] at hcrew
            refine ihr _ ?_ hrun' hP' hcrew rfl
            cases hm with
            | start | more | done => cases hnil
            | put hq hrole | call hq hrole | requestStop hq hrole =>
                simp [Dispatcher.crewEvents, hrole] at hnil
            | outside hq hrole | own hq hrole =>
                exact hrank _ _ _ hq hwork (by simp [hrole, Role.ofJob])
          · exact ih _ (transGen_of_run hcrew hne) hrun' hP' rfl

end Steps

end BaremetalSenders.Crew
