import BaremetalSenders.Adaptors.JoinStop

/-!
`when_all`: the general operation state.

The outcome is spread over the latch `caught_error` with the error in a slot
of its own, the value slots of the children and the flag of the stop source.
The invariant `Stored` says what is in the slots at any time in terms of the
completions so far; only the error slot can lag behind, by the one update that
the child that won the latch has not made yet. When `complete` looks at them
every child has been counted, so nothing lags, and what it delivers is a
function of the completions and of whether a stop request had reached the
operation.
-/

namespace BaremetalSenders.WhenAll

open Join

variable {n : ℕ} {V E : Type*}

/-- The completion signatures of a child, and whether it completes synchronously. -/
structure Child where
  sendsValue : Bool
  sendsError : Bool
  sendsStopped : Bool
  synchronous : Bool

def Child.admits (child : Child) : Completion (List V) E → Bool
  | .value _ => child.sendsValue
  | .error _ => child.sendsError
  | .stopped => child.sendsStopped

structure Data (n : ℕ) (V E : Type*) where
  caughtError : Bool
  e : Option E
  v : Fin n → Option (List V)

namespace Data

def init : Data n V E := ⟨false, none, fun _ => none⟩

def store (d : Data n V E) (i : Fin n) (vs : List V) : Data n V E :=
  { d with v := Function.update d.v i (some vs) }

/-- `caught_error.exchange(true)`. -/
def exchangeCaughtError (d : Data n V E) : Data n V E := { d with caughtError := true }

/-- `e.emplace`. -/
def emplaceError (e : E) (d : Data n V E) : Data n V E := { d with e := some e }

/-- What `release_error` sends; nothing is defined when the slot is empty. -/
def releaseError (d : Data n V E) : Option (Completion (List V) E) := d.e.map .error

/-- The concatenation of the values of the children that can send some. Nothing is
defined when one of them has not stored any. -/
def loadAll (d : Data n V E) (children : Fin n → Child) : Option (List V) :=
  (((List.finRange n).filter fun i => (children i).sendsValue).mapM d.v).map List.flatten

end Data

/-- The operation states with a counter: the general one, and the one without a stop
source, whose `notify_stopped` does nothing. -/
def operation (hasStopSource : Bool) (children : Fin n → Child) :
    Ops n (List V) E (Data n V E) where
  hasStopSource := hasStopSource
  admits i c := (children i).admits c
  init := .init
  store i c d :=
    match c with
    | .value vs => d.store i vs
    | .error _ => d.exchangeCaughtError
    | .stopped => d
  rest _ c d :=
    match c with
    | .value _ => []
    | .error e =>
        (if d.caughtError then [] else [.update (Data.emplaceError e)]) ++
          if hasStopSource then [.requestStop] else []
    | .stopped => if hasStopSource then [.requestStop] else []
  arrives c := hasStopSource || !c.isStopped
  outcome _ requested d :=
    if d.caughtError then d.releaseError
    else if hasStopSource && requested then some .stopped
    else (d.loadAll children).map .value

def opState (children : Fin n → Child) : Ops n (List V) E (Data n V E) := operation true children

def nostopOpState (children : Fin n → Child) : Ops n (List V) E (Data n V E) :=
  operation false children

/-! ### What the completions amount to -/

/-- The error of the first child that reported one. -/
def firstError (order : List (Fin n × Completion (List V) E)) : Option E :=
  order.findSome? fun x =>
    match x.2 with
    | .error e => some e
    | _ => none

section Concat

variable (order : List (Fin n × Completion (List V) E)) (i : Fin n)

@[simp] theorem firstError_concat_value (vs : List V) :
    firstError (order ++ [(i, .value vs)]) = firstError order := by
  simp [firstError]

@[simp] theorem firstError_concat_stopped :
    firstError (order ++ [(i, .stopped)]) = firstError order := by
  simp [firstError]

@[simp] theorem firstError_concat_error (e : E) :
    firstError (order ++ [(i, .error e)]) = (firstError order).or (some e) := by
  simp [firstError]

end Concat

theorem firstError_eq_none {order : List (Fin n × Completion (List V) E)} :
    firstError order = none ↔ ∀ i e, (i, .error e) ∉ order := by
  simp only [firstError, List.findSome?_eq_none_iff, Prod.forall]
  constructor
  · intro h i e hmem
    simpa using h i _ hmem
  · intro h i c hmem
    cases c with
    | error e => exact absurd hmem (h i e)
    | value | stopped => rfl

def sent (order : List (Fin n × Completion (List V) E)) (i : Fin n) : List V :=
  match order.find? fun x => x.1 = i with
  | some (_, .value vs) => vs
  | _ => []

theorem sent_eq {order : List (Fin n × Completion (List V) E)} {i : Fin n} {vs : List V}
    (hnd : (order.map Prod.fst).Nodup) (hmem : (i, .value vs) ∈ order) : sent order i = vs := by
  have hfind : order.find? (fun x => x.1 = i) = some (i, .value vs) := by
    induction order with
    | nil => cases hmem
    | cons x xs ih =>
        obtain ⟨hx, hxs⟩ := List.nodup_cons.mp hnd
        rcases List.mem_cons.mp hmem with rfl | hmem
        · simp
        · have hne : x.1 ≠ i := fun e => hx (e ▸ List.mem_map_of_mem hmem)
          simpa [hne] using ih hxs hmem
  simp only [sent, hfind]

/-! ### What is stored -/

/-- There is no data to be stored any more. -/
def NoUpdate (as : List (Action (Data n V E))) : Prop := ∀ f, .update f ∉ as

/-- The error slot has the first error, or the child that reported it is about to put it
there. -/
def ErrorOk (order : List (Fin n × Completion (List V) E)) (s : State n (List V) E (Data n V E)) :
    Prop :=
  s.data.e = firstError order ∧ (∀ j, NoUpdate (s.phase j).todo) ∨
    ∃ i e as, firstError order = some e ∧ s.data.e = none ∧
      (s.phase i).todo = .update (Data.emplaceError e) :: as ∧ NoUpdate as ∧
      ∀ j, j ≠ i → NoUpdate (s.phase j).todo

structure Stored (tr : List (Label n (List V) E)) (s : State n (List V) E (Data n V E)) : Prop where
  caught : s.data.caughtError = true ↔ firstError (completions tr) ≠ none
  values : ∀ i vs, s.data.v i = some vs ↔ (i, .value vs) ∈ completions tr
  error : ErrorOk (completions tr) s

section Step

variable {s s' : State n (List V) E (Data n V E)} {tr : List (Label n (List V) E)}
  {l : Label n (List V) E} {i : Fin n} {hasStopSource : Bool} {children : Fin n → Child}

theorem stored_init : Stored [] (operation (E := E) (V := V) hasStopSource children).initial where
  caught := by simp [operation, Ops.initial, Data.init, completions, firstError]
  values := by simp [operation, Ops.initial, Data.init, completions]
  error := .inl (by simp [operation, Ops.initial, Data.init, completions, firstError, NoUpdate,
    Phase.todo])

/-- A step that stores nothing and leaves to every child what it has to store. -/
theorem Stored.congr (h : Stored tr s) (hl : l.completion = none) (hdata : s'.data = s.data)
    (htodo : ∀ j, (s'.phase j).todo = (s.phase j).todo) : Stored (tr ++ [l]) s' := by
  have hsame : completions (tr ++ [l]) = completions tr := by simp [completions_concat, hl]
  constructor
  · rw [hsame, hdata]
    exact h.caught
  · rw [hsame, hdata]
    exact h.values
  · simp only [ErrorOk, hsame, hdata, htodo]
    exact h.error

theorem NoUpdate.tail {a : Action (Data n V E)} {as : List (Action (Data n V E))}
    (h : NoUpdate (a :: as)) : NoUpdate as := fun f hf => h f (List.mem_cons_of_mem a hf)

theorem noUpdate_requests : NoUpdate (if hasStopSource then [.requestStop] else [] :
    List (Action (Data n V E))) := by
  intro f hf
  split at hf <;> simp at hf

/-- Taking one action off a child's list leaves at most the updates there were. -/
theorem noUpdate_setPhase {c : Completion (List V) E} {a : Action (Data n V E)}
    {as : List (Action (Data n V E))} (htodo : (s.phase i).todo = a :: as) {j : Fin n}
    (h : NoUpdate (s.phase j).todo) :
    NoUpdate ((s.setPhase i (.completing c as)).phase j).todo := by
  rcases eq_or_ne j i with rfl | hne
  · simpa [Phase.todo] using (htodo ▸ h).tail
  · simpa [hne] using h

/-- A child requests stop. -/
theorem Stored.requestStop {c : Completion (List V) E} {as : List (Action (Data n V E))}
    (h : Stored tr s) (hphase : s.phase i = .completing c (.requestStop :: as)) :
    Stored tr ({ s with requested := true }.setPhase i (.completing c as)) := by
  have htodo : (s.phase i).todo = .requestStop :: as := by rw [hphase]; rfl
  refine ⟨h.caught, h.values, ?_⟩
  rcases h.error with ⟨he, hnone⟩ | ⟨i', e, as', hfirst, he, htodo', has', hothers⟩
  · exact .inl ⟨he, fun j => noUpdate_setPhase htodo (hnone j)⟩
  · have hne : i' ≠ i := by
      rintro rfl
      simp [htodo] at htodo'
    exact .inr ⟨i', e, as', hfirst, he, by simpa [hne] using htodo', has',
      fun j hj => noUpdate_setPhase htodo (hothers j hj)⟩

/-- The child that won the latch puts its error into the slot. -/
theorem Stored.update {c : Completion (List V) E} {f : Data n V E → Data n V E}
    {as : List (Action (Data n V E))} (h : Stored tr s)
    (hphase : s.phase i = .completing c (.update f :: as)) :
    Stored tr ({ s with data := f s.data }.setPhase i (.completing c as)) := by
  have htodo : (s.phase i).todo = .update f :: as := by rw [hphase]; rfl
  rcases h.error with ⟨-, hnone⟩ | ⟨i', e, as', hfirst, -, htodo', has', hothers⟩
  · exact absurd (htodo ▸ List.mem_cons_self) (hnone i f)
  · obtain rfl : i = i' := by
      by_contra hne
      exact hothers i hne f (htodo ▸ List.mem_cons_self)
    obtain ⟨rfl, rfl⟩ : f = Data.emplaceError e ∧ as = as' := by
      simpa [htodo] using htodo'
    refine ⟨h.caught, h.values, .inl ⟨hfirst.symm, fun j => ?_⟩⟩
    rcases eq_or_ne j i with rfl | hne
    · simpa [Phase.todo] using has'
    · exact noUpdate_setPhase htodo (hothers j hne)

/-- A child completes with nothing to put into the error slot. -/
theorem ErrorOk.complete {c : Completion (List V) E} {as : List (Action (Data n V E))}
    {order order' : List (Fin n × Completion (List V) E)} {data : Data n V E}
    (h : ErrorOk order s) (htodo : (s.phase i).todo = [])
    (hfirst : firstError order' = firstError order) (hdata : data.e = s.data.e)
    (has : NoUpdate as) :
    ErrorOk order' { s.setPhase i (.completing c as) with data } := by
  have hold {j : Fin n} (hj : NoUpdate (s.phase j).todo) :
      NoUpdate ((s.setPhase i (.completing c as)).phase j).todo := by
    rcases eq_or_ne j i with rfl | hne
    · simpa [Phase.todo] using has
    · simpa [hne] using hj
  rcases h with ⟨he, hnone⟩ | ⟨i', e, as', hsome, he, htodo', has', hothers⟩
  · exact .inl ⟨by rw [hfirst, ← he, ← hdata], fun j => hold (hnone j)⟩
  · have hne : i' ≠ i := by
      rintro rfl
      simp [htodo] at htodo'
    exact .inr ⟨i', e, as', hfirst.trans hsome, hdata.trans he, by simpa [hne] using htodo', has',
      fun j hj => hold (hothers j hj)⟩

/-- The first child to complete with an error is left to fill the error slot. -/
theorem ErrorOk.win {c : Completion (List V) E} {as : List (Action (Data n V E))} {e : E}
    {order order' : List (Fin n × Completion (List V) E)} {data : Data n V E}
    (h : ErrorOk order s) (hfirst : firstError order = none) (hfirst' : firstError order' = some e)
    (hdata : data.e = s.data.e) (has : NoUpdate as) :
    ErrorOk order'
      { s.setPhase i (.completing c (.update (Data.emplaceError e) :: as)) with data } := by
  rcases h with ⟨he, hnone⟩ | ⟨i', e', as', hsome, -⟩
  · refine .inr ⟨i, e, as, hfirst', hdata.trans (he.trans hfirst), by simp [Phase.todo], has, ?_⟩
    intro j hne
    simpa [hne] using hnone j
  · simp [hfirst] at hsome

/-- A child completes. -/
theorem Stored.complete {c : Completion (List V) E} (h : Stored tr s)
    (hphase : s.phase i = .running) (hnew : ∀ c', (i, c') ∉ completions tr) :
    Stored (tr ++ [.complete i c]) { s.setPhase i
      (.completing c ((operation hasStopSource children).rest i c s.data)) with
      data := (operation hasStopSource children).store i c s.data } := by
  have hlist : completions (tr ++ [.complete i c]) = completions tr ++ [(i, c)] :=
    completions_concat tr _
  have htodo : (s.phase i).todo = [] := by rw [hphase]; rfl
  cases c with
  | value vs =>
      have hsame := firstError_concat_value (completions tr) i vs
      refine ⟨by rw [hlist, hsame]; exact h.caught, ?_, ?_⟩
      · intro j vs'
        rw [hlist, List.mem_append, ← h.values]
        rcases eq_or_ne j i with rfl | hne
        · have hnone : s.data.v j ≠ some vs' := fun hv => hnew _ ((h.values j vs').mp hv)
          simpa [operation, Data.store, hnone] using eq_comm
        · simp [operation, Data.store, hne]
      · exact hlist ▸ h.error.complete htodo hsame rfl (by simp [NoUpdate, operation])
  | stopped =>
      have hsame := firstError_concat_stopped (completions tr) i
      refine ⟨by rw [hlist, hsame]; exact h.caught, ?_, ?_⟩
      · intro j vs
        rw [hlist, List.mem_append, ← h.values]
        simp [operation]
      · exact hlist ▸ h.error.complete htodo hsame rfl noUpdate_requests
  | error e =>
      refine ⟨?_, ?_, ?_⟩
      · rw [hlist, firstError_concat_error]
        simp [operation, Data.exchangeCaughtError]
      · intro j vs
        rw [hlist, List.mem_append, ← h.values]
        simp [operation, Data.exchangeCaughtError]
      · cases hcaught : s.data.caughtError with
        | true =>
            obtain ⟨e₀, he₀⟩ := Option.ne_none_iff_exists'.mp (h.caught.mp hcaught)
            have hsame : firstError (completions tr ++ [(i, .error e)]) =
                firstError (completions tr) := by simp [he₀]
            refine hlist ▸ h.error.complete htodo hsame rfl ?_
            simpa [operation, hcaught] using noUpdate_requests
        | false =>
            have hnone : firstError (completions tr) = none := by
              by_contra hne
              simp [h.caught.mpr hne] at hcaught
            have hwin : firstError (completions tr ++ [(i, .error e)]) = some e := by
              simp [hnone]
            simpa [operation, hcaught] using hlist ▸ h.error.win hnone hwin rfl noUpdate_requests

theorem Stored.step (h : Stored tr s) (hcounted : Counted s)
    (hrec : Recorded (operation hasStopSource children) tr s)
    (hs : step (operation hasStopSource children) s l = some s') : Stored (tr ++ [l]) s' := by
  have hkeep {i : Fin n} {p : Phase (List V) E (Data n V E)} (hp : p.todo = (s.phase i).todo) :
      ∀ j, (Function.update s.phase i p j).todo = (s.phase j).todo := fun j => view_update hp j
  cases step_move hs with
  | rcvrRequestStop | popStopCb | runStopCb | emplaceStopCb | startStopped | startChildren =>
      exact h.congr rfl rfl fun _ => rfl
  | startChild hpc =>
      exact h.congr rfl rfl (hkeep (by rw [hcounted.idle_of_next hpc]; rfl))
  | @complete i c hphase =>
      refine h.complete hphase fun c' hmem => ?_
      have := (hrec.completion i c').mpr hmem
      simp [hphase, Phase.completion] at this
  | @act i c a as hphase =>
      cases a with
      | update => exact (h.update hphase).congr rfl rfl fun _ => rfl
      | requestStop => exact (h.requestStop hphase).congr rfl rfl fun _ => rfl
  | arrive hphase | arriveLast hphase | ignore hphase | resetStopCb hphase | finish hphase =>
      exact h.congr rfl rfl (hkeep (by rw [hphase]; rfl))

theorem stored_of_run (hn : 0 < n) (h : Run (step (operation hasStopSource children))
    (operation hasStopSource children).initial tr s) : Stored tr s := by
  refine Run.induction (P := Stored) stored_init ?_ h
  intro tr s l s' hr ih hs
  have hreached := reached_of_run hn hr
  exact ih.step hreached.counted hreached.recorded hs

/-! ### What is delivered -/

theorem mapM_eq_some {α β : Type*} {f : α → β} {g : α → Option β} {xs : List α}
    (h : ∀ x ∈ xs, g x = some (f x)) : xs.mapM g = some (xs.map f) := by
  induction xs with
  | nil => rfl
  | cons x xs ih =>
      have hxs := ih fun y hy => h y (List.mem_cons_of_mem x hy)
      simp [List.mapM_cons, h x List.mem_cons_self, hxs]

def allSent (order : List (Fin n × Completion (List V) E)) : List V :=
  (List.finRange n).flatMap (sent order)

/-- When every child has sent values they can all be loaded. -/
theorem loadAll_eq {d : Data n V E} {order : List (Fin n × Completion (List V) E)}
    (hv : ∀ i vs, d.v i = some vs ↔ (i, .value vs) ∈ order)
    (hnd : (order.map Prod.fst).Nodup)
    (hadmits : ∀ i c, (i, c) ∈ order → (children i).admits c = true)
    (hvalues : ∀ i, ∃ vs, (i, .value vs) ∈ order) :
    d.loadAll children = some (allSent order) := by
  have hsends : ∀ i, (children i).sendsValue = true := fun i => by
    obtain ⟨vs, hvs⟩ := hvalues i
    exact hadmits i _ hvs
  have hfilter : (List.finRange n).filter (fun i => (children i).sendsValue) = List.finRange n :=
    List.filter_eq_self.mpr fun i _ => hsends i
  have hload : (List.finRange n).mapM d.v = some ((List.finRange n).map (sent order)) :=
    mapM_eq_some fun i _ => by
      obtain ⟨vs, hvs⟩ := hvalues i
      rw [sent_eq hnd hvs]
      exact (hv i vs).mpr hvs
  rw [Data.loadAll, hfilter, hload]
  rfl

theorem todo_of_arrived {p : Phase (List V) E (Data n V E)} (h : p.arrived = true) :
    p.todo = [] := by
  cases p <;> simp_all [Phase.arrived, Phase.todo]

/-- With an error in `complete`, it is the first one that is delivered. -/
theorem outcome_error (hn : 0 < n) {c : Completion (List V) E} {e : E} {b b' : Bool}
    (h : Run (step (operation hasStopSource children))
      (operation hasStopSource children).initial tr s)
    (hphase : s.phase i = .deciding c true) (he : firstError (completions tr) = some e) :
    (operation hasStopSource children).outcome b b' s.data = some (.error e) := by
  have hstored := stored_of_run hn h
  have hcaught : s.data.caughtError = true := hstored.caught.mpr (by simp [he])
  have hslot : s.data.e = some e := by
    rcases hstored.error with ⟨hslot, -⟩ | ⟨i', e', as, -, -, htodo, -⟩
    · exact hslot.trans he
    · have harrived := ((reached_of_run hn h).all_completed (i := i)
        (by simp [hphase, Phase.isLast]) i').1
      simp [todo_of_arrived harrived] at htodo
  simp [operation, hcaught, Data.releaseError, hslot]

theorem outcome_of_no_error (hn : 0 < n) {b b' : Bool}
    (h : Run (step (operation hasStopSource children))
      (operation hasStopSource children).initial tr s)
    (he : firstError (completions tr) = none) :
    (operation hasStopSource children).outcome b b' s.data =
      if hasStopSource && b' then some .stopped else (s.data.loadAll children).map .value := by
  have hcaught : s.data.caughtError = false := by
    have := (stored_of_run hn h).caught
    simpa [he] using this
  simp [operation, hcaught]

/-- In `complete` and with no error, the own stop source is stop-requested if a child was
stopped or the stop callback was run, and only then. -/
theorem requested_iff (hn : 0 < n) {c : Completion (List V) E}
    (h : Run (step (opState children)) (opState children).initial tr s)
    (hphase : s.phase i = .deciding c true) (he : firstError (completions tr) = none) :
    s.requested = true ↔ (∃ j, (j, .stopped) ∈ completions tr) ∨ .runStopCb ∈ tr := by
  have hreached := reached_of_run hn h
  constructor
  · intro hreq
    rcases hreached.stopOk.origin hreq with hran | ⟨j, c', d, hmem, hrest⟩
    · exact .inr hran
    · cases c' with
      | stopped => exact .inl ⟨j, hmem⟩
      | value vs => simp [opState, operation] at hrest
      | error e => exact absurd hmem (firstError_eq_none.mp he j e)
  · rintro (⟨j, hmem⟩ | hran)
    · refine (hreached.stopOk.pending j _ hmem (by simp [opState, operation])).resolve_left ?_
      have harrived := (hreached.all_completed (i := i) (by simp [hphase, Phase.isLast]) j).1
      simp [todo_of_arrived harrived]
    · exact hreached.stopOk.ran hran

end Step

/-- The stop callback has been run: a stop request on the receiver's token has reached the
operation. -/
def stopReached (tr : List (Label n (List V) E)) : Bool :=
  tr.any fun
    | .runStopCb => true
    | _ => false

theorem stopReached_iff {tr : List (Label n (List V) E)} :
    stopReached tr = true ↔ .runStopCb ∈ tr := by
  rw [stopReached, List.any_eq_true]
  constructor
  · rintro ⟨l, hl, h⟩
    cases l <;> simp_all
  · exact fun h => ⟨_, h, rfl⟩

/-- What `when_all` has to deliver after these completions: the first error; or else
set_stopped, if a child was stopped or a stop request has reached the operation; or
else the values of the children, in the order of the children. -/
def gathered (order : List (Fin n × Completion (List V) E)) (stop : Bool) :
    Completion (List V) E :=
  match firstError order with
  | some e => .error e
  | none =>
      if (order.any fun x => x.2.isStopped) || stop then .stopped else .value (allSent order)

theorem any_isStopped_iff {order : List (Fin n × Completion (List V) E)} :
    (order.any fun x => x.2.isStopped) = true ↔ ∃ j, (j, .stopped) ∈ order := by
  rw [List.any_eq_true]
  constructor
  · rintro ⟨⟨j, c⟩, hmem, hc⟩
    cases c <;> simp_all
    exact ⟨j, hmem⟩
  · rintro ⟨j, hmem⟩
    exact ⟨_, hmem, rfl⟩

/-- The completions that are no error and no set_stopped are values. -/
theorem exists_value {order : List (Fin n × Completion (List V) E)} {j : Fin n}
    (hmem : ∃ c, (j, c) ∈ order) (he : firstError order = none)
    (hstopped : ∀ j, (j, .stopped) ∉ order) : ∃ vs, (j, .value vs) ∈ order := by
  obtain ⟨c, hc⟩ := hmem
  cases c with
  | value vs => exact ⟨vs, hc⟩
  | error e => exact absurd hc (firstError_eq_none.mp he j e)
  | stopped => exact absurd hc (hstopped j)

/-! ### The result -/

section Result

variable {s s' : State n (List V) E (Data n V E)} {tr : List (Label n (List V) E)} {i : Fin n}
  {children : Fin n → Child}

theorem outcome_of_deciding (hn : 0 < n) {c : Completion (List V) E}
    (h : Run (step (opState children)) (opState children).initial tr s)
    (hphase : s.phase i = .deciding c true) :
    (opState children).outcome s.rcvrRequested s.requested s.data =
      some (gathered (completions tr) (stopReached tr)) := by
  have hreached := reached_of_run hn h
  rw [gathered]
  cases he : firstError (completions tr) with
  | some e => exact outcome_error hn h hphase he
  | none =>
      have hreq : s.requested = true ↔
          ((completions tr).any (fun x => x.2.isStopped) || stopReached tr) = true := by
        rw [requested_iff hn h hphase he, Bool.or_eq_true, any_isStopped_iff, stopReached_iff]
      refine (outcome_of_no_error hn h he).trans ?_
      by_cases hstop : s.requested = true
      · simp [hstop, hreq.mp hstop]
      · have hnone := mt hreq.mpr hstop
        have hnostopped : ∀ j, (j, .stopped) ∉ completions tr := by
          simp only [Bool.or_eq_true, not_or, any_isStopped_iff, not_exists] at hnone
          exact hnone.1
        have hload := loadAll_eq (stored_of_run hn h).values hreached.recorded.nodup
          hreached.recorded.admitted fun j => exists_value
            (hreached.all_completed (i := i) (by simp [hphase, Phase.isLast]) j).2 he hnostopped
        simp [hstop, hnone, hload]

structure Gathered (children : Fin n → Child) (tr : List (Label n (List V) E))
    (s : State n (List V) E (Data n V E)) : Prop extends Joined (opState children) tr s where
  exactly : (∀ i, (s.phase i).returned = true) → s.received.length = 1
  unstopped : (∀ i, (s.phase i).returned = true) → s.rcvrRequested = false →
    s.received = [gathered (completions tr) false]
  /-- The receiver is completed when all children have completed, with what they amount to
  and what `complete` has seen of stop requests. -/
  delivered : ∀ i s', step (opState children) s (.finish i) = some s' →
    (∀ j, ∃ c, (j, c) ∈ completions tr) ∧
      s'.received = [gathered (completions tr) (stopReached tr)]

theorem arrives_opState (i : Fin n) (c : Completion (List V) E)
    (_ : (opState children).admits i c = true) : (opState children).arrives c = true := rfl

theorem stopReached_of_unstopped (hn : 0 < n)
    (h : Run (step (opState children)) (opState children).initial tr s)
    (hreq : s.rcvrRequested = false) : stopReached tr = false := by
  have hstop := (reached_of_run hn h).stopOk
  by_contra hreach
  have hran := stopReached_iff.mp (by simpa using hreach)
  have hwanted := hstop.wanted (.inr (.inr (hstop.spent.mpr hran)))
  simp [hreq] at hwanted

/-- The general operation state of `when_all`. -/
theorem gathered_of_run (hn : 0 < n)
    (h : Run (step (opState children)) (opState children).initial tr s) :
    Gathered children tr s := by
  have hanswered : Answered (opState children)
      (fun tr _ => gathered (completions tr) (stopReached tr))
      (fun order => gathered order false) tr s := by
    refine answered_of_run hn arrives_opState (fun tr s i c hr hphase => ?_)
      (fun tr s hr hreq => ?_) h
    · exact outcome_of_deciding hn hr hphase
    · simp only [stopReached_of_unstopped hn hr hreq]
  exact { joined_of_run hn arrives_opState h, hanswered with }

end Result

/-- A child that can complete in every way. -/
def Child.any : Child := ⟨true, true, true, false⟩

/-- Two children complete with errors, the second inside the first one's request to stop
and before the first error is in its slot. -/
def errorDuringStop : List (Label 3 (List ℕ) ℕ) :=
  [.emplaceStopCb true, .startChildren, .startChild 0, .startChild 1, .startChild 2,
    .complete 2 (.value [1, 2]), .leave 2, .complete 1 (.error 7), .complete 0 (.error 8), .act 0,
    .act 1, .act 1, .leave 1, .leave 0]

theorem gathered_of_run_errorDuringStop :
    ∃ s : State 3 (List ℕ) ℕ (Data 3 ℕ ℕ), Run (step (opState fun _ => .any))
      (opState fun _ => .any).initial errorDuringStop s ∧
        Gathered (fun _ => .any) errorDuringStop s := by
  obtain ⟨s, hs⟩ : ∃ s, Run (step (opState fun _ => .any)) (opState fun _ => .any).initial
      errorDuringStop s := exists_run_iff.mpr rfl
  exact ⟨s, hs, gathered_of_run (by decide) hs⟩

/-- The receiver's stop source is stop-requested and has not come to the operation's
callback yet; meanwhile the last child completes. -/
def stopNotReached : List (Label 2 (List ℕ) ℕ) × List (Label 2 (List ℕ) ℕ) :=
  ([.emplaceStopCb true, .startChildren, .startChild 0, .startChild 1, .complete 0 (.value [1]),
    .leave 0, .rcvrRequestStop], [.leave 1, .resetStopCb 1, .finish 1])

/-- A stop request before the last completion does not always stop a `when_all`: it may not
have reached the operation. -/
theorem not_gathered_stopNotReached :
    ¬ ∀ (tr tr' : List (Label 2 (List ℕ) ℕ)) (i : Fin 2) (c : Completion (List ℕ) ℕ)
        (s : State 2 (List ℕ) ℕ (Data 2 ℕ ℕ)),
      Run (step (opState fun _ => .any)) (opState fun _ => .any).initial
        (tr ++ .complete i c :: tr') s →
      .rcvrRequestStop ∈ tr → completions tr' = [] →
      firstError (completions (tr ++ .complete i c :: tr')) = none →
      (∀ i, (s.phase i).returned = true) → s.received = [.stopped] := by
  intro hall
  have hgot := hall stopNotReached.1 stopNotReached.2 1 (.value [2]) _ rfl
    (by simp [stopNotReached]) rfl rfl (by decide)
  exact absurd hgot (by decide)

end BaremetalSenders.WhenAll
