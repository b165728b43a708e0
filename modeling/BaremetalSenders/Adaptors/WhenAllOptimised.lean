import BaremetalSenders.Adaptors.WhenAll
import Mathlib.Data.Fin.VecNotation

/-!
The optimised operation states of `when_all`, and which of the three is selected.

Without a stop source, and for synchronous children without a counter as well,
`notify_stopped` does nothing. Where no child can be stopped this makes no
difference. Synchronous children can be, and then a set_stopped is forgotten:
what remains of the completion is the first error, or else the values of the
children that can send any.
-/

namespace BaremetalSenders.WhenAll

open Join

variable {n : ℕ} {V E : Type*}

/-! ### `sync_op_state` -/

/-- `store_error`, in one go. -/
def Data.storeError (d : Data n V E) (e : E) : Data n V E :=
  if d.caughtError then d else (d.exchangeCaughtError).emplaceError e

/-- A child of `sync_op_state` completes. -/
def Data.syncEmplace (d : Data n V E) (i : Fin n) : Completion (List V) E → Data n V E
  | .value vs => d.store i vs
  | .error e => d.storeError e
  | .stopped => d

/-- `sync_op_state::start`: each child completes inside its `start`, then `complete`
looks at what was stored. -/
def syncStart (children : Fin n → Child) (cs : Fin n → Completion (List V) E) :
    Option (Completion (List V) E) :=
  let d := (List.finRange n).foldl (fun d i => d.syncEmplace i (cs i)) Data.init
  if d.caughtError then d.releaseError else (d.loadAll children).map .value

def startOrder (cs : Fin n → Completion (List V) E) : List (Fin n × Completion (List V) E) :=
  (List.finRange n).map fun i => (i, cs i)

/-! ### `select_op_state` -/

inductive Kind where
  | sync
  | nostop
  | general
  deriving DecidableEq

def selectOpState (children : Fin n → Child) : Kind :=
  if ∀ i, (children i).synchronous = true then .sync
  else if ∀ i, (children i).sendsStopped = false then .nostop
  else .general

/-- With the completions `order` of its children an operation state of the kind delivers
`o` to a receiver whose stop is never requested; `none` when nothing is delivered. -/
def Delivers (children : Fin n → Child) (order : List (Fin n × Completion (List V) E))
    (o : Option (Completion (List V) E)) : Kind → Prop
  | .sync => ∃ cs : Fin n → Completion (List V) E, (∀ i, (children i).admits (cs i) = true) ∧
      order = startOrder cs ∧ o = syncStart children cs
  | .nostop => ∃ tr s, Run (step (nostopOpState children)) (nostopOpState children).initial tr s ∧
      completions tr = order ∧ (∀ i, (s.phase i).returned = true) ∧ o = s.received.head?
  | .general => ∃ tr s, Run (step (opState children)) (opState children).initial tr s ∧
      completions tr = order ∧ (∀ i, (s.phase i).returned = true) ∧ s.rcvrRequested = false ∧
      o = s.received.head?

/-! ### What they deliver -/

section Sync

variable {children : Fin n → Child} {cs : Fin n → Completion (List V) E}

/-- The data after some children of `sync_op_state` have completed. -/
structure SyncStored (order : List (Fin n × Completion (List V) E)) (d : Data n V E) : Prop where
  caught : d.caughtError = true ↔ firstError order ≠ none
  error : d.e = firstError order
  values : ∀ i vs, d.v i = some vs ↔ (i, .value vs) ∈ order

theorem SyncStored.emplace {order : List (Fin n × Completion (List V) E)} {d : Data n V E}
    {i : Fin n} {c : Completion (List V) E} (h : SyncStored order d)
    (hnew : ∀ c', (i, c') ∉ order) :
    SyncStored (order ++ [(i, c)]) (d.syncEmplace i c) := by
  cases c with
  | value vs =>
      refine ⟨by rw [firstError_concat_value]; exact h.caught,
        by rw [firstError_concat_value]; exact h.error, fun j vs' => ?_⟩
      rw [List.mem_append, ← h.values]
      rcases eq_or_ne j i with rfl | hne
      · have hnone : d.v j ≠ some vs' := fun hv => hnew _ ((h.values j vs').mp hv)
        simpa [Data.syncEmplace, Data.store, hnone] using eq_comm
      · simp [Data.syncEmplace, Data.store, hne]
  | stopped =>
      refine ⟨by rw [firstError_concat_stopped]; exact h.caught,
        by rw [firstError_concat_stopped]; exact h.error, fun j vs => ?_⟩
      simp [List.mem_append, ← h.values, Data.syncEmplace]
  | error e =>
      have hvalues : ∀ j vs, d.v j = some vs ↔ (j, .value vs) ∈ order ++ [(i, .error e)] := by
        simpa using h.values
      cases hcaught : d.caughtError with
      | true =>
          obtain ⟨e₀, he₀⟩ := Option.ne_none_iff_exists'.mp (h.caught.mp hcaught)
          have hd : d.syncEmplace i (.error e) = d := by
            simp [Data.syncEmplace, Data.storeError, hcaught]
          rw [hd]
          exact ⟨by simp [hcaught], by simp [h.error, he₀], hvalues⟩
      | false =>
          have hnone : firstError order = none := by
            by_contra hne
            simp [h.caught.mpr hne] at hcaught
          have hd : d.syncEmplace i (.error e) = d.exchangeCaughtError.emplaceError e := by
            simp [Data.syncEmplace, Data.storeError, hcaught]
          rw [hd]
          exact ⟨by simp [Data.exchangeCaughtError, Data.emplaceError],
            by simp [Data.emplaceError, hnone], hvalues⟩

theorem syncStored_foldl {is : List (Fin n)} (his : is.Nodup) :
    SyncStored (is.map fun i => (i, cs i))
      (is.foldl (fun d i => d.syncEmplace i (cs i)) .init) := by
  induction is using List.reverseRecOn with
  | nil => exact ⟨by simp [Data.init, firstError], rfl, by simp [Data.init]⟩
  | append_singleton is i ih =>
      obtain ⟨his, -, hdisj⟩ := List.nodup_append.mp his
      rw [List.map_append, List.foldl_append]
      refine (ih his).emplace fun c' hmem => ?_
      obtain ⟨j, hj, heq⟩ := List.mem_map.mp hmem
      exact hdisj j hj i (by simp) (congrArg Prod.fst heq)

theorem mem_startOrder {i : Fin n} {c : Completion (List V) E} :
    (i, c) ∈ startOrder cs ↔ cs i = c := by
  simp [startOrder]

variable (children cs) in
/-- `sync_op_state` delivers the first error, or else the values it can load. -/
theorem syncStart_eq :
    (∀ e, firstError (startOrder cs) = some e → syncStart children cs = some (.error e)) ∧
      (firstError (startOrder cs) = none → ∃ d : Data n V E,
        (∀ i vs, d.v i = some vs ↔ (i, .value vs) ∈ startOrder cs) ∧
          syncStart children cs = (d.loadAll children).map .value) := by
  have hstored : SyncStored (startOrder cs) _ := syncStored_foldl (List.nodup_finRange n)
  constructor
  · intro e he
    have hcaught := hstored.caught.mpr (by rw [he]; simp)
    have hslot := hstored.error.trans he
    simp [syncStart, hcaught, Data.releaseError, hslot]
  · intro he
    refine ⟨_, hstored.values, ?_⟩
    have hcaught := mt hstored.caught.mp (by rw [he]; simp)
    simp [syncStart, hcaught]

end Sync

section Nostop

variable {children : Fin n → Child} {tr : List (Label n (List V) E)}
  {s : State n (List V) E (Data n V E)} {i : Fin n}

theorem firstError_ne_none {order : List (Fin n × Completion (List V) E)}
    (h : ∃ i e, (i, .error e) ∈ order) : ∃ e, firstError order = some e := by
  obtain ⟨i, e, hmem⟩ := h
  exact Option.ne_none_iff_exists'.mp fun hnone => firstError_eq_none.mp hnone i e hmem

/-- `nostop_op_state` delivers what the general state would: there is no set_stopped that
it could forget. -/
theorem outcome_nostop (hn : 0 < n) (hchildren : ∀ i, (children i).sendsStopped = false)
    {c : Completion (List V) E}
    (h : Run (step (nostopOpState children)) (nostopOpState children).initial tr s)
    (hphase : s.phase i = .deciding c true) :
    (nostopOpState children).outcome s.rcvrRequested s.requested s.data =
      some (gathered (completions tr) false) := by
  have hreached := reached_of_run hn h
  have hnostopped : ∀ j, (j, .stopped) ∉ completions tr := fun j hmem => by
    have hadmits : (children j).sendsStopped = true := hreached.recorded.admitted j _ hmem
    simp [hchildren j] at hadmits
  rw [gathered]
  cases he : firstError (completions tr) with
  | some e => exact outcome_error hn h hphase he
  | none =>
      have hnone := mt any_isStopped_iff.mp (not_exists.mpr hnostopped)
      have hload := loadAll_eq (stored_of_run hn h).values hreached.recorded.nodup
        hreached.recorded.admitted fun j => exists_value
          (hreached.all_completed (i := i) (by simp [hphase, Phase.isLast]) j).2 he hnostopped
      refine (outcome_of_no_error hn h he).trans ?_
      simp [hnone, hload]

theorem received_nostop (hn : 0 < n) (hchildren : ∀ i, (children i).sendsStopped = false)
    (h : Run (step (nostopOpState children)) (nostopOpState children).initial tr s)
    (hback : ∀ i, (s.phase i).returned = true) :
    s.received = [gathered (completions tr) false] := by
  have harrives : ∀ i (c : Completion (List V) E), (nostopOpState children).admits i c = true →
      (nostopOpState (E := E) children).arrives c = true := by
    intro i c hc
    cases c with
    | value | error => rfl
    | stopped => exact absurd ((hchildren i).symm.trans hc) (by simp)
  obtain ⟨i, hi⟩ := (joined_of_run hn harrives h).finished hback
  obtain ⟨r, hr, hq⟩ := received_of_finished
    (Q := fun tr _ r => r = gathered (completions tr) false) hn
    (fun tr s i c hr hc => ⟨_, outcome_nostop hn hchildren hr hc, rfl⟩)
    (fun tr s l s' r _ hl hq => by simpa [completions_concat, hl] using hq) h hi
  rw [hr, hq]

end Nostop

/-! ### The comparison -/

section Comparison

variable {children : Fin n → Child} {order : List (Fin n × Completion (List V) E)}
  {o o' : Option (Completion (List V) E)}

theorem delivers_general (hn : 0 < n) (h : Delivers children order o .general) :
    o = some (gathered order false) := by
  obtain ⟨tr, s, hr, rfl, hback, hreq, rfl⟩ := h
  rw [(gathered_of_run hn hr).unstopped hback hreq]
  rfl

theorem delivers_nostop (hn : 0 < n) (hchildren : ∀ i, (children i).sendsStopped = false)
    (h : Delivers children order o .nostop) :
    o = some (gathered order false) ∧ ∀ i, (i, .stopped) ∉ order := by
  obtain ⟨tr, s, hr, rfl, hback, rfl⟩ := h
  refine ⟨by rw [received_nostop hn hchildren hr hback]; rfl, fun i hmem => ?_⟩
  have hadmits : (children i).sendsStopped = true :=
    (reached_of_run hn hr).recorded.admitted i _ hmem
  simp [hchildren i] at hadmits

/-- `sync_op_state` delivers the right completion exactly if no set_stopped was forgotten. -/
theorem delivers_sync_iff (h : Delivers children order o .sync) :
    o = some (gathered order false) ↔
      (∃ i e, (i, .error e) ∈ order) ∨ ∀ i, (i, .stopped) ∉ order := by
  obtain ⟨cs, hadmits, rfl, rfl⟩ := h
  obtain ⟨herror, hvalues⟩ := syncStart_eq children cs
  by_cases he : ∃ i e, (i, .error e) ∈ startOrder cs
  · obtain ⟨e, he'⟩ := firstError_ne_none he
    exact iff_of_true (by rw [herror e he', gathered, he']) (.inl he)
  · have hnone : firstError (startOrder cs) = none :=
      firstError_eq_none.mpr fun i e hmem => he ⟨i, e, hmem⟩
    obtain ⟨d, hd, hsync⟩ := hvalues hnone
    rw [hsync, gathered, hnone]
    by_cases hstopped : ∃ i, (i, .stopped) ∈ startOrder cs
    · -- A set_stopped was forgotten: whatever is loaded is delivered as a value.
      have hany := any_isStopped_iff.mpr hstopped
      refine iff_of_false ?_ fun h => h.elim he fun h => hstopped.elim h
      cases hl : d.loadAll children <;> simp [hany]
    · have hnostopped : ∀ i, (i, .stopped) ∉ startOrder cs := not_exists.mp hstopped
      have hany := mt any_isStopped_iff.mp hstopped
      have hnd : ((startOrder cs).map Prod.fst).Nodup := by
        simpa [startOrder, List.map_map, Function.comp_def] using List.nodup_finRange n
      have hload : d.loadAll children = some (allSent (startOrder cs)) := loadAll_eq hd hnd
        (fun i c hmem => mem_startOrder.mp hmem ▸ hadmits i)
        fun i => exists_value ⟨cs i, mem_startOrder.mpr rfl⟩ hnone hnostopped
      exact iff_of_true (by simp [hany, hload]) (.inr hnostopped)

/-- Where one of the optimised states is selected it delivers what the general one would
exactly if some child completed with an error or none was stopped. -/
theorem optimised_agrees_iff (hn : 0 < n) (hselect : selectOpState children ≠ .general)
    (h : Delivers children order o (selectOpState children))
    (h' : Delivers children order o' .general) :
    o = o' ↔ (∃ i e, (i, .error e) ∈ order) ∨ ∀ i, (i, .stopped) ∉ order := by
  rw [delivers_general hn h']
  by_cases hsync : ∀ i, (children i).synchronous = true
  · have hkind : selectOpState children = .sync := if_pos hsync
    exact delivers_sync_iff (hkind ▸ h)
  · by_cases hnostop : ∀ i, (children i).sendsStopped = false
    · have hkind : selectOpState children = .nostop := by
        rw [selectOpState, if_neg hsync, if_pos hnostop]
      obtain ⟨ho, hnostopped⟩ := delivers_nostop hn hnostop (hkind ▸ h)
      exact iff_of_true ho (.inr hnostopped)
    · exact absurd (by rw [selectOpState, if_neg hsync, if_neg hnostop]) hselect

end Comparison

/-- `just`, `just_error` and `just_stopped`. -/
def Child.just : Child := ⟨true, false, false, true⟩
def Child.justError : Child := ⟨false, true, false, true⟩
def Child.justStopped : Child := ⟨false, false, true, true⟩

/-- The general state with two children that complete in `start`, the second one in
`acts` parts. -/
def bothInStart (c c' : Completion (List ℕ) ℕ) (acts : ℕ) : List (Label 2 (List ℕ) ℕ) :=
  [.emplaceStopCb true, .startChildren, .startChild 0, .complete 0 c, .leave 0, .startChild 1,
    .complete 1 c'] ++ List.replicate acts (.act 1) ++ [.leave 1, .resetStopCb 1, .finish 1]

theorem optimised_agrees_iff_justError :
    syncStart ![.just, .justError] ![.value [1], .error 7] = some (.error 7) ↔
      (∃ i e, (i, .error e) ∈ startOrder ![Completion.value [1], .error 7]) ∨
        ∀ i, (i, .stopped) ∉ startOrder ![Completion.value [1], .error 7] :=
  optimised_agrees_iff (by decide) (show selectOpState ![.just, .justError] ≠ .general by decide)
    ⟨![.value [1], .error 7], by decide, rfl, rfl⟩
    ⟨bothInStart (.value [1]) (.error 7) 2, _, rfl, rfl, by decide, rfl, rfl⟩

/-- `when_all(just(1), just_stopped())` completes with the value. -/
theorem not_optimised_agrees :
    ¬ ∀ (children : Fin 2 → Child) (order : List (Fin 2 × Completion (List ℕ) ℕ))
        (o o' : Option (Completion (List ℕ) ℕ)), selectOpState children ≠ .general →
      Delivers children order o (selectOpState children) → Delivers children order o' .general →
      o = o' := by
  intro hall
  have hsame := hall ![.just, .justStopped] (startOrder ![.value [1], .stopped])
    (some (.value [1])) (some .stopped) (by decide) ⟨![.value [1], .stopped], by decide, rfl, rfl⟩
    ⟨bothInStart (.value [1]) .stopped 1, _, rfl, rfl, by decide, rfl, rfl⟩
  exact absurd hsame (by decide)

end BaremetalSenders.WhenAll
