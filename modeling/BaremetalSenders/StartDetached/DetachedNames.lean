import BaremetalSenders.Foundation.Run
import Mathlib.Data.Fintype.Defs
import Mathlib.Logic.Function.Basic

/-!
`stop_detached<Uniq>` and the senders of several types that are started under one name.

The static allocator keeps one storage for every pair of a name and an operation state
type, so with an allocation limit of one as many operations can be live under a name as
there are sender types. The pointer `stop_source_for<Uniq>` is one for the name. `start`
writes it whatever it was, and `die` clears it whatever it is: an operation that
completes takes the pointer from another one that is still live.

`DetachedStop` is about one sender type and everything that happens inside one call of
`request_stop`. Here the types are the point and the flag of each source is all that is
kept of it; the callbacks that a request calls are completions among the other steps.
-/

namespace BaremetalSenders.DetachedNames

/-- The storage of `static_allocator_t<Name, T, 1>`, and how far the operation in it is:
`started` once `start` has recorded its source, and `dying` once `die` has cleared the
record. The operations are numbered in the order of their construction. -/
inductive Slot where
  | free
  | constructed (op : ℕ)
  | started (op : ℕ)
  | dying (op : ℕ)
  deriving DecidableEq

/-- The operation whose state is in the storage. -/
def Slot.op : Slot → Option ℕ
  | .free => none
  | .constructed op | .started op | .dying op => some op

/-- `slots` are the storages of the sender types `κ`, `requested` the flags of the
operations' stop sources. -/
structure State (κ : Type*) where
  slots : κ → Slot
  constructed : ℕ
  requested : ℕ → Bool
  stopSourceFor : Option ℕ

variable {κ : Type*}

def State.init : State κ where
  slots := fun _ => .free
  constructed := 0
  requested := fun _ => false
  stopSourceFor := none

/-- The operation of the sender type can be asked to stop: it has been started, it has not
completed, and nobody has asked it yet. -/
def State.stoppable (s : State κ) (k : κ) : Bool :=
  match s.slots k with
  | .started op => !s.requested op
  | _ => false

def State.requestStop (s : State κ) (op : ℕ) : Bool × State κ :=
  (!s.requested op, { s with requested := Function.update s.requested op true })

def State.stopDetached (s : State κ) : Bool × State κ :=
  match s.stopSourceFor with
  | none => (false, s)
  | some op => s.requestStop op

/-- The calls of `start_detached_stoppable` for a sender type, in two parts: the allocator's
answer, and the record of the source with the start of the operation; a completion, in two
parts as well; and the requests, with what they return. `requestStop` goes through the
pointer `start_detached_stoppable` has returned. -/
inductive Label (κ : Type*) where
  | construct (k : κ) (allocated : Bool)
  | start (k : κ)
  | die (k : κ)
  | destruct (k : κ)
  | requestStop (k : κ) (result : Bool)
  | stopDetached (result : Bool)
  deriving DecidableEq

variable [DecidableEq κ]

def step (s : State κ) : Label κ → Option (State κ)
  | .construct k allocated =>
      if (s.slots k = .free) = (allocated = true) then
        some (if allocated then { s with
          slots := Function.update s.slots k (.constructed s.constructed)
          constructed := s.constructed + 1 } else s)
      else none
  | .start k =>
      match s.slots k with
      | .constructed op => some { s with
          slots := Function.update s.slots k (.started op)
          stopSourceFor := some op }
      | _ => none
  | .die k =>
      match s.slots k with
      | .started op => some { s with
          slots := Function.update s.slots k (.dying op)
          stopSourceFor := none }
      | _ => none
  | .destruct k =>
      match s.slots k with
      | .dying _ => some { s with slots := Function.update s.slots k .free }
      | _ => none
  | .requestStop k result =>
      match s.slots k with
      | .started op | .dying op =>
          if (s.requestStop op).1 = result then some (s.requestStop op).2 else none
      | _ => none
  | .stopDetached result =>
      if s.stopDetached.1 = result then some s.stopDetached.2 else none

structure Truthful (s : State κ) : Prop where
  /-- The recorded source is that of an operation that has not completed. -/
  recorded : ∀ op, s.stopSourceFor = some op → ∃ k, s.slots k = .started op
  answer : s.stopDetached.1 = true ↔ ∃ k, s.stoppable k = true
  request : s.stopDetached.1 = true → ∃ k op, s.slots k = .started op ∧
    s.requested op = false ∧ s.stopDetached.2.requested op = true

/-- No operation but `op` can be asked to stop. -/
def State.OnlyStoppable (s : State κ) (op : Option ℕ) : Prop :=
  ∀ k, s.stoppable k = true → (s.slots k).op = op

/-- The side condition of a step: an operation completes, and the recorded operation is
asked to stop, only when no other operation of the name can be asked. -/
def Alone (s : State κ) : Label κ → Prop
  | .die k => s.OnlyStoppable (s.slots k).op
  | .requestStop k _ => (s.slots k).op = s.stopSourceFor → s.OnlyStoppable s.stopSourceFor
  | .stopDetached _ => s.OnlyStoppable s.stopSourceFor
  | _ => True

instance [Fintype κ] (s : State κ) (op : Option ℕ) : Decidable (s.OnlyStoppable op) :=
  inferInstanceAs (Decidable (∀ k, s.stoppable k = true → (s.slots k).op = op))

instance [Fintype κ] (s : State κ) : (l : Label κ) → Decidable (Alone s l)
  | .die k => inferInstanceAs (Decidable (s.OnlyStoppable (s.slots k).op))
  | .requestStop k _ => inferInstanceAs
      (Decidable ((s.slots k).op = s.stopSourceFor → s.OnlyStoppable s.stopSourceFor))
  | .stopDetached _ => inferInstanceAs (Decidable (s.OnlyStoppable s.stopSourceFor))
  | .construct _ _ | .start _ | .destruct _ => inferInstanceAs (Decidable True)

/-! ### One step -/

inductive Move (s : State κ) : Label κ → State κ → Prop where
  | refused {k} (h : s.slots k ≠ .free) : Move s (.construct k false) s
  | construct {k} (h : s.slots k = .free) : Move s (.construct k true) { s with
      slots := Function.update s.slots k (.constructed s.constructed)
      constructed := s.constructed + 1 }
  | start {k op} (h : s.slots k = .constructed op) : Move s (.start k) { s with
      slots := Function.update s.slots k (.started op)
      stopSourceFor := some op }
  | die {k op} (h : s.slots k = .started op) : Move s (.die k) { s with
      slots := Function.update s.slots k (.dying op)
      stopSourceFor := none }
  | destruct {k op} (h : s.slots k = .dying op) : Move s (.destruct k) { s with
      slots := Function.update s.slots k .free }
  | requestStop {k op} (h : s.slots k = .started op ∨ s.slots k = .dying op) :
      Move s (.requestStop k (s.requestStop op).1) (s.requestStop op).2
  | stopDetached {op} (h : s.stopSourceFor = some op) :
      Move s (.stopDetached (s.requestStop op).1) (s.requestStop op).2
  | unrecorded (h : s.stopSourceFor = none) : Move s (.stopDetached false) s

theorem step_move {s s' : State κ} {l : Label κ} (h : step s l = some s') : Move s l s' := by
  cases l with
  | construct k allocated =>
      simp only [step] at h
      split at h <;> cases h
      next hc =>
        cases allocated with
        | true => exact .construct (by simpa using hc)
        | false => exact .refused (by simpa using hc)
  | start k =>
      simp only [step] at h
      split at h <;> cases h
      next op hk => exact .start hk
  | die k =>
      simp only [step] at h
      split at h <;> cases h
      next op hk => exact .die hk
  | destruct k =>
      simp only [step] at h
      split at h <;> cases h
      next op hk => exact .destruct hk
  | requestStop k result =>
      simp only [step] at h
      split at h <;> try cases h
      · split at h <;> cases h
        next hk hr => exact hr ▸ .requestStop (.inl hk)
      · split at h <;> cases h
        next hk hr => exact hr ▸ .requestStop (.inr hk)
  | stopDetached result =>
      simp only [step] at h
      split at h <;> cases h
      next hr =>
        cases hp : s.stopSourceFor with
        | none =>
            have hd : s.stopDetached = (false, s) := by simp [State.stopDetached, hp]
            rw [hd] at hr ⊢
            exact hr ▸ .unrecorded hp
        | some op =>
            have hd : s.stopDetached = s.requestStop op := by simp [State.stopDetached, hp]
            rw [hd] at hr ⊢
            exact hr ▸ .stopDetached hp

/-- What holds in every state: the numbers tell the operations apart, a source is not asked
before its operation is started, and the record is of an operation that is live. -/
structure Named (s : State κ) : Prop where
  fresh : ∀ k op, (s.slots k).op = some op → op < s.constructed
  unique : ∀ k k' op, (s.slots k).op = some op → (s.slots k').op = some op → k = k'
  unused : ∀ op, s.constructed ≤ op → s.requested op = false
  unasked : ∀ k op, s.slots k = .constructed op → s.requested op = false
  recorded : ∀ op, s.stopSourceFor = some op → ∃ k, s.slots k = .started op

omit [DecidableEq κ] in
theorem named_init : Named (State.init : State κ) where
  fresh := by simp [State.init, Slot.op]
  unique := by simp [State.init, Slot.op]
  unused := by simp [State.init]
  unasked := by simp [State.init]
  recorded := by simp [State.init]

section Steps

variable {s s' : State κ} {l : Label κ} {k k' : κ} {op : ℕ}

omit [DecidableEq κ] in
theorem stoppable_iff :
    s.stoppable k = true ↔ ∃ op, s.slots k = .started op ∧ s.requested op = false := by
  cases hk : s.slots k <;> simp [State.stoppable, hk]

omit [DecidableEq κ] in
theorem Named.requestStop (hn : Named s) (hk : s.slots k = .started op ∨ s.slots k = .dying op) :
    Named (s.requestStop op).2 where
  fresh := hn.fresh
  unique := hn.unique
  unused := by
    intro op' hle
    have hlt : op < s.constructed := hn.fresh k op (by rcases hk with h | h <;> rw [h] <;> rfl)
    have hle' : s.constructed ≤ op' := hle
    have hne : op' ≠ op := by omega
    simpa [State.requestStop, hne] using hn.unused op' hle
  unasked := by
    intro k' op' hk'
    have hslot : s.slots k' = .constructed op' := hk'
    have hne : op' ≠ op := by
      rintro rfl
      obtain rfl := hn.unique k k' op' (by rcases hk with h | h <;> rw [h] <;> rfl)
        (by rw [hslot]; rfl)
      simp [hslot] at hk
    simpa [State.requestStop, hne] using hn.unasked k' op' hk'
  recorded := hn.recorded

/-- One storage changes, and holds the operation it held or none. -/
theorem Named.setSlot (hn : Named s) {slot : Slot} {p : Option ℕ}
    (hop : ∀ op, slot.op = some op → (s.slots k).op = some op)
    (hc : ∀ op, slot ≠ .constructed op)
    (hp : ∀ op, p = some op → ∃ k', Function.update s.slots k slot k' = .started op) :
    Named { s with slots := Function.update s.slots k slot, stopSourceFor := p } := by
  have hold : ∀ k' op, (Function.update s.slots k slot k').op = some op →
      (s.slots k').op = some op := by
    intro k' op hk'
    by_cases he : k' = k
    · obtain rfl := he
      exact hop op (by simpa using hk')
    · simpa [he] using hk'
  refine ⟨fun k' op hk' => hn.fresh k' op (hold k' op hk'),
    fun k₁ k₂ op h₁ h₂ => hn.unique k₁ k₂ op (hold k₁ op h₁) (hold k₂ op h₂),
    hn.unused, fun k' op hk' => ?_, hp⟩
  by_cases he : k' = k
  · obtain rfl := he
    exact absurd (by simpa using hk') (hc op)
  · exact hn.unasked k' op (by simpa [he] using hk')

theorem Named.construct (hn : Named s) (hk : s.slots k = .free) :
    Named { s with
      slots := Function.update s.slots k (.constructed s.constructed)
      constructed := s.constructed + 1 } where
  fresh := by
    intro k' op hk'
    by_cases he : k' = k
    · obtain rfl := he
      simp [Slot.op] at hk'
      simp [← hk']
    · have := hn.fresh k' op (by simpa [he] using hk')
      simp only
      omega
  unique := by
    intro k₁ k₂ op h₁ h₂
    by_cases he₁ : k₁ = k <;> by_cases he₂ : k₂ = k
    · rw [he₁, he₂]
    · obtain rfl : s.constructed = op := by simpa [he₁, Slot.op] using h₁
      exact absurd (hn.fresh k₂ _ (by simpa [he₂] using h₂)) (Nat.lt_irrefl _)
    · obtain rfl : s.constructed = op := by simpa [he₂, Slot.op] using h₂
      exact absurd (hn.fresh k₁ _ (by simpa [he₁] using h₁)) (Nat.lt_irrefl _)
    · exact hn.unique k₁ k₂ op (by simpa [he₁] using h₁) (by simpa [he₂] using h₂)
  unused := fun op hle => hn.unused op (Nat.le_of_succ_le hle)
  unasked := by
    intro k' op hk'
    by_cases he : k' = k
    · obtain rfl : s.constructed = op := by simpa [he] using hk'
      exact hn.unused _ (Nat.le_refl _)
    · exact hn.unasked k' op (by simpa [he] using hk')
  recorded := by
    intro op hp
    obtain ⟨k', hk'⟩ := hn.recorded op hp
    have hne : k' ≠ k := by
      rintro rfl
      simp [hk] at hk'
    exact ⟨k', by simpa [hne] using hk'⟩

/-- A record survives the step of a storage that does not hold a live operation. -/
theorem Named.recorded_update (hn : Named s) {slot : Slot} (hk : ∀ op, s.slots k ≠ .started op) :
    ∀ op, s.stopSourceFor = some op → ∃ k', Function.update s.slots k slot k' = .started op := by
  intro op hp
  obtain ⟨k', hk'⟩ := hn.recorded op hp
  have hne : k' ≠ k := by
    rintro rfl
    exact hk op hk'
  exact ⟨k', by simpa [hne] using hk'⟩

theorem Named.step (hn : Named s) (h : step s l = some s') : Named s' := by
  cases step_move h with
  | refused | unrecorded => exact hn
  | construct hk => exact hn.construct hk
  | @start k op hk =>
      refine hn.setSlot (by simp [Slot.op, hk]) (by simp) ?_
      rintro _ ⟨⟩
      exact ⟨k, by simp⟩
  | die hk => exact hn.setSlot (by simp [Slot.op, hk]) (by simp) (by simp)
  | destruct hk =>
      exact hn.setSlot (by simp [Slot.op]) (by simp) (hn.recorded_update (by simp [hk]))
  | requestStop hk => exact hn.requestStop hk
  | stopDetached hp =>
      obtain ⟨k, hk⟩ := hn.recorded _ hp
      exact hn.requestStop (.inl hk)

/-- When there is an operation to be asked, the recorded one can be asked. -/
def Told (s : State κ) : Prop :=
  ∀ k, s.stoppable k = true → ∃ op, s.stopSourceFor = some op ∧ s.requested op = false

omit [DecidableEq κ] in
theorem Named.truthful_iff (hn : Named s) : Truthful s ↔ Told s := by
  constructor
  · intro ht k hk
    have htrue := ht.answer.mpr ⟨k, hk⟩
    cases hp : s.stopSourceFor with
    | none => simp [State.stopDetached, hp] at htrue
    | some op => exact ⟨op, rfl, by simpa [State.stopDetached, hp, State.requestStop] using htrue⟩
  · intro ht
    have hask : s.stopDetached.1 = true → ∃ k op, s.slots k = .started op ∧
        s.requested op = false ∧ s.stopDetached.2.requested op = true := by
      intro htrue
      cases hp : s.stopSourceFor with
      | none => simp [State.stopDetached, hp] at htrue
      | some op =>
          obtain ⟨k, hk⟩ := hn.recorded op hp
          simp only [State.stopDetached, hp, State.requestStop] at htrue ⊢
          exact ⟨k, op, hk, by simpa using htrue, by simp⟩
    refine ⟨hn.recorded, ⟨fun htrue => ?_, fun ⟨k, hk⟩ => ?_⟩, hask⟩
    · obtain ⟨k, op, hk, hop, -⟩ := hask htrue
      exact ⟨k, stoppable_iff.mpr ⟨op, hk, hop⟩⟩
    · obtain ⟨op, hp, hop⟩ := ht k hk
      simp [State.stopDetached, hp, State.requestStop, hop]

omit [DecidableEq κ] in
theorem stoppable_requestStop : (s.requestStop op).2.stoppable k = true ↔
    s.stoppable k = true ∧ (s.slots k).op ≠ some op := by
  rw [stoppable_iff, stoppable_iff]
  constructor
  · rintro ⟨op', hk, hr⟩
    have hslot : s.slots k = .started op' := hk
    have hne : op' ≠ op := by
      rintro rfl
      simp [State.requestStop] at hr
    exact ⟨⟨op', hslot, by simpa [State.requestStop, hne] using hr⟩, by simp [hslot, Slot.op, hne]⟩
  · rintro ⟨⟨op', hk, hr⟩, hop⟩
    have hne : op' ≠ op := by simpa [hk, Slot.op] using hop
    exact ⟨op', hk, by simpa [State.requestStop, hne] using hr⟩

omit [DecidableEq κ] in
/-- A request that goes to the recorded operation leaves the record of no use. -/
theorem Told.requestStop_iff (ht : Told s) : Told (s.requestStop op).2 ↔
    (s.stopSourceFor = some op → s.OnlyStoppable (some op)) := by
  constructor
  · intro ht' hp k hk
    by_contra hne
    obtain ⟨op', hp', hr⟩ := ht' k (stoppable_requestStop.mpr ⟨hk, hne⟩)
    obtain rfl : op = op' := Option.some.inj (hp.symm.trans hp')
    simp [State.requestStop] at hr
  · intro honly k hk
    obtain ⟨hs, hop⟩ := stoppable_requestStop.mp hk
    obtain ⟨op', hp, hr⟩ := ht k hs
    have hne : op' ≠ op := by
      rintro rfl
      exact hop (honly hp k hs)
    exact ⟨op', hp, by simpa [State.requestStop, hne] using hr⟩

/-- A storage that held no live operation changes, and holds none. -/
theorem Told.setSlot (ht : Told s) {slot : Slot} (hnew : ∀ op, slot ≠ .started op) (n : ℕ) :
    Told { s with slots := Function.update s.slots k slot, constructed := n } := by
  intro k' hk'
  obtain ⟨op, hop, hr⟩ := stoppable_iff.mp hk'
  by_cases he : k' = k
  · obtain rfl := he
    exact absurd (by simpa using hop) (hnew op)
  · exact ht k' (stoppable_iff.mpr ⟨op, by simpa [he] using hop, hr⟩)

/-- The one step that clears the record. -/
theorem told_die_iff (hn : Named s) (hk : s.slots k = .started op) :
    Told { s with slots := Function.update s.slots k (.dying op), stopSourceFor := none } ↔
      s.OnlyStoppable (some op) := by
  constructor
  · intro ht k' hk'
    obtain ⟨op', hop', hr⟩ := stoppable_iff.mp hk'
    by_cases he : k' = k
    · rw [he, hk, Slot.op]
    · -- there is no record any more, so nothing else may be stoppable
      have := ht k' (stoppable_iff.mpr ⟨op', by simpa [he] using hop', hr⟩)
      simp at this
  · intro honly k' hk'
    obtain ⟨op', hop', hr⟩ := stoppable_iff.mp hk'
    by_cases he : k' = k
    · simp [he] at hop'
    · have hslot : s.slots k' = .started op' := by simpa [he] using hop'
      have hop := honly k' (stoppable_iff.mpr ⟨op', hslot, hr⟩)
      exact absurd (hn.unique k' k op hop (by rw [hk]; rfl)) he

/-- A step keeps the record of use exactly if it meets the condition. -/
theorem Told.step_iff (hn : Named s) (ht : Told s) (h : step s l = some s') :
    Told s' ↔ Alone s l := by
  cases step_move h with
  | refused => exact ⟨fun _ => trivial, fun _ => ht⟩
  | construct hk => exact ⟨fun _ => trivial, fun _ => ht.setSlot (by simp) _⟩
  | destruct hk => exact ⟨fun _ => trivial, fun _ => ht.setSlot (by simp) _⟩
  | @start k op hk => exact ⟨fun _ => trivial, fun _ _ _ => ⟨op, rfl, hn.unasked k op hk⟩⟩
  | @die k op hk =>
      have hop : (s.slots k).op = some op := by rw [hk]; rfl
      rw [told_die_iff hn hk, Alone, hop]
  | @requestStop k op hk =>
      have hop : (s.slots k).op = some op := by rcases hk with h | h <;> rw [h] <;> rfl
      rw [ht.requestStop_iff, Alone, hop]
      exact ⟨fun honly hp => hp ▸ honly hp.symm, fun honly hp => hp ▸ honly hp.symm⟩
  | @stopDetached op hp =>
      rw [ht.requestStop_iff, Alone, hp]
      simp
  | unrecorded hp =>
      refine ⟨fun _ k hk => ?_, fun _ => ht⟩
      obtain ⟨op, hop, -⟩ := ht k hk
      exact absurd (hp.symm.trans hop) (by simp)

end Steps

/-! ### Every run -/

variable {tr : List (Label κ)} {s : State κ}

theorem named_of_run (h : Run step .init tr s) : Named s :=
  Run.induction (P := fun _ s => Named s) named_init (fun _ _ _ _ _ hn hs => hn.step hs) h

omit [DecidableEq κ] in
theorem told_init : Told (State.init : State κ) := by
  intro k hk
  simp [State.stoppable, State.init] at hk

/-- `stop_detached` would tell the truth in every state a run goes through, exactly if each
operation that completes, or is asked through the record, is the only one of the name that
could still be asked. -/
theorem truthful_iff_alone (h : Run step .init tr s) :
    (∀ tr' s', tr' <+: tr → Run step .init tr' s' → Truthful s') ↔
      EachStep step Alone .init tr := by
  constructor
  · intro hall
    refine Run.induction (P := fun tr _ => (∀ tr' s', tr' <+: tr → Run step .init tr' s' →
      Truthful s') → EachStep step Alone .init tr) (fun _ => trivial) ?_ h hall
    intro tr s l s' hr ih hl hall
    -- both states are truthful, so the step between them meets the condition
    have hpre := ih fun tr' u hp hu => hall tr' u (hp.trans (List.prefix_append ..)) hu
    have ht := (named_of_run hr).truthful_iff.mp (hall tr s (List.prefix_append ..) hr)
    have hr' := hr.concat hl
    have ht' := (named_of_run hr').truthful_iff.mp (hall _ s' List.prefix_rfl hr')
    exact hpre.concat hr ((ht.step_iff (named_of_run hr) hl).mp ht')
  · rintro hC tr' s' ⟨rest, rfl⟩ hr
    refine (named_of_run hr).truthful_iff.mpr ?_
    refine Run.induction_of_eachStep (P := fun _ s => Told s) told_init ?_ hr (hC.of_append hr).1
    intro tr u l u' hr ht hc hl
    exact (ht.step_iff (named_of_run hr) hl).mpr hc

/-- Two sender types under one name. One operation is stopped and completes; then the other
type is started, and both overlap until the older one, already asked, completes. -/
def overlapTrace : List (Label Bool) :=
  [.construct true true, .start true, .construct true false, .stopDetached true,
    .stopDetached false, .construct false true, .start false, .requestStop false true, .die true,
    .destruct true, .stopDetached false, .die false, .destruct false]

theorem truthful_overlapTrace : ∃ s, Run step .init overlapTrace s ∧ Truthful s := by
  obtain ⟨s, hs⟩ : ∃ s, Run step .init overlapTrace s := exists_run_iff.mpr rfl
  exact ⟨s, hs, (truthful_iff_alone hs).mpr (by decide) _ s List.prefix_rfl hs⟩

/-- The second operation to be started completes, and the first is lost: `stop_detached`
returns false while an operation is live that nobody has asked to stop. -/
theorem not_truthful_lost_operation :
    ¬ ∀ (tr : List (Label Bool)) (s : State Bool), Run step .init tr s → Truthful s := by
  intro hall
  have ht := hall [.construct true true, .start true, .construct false true, .start false,
    .die false] _ rfl
  have htrue := ht.answer.mpr ⟨true, rfl⟩
  cases htrue

end BaremetalSenders.DetachedNames
