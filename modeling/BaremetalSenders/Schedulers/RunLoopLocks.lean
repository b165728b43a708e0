import BaremetalSenders.Schedulers.RunLoop
import Mathlib.Logic.Function.Basic

/-!
Which lock `run_loop` holds when it is at its list.

A `synchronizer` with a condition variable has a mutex `m`, and `notify` and
`wait` call what they are given while they hold it; without one they use the
critical section of `Uniq`. `pop_front` pops in that critical section whatever
the synchronizer is. A list operation takes several steps, which are taken
while the lock is held that the path to it has taken.

A context takes a lock, operates on the list, and leaves; `wait` does so as
often as it likes until its predicate holds. What the operation does to the
list is done at its end, so the state of the loop goes through the steps of
`RunLoop.step`.
-/

namespace BaremetalSenders.RunLoop

variable {κ α : Type*}

/-- The implementations of `synchronizer`. -/
inductive Synchronizer where
  | hosted
  | freestanding
  deriving DecidableEq

/-- `synchronizer::m`, and what `call_in_critical_section<Uniq>` takes. -/
inductive Lock where
  | mutex
  | criticalSection
  deriving DecidableEq

/-- What is done under a lock: `notify` with the function of `push_back`, `notify`
without functions, the predicate of `wait`, and the critical section of `pop_front`. -/
inductive Section where
  | push
  | finish
  | test
  | pop
  deriving DecidableEq

def Synchronizer.lock : Synchronizer → Section → Lock
  | _, .pop => .criticalSection
  | .hosted, .push | .hosted, .finish | .hosted, .test => .mutex
  | .freestanding, .push | .freestanding, .finish | .freestanding, .test => .criticalSection

def Section.usesTasks : Section → Bool
  | .finish => false
  | .push | .test | .pop => true

/-- Where a context is: not in a section; in one, in front of what is done there, at the
list, or at its end. -/
inductive Position where
  | outside
  | entered (x : Section)
  | within (x : Section)
  | leaving (x : Section)
  deriving DecidableEq

def Position.section? : Position → Option Section
  | .outside => none
  | .entered x | .within x | .leaving x => some x

/-- The loop, the owners of the locks and the positions of the contexts. -/
structure Locked (κ α : Type*) where
  loop : State α
  owner : Lock → Option (Context κ)
  position : Context κ → Position

def Locked.init : Locked κ α := ⟨.init, fun _ => none, fun _ => .outside⟩

/-- `begin`, `access` and `commit` are the steps of an operation, and `commit` has what it
does to the loop; `loop` is a step of the loop that needs no lock. -/
inductive LockedEvent (κ α : Type*) where
  | enter (c : Context κ) (x : Section)
  | begin (c : Context κ)
  | access (c : Context κ)
  | commit (c : Context κ) (e : Option (Event κ α))
  | leave (c : Context κ)
  | loop (e : Event κ α)
  deriving DecidableEq

namespace Locked

/-- The context calls a function that has the section. -/
def mayEnter (s : Locked κ α) (c : Context κ) : Section → Bool
  | .push | .finish => s.loop.mayCall c
  | .test => match c, s.loop.loop with
    | .runner, .waiting => true
    | _, _ => false
  | .pop => match c, s.loop.loop with
    | .runner, .popping => true
    | _, _ => false

/-- What the section does to the loop; the predicate of `wait` can be false. -/
def performs [DecidableEq κ] (s : Locked κ α) (c : Context κ) :
    Section → Option (Event κ α) → Bool
  | .push, some (.pushBack c' _) => c' == c
  | .finish, some (.finish c') => c' == c
  | .test, some .wait => true
  | .test, none => s.loop.tasks.isEmpty && !s.loop.done
  | .pop, some (.pop _) => true
  | _, _ => false

def move [DecidableEq κ] (s : Locked κ α) (c : Context κ) (p : Position) : Locked κ α :=
  { s with position := Function.update s.position c p }

@[simp] theorem move_owner [DecidableEq κ] (s : Locked κ α) (c : Context κ) (p : Position) :
    (s.move c p).owner = s.owner := rfl

@[simp] theorem move_position [DecidableEq κ] (s : Locked κ α) (c : Context κ) (p : Position) :
    (s.move c p).position = Function.update s.position c p := rfl

def own (s : Locked κ α) (k : Lock) (o : Option (Context κ)) : Locked κ α :=
  { s with owner := Function.update s.owner k o }

@[simp] theorem own_owner (s : Locked κ α) (k : Lock) (o : Option (Context κ)) :
    (s.own k o).owner = Function.update s.owner k o := rfl

@[simp] theorem own_position (s : Locked κ α) (k : Lock) (o : Option (Context κ)) :
    (s.own k o).position = s.position := rfl

end Locked

section Step

variable [DecidableEq κ] [DecidableEq α] (sync : Synchronizer)

def Locked.step (s : Locked κ α) : LockedEvent κ α → Option (Locked κ α)
  | .enter c x =>
      if s.position c = .outside ∧ s.owner (sync.lock x) = none ∧ s.mayEnter c x then
        some ((s.own (sync.lock x) (some c)).move c (.entered x))
      else none
  | .begin c =>
      match s.position c with
      | .entered x => if x.usesTasks then some (s.move c (.within x)) else none
      | _ => none
  | .access c =>
      match s.position c with
      | .within _ => some s
      | _ => none
  | .commit c e =>
      match s.position c with
      | .within x | .entered x =>
          if s.performs c x e ∧ (x.usesTasks = true → s.position c = .within x) then
            (exec RunLoop.step s.loop e.toList).map fun loop =>
              { s.move c (.leaving x) with loop := loop }
          else none
      | _ => none
  | .leave c =>
      match s.position c with
      | .leaving x => some ((s.own (sync.lock x) none).move c .outside)
      | _ => none
  | .loop e =>
      match e with
      | .requestStop _ | .run | .execute _ _ | .executed _ =>
          (RunLoop.step s.loop e).map fun loop => { s with loop := loop }
      | _ => none

/-! ### What a step can do -/

inductive LockedMove (s : Locked κ α) : LockedEvent κ α → Locked κ α → Prop
  | enter (c x) : s.position c = .outside → s.owner (sync.lock x) = none →
      s.mayEnter c x = true →
      LockedMove s (.enter c x) ((s.own (sync.lock x) (some c)).move c (.entered x))
  | begin (c x) : s.position c = .entered x → x.usesTasks = true →
      LockedMove s (.begin c) (s.move c (.within x))
  | access (c x) : s.position c = .within x → LockedMove s (.access c) s
  | commit (c x e loop) : s.position c = .within x ∨ s.position c = .entered x →
      Run RunLoop.step s.loop e.toList loop →
      LockedMove s (.commit c e) { s.move c (.leaving x) with loop := loop }
  | leave (c x) : s.position c = .leaving x →
      LockedMove s (.leave c) ((s.own (sync.lock x) none).move c .outside)
  | loop (e loop) : RunLoop.step s.loop e = some loop →
      LockedMove s (.loop e) { s with loop := loop }

variable {sync} {s s' : Locked κ α} {e : LockedEvent κ α}

theorem Locked.step_move (h : s.step sync e = some s') : LockedMove sync s e s' := by
  cases e with
  | enter c x =>
      simp only [Locked.step] at h
      split at h <;> cases h
      next hc => exact .enter c x hc.1 hc.2.1 hc.2.2
  | begin c =>
      simp only [Locked.step] at h
      split at h
      next x hx =>
        split at h <;> cases h
        next huses => exact .begin c x hx huses
      next => cases h
  | access c =>
      simp only [Locked.step] at h
      split at h <;> cases h
      next x hx => exact .access c x hx
  | commit c e =>
      simp only [Locked.step] at h
      split at h
      next x hx =>
        split at h
        next =>
          obtain ⟨loop, hloop, rfl⟩ := Option.map_eq_some_iff.mp h
          exact .commit c x e loop (.inl hx) hloop
        next => cases h
      next x hx =>
        split at h
        next =>
          obtain ⟨loop, hloop, rfl⟩ := Option.map_eq_some_iff.mp h
          exact .commit c x e loop (.inr hx) hloop
        next => cases h
      next => cases h
  | leave c =>
      simp only [Locked.step] at h
      split at h <;> cases h
      next x hx => exact .leave c x hx
  | loop e =>
      simp only [Locked.step] at h
      split at h
      all_goals first
        | (obtain ⟨loop, hloop, rfl⟩ := Option.map_eq_some_iff.mp h
           exact .loop _ loop hloop)
        | cases h

end Step

/-! ### Who is at the list -/

def Locked.onTasks (s : Locked κ α) (c : Context κ) : Prop :=
  ∃ x, s.position c = .within x ∧ x.usesTasks = true

/-- No two contexts are at the list. -/
def Locked.Exclusive (s : Locked κ α) : Prop :=
  ∀ c c', s.onTasks c → s.onTasks c' → c = c'

/-- The side condition of a step: `push_back` gets to the list when `pop_front` is not
there, and the other way round. -/
def Apart (s : Locked κ α) : LockedEvent κ α → Prop
  | .begin c =>
      (s.position c = .entered .push → s.position .runner ≠ .within .pop) ∧
      (s.position c = .entered .pop → ∀ c', s.position c' ≠ .within .push)
  | _ => True

/-- What the locks guarantee: a section is left by the context that has taken its lock, and
the sections of `run` are entered by the context that is in `run`. -/
structure Guarded (sync : Synchronizer) (s : Locked κ α) : Prop where
  owner : ∀ c x, (s.position c).section? = some x → s.owner (sync.lock x) = some c
  runner : ∀ c x, (s.position c).section? = some x → x = .test ∨ x = .pop → c = .runner

theorem Guarded.init (sync : Synchronizer) : Guarded sync (.init : Locked κ α) where
  owner := by
    intro c x hx
    cases hx
  runner := by
    intro c x hx
    cases hx

section Runs

variable [DecidableEq κ] [DecidableEq α] {sync : Synchronizer} {s s' : Locked κ α}
  {e : LockedEvent κ α} {tr : List (LockedEvent κ α)}

omit [DecidableEq α] in
/-- A context goes to another position, and keeps the others in their sections. -/
theorem Guarded.set (h : Guarded sync s) {c : Context κ} {p : Position}
    {owner : Lock → Option (Context κ)}
    (hkeep : ∀ c' x, c' ≠ c → s.owner (sync.lock x) = some c' → owner (sync.lock x) = some c')
    (hp : ∀ x, p.section? = some x →
      owner (sync.lock x) = some c ∧ (x = .test ∨ x = .pop → c = .runner)) :
    Guarded sync { s with owner := owner, position := Function.update s.position c p } where
  owner := by
    intro c' x hx
    dsimp only at hx
    rcases eq_or_ne c' c with rfl | hne
    · rw [Function.update_self] at hx
      exact (hp x hx).1
    · rw [Function.update_of_ne hne] at hx
      exact hkeep c' x hne (h.owner c' x hx)
  runner := by
    intro c' x hx
    dsimp only at hx
    rcases eq_or_ne c' c with rfl | hne
    · rw [Function.update_self] at hx
      exact (hp x hx).2
    · rw [Function.update_of_ne hne] at hx
      exact h.runner c' x hx

omit [DecidableEq α] in
/-- It moves within the section it is in. -/
theorem Guarded.move (h : Guarded sync s) {c : Context κ} {x : Section} {p : Position}
    (hc : (s.position c).section? = some x) (hp : p.section? = some x) :
    Guarded sync (s.move c p) := by
  refine h.set (fun _ _ _ ho => ho) fun y hy => ?_
  obtain rfl : x = y := Option.some.inj (hp.symm.trans hy)
  exact ⟨h.owner c x hc, h.runner c x hc⟩

omit [DecidableEq κ] [DecidableEq α] in
theorem mayEnter_runner {c : Context κ} {x : Section} (h : s.mayEnter c x = true)
    (hx : x = .test ∨ x = .pop) : c = .runner := by
  rcases hx with rfl | rfl <;>
    simp only [Locked.mayEnter] at h <;>
    split at h
  all_goals first
    | rfl
    | cases h

theorem Guarded.step (h : Guarded sync s) (hs : s.step sync e = some s') : Guarded sync s' := by
  cases Locked.step_move hs with
  | enter c x hout hfree hmay =>
      refine h.set (fun c' y _ ho => ?_) fun y hy => ?_
      · have hlock : sync.lock y ≠ sync.lock x := by
          intro he
          rw [he, hfree] at ho
          cases ho
        rwa [Locked.own_owner, Function.update_of_ne hlock]
      · obtain rfl : x = y := Option.some.inj hy
        exact ⟨Function.update_self .., mayEnter_runner hmay⟩
  | begin c x hx _ => exact h.move (by rw [hx]; rfl) rfl
  | access => exact h
  | commit c x _ _ hx _ =>
      have hsection : (s.position c).section? = some x := by
        rcases hx with hx | hx <;> rw [hx] <;> rfl
      have hmove := h.move (p := .leaving x) hsection rfl
      exact ⟨hmove.owner, hmove.runner⟩
  | leave c x hx =>
      refine h.set (fun c' y hne ho => ?_) fun y hy => by cases hy
      have hleaver := h.owner c x (by rw [hx]; rfl)
      have hlock : sync.lock y ≠ sync.lock x := by
        intro he
        rw [he, hleaver] at ho
        exact hne (Option.some.inj ho).symm
      rwa [Locked.own_owner, Function.update_of_ne hlock]
  | loop => exact ⟨h.owner, h.runner⟩

theorem guarded_of_run (h : Run (Locked.step sync) .init tr s) : Guarded sync s :=
  Run.induction (P := fun _ s => Guarded sync s) (Guarded.init sync)
    (fun _ _ _ _ _ ih hs => ih.step hs) h

omit [DecidableEq κ] [DecidableEq α] in
/-- Two contexts can only be at the list in `push_back` and in `pop_front`, where these take
different locks. -/
theorem Guarded.collision (h : Guarded sync s) {c c' : Context κ} {x y : Section}
    (hc : s.position c = .within x) (hc' : s.position c' = .within y)
    (hx : x.usesTasks = true) (hy : y.usesTasks = true) (hne : c ≠ c') :
    sync = .hosted ∧ (x = .push ∧ y = .pop ∨ x = .pop ∧ y = .push) := by
  have hown := h.owner c x (by rw [hc]; rfl)
  have hown' := h.owner c' y (by rw [hc']; rfl)
  have hrun := h.runner c x (by rw [hc]; rfl)
  have hrun' := h.runner c' y (by rw [hc']; rfl)
  have hlock : sync.lock x ≠ sync.lock y := by
    intro he
    rw [he, hown'] at hown
    exact hne (Option.some.inj hown).symm
  have hboth : ¬ ((x = .test ∨ x = .pop) ∧ (y = .test ∨ y = .pop)) :=
    fun ⟨hx, hy⟩ => hne ((hrun hx).trans (hrun' hy).symm)
  cases sync <;> cases x <;> cases y <;> simp_all [Synchronizer.lock, Section.usesTasks]

/-- A context gets to the list by `begin` only. -/
theorem onTasks_of_step (hs : s.step sync e = some s') {c : Context κ} (he : e ≠ .begin c)
    (hc : s'.onTasks c) : s.onTasks c := by
  obtain ⟨y, hy, huses⟩ := hc
  have hmoved : ∀ {c' : Context κ} {p : Position}, Function.update s.position c' p c = .within y →
      (c = c' → p ≠ .within y) → s.onTasks c := by
    intro c' p hp hne
    rcases eq_or_ne c c' with rfl | hcc
    · rw [Function.update_self] at hp
      exact absurd hp (hne rfl)
    · rw [Function.update_of_ne hcc] at hp
      exact ⟨y, hp, huses⟩
  cases Locked.step_move hs with
  | enter c' x => exact hmoved hy (fun _ hp => by cases hp)
  | begin c' x => exact hmoved hy (fun hcc _ => he (by rw [hcc]))
  | access => exact ⟨y, hy, huses⟩
  | commit c' x => exact hmoved hy (fun _ hp => by cases hp)
  | leave c' x => exact hmoved hy (fun _ hp => by cases hp)
  | loop => exact ⟨y, hy, huses⟩

theorem apart_of_exclusive (hs : s.step sync e = some s') (hex : s'.Exclusive) : Apart s e := by
  cases Locked.step_move hs with
  | begin c x hx huses =>
      have hc : (s.move c (.within x)).onTasks c := ⟨x, Function.update_self .., huses⟩
      -- whoever is at the list already is still there
      have hother : ∀ c' y, s.position c' = .within y → y.usesTasks = true → False := by
        intro c' y hy hyuses
        have hne : c' ≠ c := by
          rintro rfl
          rw [hx] at hy
          cases hy
        exact hne (hex c' c ⟨y, (Function.update_of_ne hne ..).trans hy, hyuses⟩ hc)
      exact ⟨fun _ hpop => hother .runner .pop hpop rfl,
        fun _ c' hpush => hother c' .push hpush rfl⟩
  | enter | access | commit | leave | loop => exact True.intro

omit [DecidableEq κ] [DecidableEq α] in
theorem Apart.begin {c c' : Context κ} {x y : Section}
    (h : Apart s (.begin c : LockedEvent κ α)) (hg : Guarded sync s)
    (hx : s.position c = .entered x) (hy : s.position c' = .within y) :
    ¬ (x = .push ∧ y = .pop ∨ x = .pop ∧ y = .push) := by
  rintro (⟨rfl, rfl⟩ | ⟨rfl, rfl⟩)
  · obtain rfl := hg.runner c' .pop (by rw [hy]; rfl) (.inr rfl)
    exact h.1 hx hy
  · exact h.2 hx c' hy

theorem exclusive_of_apart (hg : Guarded sync s) (hex : s.Exclusive)
    (hs : s.step sync e = some s') (hC : sync = .freestanding ∨ Apart s e) : s'.Exclusive := by
  have hg' := hg.step hs
  intro c₁ c₂ hc₁ hc₂
  by_contra hne
  have hold : e ≠ .begin c₁ → e ≠ .begin c₂ → False := fun h₁ h₂ =>
    hne (hex c₁ c₂ (onTasks_of_step hs h₁ hc₁) (onTasks_of_step hs h₂ hc₂))
  obtain ⟨x, hx, hxuses⟩ := hc₁
  obtain ⟨y, hy, hyuses⟩ := hc₂
  obtain ⟨rfl, hxy⟩ := hg'.collision hx hy hxuses hyuses hne
  have hapart : Apart s e := hC.resolve_left (by simp)
  cases Locked.step_move hs with
  | begin c z hz _ =>
      rcases eq_or_ne c c₁ with rfl | hcc₁
      · -- `c₁` gets to the list, where `c₂` is already
        obtain rfl : z = x := by simpa using hx
        rw [Locked.move_position, Function.update_of_ne (Ne.symm hne)] at hy
        exact hapart.begin hg hz hy hxy
      · rcases eq_or_ne c c₂ with rfl | hcc₂
        · obtain rfl : z = y := by simpa using hy
          rw [Locked.move_position, Function.update_of_ne hne] at hx
          exact hapart.begin hg hz hx (hxy.symm.imp And.symm And.symm)
        · exact hold (by simpa using hcc₁) (by simpa using hcc₂)
  | enter | access | commit | leave | loop => exact hold (by simp) (by simp)

theorem exclusive_of_run (h : Run (Locked.step sync) .init tr s)
    (hC : sync = .freestanding ∨ EachStep (Locked.step sync) Apart .init tr) : s.Exclusive := by
  have hall : EachStep (Locked.step sync) (fun s e => sync = .freestanding ∨ Apart s e)
      .init tr := by
    rcases hC with hfree | hapart
    · exact (EachStep.trivial tr).imp fun _ _ _ => .inl hfree
    · exact hapart.imp fun _ _ hC => .inr hC
  have hinit : (Locked.init : Locked κ α).Exclusive := by
    rintro c c' ⟨x, hx, _⟩
    cases hx
  refine Run.induction_of_eachStep (P := fun _ s => s.Exclusive) hinit ?_ h hall
  intro _ s e s' hr hex hC hs
  exact exclusive_of_apart (guarded_of_run hr) hex hs hC

/-! ### The results -/

/-- The list is used by one context at a time in all states of a run if and only if there is
no condition variable, or `push_back` and `pop_front` are never at the list together. -/
theorem exclusive_iff (sync : Synchronizer) (tr : List (LockedEvent κ α)) (s : Locked κ α)
    (h : Run (Locked.step sync) .init tr s) :
    (∀ tr₁ tr₂ s₁, tr = tr₁ ++ tr₂ → Run (Locked.step sync) .init tr₁ s₁ → s₁.Exclusive) ↔
      sync = .freestanding ∨ EachStep (Locked.step sync) Apart .init tr := by
  constructor
  · intro hex
    refine .inr (eachStep_iff.mpr ?_)
    rintro tr₁ e tr₂ s₁ rfl hr
    obtain ⟨u, hu, hrest⟩ := run_append.mp h
    obtain rfl : u = s₁ := Option.some.inj (hu.symm.trans hr)
    obtain ⟨s₂, hs₂, _⟩ := run_cons.mp hrest
    have hex₂ : s₂.Exclusive := hex (tr₁ ++ [e]) tr₂ s₂ (by simp) (hr.concat hs₂)
    exact apart_of_exclusive hs₂ hex₂
  · rintro hC tr₁ tr₂ s₁ rfl hr
    exact exclusive_of_run hr (hC.imp_right fun hall => (hall.of_append hr).1)

def LockedEvent.effect : LockedEvent κ α → Option (Event κ α)
  | .commit _ e => e
  | .loop e => some e
  | .enter _ _ | .begin _ | .access _ | .leave _ => none

/-- The loop goes through a run with atomic list operations, so it delivers what that one
delivers. -/
theorem locked_delivers (tr : List (LockedEvent κ α)) (s : Locked κ α)
    (h : Run (Locked.step sync) .init tr s) :
    Delivers (tr.filterMap LockedEvent.effect) s.loop := by
  have hrun : Run RunLoop.step State.init (tr.filterMap LockedEvent.effect) s.loop := by
    refine h.project Locked.loop LockedEvent.effect ?_
    intro s e s' hs
    cases Locked.step_move hs with
    | commit c x e loop _ hloop => exact hloop
    | loop e loop hloop => simpa [LockedEvent.effect] using hloop
    | enter | begin | access | leave => simp [LockedEvent.effect, Locked.move, Locked.own]
  exact run_delivers _ _ hrun

end Runs

/-- A context pushes while `run` pops an operation that was there before. -/
def overlapTrace : List (LockedEvent ℕ ℕ) :=
  [.enter .runner .push, .begin .runner, .commit .runner (some (.pushBack .runner 0)),
    .leave .runner, .loop .run, .enter .runner .test, .begin .runner,
    .commit .runner (some .wait), .leave .runner, .enter .runner .pop, .begin .runner,
    .enter (.other 0) .push, .begin (.other 0)]

/-- With a condition variable the two contexts are at the list together. -/
theorem not_exclusive_overlap : ∃ s, Run (Locked.step .hosted) .init overlapTrace s ∧
    ¬ s.Exclusive := by
  obtain ⟨s, hs⟩ : ∃ s, Run (Locked.step .hosted) .init overlapTrace s := exists_run_iff.mpr rfl
  refine ⟨s, hs, fun hex => ?_⟩
  have hview : (exec (Locked.step .hosted) .init overlapTrace).map
      (fun s => (s.position .runner, s.position (.other 0))) =
        some (.within .pop, .within .push) := rfl
  rw [show exec (Locked.step .hosted) .init overlapTrace = some s from hs] at hview
  obtain ⟨hpop, hpush⟩ := Prod.mk.inj (Option.some.inj hview)
  have heq := hex .runner (.other 0) ⟨.pop, hpop, rfl⟩ ⟨.push, hpush, rfl⟩
  cases heq

/-- The same calls without a condition variable: the push has to wait. -/
def freestandingTrace : List (LockedEvent ℕ ℕ) :=
  [.enter .runner .push, .begin .runner, .commit .runner (some (.pushBack .runner 0)),
    .leave .runner, .loop .run, .enter .runner .test, .begin .runner,
    .commit .runner (some .wait), .leave .runner, .enter .runner .pop, .begin .runner,
    .access .runner, .commit .runner (some (.pop (some 0))), .leave .runner,
    .enter (.other 0) .push, .begin (.other 0), .loop (.execute 0 .value), .access (.other 0),
    .commit (.other 0) (some (.pushBack (.other 0) 1)), .leave (.other 0)]

theorem exclusive_freestanding : ∃ s, Run (Locked.step .freestanding) .init freestandingTrace s ∧
    ∀ tr₁ tr₂ s₁, freestandingTrace = tr₁ ++ tr₂ →
      Run (Locked.step .freestanding) .init tr₁ s₁ → s₁.Exclusive := by
  obtain ⟨s, hs⟩ : ∃ s, Run (Locked.step .freestanding) .init freestandingTrace s :=
    exists_run_iff.mpr rfl
  exact ⟨s, hs, (exclusive_iff .freestanding freestandingTrace s hs).mpr (.inl rfl)⟩

end BaremetalSenders.RunLoop
