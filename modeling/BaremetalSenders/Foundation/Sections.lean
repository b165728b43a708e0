import BaremetalSenders.Foundation.Run
import Mathlib.Logic.Function.Basic

/-!
Library code with critical sections that calls out.

A library function is a term of `Code`: operations on a shared state, which answer with
something the rest of the function may depend on, the entry and the exit of critical
sections, calls of other functions of the library, and calls of work that the library
does not know. Work can do whatever it likes: call any function of the library, begin
other work, or return. There are any number of contexts, each with a stack of what it is
inside of. A section is entered when its tag is free; a context that holds the tag
already can wait for ever.

The discipline is checked function by function, as types are. `Admits outer f` says in
which contexts a function may be called: `outer` are the tags its callers hold. `Code.Ok`
checks a body against these signatures, with `Answers` as what is known of the answers of
the operations. `unlocked_of_run` is what a checked library guarantees: work is only
begun by contexts that hold nothing, and no context waits for itself.
-/

namespace BaremetalSenders.Sections

variable {σ Op Tag Fn Work Ctx : Type*} {Res : Op → Type*}

/-- The rest of a library function. `jump` is a tail call. -/
inductive Code (Res : Op → Type*) (Tag Fn Work : Type*) where
  | ret
  | op (o : Op) (k : Res o → Code Res Tag Fn Work)
  | enter (t : Tag) (k : Code Res Tag Fn Work)
  | leave (t : Tag) (k : Code Res Tag Fn Work)
  | call (f : Fn) (k : Code Res Tag Fn Work)
  | jump (f : Fn)
  | invoke (w : Work) (k : Code Res Tag Fn Work)

/-- What a context is inside of: work, or a function of the library with the sections this
activation is in, the innermost first. -/
inductive Activation (Res : Op → Type*) (Tag Fn Work : Type*) where
  | work (w : Work)
  | lib (held : List Tag) (code : Code Res Tag Fn Work)

def Activation.held : Activation Res Tag Fn Work → List Tag
  | .work _ => []
  | .lib held _ => held

def held (stack : List (Activation Res Tag Fn Work)) : List Tag :=
  stack.flatMap Activation.held

@[simp] theorem held_nil : held ([] : List (Activation Res Tag Fn Work)) = [] := rfl

@[simp] theorem held_cons (a : Activation Res Tag Fn Work)
    (stack : List (Activation Res Tag Fn Work)) :
    held (a :: stack) = a.held ++ held stack := rfl

/-- The shared state, the owners of the tags, and the stacks, each with the innermost
activation first. -/
structure State (σ : Type*) (Res : Op → Type*) (Tag Fn Work Ctx : Type*) where
  shared : σ
  owner : Tag → Option Ctx
  stackOf : Ctx → List (Activation Res Tag Fn Work)

def State.init (shared : σ) : State σ Res Tag Fn Work Ctx := ⟨shared, fun _ => none, fun _ => []⟩

/-- `call` and `invoke` are what work does; `invoke` also what library code does. `exec` is
any other instruction of the innermost activation, `ret` the end of the innermost work. -/
inductive Label (Fn Work Ctx : Type*) where
  | call (c : Ctx) (f : Fn)
  | invoke (c : Ctx) (w : Work)
  | exec (c : Ctx)
  | ret (c : Ctx)
  deriving DecidableEq

section Machine

variable [DecidableEq Tag] [DecidableEq Work] [DecidableEq Ctx]
  (body : Fn → Code Res Tag Fn Work) (perform : (o : Op) → σ → Res o × σ)

def State.setStack (s : State σ Res Tag Fn Work Ctx) (c : Ctx)
    (stack : List (Activation Res Tag Fn Work)) : State σ Res Tag Fn Work Ctx :=
  { s with stackOf := Function.update s.stackOf c stack }

/-- The next instruction of an activation in the context `c`, with the stack `rest` below it. -/
def execute (s : State σ Res Tag Fn Work Ctx) (c : Ctx) (hs : List Tag)
    (rest : List (Activation Res Tag Fn Work)) :
    Code Res Tag Fn Work → Option (State σ Res Tag Fn Work Ctx)
  | .ret => some (s.setStack c rest)
  | .op o k => some { s.setStack c (.lib hs (k (perform o s.shared).1) :: rest) with
      shared := (perform o s.shared).2 }
  | .enter t k =>
      if s.owner t = none then
        some { s.setStack c (.lib (t :: hs) k :: rest) with
          owner := Function.update s.owner t (some c) }
      else none
  | .leave t k => some { s.setStack c (.lib (hs.erase t) k :: rest) with
      owner := Function.update s.owner t none }
  | .call f k => some (s.setStack c (.lib [] (body f) :: .lib hs k :: rest))
  | .jump f => some (s.setStack c (.lib hs (body f) :: rest))
  | .invoke _ _ => none

def step (s : State σ Res Tag Fn Work Ctx) :
    Label Fn Work Ctx → Option (State σ Res Tag Fn Work Ctx)
  | .call c f =>
      match s.stackOf c with
      | .lib _ _ :: _ => none
      | stack => some (s.setStack c (.lib [] (body f) :: stack))
  | .invoke c w =>
      match s.stackOf c with
      | .lib hs (.invoke w' k) :: rest =>
          if w' = w then some (s.setStack c (.work w :: .lib hs k :: rest)) else none
      | .lib _ _ :: _ => none
      | stack => some (s.setStack c (.work w :: stack))
  | .exec c =>
      match s.stackOf c with
      | .lib hs code :: rest => execute body perform s c hs rest code
      | _ => none
  | .ret c =>
      match s.stackOf c with
      | .work _ :: rest => some (s.setStack c rest)
      | _ => none

end Machine

/-! ### The discipline -/

/-- The library keeps its discipline in a state: a context that is inside work holds nothing,
and none is about to enter a section it is in. -/
structure Unlocked (s : State σ Res Tag Fn Work Ctx) : Prop where
  work : ∀ c w rest, s.stackOf c = .work w :: rest → held (s.stackOf c) = []
  reentry : ∀ c hs t k rest, s.stackOf c = .lib hs (.enter t k) :: rest → t ∉ held (s.stackOf c)

section Check

variable (Admits : List Tag → Fn → Prop) (Answers : List Tag → (o : Op) → Res o → Prop)

/-- The code may go on in an activation that is in the sections `hs`, called by activations
that are in the sections `outer`. -/
def Code.Ok (outer : List Tag) : List Tag → Code Res Tag Fn Work → Prop
  | hs, .ret => hs = []
  | hs, .op o k => ∀ r, Answers outer o r → (k r).Ok outer hs
  | hs, .enter t k => t ∉ hs ++ outer ∧ k.Ok outer (t :: hs)
  | hs, .leave t k => ∃ hs', hs = t :: hs' ∧ k.Ok outer hs'
  | hs, .call f k => Admits (hs ++ outer) f ∧ k.Ok outer hs
  | hs, .jump f => hs = [] ∧ Admits outer f
  | hs, .invoke _ k => hs = [] ∧ outer = [] ∧ k.Ok outer []

/-- Every activation of a stack can go on, and work is on top of activations that hold
nothing. -/
def Checked : List (Activation Res Tag Fn Work) → Prop
  | [] => True
  | .work _ :: rest => held rest = [] ∧ Checked rest
  | .lib hs code :: rest => code.Ok Admits Answers (held rest) hs ∧ Checked rest

/-- What the check supposes of a step: an operation gives one of the answers that are
admitted in its context. -/
def Answered (perform : (o : Op) → σ → Res o × σ) (s : State σ Res Tag Fn Work Ctx) :
    Label Fn Work Ctx → Prop
  | .exec c =>
      match s.stackOf c with
      | .lib _ (.op o _) :: rest => Answers (held rest) o (perform o s.shared).1
      | _ => True
  | _ => True

end Check

section Soundness

variable [DecidableEq Tag] [DecidableEq Work] [DecidableEq Ctx]
  {body : Fn → Code Res Tag Fn Work} {perform : (o : Op) → σ → Res o × σ}
  {Admits : List Tag → Fn → Prop} {Answers : List Tag → (o : Op) → Res o → Prop}
  {s s' : State σ Res Tag Fn Work Ctx} {l : Label Fn Work Ctx} {c : Ctx}
  {stack : List (Activation Res Tag Fn Work)}

def AllChecked (Admits : List Tag → Fn → Prop) (Answers : List Tag → (o : Op) → Res o → Prop)
    (s : State σ Res Tag Fn Work Ctx) : Prop := ∀ c, Checked Admits Answers (s.stackOf c)

omit [DecidableEq Tag] [DecidableEq Work] [DecidableEq Ctx] in
theorem AllChecked.unlocked (h : AllChecked Admits Answers s) : Unlocked s where
  work := by
    intro c w rest hc
    have hcheck := h c
    rw [hc] at hcheck ⊢
    exact hcheck.1
  reentry := by
    intro c hs t k rest hc
    have hcheck := h c
    rw [hc] at hcheck ⊢
    exact hcheck.1.1

omit [DecidableEq Tag] [DecidableEq Work] in
theorem AllChecked.setStack (h : AllChecked Admits Answers s) (hc : Checked Admits Answers stack) :
    AllChecked Admits Answers (s.setStack c stack) := by
  intro c'
  by_cases he : c' = c
  · subst he
    simpa [State.setStack] using hc
  · simpa [State.setStack, he] using h c'

omit [DecidableEq Work] in
/-- The instructions, one by one. -/
theorem AllChecked.execute (hbody : ∀ outer f, Admits outer f →
      (body f).Ok Admits Answers outer [])
    (h : AllChecked Admits Answers s) {hs : List Tag} {code : Code Res Tag Fn Work}
    {rest : List (Activation Res Tag Fn Work)} (hc : s.stackOf c = .lib hs code :: rest)
    (ha : Answered Answers perform s (.exec c : Label Fn Work Ctx))
    (he : execute body perform s c hs rest code = some s') : AllChecked Admits Answers s' := by
  have hcheck := h c
  rw [hc] at hcheck
  obtain ⟨hok, hrest⟩ := hcheck
  cases code with
  | ret =>
      obtain rfl := Option.some.inj he
      exact h.setStack hrest
  | op o k =>
      obtain rfl := Option.some.inj he
      have hans : Answers (held rest) o (perform o s.shared).1 := by
        simpa [Answered, hc] using ha
      have hnext : Checked Admits Answers (.lib hs (k (perform o s.shared).1) :: rest) :=
        ⟨hok _ hans, hrest⟩
      exact h.setStack hnext
  | enter t k =>
      simp only [Sections.execute] at he
      split at he <;> cases he
      have hnext : Checked Admits Answers (.lib (t :: hs) k :: rest) := ⟨hok.2, hrest⟩
      exact h.setStack hnext
  | leave t k =>
      obtain rfl := Option.some.inj he
      obtain ⟨hs', rfl, hk⟩ := hok
      have hnext : Checked Admits Answers (.lib ((t :: hs').erase t) k :: rest) :=
        ⟨by simpa using hk, hrest⟩
      exact h.setStack hnext
  | call f k =>
      obtain rfl := Option.some.inj he
      exact h.setStack ⟨hbody _ f hok.1, hok.2, hrest⟩
  | jump f =>
      obtain rfl := Option.some.inj he
      obtain ⟨rfl, hf⟩ := hok
      exact h.setStack ⟨hbody _ f hf, hrest⟩
  | invoke w k => cases he

theorem AllChecked.step (hbody : ∀ outer f, Admits outer f → (body f).Ok Admits Answers outer [])
    (hentry : ∀ f, Admits [] f) (h : AllChecked Admits Answers s)
    (ha : Answered Answers perform s l) (hs : step body perform s l = some s') :
    AllChecked Admits Answers s' := by
  cases l with
  | call c f =>
      have hcheck := h c
      simp only [Sections.step] at hs
      split at hs
      next => cases hs
      next stack hlib =>
        obtain rfl := Option.some.inj hs
        refine h.setStack ⟨?_, hcheck⟩
        cases hc : s.stackOf c with
        | nil => exact hbody [] f (hentry f)
        | cons a rest =>
            cases a with
            | work w =>
                -- work is called outside of all sections, so its calls begin with none
                rw [hc] at hcheck
                rw [held_cons, hcheck.1]
                exact hbody [] f (hentry f)
            | lib hs' code => exact absurd hc (hlib hs' code rest)
  | invoke c w =>
      have hcheck := h c
      simp only [Sections.step] at hs
      split at hs
      next hs' w' k rest hc =>
        split at hs <;> cases hs
        rw [hc] at hcheck
        obtain ⟨⟨rfl, hout, hk⟩, hrest⟩ := hcheck
        exact h.setStack ⟨by simpa [Activation.held] using hout, hk, hrest⟩
      next => cases hs
      next stack _ hlib =>
        obtain rfl := Option.some.inj hs
        refine h.setStack ⟨?_, hcheck⟩
        cases hc : s.stackOf c with
        | nil => rfl
        | cons a rest =>
            cases a with
            | work w' => exact hc ▸ (h.unlocked.work c w' rest hc)
            | lib hs' code => exact absurd hc (hlib hs' code rest)
  | exec c =>
      simp only [Sections.step] at hs
      split at hs
      next hs' code rest hc => exact h.execute hbody hc ha hs
      next => cases hs
  | ret c =>
      have hcheck := h c
      simp only [Sections.step] at hs
      split at hs
      next w rest hc =>
        obtain rfl := Option.some.inj hs
        rw [hc] at hcheck
        exact h.setStack hcheck.2
      next => cases hs

/-- Soundness of the check: where the functions pass it and work may call all of them, every
run in which the operations answer as admitted keeps the discipline. -/
theorem unlocked_of_run (hbody : ∀ outer f, Admits outer f → (body f).Ok Admits Answers outer [])
    (hentry : ∀ f, Admits [] f) {shared : σ} {tr : List (Label Fn Work Ctx)}
    (h : Run (step body perform) (.init shared) tr s)
    (hC : EachStep (step body perform) (Answered Answers perform) (.init shared) tr) :
    Unlocked s := by
  have hinit : AllChecked Admits Answers (State.init shared : State σ Res Tag Fn Work Ctx) :=
    fun _ => True.intro
  have hall : AllChecked Admits Answers s := by
    refine Run.induction_of_eachStep (P := fun _ s => AllChecked Admits Answers s) hinit ?_ h hC
    intro _ s l s' _ hall ha hs
    exact hall.step hbody hentry ha hs
  exact hall.unlocked

end Soundness

end BaremetalSenders.Sections
