import Mathlib.Logic.Relation
import Mathlib.Order.WellFounded

/-!
Resumptions: routines that are executed in places, together with others.

A routine reads the world, changes it, and goes on with what depends on what it has read. It
can ask a question that is answered from outside, and it can hop, which is to go on in another
place when it is its turn there. In between the world may be changed by others, so it is given
to each action anew and there is no world to begin with. What an action does may depend on the
place it is executed in.

They are a monad. `Keeps` is what is known of a routine in spite of others that only keep an
invariant: that it keeps it as well, and what is so where it ends.
-/

namespace BaremetalSenders

/-- `act f next` changes the world with `f` and goes on with what `next` says for the world
before; `ask` is answered yes or no; `hop` goes on in another place. -/
inductive Resumption (K S W R : Type*) where
  | done (r : R)
  | act (f : K → W → W) (next : K → W → Resumption K S W R)
  | ask (next : Bool → Resumption K S W R)
  | hop (s : S) (next : Resumption K S W R)

/-- What a step of a routine comes to. -/
inductive Outcome (S C R : Type*) where
  | more (c : C)
  | hop (s : S) (c : C)
  | done (r : R)

/-- What is left to be done. -/
def Outcome.rest {S C R : Type*} : Outcome S C R → Option C
  | .more c | .hop _ c => some c
  | .done _ => none

namespace Resumption

variable {K S W R R' R'' : Type*}

/-! ### One after the other -/

def bind : Resumption K S W R → (R → Resumption K S W R') → Resumption K S W R'
  | .done r, g => g r
  | .act f next, g => .act f fun k w => (next k w).bind g
  | .ask next, g => .ask fun b => (next b).bind g
  | .hop s next, g => .hop s (next.bind g)

/-- Go on after the results that satisfy `p`. -/
def handle (p : R → Bool) (m : Resumption K S W R) (g : R → Resumption K S W R) :
    Resumption K S W R :=
  m.bind fun r => if p r then g r else .done r

section Laws

variable {m : Resumption K S W R} {g : R → Resumption K S W R'} {p : R → Bool} {r : R}

@[simp] theorem done_bind : (done r : Resumption K S W R).bind g = g r := rfl

@[simp] theorem bind_done : m.bind done = m := by
  induction m with
  | done r => rfl
  | act f next ih => simp only [bind, ih]
  | ask next ih => simp only [bind, ih]
  | hop s next ih => simp only [bind, ih]

theorem bind_assoc {h : R' → Resumption K S W R''} :
    (m.bind g).bind h = m.bind fun r => (g r).bind h := by
  induction m with
  | done r => rfl
  | act f next ih => simp only [bind, ih]
  | ask next ih => simp only [bind, ih]
  | hop s next ih => simp only [bind, ih]

theorem handle_bind {f : R → Resumption K S W R} :
    (m.handle p f).bind g = m.bind fun r => if p r then (f r).bind g else g r := by
  rw [handle, bind_assoc]
  congr 1
  funext r
  split <;> rfl

end Laws

/-! ### A step -/

/-- One step, executed in the place `k`, with the answer `b` if there is a question. -/
def step (m : Resumption K S W R) (k : K) (b : Bool) (w : W) :
    Option (Outcome S (Resumption K S W R) R × W) :=
  match m with
  | .done r => some (.done r, w)
  | .act f next => some (.more (next k w), f k w)
  | .ask next => some (.more (next b), w)
  | .hop s next => some (.hop s next, w)

/-! ### In one place -/

/-- What comes of it in the place `k`, where all questions are answered with `b` and nobody else
changes the world. It does not come to an end there if it hops. -/
def result (k : K) (b : Bool) : Resumption K S W R → W → Option (R × W)
  | .done r, w => some (r, w)
  | .act f next, w => (next k w).result k b (f k w)
  | .ask next, w => (next b).result k b w
  | .hop _ _, _ => none

section Result

variable {k : K} {b : Bool} {m : Resumption K S W R} {w w' : W} {r : R}

theorem result_bind {g : R → Resumption K S W R'} (h : m.result k b w = some (r, w')) :
    (m.bind g).result k b w = (g r).result k b w' := by
  induction m generalizing w with
  | done r' =>
      cases h
      rfl
  | act f next ih => exact ih k w h
  | ask next ih => exact ih b h
  | hop s next => cases h

theorem result_handle {p : R → Bool} {g : R → Resumption K S W R}
    (h : m.result k b w = some (r, w')) :
    (m.handle p g).result k b w = if p r then (g r).result k b w' else some (r, w') := by
  rw [handle, result_bind h]
  split <;> rfl

end Result

/-! ### What is known of a routine -/

/-- In spite of others that keep the invariant `I`, the routine keeps it when it is executed
from the place `k` on, and ends with a result and in a place that satisfy `Q`. `Ans` are the
answers it can get and `place` says where a hop leads to. -/
def Keeps (I : W → Prop) (Ans : Bool → Prop) (place : S → K) (Q : K → R → Prop) :
    K → Resumption K S W R → Prop
  | k, .done r => Q k r
  | k, .act f next => ∀ w, I w → I (f k w) ∧ Keeps I Ans place Q k (next k w)
  | k, .ask next => ∀ b, Ans b → Keeps I Ans place Q k (next b)
  | _, .hop s next => Keeps I Ans place Q (place s) next

section Keeps

variable {I : W → Prop} {Ans : Bool → Prop} {place : S → K} {k : K}

/-- The rule for one after the other. -/
theorem Keeps.bind {m : Resumption K S W R} {Q : K → R → Prop} {Q' : K → R' → Prop}
    {g : R → Resumption K S W R'} (h : Keeps I Ans place Q k m)
    (hg : ∀ k r, Q k r → Keeps I Ans place Q' k (g r)) : Keeps I Ans place Q' k (m.bind g) := by
  induction m generalizing k with
  | done r => exact hg k r h
  | act f next ih => exact fun w hw => ⟨(h w hw).1, ih _ _ (h w hw).2⟩
  | ask next ih => exact fun b hb => ih b (h b hb)
  | hop s next ih => exact ih h

theorem Keeps.imp {m : Resumption K S W R} {Q Q' : K → R → Prop} (h : Keeps I Ans place Q k m)
    (hQ : ∀ k r, Q k r → Q' k r) : Keeps I Ans place Q' k m := by
  have hbind : Keeps I Ans place Q' k (m.bind .done) := h.bind hQ
  rwa [bind_done] at hbind

theorem Keeps.trivial {m : Resumption K S W R} :
    Keeps (fun _ => True) Ans place (fun _ _ => True) k m := by
  induction m generalizing k with
  | done r => exact True.intro
  | act f next ih => exact fun w _ => ⟨True.intro, ih k w⟩
  | ask next ih => exact fun b _ => ih b
  | hop s next ih => exact ih

theorem Keeps.handle {m : Resumption K S W R} {Q Q' : K → R → Prop} {p : R → Bool}
    {g : R → Resumption K S W R} (h : Keeps I Ans place Q k m)
    (hg : ∀ k r, Q k r → p r = true → Keeps I Ans place Q' k (g r))
    (hpass : ∀ k r, Q k r → p r = false → Q' k r) :
    Keeps I Ans place Q' k (m.handle p g) := by
  refine h.bind fun k r hr => ?_
  split
  · next hp => exact hg k r hr hp
  · next hp => exact hpass k r hr (by simpa using hp)

theorem Keeps.step {m : Resumption K S W R} {Q : K → R → Prop} {b : Bool} {w w' : W}
    {o : Outcome S (Resumption K S W R) R} (h : Keeps I Ans place Q k m) (hb : Ans b) (hw : I w)
    (hs : m.step k b w = some (o, w')) :
    I w' ∧ match o with
      | .more m' => Keeps I Ans place Q k m'
      | .hop s m' => Keeps I Ans place Q (place s) m'
      | .done r => Q k r := by
  cases m with
  | done r =>
      cases hs
      exact ⟨hw, h⟩
  | act f next =>
      cases hs
      exact h w hw
  | ask next =>
      cases hs
      exact ⟨hw, h b hb⟩
  | hop s next =>
      cases hs
      exact ⟨hw, h⟩

end Keeps

/-! ### Where a routine goes -/

/-- All that the routine may ever wait for satisfies `P`. -/
def HopsTo (P : S → Prop) : Resumption K S W R → Prop
  | .done _ => True
  | .act _ next => ∀ k w, (next k w).HopsTo P
  | .ask next => ∀ b, (next b).HopsTo P
  | .hop s next => P s ∧ next.HopsTo P

section HopsTo

variable {P : S → Prop} {m : Resumption K S W R}

theorem HopsTo.bind {g : R → Resumption K S W R'} (h : m.HopsTo P) (hg : ∀ r, (g r).HopsTo P) :
    (m.bind g).HopsTo P := by
  induction m with
  | done r => exact hg r
  | act f next ih => exact fun k w => ih k w (h k w)
  | ask next ih => exact fun b => ih b (h b)
  | hop s next ih => exact ⟨h.1, ih h.2⟩

theorem HopsTo.handle {p : R → Bool} {g : R → Resumption K S W R} (h : m.HopsTo P)
    (hg : ∀ r, (g r).HopsTo P) : (m.handle p g).HopsTo P := by
  refine h.bind fun r => ?_
  split
  · exact hg r
  · trivial

theorem HopsTo.trivial : m.HopsTo fun _ => True := by
  induction m with
  | done r => exact True.intro
  | act f next ih => exact ih
  | ask next ih => exact ih
  | hop s next ih => exact ⟨True.intro, ih⟩

theorem HopsTo.step {k : K} {b : Bool} {w w' : W} {o : Outcome S (Resumption K S W R) R}
    (h : m.HopsTo P) (hs : m.step k b w = some (o, w')) :
    match o with
      | .more m' => m'.HopsTo P
      | .hop s m' => P s ∧ m'.HopsTo P
      | .done _ => True := by
  cases m with
  | done r =>
      cases hs
      exact True.intro
  | act f next =>
      cases hs
      exact h k w
  | ask next =>
      cases hs
      exact h b
  | hop s next =>
      cases hs
      exact h

end HopsTo

end Resumption

end BaremetalSenders
