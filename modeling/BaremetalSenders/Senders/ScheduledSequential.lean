import BaremetalSenders.Senders.ScheduledOperations

/-!
Expressions without schedulers.

What is executed in one context without ever waiting is an expression of `Sequential`, with the
functions as this context calls them. Its operation states make the same steps, and it means the
same.
-/

namespace BaremetalSenders.Scheduled

open Repeat (Channel)
open BaremetalSenders.Sequential (Completion ArgumentOrder)

variable {ℓ K V W : Type*}

/-! ### The same expressions -/

/-- There is no scheduler in it, whatever the functions return. -/
def Sender.Plain : Sender ℓ K V W → Prop
  | .just _ => True
  | .schedule _ => False
  | .then _ _ s _ => s.Plain
  | .let _ s fn _ => s.Plain ∧ ∀ tag vs k w, (fn tag vs k w).Plain
  | .sequence s func _ => s.Plain ∧ ∀ k w, (func k w).Plain

/-- The sender as it is executed in the context `k`. -/
def Sender.inContext (k : K) : Sender ℓ K V W → Sequential.Sender V W
  | .just c => .just c
  | .schedule _ => .just (.value [])
  | .then handle complete s fs => .then handle complete (s.inContext k) (fs k)
  | .let tags s fn effect =>
      .let tags (s.inContext k) (fun tag vs w => (fn tag vs k w).inContext k)
        fun tag vs w => effect tag vs k w
  | .sequence s func effect =>
      .sequence (s.inContext k) (fun w => (func k w).inContext k) (effect k)

/-- They mean the same. -/
theorem denote_inContext (order : ArgumentOrder) {s : Sender ℓ K V W} (h : s.Plain) (k : K)
    (b : Bool) (w : W) :
    (denote s).result k b w = some (Sequential.denote order (s.inContext k) w) := by
  induction s generalizing w with
  | just c => rfl
  | schedule sched => exact h.elim
  | «then» tag complete s fs ih =>
      rw [denote, Resumption.result_handle (ih h w)]
      simp only [Sender.inContext, Sequential.denote, Routine.handle]
      split <;> rfl
  | «let» tags s fn effect ih ihfn =>
      rw [denote, Resumption.result_handle (ih h.1 w)]
      simp only [Sender.inContext, Sequential.denote, Routine.handle]
      split
      · exact ihfn _ _ _ _ (h.2 _ _ _ _) _
      · rfl
  | sequence s func effect ih ihfunc =>
      rw [denote, Resumption.result_handle (ih h.1 w)]
      simp only [Sender.inContext, Sequential.denote, Routine.handle]
      split
      · exact ihfunc _ _ (h.2 _ _) _
      · rfl

/-! ### The same operation states -/

def Receiver.inContext (k : K) : Receiver K V W → Sequential.Receiver V W
  | .outer => .outer
  | .then handle complete fs r => .then handle complete (fs k) (r.inContext k)
  | .let ops tags => .let ops tags
  | .sequence ops => .sequence ops

def Cell.inContext (k : K) : Cell ℓ K V W → Sequential.Cell V W
  | .just c r => .just c (r.map (Receiver.inContext k))
  | .schedule _ r => .just (.value []) (r.map (Receiver.inContext k))
  | .let fn effect r results =>
      .let (fun tag vs w => (fn tag vs k w).inContext k) (fun tag vs w => effect tag vs k w)
        (r.map (Receiver.inContext k)) results
  | .sequence func r =>
      .sequence (func.map fun f => (fun w => (f.1 k w).inContext k, f.2 k))
        (r.map (Receiver.inContext k))

def Cell.Plain : Cell ℓ K V W → Prop
  | .just _ _ => True
  | .schedule _ _ => False
  | .let fn _ _ _ => ∀ tag vs k w, (fn tag vs k w).Plain
  | .sequence func _ => ∀ f ∈ func, ∀ k w, (f.1 k w).Plain

def Control.inContext (k : K) : Control K V W → Sequential.Control V W
  | .start a => .start a
  | .enqueue _ | .run _ => .ret
  | .complete tag args r => .complete tag args (r.inContext k)

def Config.inContext (c : Config ℓ K V W) (k : K) (w : W) : Sequential.State V W :=
  ⟨c.heap.map (Cell.inContext k), c.control.inContext k, w, []⟩

/-- Nothing of it waits. -/
structure Config.Plain (c : Config ℓ K V W) : Prop where
  heap : ∀ x ∈ c.heap, x.Plain
  control : ∀ a, c.control ≠ .enqueue a ∧ c.control ≠ .run a

theorem connect_inContext (s : Sender ℓ K V W) (h : s.Plain) (k : K) (r : Receiver K V W) (a : ℕ) :
    (connect s r a).map (Cell.inContext k) =
      Sequential.connect (s.inContext k) (r.inContext k) a := by
  induction s generalizing r a with
  | just c => rfl
  | schedule sched => exact h.elim
  | «then» tag complete s fs ih => exact ih h (.then tag complete fs r) a
  | «let» tags s fn effect ih =>
      simp only [connect, List.map_cons, ih h.1 (.let a tags) (a + 1)]
      rfl
  | sequence s func effect ih =>
      simp only [connect, List.map_cons, ih h.1 (.sequence a) (a + 1)]
      rfl

theorem plain_connect (s : Sender ℓ K V W) (h : s.Plain) (r : Receiver K V W) (a : ℕ) :
    ∀ x ∈ connect s r a, x.Plain := by
  induction s generalizing r a with
  | just c => simp [connect, Cell.Plain]
  | schedule sched => exact h.elim
  | «then» tag complete s fs ih => exact ih h (.then tag complete fs r) a
  | «let» tags s fn effect ih =>
      exact List.forall_mem_cons.mpr ⟨h.2, ih h.1 (.let a tags) (a + 1)⟩
  | sequence s func effect ih =>
      refine List.forall_mem_cons.mpr ⟨?_, ih h.1 (.sequence a) (a + 1)⟩
      rintro f hf
      obtain rfl := Option.some.inj hf
      exact h.2

theorem readArgs_inContext (heap : List (Cell ℓ K V W)) (h : ∀ x ∈ heap, x.Plain) (k : K)
    (args : Sequential.Args V) :
    Sequential.readArgs (heap.map (Cell.inContext k)) args = readArgs heap args := by
  cases args with
  | results vs => rfl
  | values a =>
      simp only [Sequential.readArgs, readArgs, List.getElem?_map]
      cases hcell : heap[a]? with
      | none => rfl
      | some x =>
          cases x with
          | just | «let» | sequence => rfl
          | schedule => exact (h _ (List.mem_of_getElem? hcell)).elim

/-! ### The same steps -/

/-- The state of `Sequential` after a step of `c`. -/
def Config.after (c : Config ℓ K V W) (k : K) : Effect ℓ K V W → Sequential.State V W
  | (.more c', w) | (.hop _ c', w) => c'.inContext k w
  | (.done comp, w) => { c.inContext k w with control := .ret, received := [comp] }

section Steps

variable {c c' : Config ℓ K V W} {k : K} {w w' : W}

theorem start_inContext (order : ArgumentOrder) (hc : ∀ x ∈ c.heap, x.Plain) (a : ℕ) (b : Bool) :
    (c.inContext k w).start order a = (c.start a b w).map (c.after k) := by
  simp only [Sequential.State.start, Config.start, Config.inContext, List.getElem?_map]
  cases hcell : c.heap[a]? with
  | none => rfl
  | some x =>
      cases x with
      | just comp r => cases r <;> simp [Cell.inContext, Config.after, Config.inContext,
          Control.inContext, List.map_set]
      | schedule => exact (hc _ (List.mem_of_getElem? hcell)).elim
      | «let» | sequence => rfl

theorem passthrough_inContext (hc : ∀ x ∈ c.heap, x.Plain) (ops : ℕ) (tag : Channel)
    (args : Sequential.Args V) :
    (c.inContext k w).passthrough ops tag args =
      (c.passthrough ops tag args w).map (c.after k) := by
  simp only [Sequential.State.passthrough, Config.passthrough, Config.inContext, List.getElem?_map]
  cases hcell : c.heap[ops]? with
  | none => rfl
  | some x =>
      cases x with
      | just => rfl
      | schedule => exact (hc _ (List.mem_of_getElem? hcell)).elim
      | «let» fn effect r results => cases r <;> simp [Cell.inContext, Config.after,
          Config.inContext, Control.inContext, List.map_set]
      | sequence func r => cases r <;> simp [Cell.inContext, Config.after, Config.inContext,
          Control.inContext, List.map_set]

theorem completeFirstLet_inContext (hc : ∀ x ∈ c.heap, x.Plain) (ops : ℕ) (tag : Channel)
    (vs : List V) :
    (c.inContext k w).completeFirstLet ops tag vs =
      (c.completeFirstLet ops tag vs k w).map (c.after k) := by
  simp only [Sequential.State.completeFirstLet, Config.completeFirstLet, Config.inContext,
    List.getElem?_map]
  cases hcell : c.heap[ops]? with
  | none => rfl
  | some x =>
      have hx := hc _ (List.mem_of_getElem? hcell)
      cases x with
      | just | sequence => rfl
      | schedule => exact hx.elim
      | «let» fn effect r results =>
          cases r with
          | none => rfl
          | some r => simp [Cell.inContext, Config.after, Config.inContext, Control.inContext,
              connect_inContext _ (hx tag vs k w)]

theorem completeFirstSequence_inContext (hc : ∀ x ∈ c.heap, x.Plain) (ops : ℕ) :
    (c.inContext k w).completeFirstSequence ops =
      (c.completeFirstSequence ops k w).map (c.after k) := by
  simp only [Sequential.State.completeFirstSequence, Config.completeFirstSequence,
    Config.inContext, List.getElem?_map]
  cases hcell : c.heap[ops]? with
  | none => rfl
  | some x =>
      have hx := hc _ (List.mem_of_getElem? hcell)
      cases x with
      | just | «let» => rfl
      | schedule => exact hx.elim
      | sequence func r =>
          cases func with
          | none => rfl
          | some f =>
              cases r with
              | none => rfl
              | some r => simp [Cell.inContext, Config.after, Config.inContext,
                  Control.inContext, connect_inContext _ (hx f rfl k w)]

theorem complete_inContext (hc : ∀ x ∈ c.heap, x.Plain) (tag : Channel)
    (args : Sequential.Args V) (vs : List V) (r : Receiver K V W) :
    (c.inContext k w).complete tag args vs (r.inContext k) =
      (c.complete tag args vs k w r).map (c.after k) := by
  cases r with
  | outer => rfl
  | «then» handle complete fs r =>
      simp only [Receiver.inContext, Sequential.State.complete, Config.complete]
      split <;> rfl
  | «let» ops tags =>
      simp only [Receiver.inContext, Sequential.State.complete, Config.complete]
      split
      · exact completeFirstLet_inContext hc ops tag vs
      · exact passthrough_inContext hc ops tag args
  | sequence ops =>
      simp only [Receiver.inContext, Sequential.State.complete, Config.complete]
      split
      · exact completeFirstSequence_inContext hc ops
      · exact passthrough_inContext hc ops tag args

/-- They make the same steps. -/
theorem step_inContext (order : ArgumentOrder) (hc : c.Plain) (b : Bool) :
    Sequential.step order (c.inContext k w) () = (c.step k b w).map (c.after k) := by
  obtain ⟨heap, control⟩ := c
  cases control with
  | start a => exact start_inContext order hc.heap a b
  | enqueue a => exact absurd rfl (hc.control a).1
  | run a => exact absurd rfl (hc.control a).2
  | complete tag args r =>
      simp only [Sequential.step, Config.step, Config.inContext, Control.inContext,
        readArgs_inContext heap hc.heap]
      cases readArgs heap args with
      | none => rfl
      | some vs => exact complete_inContext hc.heap tag args vs r

theorem plain_set {heap : List (Cell ℓ K V W)} (h : ∀ x ∈ heap, x.Plain) {a : ℕ} {x : Cell ℓ K V W}
    (hx : x.Plain) : ∀ y ∈ heap.set a x, y.Plain := by
  intro y hy
  rcases List.mem_or_eq_of_mem_set hy with hmem | rfl
  · exact h y hmem
  · exact hx

theorem plain_emplace {heap : List (Cell ℓ K V W)} (h : ∀ x ∈ heap, x.Plain) {ops : ℕ}
    {x : Cell ℓ K V W} (hx : x.Plain) {s : Sender ℓ K V W} (hs : s.Plain) {r : Receiver K V W} :
    ∀ y ∈ heap.take ops ++ x :: connect s r (ops + 1), y.Plain := by
  refine List.forall_mem_append.mpr ⟨fun y hy => h y (List.mem_of_mem_take hy), ?_⟩
  exact List.forall_mem_cons.mpr ⟨hx, plain_connect s hs r _⟩

theorem Config.Plain.passthrough (hc : c.Plain) {ops : ℕ} {tag : Channel}
    {args : Sequential.Args V} {out : Effect ℓ K V W}
    (hs : c.passthrough ops tag args w = some out) : ∃ c', out = (.more c', w) ∧ c'.Plain := by
  simp only [Config.passthrough] at hs
  split at hs
  · next hcell =>
      cases hs
      have hx := hc.heap _ (List.mem_of_getElem? hcell)
      exact ⟨_, rfl, plain_set hc.heap hx, by simp⟩
  · next hcell =>
      cases hs
      have hx := hc.heap _ (List.mem_of_getElem? hcell)
      exact ⟨_, rfl, plain_set hc.heap hx, by simp⟩
  · cases hs

theorem Config.Plain.completeFirstLet (hc : c.Plain) {ops : ℕ} {tag : Channel} {vs : List V}
    {out : Effect ℓ K V W} (hs : c.completeFirstLet ops tag vs k w = some out) :
    ∃ c' w', out = (.more c', w') ∧ c'.Plain := by
  simp only [Config.completeFirstLet] at hs
  split at hs
  · next fn effect rcvr results hcell =>
      cases hs
      have hx := hc.heap _ (List.mem_of_getElem? hcell)
      have hnew : (Cell.let fn effect (some rcvr) (some vs)).Plain := hx
      exact ⟨_, _, rfl, plain_emplace hc.heap hnew (hx tag vs k w), by simp⟩
  · cases hs

theorem Config.Plain.completeFirstSequence (hc : c.Plain) {ops : ℕ} {out : Effect ℓ K V W}
    (hs : c.completeFirstSequence ops k w = some out) :
    ∃ c' w', out = (.more c', w') ∧ c'.Plain := by
  simp only [Config.completeFirstSequence] at hs
  split at hs
  · next func effect r hcell =>
      cases hs
      have hx := hc.heap _ (List.mem_of_getElem? hcell)
      refine ⟨_, _, rfl, plain_emplace hc.heap ?_ (hx (func, effect) rfl k w), by simp⟩
      rintro f ⟨⟩
  · cases hs

/-- Nothing of it ever waits. -/
theorem Config.Plain.step {b : Bool} {out : Effect ℓ K V W} (hc : c.Plain)
    (hs : c.step k b w = some out) :
    (∃ c' w', out = (.more c', w') ∧ c'.Plain) ∨ ∃ comp w', out = (.done comp, w') := by
  cases hcontrol : c.control with
  | enqueue a => exact absurd hcontrol (hc.control a).1
  | run a => exact absurd hcontrol (hc.control a).2
  | start a =>
      simp only [Config.step, hcontrol, Config.start] at hs
      split at hs
      · cases hs
        exact .inl ⟨_, _, rfl, plain_set hc.heap True.intro, by simp⟩
      · next hcell => exact (hc.heap _ (List.mem_of_getElem? hcell)).elim
      · next hcell => exact (hc.heap _ (List.mem_of_getElem? hcell)).elim
      · next hcell => exact (hc.heap _ (List.mem_of_getElem? hcell)).elim
      · cases hs
        exact .inl ⟨_, _, rfl, hc.heap, by simp⟩
      · cases hs
        exact .inl ⟨_, _, rfl, hc.heap, by simp⟩
      · cases hs
  | complete tag args r =>
      simp only [Config.step, hcontrol] at hs
      obtain ⟨vs, -, hs⟩ := Option.bind_eq_some_iff.mp hs
      cases r with
      | outer =>
          cases hs
          exact .inr ⟨_, _, rfl⟩
      | «then» handle complete fs r =>
          simp only [Config.complete] at hs
          split at hs <;> cases hs <;> exact .inl ⟨_, _, rfl, hc.heap, by simp [Config.send]⟩
      | «let» ops tags =>
          simp only [Config.complete] at hs
          split at hs
          · exact .inl (hc.completeFirstLet hs)
          · obtain ⟨c', hout, hplain⟩ := hc.passthrough hs
            exact .inl ⟨c', w, hout, hplain⟩
      | sequence ops =>
          simp only [Config.complete] at hs
          split at hs
          · exact .inl (hc.completeFirstSequence hs)
          · obtain ⟨c', hout, hplain⟩ := hc.passthrough hs
            exact .inl ⟨c', w, hout, hplain⟩

end Steps

/-! ### The same runs -/

/-- An expression that is executed in the context `k` without a break: what is left of it, or what
it has completed with, and the world. -/
def stepInContext (k : K) (b : Bool) (x : (Config ℓ K V W ⊕ Completion V) × W) (_ : Unit) :
    Option ((Config ℓ K V W ⊕ Completion V) × W) :=
  match x with
  | (.inl c, w) =>
      (c.step k b w).map fun out => match out with
        | (.more c', w') | (.hop _ c', w') => (.inl c', w')
        | (.done comp, w') => (.inr comp, w')
  | (.inr _, _) => none

/-- The two machines are at the same point. -/
def SameState (k : K) : (Config ℓ K V W ⊕ Completion V) × W → Sequential.State V W → Prop
  | (.inl c, w), st => st = c.inContext k w ∧ c.Plain
  | (.inr comp, w), st => st.control = .ret ∧ st.received = [comp] ∧ st.world = w

theorem sameState_init {s : Sender ℓ K V W} (h : s.Plain) (k : K) (w : W) :
    SameState k (.inl (.init s), w) (.init (s.inContext k) w) := by
  refine ⟨?_, plain_connect s h .outer 0, by simp [Config.init]⟩
  simp only [Sequential.State.init, Config.inContext, Config.init, connect_inContext s h]
  rfl

theorem sameState_step (order : ArgumentOrder) {k : K} (b : Bool)
    {x x' : (Config ℓ K V W ⊕ Completion V) × W} {st : Sequential.State V W}
    (h : SameState k x st) (hs : stepInContext k b x () = some x') :
    ∃ st', Sequential.step order st () = some st' ∧ SameState k x' st' := by
  obtain ⟨c | comp, w⟩ := x
  · obtain ⟨rfl, hplain⟩ := h
    obtain ⟨out, hout, rfl⟩ := Option.map_eq_some_iff.mp hs
    rw [step_inContext order hplain b, hout]
    rcases hplain.step hout with ⟨c', w', rfl, hc'⟩ | ⟨comp, w', rfl⟩
    · exact ⟨_, rfl, rfl, hc'⟩
    · exact ⟨_, rfl, rfl, rfl, rfl⟩
  · cases hs

theorem sameState_back (order : ArgumentOrder) {k : K} (b : Bool)
    {x : (Config ℓ K V W ⊕ Completion V) × W} {st st' : Sequential.State V W}
    (h : SameState k x st) (hs : Sequential.step order st () = some st') :
    ∃ x', stepInContext k b x () = some x' ∧ SameState k x' st' := by
  obtain ⟨c | comp, w⟩ := x
  · obtain ⟨rfl, hplain⟩ := h
    rw [step_inContext order hplain b] at hs
    obtain ⟨out, hout, rfl⟩ := Option.map_eq_some_iff.mp hs
    simp only [stepInContext, hout, Option.map_some]
    rcases hplain.step hout with ⟨c', w', rfl, hc'⟩ | ⟨comp, w', rfl⟩
    · exact ⟨_, rfl, rfl, hc'⟩
    · exact ⟨_, rfl, rfl, rfl, rfl⟩
  · rw [Sequential.step, h.1] at hs
    cases hs

/-- An expression without schedulers makes the runs that `Sequential` says, in whatever context it
is executed. -/
theorem sequential_runs (order : ArgumentOrder) {s : Sender ℓ K V W} (h : s.Plain) (k : K)
    (b : Bool) (w : W) (tr : List Unit) :
    (∀ x, Run (stepInContext k b) (.inl (.init s), w) tr x →
      ∃ st, Run (Sequential.step order) (.init (s.inContext k) w) tr st ∧ SameState k x st) ∧
    ∀ st, Run (Sequential.step order) (.init (s.inContext k) w) tr st →
      ∃ x, Run (stepInContext k b) (.inl (.init s), w) tr x ∧ SameState k x st := by
  refine ⟨fun x hx => ?_, fun st hst => ?_⟩
  · refine Run.induction (P := fun tr x => ∃ st,
      Run (Sequential.step order) (.init (s.inContext k) w) tr st ∧ SameState k x st)
      ⟨_, run_nil.mpr rfl, sameState_init h k w⟩ ?_ hx
    rintro tr x ⟨⟩ x' - ⟨st, hst, hsame⟩ hs
    obtain ⟨st', hst', hsame'⟩ := sameState_step order b hsame hs
    exact ⟨st', hst.concat hst', hsame'⟩
  · refine Run.induction (P := fun tr st => ∃ x,
      Run (stepInContext k b) (.inl (.init s), w) tr x ∧ SameState k x st)
      ⟨_, run_nil.mpr rfl, sameState_init h k w⟩ ?_ hst
    rintro tr st ⟨⟩ st' - ⟨x, hx, hsame⟩ hs
    obtain ⟨x', hx', hsame'⟩ := sameState_back order b hsame hs
    exact ⟨x', hx.concat hx', hsame'⟩

end BaremetalSenders.Scheduled
