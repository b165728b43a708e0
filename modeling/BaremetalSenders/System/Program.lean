import BaremetalSenders.Adaptors.StopTreeProgress
import BaremetalSenders.Adaptors.StopTreeTermination
import BaremetalSenders.Senders.ScheduledContexts

/-!
Programs: trees of `when_all` and `when_any` whose leaves are expressions with schedulers.

A leaf of the tree is the operation state of an expression, and its receiver is the
`sub_receiver` its parent has for it. The parent starts it in a context that has nothing else to
do. The stop token it sees is that of its parent's source, and none of its operations registers
a callback. Its completion is the first part of what the parent does with it.

So a state is one of the tree and one of the contexts. The steps of the nodes and of the contexts
are theirs. They take those together that a leaf has a part in: it is started, it asks for the
token, it completes. What a parent does in the call that completes its leaf keeps no context from
going on with something else here.
-/

namespace BaremetalSenders.Program

open BaremetalSenders.Sequential (Completion)
open Crew (Job Turn)
open Scheduled (Context Config System Sender)
open StopTree (Path Tree)

universe u

variable {ℓ : Type*} {V : Type u} {W : Type*}

def sent : Completion V → Join.Completion (List V) (List V)
  | .value vs => .value vs
  | .error es => .error es
  | .stopped => .stopped

structure State (T : Tree V (List V)) (ℓ W : Type*) where
  tree : StopTree.State T
  contexts : System Path ℓ V W

/-- The nodes take a step, the child `i` of `p` is started in a context, a context takes what
waits for it, or the expression that is the child `i` of `p` goes on. -/
inductive Event (T : Tree V (List V)) (ℓ : Type*) where
  | tree (l : StopTree.Label T)
  | start (p : Path) (i : Fin (T.node p).arity) (k : Context Path ℓ)
  | take (k : Context Path ℓ)
  | step (p : Path) (i : Fin (T.node p).arity)

/-- Somebody outside requests stop. -/
def Event.isExternal {T : Tree V (List V)} : Event T ℓ → Bool
  | .tree l => l.isExternal
  | _ => false

variable {T : Tree V (List V)} [DecidableEq ℓ] [DecidableEq V]

def State.init (s : Path → Sender ℓ (Context Path ℓ) V W) (w : W) : State T ℓ W :=
  ⟨.init, .init s w⟩

/-- The contexts with what the stop token of the child `i` of `p` says. -/
def State.look (st : State T ℓ W) (p : Path) (i : ℕ) : System Path ℓ V W :=
  { st.contexts with
    stop := Function.update st.contexts.stop (i :: p)
      (st.tree.source (some p)).source.requested }

def step (st : State T ℓ W) : Event T ℓ → Option (State T ℓ W)
  | .tree l =>
      if l.ofLeaf then none
      else (StopTree.step st.tree l).map fun t => { st with tree := t }
  | .start p i k =>
      if T.leaf (i :: p) then
        (StopTree.step st.tree (.op p (.startChild i))).bind fun t =>
          (st.contexts.step (.start (i :: p) k)).map fun c => ⟨t, c⟩
      else none
  | .take k => (st.contexts.step (.take k)).map fun c => { st with contexts := c }
  | .step p i =>
      ((st.look p i).step (.step (i :: p))).bind fun c =>
        match c.job (i :: p) with
        | .done _ r =>
            (exec StopTree.step st.tree [.complete (i :: p), .op p (.complete i (sent r))]).map
              fun t => ⟨t, c⟩
        | _ => some { st with contexts := c }

/-! ### What a step can do -/

inductive Move (st : State T ℓ W) : Event T ℓ → State T ℓ W → Prop
  | tree {l : StopTree.Label T} {t : StopTree.State T} (hl : l.ofLeaf = false)
      (ht : StopTree.step st.tree l = some t) : Move st (.tree l) ⟨t, st.contexts⟩
  | start {p : Path} {i : Fin (T.node p).arity} {k t c} (hleaf : T.leaf (i :: p) = true)
      (ht : StopTree.step st.tree (.op p (.startChild i)) = some t)
      (hc : st.contexts.step (.start (i :: p) k) = some c) : Move st (.start p i k) ⟨t, c⟩
  | take {k c} (hc : st.contexts.step (.take k) = some c) : Move st (.take k) ⟨st.tree, c⟩
  | more {p : Path} {i : Fin (T.node p).arity} {c}
      (hc : (st.look p i).step (.step (i :: p)) = some c)
      (hnot : ∀ k r, c.job (i :: p) ≠ .done k r) : Move st (.step p i) ⟨st.tree, c⟩
  | done {p : Path} {i : Fin (T.node p).arity} {c k r t t'}
      (hc : (st.look p i).step (.step (i :: p)) = some c)
      (hdone : c.job (i :: p) = .done k r)
      (ht : StopTree.step st.tree (.complete (i :: p)) = some t)
      (ht' : StopTree.step t (.op p (.complete i (sent r))) = some t') :
      Move st (.step p i) ⟨t', c⟩

variable {st st' : State T ℓ W} {e : Event T ℓ}

theorem step_move (h : step st e = some st') : Move st e st' := by
  cases e with
  | tree l =>
      simp only [step] at h
      split at h
      · cases h
      · next hl =>
          obtain ⟨t, ht, rfl⟩ := Option.map_eq_some_iff.mp h
          exact .tree (by simpa using hl) ht
  | start p i k =>
      simp only [step] at h
      split at h
      · next hleaf =>
          obtain ⟨t, ht, hrest⟩ := Option.bind_eq_some_iff.mp h
          obtain ⟨c, hc, rfl⟩ := Option.map_eq_some_iff.mp hrest
          exact .start hleaf ht hc
      · cases h
  | take k =>
      obtain ⟨c, hc, rfl⟩ := Option.map_eq_some_iff.mp h
      exact .take hc
  | step p i =>
      obtain ⟨c, hc, hrest⟩ := Option.bind_eq_some_iff.mp h
      split at hrest
      · next k r hdone =>
          obtain ⟨t', ht', rfl⟩ := Option.map_eq_some_iff.mp hrest
          obtain ⟨t, ht, hlast⟩ := Option.bind_eq_some_iff.mp ht'
          obtain ⟨t₂, ht₂, hlast⟩ := Option.bind_eq_some_iff.mp hlast
          cases hlast
          exact .done hc hdone ht ht₂
      · next hnot =>
          cases hrest
          exact .more hc hnot

/-! ### The leaves of the tree and the expressions -/

def Agree {C D : Type*} (phase : Join.Phase (List V) (List V) D) :
    Job (Context Path ℓ) C (Completion V) → Prop
  | .fresh _ => phase = .idle
  | .queued _ _ | .running _ _ => phase = .running
  | .done _ r => phase.completion = some (sent r)

structure Coherent (st : State T ℓ W) : Prop where
  stop : ∀ i p, st.contexts.stop (i :: p) = true →
    (st.tree.source (some p)).source.requested = true
  done : ∀ q, st.tree.done q = true → ∃ k r, st.contexts.job q = .done k r
  leaf : ∀ p (i : Fin (T.node p).arity), T.leaf (i :: p) = true →
    Agree ((st.tree.op p).phase i) (st.contexts.job (i :: p))
  begun : ∀ q, (∀ c, st.contexts.job q ≠ .fresh c) →
    ∃ p, ∃ i : Fin (T.node p).arity, q = (i : ℕ) :: p ∧ T.leaf p = false ∧ T.leaf q = true

omit [DecidableEq ℓ] [DecidableEq V] in
theorem coherent_init (s : Path → Sender ℓ (Context Path ℓ) V W) (w : W) :
    Coherent (.init s w : State T ℓ W) where
  stop := fun _ _ h => by cases h
  done := fun _ h => by cases h
  leaf := fun _ _ _ => rfl
  begun := fun _ h => absurd rfl (h _)

section Tree

variable {t t' : StopTree.State T} {l : StopTree.Label T} {p : Path} {i : Fin (T.node p).arity}

omit [DecidableEq V] in
/-- A child that is neither started nor completes now is where it was, for its parent. -/
theorem phase_step {n : ℕ} {D : Type*} {ops : Join.Ops n (List V) (List V) D}
    {o o' : Join.State n (List V) (List V) D} {jl : Join.Label n (List V) (List V)} {i : Fin n}
    (ho : Join.step ops o jl = some o') (hstart : jl ≠ .startChild i)
    (hcomplete : ∀ c, jl ≠ .complete i c) : o'.phase i = o.phase i ∨
      ∃ c, (o.phase i).completion = some c ∧ (o'.phase i).completion = some c := by
  have hupdate {j : Fin n} {ph : Join.Phase (List V) (List V) D}
      {c : Join.Completion (List V) (List V)} (hj : (o.phase j).completion = some c)
      (hph : ph.completion = some c) : Function.update o.phase j ph i = o.phase i ∨
        ∃ c, (o.phase i).completion = some c ∧
          (Function.update o.phase j ph i).completion = some c := by
    rcases eq_or_ne i j with rfl | hne
    · exact .inr ⟨c, hj, by simpa using hph⟩
    · exact .inl (by simp [hne])
  cases Join.step_move ho with
  | rcvrRequestStop | popStopCb | runStopCb | emplaceStopCb | startStopped | startChildren =>
      exact .inl rfl
  | @startChild j =>
      have hne : i ≠ j := fun e => hstart (by rw [e])
      exact .inl (by simp [hne])
  | @complete j c =>
      have hne : i ≠ j := fun e => hcomplete c (by rw [e])
      exact .inl (by simp [hne])
  | @act j c a as hphase => cases a <;> exact hupdate (by rw [hphase]; rfl) rfl
  | arrive hphase | arriveLast hphase | ignore hphase | resetStopCb hphase | finish hphase =>
      exact hupdate (by rw [hphase]; rfl) rfl

omit [DecidableEq ℓ] in
theorem Agree.of_step {C : Type*} {j : Job (Context Path ℓ) C (Completion V)}
    (h : Agree ((t.op p).phase i) j) (ht : StopTree.step t l = some t')
    (hstart : l ≠ .op p (.startChild i)) (hcomplete : ∀ c, l ≠ .op p (.complete i c)) :
    Agree ((t'.op p).phase i) j := by
  have hphase : (t'.op p).phase i = (t.op p).phase i ∨
      ∃ c, ((t.op p).phase i).completion = some c ∧ ((t'.op p).phase i).completion = some c := by
    rcases StopTree.op_step ht p with hop | ⟨jl, ho, hwho⟩
    · exact .inl (by rw [hop])
    · refine phase_step (o := t.view p) ho ?_ ?_
      · rintro rfl
        rcases hwho with ⟨rfl, -⟩ | ⟨m, -, hpair⟩
        · exact hstart rfl
        · cases hpair
      · rintro c rfl
        rcases hwho with ⟨rfl, -⟩ | ⟨m, -, hpair⟩
        · exact hcomplete c rfl
        · cases hpair
  rcases hphase with hphase | ⟨c, hc, hc'⟩
  · rwa [hphase]
  · cases j with
    | fresh | queued | running =>
        rw [Agree] at h
        simp [h, Join.Phase.completion] at hc
    | done k r => exact hc'.trans (hc.symm.trans h)

/-- Only a leaf that begins to complete is marked. -/
theorem done_of_step (ht : StopTree.step t l = some t') {q : Path} (hq : t'.done q = true) :
    t.done q = true ∨ l = .complete q := by
  cases StopTree.step_move ht with
  | op | both => exact .inl hq
  | source => exact .inl (by simpa using hq)
  | @complete q' =>
      rcases eq_or_ne q q' with rfl | hne
      · exact .inr rfl
      · exact .inl (by simpa [hne] using hq)

end Tree

omit [DecidableEq V] in
/-- A step of the contexts that neither starts nor ends a leaf leaves it as it is, for its
parent. -/
theorem Agree.of_turn {D : Type*} {phase : Join.Phase (List V) (List V) D} {q : Path}
    {c c' : System Path ℓ V W} {e : Crew.Event Path (Context Path ℓ)} {j} (h : Agree phase j)
    (hs : c.step e = some c') (hj : c.job q = j) (hstart : ∀ k, e ≠ .start q k)
    (hend : (∀ k r, c.job q ≠ .done k r) → ∀ k r, c'.job q ≠ .done k r) :
    Agree phase (c'.job q) := by
  have hturn := Crew.step_turn hs
  subst hj
  cases hjob : c.job q with
  | fresh m =>
      rw [hturn.fresh hjob hstart]
      rwa [hjob] at h
  | done k r =>
      rw [hturn.done hjob]
      rwa [hjob] at h
  | queued k m | running k m =>
      have hrunning : phase = .running := by rwa [hjob] at h
      have hnotFresh := hturn.not_fresh (i := q) (fun m => by simp [hjob])
      cases hjob' : c'.job q with
      | fresh m' => exact absurd hjob' (hnotFresh m')
      | done k' r => exact absurd hjob' (hend (fun k r => by simp [hjob]) k' r)
      | queued | running => exact hrunning

omit [DecidableEq V] in
/-- What has been marked is still at its end. -/
theorem Coherent.done_of_turn (h : Coherent st) {c c' : System Path ℓ V W}
    {e : Crew.Event Path (Context Path ℓ)} (hs : c.step e = some c')
    (hjob : c.job = st.contexts.job) {q : Path} (hq : st.tree.done q = true) :
    ∃ k r, c'.job q = .done k r := by
  obtain ⟨k, r, hdone⟩ := h.done q hq
  exact ⟨k, r, (Crew.step_turn hs).done (by rw [hjob, hdone])⟩

omit [DecidableEq V] in
/-- The contexts have made a step that starts nothing. -/
theorem Coherent.begun_of_turn (h : Coherent st) {c c' : System Path ℓ V W}
    {e : Crew.Event Path (Context Path ℓ)} (hs : c.step e = some c')
    (hjob : c.job = st.contexts.job) (hstart : ∀ q k, e ≠ .start q k) {q : Path}
    (hq : ∀ m, c'.job q ≠ .fresh m) :
    ∃ p, ∃ i : Fin (T.node p).arity, q = (i : ℕ) :: p ∧ T.leaf p = false ∧ T.leaf q = true := by
  refine h.begun q fun m hm => hq m ?_
  exact (Crew.step_turn hs).fresh (by rw [hjob, hm]) (hstart q)

omit [DecidableEq V] in
/-- A step of a leaf reads its token. -/
theorem Coherent.stop_of_look (h : Coherent st) {p : Path} {i : ℕ} {c : System Path ℓ V W}
    (hs : (st.look p i).step (.step (i :: p)) = some c) (i' : ℕ) (p' : Path)
    (hstop : c.stop (i' :: p') = true) :
    (st.tree.source (some p')).source.requested = true := by
  have hlook : c.stop = (st.look p i).stop := by
    cases Crew.step_turn hs with
    | @step _ k m o w => cases o <;> rfl
  rw [hlook, State.look] at hstop
  by_cases hsame : i' :: p' = i :: p
  · cases hsame
    simpa using hstop
  · exact h.stop i' p' (by simpa [hsame] using hstop)

theorem Coherent.start (h : Coherent st) {p : Path} {i : Fin (T.node p).arity}
    {k : Context Path ℓ} {t : StopTree.State T} {c : System Path ℓ V W}
    (hleaf : T.leaf (i :: p) = true)
    (ht : StopTree.step st.tree (.op p (.startChild i)) = some t)
    (hc : st.contexts.step (.start (i :: p) k) = some c) : Coherent (⟨t, c⟩ : State T ℓ W) := by
  have hturn := Crew.step_turn hc
  obtain ⟨hp, hphase⟩ : T.leaf p = false ∧ (t.op p).phase i = .running := by
    cases StopTree.step_move ht with
    | @op _ _ o hp hl ho =>
        cases Join.step_move ho with
        | startChild => exact ⟨hp, by simp⟩
  obtain ⟨hstop, m, hjob⟩ : c.stop = st.contexts.stop ∧ ∃ m, c.job (i :: p) = .running k m := by
    cases hturn with
    | @start _ _ m => exact ⟨rfl, m, by simp⟩
  refine ⟨fun i' p' hstop' => StopTree.requested_mono ht (h.stop i' p' (hstop ▸ hstop')),
    fun q hq => ?_, fun p' i' hleaf' => ?_, fun q hq => ?_⟩
  · rcases done_of_step ht hq with hold | hnot
    · exact h.done_of_turn hc rfl hold
    · cases hnot
  · by_cases hsame : (i' : ℕ) :: p' = (i : ℕ) :: p
    · obtain ⟨hi, rfl⟩ := List.cons.inj hsame
      obtain rfl := Fin.ext hi
      simpa [hjob, Agree] using hphase
    · refine ((h.leaf p' i' hleaf').of_step ht ?_ fun _ heq => by cases heq).of_turn hc rfl ?_ ?_
      · intro heq
        cases heq
        exact hsame rfl
      · exact fun k' heq => hsame (Crew.Event.start.inj heq).1.symm
      · exact fun hnot => hturn.not_done hnot (by simp)
  · by_cases hsame : q = (i : ℕ) :: p
    · exact ⟨p, i, hsame, hp, hsame ▸ hleaf⟩
    · refine h.begun q fun m' hm => hq m' (hturn.fresh hm ?_)
      exact fun k' heq => hsame (Crew.Event.start.inj heq).1.symm

theorem Coherent.leafDone (h : Coherent st) {p : Path} {i : Fin (T.node p).arity}
    {k : Context Path ℓ} {r : Completion V} {t t' : StopTree.State T} {c : System Path ℓ V W}
    (hc : (st.look p i).step (.step (i :: p)) = some c) (hdone : c.job (i :: p) = .done k r)
    (ht : StopTree.step st.tree (.complete (i :: p)) = some t)
    (ht' : StopTree.step t (.op p (.complete i (sent r))) = some t') :
    Coherent (⟨t', c⟩ : State T ℓ W) := by
  have hphase : ((t'.op p).phase i).completion = some (sent r) := by
    cases StopTree.step_move ht' with
    | @op _ _ o hp hl ho =>
        cases Join.step_move ho with
        | complete => simp [Join.Phase.completion]
  refine ⟨fun i' p' hstop => ?_, fun q hq => ?_, fun p' i' hleaf' => ?_,
    fun q => h.begun_of_turn hc rfl fun _ _ => by simp⟩
  · exact StopTree.requested_mono ht' (StopTree.requested_mono ht (h.stop_of_look hc i' p' hstop))
  · rcases done_of_step ht' hq with hq | hnot
    · rcases done_of_step ht hq with hold | heq
      · exact h.done_of_turn hc rfl hold
      · cases heq
        exact ⟨k, r, hdone⟩
    · cases hnot
  · by_cases hsame : (i' : ℕ) :: p' = (i : ℕ) :: p
    · obtain ⟨hi, rfl⟩ := List.cons.inj hsame
      obtain rfl := Fin.ext hi
      simpa [hdone, Agree] using hphase
    · have hfirst := (h.leaf p' i' hleaf').of_step ht (by simp) fun _ => by simp
      refine (hfirst.of_step ht' (fun heq => by cases heq) ?_).of_turn hc rfl (fun _ => by simp)
        fun hnot => ?_
      · intro c' heq
        cases heq
        exact hsame rfl
      · refine (Crew.step_turn hc).not_done hnot fun heq => hsame ?_
        exact (Crew.Event.step.inj heq).symm

theorem Coherent.step (h : Coherent st) (hs : Program.step st e = some st') : Coherent st' := by
  cases step_move hs with
  | @tree l t hl ht =>
      refine ⟨fun i p hstop => StopTree.requested_mono ht (h.stop i p hstop), fun q hq => ?_,
        fun p i hleaf => (h.leaf p i hleaf).of_step ht ?_ ?_, h.begun⟩
      · rcases done_of_step ht hq with hold | rfl
        · exact h.done q hold
        · simp [StopTree.Label.ofLeaf] at hl
      · rintro rfl
        simp [StopTree.Label.ofLeaf, hleaf] at hl
      · rintro c rfl
        simp [StopTree.Label.ofLeaf, hleaf] at hl
  | start hleaf ht hc => exact h.start hleaf ht hc
  | @take k c hc =>
      have hstop : c.stop = st.contexts.stop := by
        cases Crew.step_turn hc with
        | take => rfl
      exact ⟨fun i p hstop' => h.stop i p (hstop ▸ hstop'), fun q => h.done_of_turn hc rfl,
        fun p i hleaf => (h.leaf p i hleaf).of_turn hc rfl (fun _ => by simp)
          fun hnot => (Crew.step_turn hc).not_done hnot (by simp),
        fun q => h.begun_of_turn hc rfl fun _ _ => by simp⟩
  | @more p i c hc hnot =>
      refine ⟨h.stop_of_look hc, fun q => h.done_of_turn hc rfl, fun p' i' hleaf' => ?_,
        fun q => h.begun_of_turn hc rfl fun _ _ => by simp⟩
      refine (h.leaf p' i' hleaf').of_turn hc rfl (fun _ => by simp) fun hnot' => ?_
      by_cases hsame : (i' : ℕ) :: p' = (i : ℕ) :: p
      · rwa [hsame]
      · refine (Crew.step_turn hc).not_done hnot' fun heq => hsame ?_
        exact (Crew.Event.step.inj heq).symm
  | done hc hdone ht ht' => exact h.leafDone hc hdone ht ht'

/-! ### The parts of a program -/

section Runs

variable {s : Path → Sender ℓ (Context Path ℓ) V W} {w : W} {tr : List (Event T ℓ)}

theorem coherent_of_run (h : Run step (.init s w) tr st) : Coherent st :=
  Run.induction (P := fun _ st => Coherent st) (coherent_init s w)
    (fun _ _ _ _ _ ih hs => ih.step hs) h

/-- The nodes and the leaves are a tree at work. -/
theorem tree_step (hs : step st e = some st') :
    ∃ ls, Run StopTree.step st.tree ls st'.tree := by
  cases step_move hs with
  | @tree l t hl ht => exact ⟨[l], run_cons.mpr ⟨t, ht, run_nil.mpr rfl⟩⟩
  | @start p i k t c hleaf ht hc => exact ⟨_, run_cons.mpr ⟨t, ht, run_nil.mpr rfl⟩⟩
  | take | more => exact ⟨[], run_nil.mpr rfl⟩
  | @done p i c k r t t' hc hdone ht ht' =>
      exact ⟨_, run_cons.mpr ⟨t, ht, run_cons.mpr ⟨t', ht', run_nil.mpr rfl⟩⟩⟩

theorem tree_run {st₀ : State T ℓ W} (h : Run step st₀ tr st) :
    ∃ ls, Run StopTree.step st₀.tree ls st.tree :=
  h.exists_project State.tree fun _ _ _ => tree_step

theorem tree_of_run (h : Run step (.init s w) tr st) :
    ∃ ls, Run StopTree.step .init ls st.tree := tree_run h

omit [DecidableEq V] in
/-- The token of a leaf is a flag that is set once. -/
theorem Coherent.look_run (h : Coherent st) (p : Path) (i : ℕ) :
    ∃ ls, Run Scheduled.System.step st.contexts ls (st.look p i) := by
  cases hreq : (st.tree.source (some p)).source.requested with
  | false =>
      have hstop : st.contexts.stop (i :: p) = false := by
        by_contra hne
        simp [h.stop i p (by simpa using hne)] at hreq
      exact ⟨[], run_nil.mpr (by rw [State.look, hreq, ← hstop, Function.update_eq_self])⟩
  | true =>
      cases hstop : st.contexts.stop (i :: p) with
      | true => exact ⟨[], run_nil.mpr (by rw [State.look, hreq, ← hstop, Function.update_eq_self])⟩
      | false =>
          refine ⟨[.requestStop (i :: p)], run_cons.mpr ⟨_, ?_, run_nil.mpr rfl⟩⟩
          simp [Scheduled.System.step, Crew.step, hstop, State.look, hreq]

/-- The contexts are those of expressions that are started and asked to stop. -/
theorem contexts_of_run (h : Run step (.init s w) tr st) :
    ∃ ls, Run Scheduled.System.step (.init s w) ls st.contexts := by
  refine Run.induction (P := fun _ st => ∃ ls, Run Scheduled.System.step (.init s w) ls st.contexts)
    ⟨[], run_nil.mpr rfl⟩ ?_ h
  rintro tr st e st' hr ⟨ls, hls⟩ hs
  have hlook {p : Path} {i : ℕ} {c : System Path ℓ V W}
      (hc : (st.look p i).step (.step (i :: p)) = some c) :
      ∃ ls, Run Scheduled.System.step (.init s w) ls c := by
    obtain ⟨ls', hls'⟩ := (coherent_of_run hr).look_run p i
    exact ⟨_, (run_append.mpr ⟨_, hls, hls'⟩).concat hc⟩
  cases step_move hs with
  | tree => exact ⟨ls, hls⟩
  | start _ _ hc | take hc => exact ⟨_, hls.concat hc⟩
  | more hc | done hc => exact hlook hc

end Runs

end BaremetalSenders.Program
