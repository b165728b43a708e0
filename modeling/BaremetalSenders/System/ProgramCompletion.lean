import BaremetalSenders.System.Program

/-!
Programs come to an end.

Whatever the order of the steps of the nodes and of the contexts, from some time on nothing is
done but by somebody outside, and where nothing else is left to be done, the topmost node has
completed its receiver with what it makes of what the leaves have completed with: no context
waits for a node that waits for it. When the topmost node has completed, no context executes
anything of it, nothing of it waits in a queue, and that stays so.
-/

namespace BaremetalSenders.Program

open BaremetalSenders.Sequential (Completion)
open Crew (Job Turn)
open Scheduled (Context Config System Sender denote)
open StopTree (Path Tree Sends WellTyped)
open scoped Join

universe u

variable {ℓ : Type*} {V : Type u} {W : Type*} {T : Tree V (List V)} [DecidableEq ℓ] [DecidableEq V]
  {s : Path → Sender ℓ (Context Path ℓ) V W} {w : W} {tr tr' : List (Event T ℓ)}
  {st st' : State T ℓ W} {e : Event T ℓ} {p q : Path} {P : Finset Path}

/-! ### What the leaves complete with -/

/-- The leaves complete in ways that their parents expect. -/
def Fits (T : Tree V (List V)) (s : Path → Sender ℓ (Context Path ℓ) V W) : Prop :=
  ∀ p (i : Fin (T.node p).arity), T.leaf p = false → T.leaf (i :: p) = true → ∀ k,
    (denote (s (i :: p))).Keeps (fun _ => True) (fun _ => True) (fun x => x.context (i :: p))
      (fun _ c => (T.ops p).admits i (sent c) = true) k

def State.Completed (st : State T ℓ W) (q : Path) (c : Join.Completion (List V) (List V)) : Prop :=
  ∃ k r, st.contexts.job q = .done k r ∧ c = sent r

omit [DecidableEq V] in
theorem Fits.admits (hfits : Fits T s) {ls : List (Crew.Event Path (Context Path ℓ))}
    {c : System Path ℓ V W} (h : Run Scheduled.System.step (.init s w) ls c)
    {i : Fin (T.node p).arity} (hp : T.leaf p = false) (hleaf : T.leaf (i :: p) = true)
    {k : Context Path ℓ} {r : Completion V} (hdone : c.job (i :: p) = .done k r) :
    (T.ops p).admits i (sent r) = true := by
  have hkept := Scheduled.kept_of_run (I := fun _ => True) (A := fun _ _ => True)
    (Q := fun q _ r => q = (i : ℕ) :: p → (T.ops p).admits i (sent r) = true) h trivial ?_
    (fun _ => trivial) fun _ _ => trivial
  · exact hkept.2 _ k r hdone rfl
  · intro q k' _
    by_cases hq : q = (i : ℕ) :: p
    · subst hq
      exact (hfits p i hp hleaf k').imp fun _ _ hadmits _ => hadmits
    · exact Resumption.Keeps.trivial.imp fun _ _ _ heq => absurd heq hq

omit [DecidableEq ℓ] [DecidableEq V] in
/-- A leaf that its parent has not started has not been started. -/
theorem Coherent.fresh_of_idle (h : Coherent st) {i : Fin (T.node p).arity}
    (hleaf : T.leaf (i :: p) = true) (hphase : (st.tree.op p).phase i = .idle) :
    ∃ c, st.contexts.job (i :: p) = .fresh c := by
  have hagree := h.leaf p i hleaf
  rw [hphase] at hagree
  cases hjob : st.contexts.job (i :: p) with
  | fresh c => exact ⟨c, rfl⟩
  | queued | running | done =>
      rw [hjob] at hagree
      cases hagree

omit [DecidableEq ℓ] [DecidableEq V] in
theorem Agree.done_of_completion {C D : Type*} {phase : Join.Phase (List V) (List V) D}
    {j : Job (Context Path ℓ) C (Completion V)} {c : Join.Completion (List V) (List V)}
    (h : Agree phase j) (hc : phase.completion = some c) : ∃ k r, j = .done k r ∧ c = sent r := by
  cases j with
  | fresh | queued | running =>
      rw [Agree] at h
      simp [h, Join.Phase.completion] at hc
  | done k r => exact ⟨k, r, rfl, Option.some.inj (hc.symm.trans h)⟩

/-! ### A program does not get stuck -/

/-- Nothing is left to be done, but for stop requests from outside. -/
def Idle (st : State T ℓ W) : Prop := ∀ e, e.isExternal = false → step st e = none

/-- A leaf that is executed goes on. -/
theorem exists_step_of_running (h : Run step (.init s w) tr st) (hfits : Fits T s)
    {k : Context Path ℓ} {c} (hq : st.contexts.job q = .running k c) :
    ∃ p, ∃ i : Fin (T.node p).arity, ∃ st', step st (.step p i) = some st' := by
  have hcoherent := coherent_of_run h
  obtain ⟨ls, hls⟩ := contexts_of_run h
  obtain ⟨p, i, rfl, hp, hleaf⟩ := hcoherent.begun q (by simp [hq])
  obtain ⟨out, hout⟩ := Option.ne_none_iff_exists'.mp
    (Scheduled.exists_step_of_running hls hq ((st.look p i).stop (i :: p)) st.contexts.world)
  obtain ⟨c', hc'⟩ : ∃ c', (st.look p i).step (.step (i :: p)) = some c' :=
    ⟨_, (Turn.step (s := st.look p i) hq hout).step_eq⟩
  refine ⟨p, i, ?_⟩
  cases hjob : c'.job (i :: p) with
  | fresh | queued | running => exact ⟨{ st with contexts := c' }, by simp [step, hc', hjob]⟩
  | done k' r =>
      have hphase : (st.tree.op p).phase i = .running := by
        have hagree := hcoherent.leaf p i hleaf
        rwa [hq] at hagree
      have hrunning : st.tree.running (i :: p) = true :=
        StopTree.running_cons.mpr ⟨hp, i, rfl, hphase⟩
      have hnot : st.tree.done (i :: p) = false := by
        by_contra hdone
        obtain ⟨k, r, hjob⟩ := hcoherent.done _ (by simpa using hdone)
        cases hq.symm.trans hjob
      obtain ⟨ls', hls'⟩ := hcoherent.look_run p i
      have hadmits := hfits.admits ((run_append.mpr ⟨_, hls, hls'⟩).concat hc') hp hleaf hjob
      let t : StopTree.State T :=
        { st.tree with done := Function.update st.tree.done (i :: p) true }
      have ht : StopTree.step st.tree (.complete (i :: p)) = some t := by
        simp [StopTree.step, hleaf, hrunning, hnot, t]
      obtain ⟨t', ht'⟩ := StopTree.exists_step_complete (s := t) hp hphase hadmits
        (by simp [hleaf, t])
      exact ⟨⟨t', c'⟩, by simp [step, hc', hjob, exec, ht, ht']⟩

theorem Idle.contexts (hidle : Idle st) (h : Run step (.init s w) tr st) (hfits : Fits T s) :
    (∀ k, st.contexts.current k = none) ∧ (∀ k, st.contexts.queue k = []) ∧
      ∀ q, (∃ c, st.contexts.job q = .fresh c) ∨ ∃ k r, st.contexts.job q = .done k r := by
  obtain ⟨ls, hls⟩ := contexts_of_run h
  have hrunning (q : Path) (k : Context Path ℓ) (c) : st.contexts.job q ≠ .running k c := by
    intro hq
    obtain ⟨p, i, st', hs⟩ := exists_step_of_running h hfits hq
    rw [hidle _ rfl] at hs
    cases hs
  have hstep (q : Path) : st.contexts.step (.step q) = none := by
    cases hq : st.contexts.job q with
    | running k c => exact absurd hq (hrunning q k c)
    | fresh | queued | done => simp [Scheduled.System.step, Crew.step, hq]
  have htake (k : Context Path ℓ) : st.contexts.step (.take k) = none :=
    Option.map_eq_none_iff.mp (hidle (.take k) rfl)
  have hplaced := Crew.placed_of_run hls
  have hact (q : Path) (k : Context Path ℓ) (c) (hq : st.contexts.job q = .running k c) (b : Bool)
      (w' : W) : c.step k b w' ≠ none := absurd hq (hrunning q k c)
  have hended := hplaced.ended_or_blocked hact (fun _ => False) hstep fun k _ => htake k
  exact ⟨hplaced.current_eq_none hact hstep, by simpa using hended⟩

/-- Where nothing is left to be done the topmost node has completed its receiver. -/
theorem Idle.received (hidle : Idle st) (h : Run step (.init s w) tr st) (hT : WellTyped T)
    (htop : T.leaf [] = false) (hfits : Fits T s) : (st.tree.op []).received ≠ [] := by
  intro hreceived
  obtain ⟨ls, hls⟩ := tree_of_run h
  obtain ⟨hfree, -, hended⟩ := hidle.contexts h hfits
  rcases StopTree.inner_or_atLeaf hls hT htop hreceived with hinner | hleaf
  · obtain ⟨l, t, ht, hl⟩ := hinner
    have hl' : l.isExternal = false ∧ l.ofLeaf = false := by
      simpa [StopTree.Label.isInner] using hl
    have hnone := hidle (.tree l) hl'.1
    simp [step, hl'.2, ht] at hnone
  · obtain ⟨p, i, hp, hleaf, hpc | hphase⟩ := hleaf
    · -- it can be started by a new thread
      obtain ⟨js, hreached⟩ := StopTree.reached_of_run hls p
      have hphase : (st.tree.op p).phase i = .idle := by
        have hisIdle := (hreached.counted.idle_iff i).mpr (by simp [hpc, Join.StartPc.started])
        cases hph : (st.tree.op p).phase i <;> simp_all [Join.Phase.isIdle]
      obtain ⟨c, hc⟩ := (coherent_of_run h).fresh_of_idle hleaf hphase
      have ht : ∃ o, Join.step (T.ops p) (st.tree.view p) (.startChild i) = some o :=
        ⟨_, if_pos hpc⟩
      obtain ⟨o, ho⟩ := ht
      have hstart : st.contexts.step (.start (i :: p) (.thread (i :: p))) = some _ :=
        (Turn.start hc (hfree _)).step_eq
      have hnone := hidle (.start p i (.thread (i :: p))) rfl
      simp [step, hleaf, StopTree.step, StopTree.State.allowsOp, hp, ho, hstart] at hnone
    · have hagree := (coherent_of_run h).leaf p i hleaf
      rw [hphase] at hagree
      rcases hended (i :: p) with ⟨c, hc⟩ | ⟨k, r, hdone⟩
      · rw [hc] at hagree
        cases hagree
      · rw [hdone] at hagree
        cases hagree

/-- What goes back to what the leaves have sent goes back to what they have completed with. -/
theorem sends_completed (h : Run step (.init s w) tr st) {c : Join.Completion (List V) (List V)}
    (hc : Sends T st.tree.Sent q c) : Sends T st.Completed q c := by
  refine hc.mono fun q c hleaf hsent => ?_
  cases q with
  | nil => exact hsent.elim
  | cons i p =>
      obtain ⟨hi, hphase⟩ := hsent
      exact ((coherent_of_run h).leaf p ⟨i, hi⟩ hleaf).done_of_completion hphase

/-! ### A program comes to rest -/

noncomputable def State.measure (P : Finset Path) (st : State T ℓ W) :
    (P → Job (Context Path ℓ) (Config ℓ (Context Path ℓ) V W) (Completion V)) × ℕ :=
  (fun q => st.contexts.job q, st.tree.rank P)

abbrev Nearer (P : Finset Path) :
    (P → Job (Context Path ℓ) (Config ℓ (Context Path ℓ) V W) (Completion V)) × ℕ →
    (P → Job (Context Path ℓ) (Config ℓ (Context Path ℓ) V W) (Completion V)) × ℕ → Prop :=
  Prod.Lex (fun y x => ∃ q, Crew.Less Config.step (y q) (x q) ∧ ∀ q', q' ≠ q → y q' = x q') (· < ·)

/-- What has been started is in the tree. -/
theorem mem_of_begun (h : Run step (.init s w) tr st) (hP : T.Within P)
    (hq : ∀ c, st.contexts.job q ≠ .fresh c) : q ∈ P := by
  obtain ⟨ls, hls⟩ := tree_of_run h
  obtain ⟨p, i, rfl, hp, hleaf⟩ := (coherent_of_run h).begun q hq
  refine hP.child p ?_ hp i
  by_contra hnot
  have hphase := StopTree.idle_of_unborn hls hp (StopTree.unborn_of_notMem hls hP p hnot) i
  obtain ⟨c, hc⟩ := (coherent_of_run h).fresh_of_idle hleaf hphase
  exact hq c hc

theorem nearer_of_turn (h : Run step (.init s w) tr st') (hP : T.Within P) {c : System Path ℓ V W}
    {e : Crew.Event Path (Context Path ℓ)} (hs : c.step e = some st'.contexts)
    (hjob : c.job = st.contexts.job) (he : ∀ q, e ≠ .requestStop q) :
    Nearer P (st'.measure P) (st.measure P) := by
  rcases (Crew.step_turn hs).less with ⟨q, rfl, -⟩ | ⟨-, q, hless, hsame⟩
  · exact absurd rfl (he q)
  · have hq : q ∈ P := mem_of_begun h hP fun m hm => by
      rw [hm] at hless
      cases hless
    refine .left _ _ ⟨⟨q, hq⟩, by simpa [hjob] using hless, fun q' hq' => ?_⟩
    exact (hsame q' fun heq => hq' (Subtype.ext heq)).trans (by rw [hjob])

/-- Every step brings the program nearer to its end, or somebody outside has taken it. -/
theorem nearer_of_step (h : Run step (.init s w) tr st) (hP : T.Within P)
    (hs : step st e = some st') : Nearer P (st'.measure P) (st.measure P) ∨
      e.isExternal = true ∧ st'.measure P = st.measure P := by
  have h' := h.concat hs
  cases step_move hs with
  | @tree l t hl ht =>
      obtain ⟨ls, hls⟩ := tree_of_run h
      rcases (StopTree.rank_le_of_step (P := P) hls ht).lt_or_eq with hlt | heq
      · exact .inl (.right _ hlt)
      · refine .inr ⟨?_, by rw [State.measure, State.measure, heq]⟩
        by_contra hl'
        exact (StopTree.rank_lt_of_step hls hP ht (by simpa [Event.isExternal] using hl')).ne heq
  | start _ _ hc | take hc => exact .inl (nearer_of_turn h' hP hc rfl fun _ => by simp)
  | @more p i c hc | @done p i c k r t t' hc =>
      exact .inl (nearer_of_turn h' hP (c := st.look p i) hc rfl fun _ => by simp)

omit [DecidableEq ℓ] [DecidableEq V] in
theorem acc_nearer (s : Path → Sender ℓ (Context Path ℓ) V W) (w : W) :
    Acc (Nearer P) ((.init s w : State T ℓ W).measure P) := by
  refine Prod.lexAccessible (Crew.acc_of_forall_acc fun q => Crew.acc_less_fresh ?_)
    (fun n => wellFounded_lt.apply n) _
  obtain ⟨n, hmeans⟩ := Scheduled.means_init (s q)
  exact Crew.acc_next_of_simulates Scheduled.simulates_means (Crew.acc_next_resumption _) hmeans

/-- From some time on nothing is done but by somebody outside. Where nothing else is left to be
done, the topmost node has completed its receiver once, with what it makes of what the leaves have
completed with. -/
theorem answered_of_idle (hT : WellTyped T) (htop : T.leaf [] = false) (hP : T.Within P)
    (hfits : Fits T s) (w : W) :
    (∀ (f : ℕ → State T ℓ W) (e : ℕ → Event T ℓ), f 0 = .init s w →
      (∀ n, step (f n) (e n) = some (f (n + 1))) →
      ∃ N, ∀ n, N ≤ n → (e n).isExternal = true) ∧
    ∀ (tr : List (Event T ℓ)) st, Run step (.init s w) tr st → Idle st →
      ∃ c, (st.tree.op []).received = [c] ∧ Sends T st.Completed [] c := by
  refine ⟨fun f e hinit hstep => ?_, fun tr st h hidle => ?_⟩
  · have hrun (n : ℕ) : ∃ tr, Run step (.init s w) tr (f n) := by
      induction n with
      | zero => exact ⟨[], run_nil.mpr hinit⟩
      | succ n ih =>
          obtain ⟨tr, htr⟩ := ih
          exact ⟨_, htr.concat (hstep n)⟩
    have hnearer (n : ℕ) : Nearer P ((f (n + 1)).measure P) ((f n).measure P) ∨
        (e n).isExternal = true ∧ (f (n + 1)).measure P = (f n).measure P := by
      obtain ⟨tr, htr⟩ := hrun n
      exact nearer_of_step htr hP (hstep n)
    refine Crew.exists_forall_of_acc (r := Nearer P) (x := fun n => (f n).measure P) ?_
      (fun n hn => (hnearer n).resolve_right fun h => hn h.1)
      fun n => (hnearer n).symm.imp_left And.right
    rw [hinit]
    exact acc_nearer s w
  · obtain ⟨ls, hls⟩ := tree_of_run h
    obtain ⟨c, hsends, hc⟩ :=
      StopTree.sends_of_received hls htop (hidle.received h hT htop hfits)
    exact ⟨c, hc, sends_completed h hsends⟩

/-- A `when_any` of two expressions. -/
def contest : Tree ℕ (List ℕ) where
  leaf p := p != []
  node _ := ⟨2, Nat.two_pos, .whenAny WhenAny.firstSuccessful⟩

/-- One is executed by who services a priority, and notes that; the other waits for a loop. -/
def contestants : Path → Sender Unit (Context Path Unit) ℕ (List (Context Path Unit))
  | 0 :: _ =>
      .startOn (.executor (.priority 1)) (.then_ (.just_ [7]) fun k vs w => (vs, w ++ [k]))
  | _ => .schedule (.executor (.runLoop ()))

theorem wellTyped_contest : WellTyped contest where
  leaf := fun _ _ _ _ => ⟨.stopped, rfl⟩
  node := fun _ _ _ _ _ _ => rfl
  stores := fun _ _ => by
    intro c
    cases c <;> rfl

theorem fits_contest : Fits contest contestants :=
  fun _ _ _ _ _ => Resumption.Keeps.trivial.imp fun _ _ _ => rfl

theorem answered_of_idle_contest :
    (∀ (f : ℕ → State contest Unit (List (Context Path Unit))) (e : ℕ → Event contest Unit),
      f 0 = .init contestants [] → (∀ n, step (f n) (e n) = some (f (n + 1))) →
      ∃ N, ∀ n, N ≤ n → (e n).isExternal = true) ∧
    ∀ (tr : List (Event contest Unit)) st, Run step (.init contestants []) tr st → Idle st →
      ∃ c, (st.tree.op []).received = [c] ∧ Sends contest st.Completed [] c :=
  answered_of_idle wellTyped_contest rfl (StopTree.within_pair (fun _ => rfl) rfl) fits_contest []

/-! ### Nothing goes on afterwards -/

/-- When the topmost node has completed, no leaf is executed or waits. -/
theorem not_at_work (h : Run step (.init s w) tr st) (hreceived : (st.tree.op []).received ≠ [])
    (q : Path) : (st.contexts.job q).place = none ∧ (st.contexts.job q).waitsFor = none := by
  by_cases hfresh : ∃ c, st.contexts.job q = .fresh c
  · obtain ⟨c, hc⟩ := hfresh
    simp [hc]
  · obtain ⟨ls, hls⟩ := tree_of_run h
    obtain ⟨p, i, rfl, hp, hleaf⟩ := (coherent_of_run h).begun q fun c hc => hfresh ⟨c, hc⟩
    have hagree := (coherent_of_run h).leaf p i hleaf
    have hnot : (st.tree.op p).phase i ≠ .running := by
      intro hphase
      have hrunning : st.tree.running (i :: p) = true :=
        StopTree.running_cons.mpr ⟨hp, i, rfl, hphase⟩
      have hthrough :=
        StopTree.through_of_received hls hreceived (i :: p) (List.nil_suffix ..) (by simp)
      simp [hthrough.1] at hrunning
    cases hjob : st.contexts.job (i :: p) with
    | fresh | done => simp
    | queued | running =>
        rw [hjob] at hagree
        exact absurd hagree hnot

theorem contexts_eq_of_step (h : Run step (.init s w) tr st)
    (hreceived : (st.tree.op []).received ≠ []) (hs : step st e = some st') :
    st'.contexts = st.contexts := by
  obtain ⟨ls, hls⟩ := tree_of_run h
  obtain ⟨ls', hls'⟩ := tree_step hs
  have hreceived' : (st'.tree.op []).received ≠ [] := by
    rwa [StopTree.received_of_run hls hreceived hls']
  have hbefore := not_at_work h hreceived
  have hafter := not_at_work (h.concat hs) hreceived'
  cases step_move hs with
  | tree => rfl
  | @start p i k t c _ _ hc =>
      cases Crew.step_turn hc with
      | start => simpa using (hafter (i :: p)).1
  | @take k c hc =>
      cases Crew.step_turn hc with
      | @take q => simpa using (hafter q).1
  | @more p i c hc | @done p i c k r t t' hc =>
      cases Crew.step_turn hc with
      | step hjob =>
          have hjob' : st.contexts.job (i :: p) = _ := hjob
          simpa [hjob'] using (hbefore (i :: p)).1

/-- When the topmost node has completed its receiver, no context executes anything of the program
and nothing of it waits anywhere. All contexts stay as they are, and the receiver is not completed
again. -/
theorem rest_of_received (h : Run step (.init s w) tr st)
    (hreceived : (st.tree.op []).received ≠ []) (hr : Run step st tr' st') :
    (∀ k, st'.contexts.current k = none ∧ st'.contexts.queue k = []) ∧
      st'.contexts = st.contexts ∧ (st'.tree.op []).received = (st.tree.op []).received := by
  have hsame : st'.contexts = st.contexts ∧
      (st'.tree.op []).received = (st.tree.op []).received := by
    refine Run.induction (P := fun _ st' => st'.contexts = st.contexts ∧
      (st'.tree.op []).received = (st.tree.op []).received) ⟨rfl, rfl⟩ ?_ hr
    intro tr' st₁ e st₂ hr₁ ih hs
    have h₁ := run_append.mpr ⟨st, h, hr₁⟩
    obtain ⟨ls, hls⟩ := tree_of_run h₁
    obtain ⟨ls', hls'⟩ := tree_step hs
    have hreceived₁ : (st₁.tree.op []).received ≠ [] := by rwa [ih.2]
    exact ⟨(contexts_eq_of_step h₁ hreceived₁ hs).trans ih.1,
      (StopTree.received_of_run hls hreceived₁ hls').trans ih.2⟩
  refine ⟨fun k => ?_, hsame⟩
  obtain ⟨ls, hls⟩ := contexts_of_run h
  have hplaced := Crew.placed_of_run hls
  rw [hsame.1]
  constructor
  · by_contra hne
    obtain ⟨q, hq⟩ := Option.ne_none_iff_exists'.mp hne
    have hplace := (hplaced.current k q).mp hq
    rw [(not_at_work h hreceived q).1] at hplace
    cases hplace
  · refine List.eq_nil_iff_forall_not_mem.mpr fun q hq => ?_
    have hwaits := (hplaced.queue k q).mp hq
    rw [(not_at_work h hreceived q).2] at hwaits
    cases hwaits

/-- Both are started by who is to run the loop. The first one wins, and the other one is stopped
when the loop gets to it. -/
def contestTrace : List (Event contest Unit) :=
  [.tree (.both [] (.emplaceStopCb true) (.enterRegister [])),
    .tree (.source none (.leaveRegister [] true)), .tree (.op [] .startChildren),
    .start [] (0 : Fin 2) (.runLoop ())] ++ List.replicate 3 (.step [] (0 : Fin 2)) ++
  [.start [] (1 : Fin 2) (.runLoop ()), .step [] (1 : Fin 2), .take (.priority 1)] ++
    List.replicate 5 (.step [] (0 : Fin 2)) ++
  [.tree (.both [] (.act (0 : Fin 2)) (.exchange (.child 0))),
    .tree (.source (some []) (.getNextCb (.child 0) none)), .tree (.op [] (.leave (0 : Fin 2))),
    .take (.runLoop ())] ++ List.replicate 2 (.step [] (1 : Fin 2)) ++
  [.tree (.op [] (.leave (1 : Fin 2))),
    .tree (.both [] (.resetStopCb (1 : Fin 2)) (.unregister [] true)),
    .tree (.op [] (.finish (1 : Fin 2)))]

theorem rest_of_received_contest : ∃ st, Run step (.init contestants []) contestTrace st ∧
    st.contexts.world = [.priority 1] ∧ ∀ tr' st', Run step st tr' st' →
      (∀ k, st'.contexts.current k = none ∧ st'.contexts.queue k = []) ∧
        st'.contexts.world = [.priority 1] ∧ (st'.tree.op []).received = [.value [7]] := by
  have hexec : (exec step (.init contestants []) contestTrace).map
      (fun st => (st.contexts.world, (st.tree.op []).received)) =
        some ([.priority 1], [.value [7]]) := rfl
  obtain ⟨st, hst, hview⟩ := Option.map_eq_some_iff.mp hexec
  obtain ⟨hworld, hreceived⟩ := Prod.mk.inj hview
  refine ⟨st, hst, hworld, fun tr' st' hr => ?_⟩
  obtain ⟨hplaces, hcontexts, hsame⟩ := rest_of_received hst (by simp [hreceived]) hr
  exact ⟨hplaces, by rw [hcontexts, hworld], hsame.trans hreceived⟩

end BaremetalSenders.Program
