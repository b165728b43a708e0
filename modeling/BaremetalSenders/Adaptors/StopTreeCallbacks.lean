import BaremetalSenders.Adaptors.StopTreeLinks

/-!
Where the stop callback of a node is.

The operation state knows it by `stopCb`, the source above by the life of the callback and by
the call of `request_stop` that has it in hand. `Held` says how the two agree, and `Calls` that
the calls of the own source are the ones that the callback and the children have made. So what
waits for a call is known to be able to go on when the call has returned.
-/

namespace BaremetalSenders.StopToken

theorem ListOk.notMem_unregister {κ ρ : Type*} [DecidableEq κ] [DecidableEq ρ] {s : State κ ρ}
    (h : ListOk s) (cb : κ) : cb ∉ (s.unregisterCallback cb).source.callbacks := by
  rw [h.callbacks_unregister cb, h.nodup.mem_erase_iff]
  exact fun hmem => hmem.1 rfl

end BaremetalSenders.StopToken

namespace BaremetalSenders.StopTree

open Join

universe u v

/-! ### At the source above -/

section Held

variable {p : Path} {t t' : SourceState} {cb : StopCb} {called : Bool} {m : SourceLabel}

/-- A call of `request_stop` has the callback in hand. -/
def InHand (t : SourceState) (p : Path) : Prop :=
  ∃ r, t.calls r = .popped p ∨ t.calls r = .running p

/-- `stopCb`, and whether the callback has been called, by the state of the source above. -/
structure Held (p : Path) (t : SourceState) (cb : StopCb) (called : Bool) : Prop where
  unborn : t.life p = .unborn → called = false
  mutex : ∀ b, t.mutex = some (p, b) →
    called = false ∧ cb = if b then .refused else .registered
  listed : p ∈ t.source.callbacks → called = false ∧ cb = .registered
  registered : t.life p = .registered → cb ≠ .refused
  refused : t.life p = .refused → called = false ∧ cb = .refused
  invoking : t.life p = .invoking → called = true ∧ (cb = .refused ∨ cb = .spent)
  constructed : t.life p = .constructed → cb ≠ .refused
  popped : ∀ r, t.calls r = .popped p → called = false ∧ cb = .popped
  running : ∀ r, t.calls r = .running p → called = true ∧ (cb = .popped ∨ cb = .spent)
  inHand : InHand t p → t.life p = .registered ∨ t.life p = .destroyed

theorem held_init (p : Path) : Held p .init .absent false := by
  constructor <;> simp [StopToken.State.init, StopToken.Source.init, InHand]

/-- Whether the callback of `p` has been called, after a step of the source. -/
def calledBy (p : Path) (called : Bool) : SourceLabel → Bool
  | .run _ q | .invoke q => called || q == p
  | _ => called

theorem Held.setCall {r : Caller} {c : StopToken.Call Path} (h : Held p t cb called)
    (hpopped : c ≠ .popped p) (hrunning : c ≠ .running p) : Held p (t.setCall r c) cb called := by
  have hother {r' : Caller} {c' : StopToken.Call Path} (hne : c ≠ c')
      (hr' : (t.setCall r c).calls r' = c') : t.calls r' = c' := by
    rcases eq_or_ne r' r with rfl | hr
    · exact absurd (by simpa using hr') hne
    · simpa [hr] using hr'
  exact { h with
    popped := fun r' hr' => h.popped r' (hother hpopped hr')
    running := fun r' hr' => h.running r' (hother hrunning hr')
    inHand := fun ⟨r', hr'⟩ => h.inHand ⟨r', hr'.imp (hother hpopped) (hother hrunning)⟩ }

/-- The life of another callback goes on. -/
theorem Held.setLife {q : Path} {li : StopToken.Life} (h : Held p t cb called) (hq : p ≠ q) :
    Held p (t.setLife q li) cb called where
  unborn hl := h.unborn (by simpa [hq] using hl)
  mutex := h.mutex
  listed := h.listed
  registered hl := h.registered (by simpa [hq] using hl)
  refused hl := h.refused (by simpa [hq] using hl)
  invoking hl := h.invoking (by simpa [hq] using hl)
  constructed hl := h.constructed (by simpa [hq] using hl)
  popped := h.popped
  running := h.running
  inHand hl := by simpa [hq] using h.inHand hl

theorem Held.called_of_ne {q : Path} (h : Held p t cb called) (hq : p ≠ q) :
    Held p t cb (called || q == p) := by
  rwa [beq_eq_false_iff_ne.mpr hq.symm, Bool.or_false]

/-- The source above takes a step that is not one of the node. -/
theorem Held.above (h : Held p t cb called) (hlist : StopToken.ListOk t)
    (hone : StopToken.OneWinner t) (ht : StopToken.step t m = some t')
    (henter : m ≠ .enterRegister p) (hpop : ∀ r, m ≠ .getNextCb r (some p))
    (hgone : ∀ b, m ≠ .unregister p b) (hinvoked : m = .invoked p → cb ≠ .refused) :
    Held p t' cb (calledBy p called m) := by
  have hnotInHand (hlife : t.life p ≠ .registered) (hlife' : t.life p ≠ .destroyed) :
      ¬ InHand t p := fun hhand => (h.inHand hhand).elim hlife hlife'
  cases StopToken.step_move ht with
  | win => exact { h.setCall (by simp) (by simp) with }
  | lose | finish | ran => exact h.setCall (by simp) (by simp)
  | @pop r q cbs hr hm hcbs =>
      have hne : p ≠ q := fun e => hpop r (by rw [e])
      refine Held.setCall ?_ (by simpa using hne.symm) (by simp)
      exact { h with listed := fun hmem => h.listed (List.mem_of_mem_tail hmem) }
  | @run r q hr =>
      rcases eq_or_ne p q with rfl | hne
      · -- what has the callback in hand calls it
        have hcb := (h.popped r hr).2
        have hlife := h.inHand ⟨r, .inl hr⟩
        have honly {r' : Caller} (hr' : (t.calls r').isWinner = true) : r' = r :=
          hone.unique r' r hr' (by rw [hr]; rfl)
        have hnot {li : StopToken.Life} (h₁ : li ≠ .registered) (h₂ : li ≠ .destroyed) :
            t.life p ≠ li := fun e => (e ▸ hlife).elim h₁ h₂
        refine ⟨fun hl => ?_, fun b hb => ?_, fun hmem => ?_, h.registered, fun hl => ?_,
          fun hl => ?_, h.constructed, fun r' hr' => ?_, fun _ _ => ?_, fun _ => hlife⟩
        · exact absurd hl (hnot (by simp) (by simp))
        · exact absurd (hlist.mutex p b hb).1 (hnot (by simp) (by simp))
        · have hcb' := (h.listed hmem).2
          simp [hcb] at hcb'
        · exact absurd hl (hnot (by simp) (by simp))
        · exact absurd hl (hnot (by simp) (by simp))
        · have hne : r' ≠ r := by
            rintro rfl
            simp at hr'
          have hold : t.calls r' = .popped p := by simpa [hne] using hr'
          exact absurd (honly (by rw [hold]; rfl)) hne
        · exact ⟨by simp [calledBy], .inl hcb⟩
      · exact (h.setCall (by simp) (by simpa using hne.symm)).called_of_ne hne
  | @enterRegister q hlife hm =>
      have hne : p ≠ q := fun e => henter (by rw [e])
      exact { h.setLife hne with mutex := by simp [hne.symm] }
  | @register q hm =>
      rcases eq_or_ne p q with rfl | hne
      · obtain ⟨hcalled, hcb⟩ := h.mutex _ hm
        have hlocked := (hlist.mutex _ _ hm).1
        have hhand := hnotInHand (by simp [hlocked]) (by simp [hlocked])
        refine ⟨by simp, by simp, fun _ => ⟨hcalled, hcb⟩, fun _ => by simp [hcb], by simp, by simp,
          by simp, h.popped, h.running, fun hhand' => absurd hhand' hhand⟩
      · refine { Held.setLife (t := t.pushBack q) ?_ hne with mutex := by simp }
        exact { h with listed := fun hmem => h.listed (by simpa [hne] using hmem) }
  | @refuse q hm =>
      rcases eq_or_ne p q with rfl | hne
      · obtain ⟨hcalled, hcb⟩ := h.mutex _ hm
        have hlife := (hlist.mutex _ _ hm).1
        have hhand := hnotInHand (by simp [hlife]) (by simp [hlife])
        refine ⟨by simp, by simp, fun hmem => ?_, by simp, fun _ => ⟨hcalled, hcb⟩, by simp,
          by simp, h.popped, h.running, fun hhand' => absurd hhand' hhand⟩
        exact absurd (hlist.registered p hmem) (by simp [hlife])
      · exact { h.setLife hne with mutex := by simp }
  | @invoke q hlife =>
      rcases eq_or_ne p q with rfl | hne
      · obtain ⟨hcalled, hcb⟩ := h.refused hlife
        have hhand := hnotInHand (by simp [hlife]) (by simp [hlife])
        refine ⟨by simp, fun b hb => ?_, fun hmem => ?_, by simp, by simp,
          fun _ => ⟨by simp [calledBy], .inl hcb⟩, by simp, fun r hr => ?_, fun r hr => ?_,
          fun hhand' => absurd hhand' hhand⟩
        · exact absurd (hlist.mutex p b hb).1 (by simp [hlife])
        · exact absurd (hlist.registered p hmem) (by simp [hlife])
        · exact absurd ⟨r, .inl hr⟩ hhand
        · exact absurd ⟨r, .inr hr⟩ hhand
      · exact (h.setLife hne).called_of_ne hne
  | @invoked q hlife =>
      rcases eq_or_ne p q with rfl | hne
      · have hhand := hnotInHand (by simp [hlife]) (by simp [hlife])
        refine ⟨by simp, h.mutex, h.listed, by simp, by simp, by simp, fun _ => hinvoked rfl,
          h.popped, h.running, fun hhand' => absurd hhand' hhand⟩
      · exact h.setLife hne
  | @unregister q hlife hm =>
      have hne : p ≠ q := fun e => hgone _ (by rw [e])
      refine Held.setLife ?_ hne
      exact { h with listed := fun hmem => h.listed (StopToken.mem_of_mem_unregister hmem) }

/-- `start` registers the callback. -/
theorem Held.enter (h : Held p t cb called) (hlist : StopToken.ListOk t)
    (ht : StopToken.step t (.enterRegister p) = some t') :
    Held p t' (if t.source.requested then .refused else .registered) called := by
  cases StopToken.step_move ht with
  | enterRegister hlife hm =>
      have hhand : ¬ InHand t p := fun hhand => by simpa [hlife] using h.inHand hhand
      have hcalled := h.unborn hlife
      refine ⟨by simp, fun b hb => ⟨hcalled, ?_⟩, fun hmem => ?_, by simp, by simp, by simp,
        by simp,
        fun r hr => absurd ⟨r, .inl hr⟩ hhand, fun r hr => absurd ⟨r, .inr hr⟩ hhand,
        fun hhand' => absurd hhand' hhand⟩
      · obtain rfl : t.source.requested = b := by simpa using hb
        rfl
      · exact absurd (hlist.registered p hmem) (by simp [hlife])

/-- A call of `request_stop` takes the callback in hand. -/
theorem Held.pop {r : Caller} (h : Held p t cb called) (hlist : StopToken.ListOk t)
    (hone : StopToken.OneWinner t) (ht : StopToken.step t (.getNextCb r (some p)) = some t') :
    Held p t' .popped called := by
  cases StopToken.step_move ht with
  | @pop _ _ cbs hr hm hcbs =>
      have hmem : p ∈ t.source.callbacks := by simp [hcbs]
      obtain ⟨hcalled, -⟩ := h.listed hmem
      have hlife := hlist.registered p hmem
      have hnot : p ∉ cbs := (List.nodup_cons.mp (hcbs ▸ hlist.nodup)).1
      refine ⟨fun _ => hcalled, fun b hb => ?_, fun hmem => ?_, by simp, fun hl => ?_, fun hl => ?_,
        by simp, fun _ _ => ⟨hcalled, rfl⟩, fun r' hr' => ?_, fun _ => .inl hlife⟩
      · exact absurd (hm.symm.trans hb) (by simp)
      · exact absurd (by simpa [hcbs] using hmem) hnot
      · exact absurd (hlife.symm.trans hl) (by simp)
      · exact absurd (hlife.symm.trans hl) (by simp)
      · have hne : r' ≠ r := by
          rintro rfl
          simp at hr'
        have hold : t.calls r' = .running p := by simpa [hne] using hr'
        exact absurd (hone.unique r' r (by rw [hold]; rfl) (by rw [hr]; rfl)) hne

/-- The callback is called and calls `request_stop`. -/
theorem Held.run (h : Held p t cb called) (hcalled : called = true) :
    Held p t .spent called where
  unborn := h.unborn
  mutex b hb := absurd (hcalled.symm.trans (h.mutex b hb).1) (by simp)
  listed hmem := absurd (hcalled.symm.trans (h.listed hmem).1) (by simp)
  registered _ := by simp
  refused hl := absurd (hcalled.symm.trans (h.refused hl).1) (by simp)
  invoking _ := ⟨hcalled, .inr rfl⟩
  constructed _ := by simp
  popped r hr := absurd (hcalled.symm.trans (h.popped r hr).1) (by simp)
  running _ _ := ⟨hcalled, .inr rfl⟩
  inHand := h.inHand

/-- The last child takes the callback down. -/
theorem Held.reset {b : Bool} (h : Held p t cb called) (hlist : StopToken.ListOk t)
    (ht : StopToken.step t (.unregister p b) = some t') :
    Held p t' (if cb = .registered then .absent else cb) called := by
  cases StopToken.step_move ht with
  | unregister hlife hm =>
      refine ⟨by simp, fun b hb => ?_, fun hmem => ?_, by simp, by simp, by simp, by simp,
        fun r hr => ?_, fun r hr => ?_, fun _ => .inr (by simp)⟩
      · exact absurd (hm.symm.trans hb) (by simp)
      · exact absurd hmem (hlist.notMem_unregister p)
      · obtain ⟨hcalled, hcb⟩ := h.popped r hr
        exact ⟨hcalled, by simp [hcb]⟩
      · obtain ⟨hcalled, hcb⟩ := h.running r hr
        rcases hcb with hcb | hcb <;> exact ⟨hcalled, by simp [hcb]⟩

end Held

/-! ### At the own source -/

section Calls

variable {n : ℕ} {V E D : Type*} {ops : Ops n V E D} {o o' : Join.State n V E D}
  {w w' : SourceState} {m : SourceLabel}

structure Calls (o : Join.State n V E D) (w : SourceState) : Prop where
  spent : o.stopCb = .spent ↔ w.calls .stopCb ≠ .idle
  asked : ∀ i : Fin n, w.calls (.child i) ≠ .idle → .requestStop ∉ (o.phase i).todo

/-- The own source takes a step that is not one of the node. -/
theorem Calls.below (h : Calls o w) (hw : StopToken.step w m = some w')
    (hm : m.isExchange = false) : Calls o w' := by
  have hidle (r : Caller) : w'.calls r = .idle ↔ w.calls r = .idle :=
    StopToken.idle_step hw fun e => by simp [e, StopToken.Label.isExchange] at hm
  exact ⟨h.spent.trans (not_congr (hidle _)).symm, fun i hi => h.asked i (mt (hidle _).mpr hi)⟩

/-- The operation state takes a step that does not concern its callback. -/
theorem Calls.own {l : Join.Label n V E} (h : Calls o w) (ho : Join.step ops o l = some o')
    (hcb : o'.stopCb = .spent ↔ o.stopCb = .spent)
    (hrunning : ∀ i : Fin n, o.phase i = .running → w.calls (.child i) = .idle) : Calls o' w := by
  refine ⟨hcb.trans h.spent, fun i hi => ?_⟩
  have hold := h.asked i hi
  have hupdate {j : Fin n} {p : Phase V E D} (hp : ∀ a ∈ p.todo, a ∈ (o.phase j).todo) :
      .requestStop ∉ (Function.update o.phase j p i).todo := by
    rcases eq_or_ne i j with rfl | hne
    · rw [Function.update_self]
      exact fun hmem => hold (hp _ hmem)
    · rwa [Function.update_of_ne hne]
  cases Join.step_move ho with
  | rcvrRequestStop | popStopCb | runStopCb | emplaceStopCb | startStopped | startChildren =>
      exact hold
  | startChild | arrive | arriveLast | ignore | resetStopCb | finish =>
      exact hupdate (by simp [Phase.todo])
  | @complete j c hphase =>
      rcases eq_or_ne i j with rfl | hne
      · exact absurd (hrunning i hphase) hi
      · simpa [hne] using hold
  | @act j c a as hphase =>
      have htail : ∀ b ∈ (Phase.completing c as : Phase V E D).todo, b ∈ (o.phase j).todo := by
        rw [hphase]
        exact fun b hb => List.mem_cons_of_mem a hb
      cases a with
      | update | requestStop => exact hupdate htail

end Calls

/-! ### In the tree -/

variable {V : Type u} {E : Type v} {T : Tree V E} [DecidableEq V] [DecidableEq E]
  {s s' : State T} {tr : List (Label T)} {l : Label T} {p : Path} {x : Option Path}

/-- To request stop is the last thing that is done for a completion. -/
theorem eq_nil_of_requestStop {n : ℕ} {V E : Type*} {kind : Kind n V E} {i : Fin n}
    {c : Completion (List V) E} {d : kind.Data} {as : List (Action kind.Data)}
    (h : .requestStop :: as <:+ kind.ops.rest i c d) : as = [] := by
  have hnone {D : Type _} {as : List (Action D)} (h : .requestStop :: as <:+ []) : as = [] := by
    simp at h
  have hone {D : Type _} {as : List (Action D)} (h : .requestStop :: as <:+ [.requestStop]) :
      as = [] := by
    simpa [List.suffix_cons_iff] using h
  have htwo {D : Type _} {as : List (Action D)} {f : D → D}
      (h : .requestStop :: as <:+ [.update f, .requestStop]) : as = [] := by
    simpa [List.suffix_cons_iff] using h
  cases kind with
  | whenAny policy =>
      simp only [Kind.ops, WhenAny.opState, WhenAny.operation] at h
      split at h
      · exact hone h
      · exact hnone h
  | whenAll children =>
      simp only [Kind.ops, WhenAll.opState, WhenAll.operation] at h
      cases c with
      | value vs => exact hnone h
      | stopped => exact hone h
      | error e =>
          simp only at h
          split at h
          · exact hone h
          · exact htwo h

def HeldAt (s : State T) (p : Path) : Prop :=
  Held p (s.source (token p)) (s.op p).stopCb (s.called p)

def CallsAt (s : State T) (p : Path) : Prop :=
  Calls (s.op p) (s.source (some p))

omit [DecidableEq V] [DecidableEq E] in
theorem calls_init (p : Path) : CallsAt (.init : State T) p where
  spent := by simp [State.init, Ops.initial, StopToken.State.init]
  asked i := by simp [State.init, Ops.initial, Phase.todo]

/-- Nobody but the children and the callback of the node calls `request_stop` on its source. -/
theorem CallsAt.own {jl : T.OpLabel p} {o : T.Op p} (h : CallsAt s p) (hr : Run step .init tr s)
    (hp : T.leaf p = false) (ho : Join.step (T.ops p) (s.view p) jl = some o)
    (hcb : o.stopCb = .spent ↔ (s.op p).stopCb = .spent) : Calls o (s.source (some p)) := by
  have hview : Calls (s.view p) (s.source (some p)) := ⟨h.spent, h.asked⟩
  refine hview.own ho hcb fun i hi => ?_
  by_contra hcalled
  obtain ⟨j, hj, c, d, hc, -⟩ := (linkedAt_of_run hr hp).policy i hcalled
  obtain rfl := Fin.ext hj
  rw [view_phase] at hi
  simp [hi, Phase.completion] at hc

/-- The node and a source take a step together. -/
theorem CallsAt.both {jl : T.OpLabel p} {m : SourceLabel} {o : T.Op p} {t : SourceState}
    (h : CallsAt s p) (hr : Run step .init tr s) (hp : T.leaf p = false) (hpair : Pair s p jl m)
    (ho : Join.step (T.ops p) (s.view p) jl = some o)
    (ht : StopToken.step (s.source (sourceOf p jl)) m = some t) :
    CallsAt ((s.setOp p o).setSource (sourceOf p jl) t) p := by
  obtain ⟨js, hreached⟩ := reached_of_run hr p
  have hne := token_ne p
  rw [CallsAt]
  cases hpair with
  | emplace =>
      have hown := h.own hr hp ho (by
        cases Join.step_move ho with
        | emplaceStopCb _ hpc =>
            have habsent : (s.op p).stopCb = .absent := hreached.stopOk.absent hpc
            simp only [habsent]
            split <;> simp)
      simpa [sourceOf, hne.symm] using hown
  | pop =>
      have hown := h.own hr hp ho (by
        cases Join.step_move ho with
        | popStopCb _ hcb =>
            have hcb : (s.op p).stopCb = .registered := hcb
            simp [hcb])
      simpa [sourceOf, hne.symm] using hown
  | reset =>
      have hown := h.own hr hp ho (by
        cases Join.step_move ho with
        | resetStopCb =>
            change (if (s.op p).stopCb = .registered then _ else _) = _ ↔ _
            split <;> simp_all [State.view])
      simpa [sourceOf, hne.symm] using hown
  | run =>
      simp only [sourceOf, setSource_op, setOp_op, Function.update_self, setSource_source] at ht ⊢
      cases Join.step_move ho with
      | runStopCb =>
          refine ⟨iff_of_true rfl ?_, fun i hi => h.asked i ?_⟩
          · cases StopToken.step_move ht <;> simp
          · exact mt (StopToken.idle_step ht (by simp)).mpr hi
  | @act i hasks =>
      simp only [sourceOf, setSource_op, setOp_op, Function.update_self, setSource_source] at ht ⊢
      cases Join.step_move ho with
      | @act _ c a as hphase =>
          obtain ⟨d, hd⟩ := hreached.recorded.todo i c
            ((hreached.recorded.completion i c).mp (by rw [hphase]; rfl))
          rw [view_phase] at hphase
          rw [view_phase, hphase] at hd
          have ha : a = .requestStop := by
            cases a with
            | update => simp [hphase, asksStop] at hasks
            | requestStop => rfl
          subst ha
          obtain rfl := eq_nil_of_requestStop hd
          refine ⟨?_, fun j hj => ?_⟩
          · have hidle : t.calls .stopCb = .idle ↔ (s.source (some p)).calls .stopCb = .idle :=
              StopToken.idle_step ht (by simp)
            exact h.spent.trans (not_congr hidle).symm
          · rcases eq_or_ne j i with rfl | hij
            · simp [Phase.todo]
            · have hold := h.asked j (mt (StopToken.idle_step ht (by
                simpa using fun e => hij (Fin.ext e).symm)).mpr hj)
              change .requestStop ∉ (Function.update (s.op p).phase i (.completing c []) j).todo
              rwa [Function.update_of_ne hij]

theorem callsAt_of_run (h : Run step .init tr s) (hp : T.leaf p = false) : CallsAt s p := by
  refine Run.induction (P := fun _ s => CallsAt s p) (calls_init p) ?_ h
  intro tr s l s' hr ih hs
  have hcase {x : Option Path} {m : SourceLabel} {t : SourceState}
      (ht : StopToken.step (s.source x) m = some t) (hm : x = some p → m.isExchange = false) :
      Calls (s.op p) (Function.update s.source x t (some p)) := by
    rcases eq_or_ne (some p) x with rfl | hne
    · rw [Function.update_self]
      exact Calls.below ih ht (hm rfl)
    · rw [Function.update_of_ne hne]
      exact ih
  cases step_move hs with
  | @op q jl o _ hl ho =>
      rcases eq_or_ne q p with rfl | hne
      · have hown := ih.own hr hp ho (by
          cases Join.step_move ho with
          | rcvrRequestStop | popStopCb | runStopCb | emplaceStopCb | resetStopCb =>
              simp [State.allowsOp] at hl
          | @act i c a => cases a <;> exact Iff.rfl
          | startStopped | startChildren | startChild | complete | arrive | arriveLast | ignore
          | finish => exact Iff.rfl)
        simpa [CallsAt] using hown
      · simpa [CallsAt, hne.symm] using ih
  | @source x m t hm ht =>
      have hsource := hcase ht fun e => by
        subst e
        cases m with
        | exchange r => cases r <;> simp [State.allowsSource] at hm
        | _ => rfl
      simpa [CallsAt] using hsource
  | @both q jl m o t _ hl ho ht =>
      rcases eq_or_ne q p with rfl | hne
      · exact ih.both hr hp (pair_of_allowsBoth hl) ho ht
      · have hsource := hcase ht fun e => by
          cases pair_of_allowsBoth hl <;> simp_all [sourceOf, StopToken.Label.isExchange]
        simpa [CallsAt, hne.symm] using hsource
  | complete => exact ih

omit [DecidableEq V] [DecidableEq E] in
theorem heldAt_init (p : Path) : HeldAt (.init : State T) p := held_init p

theorem calledBy_of_not_invocation {m : SourceLabel} (hm : m.invocation = none) (p : Path)
    (called : Bool) : calledBy p called m = called := by
  cases m with
  | run | invoke => cases hm
  | exchange | getNextCb | ran | enterRegister | leaveRegister | invoked | unregister => rfl

omit [DecidableEq V] [DecidableEq E] in
theorem called_callBack (s : State T) (m : SourceLabel) (p : Path) :
    (s.callBack m).called p = calledBy p (s.called p) m := by
  have hcase (q : Path) : Function.update s.called q true p = (s.called p || q == p) := by
    rcases eq_or_ne p q with rfl | hne
    · simp
    · simp [hne, hne.symm]
  cases m with
  | run r q | invoke q => exact hcase q
  | exchange | getNextCb | ran | enterRegister | leaveRegister | invoked | unregister => rfl

omit [DecidableEq V] [DecidableEq E] in
/-- A source calls only what is registered at it. -/
theorem calledBy_of_token_ne {m : SourceLabel} (hm : s.allowsSource x m = true)
    (hx : x ≠ token p) (called : Bool) : calledBy p called m = called := by
  have hne {q : Path} (hq : token q = x) : q ≠ p := fun e => hx (e ▸ hq.symm)
  cases m with
  | run r q | invoke q =>
      have hq : token q = x := by simpa [State.allowsSource, callbackOf] using hm
      simp [calledBy, hne hq]
  | exchange | getNextCb | ran | enterRegister | leaveRegister | invoked | unregister => rfl

/-- The node and a source take a step together. -/
theorem HeldAt.both {jl : T.OpLabel p} {m : SourceLabel} {o : T.Op p} {t : SourceState}
    (h : HeldAt s p) (hr : Run step .init tr s) (hpair : Pair s p jl m)
    (ho : Join.step (T.ops p) (s.view p) jl = some o)
    (ht : StopToken.step (s.source (sourceOf p jl)) m = some t) :
    HeldAt ((s.setOp p o).setSource (sourceOf p jl) t) p := by
  have hsource := sourceReached_of_run hr (token p)
  have hne := token_ne p
  cases hpair with
  | emplace =>
      cases Join.step_move ho with
      | emplaceStopCb =>
          simp only [HeldAt, sourceOf, setSource_source, setSource_op, setOp_op,
            Function.update_self]
          exact Held.enter h hsource.listOk ht
  | pop =>
      cases Join.step_move ho with
      | popStopCb =>
          have hnext := Held.pop h hsource.listOk hsource.oneWinner ht
          simpa [HeldAt, sourceOf, State.setOp, State.setSource] using hnext
  | @reset i b =>
      cases Join.step_move ho with
      | resetStopCb =>
          simp only [HeldAt, sourceOf, setSource_source, setSource_op, setOp_op,
            Function.update_self]
          exact Held.reset h hsource.listOk ht
  | run hcalled =>
      cases Join.step_move ho with
      | runStopCb =>
          have hnext := Held.run h hcalled
          simpa [HeldAt, sourceOf, State.setOp, State.setSource, hne] using hnext
  | act =>
      cases Join.step_move ho with
      | @act _ c a as =>
          cases a <;>
            simpa [HeldAt, sourceOf, State.view, State.apply, State.setOp, State.setSource, hne]
              using h

theorem heldAt_of_run (h : Run step .init tr s) (hp : T.leaf p = false) : HeldAt s p := by
  refine Run.induction (P := fun _ s => HeldAt s p) (heldAt_init p) ?_ h
  intro tr s l s' hr ih hs
  have hsource := sourceReached_of_run hr (token p)
  cases step_move hs with
  | @op q jl o _ hl ho =>
      rcases eq_or_ne q p with rfl | hne
      · have hcb : o.stopCb = (s.op q).stopCb := by
          cases Join.step_move ho with
          | rcvrRequestStop | popStopCb | runStopCb | emplaceStopCb | resetStopCb =>
              simp [State.allowsOp] at hl
          | @act i c a => cases a <;> rfl
          | startStopped | startChildren | startChild | complete | arrive | arriveLast | ignore
          | finish => rfl
        simpa [HeldAt, State.setOp, hcb] using ih
      · simpa [HeldAt, State.setOp, hne.symm] using ih
  | @source x m t hm ht =>
      rcases eq_or_ne x (token p) with rfl | hne
      · have hnext : Held p t (s.op p).stopCb (calledBy p (s.called p) m) := by
          refine Held.above ih hsource.listOk hsource.oneWinner ht ?_ (fun r => ?_) (fun b => ?_) ?_
          · rintro rfl
            simp [State.allowsSource, hp] at hm
          · rintro rfl
            simp [State.allowsSource, hp] at hm
          · rintro rfl
            simp [State.allowsSource, hp] at hm
          · rintro rfl hcb
            have hback : ((s.source (some p)).calls .stopCb).isReturned = true := by
              simpa [State.allowsSource, callbackOf, hp] using hm
            have hspent := (callsAt_of_run hr hp).spent.mpr fun e => by
              simp [e, StopToken.Call.isReturned] at hback
            simp [hcb] at hspent
        simpa [HeldAt, called_callBack, State.setSource] using hnext
      · simpa [HeldAt, called_callBack, calledBy_of_token_ne hm hne, State.setSource, hne.symm]
          using ih
  | @both q jl m o t _ hl ho ht =>
      have hpair := pair_of_allowsBoth hl
      rcases eq_or_ne q p with rfl | hne
      · exact ih.both hr hpair ho ht
      · rcases eq_or_ne (sourceOf q jl) (token p) with hx | hx
        · rw [hx] at ht
          have hinvocation : m.invocation = none := by cases hpair <;> rfl
          have hnext : Held p t (s.op p).stopCb (s.called p) := by
            rw [← calledBy_of_not_invocation hinvocation p (s.called p)]
            refine Held.above ih hsource.listOk hsource.oneWinner ht ?_ (fun r => ?_)
              (fun b => ?_) ?_ <;> cases hpair <;> simp [hne]
          simpa [HeldAt, hx, State.setOp, State.setSource, hne.symm] using hnext
        · simpa [HeldAt, State.setOp, State.setSource, hne.symm, hx.symm] using ih
  | complete => exact ih

/-- What is registered at a source has its token. -/
theorem token_of_life (h : Run step .init tr s) (hlife : (s.source x).life p ≠ .unborn) :
    token p = x := by
  refine Run.induction (P := fun _ s => ∀ x p, (s.source x).life p ≠ .unborn → token p = x)
    (fun _ _ h => absurd rfl h) ?_ h x p hlife
  intro tr s l s' hr ih hs x p hlife
  rcases life_step hs x p with hsame | ⟨m, hm, hstep⟩
  · exact ih x p (hsame ▸ hlife)
  · by_cases hold : (s.source x).life p = .unborn
    · have hlist := (sourceReached_of_run hr x).listOk
      generalize (s'.source x).life p = li at hstep hlife
      cases hstep with
      | same => exact absurd hold hlife
      | enter =>
          cases step_move hs with
          | op | complete => cases hm
          | @source y m t hallows =>
              obtain ⟨rfl, rfl⟩ := at_source.mp hm
              simp only [State.allowsSource, callbackOf, Option.all_some, Bool.and_eq_true,
                beq_iff_eq] at hallows
              exact hallows.1
          | @both q jl m o t _ hpair =>
              obtain ⟨rfl, rfl⟩ := at_both.mp hm
              cases pair_of_allowsBoth hpair with
              | emplace => rfl
      | register hmutex | refuse hmutex => simp [(hlist.mutex _ _ hmutex).1] at hold
      | invoke hcb | invoked hcb => simp [hold] at hcb
      | unregister hcb => simp [hold] at hcb
    · exact ih x p hold

end BaremetalSenders.StopTree
