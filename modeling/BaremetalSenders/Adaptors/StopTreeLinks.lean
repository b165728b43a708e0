import BaremetalSenders.Adaptors.StopTreeParts

/-!
What holds between neighbours in a tree.

`Linked` says how a node's operation state, the source its callback is
registered at and its own source fit together, from the calls the node makes of
the two; the other nodes of the tree only make these sources take steps that
leave it true. `Attached` does the same for a node or leaf and its parent: what
has been started, the parent has started, and what the parent has been told of
as completed has completed.
-/

namespace BaremetalSenders.StopTree

open Join

universe u v

/-! ### A node and the two sources it works with -/

section Linked

variable {n : ℕ} {V E D : Type*} {ops : Ops n V E D} {p : Path} {o o' : Join.State n V E D}
  {t t' w w' : SourceState} {us : List SourceLabel}

/-- The operation state with the flags of the source above, `t`, and the own one, `w`. -/
def seen (o : Join.State n V E D) (t w : SourceState) : Join.State n V E D :=
  { o with requested := w.source.requested, rcvrRequested := t.source.requested }

/-- `us` are the steps of the source above. -/
structure Linked (ops : Ops n V E D) (p : Path) (o : Join.State n V E D) (t w : SourceState)
    (us : List SourceLabel) : Prop where
  unborn : t.life p = .unborn ↔ o.pc = .unstarted
  entered : t.life p = .constructing ∨ t.life p = .refused → o.pc = .stopCbEmplaced
  /-- A node whose callback is not registered does not get to its children. -/
  refused : t.mutex = some (p, true) ∨ t.life p = .refused ∨ t.life p = .invoking ∨
    t.life p = .constructed → Barred (seen o t w)
  /-- When the callback is back, so is its `request_stop`. -/
  back : t.life p = .constructed ∨ p ∈ StopToken.completed us →
    (w.calls .stopCb).isReturned = true
  gone : t.life p = .destroyed → ∃ i, (o.phase i).isLast = true
  /-- The own source is asked to stop for a child's completion, -/
  policy : ∀ k, w.calls (.child k) ≠ .idle → ∃ i : Fin n, i = k ∧
    ∃ c d, (o.phase i).completion = some c ∧ .requestStop ∈ ops.rest i c d
  /-- or because the one above is. -/
  cascade : w.calls .stopCb ≠ .idle → t.source.requested = true
  external : ∀ k, w.calls (.external k) = .idle

theorem linked_init (p : Path) : Linked ops p ops.initial .init .init [] where
  unborn := iff_of_true rfl rfl
  entered := by simp [StopToken.State.init]
  refused := by simp [StopToken.State.init]
  back := by simp [StopToken.State.init, StopToken.completed]
  gone := by simp [StopToken.State.init]
  policy := fun _ h => absurd rfl h
  cascade := fun h => absurd rfl h
  external := fun _ => rfl

theorem barred_seen (h : Barred o) (ht : o.rcvrRequested = true → t.source.requested = true)
    (hw : o.requested = true → w.source.requested = true) : Barred (seen o t w) :=
  ⟨ht h.rcvrRequested, h.pc.imp_right (Or.imp_right (And.imp_right (Or.imp_right hw)))⟩

/-- The source above takes a step of its own, or of another node. -/
theorem Linked.above {m : SourceLabel} (h : Linked ops p o t w us) (hlist : StopToken.ListOk t)
    (ht : StopToken.step t m = some t') (henter : m ≠ .enterRegister p)
    (hgone : (∃ b, m = .unregister p b) → ∃ i, (o.phase i).isLast = true)
    (hback : (∃ r, m = .ran r p) ∨ m = .invoked p → (w.calls .stopCb).isReturned = true) :
    Linked ops p o t' w (us ++ [m]) := by
  have hreq : t.source.requested = true → t'.source.requested = true := fun hreq => by
    rw [StopToken.requested_step ht, hreq, Bool.true_or]
  have hmutex (hm : t'.mutex = some (p, true)) : t.mutex = some (p, true) :=
    (StopToken.mutex_step ht hm).resolve_right fun hm => henter hm.1
  have hcompleted (hp : p ∈ StopToken.completed (us ++ [m])) :
      (w.calls .stopCb).isReturned = true := by
    rw [StopToken.completed_concat, List.mem_append] at hp
    rcases hp with hp | hp
    · exact h.back (.inr hp)
    · cases m with
      | ran r q =>
          obtain rfl : p = q := by simpa [StopToken.Label.completion] using hp
          exact hback (.inl ⟨r, rfl⟩)
      | _ => simp [StopToken.Label.completion] at hp
  have hcascade (hw : w.calls .stopCb ≠ .idle) := hreq (h.cascade hw)
  have hbarred (hold : t.mutex = some (p, true) ∨ t.life p = .refused ∨ t.life p = .invoking ∨
      t.life p = .constructed) : Barred (seen o t' w) :=
    barred_seen (o := seen o t w) (h.refused hold) hreq id
  have hnext (hunborn : t'.life p = .unborn ↔ o.pc = .unstarted)
      (hentered : t'.life p = .constructing ∨ t'.life p = .refused → o.pc = .stopCbEmplaced)
      (hrefused : t'.life p = .refused ∨ t'.life p = .invoking ∨ t'.life p = .constructed →
        Barred (seen o t' w))
      (hconstructed : t'.life p = .constructed → (w.calls .stopCb).isReturned = true)
      (hdestroyed : t'.life p = .destroyed → ∃ i, (o.phase i).isLast = true) :
      Linked ops p o t' w (us ++ [m]) := {
    unborn := hunborn
    entered := hentered
    refused := fun hr => hr.elim (fun hm => hbarred (.inl (hmutex hm))) hrefused
    back := fun hp => hp.elim hconstructed hcompleted
    gone := hdestroyed
    policy := h.policy
    cascade := hcascade
    external := h.external }
  have hborn (hold : t.life p ≠ .unborn) : o.pc ≠ .unstarted := fun hpc =>
    hold (h.unborn.mpr hpc)
  have hlife := StopToken.lifeStep_of_step ht p
  generalize hli : t'.life p = li at hlife hnext
  cases hlife with
  | same =>
      exact hnext h.unborn h.entered (fun hr => hbarred (.inr hr)) (fun hl => h.back (.inl hl))
        h.gone
  | enter => exact absurd rfl henter
  | register hm =>
      have hpc := hborn (by simp [(hlist.mutex p false hm).1])
      exact hnext (by simp [hpc]) (by simp) (by simp) (by simp) (by simp)
  | refuse hm =>
      have hold := (hlist.mutex p true hm).1
      have hpc := h.entered (.inl hold)
      exact hnext (by simp [hpc]) (fun _ => hpc) (fun _ => hbarred (.inl hm)) (by simp) (by simp)
  | invoke hold =>
      have hpc := hborn (by simp [hold])
      exact hnext (by simp [hpc]) (by simp) (fun _ => hbarred (.inr (.inl hold))) (by simp)
        (by simp)
  | invoked hold =>
      have hpc := hborn (by simp [hold])
      exact hnext (by simp [hpc]) (by simp) (fun _ => hbarred (.inr (.inr (.inl hold))))
        (fun _ => hback (.inr rfl)) (by simp)
  | unregister hold =>
      have hpc := hborn (by rcases hold with hold | hold <;> simp [hold])
      exact hnext (by simp [hpc]) (by simp) (by simp) (by simp) (fun _ => hgone ⟨_, rfl⟩)

/-- The own source takes a step of its own, or of a child. -/
theorem Linked.below {m : SourceLabel} (h : Linked ops p o t w us)
    (hw : StopToken.step w m = some w') (hm : m.isExchange = false) :
    Linked ops p o t w' us := by
  have hidle (r : Caller) : w'.calls r = .idle ↔ w.calls r = .idle :=
    StopToken.idle_step hw fun e => by simp [e, StopToken.Label.isExchange] at hm
  have hreq : w.source.requested = true → w'.source.requested = true := fun hreq => by
    rw [StopToken.requested_step hw, hreq, Bool.true_or]
  exact { h with
    refused := fun hr => barred_seen (o := seen o t w) (h.refused hr) id hreq
    back := fun hp => StopToken.returned_step hw (h.back hp)
    policy := fun k hk => h.policy k (mt (hidle _).mpr hk)
    cascade := fun hk => h.cascade (mt (hidle _).mpr hk)
    external := fun k => (hidle _).mpr (h.external k) }

/-- The operation state takes a step, by itself or with a call of `request_stop`. -/
theorem Linked.own {tr : List (Join.Label n V E)} {l : Join.Label n V E}
    (h : Linked ops p o t w us) (hn : 0 < n) (hsource : ops.hasStopSource = true)
    (hr : Run (Join.step ops) ops.initial tr (seen o t w))
    (ho : Join.step ops (seen o t w) l = some o') (hemplace : ∀ b, l ≠ .emplaceStopCb b)
    (hstart : l = .startStopped ∨ l = .startChildren →
      t.life p = .registered ∨ t.life p = .constructed)
    (hrcvr : o'.rcvrRequested = true → t.source.requested = true)
    (hreq : o'.requested = true → w'.source.requested = true)
    (hback : (w.calls .stopCb).isReturned = true → (w'.calls .stopCb).isReturned = true)
    (hpolicy : ∀ k, w'.calls (.child k) ≠ .idle → w.calls (.child k) ≠ .idle ∨
      ∃ i : Fin n, i = k ∧ ∃ c d, (o.phase i).completion = some c ∧ .requestStop ∈ ops.rest i c d)
    (hcascade : w'.calls .stopCb ≠ .idle →
      w.calls .stopCb ≠ .idle ∨ t.source.requested = true)
    (hexternal : ∀ k, w.calls (.external k) = .idle → w'.calls (.external k) = .idle) :
    Linked ops p o' t w' us := by
  have hcounted := (Join.reached_of_run hn hr).counted
  have hpc := Join.pc_step hsource ho
  refine {
    unborn := h.unborn.trans ?_
    entered := fun hl => ?_
    refused := fun hl => barred_seen ((h.refused hl).step hsource hcounted ho) hrcvr hreq
    back := fun hp => hback (h.back hp)
    gone := fun hl => hcounted.isLast_step ho (h.gone hl)
    policy := fun k hk => ?_
    cascade := fun hk => (hcascade hk).elim h.cascade id
    external := fun k => hexternal k (h.external k) }
  · cases hpc with
    | same hpc => rw [hpc]; rfl
    | emplace => exact absurd rfl (hemplace _)
    | stopped hpc hpc' | children hpc hpc' | child hpc hpc' =>
        have hpc : o.pc = _ := hpc
        simp [hpc, hpc']
  · have hold := h.entered hl
    have hlife (hst : t.life p = .registered ∨ t.life p = .constructed) : False := by
      rcases hl with hl | hl <;> simp [hl] at hst
    cases hpc with
    | same hpc => exact hpc.trans hold
    | emplace => exact absurd rfl (hemplace _)
    | stopped => exact (hlife (hstart (.inl rfl))).elim
    | children => exact (hlife (hstart (.inr rfl))).elim
    | child hpc => exact absurd (hold.symm.trans hpc) (by simp)
  · obtain ⟨i, hi, c, d, hc, hd⟩ := (hpolicy k hk).elim (h.policy k) id
    exact ⟨i, hi, c, d, (completion_step hn hr ho i c).mpr (.inl hc), hd⟩

/-- `start` constructs the callback. -/
theorem Linked.emplace {b : Bool} (h : Linked ops p o t w us)
    (ho : Join.step ops (seen o t w) (.emplaceStopCb b) = some o')
    (ht : StopToken.step t (.enterRegister p) = some t') :
    Linked ops p o' t' w (us ++ [.enterRegister p]) := by
  have hcompleted : StopToken.completed (us ++ [.enterRegister p]) = StopToken.completed us := by
    simp [StopToken.completed_concat, StopToken.Label.completion]
  cases Join.step_move ho with
  | emplaceStopCb =>
      cases StopToken.step_move ht with
      | enterRegister hlife =>
          exact {
            unborn := by simp
            entered := fun _ => rfl
            refused := fun hl => by
              have hreq : t.source.requested = true := by simpa using hl
              exact ⟨hreq, .inr (.inr ⟨rfl, .inl (if_pos hreq)⟩)⟩
            back := fun hp => h.back (.inr (by simpa [hcompleted] using hp))
            gone := by simp
            policy := h.policy
            cascade := h.cascade
            external := h.external }

end Linked

/-! ### In the tree -/

variable {V : Type u} {E : Type v} {T : Tree V E} [DecidableEq V] [DecidableEq E]
  {s s' : State T} {tr : List (Label T)} {l : Label T} {p : Path} {x : Option Path}

omit [DecidableEq V] [DecidableEq E] in
theorem sourceTrace_concat (tr : List (Label T)) (l : Label T) (x : Option Path) :
    sourceTrace (tr ++ [l]) x = sourceTrace tr x ++ (l.at x).toList := by
  cases h : l.at x <;> simp [sourceTrace, h]

def LinkedAt (tr : List (Label T)) (s : State T) (p : Path) : Prop :=
  Linked (T.ops p) p (s.op p) (s.source (token p)) (s.source (some p)) (sourceTrace tr (token p))

omit [DecidableEq V] [DecidableEq E] in
/-- A node that has no part in a step. -/
theorem LinkedAt.same (h : LinkedAt tr s p) (hop : s'.op p = s.op p)
    (habove : s'.source (token p) = s.source (token p))
    (hbelow : s'.source (some p) = s.source (some p)) (hl : l.at (token p) = none) :
    LinkedAt (tr ++ [l]) s' p := by
  rw [LinkedAt, hop, habove, hbelow, sourceTrace_concat, hl, Option.toList_none, List.append_nil]
  exact h

/-- A source takes a step without the node. -/
theorem LinkedAt.source {m : SourceLabel} {t : SourceState} (h : LinkedAt tr s p)
    (hr : Run step .init tr s) (hop : s'.op p = s.op p)
    (hsource : s'.source = Function.update s.source x t)
    (hl : ∀ y, l.at y = if x = y then some m else none)
    (ht : StopToken.step (s.source x) m = some t)
    (habove : x = token p → m ≠ .enterRegister p ∧ (∀ b, m ≠ .unregister p b) ∧
      ((∃ r, m = .ran r p) ∨ m = .invoked p →
        ((s.source (some p)).calls .stopCb).isReturned = true))
    (hbelow : x = some p → m.isExchange = false) : LinkedAt (tr ++ [l]) s' p := by
  by_cases hx : x = token p
  · subst hx
    obtain ⟨henter, hgone, hback⟩ := habove rfl
    rw [LinkedAt, hop, hsource, Function.update_self, Function.update_of_ne (token_ne p).symm,
      sourceTrace_concat, hl, if_pos rfl]
    refine Linked.above h (sourceReached_of_run hr _).listOk ht henter ?_ hback
    rintro ⟨b, hb⟩
    exact absurd hb (hgone b)
  · have hlt : l.at (token p) = none := (hl _).trans (if_neg hx)
    by_cases hx' : x = some p
    · subst hx'
      rw [LinkedAt, hop, hsource, Function.update_self, Function.update_of_ne (token_ne p),
        sourceTrace_concat, hlt, Option.toList_none, List.append_nil]
      exact Linked.below h ht (hbelow rfl)
    · refine h.same hop ?_ ?_ hlt
      · rw [hsource, Function.update_of_ne (Ne.symm hx)]
      · rw [hsource, Function.update_of_ne (Ne.symm hx')]

/-- The node takes a step alone. -/
theorem LinkedAt.op {jl : T.OpLabel p} {o : T.Op p} (h : LinkedAt tr s p)
    (hr : Run step .init tr s) (hjl : s.allowsOp p jl = true)
    (ho : Join.step (T.ops p) (s.view p) jl = some o) :
    LinkedAt (tr ++ [.op p jl]) (s.setOp p o) p := by
  obtain ⟨js, hjs⟩ := view_of_run hr p
  obtain ⟨hreq, hrcvr⟩ := flags_op hjl ho
  rw [LinkedAt, setOp_op, setOp_source, Function.update_self, sourceTrace_concat, Label.at,
    Option.toList_none, List.append_nil]
  refine Linked.own h (T.node p).arity_pos (hasStopSource_ops _) hjs ho ?_ ?_ ?_ ?_ id
    (fun k hk => .inl hk) .inl fun _ => id
  · rintro b rfl
    simp [State.allowsOp] at hjl
  · rintro (rfl | rfl) <;> simpa [State.allowsOp, State.hasCallback] using hjl
  · rw [hrcvr]; exact id
  · rw [hreq]; exact id

/-- A policy that requests stop does so for a completion that makes it. -/
theorem completion_of_asksStop {n : ℕ} {V E D : Type*} {ops : Ops n V E D}
    {o : Join.State n V E D} {js : List (Join.Label n V E)} {i : Fin n}
    (h : Join.Reached ops js o) (hasks : asksStop (o.phase i) = true) :
    ∃ c d, (o.phase i).completion = some c ∧ .requestStop ∈ ops.rest i c d := by
  cases hphase : o.phase i with
  | completing c as =>
      rw [hphase] at hasks
      obtain ⟨as, rfl⟩ : ∃ as', as = .requestStop :: as' := by
        unfold asksStop at hasks
        split at hasks <;> simp_all
      have hc : (o.phase i).completion = some c := by rw [hphase]; rfl
      obtain ⟨d, hd⟩ := h.recorded.todo i c ((h.recorded.completion i c).mp hc)
      exact ⟨c, d, rfl, hd.subset (by simp [hphase, Phase.todo])⟩
  | idle | running | ignored | done | deciding | finished => simp [hphase, asksStop] at hasks

/-- The node and a source take a step together. -/
theorem LinkedAt.both {jl : T.OpLabel p} {m : SourceLabel} {o : T.Op p} {t : SourceState}
    (h : LinkedAt tr s p) (hr : Run step .init tr s) (hpair : Pair s p jl m)
    (ho : Join.step (T.ops p) (s.view p) jl = some o)
    (ht : StopToken.step (s.source (sourceOf p jl)) m = some t) :
    LinkedAt (tr ++ [.both p jl m]) ((s.setOp p o).setSource (sourceOf p jl) t) p := by
  obtain ⟨js, hjs⟩ := view_of_run hr p
  have hn := (T.node p).arity_pos
  have hreached := Join.reached_of_run hn hjs
  have hlist := (sourceReached_of_run hr (token p)).listOk
  obtain ⟨hreq, hrcvr⟩ := flags_both hpair ho
  have hrcvr : o.rcvrRequested = true → (s.source (token p)).source.requested = true := by
    rw [hrcvr]; exact id
  have hne := token_ne p
  rw [LinkedAt, sourceTrace_concat]
  cases hpair with
  | emplace =>
      simpa [sourceOf, Label.at, hne.symm] using Linked.emplace h ho ht
  | pop =>
      have hown : Linked (T.ops p) p o (s.source (token p)) (s.source (some p))
          (sourceTrace tr (token p)) :=
        Linked.own h hn (hasStopSource_ops _) hjs ho (by simp) (by simp) hrcvr
          (by rw [hreq]; simp [StopToken.Label.isExchange, State.view]) id (fun k hk => .inl hk)
          .inl fun _ => id
      simpa [sourceOf, Label.at, hne.symm] using hown.above hlist ht (by simp) (by simp) (by simp)
  | @reset i b =>
      have hown : Linked (T.ops p) p o (s.source (token p)) (s.source (some p))
          (sourceTrace tr (token p)) :=
        Linked.own h hn (hasStopSource_ops _) hjs ho (by simp) (by simp) hrcvr
          (by rw [hreq]; simp [StopToken.Label.isExchange, State.view]) id (fun k hk => .inl hk)
          .inl fun _ => id
      have hlast : (o.phase i).isLast = true := by
        cases Join.step_move ho
        simp [Phase.isLast]
      simpa [sourceOf, Label.at, hne.symm] using
        hown.above hlist ht (by simp) (fun _ => ⟨i, hlast⟩) (by simp)
  | run =>
      have hasked : (s.source (token p)).source.requested = true := by
        cases Join.step_move ho with
        | runStopCb hcb => exact hreached.stopOk.wanted (hcb.elim (.inr ∘ .inl) .inl)
      have hown : Linked (T.ops p) p o (s.source (token p)) t (sourceTrace tr (token p)) :=
        Linked.own h hn (hasStopSource_ops _) hjs ho (by simp) (by simp) hrcvr
          (fun _ => by simp [StopToken.requested_step ht, StopToken.Label.isExchange])
          (StopToken.returned_step ht)
          (fun k hk => .inl (mt (StopToken.idle_step ht (by simp)).mpr hk)) (fun _ => .inr hasked)
          fun k => (StopToken.idle_step ht (by simp)).mpr
      simpa [sourceOf, Label.at, hne, hne.symm] using hown
  | @act i hasks =>
      have hown : Linked (T.ops p) p o (s.source (token p)) t (sourceTrace tr (token p)) := by
        refine Linked.own h hn (hasStopSource_ops _) hjs ho (by simp) (by simp) hrcvr
          (fun _ => by simp [StopToken.requested_step ht, StopToken.Label.isExchange])
          (StopToken.returned_step ht) (fun k hk => ?_)
          (fun hk => .inl (mt (StopToken.idle_step ht (by simp)).mpr hk))
          fun k => (StopToken.idle_step ht (by simp)).mpr
        rcases eq_or_ne k i with rfl | hki
        · exact .inr ⟨i, rfl, completion_of_asksStop (o := s.view p) hreached hasks⟩
        · exact .inl (mt (StopToken.idle_step ht (by simpa using hki.symm)).mpr hk)
      simpa [sourceOf, Label.at, hne, hne.symm] using hown

theorem linkedAt_of_run (h : Run step .init tr s) (hp : T.leaf p = false) : LinkedAt tr s p := by
  have hinit : LinkedAt [] (.init : State T) p := linked_init p
  refine Run.induction (P := fun tr s => LinkedAt tr s p) hinit ?_ h
  intro tr s l s' hr ih hs
  cases step_move hs with
  | @op q jl o _ hl ho =>
      rcases eq_or_ne q p with rfl | hne
      · exact ih.op hr hl ho
      · exact ih.same (by simp [hne.symm]) rfl rfl rfl
  | @source x m t hm ht =>
      refine ih.source hr (by simp) (by simp) (fun _ => rfl) ht (fun _ => ⟨?_, ?_, ?_⟩) ?_
      · rintro rfl
        simp [State.allowsSource, hp] at hm
      · rintro b rfl
        simp [State.allowsSource, hp] at hm
      · rintro (⟨r, rfl⟩ | rfl) <;> simp_all [State.allowsSource]
      · rintro rfl
        cases m with
        | exchange r => cases r <;> simp [State.allowsSource] at hm
        | _ => rfl
  | @both q jl m o t _ hl ho ht =>
      rcases eq_or_ne q p with rfl | hne
      · exact ih.both hr (pair_of_allowsBoth hl) ho ht
      · refine ih.source hr (by simp [hne.symm]) rfl (fun _ => rfl) ht (fun _ => ?_) fun hx => ?_
        · cases pair_of_allowsBoth hl <;> simp [hne]
        · cases pair_of_allowsBoth hl <;> simp_all [sourceOf, StopToken.Label.isExchange]
  | complete => exact ih.same rfl rfl rfl rfl

/-! ### A node or leaf and its parent -/

theorem op_step (hs : step s l = some s') (p : Path) :
    s'.op p = s.op p ∨ ∃ jl, Join.step (T.ops p) (s.view p) jl = some (s'.op p) ∧
      (l = .op p jl ∧ s.allowsOp p jl = true ∨ ∃ m, l = .both p jl m ∧ Pair s p jl m) := by
  cases step_move hs with
  | @op q jl o _ hl ho =>
      rcases eq_or_ne q p with rfl | hne
      · exact .inr ⟨jl, by simpa using ho, .inl ⟨rfl, hl⟩⟩
      · exact .inl (by simp [hne.symm])
  | source => exact .inl (by simp)
  | @both q jl m o t _ hl ho =>
      rcases eq_or_ne q p with rfl | hne
      · exact .inr ⟨jl, by simpa using ho, .inr ⟨m, rfl, pair_of_allowsBoth hl⟩⟩
      · exact .inl (by simp [hne.symm])
  | complete => exact .inl rfl

theorem life_step (hs : step s l = some s') (x : Option Path) (cb : Path) :
    (s'.source x).life cb = (s.source x).life cb ∨
      ∃ m, l.at x = some m ∧ StopToken.LifeStep cb (s.source x) m ((s'.source x).life cb) := by
  have hsource := source_step hs x
  cases hl : l.at x with
  | none =>
      rw [hl] at hsource
      rw [run_nil.mp hsource]
      exact .inl rfl
  | some m =>
      rw [hl] at hsource
      obtain ⟨t, ht, hrun⟩ := run_cons.mp hsource
      rw [run_nil.mp hrun]
      exact .inr ⟨m, rfl, StopToken.lifeStep_of_step ht cb⟩

theorem done_step (hs : step s l = some s') (h : s.done p = true) : s'.done p = true := by
  cases step_move hs with
  | op | both => exact h
  | source => simpa using h
  | @complete q =>
      rcases eq_or_ne p q with rfl | hne
      · exact Function.update_self ..
      · simpa [hne] using h

/-- A registration is begun by what has been started. -/
theorem running_of_enter (hs : step s l = some s') (hl : l.at x = some (.enterRegister p)) :
    s.running p = true := by
  cases step_move hs with
  | op | complete => cases hl
  | @source y m t hm =>
      obtain ⟨rfl, rfl⟩ := at_source.mp hl
      simp only [State.allowsSource, Bool.and_eq_true] at hm
      exact hm.2.1.2
  | @both q jl m o t _ hpair =>
      obtain ⟨rfl, rfl⟩ := at_both.mp hl
      cases pair_of_allowsBoth hpair with
      | emplace hrunning => exact hrunning

/-- A leaf takes its callback down when it completes. -/
theorem done_of_unregister {b : Bool} (hs : step s l = some s') (hp : T.leaf p = true)
    (hl : l.at x = some (.unregister p b)) : s.done p = true := by
  cases step_move hs with
  | op | complete => cases hl
  | @source y m t hm =>
      obtain ⟨rfl, rfl⟩ := at_source.mp hl
      simp only [State.allowsSource, Bool.and_eq_true] at hm
      exact hm.2.2
  | @both q jl m o t hq hpair =>
      obtain ⟨rfl, rfl⟩ := at_both.mp hl
      cases pair_of_allowsBoth hpair with
      | reset => simp [hp] at hq

/-- A leaf has begun to complete; a node has completed its receiver. -/
structure Completed (s : State T) (p : Path) : Prop where
  leaf : T.leaf p = true → s.done p = true
  node : T.leaf p = false → (s.op p).received ≠ []

theorem Completed.step (h : Completed s p) (hs : StopTree.step s l = some s') :
    Completed s' p where
  leaf := fun hp => done_step hs (h.leaf hp)
  node := fun hp => by
    rcases op_step hs p with hop | ⟨jl, ho, -⟩
    · rw [hop]
      exact h.node hp
    · exact Join.received_step ho (h.node hp)

/-- What is known of a node or leaf from its place below its parent. -/
structure Attached (s : State T) : Prop where
  started : ∀ i p, (s.source (some p)).life (i :: p) ≠ .unborn → T.leaf p = false ∧
    ∃ j : Fin (T.node p).arity, j = i ∧ ((s.op p).phase j).isIdle = false
  completed : ∀ p (i : Fin (T.node p).arity) c, ((s.op p).phase i).completion = some c →
    Completed s (i :: p)
  removed : ∀ p, T.leaf p = true → (s.source (token p)).life p = .destroyed → s.done p = true

omit [DecidableEq V] [DecidableEq E] in
theorem attached_init : Attached (.init : State T) where
  started := fun _ _ h => absurd rfl h
  completed := fun _ _ _ h => by cases h
  removed := fun _ _ h => by cases h

theorem isRunning_iff {V E D : Type*} {p : Phase V E D} : isRunning p = true ↔ p = .running := by
  cases p <;> simp [isRunning]

omit [DecidableEq V] [DecidableEq E] in
theorem running_cons {i : ℕ} : s.running (i :: p) = true ↔
    T.leaf p = false ∧ ∃ j : Fin (T.node p).arity, j = i ∧ (s.op p).phase j = .running := by
  simp only [State.running, Bool.and_eq_true, Bool.not_eq_true', and_congr_right_iff]
  intro _
  constructor
  · intro h
    split at h
    next hi => exact ⟨⟨i, hi⟩, rfl, isRunning_iff.mp h⟩
    next => cases h
  · rintro ⟨j, rfl, hj⟩
    rw [dif_pos j.isLt]
    exact isRunning_iff.mpr hj

/-- What is born has been started by its parent. -/
theorem Attached.step_started (h : Attached s) (hr : Run step .init tr s)
    (hs : StopTree.step s l = some s') {i : ℕ}
    (hborn : (s'.source (some p)).life (i :: p) ≠ .unborn) : T.leaf p = false ∧
    ∃ j : Fin (T.node p).arity, j = i ∧ ((s'.op p).phase j).isIdle = false := by
  have hkeep : (T.leaf p = false ∧ ∃ j : Fin (T.node p).arity, j = i ∧
      ((s.op p).phase j).isIdle = false) → T.leaf p = false ∧
      ∃ j : Fin (T.node p).arity, j = i ∧ ((s'.op p).phase j).isIdle = false := by
    rintro ⟨hp, j, hj, hidle⟩
    refine ⟨hp, j, hj, ?_⟩
    rcases op_step hs p with hop | ⟨jl, ho, -⟩
    · rwa [hop]
    · rcases Join.isIdle_step ho j with hsame | ⟨-, hnot⟩
      · exact hsame.trans hidle
      · exact hnot
  by_cases hold : (s.source (some p)).life (i :: p) = .unborn
  · have hlist := (sourceReached_of_run hr (some p)).listOk
    refine hkeep ?_
    rcases life_step hs (some p) (i :: p) with hsame | ⟨m, hm, hlife⟩
    · exact absurd (hsame.trans hold) hborn
    · generalize (s'.source (some p)).life (i :: p) = li at hlife hborn
      cases hlife with
      | same => exact absurd hold hborn
      | enter =>
          obtain ⟨hp, j, hj, hrunning⟩ := running_cons.mp (running_of_enter hs hm)
          exact ⟨hp, j, hj, by rw [hrunning]; rfl⟩
      | register hmutex | refuse hmutex => simp [(hlist.mutex _ _ hmutex).1] at hold
      | invoke hcb | invoked hcb => simp [hold] at hcb
      | unregister hcb => simp [hold] at hcb
  · exact hkeep (h.started i p hold)

theorem Attached.step_completed (h : Attached s) (hr : Run step .init tr s)
    (hs : StopTree.step s l = some s') {i : Fin (T.node p).arity} {c : Completion (List V) E}
    (hc : ((s'.op p).phase i).completion = some c) : Completed s' (i :: p) := by
  refine Completed.step (s := s) ?_ hs
  rcases op_step hs p with hop | ⟨jl, ho, hwho⟩
  · exact h.completed p i c (hop ▸ hc)
  · obtain ⟨js, hjs⟩ := view_of_run hr p
    rcases (Join.completion_step (T.node p).arity_pos hjs ho i c).mp hc with hold | rfl
    · exact h.completed p i c hold
    · rcases hwho with ⟨-, hallowed⟩ | ⟨m, -, hpair⟩
      · simp only [State.allowsOp] at hallowed
        exact ⟨fun hp => by simpa [hp] using hallowed, fun hp => by simp_all⟩
      · cases hpair

theorem Attached.step_removed (h : Attached s) (hs : StopTree.step s l = some s')
    (hp : T.leaf p = true) (hgone : (s'.source (token p)).life p = .destroyed) :
    s'.done p = true := by
  refine done_step hs ?_
  rcases life_step hs (token p) p with hsame | ⟨m, hm, hlife⟩
  · exact h.removed p hp (hsame ▸ hgone)
  · generalize hli : (s'.source (token p)).life p = li at hlife hgone
    cases hlife with
    | same => exact h.removed p hp hgone
    | unregister => exact done_of_unregister hs hp hm
    | enter | register | refuse | invoke | invoked => cases hgone

theorem attached_of_run (h : Run step .init tr s) : Attached s := by
  refine Run.induction (P := fun _ s => Attached s) attached_init ?_ h
  exact fun tr s l s' hr ih hs => ⟨fun i p => ih.step_started hr hs,
    fun p i c => ih.step_completed hr hs, fun p => ih.step_removed hs⟩

end BaremetalSenders.StopTree
