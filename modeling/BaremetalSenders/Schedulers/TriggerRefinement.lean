import BaremetalSenders.Schedulers.TriggerQueue
import Mathlib.Data.List.Pairwise

/-!
The trigger manager refines the queue it is meant to be, as long as no `dequeue`
hits the end of a detached list.

`Represents s a` reads every list object of the concrete state as the list the
specification has in its place. The lists are pairwise disjoint, so an
operation on one of them frames the others. The only step that needs more is
`dequeue`: it calls `remove` on the member list whatever list the task is
linked in, and that is right in the member list and at an interior node of any
other, and nowhere else.
-/

namespace BaremetalSenders.Trigger

open IntrusiveList

variable {α : Type*}

def FrameRep (h : Links α) (f : Frame α) (c : Call α) : Prop :=
  f.task = c.task ∧
    match f.q, c.snapshot with
    | .shared, none => True
    | .detached l, some xs => Holds h l xs
    | _, _ => False

structure Represents (s : State α) (a : Spec α) : Prop where
  waiting : Holds s.mgr.links s.mgr.tasks a.waiting
  frames : List.Forall₂ (FrameRep s.mgr.links) s.frames a.calls
  nodup : a.outstanding.Nodup
  pending : ∀ t, s.mgr.pending t = true ↔ t ∈ a.outstanding
  count : s.mgr.taskCount = a.outstanding.length + a.running.length

theorem represents_init : Represents (State.init : State α) Spec.init where
  waiting := holds_empty
  frames := .nil
  nodup := List.nodup_nil
  pending := by simp [State.init, Manager.init, Spec.init, Spec.outstanding]
  count := rfl

section Frames

variable {h h' : Links α} {f : Frame α} {c : Call α} {fs : List (Frame α)} {cs : List (Call α)}

theorem FrameRep.frame (hf : FrameRep h f c)
    (hag : ∀ x ∈ c.held, h'.prev x = h.prev x ∧ h'.next x = h.next x) :
    FrameRep h' f c := by
  obtain ⟨q, u⟩ := f
  obtain ⟨_ | xs, v⟩ := c <;> cases q <;> simp_all [FrameRep, Call.held]
  case some.detached l => exact hf.2.frame hag

/-- A task in a call's snapshot is in a list object of the activation. -/
theorem FrameRep.detached (hf : FrameRep h f c) {t : α} (ht : t ∈ c.held) :
    ∃ l, f.q = .detached l ∧ c.snapshot = some c.held ∧ Holds h l c.held := by
  obtain ⟨q, u⟩ := f
  obtain ⟨_ | xs, v⟩ := c <;> cases q <;> simp_all [FrameRep, Call.held]

theorem FrameRep.local_list (hf : FrameRep h f c) :
    f.q = .shared ∧ c.held = [] ∨ ∃ l, f.q = .detached l ∧ Holds h l c.held := by
  obtain ⟨q, u⟩ := f
  obtain ⟨_ | xs, v⟩ := c <;> cases q <;> simp_all [FrameRep, Call.held]

/-- The calls' tasks are where their activations' are. -/
theorem running_eq (hfs : List.Forall₂ (FrameRep h) fs cs) :
    fs.filterMap Frame.task = cs.filterMap Call.task := by
  induction hfs with
  | nil => rfl
  | cons hf _ ih => simp [List.filterMap_cons, hf.1, ih]

theorem forall₂_frame (hfs : List.Forall₂ (FrameRep h) fs cs)
    (hag : ∀ x ∈ cs.reverse.flatMap Call.held, h'.prev x = h.prev x ∧ h'.next x = h.next x) :
    List.Forall₂ (FrameRep h') fs cs := by
  induction hfs with
  | nil => exact .nil
  | @cons f c fs cs hf _ ih =>
      simp only [List.reverse_cons, List.flatMap_append, List.mem_append] at hag
      exact .cons (hf.frame fun x hx => hag x (.inr (by simpa using hx)))
        (ih fun x hx => hag x (.inl hx))

end Frames

section Lists

variable {s : State α} {a : Spec α} {c c' : Call α} {x t : α}

theorem Represents.callable_eq (hr : Represents s a) : s.callable = a.callable := by
  obtain ⟨m, fs⟩ := s
  obtain ⟨w, cs⟩ := a
  cases hr.frames with
  | nil => rfl
  | cons hf _ => simp [State.callable, Spec.callable, hf.1]

theorem mem_outstanding :
    x ∈ a.outstanding ↔ (∃ c ∈ a.calls, x ∈ c.held) ∨ x ∈ a.waiting := by
  simp [Spec.outstanding]

/-- No task is both waiting and in a snapshot. -/
theorem Represents.notMem_waiting (hr : Represents s a) (hc : c ∈ a.calls) (hx : x ∈ c.held) :
    x ∉ a.waiting := fun hw =>
  (List.nodup_append.mp hr.nodup).2.2 x
    (List.mem_flatMap.mpr ⟨c, List.mem_reverse.mpr hc, hx⟩) x hw rfl

/-- No task is in the snapshots of two calls. -/
theorem Represents.held_unique (hr : Represents s a) (hc : c ∈ a.calls) (hc' : c' ∈ a.calls)
    (hx : x ∈ c.held) (hx' : x ∈ c'.held) : c = c' := by
  by_contra hne
  have hpair := (List.nodup_flatMap.mp (List.nodup_append.mp hr.nodup).1).2
  have hsymm : Std.Symm (Function.onFun (List.Disjoint (α := α)) Call.held) :=
    ⟨fun _ _ hd _ hx hy => hd hy hx⟩
  exact hpair.forall (List.mem_reverse.mpr hc) (List.mem_reverse.mpr hc') hne hx hx'

theorem Represents.pending_eq_false (hr : Represents s a) (ht : t ∉ a.outstanding) :
    s.mgr.pending t = false := by
  simpa using fun hp => ht ((hr.pending t).mp hp)

/-- The list object the task is linked in; the others share no task with it. -/
theorem Represents.owner (hr : Represents s a) (ht : t ∈ a.outstanding) :
    ∃ l ys, Holds s.mgr.links l ys ∧ t ∈ ys ∧
      (∀ c ∈ a.calls, t ∉ c.held → ∀ x ∈ c.held, x ∉ ys) ∧
      (t ∉ a.waiting → ∀ x ∈ a.waiting, x ∉ ys) := by
  rcases mem_outstanding.mp ht with ⟨c₀, hc₀, ht₀⟩ | hw
  · obtain ⟨i, hi, rfl⟩ := List.getElem_of_mem hc₀
    have hlen := hr.frames.length_eq
    obtain ⟨l, -, -, hl⟩ := (hr.frames.get (by omega) hi).detached ht₀
    refine ⟨l, _, hl, ht₀, fun c hc hnot x hx hx₀ => ?_,
      fun _ x hx hx₀ => hr.notMem_waiting hc₀ hx₀ hx⟩
    exact hnot (hr.held_unique hc hc₀ hx hx₀ ▸ ht₀)
  · exact ⟨_, _, hr.waiting, hw, fun c hc _ x hx => hr.notMem_waiting hc hx,
      fun hnot => absurd hw hnot⟩

/-- A list an activation has moved to itself holds outstanding tasks. -/
theorem Represents.detached (hr : Represents s a) {l : Ends α} {u : Option α}
    (hf : ⟨.detached l, u⟩ ∈ s.frames) :
    ∃ xs, Holds s.mgr.links l xs ∧ ∀ x ∈ xs, x ∈ a.outstanding := by
  obtain ⟨i, hi, hget⟩ := List.getElem_of_mem hf
  have hlen := hr.frames.length_eq
  have hrep := hr.frames.get hi (by omega)
  simp only [List.get_eq_getElem, hget] at hrep
  rcases hrep.local_list with ⟨h, -⟩ | ⟨l', h, hl⟩
  · cases h
  · cases h
    exact ⟨_, hl, fun x hx => mem_outstanding.mpr (.inl ⟨_, List.getElem_mem _, hx⟩)⟩

end Lists

/-! ### The steps -/

section Steps

variable [DecidableEq α] {s : State α} {a : Spec α} {t : α}

theorem Manager.enqueue_of_pending {m : Manager α} (hp : m.pending t = true) :
    m.enqueue t = (false, m) := by
  have hup : Function.update m.pending t true = m.pending := by
    rw [← hp, Function.update_eq_self]
  simp [Manager.enqueue, hp, hup]

theorem Manager.dequeue_of_not_pending {m : Manager α} (hp : m.pending t = false) :
    m.dequeue t = (false, m) := by
  have hup : Function.update m.pending t false = m.pending := by
    rw [← hp, Function.update_eq_self]
  simp [Manager.dequeue, hp, hup]

theorem Represents.enqueued (hr : Represents s a) :
    Represents { s with mgr := (s.mgr.enqueue t).2 } (a.enqueued t) := by
  by_cases hmem : t ∈ a.outstanding
  · rw [Manager.enqueue_of_pending ((hr.pending t).mpr hmem), Spec.enqueued, if_pos hmem]
    exact hr
  · have hp := hr.pending_eq_false hmem
    have hnew : t ∉ a.calls.reverse.flatMap Call.held ∧ t ∉ a.waiting := by
      simpa [Spec.outstanding] using hmem
    have hdisj := (List.nodup_append.mp hr.nodup).2.2
    have hout : Spec.outstanding { a with waiting := a.waiting ++ [t] } =
        a.outstanding ++ [t] := by simp [Spec.outstanding]
    rw [Spec.enqueued, if_neg hmem]
    simp only [Manager.enqueue, hp, Bool.not_false, if_true]
    refine ⟨hr.waiting.pushBack hnew.2, forall₂_frame hr.frames fun x hx => ?_, ?_, ?_, ?_⟩
    · exact pushBack_agree hr.waiting (fun hw => hdisj x hx x hw rfl)
        fun e => hnew.1 (e ▸ hx)
    · rw [hout]
      exact List.nodup_append.mpr
        ⟨hr.nodup, by simp, fun x hx y hy e => hmem (by simp_all)⟩
    · intro u
      rw [hout]
      by_cases hu : u = t <;> simp [hu, hr.pending u]
    · have hcount := hr.count
      simp only [hout, List.length_append, List.length_singleton, Spec.running] at hcount ⊢
      push_cast
      omega

theorem Represents.enqueue (hr : Represents s a) (hc : s.callable = true) :
    ∃ a', a.step (.enqueue t (s.mgr.enqueue t).1) = some a' ∧
      Represents { s with mgr := (s.mgr.enqueue t).2 } a' := by
  have hcall := hr.callable_eq ▸ hc
  refine ⟨a.enqueued t, ?_, hr.enqueued⟩
  by_cases hmem : t ∈ a.outstanding
  · have hsame := Manager.enqueue_of_pending ((hr.pending t).mpr hmem)
    simp [Spec.step, Spec.enqueued, hcall, hsame, hmem]
  · have hp := hr.pending_eq_false hmem
    simp [Spec.step, Spec.enqueued, hcall, Manager.enqueue, hp, hmem]

/-- A task in a snapshot that is at neither end of it. -/
theorem Represents.interior {f : Frame α} {c : Call α} (hf : f ∈ s.frames)
    (hrep : FrameRep s.mgr.links f c) (ht : t ∈ c.held) (hin : ¬ s.AtDetachedEnd t) :
    ∃ l x y, f.q = .detached l ∧ c.snapshot = some (x ++ t :: y) ∧
      Holds s.mgr.links l (x ++ t :: y) ∧ x ≠ [] ∧ y ≠ [] := by
  obtain ⟨l, hq, hsnap, hl⟩ := hrep.detached ht
  obtain ⟨x, y, hxy⟩ := List.append_of_mem ht
  refine ⟨l, x, y, hq, hxy ▸ hsnap, hxy ▸ hl, fun e => hin ⟨f, hf, ?_⟩,
    fun e => hin ⟨f, hf, ?_⟩⟩
  · simp [hq, Queue.hasEnd, hl.head, hxy, e]
  · simp [hq, Queue.hasEnd, hl.tail, hxy, e]

/-- After `remove` on the member list the member list is the waiting tasks. -/
theorem Represents.remove_waiting (hr : Represents s a) (ht : t ∈ a.outstanding)
    (hin : ¬ s.AtDetachedEnd t) :
    Holds (IntrusiveList.remove s.mgr.links s.mgr.tasks t).1
      (IntrusiveList.remove s.mgr.links s.mgr.tasks t).2 (a.withdraw t).waiting := by
  by_cases hw : t ∈ a.waiting
  · obtain ⟨x, y, hxy⟩ := List.append_of_mem hw
    have hwait := hxy ▸ hr.waiting
    simpa only [Spec.withdraw, hxy, filter_ne_append_cons hwait.nodup] using hwait.remove
  · obtain ⟨l, ys, hl, hys, -, hdisj⟩ := hr.owner ht
    obtain ⟨c₀, hc₀, ht₀⟩ := (mem_outstanding.mp ht).resolve_right hw
    obtain ⟨i, hi, rfl⟩ := List.getElem_of_mem hc₀
    have hlen := hr.frames.length_eq
    obtain ⟨l₀, x, y, -, -, hl₀, hx, hy⟩ :=
      Represents.interior (List.getElem_mem (by omega)) (hr.frames.get (by omega) hi) ht₀ hin
    rw [(hl₀.remove_interior hx hy s.mgr.tasks).2]
    simp only [Spec.withdraw, filter_ne_of_notMem hw]
    exact hr.waiting.frame fun z hz => remove_agree hl hys _ (hdisj hw z hz)

/-- After `remove` on the member list a snapshot has lost the task if it had it. -/
theorem Represents.remove_frame (hr : Represents s a) (ht : t ∈ a.outstanding)
    (hin : ¬ s.AtDetachedEnd t) {f : Frame α} {c : Call α} (hf : f ∈ s.frames)
    (hc : c ∈ a.calls) (hrep : FrameRep s.mgr.links f c) :
    FrameRep (IntrusiveList.remove s.mgr.links s.mgr.tasks t).1 f (c.withdraw t) := by
  by_cases hmem : t ∈ c.held
  · obtain ⟨l, x, y, hq, hsnap, hl, hx, hy⟩ := Represents.interior hf hrep hmem hin
    have hnew := (hl.remove_interior hx hy s.mgr.tasks).1
    refine ⟨hrep.1, ?_⟩
    simpa only [hq, Call.withdraw, hsnap, Option.map_some,
      filter_ne_append_cons hl.nodup] using hnew
  · obtain ⟨l, ys, hl, hys, hdisj, -⟩ := hr.owner ht
    rw [Call.withdraw_of_notMem hmem]
    exact hrep.frame fun x hx => remove_agree hl hys _ (hdisj c hc hmem x hx)

theorem forall₂_withdraw {h h' : Links α} {fs : List (Frame α)} {cs : List (Call α)}
    (hfs : List.Forall₂ (FrameRep h) fs cs)
    (hstep : ∀ f ∈ fs, ∀ c ∈ cs, FrameRep h f c → FrameRep h' f (c.withdraw t)) :
    List.Forall₂ (FrameRep h') fs (cs.map (Call.withdraw t)) := by
  induction hfs with
  | nil => exact .nil
  | cons hf _ ih =>
      exact .cons (hstep _ (by simp) _ (by simp) hf)
        (ih fun f hf c hc => hstep f (by simp [hf]) c (by simp [hc]))

theorem Represents.withdrawn (hr : Represents s a) (hin : ¬ s.AtDetachedEnd t) :
    Represents { s with mgr := (s.mgr.dequeue t).2 } (a.withdraw t) := by
  by_cases hmem : t ∈ a.outstanding
  · have hp := (hr.pending t).mpr hmem
    simp only [Manager.dequeue, hp, if_true]
    refine ⟨hr.remove_waiting hmem hin, forall₂_withdraw hr.frames fun f hf c hc hrep =>
      hr.remove_frame hmem hin hf hc hrep, ?_, ?_, ?_⟩
    · rw [Spec.outstanding_withdraw]
      exact hr.nodup.filter _
    · intro u
      rw [Spec.outstanding_withdraw]
      by_cases hu : u = t <;> simp [hu, hr.pending u]
    · have hpos := List.length_pos_of_mem hmem
      have hcount := hr.count
      simp only [Spec.outstanding_withdraw, filter_ne_eq_erase hr.nodup,
        List.length_erase_of_mem hmem, Spec.running_withdraw]
      omega
  · rw [Manager.dequeue_of_not_pending (hr.pending_eq_false hmem), Spec.withdraw_of_notMem hmem]
    exact hr

theorem Represents.dequeue (hr : Represents s a) (hc : s.callable = true)
    (hin : ¬ s.AtDetachedEnd t) :
    ∃ a', a.step (.dequeue t (s.mgr.dequeue t).1) = some a' ∧
      Represents { s with mgr := (s.mgr.dequeue t).2 } a' := by
  have hcall := hr.callable_eq ▸ hc
  refine ⟨a.withdraw t, ?_, hr.withdrawn hin⟩
  by_cases hmem : t ∈ a.outstanding
  · have hp := (hr.pending t).mpr hmem
    simp [Spec.step, hcall, Manager.dequeue, hp, hmem]
  · have hsame := Manager.dequeue_of_not_pending (hr.pending_eq_false hmem)
    simp [Spec.step, hcall, hsame, hmem]

omit [DecidableEq α] in
theorem Represents.called (hr : Represents s a) (rqp : RequeuePolicy) :
    Represents ⟨(rqp.getQueue s.mgr).2, ⟨(rqp.getQueue s.mgr).1, none⟩ :: s.frames⟩
      (a.called rqp) := by
  have hout : (a.called rqp).outstanding = a.outstanding := by
    cases rqp <;> simp [Spec.called, Spec.outstanding, Call.held]
  cases rqp with
  | immediate =>
      exact ⟨hr.waiting, .cons ⟨rfl, trivial⟩ hr.frames, hout ▸ hr.nodup, hout ▸ hr.pending,
        hout ▸ hr.count⟩
  | deferred =>
      exact ⟨holds_empty, .cons ⟨rfl, hr.waiting⟩ hr.frames, hout ▸ hr.nodup,
        hout ▸ hr.pending, hout ▸ hr.count⟩

theorem Represents.run (hr : Represents s a) (hc : s.callable = true) (rqp : RequeuePolicy) :
    ∃ a', a.step (.run rqp) = some a' ∧
      Represents ⟨(rqp.getQueue s.mgr).2, ⟨(rqp.getQueue s.mgr).1, none⟩ :: s.frames⟩ a' := by
  have hcall := hr.callable_eq ▸ hc
  refine ⟨a.called rqp, ?_, hr.called rqp⟩
  cases rqp <;> exact if_pos hcall

/-- The bookkeeping of a task that leaves the outstanding ones to be run. -/
theorem Represents.started (hr : Represents s a) {a' : Spec α} {older rest : List α}
    (hout : a.outstanding = older ++ t :: rest) (hout' : a'.outstanding = older ++ rest)
    (hrun : a'.running.length = a.running.length + 1) :
    a'.outstanding.Nodup ∧
      (∀ u, Function.update s.mgr.pending t false u = true ↔ u ∈ a'.outstanding) ∧
      s.mgr.taskCount = a'.outstanding.length + a'.running.length := by
  have hdrop : a'.outstanding = a.outstanding.filter (· ≠ t) := by
    rw [hout', hout, filter_ne_append_cons (hout ▸ hr.nodup)]
  refine ⟨hdrop ▸ hr.nodup.filter _, fun u => ?_, ?_⟩
  · by_cases hu : u = t <;> simp [hdrop, hu, hr.pending u]
  · have hcount := hr.count
    simp only [hout', hout, hrun, List.length_append, List.length_cons] at hcount ⊢
    push_cast at hcount ⊢
    omega

theorem Represents.start (hr : Represents s a) {s' : State α}
    (h : step s (.start t) = some s') :
    ∃ a', a.step (.start t) = some a' ∧ Represents s' a' := by
  obtain ⟨m, fs⟩ := s
  obtain ⟨w, cs⟩ := a
  cases hr.frames with
  | nil => cases h
  | @cons f c fs cs hf htail =>
      obtain ⟨q, _ | u⟩ := f
      case some => cases h
      obtain ⟨b, v⟩ := c
      obtain rfl : none = v := hf.1
      simp only [step] at h
      split at h <;> cases h
      rename_i hhead
      -- The links of the other lists are not touched by popping this one.
      have hdisj := (List.nodup_append.mp (Spec.outstanding_cons w ⟨b, none⟩ cs ▸ hr.nodup)).2.2
      cases q with
      | shared =>
          cases b with
          | some xs => exact hf.2.elim
          | none =>
              obtain ⟨rest, rfl⟩ : ∃ rest, w = t :: rest := by
                have := hr.waiting.head.symm.trans hhead
                cases w <;> simp_all
              have hstep : Spec.step ⟨t :: rest, ⟨none, none⟩ :: cs⟩ (.start t) =
                  some ⟨rest, ⟨none, some t⟩ :: cs⟩ := by simp [Spec.step]
              obtain ⟨_, hout, hout'⟩ := Spec.outstanding_of_start hstep
              obtain ⟨hnd, hpend, hcount⟩ := hr.started hout hout' (by simp [Spec.running])
              refine ⟨_, hstep, hr.waiting.popFront, .cons ⟨rfl, trivial⟩ ?_, hnd, hpend, hcount⟩
              exact forall₂_frame htail fun x hx => popFront_agree hr.waiting fun hw =>
                hdisj x hx x (by simpa [Call.held] using hw) rfl
      | detached l =>
          cases b with
          | none => exact hf.2.elim
          | some xs =>
              have hl : Holds m.links l xs := hf.2
              obtain ⟨rest, rfl⟩ : ∃ rest, xs = t :: rest := by
                have := hl.head.symm.trans hhead
                cases xs <;> simp_all
              have hstep : Spec.step ⟨w, ⟨some (t :: rest), none⟩ :: cs⟩ (.start t) =
                  some ⟨w, ⟨some rest, some t⟩ :: cs⟩ := by simp [Spec.step]
              obtain ⟨_, hout, hout'⟩ := Spec.outstanding_of_start hstep
              obtain ⟨hnd, hpend, hcount⟩ := hr.started hout hout' (by simp [Spec.running])
              refine ⟨_, hstep, ?_, .cons ⟨rfl, hl.popFront⟩ ?_, hnd, hpend, hcount⟩
              · exact hr.waiting.frame fun x hx => popFront_agree hl fun hmem =>
                  hr.notMem_waiting (c := ⟨some (t :: rest), none⟩) (by simp)
                    (by simpa [Call.held] using hmem) hx
              · exact forall₂_frame htail fun x hx => popFront_agree hl fun hmem =>
                  hdisj x hx x (by simp only [Call.held, Option.getD_some, List.mem_append]
                                   exact .inl hmem) rfl

theorem Represents.finish (hr : Represents s a) {s' : State α}
    (h : step s (.finish t) = some s') :
    ∃ a', a.step (.finish t) = some a' ∧ Represents s' a' := by
  obtain ⟨m, fs⟩ := s
  obtain ⟨w, cs⟩ := a
  cases hr.frames with
  | nil => cases h
  | @cons f c fs cs hf htail =>
      obtain ⟨q, _ | u⟩ := f
      case none => cases h
      obtain ⟨b, v⟩ := c
      obtain rfl : some u = v := hf.1
      simp only [step] at h
      split at h <;> cases h
      rename_i hu
      subst hu
      have hout : Spec.outstanding ⟨w, ⟨b, none⟩ :: cs⟩ =
          Spec.outstanding ⟨w, ⟨b, some u⟩ :: cs⟩ := by simp [Spec.outstanding, Call.held]
      have hcount := hr.count
      refine ⟨⟨w, ⟨b, none⟩ :: cs⟩, by simp [Spec.step], hr.waiting, .cons ⟨rfl, hf.2⟩ htail,
        hout ▸ hr.nodup, hout ▸ hr.pending, ?_⟩
      simp only [hout, Spec.running, List.filterMap_cons, List.length_cons] at hcount ⊢
      push_cast at hcount
      omega

theorem Represents.ret (hr : Represents s a) {s' : State α}
    (h : step s .ret = some s') :
    ∃ a', a.step .ret = some a' ∧ Represents s' a' := by
  obtain ⟨m, fs⟩ := s
  obtain ⟨w, cs⟩ := a
  cases hr.frames with
  | nil => cases h
  | @cons f c fs cs hf htail =>
      obtain ⟨q, _ | u⟩ := f
      case some => cases h
      obtain ⟨b, v⟩ := c
      obtain rfl : none = v := hf.1
      simp only [step] at h
      split at h <;> cases h
      rename_i hhead
      have hempty : b.getD w = [] := by
        cases q <;> cases b
        case shared.none => exact hr.waiting.head_eq_none_iff.mp hhead
        case shared.some => exact hf.2.elim
        case detached.none => exact hf.2.elim
        case detached.some l xs => exact (Holds.head_eq_none_iff hf.2).mp hhead
      have hout : Spec.outstanding ⟨w, cs⟩ = Spec.outstanding ⟨w, ⟨b, none⟩ :: cs⟩ := by
        cases b <;> simp_all [Spec.outstanding, Call.held]
      exact ⟨⟨w, cs⟩, by simp [Spec.step, hempty], hr.waiting, htail, hout ▸ hr.nodup,
        hout ▸ hr.pending, hout ▸ hr.count⟩

/-- The simulation: every step of the manager that is not a `dequeue` at the end of
a detached list is a step of the queue. -/
theorem Represents.step {e : Event α} {s' : State α} (hr : Represents s a)
    (hC : DequeueInside s e) (h : Trigger.step s e = some s') :
    ∃ a', a.step e = some a' ∧ Represents s' a' := by
  cases e with
  | enqueue t added =>
      simp only [Trigger.step] at h
      split at h <;> cases h
      next hc => exact hc.2 ▸ hr.enqueue hc.1
  | dequeue t removed =>
      simp only [Trigger.step] at h
      split at h <;> cases h
      next hc => exact hc.2 ▸ hr.dequeue hc.1 hC
  | run rqp =>
      simp only [Trigger.step] at h
      split at h <;> cases h
      next hc => exact hr.run hc rqp
  | start t => exact hr.start h
  | finish t => exact hr.finish h
  | ret => exact hr.ret h

end Steps

end BaremetalSenders.Trigger
