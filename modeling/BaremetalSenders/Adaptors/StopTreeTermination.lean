import BaremetalSenders.Adaptors.StopTreeProgress
import Mathlib.Algebra.Order.BigOperators.Group.Finset

/-!
A tree with finitely many nodes and leaves comes to rest.

Every step takes an operation state, a callback or the winner of a stop source
further on a way that has an end: `rank` is how much of it is left. So there is
a number of steps after which nothing can happen any more but that somebody
outside requests stop once again, and by then the topmost node has completed
its receiver.
-/

/-! ### An operation state -/

namespace BaremetalSenders.Join

variable {n : ℕ} {V E D : Type*} {ops : Ops n V E D} {s s' : State n V E D} {l : Label n V E}
  {i : Fin n} {p : Phase V E D}

def StartPc.rank (n : ℕ) : StartPc → ℕ
  | .unstarted => n + 6
  | .stopCbEmplaced => n + 2
  | .stopped => 0
  | .starting k => n - k

def StopCb.rank : StopCb → ℕ
  | .registered => 2
  | .refused | .popped => 1
  | .absent | .spent => 0

def Phase.rank : Phase V E D → ℕ
  | .idle => 9
  | .running => 8
  | .completing _ as => as.length + 4
  | .deciding _ false => 2
  | .deciding _ true => 1
  | .ignored _ | .done _ | .finished _ => 0

/-- How many steps are left to an operation state, at most. -/
def State.rank (s : State n V E D) : ℕ :=
  s.pc.rank n + s.stopCb.rank + ∑ i, (s.phase i).rank

theorem sum_rank_lt {f : Fin n → Phase V E D} (h : p.rank < (f i).rank) :
    ∑ j, (Function.update f i p j).rank < ∑ j, (f j).rank := by
  refine Finset.sum_lt_sum (fun j _ => ?_) ⟨i, Finset.mem_univ i, by simpa using h⟩
  rcases eq_or_ne j i with rfl | hne
  · simpa using h.le
  · simp [hne]

theorem rank_step (hcounted : Counted s) (hrest : ∀ i c d, (ops.rest i c d).length ≤ 2)
    (hs : step ops s l = some s') (hl : l ≠ .rcvrRequestStop) : s'.rank < s.rank := by
  have hphase {i : Fin n} {p : Phase V E D} (h : p.rank < (s.phase i).rank) :
      ∑ j, (Function.update s.phase i p j).rank < ∑ j, (s.phase j).rank := sum_rank_lt h
  simp only [State.rank]
  cases step_move hs with
  | rcvrRequestStop => exact absurd rfl hl
  | popStopCb _ hcb => simp [hcb, StopCb.rank]
  | runStopCb hcb => rcases hcb with hcb | hcb <;> simp [hcb, StopCb.rank]
  | emplaceStopCb _ hpc =>
      cases s.rcvrRequested <;> simp only [hpc, StartPc.rank, StopCb.rank] <;> simp <;> omega
  | startStopped hpc => simp [hpc, StartPc.rank]
  | startChildren hstart =>
      rcases pc_of_mayStart hstart with hpc | hpc <;> simp [hpc, StartPc.rank]
  | @startChild i hpc =>
      have hidle := hcounted.idle_of_next hpc
      have hlt := hphase (i := i) (p := .running) (by simp [hidle, Phase.rank])
      have hi := i.isLt
      simp only [hpc, StartPc.rank, State.setPhase]
      omega
  | @complete i c hi =>
      have hle := hrest i c s.data
      have hlt := hphase (i := i) (p := .completing c (ops.rest i c s.data)) (by
        simp only [hi, Phase.rank]
        omega)
      simpa [State.setPhase] using hlt
  | @act i c a as hi =>
      have hlt := hphase (i := i) (p := .completing c as) (by simp [hi, Phase.rank])
      cases a <;> simpa [State.setPhase, State.apply] using hlt
  | @arrive i c hi =>
      have hlt := hphase (i := i) (p := .done c) (by simp [hi, Phase.rank])
      simpa [State.setPhase] using hlt
  | @arriveLast i c hi =>
      have hlt := hphase (i := i) (p := .deciding c (!ops.hasStopSource)) (by
        cases ops.hasStopSource <;> simp [hi, Phase.rank])
      simpa [State.setPhase] using hlt
  | @ignore i c hi =>
      have hlt := hphase (i := i) (p := .ignored c) (by simp [hi, Phase.rank])
      simpa [State.setPhase] using hlt
  | @resetStopCb i c hi =>
      have hlt := hphase (i := i) (p := .deciding c true) (by simp [hi, Phase.rank])
      have hle : (if s.stopCb = .registered then StopCb.absent else s.stopCb).rank ≤
          s.stopCb.rank := by
        split <;> simp [StopCb.rank]
      simp only [State.setPhase]
      omega
  | @finish i c hi =>
      have hlt := hphase (i := i) (p := .finished c) (by simp [hi, Phase.rank])
      simpa [State.setPhase] using hlt

end BaremetalSenders.Join

/-! ### A stop source -/

namespace BaremetalSenders.StopToken

variable {κ ρ : Type*} [DecidableEq κ] [DecidableEq ρ] {s s' : State κ ρ} {tr : List (Label κ ρ)}
  {l : Label κ ρ} {r : ρ} {cb : κ} {c : Call κ}

def Life.rank : Life → ℕ
  | .unborn => 8
  | .constructing => 7
  | .refused => 3
  | .invoking => 2
  | .registered | .constructed => 1
  | .destroyed => 0

open Classical in
/-- How far the callback is from having been called by the call of `request_stop` that won. -/
noncomputable def State.handRank (s : State κ ρ) (cb : κ) : ℕ :=
  if ∃ r, s.calls r = .running cb then 1
  else if ∃ r, s.calls r = .popped cb then 2
  else if cb ∈ s.source.callbacks then 3
  else 0

/-- How many steps are left to a callback, at most. -/
noncomputable def State.rank (s : State κ ρ) (cb : κ) : ℕ := (s.life cb).rank + s.handRank cb

open Classical in
noncomputable def State.winnerRank (s : State κ ρ) : ℕ :=
  if ∃ r, s.calls r = .returned true then 0 else 1

def Label.callback : Label κ ρ → Option κ
  | .exchange _ => none
  | .getNextCb _ cb => cb
  | .run _ cb | .ran _ cb | .enterRegister cb | .leaveRegister cb _ | .invoke cb | .invoked cb
  | .unregister cb _ => some cb

omit [DecidableEq κ] in
theorem exists_update {d : Call κ} (hold : s.calls r ≠ d) (hnew : c ≠ d) :
    (∃ r', Function.update s.calls r c r' = d) ↔ ∃ r', s.calls r' = d := by
  constructor
  · rintro ⟨r', hr'⟩
    rcases eq_or_ne r' r with rfl | hne
    · exact absurd (by simpa using hr') hnew
    · exact ⟨r', by simpa [hne] using hr'⟩
  · rintro ⟨r', hr'⟩
    have hne : r' ≠ r := fun e => hold (e ▸ hr')
    exact ⟨r', by simpa [hne] using hr'⟩

omit [DecidableEq ρ] in
theorem handRank_congr
    (hrunning : (∃ r, s'.calls r = .running cb) ↔ ∃ r, s.calls r = .running cb)
    (hpopped : (∃ r, s'.calls r = .popped cb) ↔ ∃ r, s.calls r = .popped cb)
    (hcbs : cb ∈ s'.source.callbacks ↔ cb ∈ s.source.callbacks) :
    s'.handRank cb = s.handRank cb := by
  classical
  simp only [State.handRank, hrunning, hpopped, hcbs]

/-- What is about another callback does not change how far this one is. -/
theorem handRank_of_ne (hs : step s l = some s') (hl : l.callback ≠ some cb) :
    s'.handRank cb = s.handRank cb := by
  have hcalls {s' : State κ ρ} {r : ρ} {c : Call κ} (hr : s'.calls = Function.update s.calls r c)
      (hcbs : cb ∈ s'.source.callbacks ↔ cb ∈ s.source.callbacks)
      (hold : s.calls r ≠ .running cb ∧ s.calls r ≠ .popped cb)
      (hnew : c ≠ .running cb ∧ c ≠ .popped cb) : s'.handRank cb = s.handRank cb := by
    refine handRank_congr ?_ ?_ hcbs <;> rw [hr]
    · exact exists_update hold.1 hnew.1
    · exact exists_update hold.2 hnew.2
  have hlist {s' : State κ ρ} (hr : s'.calls = s.calls)
      (hcbs : cb ∈ s'.source.callbacks ↔ cb ∈ s.source.callbacks) :
      s'.handRank cb = s.handRank cb := by
    refine handRank_congr ?_ ?_ hcbs <;> rw [hr]
  cases step_move hs with
  | win hr | lose hr | finish hr => exact hcalls rfl Iff.rfl (by simp [hr]) (by simp)
  | @pop r x cbs hr _ hcbs =>
      have hne : x ≠ cb := by simpa [Label.callback] using hl
      refine hcalls rfl ?_ (by simp [hr]) (by simpa using hne)
      simp [State.popFront, State.setCall, hcbs, hne.symm]
  | @run r x hr =>
      have hne : x ≠ cb := by simpa [Label.callback] using hl
      exact hcalls rfl Iff.rfl (by simpa [hr] using hne) (by simpa using hne)
  | @ran r x hr =>
      have hne : x ≠ cb := by simpa [Label.callback] using hl
      exact hcalls rfl Iff.rfl (by simpa [hr] using hne) (by simp)
  | enterRegister | refuse | invoke | invoked => exact hlist rfl Iff.rfl
  | @register x hm =>
      have hne : x ≠ cb := by simpa [Label.callback] using hl
      refine hlist rfl ?_
      simp [State.pushBack, State.setLife, hne.symm]
  | @unregister x hx hm =>
      have hne : x ≠ cb := by simpa [Label.callback] using hl
      refine hlist rfl ?_
      simp only [State.unregisterCallback, State.setLife]
      split
      · exact List.mem_erase_of_ne hne.symm
      · exact Iff.rfl

/-- What a step is about has begun its life, unless it does so now. -/
theorem ne_unborn_of_step (h : Reached tr s) (hs : step s l = some s') (hl : l.callback = some cb)
    (henter : l ≠ .enterRegister cb) : s.life cb ≠ .unborn := by
  cases step_move hs with
  | win | lose | finish => cases hl
  | @pop r x cbs hr hm hcbs =>
      obtain rfl : x = cb := by simpa [Label.callback] using hl
      simp [h.listOk.registered x (by simp [hcbs])]
  | @run r x hr =>
      obtain rfl : x = cb := by simpa [Label.callback] using hl
      exact h.ne_unborn_of_calls (.inl hr)
  | @ran r x hr =>
      obtain rfl : x = cb := by simpa [Label.callback] using hl
      exact h.ne_unborn_of_calls (.inr hr)
  | @enterRegister x =>
      obtain rfl : x = cb := by simpa [Label.callback] using hl
      exact absurd rfl henter
  | @register x hm | @refuse x hm =>
      obtain rfl : x = cb := by simpa [Label.callback] using hl
      simp [(h.listOk.mutex x _ hm).1]
  | @invoke x hx | @invoked x hx =>
      obtain rfl : x = cb := by simpa [Label.callback] using hl
      simp [hx]
  | @unregister x hx =>
      obtain rfl : x = cb := by simpa [Label.callback] using hl
      rcases hx with hx | hx <;> simp [hx]

omit [DecidableEq ρ] in
/-- What has been taken out of the list does not get into it again. -/
theorem Reached.notMem_of_hand (h : Reached tr s)
    (hr : s.calls r = .popped cb ∨ s.calls r = .running cb) : cb ∉ s.source.callbacks := by
  have hnodup := h.ordered.queue ▸ h.fates.nodup_kept
  exact fun hcb => (List.nodup_append.mp hnodup).2.2 cb (h.mem_popped_of_hand hr) cb hcb rfl

omit [DecidableEq ρ] in
theorem handRank_mono {t : State κ ρ} (hcalls : t.calls = s.calls)
    (hcbs : cb ∈ t.source.callbacks → cb ∈ s.source.callbacks) :
    t.handRank cb ≤ s.handRank cb := by
  rw [State.handRank, State.handRank, hcalls]
  by_cases hrunning : ∃ r, s.calls r = .running cb
  · rw [if_pos hrunning, if_pos hrunning]
  · rw [if_neg hrunning, if_neg hrunning]
    by_cases hpopped : ∃ r, s.calls r = .popped cb
    · rw [if_pos hpopped, if_pos hpopped]
    · rw [if_neg hpopped, if_neg hpopped]
      by_cases hmem : cb ∈ t.source.callbacks
      · rw [if_pos hmem, if_pos (hcbs hmem)]
      · rw [if_neg hmem]
        exact Nat.zero_le _

omit [DecidableEq ρ] in
theorem handRank_le (s : State κ ρ) (cb : κ) : s.handRank cb ≤ 3 := by
  rw [State.handRank]
  split_ifs <;> omega

omit [DecidableEq ρ] in
theorem handRank_of_running (hr : s.calls r = .running cb) : s.handRank cb = 1 :=
  if_pos ⟨r, hr⟩

omit [DecidableEq κ] [DecidableEq ρ] in
/-- There is one call that has callbacks in hand. -/
theorem OneWinner.calls_eq (h : OneWinner s) (r r' : ρ) (hr : (s.calls r).isWinner = true)
    (hr' : (s.calls r').isWinner = true) : s.calls r = s.calls r' := by
  rw [h.unique r r' hr hr']

omit [DecidableEq ρ] in
theorem Reached.handRank_of_popped (h : Reached tr s) (hr : s.calls r = .popped cb) :
    s.handRank cb = 2 := by
  have hnot : ¬ ∃ r', s.calls r' = .running cb := by
    rintro ⟨r', hr'⟩
    have hsame := h.oneWinner.calls_eq r r' (by rw [hr]; rfl) (by rw [hr']; rfl)
    simp [hr, hr'] at hsame
  rw [State.handRank, if_neg hnot, if_pos ⟨r, hr⟩]

omit [DecidableEq ρ] in
theorem Reached.handRank_of_mem (h : Reached tr s) (hcb : cb ∈ s.source.callbacks) :
    s.handRank cb = 3 := by
  have hnot : ¬ ∃ r, s.calls r = .running cb := fun ⟨_, hr⟩ => h.notMem_of_hand (.inr hr) hcb
  have hnot' : ¬ ∃ r, s.calls r = .popped cb := fun ⟨_, hr⟩ => h.notMem_of_hand (.inl hr) hcb
  rw [State.handRank, if_neg hnot, if_neg hnot', if_pos hcb]

/-- What is about the callback takes it further. -/
theorem rank_lt (h : Run step .init tr s) (hs : step s l = some s') (hl : l.callback = some cb) :
    s'.rank cb < s.rank cb := by
  have hreached := reached_of_run h
  have hreached' := reached_of_run (h.concat hs)
  -- The steps in the life of the callback.
  have hlife {t : State κ ρ} {li li' : Life} (hcalls : t.calls = s.calls)
      (hcbs : cb ∈ t.source.callbacks ↔ cb ∈ s.source.callbacks) (hold : s.life cb = li)
      (hnew : t.life cb = li') (hlt : li'.rank < li.rank) : t.rank cb < s.rank cb := by
    have hsame : t.handRank cb = s.handRank cb := by
      refine handRank_congr ?_ ?_ hcbs <;> rw [hcalls]
    rw [State.rank, State.rank, hold, hnew, hsame]
    omega
  -- The steps of the call that has it in hand.
  have hhand {t : State κ ρ} {k k' : ℕ} (hold : s.handRank cb = k) (hnew : t.handRank cb = k')
      (hsame : t.life cb = s.life cb) (hlt : k' < k) : t.rank cb < s.rank cb := by
    rw [State.rank, State.rank, hold, hnew, hsame]
    omega
  cases step_move hs with
  | win | lose | finish => cases hl
  | @pop r x cbs hr _ hcbs =>
      obtain rfl : x = cb := by simpa [Label.callback] using hl
      exact hhand (hreached.handRank_of_mem (by simp [hcbs]))
        (hreached'.handRank_of_popped (r := r) (by simp)) rfl (by omega)
  | @run r x hr =>
      obtain rfl : x = cb := by simpa [Label.callback] using hl
      exact hhand (hreached.handRank_of_popped hr) (handRank_of_running (r := r) (by simp)) rfl
        (by omega)
  | @ran r x hr =>
      obtain rfl : x = cb := by simpa [Label.callback] using hl
      have hnone (d : Call κ) (hd : d.isWinner = true) (hne : d ≠ .draining) :
          ¬ ∃ r', (s.setCall r .draining).calls r' = d := by
        rintro ⟨r', hr'⟩
        have hsame := hreached'.oneWinner.calls_eq r r' (by simp [Call.isWinner])
          (by rw [hr']; exact hd)
        rw [hr', State.setCall_calls, Function.update_self] at hsame
        exact hne hsame.symm
      have hnew : (s.setCall r .draining).handRank x = 0 := by
        have hmem : x ∉ (s.setCall r .draining).source.callbacks :=
          hreached.notMem_of_hand (.inr hr)
        rw [State.handRank, if_neg (hnone _ rfl (by simp)), if_neg (hnone _ rfl (by simp)),
          if_neg hmem]
      exact hhand (handRank_of_running hr) hnew rfl (by omega)
  | @enterRegister x hx hm =>
      obtain rfl : x = cb := by simpa [Label.callback] using hl
      exact hlife rfl Iff.rfl hx (Function.update_self ..) (by decide)
  | @register x hm =>
      obtain rfl : x = cb := by simpa [Label.callback] using hl
      have hnew : ((s.pushBack x).setLife x .registered).life x = .registered :=
        Function.update_self ..
      refine lt_of_le_of_lt (Nat.add_le_add_left (handRank_le _ x) _) ?_
      rw [State.rank, (hreached.listOk.mutex x false hm).1, hnew]
      simp only [Life.rank]
      omega
  | @refuse x hm =>
      obtain rfl : x = cb := by simpa [Label.callback] using hl
      exact hlife rfl Iff.rfl (hreached.listOk.mutex x true hm).1 (Function.update_self ..)
        (by decide)
  | @invoke x hx | @invoked x hx =>
      obtain rfl : x = cb := by simpa [Label.callback] using hl
      exact hlife rfl Iff.rfl hx (Function.update_self ..) (by decide)
  | @unregister x hx hm =>
      obtain rfl : x = cb := by simpa [Label.callback] using hl
      have hle : ((s.unregisterCallback x).setLife x .destroyed).handRank x ≤ s.handRank x :=
        handRank_mono rfl mem_of_mem_unregister
      have hold : (s.life x).rank = 1 := by rcases hx with hx | hx <;> rw [hx] <;> rfl
      have hnew : ((s.unregisterCallback x).setLife x .destroyed).life x = .destroyed :=
        Function.update_self ..
      rw [State.rank, State.rank, hold, hnew]
      simp only [Life.rank]
      omega

/-- The rank of a callback does not grow. -/
theorem rank_le (h : Run step .init tr s) (hs : step s l = some s') (cb : κ) :
    s'.rank cb ≤ s.rank cb := by
  by_cases hl : l.callback = some cb
  · exact (rank_lt h hs hl).le
  · rw [State.rank, State.rank, handRank_of_ne hs hl]
    refine Nat.add_le_add_right (le_of_eq ?_) _
    have hlife := lifeStep_of_step hs cb
    generalize s'.life cb = li at hlife
    cases hlife with
    | same => rfl
    | enter | register | refuse | invoke | invoked | unregister => exact absurd rfl hl

/-- Who has returned as the winner has. -/
theorem returned_true_step (hs : step s l = some s') (hr : s.calls r = .returned true) :
    s'.calls r = .returned true := by
  have hcase {x : ρ} {c : Call κ} (hx : s.calls x ≠ .returned true) :
      Function.update s.calls x c r = .returned true := by
    have hne : r ≠ x := fun e => hx (e ▸ hr)
    rwa [Function.update_of_ne hne]
  cases step_move hs with
  | win hx | lose hx | finish hx | pop hx | run hx | ran hx => exact hcase (by simp [hx])
  | enterRegister | register | refuse | invoke | invoked | unregister => exact hr

theorem winnerRank_le (hs : step s l = some s') : s'.winnerRank ≤ s.winnerRank := by
  rw [State.winnerRank, State.winnerRank]
  split_ifs with hnew hold hold
  · exact le_rfl
  · omega
  · exact absurd (hold.imp fun r hr => returned_true_step hs hr) hnew
  · exact le_rfl

theorem winnerRank_lt (h : Run step .init tr s) (hs : step s (.getNextCb r none) = some s') :
    s'.winnerRank < s.winnerRank := by
  cases step_move hs with
  | finish hr =>
      have hold : ¬ ∃ r', s.calls r' = .returned true := by
        rintro ⟨r', hr'⟩
        have hsame := (reached_of_run h).oneWinner.calls_eq r r'
          (by rw [hr]; rfl) (by rw [hr']; rfl)
        simp [hr, hr'] at hsame
      rw [State.winnerRank, State.winnerRank, if_neg hold, if_pos ⟨r, by simp⟩]
      exact Nat.zero_lt_one

end BaremetalSenders.StopToken

/-! ### The tree -/

namespace BaremetalSenders.StopTree

open Join

universe u v

variable {V : Type u} {E : Type v} {T : Tree V E}

/-- All nodes and leaves of the tree are among `P`. -/
structure Tree.Within (T : Tree V E) (P : Finset Path) : Prop where
  top : [] ∈ P
  child : ∀ p ∈ P, T.leaf p = false → ∀ i : Fin (T.node p).arity, (i : ℕ) :: p ∈ P

variable [DecidableEq V] [DecidableEq E] {P : Finset Path} {s s' : State T} {tr : List (Label T)}
  {l : Label T} {p q : Path} {x : Option Path}

/-- How many steps are left to what belongs to a node or leaf, at most. -/
noncomputable def State.weight (s : State T) (p : Path) : ℕ :=
  (s.op p).rank + (s.source (token p)).rank p + (s.source (some p)).winnerRank +
    if s.done p then 0 else 1

/-- How many steps are left to the tree, at most. -/
noncomputable def State.rank (P : Finset Path) (s : State T) : ℕ :=
  (s.source none).winnerRank + ∑ p ∈ P, s.weight p

omit [DecidableEq V] [DecidableEq E] in
theorem length_rest_le {n : ℕ} (kind : Kind n V E) (i : Fin n) (c : Completion (List V) E)
    (d : kind.Data) : (kind.ops.rest i c d).length ≤ 2 := by
  cases kind with
  | whenAny policy =>
      have hlength (b : Bool) :
          (if b then [.requestStop] else [] :
            List (Action (Option (Completion (List V) E)))).length ≤ 2 := by
        cases b <;> simp
      exact hlength _
  | whenAll children =>
      have hlength (d : WhenAll.Data n V E) :
          ((WhenAll.opState children).rest i c d).length ≤ 2 := by
        cases c with
        | value | stopped => simp [WhenAll.opState, WhenAll.operation]
        | error e =>
            simp only [WhenAll.opState, WhenAll.operation]
            split <;> simp
      exact hlength d

/-- An operation state that takes a step is on its way to the end. -/
theorem op_rank_lt (h : Run step .init tr s) {jl : T.OpLabel p} {o : T.Op p}
    (ho : Join.step (T.ops p) (s.view p) jl = some o) (hjl : jl ≠ .rcvrRequestStop) :
    o.rank < (s.op p).rank := by
  obtain ⟨js, hreached⟩ := reached_of_run h p
  have hlt := Join.rank_step hreached.counted (length_rest_le (T.node p).kind) ho hjl
  exact hlt

theorem op_rank_le (h : Run step .init tr s) (hs : step s l = some s') (p : Path) :
    (s'.op p).rank ≤ (s.op p).rank := by
  rcases op_step hs p with hop | ⟨jl, ho, hwho⟩
  · rw [hop]
  · refine (op_rank_lt h ho ?_).le
    rintro rfl
    rcases hwho with ⟨-, hallowed⟩ | ⟨m, -, hpair⟩
    · simp [State.allowsOp] at hallowed
    · cases hpair

theorem source_rank_le (h : Run step .init tr s) (hs : step s l = some s') (x : Option Path)
    (q : Path) : (s'.source x).rank q ≤ (s.source x).rank q ∧
      (s'.source x).winnerRank ≤ (s.source x).winnerRank := by
  have hsource := source_step hs x
  cases hl : l.at x with
  | none =>
      rw [hl] at hsource
      rw [run_nil.mp hsource]
      exact ⟨le_rfl, le_rfl⟩
  | some m =>
      rw [hl] at hsource
      obtain ⟨t, ht, hrun⟩ := run_cons.mp hsource
      rw [run_nil.mp hrun]
      exact ⟨StopToken.rank_le (source_of_run h x) ht q, StopToken.winnerRank_le ht⟩

theorem done_rank_le (hs : step s l = some s') (p : Path) :
    (if s'.done p then 0 else 1) ≤ if s.done p then 0 else 1 := by
  cases hold : s.done p with
  | true => simp [done_step hs hold]
  | false => split <;> simp

theorem weight_le (h : Run step .init tr s) (hs : step s l = some s') (p : Path) :
    s'.weight p ≤ s.weight p := by
  have hop := op_rank_le h hs p
  have habove := (source_rank_le h hs (token p) p).1
  have hown := (source_rank_le h hs (some p) p).2
  have hdone := done_rank_le hs p
  rw [State.weight, State.weight]
  omega

/-! What takes a step is in the tree. -/

/-- Outside the tree nothing is registered. -/
theorem unborn_of_notMem (h : Run step .init tr s) (hP : T.Within P) :
    ∀ p, p ∉ P → (s.source (token p)).life p = .unborn := by
  intro p
  induction p with
  | nil => exact fun hp => absurd hP.top hp
  | cons i p ih =>
      intro hp
      by_contra hborn
      obtain ⟨hleaf, j, rfl, hj⟩ := (attached_of_run h).started i p hborn
      have hnot : p ∉ P := fun hmem => hp (hP.child p hmem hleaf j)
      simp [idle_of_unborn h hleaf (ih hnot) j, Phase.isIdle] at hj

theorem mem_of_running (h : Run step .init tr s) (hP : T.Within P) (hp : s.running p = true) :
    p ∈ P := by
  cases p with
  | nil => exact hP.top
  | cons i p =>
      obtain ⟨hleaf, j, rfl, hj⟩ := running_cons.mp hp
      by_contra hnot
      have hnot' : p ∉ P := fun hmem => hnot (hP.child p hmem hleaf j)
      simp [idle_of_unborn h hleaf (unborn_of_notMem h hP p hnot') j] at hj

/-- A node that takes a step other than its first one has begun. -/
theorem mem_of_op (h : Run step .init tr s) (hP : T.Within P) (hp : T.leaf p = false)
    {jl : T.OpLabel p} {o : T.Op p} (ho : Join.step (T.ops p) (s.view p) jl = some o)
    (hjl : jl ≠ .rcvrRequestStop) (hemplace : ∀ b, jl ≠ .emplaceStopCb b) : p ∈ P := by
  by_contra hnot
  have hlife := unborn_of_notMem h hP p hnot
  have hpc : (s.op p).pc = .unstarted := (linkedAt_of_run h hp).unborn.mp hlife
  have hidle := idle_of_unborn h hp hlife
  obtain ⟨js, hreached⟩ := reached_of_run h p
  have hcb := hreached.stopOk.absent hpc
  cases Join.step_move ho with
  | rcvrRequestStop => exact hjl rfl
  | emplaceStopCb => exact hemplace _ rfl
  | popStopCb _ hcb' => simp [hcb] at hcb'
  | runStopCb hcb' => simp [hcb] at hcb'
  | startStopped hpc' => simp [hpc] at hpc'
  | startChildren hstart => simp [Ops.mayStart, hpc] at hstart
  | startChild hpc' => simp [hpc] at hpc'
  | complete hphase | act hphase | arrive hphase | arriveLast hphase | ignore hphase
  | resetStopCb hphase | finish hphase => simp [hidle] at hphase

/-- Whose source is asked to stop has begun. -/
theorem mem_of_called (h : Run step .init tr s) (hP : T.Within P) {r : Caller}
    (hr : (s.source (some p)).calls r ≠ .idle) : p ∈ P := by
  have hp : T.leaf p = false := mayCall_of_run h hr
  by_contra hnot
  have hlife := unborn_of_notMem h hP p hnot
  have hlinked := linkedAt_of_run h hp
  have hpc : (s.op p).pc = .unstarted := hlinked.unborn.mp hlife
  obtain ⟨js, hreached⟩ := reached_of_run h p
  cases r with
  | external k => exact hr (hlinked.external k)
  | stopCb =>
      have hcb : (s.op p).stopCb = .absent := hreached.stopOk.absent hpc
      have hspent := (callsAt_of_run h hp).spent.mpr hr
      simp [hcb] at hspent
  | child k =>
      obtain ⟨i, -, c, d, hc, -⟩ := hlinked.policy k hr
      simp [idle_of_unborn h hp hlife i, Phase.completion] at hc

theorem callback_eq (m : SourceLabel) : m.callback = callbackOf m := by cases m <;> rfl

/-- What a source does is about what is registered at it, or it is a call that begins or ends. -/
theorem mem_of_source (h : Run step .init tr s) (hP : T.Within P) {m : SourceLabel}
    {t : SourceState} (hm : s.allowsSource x m = true)
    (ht : StopToken.step (s.source x) m = some t) (hq : callbackOf m = some q) :
    q ∈ P ∧ token q = x := by
  have htoken : token q = x := by
    simp only [State.allowsSource, hq, Option.all_some, Bool.and_eq_true, beq_iff_eq] at hm
    exact hm.1
  refine ⟨?_, htoken⟩
  by_cases henter : m = .enterRegister q
  · subst henter
    simp only [State.allowsSource, Bool.and_eq_true] at hm
    exact mem_of_running h hP hm.2.1.2
  · by_contra hnot
    have hborn := StopToken.ne_unborn_of_step (sourceReached_of_run h x) ht
      ((callback_eq m).trans hq) henter
    exact hborn (htoken ▸ unborn_of_notMem h hP q hnot)

theorem running_of_complete (hs : step s (.complete p) = some s') :
    s.running p = true ∧ s.done p = false ∧ s'.done p = true := by
  simp only [step] at hs
  split at hs <;> cases hs
  next hc =>
    simp only [Bool.and_eq_true, Bool.not_eq_true'] at hc
    exact ⟨hc.1.2, hc.2, Function.update_self ..⟩

theorem rank_lt_of_weight (h : Run step .init tr s) (hs : step s l = some s') (hp : p ∈ P)
    (hlt : s'.weight p < s.weight p) : s'.rank P < s.rank P := by
  have hnone := (source_rank_le h hs none []).2
  have hsum := Finset.sum_lt_sum (fun q _ => weight_le h hs q) ⟨p, hp, hlt⟩
  rw [State.rank, State.rank]
  omega

/-- The operation state is nearer to its end. -/
theorem rank_lt_of_op (h : Run step .init tr s) (hs : step s l = some s') (hp : p ∈ P)
    (hlt : (s'.op p).rank < (s.op p).rank) : s'.rank P < s.rank P := by
  refine rank_lt_of_weight h hs hp ?_
  have habove := (source_rank_le h hs (token p) p).1
  have hown := (source_rank_le h hs (some p) p).2
  have hdone := done_rank_le hs p
  rw [State.weight, State.weight]
  omega

/-- A source that takes a step by itself brings a callback nearer to its end, or its winner. -/
theorem rank_lt_of_source (h : Run step .init tr s) (hP : T.Within P) {m : SourceLabel}
    (hs : step s (.source x m) = some s') (hm : (Label.source x m : Label T).isExternal = false) :
    s'.rank P < s.rank P := by
  have hcases := step_move hs
  cases hcases with
  | @source _ _ t hallows ht =>
      have hsource : (((s.setSource x t).callBack m).source x) = t := by simp
      cases hq : callbackOf m with
      | some q =>
          obtain ⟨hmem, rfl⟩ := mem_of_source h hP hallows ht hq
          refine rank_lt_of_weight h hs hmem ?_
          have hlt := StopToken.rank_lt (source_of_run h (token q)) ht ((callback_eq m).trans hq)
          have hop := op_rank_le h hs q
          have hown := (source_rank_le h hs (some q) q).2
          have hdone := done_rank_le hs q
          rw [← hsource] at hlt
          rw [State.weight, State.weight]
          omega
      | none =>
          cases m with
          | getNextCb r cb =>
              obtain rfl : cb = none := hq
              have hlt := StopToken.winnerRank_lt (source_of_run h x) ht
              rw [← hsource] at hlt
              cases x with
              | none =>
                  have hsum := Finset.sum_le_sum (s := P) fun q _ => weight_le h hs q
                  rw [State.rank, State.rank]
                  omega
              | some p =>
                  have hcalled : (s.source (some p)).calls r ≠ .idle := by
                    cases StopToken.step_move ht with
                    | finish hr => simp [hr]
                  refine rank_lt_of_weight h hs (mem_of_called h hP hcalled) ?_
                  have hop := op_rank_le h hs p
                  have habove := (source_rank_le h hs (token p) p).1
                  have hdone := done_rank_le hs p
                  rw [State.weight, State.weight]
                  omega
          | exchange r =>
              cases r with
              | external k => cases hm
              | stopCb | child => simp [State.allowsSource] at hallows
          | run | ran | enterRegister | leaveRegister | invoke | invoked | unregister => cases hq

/-- Every step that nobody outside takes brings the tree nearer to its end. -/
theorem rank_lt_of_step (h : Run step .init tr s) (hP : T.Within P) (hs : step s l = some s')
    (hl : l.isExternal = false) : s'.rank P < s.rank P := by
  cases l with
  | source x m => exact rank_lt_of_source h hP hs hl
  | op p jl =>
      cases step_move hs with
      | @op _ _ o hp hallows ho =>
          have hjl : jl ≠ .rcvrRequestStop ∧ ∀ b, jl ≠ .emplaceStopCb b := by
            constructor
            · rintro rfl
              simp [State.allowsOp] at hallows
            · rintro b rfl
              simp [State.allowsOp] at hallows
          refine rank_lt_of_op h hs (mem_of_op h hP hp ho hjl.1 hjl.2) ?_
          simpa using op_rank_lt h ho hjl.1
  | both p jl m =>
      cases step_move hs with
      | @both _ _ _ o t hp hallows ho ht =>
          have hpair := pair_of_allowsBoth hallows
          have hjl : jl ≠ .rcvrRequestStop := by
            rintro rfl
            cases hpair
          refine rank_lt_of_op (p := p) h hs ?_ (by simpa using op_rank_lt h ho hjl)
          by_cases hemplace : ∃ b, jl = .emplaceStopCb b
          · obtain ⟨b, rfl⟩ := hemplace
            cases hpair with
            | emplace hrunning => exact mem_of_running h hP hrunning
          · exact mem_of_op h hP hp ho hjl fun b hb => hemplace ⟨b, hb⟩
  | complete p =>
      obtain ⟨hrunning, hnot, hdone⟩ := running_of_complete hs
      refine rank_lt_of_weight h hs (mem_of_running h hP hrunning) ?_
      have hop := op_rank_le h hs p
      have habove := (source_rank_le h hs (token p) p).1
      have hown := (source_rank_le h hs (some p) p).2
      rw [State.weight, State.weight, hnot, hdone]
      simp only [if_true, Bool.false_eq_true, if_false]
      omega

theorem rank_le_of_step (h : Run step .init tr s) (hs : step s l = some s') :
    s'.rank P ≤ s.rank P := by
  have hnone := (source_rank_le h hs none []).2
  have hsum := Finset.sum_le_sum (s := P) fun q _ => weight_le h hs q
  rw [State.rank, State.rank]
  omega

/-- A tree comes to rest, whatever is done in which order, and however often somebody outside
requests stop. -/
theorem bounded_of_within (hP : T.Within P) : ∃ B, ∀ (tr : List (Label T)) s,
    Run step .init tr s → tr.countP (fun l => !l.isExternal) ≤ B := by
  refine ⟨(State.init : State T).rank P, fun tr s h => ?_⟩
  have hsum : tr.countP (fun l => !l.isExternal) + s.rank P ≤ (State.init : State T).rank P := by
    refine Run.induction (P := fun tr s => tr.countP (fun l => !l.isExternal) + s.rank P ≤
      (State.init : State T).rank P) (by simp) ?_ h
    intro tr s l s' hr ih hs
    have hle := rank_le_of_step (P := P) hr hs
    rw [List.countP_append, List.countP_singleton]
    cases hl : l.isExternal with
    | true =>
        simp only [Bool.not_true, Bool.false_eq_true, if_false]
        omega
    | false =>
        have hlt := rank_lt_of_step hr hP hs hl
        simp only [Bool.not_false, if_true]
        omega
  omega

omit [DecidableEq V] [DecidableEq E] in
/-- Two leaves and the node above them. -/
theorem within_pair (hleaf : ∀ p, T.leaf p = (p != [])) (hn : (T.node []).arity = 2) :
    T.Within {[], [0], [1]} where
  top := by decide
  child := fun p hp htop i => by
    obtain rfl : p = [] := by simpa [hleaf] using htop
    have hi : (i : ℕ) < 2 := hn ▸ i.isLt
    rcases (show (i : ℕ) = 0 ∨ (i : ℕ) = 1 by omega) with hi | hi <;> simp [hi]

theorem bounded_of_within_race : ∃ B, ∀ (tr : List (Label race)) s, Run step .init tr s →
    tr.countP (fun l => !l.isExternal) ≤ B := bounded_of_within (within_pair (fun _ => rfl) rfl)

end BaremetalSenders.StopTree
