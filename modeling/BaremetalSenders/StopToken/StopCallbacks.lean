import BaremetalSenders.StopToken.StopInvariant

/-!
Which callbacks are called, when, and how often.

A callback is given a verdict once: its registration is accepted or refused.
What was accepted and not removed by a destructor is what was popped, in this
order, followed by what is in the list; and what was popped was run, except for
the callback the winning call has in hand. So at the return of that call every
such callback has been run, in the order of registration. The gap between a
callback's being popped and its being run is also what a destructor cannot see:
`run_after_unregister_iff` says when this matters.
-/

namespace BaremetalSenders.StopToken

variable {κ ρ : Type*}

/-! ### What is read off a trace -/

/-- The results of the registrations. -/
def verdicts (tr : List (Label κ ρ)) : List (κ × Bool) :=
  tr.filterMap fun
    | .leaveRegister cb registered => some (cb, registered)
    | _ => none

def accepted (tr : List (Label κ ρ)) : List κ :=
  ((verdicts tr).filter Prod.snd).map Prod.fst

/-- The callbacks taken out of the list by their destructors. -/
def removed (tr : List (Label κ ρ)) : List κ :=
  tr.filterMap fun
    | .unregister cb true => some cb
    | _ => none

def popped (tr : List (Label κ ρ)) : List κ :=
  tr.filterMap fun
    | .getNextCb _ cb => cb
    | _ => none

def begun (tr : List (Label κ ρ)) : List κ :=
  tr.filterMap fun
    | .run _ cb => some cb
    | _ => none

def completed (tr : List (Label κ ρ)) : List κ :=
  tr.filterMap fun
    | .ran _ cb => some cb
    | _ => none

/-- The callbacks called, by `run` or by their constructors. -/
def invocations (tr : List (Label κ ρ)) : List κ :=
  tr.filterMap fun
    | .run _ cb => some cb
    | .invoke cb => some cb
    | _ => none

theorem mem_begun {tr : List (Label κ ρ)} {cb : κ} : cb ∈ begun tr ↔ ∃ r, .run r cb ∈ tr := by
  simp only [begun, List.mem_filterMap]
  constructor
  · rintro ⟨l, hl, h⟩
    cases l <;> simp_all
    exact ⟨_, hl⟩
  · rintro ⟨r, hr⟩
    exact ⟨_, hr, rfl⟩

theorem mem_invocations {tr : List (Label κ ρ)} {cb : κ} :
    cb ∈ invocations tr ↔ cb ∈ begun tr ∨ .invoke cb ∈ tr := by
  rw [mem_begun]
  simp only [invocations, List.mem_filterMap]
  constructor
  · rintro ⟨l, hl, h⟩
    cases l <;> simp_all
    exact .inl ⟨_, hl⟩
  · rintro (⟨r, hr⟩ | h)
    · exact ⟨_, hr, rfl⟩
    · exact ⟨_, h, rfl⟩

theorem mem_verdicts {tr : List (Label κ ρ)} {cb : κ} {b : Bool} :
    (cb, b) ∈ verdicts tr ↔ .leaveRegister cb b ∈ tr := by
  simp only [verdicts, List.mem_filterMap]
  constructor
  · rintro ⟨l, hl, h⟩
    cases l <;> simp_all
  · exact fun h => ⟨_, h, rfl⟩

theorem mem_accepted {tr : List (Label κ ρ)} {cb : κ} :
    cb ∈ accepted tr ↔ .leaveRegister cb true ∈ tr := by
  simp [accepted, mem_verdicts]

theorem mem_removed {tr : List (Label κ ρ)} {cb : κ} :
    cb ∈ removed tr ↔ .unregister cb true ∈ tr := by
  simp only [removed, List.mem_filterMap]
  constructor
  · rintro ⟨l, hl, h⟩
    split at h <;> simp_all
  · exact fun h => ⟨_, h, rfl⟩

variable [DecidableEq κ] [DecidableEq ρ]

/-- The callbacks registered and not removed, in the order of registration. -/
def kept (tr : List (Label κ ρ)) : List κ :=
  (accepted tr).filter fun cb => cb ∉ removed tr

section Step

variable {s s' : State κ ρ} {tr : List (Label κ ρ)} {l : Label κ ρ} {r : ρ} {cb : κ}

/-! ### The verdicts -/

/-- What has been observed of a callback, by where it is in its life. -/
def FateOk (tr : List (Label κ ρ)) (cb : κ) : Life → Prop
  | .unborn | .constructing => .leaveRegister cb true ∉ tr ∧ .leaveRegister cb false ∉ tr ∧
      .invoke cb ∉ tr ∧ .unregister cb true ∉ tr
  | .registered => .leaveRegister cb true ∈ tr ∧ .leaveRegister cb false ∉ tr ∧
      .invoke cb ∉ tr ∧ .unregister cb true ∉ tr
  | .refused => .leaveRegister cb true ∉ tr ∧ .leaveRegister cb false ∈ tr ∧
      .invoke cb ∉ tr ∧ .unregister cb true ∉ tr
  | .invoking | .constructed => .leaveRegister cb true ∉ tr ∧ .leaveRegister cb false ∈ tr ∧
      .invoke cb ∈ tr ∧ .unregister cb true ∉ tr
  | .destroyed => .leaveRegister cb true ∈ tr ∧ .leaveRegister cb false ∉ tr ∧ .invoke cb ∉ tr ∨
      .leaveRegister cb true ∉ tr ∧ .leaveRegister cb false ∈ tr ∧ .invoke cb ∈ tr

/-- The callback whose fate a label is about. -/
def Label.fateOf : Label κ ρ → Option κ
  | .leaveRegister cb _ | .invoke cb | .unregister cb _ => some cb
  | _ => none

omit [DecidableEq κ] [DecidableEq ρ] in
theorem FateOk.other {li : Life} (h : FateOk tr cb li) (hl : l.fateOf ≠ some cb) :
    FateOk (tr ++ [l]) cb li := by
  have hsame : ∀ l', l'.fateOf = some cb → (l' ∈ tr ++ [l] ↔ l' ∈ tr) := by
    intro l' hl'
    have hne : l' ≠ l := fun e => hl (e ▸ hl')
    simp [hne]
  have hacc := hsame (.leaveRegister cb true) rfl
  have href := hsame (.leaveRegister cb false) rfl
  have hinv := hsame (.invoke cb) rfl
  have hrem := hsame (.unregister cb true) rfl
  cases li <;> simpa only [FateOk, hacc, href, hinv, hrem] using h

structure Fates (tr : List (Label κ ρ)) (s : State κ ρ) : Prop where
  nodup : ((verdicts tr).map Prod.fst).Nodup
  fate : ∀ cb, FateOk tr cb (s.life cb)

omit [DecidableEq κ] [DecidableEq ρ] in
theorem Fates.fateOk {li : Life} (h : Fates tr s) (hcb : s.life cb = li) : FateOk tr cb li :=
  hcb ▸ h.fate cb

omit [DecidableEq κ] [DecidableEq ρ] in
theorem fates_init : Fates [] (State.init : State κ ρ) := by
  constructor <;> simp [State.init, verdicts, FateOk]

omit [DecidableEq κ] [DecidableEq ρ] in
theorem verdicts_concat_of_ne (hl : ∀ cb b, l ≠ .leaveRegister cb b) :
    verdicts (tr ++ [l]) = verdicts tr := by
  cases l <;> simp_all [verdicts]

omit [DecidableEq κ] [DecidableEq ρ] in
/-- A step that leaves the life of every callback alone. -/
theorem Fates.congr (h : Fates tr s) (hlife : s'.life = s.life) (hl : l.fateOf = none) :
    Fates (tr ++ [l]) s' := by
  constructor
  · rw [verdicts_concat_of_ne fun cb b e => by simp [e, Label.fateOf] at hl]
    exact h.nodup
  · intro cb
    rw [hlife]
    exact (h.fate cb).other (by simp [hl])

omit [DecidableEq ρ] in
/-- A step in the life of one callback. -/
theorem Fates.setLife {li : Life} (h : Fates tr s) (hlife : s'.life = Function.update s.life cb li)
    (hl : l.fateOf = none ∨ l.fateOf = some cb)
    (hnodup : ((verdicts (tr ++ [l])).map Prod.fst).Nodup) (hcb : FateOk (tr ++ [l]) cb li) :
    Fates (tr ++ [l]) s' := by
  refine ⟨hnodup, fun cb' => ?_⟩
  rw [hlife]
  rcases eq_or_ne cb' cb with rfl | hne
  · rwa [Function.update_self]
  · rw [Function.update_of_ne hne]
    refine (h.fate cb').other fun e => ?_
    rcases hl with hl | hl
    · simp [hl] at e
    · exact hne (Option.some.inj (e.symm.trans hl))

theorem Fates.step (h : Fates tr s) (hlist : ListOk s) (hs : step s l = some s') :
    Fates (tr ++ [l]) s' := by
  have hsame (hl : ∀ cb b, l ≠ .leaveRegister cb b) :
      ((verdicts (tr ++ [l])).map Prod.fst).Nodup := by
    rw [verdicts_concat_of_ne hl]
    exact h.nodup
  have hnew {cb : κ} {b b' : Bool} (hm : s.mutex = some (cb, b')) (hl : l = .leaveRegister cb b) :
      ((verdicts (tr ++ [l])).map Prod.fst).Nodup := by
    subst hl
    have hfate := h.fateOk (hlist.mutex cb b' hm).1
    have hlist : verdicts (tr ++ [.leaveRegister cb b]) = verdicts tr ++ [(cb, b)] := by
      simp [verdicts]
    rw [hlist, List.map_append, List.nodup_append]
    refine ⟨h.nodup, by simp, fun a ha b hb e => ?_⟩
    obtain ⟨⟨cb', v⟩, hmem, rfl⟩ := List.mem_map.mp ha
    obtain rfl : cb' = cb := by simp_all
    cases v with
    | true => exact hfate.1 (mem_verdicts.mp hmem)
    | false => exact hfate.2.1 (mem_verdicts.mp hmem)
  cases step_move hs with
  | win | lose | finish | pop | run | ran => exact h.congr rfl rfl
  | @enterRegister cb hcb =>
      have hfate := h.fateOk hcb
      exact h.setLife rfl (.inl rfl) (hsame (by simp)) (hfate.other (by simp [Label.fateOf]))
  | @register cb hm =>
      have hfate := h.fateOk (hlist.mutex cb _ hm).1
      exact h.setLife rfl (.inr rfl) (hnew hm rfl) (by simp_all [FateOk])
  | @refuse cb hm =>
      have hfate := h.fateOk (hlist.mutex cb _ hm).1
      exact h.setLife rfl (.inr rfl) (hnew hm rfl) (by simp_all [FateOk])
  | @invoke cb hcb =>
      have hfate := h.fateOk hcb
      exact h.setLife rfl (.inr rfl) (hsame (by simp)) (by simp_all [FateOk])
  | @invoked cb hcb =>
      have hfate := h.fateOk hcb
      exact h.setLife rfl (.inl rfl) (hsame (by simp)) (hfate.other (by simp [Label.fateOf]))
  | @unregister cb hcb =>
      refine h.setLife rfl (.inr rfl) (hsame (by simp)) ?_
      rcases hcb with hcb | hcb <;> have hfate := h.fateOk hcb <;> simp_all [FateOk]

/-! ### The order -/

def Call.inHand : Call κ → List κ
  | .popped cb => [cb]
  | _ => []

def Call.inRun : Call κ → List κ
  | .running cb => [cb]
  | _ => []

structure Ordered (tr : List (Label κ ρ)) (s : State κ ρ) : Prop where
  queue : kept tr = popped tr ++ s.source.callbacks
  idle : s.source.requested = false → popped tr = [] ∧ begun tr = [] ∧ completed tr = []
  hand : ∀ r, (s.calls r).isWinner = true → popped tr = begun tr ++ (s.calls r).inHand ∧
    begun tr = completed tr ++ (s.calls r).inRun

omit [DecidableEq ρ] in
theorem ordered_init : Ordered [] (State.init : State κ ρ) where
  queue := rfl
  idle := fun _ => ⟨rfl, rfl, rfl⟩
  hand := by simp [State.init, Call.isWinner]

omit [DecidableEq κ] [DecidableEq ρ] in
theorem Fates.nodup_accepted (h : Fates tr s) : (accepted tr).Nodup :=
  h.nodup.sublist (List.filter_sublist.map Prod.fst)

omit [DecidableEq ρ] in
theorem Fates.nodup_kept (h : Fates tr s) : (kept tr).Nodup :=
  h.nodup_accepted.filter _

omit [DecidableEq ρ] in
theorem kept_concat_of_ne (hacc : ∀ cb, l ≠ .leaveRegister cb true)
    (hrem : ∀ cb, l ≠ .unregister cb true) : kept (tr ++ [l]) = kept tr := by
  have haccepted : accepted (tr ++ [l]) = accepted tr := by
    cases l with
    | leaveRegister cb b => cases b <;> simp_all [accepted, verdicts]
    | _ => simp [accepted, verdicts]
  have hremoved : removed (tr ++ [l]) = removed tr := by
    cases l with
    | unregister cb b => cases b <;> simp_all [removed]
    | _ => simp [removed]
  rw [kept, haccepted, hremoved, kept]

omit [DecidableEq ρ] in
theorem kept_register (hrem : cb ∉ removed tr) :
    kept (tr ++ [.leaveRegister cb true]) = kept tr ++ [cb] := by
  have haccepted : accepted (tr ++ [.leaveRegister cb true]) = accepted tr ++ [cb] := by
    simp [accepted, verdicts]
  have hremoved : removed (tr ++ [.leaveRegister cb true]) = removed tr := by simp [removed]
  simp [kept, haccepted, hremoved, List.filter_append, hrem]

omit [DecidableEq ρ] in
theorem kept_unregister (hnd : (kept tr).Nodup) :
    kept (tr ++ [.unregister cb true]) = (kept tr).erase cb := by
  have haccepted : accepted (tr ++ [.unregister cb true]) = accepted tr := by
    simp [accepted, verdicts]
  have hremoved : removed (tr ++ [.unregister cb true]) = removed tr ++ [cb] := by simp [removed]
  rw [hnd.erase_eq_filter]
  simp only [kept, haccepted, hremoved, List.filter_filter]
  refine List.filter_congr fun x _ => ?_
  by_cases hx : x = cb <;> simp [hx]

/-- The queue of the registered callbacks, from those popped long ago to the last in the list. -/
theorem Ordered.queue_step (h : Ordered tr s) (hlist : ListOk s) (hfates : Fates tr s)
    (hs : step s l = some s') :
    kept (tr ++ [l]) = popped (tr ++ [l]) ++ s'.source.callbacks := by
  cases step_move hs with
  | win | lose | run | ran | enterRegister | invoke | invoked =>
      rw [kept_concat_of_ne (by simp) (by simp), h.queue]
      simp [popped, State.setCall, State.setLife]
  | finish | refuse =>
      rw [kept_concat_of_ne (by simp) (by simp), h.queue]
      simp [popped, State.setCall, State.setLife]
  | @pop r cb cbs _ _ hcbs =>
      rw [kept_concat_of_ne (by simp) (by simp), h.queue]
      simp [popped, State.setCall, State.popFront, hcbs]
  | @register cb hm =>
      have hfate := hfates.fateOk (hlist.mutex cb _ hm).1
      rw [kept_register (mt mem_removed.mp hfate.2.2.2), h.queue]
      simp [popped, State.setLife, State.pushBack]
  | @unregister cb =>
      have hlast : ((s.unregisterCallback cb).setLife cb .destroyed).source.callbacks =
          s.source.callbacks.erase cb := hlist.callbacks_unregister cb
      have hpopped : popped (tr ++ [.unregister cb (s.pending cb)]) = popped tr := by simp [popped]
      rw [hlast, hpopped]
      cases hp : s.pending cb with
      | true =>
          have hmem := (hlist.pending cb).mp hp
          have hnot : cb ∉ popped tr := fun hin =>
            (List.nodup_append.mp (h.queue ▸ hfates.nodup_kept)).2.2 cb hin cb hmem rfl
          rw [kept_unregister hfates.nodup_kept, h.queue, List.erase_append_right _ hnot]
      | false =>
          have hnot : cb ∉ s.source.callbacks := fun hmem => by
            simp [(hlist.pending cb).mpr hmem] at hp
          rw [kept_concat_of_ne (by simp) (by simp), h.queue, List.erase_of_not_mem hnot]

/-- What the winning call has popped, it has run or is about to run. -/
theorem Ordered.hand_step (h : Ordered tr s) (hone : OneWinner s) (hs : step s l = some s')
    (r : ρ) (hr : (s'.calls r).isWinner = true) :
    popped (tr ++ [l]) = begun (tr ++ [l]) ++ (s'.calls r).inHand ∧
      begun (tr ++ [l]) = completed (tr ++ [l]) ++ (s'.calls r).inRun := by
  have hone' := hone.step hs
  -- Only one call is a winner, so when one takes a step it is the one in question.
  have honly (r' : ρ) (hr' : (s'.calls r').isWinner = true) : r = r' := hone'.unique r r' hr hr'
  cases step_move hs with
  | @win r' hidle hreq =>
      obtain rfl := honly r' (by simp [Call.isWinner])
      obtain ⟨hp, hb, hc⟩ := h.idle hreq
      simp_all [popped, begun, completed, Call.inHand, Call.inRun]
  | @lose r' hidle =>
      have hne : r ≠ r' := by
        rintro rfl
        simp [Call.isWinner] at hr
      have hold := h.hand r (by simpa [hne] using hr)
      simpa [popped, begun, completed, hne] using hold
  | @finish r' hr' | @pop r' cb cbs hr' | @run r' cb hr' | @ran r' cb hr' =>
      obtain rfl := honly r' (by simp [Call.isWinner])
      have hold := h.hand r (by rw [hr']; rfl)
      simpa [popped, begun, completed, hr', Call.inHand, Call.inRun] using hold
  | enterRegister | register | refuse | invoke | invoked | unregister =>
      simpa [popped, begun, completed] using h.hand r hr

/-- Before the exchange nothing has been popped. -/
theorem Ordered.idle_step (h : Ordered tr s) (hone : OneWinner s) (hs : step s l = some s')
    (hreq : s'.source.requested = false) :
    popped (tr ++ [l]) = [] ∧ begun (tr ++ [l]) = [] ∧ completed (tr ++ [l]) = [] := by
  -- A call that takes a step in the loop has won the exchange.
  have hno {r : ρ} (hr : (s.calls r).isWinner = true) : s.source.requested ≠ false := by
    simp [hone.requested.mpr ⟨r, hr⟩]
  cases step_move hs with
  | win => cases hreq
  | lose _ hreq' => exact absurd (hreq'.symm.trans hreq) (by simp)
  | finish hr | pop hr | run hr | ran hr => exact absurd hreq (hno (by rw [hr]; rfl))
  | enterRegister | register | refuse | invoke | invoked | unregister =>
      simpa [popped, begun, completed] using h.idle hreq

theorem Ordered.step (h : Ordered tr s) (hone : OneWinner s) (hlist : ListOk s)
    (hfates : Fates tr s) (hs : step s l = some s') : Ordered (tr ++ [l]) s' where
  queue := h.queue_step hlist hfates hs
  idle := h.idle_step hone hs
  hand := h.hand_step hone hs

end Step

end BaremetalSenders.StopToken
