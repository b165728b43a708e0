import BaremetalSenders.Adaptors.SplitCompletion

/-!
What the receivers of a split sender are completed with.

There is one stored result. `complete` hands every receiver rvalue references
to it, so a receiver that takes its arguments by value moves them out, and the
next receiver is handed what is left. The channel is never affected. The
other way to be completed is the test of the stop source in `start`, which says
nothing about what the underlying operation sends.
-/

namespace BaremetalSenders.Split

variable {V E : Type*}

/-- What a sequence of receivers is handed, beginning with the result `c`. -/
def replay (recv : ℕ → Receiver V) (c : Completion V) : List ℕ → List (Completion V)
  | [] => []
  | o :: os => c :: replay recv ((recv o).leaves c) os

def remains (recv : ℕ → Receiver V) (c : Completion V) (os : List ℕ) : Completion V :=
  os.foldl (fun c o => (recv o).leaves c) c

theorem replay_concat (recv : ℕ → Receiver V) (c : Completion V) (os : List ℕ) (o : ℕ) :
    replay recv c (os ++ [o]) = replay recv c os ++ [remains recv c os] := by
  induction os generalizing c with
  | nil => rfl
  | cons o' os ih => simp only [List.cons_append, replay, ih, remains, List.foldl_cons]

theorem remains_concat (recv : ℕ → Receiver V) (c : Completion V) (os : List ℕ) (o : ℕ) :
    remains recv c (os ++ [o]) = (recv o).leaves (remains recv c os) := by
  simp [remains]

/-- All of them are handed the result itself exactly when all but the last leave
it as it is. -/
theorem replay_constant_iff (recv : ℕ → Receiver V) (c : Completion V) (os : List ℕ) :
    (∀ c' ∈ replay recv c os, c' = c) ↔ ∀ o ∈ os.dropLast, (recv o).leaves c = c := by
  induction os with
  | nil => simp [replay]
  | cons o os ih =>
      cases os with
      | nil => simp [replay]
      | cons o' os =>
          constructor
          · intro h
            have hsecond : (recv o).leaves c = c := h _ (by simp [replay])
            have hrest : ∀ c' ∈ replay recv c (o' :: os), c' = c := fun c' hc' =>
              h c' (by rw [replay, hsecond]; exact List.mem_cons_of_mem c hc')
            intro o'' ho''
            rw [List.dropLast_cons_cons, List.mem_cons] at ho''
            rcases ho'' with rfl | ho''
            · exact hsecond
            · exact ih.mp hrest o'' ho''
          · intro h
            have hfirst : (recv o).leaves c = c := h o (by simp)
            intro c' hc'
            rw [replay, hfirst, List.mem_cons] at hc'
            rcases hc' with rfl | hc'
            · rfl
            · exact ih.mpr (fun o'' ho'' => h o'' (by simp [ho''])) c' hc'

/-- What was handed out from the stored result, in this order. -/
def handed (tr : List (Event V E)) : List (Completion V) :=
  tr.filterMap fun
    | .deliver _ c => some c
    | .notified _ c => some c
    | _ => none

/-- The underlying operation has not completed. -/
def Single.isUnsent : Single V → Bool
  | .absent | .connected | .running => true
  | _ => false

/-- The completion of the underlying operation has been stored. -/
def Single.isStored : Single V → Bool
  | .notifying | .resetting _ | .delivering _ | .following _ | .notified => true
  | _ => false

/-- The stored result, by how far the completion is, what it sent and who has
been completed with it. -/
inductive Stored (recv : ℕ → Receiver V) (tr : List (Event V E)) :
    Option (Completion V) → Single V → Prop
  | unsent (g) : g.isUnsent = true → sent tr = none → served tr = [] → handed tr = [] →
      Stored recv tr none g
  | storing (c) : sent tr = some c → served tr = [] → handed tr = [] →
      Stored recv tr none (.storing c)
  | stored (c g) : g.isStored = true → sent tr = some c →
      handed tr = replay recv c (served tr) → Stored recv tr (some (remains recv c (served tr))) g

/-- The event is neither a completion from the stored result nor the completion
of the underlying operation. -/
def Event.isSilent : Event V E → Bool
  | .deliver _ _ | .notified _ _ | .complete _ => false
  | _ => true

theorem readings_silent {e : Event V E} (he : e.isSilent = true) (tr : List (Event V E)) :
    sent (tr ++ [e]) = sent tr ∧ served (tr ++ [e]) = served tr ∧
      handed (tr ++ [e]) = handed tr := by
  cases e with
  | deliver | notified | complete => cases he
  | _ => simp [sent, served, handed]

theorem Stored.silent {recv : ℕ → Receiver V} {tr : List (Event V E)} {e : Event V E}
    {v : Option (Completion V)} {g : Single V} (h : Stored recv tr v g) (he : e.isSilent = true) :
    Stored recv (tr ++ [e]) v g := by
  obtain ⟨hsent, hserved, hhanded⟩ := readings_silent he tr
  cases h with
  | unsent g hg h₁ h₂ h₃ =>
      exact .unsent g hg (hsent.trans h₁) (hserved.trans h₂) (hhanded.trans h₃)
  | storing c h₁ h₂ h₃ => exact .storing c (hsent.trans h₁) (hserved.trans h₂) (hhanded.trans h₃)
  | stored c g hg h₁ h₂ =>
      rw [← hserved]
      exact .stored c g hg (hsent.trans h₁) (by rw [hhanded, hserved, h₂])

theorem Stored.of_unsent {recv : ℕ → Receiver V} {tr : List (Event V E)}
    {v : Option (Completion V)} {g : Single V} (h : Stored recv tr v g) (hg : g.isUnsent = true) :
    v = none ∧ sent tr = none ∧ served tr = [] ∧ handed tr = [] := by
  cases h with
  | unsent _ _ h₁ h₂ h₃ => exact ⟨rfl, h₁, h₂, h₃⟩
  | storing => cases hg
  | stored _ g hg' => cases g <;> simp_all [Single.isUnsent, Single.isStored]

theorem Stored.of_storing {recv : ℕ → Receiver V} {tr : List (Event V E)}
    {v : Option (Completion V)} {c : Completion V} (h : Stored recv tr v (.storing c)) :
    v = none ∧ sent tr = some c ∧ served tr = [] ∧ handed tr = [] := by
  cases h with
  | unsent _ hg => cases hg
  | storing _ h₁ h₂ h₃ => exact ⟨rfl, h₁, h₂, h₃⟩
  | stored _ _ hg => cases hg

/-- The walk from operation to operation leaves the stored result alone. -/
theorem Stored.walk {recv : ℕ → Receiver V} {tr : List (Event V E)}
    {v : Option (Completion V)} {g g' : Single V} (h : Stored recv tr v g)
    (hg : g.isStored = true) (hg' : g'.isStored = true) : Stored recv tr v g' := by
  cases h with
  | unsent g hu => cases g <;> simp_all [Single.isUnsent, Single.isStored]
  | storing => cases hg
  | stored c _ _ h₁ h₂ => exact .stored c g' hg' h₁ h₂

/-- A receiver is handed what the result is by now. -/
theorem Stored.serve {recv : ℕ → Receiver V} {tr : List (Event V E)} {e : Event V E}
    {c : Completion V} {g g' : Single V} {o : ℕ} (h : Stored recv tr (some c) g)
    (hg' : g' = g ∨ g' = .following o) (he : e = .deliver o c ∨ e = .notified o c) :
    Stored recv (tr ++ [e]) (some ((recv o).leaves c)) g' := by
  have hsent : sent (tr ++ [e]) = sent tr := by rcases he with rfl | rfl <;> simp [sent]
  have hserved : served (tr ++ [e]) = served tr ++ [o] := by
    rcases he with rfl | rfl <;> simp [served]
  have hhanded : handed (tr ++ [e]) = handed tr ++ [c] := by
    rcases he with rfl | rfl <;> simp [handed]
  cases h with
  | stored r g hg h₁ h₂ =>
      rw [← remains_concat, ← hserved]
      refine .stored r g' ?_ (hsent.trans h₁) ?_
      · rcases hg' with rfl | rfl
        · exact hg
        · rfl
      · rw [hhanded, hserved, replay_concat, h₂]

variable [DecidableEq V] [DecidableEq E] {recv : ℕ → Receiver V}

theorem stored_step {tr : List (Event V E)} {s s' : State V E} {e : Event V E}
    {n d r : List ℕ} (hl : Layout s n d r) (h : Stored recv tr s.values s.single)
    (hs : step recv s e = some s') : Stored recv (tr ++ [e]) s'.values s'.single := by
  cases step_move hs with
  | getEnv | requestStop | check | unregister | emplace | test | setStopped | link | ret =>
      exact h.silent rfl
  | @connect o hpc =>
      have h' := h.silent (e := .connect o) rfl
      cases hg : s.single with
      | absent =>
          obtain ⟨hv, h₁, h₂, h₃⟩ := h'.of_unsent (by simp [hg, Single.isUnsent])
          simp only [State.setOp, hg, hv]
          exact .unsent _ rfl h₁ h₂ h₃
      | _ => simpa [State.setOp, hg, Single.ensure] using h'
  | deliver _ hvalues =>
      rw [hvalues] at h
      exact h.serve (.inl rfl) (.inl rfl)
  | @startSingle o hpc =>
      have hconn := (hl.first o hpc).1
      obtain ⟨hv, h₁, h₂, h₃⟩ := (h.silent (e := .startSingle o) rfl).of_unsent
        (by simp [hconn, Single.isUnsent])
      simp only [State.setOp, hv]
      exact .unsent _ rfl h₁ h₂ h₃
  | @complete c hg =>
      obtain ⟨hv, h₁, h₂, h₃⟩ := h.of_unsent (by simp [hg, Single.isUnsent])
      rw [if_pos (hl.isSome_linkedOps (by simp [hg]) (by simp [hg])), hv]
      refine .storing c ?_ ?_ ?_
      · simp only [sent] at h₁
        simp [sent, h₁]
      · simp only [served] at h₂
        simp [served, h₂]
      · simp only [handed] at h₃
        simp [handed, h₃]
  | @store c hg =>
      rw [hg] at h
      obtain ⟨-, h₁, h₂, h₃⟩ := (h.silent (e := .store) rfl).of_storing
      have hnotified : Stored recv (tr ++ [.store])
          (some (remains recv c (served (tr ++ [.store])))) .notifying :=
        .stored c .notifying rfl h₁ (by rw [h₂, h₃]; rfl)
      rwa [h₂] at hnotified
  | notify hg => exact (h.silent rfl).walk (by rw [hg]; rfl) rfl
  | resetCb hg => exact (h.silent rfl).walk (by rw [hg]; rfl) rfl
  | notified _ hvalues =>
      rw [hvalues] at h
      exact h.serve (.inr rfl) (.inr rfl)
  | @next o hg =>
      refine (h.silent rfl).walk (by rw [hg]; rfl) ?_
      cases (s.ops o).nextOps <;> rfl

theorem stored_of_run {stop : Bool} {env : Option E} {tr : List (Event V E)} {s : State V E}
    (h : Run (step recv) (.fresh stop env) tr s) : Stored recv tr s.values s.single := by
  refine Run.induction (P := fun tr s => Stored recv tr s.values s.single)
    (.unsent _ rfl rfl rfl rfl) ?_ h
  intro tr s e s' hr ih hs
  obtain ⟨n, d, r, hl, -⟩ := layout_of_run hr
  exact stored_step hl ih hs

/-! ### What each receiver has received -/

theorem received_of_run {s₀ : State V E} {tr : List (Event V E)} {s : State V E}
    (h : Run (step recv) s₀ tr s) (o : ℕ) :
    (s.ops o).received = (s₀.ops o).received ++ tr.filterMap (Event.completes o) := by
  refine Run.induction (P := fun tr s => (s.ops o).received =
    (s₀.ops o).received ++ tr.filterMap (Event.completes o)) (by simp) ?_ h
  intro tr s e s' _ ih hs
  have hconcat : (tr ++ [e]).filterMap (Event.completes o) =
      tr.filterMap (Event.completes o) ++ (Event.completes o e).toList := by
    cases he : Event.completes o e <;> simp [he]
  rw [hconcat, ← List.append_assoc, ← ih]
  cases step_move hs with
  | deliver | notified | setStopped => exact received_concat rfl
  | getEnv | complete | store | notify | next =>
      simp only [Event.completes, Option.toList_none, List.append_nil]
  | connect | requestStop | check | unregister | emplace | test | link | startSingle | ret
  | resetCb =>
      simp only [Event.completes, Option.toList_none, List.append_nil]
      exact received_setOp rfl

/-! ### One result for all -/

omit [DecidableEq V] [DecidableEq E] in
theorem mem_handed_iff {tr : List (Event V E)} {c : Completion V} :
    c ∈ handed tr ↔ ∃ o, .deliver o c ∈ tr ∨ .notified o c ∈ tr := by
  simp only [handed, List.mem_filterMap]
  constructor
  · rintro ⟨e, he, hc⟩
    cases e with
    | deliver o c' =>
        obtain rfl : c' = c := Option.some.inj hc
        exact ⟨o, .inl he⟩
    | notified o c' =>
        obtain rfl : c' = c := Option.some.inj hc
        exact ⟨o, .inr he⟩
    | _ => cases hc
  · rintro ⟨o, he | he⟩
    · exact ⟨_, he, rfl⟩
    · exact ⟨_, he, rfl⟩

/-- A receiver has been completed from the stored result or by `start`'s test of
the stop source. -/
theorem received_iff {tr : List (Event V E)} {s : State V E} {stop : Bool} {env : Option E}
    (h : Run (step recv) (.fresh stop env) tr s) (c : Completion V) :
    (∃ o, c ∈ (s.ops o).received) ↔ c ∈ handed tr ∨ c = .stopped ∧ ∃ o, .setStopped o ∈ tr := by
  have hreceived : ∀ o, (s.ops o).received = tr.filterMap (Event.completes o) :=
    fun o => by simpa [State.fresh, Op.unborn] using received_of_run h o
  simp only [hreceived, List.mem_filterMap, mem_handed_iff]
  constructor
  · rintro ⟨o, e, he, hc⟩
    cases e with
    | deliver o' c' =>
        obtain ⟨-, rfl⟩ : o' = o ∧ c' = c := by simpa [Event.completes] using hc
        exact .inl ⟨o', .inl he⟩
    | notified o' c' =>
        obtain ⟨-, rfl⟩ : o' = o ∧ c' = c := by simpa [Event.completes] using hc
        exact .inl ⟨o', .inr he⟩
    | setStopped o' =>
        obtain ⟨-, rfl⟩ : o' = o ∧ .stopped = c := by simpa [Event.completes] using hc
        exact .inr ⟨rfl, o', he⟩
    | _ => cases hc
  · rintro (⟨o, he | he⟩ | ⟨rfl, o, he⟩)
    · exact ⟨o, _, he, by simp [Event.completes]⟩
    · exact ⟨o, _, he, by simp [Event.completes]⟩
    · exact ⟨o, _, he, by simp [Event.completes]⟩

/-- Every receiver is completed with what the underlying operation sent exactly
when no operation has been stopped by its own `start`, unless the underlying
operation completed stopped, and every receiver completed from the stored result
before another one has left it as it was. -/
theorem split_same_result_iff {stop : Bool} {env : Option E} {tr : List (Event V E)}
    {s : State V E} (h : Run (step recv) (.fresh stop env) tr s) :
    (∀ o c, c ∈ (s.ops o).received → sent tr = some c) ↔
      ((∃ o, .setStopped o ∈ tr) → sent tr = some .stopped) ∧
        ∀ c, sent tr = some c → ∀ o ∈ (served tr).dropLast, (recv o).leaves c = c := by
  have hflat : (∀ o c, c ∈ (s.ops o).received → sent tr = some c) ↔
      (∀ c ∈ handed tr, sent tr = some c) ∧
        ((∃ o, .setStopped o ∈ tr) → sent tr = some .stopped) := by
    constructor
    · intro hall
      refine ⟨fun c hc => ?_, fun hstop => ?_⟩
      · obtain ⟨o, ho⟩ := (received_iff h c).mpr (.inl hc)
        exact hall o c ho
      · obtain ⟨o, ho⟩ := (received_iff h .stopped).mpr (.inr ⟨rfl, hstop⟩)
        exact hall o .stopped ho
    · rintro ⟨hhanded, hstop⟩ o c hc
      rcases (received_iff h c).mp ⟨o, hc⟩ with hc | ⟨rfl, hstopped⟩
      · exact hhanded c hc
      · exact hstop hstopped
  have hslot : (∀ c ∈ handed tr, sent tr = some c) ↔
      ∀ c, sent tr = some c → ∀ o ∈ (served tr).dropLast, (recv o).leaves c = c := by
    have hstored := stored_of_run h
    generalize s.values = v at hstored
    generalize s.single = g at hstored
    cases hstored with
    | unsent g hg h₁ h₂ h₃ => simp [h₁, h₃]
    | storing c h₁ h₂ h₃ => simp [h₂, h₃]
    | stored c g hg h₁ h₂ =>
        rw [h₁, h₂]
        simp only [Option.some.injEq, forall_eq']
        rw [← replay_constant_iff]
        exact ⟨fun h c' hc' => (h c' hc').symm, fun h c' hc' => (h c' hc').symm⟩
  rw [hflat, hslot, and_comm]

/-- Two operations, started one after the other; the underlying operation
completes from inside its `start`. -/
def replayTrace (second : ℕ) : List (Event ℕ ℕ) :=
  [.connect 0, .connect 1, .check 0 false, .emplace 0, .test 0 false, .link 0 true,
    .startSingle 0, .complete (.value 7), .store, .notify, .resetCb 0, .notified 0 (.value 7),
    .next 0, .ret 0, .check 1 true, .unregister 1, .deliver 1 (.value second), .ret 1]

theorem split_same_result_shared :
    ∃ s : State ℕ ℕ, Run (step fun _ => ⟨id, id⟩) (.fresh false (some 0)) (replayTrace 7) s ∧
      ((∀ o c, c ∈ (s.ops o).received → sent (replayTrace 7) = some c) ↔
        ((∃ o, .setStopped o ∈ replayTrace 7) → sent (replayTrace 7) = some .stopped) ∧
          ∀ c, sent (replayTrace 7) = some c → ∀ o ∈ (served (replayTrace 7)).dropLast,
            Receiver.leaves ⟨id, id⟩ c = c) := by
  obtain ⟨s, hs⟩ : ∃ s, Run (step fun _ => ⟨id, id⟩) (.fresh false (some 0)) (replayTrace 7) s :=
    exists_run_iff.mpr rfl
  exact ⟨s, hs, split_same_result_iff hs⟩

/-- When the first receiver takes its argument by value, the second is completed
with what is left of it. -/
theorem split_result_moved : ¬ ∀ (recv : ℕ → Receiver ℕ) (tr : List (Event ℕ ℕ)) (s : State ℕ ℕ),
    Run (step recv) (.fresh false (some 0)) tr s →
      ∀ o c, c ∈ (s.ops o).received → sent tr = some c := by
  intro h
  obtain ⟨s, hs⟩ : ∃ s, Run (step fun _ => ⟨fun _ => 0, id⟩) (.fresh false (some 0))
      (replayTrace 0) s := exists_run_iff.mpr rfl
  have hreceived : (s.ops 1).received = [.value 0] := by
    rw [received_of_run hs 1]
    rfl
  have := h _ _ s hs 1 (.value 0) (by simp [hreceived])
  cases this

end BaremetalSenders.Split
