import BaremetalSenders.Senders.Operations

/-!
What a sender advertises is what its receiver is completed with.

Every receiver of an adaptor makes one completion into another one, or starts a
sender that completes the receiver behind it. So it takes a signature if
whatever comes out of it in the end is among the signatures of the whole
expression, and a receiver that is handed to a sender takes all that the sender
advertises. That is computed in the environment of the outermost receiver; the
receivers of adaptors have another one, which does not forward every query. Only
a sender that is started by then can tell the two apart, by the queries it
makes, and an `into_variant` whose child can.
-/

namespace BaremetalSenders.Expressions

open Repeat (Channel)

variable {Q T : Type*}

/-! ### Expressions of sequential and looping adaptors -/

namespace Sender

/-- There is no `when_all` and no `when_any` in the expression, nor in what its functions
return. -/
def Sequential : Sender Q T → Prop
  | .leaf _ _ _ => True
  | .then _ _ s _ | .intoVariant s _ | .loop _ _ s => Sequential s
  | .let _ s dependent => Sequential s ∧ ∀ σ, Sequential (dependent σ)
  | .sequence s dependent | .inciteOn s dependent => Sequential s ∧ Sequential dependent
  | .variant _ options => ∀ i, Sequential (options i)
  | .whenAll _ _ | .whenAny => False

variable [DecidableEq T]

/-- The query is made somewhere in the expression, in an environment `e`. -/
def Reads (e : Env Q T) (q : Q) : Sender Q T → Prop
  | .leaf _ queries _ => q ∈ queries
  | .then _ _ s _ | .intoVariant s _ | .loop _ _ s => Reads e q s
  | .let tags s dependent =>
      Reads e q s ∨ ∃ σ ∈ s.signatures e, tags σ.channel = true ∧ Reads e q (dependent σ)
  | .sequence s dependent | .inciteOn s dependent => Reads e q s ∨ Reads e q dependent
  | .variant _ options => ∃ i, Reads e q (options i)
  | .whenAll _ children => ∃ i, Reads e q (children i)
  | .whenAny => False

/-- Two environments that give the same answers to the queries that are made. -/
theorem signatures_congr {s : Sender Q T} {e e' : Env Q T} (hstop : e'.stoppable = e.stoppable)
    (hquery : ∀ q, s.Reads e q → e'.query q = e.query q) :
    s.signatures e' = s.signatures e := by
  induction s with
  | leaf isSync queries sigs =>
      simp only [signatures, hstop, List.map_congr_left hquery]
  | «then» handle complete s results ih => simp only [signatures, ih hquery]
  | «let» tags s dependent ih ihd =>
      have hs : s.signatures e' = s.signatures e := ih fun q hq => hquery q (.inl hq)
      have hdependent : ∀ σ ∈ (s.signatures e).filter fun σ => tags σ.channel,
          (dependent σ).signatures e' = (dependent σ).signatures e := by
        intro σ hσ
        obtain ⟨hσ, htags⟩ := List.mem_filter.mp hσ
        exact ihd σ fun q hq => hquery q (.inr ⟨σ, hσ, htags, hq⟩)
      simp only [signatures, hs, List.flatMap_congr hdependent]
  | sequence s dependent ih ihd =>
      simp only [signatures, ih fun q hq => hquery q (.inl hq),
        ihd fun q hq => hquery q (.inr hq)]
  | inciteOn s dependent ih ihd =>
      simp only [signatures, ih fun q hq => hquery q (.inl hq),
        ihd fun q hq => hquery q (.inr hq)]
  | intoVariant s variantOf ih => simp only [signatures, ih hquery]
  | variant n options ih =>
      simp only [signatures, fun i => ih i fun q hq => hquery q ⟨i, hq⟩]
  | loop looped never s ih => simp only [signatures, ih hquery, stoppedSignatures, hstop]
  | whenAll n children ih =>
      simp only [signatures, fun i => ih i fun q hq => hquery q ⟨i, hq⟩]
  | whenAny => simp only [signatures, hstop]

end Sender

/-! ### What receivers take -/

variable [DecidableEq T] {qs : Queries Q T} {E : Env Q T} {R : Signatures T}

/-- What the receiver makes of a completion has the property, where `E` is the environment
that signatures are computed in. -/
def Handler.Passes (E : Env Q T) (P : Signature T → Prop) (σ : Signature T) : Handler Q T → Prop
  | .then handle complete results =>
      P (if σ.channel = handle then .mk (results σ.args) complete else σ)
  | .let tags sigs dependent =>
      if tags σ.channel then σ ∈ sigs → ∀ τ ∈ (dependent σ).signatures E, P τ else P σ
  | .sequence dependent | .inciteOn dependent =>
      if σ.channel = .value then ∀ τ ∈ dependent.signatures E, P τ else P σ
  | .intoVariant variant => P (if σ.channel = .value then .value [variant] else σ)
  | .loop driver => σ.channel = driver.looped ∧ driver.never = true ∨ P σ
  | .whenAll => False

/-- The receivers, completed with the signature, complete the outermost one with one of
`R`. -/
def Takes (E : Env Q T) (R : Signatures T) : List (Receiver Q T) → Signature T → Prop
  | [], σ => σ ∈ R
  | ⟨_, h⟩ :: r, σ => h.Passes E (Takes E R r) σ

/-- What the receiver starts is an expression of sequential and looping adaptors; and a loop
takes what its child advertises, and stopped if it looks for a stop request. -/
def Handler.Ready (E : Env Q T) (P : Signature T → Prop) : Handler Q T → Prop
  | .then _ _ _ | .intoVariant _ => True
  | .let _ _ dependent => ∀ σ, (dependent σ).Sequential
  | .sequence dependent | .inciteOn dependent => dependent.Sequential
  | .loop driver => driver.child.Sequential ∧
      (∀ τ ∈ driver.child.signatures E, (Handler.loop driver).Passes E P τ) ∧
      (driver.checksStop = true → E.stoppable = true → P .stopped)
  | .whenAll => False

def Ready (E : Env Q T) (R : Signatures T) : List (Receiver Q T) → Prop
  | [] => True
  | ⟨_, h⟩ :: r => h.Ready E (Takes E R r) ∧ Ready E R r

/-- The token of the outermost receiver is forwarded. -/
theorem Ready.stoppable {r : List (Receiver Q T)} (h : Ready E R r) :
    (envOf qs E r).stoppable = E.stoppable := by
  induction r with
  | nil => rfl
  | cons b r ih =>
      obtain ⟨x, hd⟩ := b
      cases hd with
      | whenAll => exact h.1.elim
      | _ => exact ih h.2

def Control.Sound (E : Env Q T) (R : Signatures T) : Control Q T → Prop
  | .start _ sndr r => sndr.Sequential ∧ Ready E R r ∧ ∀ τ ∈ sndr.signatures E, Takes E R r τ
  | .complete σ r => Ready E R r ∧ Takes E R r σ
  | .beginLoop x driver r => Ready E R (⟨x, .loop driver⟩ :: r)
  | .ret | .error => True

def Frame.Sound (E : Env Q T) (R : Signatures T) : Frame Q T → Prop
  | .loop x driver r => Ready E R (⟨x, .loop driver⟩ :: r)
  | .whenAll _ _ _ _ => False
  | .stopCallback _ => True
  | .resume control => control.Sound E R

/-- Whoever is called or waits sends only what the receiver takes. -/
structure Sound (E : Env Q T) (R : Signatures T) (s : State Q T) : Prop where
  control : s.control.Sound E R
  frames : ∀ f ∈ s.frames, f.Sound E R
  waiting : ∀ w ∈ s.waiting, Ready E R w.rcvr ∧ ∀ τ ∈ w.sigs, Takes E R w.rcvr τ
  received : ∀ σ ∈ s.received, σ ∈ R

/-! ### What adaptors advertise is what their receivers make of it -/

section Adaptors

variable {e : Env Q T} {s dependent : Sender Q T} {σ τ : Signature T}

theorem mem_signatures_then {handle complete : Channel} {results : List T → List T}
    (h : σ ∈ s.signatures e) :
    (if σ.channel = handle then .mk (results σ.args) complete else σ) ∈
      (Sender.then handle complete s results).signatures e := by
  simp only [Sender.signatures, Signatures.then_]
  cases handle with
  | value | error =>
      refine Signatures.mem_transform_of_mem h ?_
      cases σ <;> exact List.mem_singleton.mpr rfl
  | stopped =>
      cases hstopped : (s.signatures e).sendsStopped with
      | true =>
          rw [if_pos rfl]
          cases σ with
          | value args | error args =>
              exact Signatures.mem_transform_of_mem h (List.mem_singleton.mpr rfl)
          | stopped => exact Signatures.mem_transform.mpr (.inl (List.mem_singleton.mpr rfl))
      | false =>
          rw [if_neg Bool.false_ne_true]
          cases σ with
          | value args | error args => exact h
          | stopped => exact absurd h (Signatures.sendsStopped_eq_false.mp hstopped)

theorem passes_let {tags : Channel → Bool} {sigs : Signatures T} {P : Signature T → Prop}
    {dependents : Signature T → Sender Q T}
    (hP : ∀ τ ∈ (Sender.let tags s dependents).signatures E, P τ) (h : σ ∈ s.signatures E) :
    (Handler.let tags sigs dependents).Passes E P σ := by
  have hmem : ∀ τ, σ ∈ s.signatures E ∧ tags σ.channel = false ∧ τ = σ ∨
      σ ∈ s.signatures E ∧ tags σ.channel = true ∧ τ ∈ (dependents σ).signatures E →
      τ ∈ (Sender.let tags s dependents).signatures E := by
    rintro τ (⟨h, htags, rfl⟩ | ⟨h, htags, hτ⟩)
    · refine List.mem_eraseDups.mpr (List.mem_append_left _ (List.mem_filter.mpr ⟨h, ?_⟩))
      rw [htags, Bool.not_false]
    · exact List.mem_eraseDups.mpr (List.mem_append_right _
        (List.mem_flatMap.mpr ⟨σ, List.mem_filter.mpr ⟨h, htags⟩, hτ⟩))
  simp only [Handler.Passes]
  split
  · next htags => exact fun _ τ hτ => hP τ (hmem τ (.inr ⟨h, htags, hτ⟩))
  · next htags => exact hP σ (hmem σ (.inl ⟨h, Bool.eq_false_iff.mpr htags, rfl⟩))

/-- What a child sends that is not a value is sent on, by `sequence` and by `incite_on`. -/
theorem mem_passed_on {sigs : Signatures T} (h : σ ∈ s.signatures E) (hσ : σ.channel ≠ .value) :
    σ ∈ ((s.signatures E).filter (fun σ => σ.channel == .error) ++
      (s.signatures E).filter (fun σ => σ.channel == .stopped) ++ sigs).eraseDups := by
  refine List.mem_eraseDups.mpr (List.mem_append_left _ (List.mem_append.mpr ?_))
  cases σ with
  | value args => exact absurd rfl hσ
  | error args => exact .inl (List.mem_filter.mpr ⟨h, rfl⟩)
  | stopped => exact .inr (List.mem_filter.mpr ⟨h, rfl⟩)

theorem passes_sequence {P : Signature T → Prop}
    (hP : ∀ τ ∈ (Sender.sequence s dependent).signatures E, P τ) (h : σ ∈ s.signatures E) :
    (Handler.sequence dependent).Passes E P σ := by
  simp only [Handler.Passes]
  split
  · exact fun τ hτ => hP τ (List.mem_eraseDups.mpr (List.mem_append_right _ hτ))
  · next hσ => exact hP σ (mem_passed_on h hσ)

theorem passes_inciteOn {P : Signature T → Prop}
    (hP : ∀ τ ∈ (Sender.inciteOn s dependent).signatures E, P τ) (h : σ ∈ s.signatures E) :
    (Handler.inciteOn dependent).Passes E P σ := by
  simp only [Handler.Passes]
  split
  · next hσ =>
      have hvalue : (s.signatures E).sendsValue = true :=
        List.any_eq_true.mpr ⟨σ, h, beq_iff_eq.mpr hσ⟩
      refine fun τ hτ => hP τ (List.mem_eraseDups.mpr (List.mem_append_right _ ?_))
      rwa [if_pos hvalue]
  · next hσ => exact hP σ (mem_passed_on h hσ)

theorem passes_intoVariant {variantOf : List (List T) → T} {P : Signature T → Prop}
    (hP : ∀ τ ∈ (Sender.intoVariant s variantOf).signatures E, P τ) (h : σ ∈ s.signatures E) :
    (Handler.intoVariant (variantOf (valueTypes (s.signatures E)).eraseDups)).Passes E P σ := by
  refine hP _ ?_
  cases σ with
  | value args => exact Signatures.mem_transform.mpr (.inl (List.mem_singleton.mpr rfl))
  | error args | stopped =>
      exact Signatures.mem_transform_of_mem h (List.mem_singleton.mpr rfl)

theorem passes_loop {driver : Driver Q T} {P : Signature T → Prop}
    (hP : ∀ τ ∈ (Sender.loop driver.looped driver.never s).signatures E, P τ)
    (h : σ ∈ s.signatures E) : (Handler.loop driver).Passes E P σ := by
  by_cases hlooped : σ.channel = driver.looped ∧ driver.never = true
  · exact .inl hlooped
  · have hsent : ¬ (driver.never && driver.looped == σ.channel) = true := fun hnever =>
      hlooped ⟨(beq_iff_eq.mp (Bool.and_eq_true_iff.mp hnever).2).symm,
        (Bool.and_eq_true_iff.mp hnever).1⟩
    refine .inr (hP σ (Signatures.mem_transform_of_mem h ?_))
    cases σ with
    | value args | error args =>
        simp only [Signature.channel] at hsent
        simp only [if_neg hsent]
        exact List.mem_singleton.mpr rfl
    | stopped => exact List.mem_singleton.mpr rfl

/-- A loop that looks for a stop request advertises stopped. -/
theorem stopped_mem_loop {looped : Channel} {never : Bool} (h : E.stoppable = true) :
    .stopped ∈ (Sender.loop looped never s).signatures E := by
  refine Signatures.mem_transform.mpr (.inl ?_)
  rw [stoppedSignatures, if_pos h]
  exact List.mem_singleton.mpr rfl

end Adaptors

/-! ### Steps -/

/-- What is started makes no query that is answered otherwise than in the environment of the
outermost receiver, if it can tell. -/
def Answered (qs : Queries Q T) (E : Env Q T) (s : State Q T) (_ : Event T) : Prop :=
  match s.control with
  | .start _ (.leaf isSync queries sigs) r =>
      ∀ q, (Sender.leaf isSync queries sigs).Reads E q → (envOf qs E r).query q = E.query q
  | .start _ (.intoVariant child _) r =>
      ∀ q, child.Reads E q → (envOf qs E r).query q = E.query q
  | _ => True

section Steps

variable {s s' : State Q T} {x : Place} {r : List (Receiver Q T)}

/-- Something else is called. -/
theorem Sound.call {c : Control Q T} {m : Slots} (h : Sound E R s) (hc : c.Sound E R) :
    Sound E R { s with control := c, slots := m } :=
  ⟨hc, h.frames, h.waiting, h.received⟩

theorem Sound.of_start {sndr : Sender Q T} (h : Sound E R s) (hc : s.control = .start x sndr r) :
    sndr.Sequential ∧ Ready E R r ∧ ∀ τ ∈ sndr.signatures E, Takes E R r τ := by
  have hcontrol := h.control
  rwa [hc] at hcontrol

theorem Sound.of_complete {σ : Signature T} (h : Sound E R s) (hc : s.control = .complete σ r) :
    Ready E R r ∧ Takes E R r σ := by
  have hcontrol := h.control
  rwa [hc] at hcontrol

theorem Sound.of_beginLoop {driver : Driver Q T} (h : Sound E R s)
    (hc : s.control = .beginLoop x driver r) : Ready E R (⟨x, .loop driver⟩ :: r) := by
  have hcontrol := h.control
  rwa [hc] at hcontrol

theorem sound_start {sndr : Sender Q T} {l : Event T} (h : Sound E R s)
    (hc : s.control = .start x sndr r) (hs : start qs E s x r sndr = some s')
    (hl : Answered qs E s l) : Sound E R s' := by
  obtain ⟨hseq, hready, htakes⟩ := h.of_start hc
  cases sndr with
  | leaf | variant | whenAny => cases hs
  | whenAll => cases hseq
  | «then» handle complete child results =>
      cases hs
      exact h.call ⟨hseq, ⟨True.intro, hready⟩, fun τ hτ => htakes _ (mem_signatures_then hτ)⟩
  | «let» tags child dependent =>
      cases hs
      exact h.call ⟨hseq.1, ⟨hseq.2, hready⟩, fun τ hτ => passes_let htakes hτ⟩
  | sequence child dependent =>
      cases hs
      exact h.call ⟨hseq.1, ⟨hseq.2, hready⟩, fun τ hτ => passes_sequence htakes hτ⟩
  | inciteOn child dependent =>
      cases hs
      exact h.call ⟨hseq.1, ⟨hseq.2, hready⟩, fun τ hτ => passes_inciteOn htakes hτ⟩
  | intoVariant child variantOf =>
      -- the variant type is that of the environment it is connected in
      cases hs
      rw [Answered, hc] at hl
      rw [Sender.signatures_congr hready.stoppable hl]
      exact h.call ⟨hseq, ⟨True.intro, hready⟩, fun τ hτ => passes_intoVariant htakes hτ⟩
  | loop looped never child =>
      have hloop : ∀ driver : Driver Q T, driver.looped = looped → driver.never = never →
          driver.child = child → Ready E R (⟨x, .loop driver⟩ :: r) := by
        rintro driver rfl rfl rfl
        exact ⟨⟨hseq, fun τ hτ => passes_loop htakes hτ, fun _ hstop =>
          htakes _ (stopped_mem_loop hstop)⟩, hready⟩
      simp only [start] at hs
      split at hs <;> cases hs
      · exact ⟨True.intro, List.forall_mem_cons.mpr ⟨hloop _ rfl rfl rfl, h.frames⟩, h.waiting,
          h.received⟩
      · exact h.call (hloop _ rfl rfl rfl)

theorem sound_handle {σ : Signature T} {hd : Handler Q T} (h : Sound E R s)
    (hc : s.control = .complete σ (⟨x, hd⟩ :: r)) (hs : handle s σ x r hd = some s') :
    Sound E R s' := by
  obtain ⟨⟨hhd, hready⟩, htakes⟩ := h.of_complete hc
  simp only [Takes] at htakes
  cases hd with
  | «then» | intoVariant =>
      cases hs
      exact h.call ⟨hready, htakes⟩
  | «let» tags sigs dependent =>
      simp only [handle] at hs
      simp only [Handler.Passes] at htakes
      split at hs
      · next htags =>
          split at hs <;> cases hs
          next hσ =>
            rw [if_pos htags] at htakes
            exact h.call ⟨hhd σ, hready, htakes hσ⟩
      · next htags =>
          cases hs
          rw [if_neg htags] at htakes
          exact h.call ⟨hready, htakes⟩
  | sequence dependent | inciteOn dependent =>
      simp only [handle] at hs
      simp only [Handler.Passes] at htakes
      split at hs
      · next hσ =>
          cases hs
          rw [if_pos hσ] at htakes
          exact h.call ⟨hhd, hready, htakes⟩
      · next hσ =>
          cases hs
          rw [if_neg hσ] at htakes
          exact h.call ⟨hready, htakes⟩
  | loop driver =>
      simp only [handle] at hs
      split at hs <;> cases hs
      next hσ => exact h.call ⟨hready, htakes.resolve_left fun hlooped => hσ hlooped.1⟩
  | whenAll => cases hhd

theorem sound_step {l : Event T} (h : Sound E R s) (hs : step qs E s l = some s')
    (hl : Answered qs E s l) : Sound E R s' := by
  have hframes {f : Frame Q T} {fs : List (Frame Q T)} (hfs : s.frames = f :: fs) :
      f.Sound E R ∧ ∀ f ∈ fs, f.Sound E R := List.forall_mem_cons.mp (hfs ▸ h.frames)
  cases step_move hs with
  | start x sndr r _ hc hs => exact sound_start h hc hs hl
  | handle σ x hd r _ hc hs => exact sound_handle h hc hs
  | option x n options r i hc =>
      obtain ⟨hseq, hready, htakes⟩ := h.of_start hc
      refine h.call ⟨hseq i, hready, fun τ hτ => htakes τ (List.mem_eraseDups.mpr ?_)⟩
      exact List.mem_flatten.mpr ⟨_, List.mem_ofFn.mpr ⟨i, rfl⟩, hτ⟩
  | send x queries sigs r σ hc hσ =>
      obtain ⟨-, hready, htakes⟩ := h.of_start hc
      rw [Answered, hc] at hl
      rw [Sender.signatures_congr hready.stoppable hl] at hσ
      exact h.call ⟨hready, htakes σ hσ⟩
  | wait x queries sigs r hc =>
      obtain ⟨-, hready, htakes⟩ := h.of_start hc
      rw [Answered, hc] at hl
      rw [Sender.signatures_congr hready.stoppable hl]
      exact ⟨True.intro, h.frames, List.forall_mem_cons.mpr ⟨⟨hready, htakes⟩, h.waiting⟩,
        h.received⟩
  -- there is no `when_any`
  | waitAny x r hc | stopRequested x r hc => exact (h.of_start hc).1.elim
  | evaluateYes σ x driver r hc hσ hnever =>
      obtain ⟨⟨-, hready⟩, htakes⟩ := h.of_complete hc
      refine h.call ⟨hready, htakes.resolve_left fun hlooped => ?_⟩
      rw [hnever] at hlooped
      cases hlooped.2
  | evaluateNo σ x driver r hc hσ =>
      obtain ⟨hloop, -⟩ := h.of_complete hc
      refine h.call ?_
      split
      · exact True.intro
      · exact hloop
  | receive σ hc =>
      obtain ⟨-, hσ⟩ := h.of_complete hc
      refine ⟨True.intro, h.frames, h.waiting, fun τ hτ => ?_⟩
      rcases List.mem_append.mp hτ with hτ | hτ
      · exact h.received τ hτ
      · exact List.mem_singleton.mp hτ ▸ hσ
  | «begin» x driver r k hc hk =>
      have hloop := h.of_beginLoop hc
      exact h.call ⟨hloop.1.1, hloop, hloop.1.2.1⟩
  | beginStopped x driver r hc hchecks hstop =>
      have hloop := h.of_beginLoop hc
      exact h.call ⟨hloop.2, hloop.1.2.2 hchecks (hloop.2.stoppable ▸ hstop)⟩
  | again x driver r fs hc hfs => exact h.call (hframes hfs).1
  | endLoop x driver r fs hc hfs | resetCallback x fs hc hfs =>
      exact ⟨h.control, (hframes hfs).2, h.waiting, h.received⟩
  | nextChild x child rest sigs r fs hc hfs => exact (hframes hfs).1.elim
  | finish x sigs r fs σ hc hfs => exact (hframes hfs).1.elim
  | resume c fs hc hfs => exact ⟨(hframes hfs).1, (hframes hfs).2, h.waiting, h.received⟩
  | fire i w σ hw hσ =>
      obtain ⟨hready, htakes⟩ := h.waiting w (List.mem_of_getElem? hw)
      refine ⟨⟨hready, htakes σ hσ⟩, ?_, fun w hw => h.waiting w (List.mem_of_mem_eraseIdx hw),
        h.received⟩
      -- what is interrupted goes on afterwards, and is as it was
      intro f hf
      rcases List.mem_append.mp hf with hf | hf
      · split at hf
        · exact List.mem_singleton.mp hf ▸ True.intro
        · cases hf
      · rcases List.mem_cons.mp hf with rfl | hf
        · exact h.control
        · exact h.frames f hf
  | fault => exact h.call True.intro

end Steps

/-! ### Runs -/

omit [DecidableEq T] in
/-- A query that is forwarded, or that has the fallback for its answer, is answered alike
everywhere. -/
theorem query_envOf {q : Q} (h : qs.forwards q = true ∨ E.query q = qs.fallback q)
    (r : List (Receiver Q T)) : (envOf qs E r).query q = E.query q := by
  induction r with
  | nil => rfl
  | cons b r ih =>
      have hforward : ((envOf qs E r).forward qs).query q = E.query q := by
        simp only [Env.forward]
        split
        · exact ih
        · next hq => exact (h.resolve_left hq).symm
      obtain ⟨x, hd⟩ := b
      cases hd with
      | whenAll => exact ih
      | _ => exact hforward

theorem answered_of_forwards (h : ∀ q, qs.forwards q = true ∨ E.query q = qs.fallback q)
    (s : State Q T) (l : Event T) : Answered qs E s l := by
  simp only [Answered]
  split
  · next r _ => exact fun q _ => query_envOf (h q) r
  · next r _ => exact fun q _ => query_envOf (h q) r
  · exact True.intro

/-- In an expression of sequential and looping adaptors, the completions of the outermost
receiver are among those that are advertised for its environment, where no query is
made that an adaptor does not forward and that has another answer then. -/
theorem received_advertised (qs : Queries Q T) (E : Env Q T) (s : Sender Q T)
    (hseq : s.Sequential) (tr : List (Event T)) (st : State Q T)
    (h : Run (step qs E) (.init s) tr st)
    (hanswered : EachStep (step qs E) (Answered qs E) (.init s) tr) :
    ∀ σ ∈ st.received, σ ∈ s.signatures E := by
  have hinit : Sound E (s.signatures E) (.init s) :=
    ⟨⟨hseq, True.intro, fun _ hτ => hτ⟩, nofun, nofun, nofun⟩
  have hsound : Sound E (s.signatures E) st := h.induction_of_eachStep
    (P := fun _ st => Sound E (s.signatures E) st) hinit
    (fun _ _ _ _ _ ih hl hs => sound_step ih hs hl) hanswered
  exact hsound.received

/-- A query that is forwarded, and one that is not. -/
def nofwd : Queries Bool ℕ := ⟨id, fun _ => some 1⟩

/-- A receiver that has an answer to the first, and a token. -/
def fwdEnv : Env Bool ℕ := ⟨true, fun q => some (if q then 0 else 1)⟩

/-- `read_env(get_fwd, get_nofwd) | let_value([](auto...) { return just_error(x); }) |
upon_error(f) | repeat_until(pred)`. -/
def readRepeated : Sender Bool ℕ :=
  .repeatUntil false
    (.uponError (.letValue (.readEnv [true, false]) fun _ => .just .error [2]) fun _ => [3])

/-- The predicate says yes the second time. -/
def readRepeatedTrace : List (Event ℕ) :=
  let once : List (Event ℕ) := [.again, .begin, .start, .start, .send (.value [0, 1]), .handle,
    .send (.error [2]), .handle]
  .start :: (once ++ [.evaluate false] ++ once ++ [.evaluate true, .receive])

theorem received_advertised_repeated : ∃ st,
    Run (step nofwd fwdEnv) (.init readRepeated) readRepeatedTrace st ∧
      st.received = [.value [3]] ∧ ∀ σ ∈ st.received, σ ∈ readRepeated.signatures fwdEnv := by
  obtain ⟨st, hst⟩ : ∃ st, Run (step nofwd fwdEnv) (.init readRepeated) readRepeatedTrace st :=
    exists_run_iff.mpr rfl
  have hview : (exec (step nofwd fwdEnv) (.init readRepeated) readRepeatedTrace).map
      State.received = some [.value [3]] := rfl
  rw [show exec _ _ readRepeatedTrace = some st from hst] at hview
  simp only [Option.map_some, Option.some.injEq] at hview
  have hforwards : ∀ q, nofwd.forwards q = true ∨ fwdEnv.query q = nofwd.fallback q := by
    decide
  refine ⟨st, hst, hview, received_advertised nofwd fwdEnv readRepeated ?_ _ st hst ?_⟩
  · exact ⟨True.intro, fun _ => True.intro⟩
  · exact EachStep.of_forall_mem fun l _ s => answered_of_forwards hforwards s l

/-- A receiver that has answers to both. -/
def propEnv : Env Bool ℕ := ⟨true, fun _ => some 0⟩

/-- `read_env(get_nofwd) | then(id)`. -/
def readThen : Sender Bool ℕ := .then_ (.readEnv [false]) id

/-- It advertises what the environment of the receiver answers, and sends the fallback. -/
theorem not_advertised_read_env : ¬ ∀ (qs : Queries Bool ℕ) (E : Env Bool ℕ)
    (s : Sender Bool ℕ) (tr : List (Event ℕ)) (st : State Bool ℕ), s.Sequential →
    Run (step qs E) (.init s) tr st → ∀ σ ∈ st.received, σ ∈ s.signatures E := by
  intro hall
  obtain ⟨st, hst⟩ : ∃ st, Run (step nofwd propEnv) (.init readThen)
      [.start, .send (.value [1]), .handle, .receive] st := exists_run_iff.mpr rfl
  have hview : (exec (step nofwd propEnv) (.init readThen)
      [.start, .send (.value [1]), .handle, .receive]).map State.received =
      some [.value [1]] := rfl
  rw [show exec _ _ _ = some st from hst] at hview
  simp only [Option.map_some, Option.some.injEq] at hview
  have hmem := hall nofwd propEnv readThen _ st True.intro hst (.value [1])
    (hview ▸ List.mem_singleton.mpr rfl)
  have hsigs : readThen.signatures propEnv = [.value [0]] := rfl
  rw [hsigs] at hmem
  simp at hmem

end BaremetalSenders.Expressions
