import BaremetalSenders.Senders.Operations

/-!
What `completes_synchronously` promises.

While `start` of a synchronous operation is under way, one of the calls and
frames has to see to it that the receiver is completed, and no other one. It is
the call that is made, by way of the receivers it has; or when a call returns, a
loop that has a child again, or a `when_all` that has not come to its end. A
loop is done with when its operation has no child any more. Since the operations
that wait for a completion all have one, what is put into them leaves the loops
alone that are done with.
-/

namespace BaremetalSenders.Expressions

open Repeat (Channel)

variable {Q T : Type*}

/-! ### The attributes of senders and of operation states -/

theorem all_ofFn {n : ℕ} {p : Fin n → Bool} : (List.ofFn p).all id = true ↔ ∀ i, p i = true := by
  simp [List.all_eq_true]

variable [DecidableEq T] {qs : Queries Q T} {e : Env Q T}

/-- An operation state is synchronous if its sender is. -/
theorem opSynchronous_of_synchronous {s : Sender Q T} (h : s.synchronous = true) (e : Env Q T) :
    s.opSynchronous qs e = true := by
  induction s generalizing e with
  | leaf isSync queries sigs => exact h
  | «then» handle complete s results ih => exact ih h _
  | «let» tags s dependent => cases h
  | sequence s dependent ih ihd =>
      obtain ⟨hs, hd⟩ := Bool.and_eq_true_iff.mp h
      exact Bool.and_eq_true_iff.mpr ⟨ih hs _, ihd hd _⟩
  | inciteOn s dependent => cases h
  | intoVariant s variantOf => cases h
  | variant n options ih => exact all_ofFn.mpr fun i => ih i (all_ofFn.mp h i) e
  | loop looped never s ih => exact ih h _
  | whenAll n children => exact h
  | whenAny => rfl

/-! ### Who completes the receiver -/

/-- The receiver has a pointer to an operation with a variant in it. -/
def Handler.hasStorage : Handler Q T → Bool
  | .then _ _ _ | .intoVariant _ => false
  | .let _ _ _ | .sequence _ | .inciteOn _ | .loop _ | .whenAll => true

/-- The operation at `x` is in those that the receivers point to. -/
def Inside (x : Place) (r : List (Receiver Q T)) : Prop :=
  ∀ h ∈ r, h.handler.hasStorage = true → h.ops.around x = true

def Held (m : Slots) (x : Place) : Prop := m.Known x ∧ m.active x ≠ none

/-- The frame has nothing more to do with the receiver. -/
def Frame.Idle (m : Slots) : Frame Q T → Prop
  | .loop x _ _ => m.active x = none
  | .stopCallback _ => True
  | .whenAll _ _ _ _ | .resume _ => False

/-- The loop is over a synchronous child. -/
def Driver.Sync (qs : Queries Q T) (e : Env Q T) (d : Driver Q T) : Prop :=
  d.isSync = true ∧ d.child.opSynchronous qs (e.forward qs) = true

/-- What the receiver starts is synchronous. `e` is the environment of the receiver
behind it. -/
def Handler.Sync (qs : Queries Q T) (e : Env Q T) : Handler Q T → Prop
  | .then _ _ _ | .intoVariant _ => True
  | .let _ sigs dependent => ∀ σ ∈ sigs, (dependent σ).opSynchronous qs e = true
  | .sequence dependent => dependent.opSynchronous qs e = true
  | .inciteOn _ | .loop _ | .whenAll => False

/-- The children of a `when_all` that are left are synchronous, and it has something to send
when they have completed. -/
def AllSync (rest : List (Sender Q T)) (sigs : Signatures T) : Prop :=
  (∀ c ∈ rest, c.synchronous = true) ∧ ∃ σ ∈ sigs, σ.channel ≠ .stopped

/-- A completion of the receivers is due. The frames are those of the loops among the
receivers and of a `when_all` among them, and idle ones. -/
inductive Owes (qs : Queries Q T) (e : Env Q T) (m : Slots) :
    List (Frame Q T) → List (Receiver Q T) → Prop
  | root : Owes qs e m [] []
  | idle (f F r) : f.Idle m → Owes qs e m F r → Owes qs e m (f :: F) r
  | adaptor (x h F r) : (h.hasStorage = true → Held m x) → Inside x r →
      h.Sync qs (envOf qs e r) → Owes qs e m F r → Owes qs e m F (⟨x, h⟩ :: r)
  | loop (x d F r) : Held m x → Inside x r → d.Sync qs (envOf qs e r) → Owes qs e m F r →
      Owes qs e m (.loop x d r :: F) (⟨x, .loop d⟩ :: r)
  | whenAll (x rest sigs F r) : Held m x → Inside x r → AllSync rest sigs → Owes qs e m F r →
      Owes qs e m (.whenAll x rest sigs r :: F) (⟨x, .whenAll⟩ :: r)

/-- A frame will see to it that the receiver is completed when the call has returned. -/
inductive Returns (qs : Queries Q T) (e : Env Q T) (m : Slots) : List (Frame Q T) → Prop
  | idle (f F) : f.Idle m → Returns qs e m F → Returns qs e m (f :: F)
  | loop (x d F r k) : m.Known x → m.active x = some k → m.Fresh (k :: x) → Inside x r →
      d.Sync qs (envOf qs e r) → Owes qs e m F r → Returns qs e m (.loop x d r :: F)
  | whenAll (x rest sigs F r) : Held m x → Inside x r → AllSync rest sigs → Owes qs e m F r →
      Returns qs e m (.whenAll x rest sigs r :: F)

section Owes

variable {m m' : Slots} {x y : Place} {F : List (Frame Q T)} {r : List (Receiver Q T)}

omit [DecidableEq T] in
theorem Inside.cons (h : Inside x r) (k : ℕ) : Inside (k :: x) r :=
  fun b hb hs => Slots.around_cons k (h b hb hs)

omit [DecidableEq T] in
/-- A receiver that points to the operation at `x`, and those behind it. -/
theorem Inside.push (h : Inside x r) (k : ℕ) (b : Handler Q T) :
    Inside (k :: x) (⟨x, b⟩ :: r) := by
  rintro c hc hs
  rcases List.mem_cons.mp hc with rfl | hc
  · exact Slots.around_cons_self k x
  · exact Slots.around_cons k (h c hc hs)

omit [DecidableEq T] in
theorem Inside.wrap (h : Inside x r) {b : Handler Q T} (hb : b.hasStorage = false) :
    Inside x (⟨x, b⟩ :: r) := by
  rintro c hc hs
  rcases List.mem_cons.mp hc with rfl | hc
  · simp [hb] at hs
  · exact h c hc hs

theorem Held.replaced (h : Held m x) (hrep : Slots.Replaced m y m') (hne : x ≠ y) : Held m' x :=
  ⟨h.1.replaced hrep, by rw [hrep.active x hne]; exact h.2⟩

omit [DecidableEq T] in
theorem Frame.Idle.replaced {f : Frame Q T} (h : f.Idle m) (hrep : Slots.Replaced m y m')
    (hy : m.active y ≠ none ∨ m'.active y = none) : f.Idle m' := by
  cases f with
  | loop x d r =>
      by_cases hx : x = y
      · subst hx
        exact hy.resolve_left fun hne => hne h
      · exact (hrep.active x hx).trans h
  | stopCallback => exact True.intro
  | whenAll | resume => cases h

/-- Something else, or nothing, in an operation that none of the receivers points to. -/
theorem Owes.replaced (h : Owes qs e m F r) (hrep : Slots.Replaced m y m') (hin : Inside y r)
    (hy : m.active y ≠ none ∨ m'.active y = none) : Owes qs e m' F r := by
  have hne {b : Receiver Q T} {r : List (Receiver Q T)} (hin : Inside y (b :: r))
      (hb : b.handler.hasStorage = true) : b.ops ≠ y := by
    rintro rfl
    have haround := hin b List.mem_cons_self hb
    rw [Slots.around_irrefl_of_suffix (List.suffix_refl _)] at haround
    cases haround
  have htail {b : Receiver Q T} {r : List (Receiver Q T)} (hin : Inside y (b :: r)) : Inside y r :=
    fun c hc => hin c (List.mem_cons_of_mem b hc)
  -- what is replaced is inside all operations that the receivers point to, so none of them
  induction h with
  | root => exact .root
  | idle f F r hf _ ih => exact .idle f F r (hf.replaced hrep hy) (ih hin)
  | adaptor x b F r hheld hinside hsync _ ih =>
      exact .adaptor x b F r (fun hb => (hheld hb).replaced hrep (hne hin hb)) hinside hsync
        (ih (htail hin))
  | loop x d F r hheld hinside hsync _ ih =>
      exact .loop x d F r (hheld.replaced hrep (hne hin rfl)) hinside hsync (ih (htail hin))
  | whenAll x rest sigs F r hheld hinside hsync _ ih =>
      exact .whenAll x rest sigs F r (hheld.replaced hrep (hne hin rfl)) hinside hsync
        (ih (htail hin))

/-- The outermost receiver is completed. -/
theorem Owes.root_idle (h : Owes qs e m F []) : ∀ f ∈ F, f.Idle m := by
  generalize hr : ([] : List (Receiver Q T)) = r at h
  induction h with
  | root => exact nofun
  | idle f F r hf _ ih => exact List.forall_mem_cons.mpr ⟨hf, ih hr⟩
  | adaptor | loop | whenAll => cases hr

/-- The receiver is that of an adaptor without a frame. -/
theorem Owes.of_adaptor {h : Handler Q T} (howes : Owes qs e m F (⟨x, h⟩ :: r))
    (hloop : ∀ d, h ≠ .loop d) (hall : h ≠ .whenAll) :
    (h.hasStorage = true → Held m x) ∧ Inside x r ∧ h.Sync qs (envOf qs e r) ∧
      Owes qs e m F r := by
  generalize hr : (⟨x, h⟩ :: r : List (Receiver Q T)) = r' at howes
  induction howes with
  | root => cases hr
  | idle f F r' hf _ ih =>
      obtain ⟨hheld, hinside, hsync, howes⟩ := ih hr
      exact ⟨hheld, hinside, hsync, .idle f F r hf howes⟩
  | adaptor x' h' F r' hheld hinside hsync howes =>
      cases hr
      exact ⟨hheld, hinside, hsync, howes⟩
  | loop x' d F r' =>
      cases hr
      exact absurd rfl (hloop d)
  | whenAll =>
      cases hr
      exact absurd rfl hall

/-- The receiver is that of a loop, whose frame is there. -/
theorem Owes.of_loop {d : Driver Q T} (howes : Owes qs e m F (⟨x, .loop d⟩ :: r)) :
    ∃ F₁ F₂, F = F₁ ++ .loop x d r :: F₂ ∧ (∀ f ∈ F₁, f.Idle m) ∧ Held m x ∧ Inside x r ∧
      d.Sync qs (envOf qs e r) ∧ Owes qs e m F₂ r := by
  generalize hr : (⟨x, .loop d⟩ :: r : List (Receiver Q T)) = r' at howes
  induction howes with
  | root => cases hr
  | idle f F r' hf _ ih =>
      obtain ⟨F₁, F₂, rfl, hidle, hrest⟩ := ih hr
      exact ⟨f :: F₁, F₂, rfl, List.forall_mem_cons.mpr ⟨hf, hidle⟩, hrest⟩
  | adaptor x' h F r' _ _ hsync =>
      cases hr
      cases hsync
  | loop x' d' F r' hheld hinside hsync howes =>
      cases hr
      exact ⟨[], F, rfl, nofun, hheld, hinside, hsync, howes⟩
  | whenAll => cases hr

/-- The receiver is that of a `when_all`, whose frame is there. -/
theorem Owes.of_whenAll (howes : Owes qs e m F (⟨x, .whenAll⟩ :: r)) : Returns qs e m F := by
  generalize hr : (⟨x, .whenAll⟩ :: r : List (Receiver Q T)) = r' at howes
  induction howes with
  | root => cases hr
  | idle f F r' hf _ ih => exact .idle f F hf (ih hr)
  | adaptor x' h F r' _ _ hsync =>
      cases hr
      cases hsync
  | loop => cases hr
  | whenAll x' rest sigs F r' hheld hinside hsync howes =>
      exact .whenAll x' rest sigs F r' hheld hinside hsync howes

/-- Idle frames in front. -/
theorem Owes.append {F₁ : List (Frame Q T)} (h : Owes qs e m F r) (hidle : ∀ f ∈ F₁, f.Idle m) :
    Owes qs e m (F₁ ++ F) r := by
  induction F₁ with
  | nil => exact h
  | cons f F₁ ih =>
      obtain ⟨hf, hidle⟩ := List.forall_mem_cons.mp hidle
      exact .idle f _ r hf (ih hidle)

theorem Returns.append {F₁ : List (Frame Q T)} (h : Returns qs e m F)
    (hidle : ∀ f ∈ F₁, f.Idle m) : Returns qs e m (F₁ ++ F) := by
  induction F₁ with
  | nil => exact h
  | cons f F₁ ih =>
      obtain ⟨hf, hidle⟩ := List.forall_mem_cons.mp hidle
      exact .idle f _ hf (ih hidle)

/-- The operation at `x` has no child any more, so the loop is done with. -/
theorem Owes.reset {d : Driver Q T} {F₁ : List (Frame Q T)} (h : Owes qs e m F r)
    (hx : Held m x) (hin : Inside x r) (hidle : ∀ f ∈ F₁, f.Idle m) :
    Owes qs e (m.reset x) (F₁ ++ .loop x d r :: F) r := by
  have hrep := Slots.replaced_reset m x
  have hnone : (m.reset x).active x = none := by simp [Slots.reset]
  refine Owes.append ?_ fun f hf => (hidle f hf).replaced hrep (.inr hnone)
  exact .idle _ F r hnone (h.replaced hrep hin (.inl hx.2))

end Owes

/-! ### The calls of `start` -/

/-- The completion of the receiver is due, or it has been completed and all frames are
idle. -/
def Due (qs : Queries Q T) (e : Env Q T) (s : State Q T) : Prop :=
  match s.control with
  | .start x sndr r => s.received = [] ∧ sndr.opSynchronous qs (envOf qs e r) = true ∧
      s.slots.Known x ∧ s.slots.Fresh x ∧ Inside x r ∧ Owes qs e s.slots s.frames r
  | .complete _ r => s.received = [] ∧ Owes qs e s.slots s.frames r
  | .beginLoop x d r => s.received = [] ∧ ∃ F k, s.frames = .loop x d r :: F ∧ s.slots.Known x ∧
      s.slots.active x = some k ∧ s.slots.Fresh (k :: x) ∧ Inside x r ∧
      d.Sync qs (envOf qs e r) ∧ Owes qs e s.slots F r
  | .ret => s.received = [] ∧ Returns qs e s.slots s.frames ∨
      (∃ σ, s.received = [σ]) ∧ ∀ f ∈ s.frames, f.Idle s.slots
  | .error => False

structure Good (qs : Queries Q T) (e : Env Q T) (s : State Q T) : Prop where
  untouched : s.slots.Untouched
  quiet : s.waiting = []
  due : Due qs e s

section Steps

variable {s s' : State Q T} {x : Place} {r : List (Receiver Q T)}

theorem held_of_fresh {m : Slots} (hknown : m.Known x) (hfresh : m.Fresh x) : Held m x :=
  ⟨hknown, by simp [(hfresh x (List.suffix_refl x)).1]⟩

theorem Good.of_start {sndr : Sender Q T} (h : Good qs e s)
    (hc : s.control = .start x sndr r) : s.received = [] ∧
      sndr.opSynchronous qs (envOf qs e r) = true ∧ s.slots.Known x ∧ s.slots.Fresh x ∧
      Inside x r ∧ Owes qs e s.slots s.frames r := by
  have hdue := h.due
  rwa [Due, hc] at hdue

theorem Good.of_complete {σ : Signature T} (h : Good qs e s) (hc : s.control = .complete σ r) :
    s.received = [] ∧ Owes qs e s.slots s.frames r := by
  have hdue := h.due
  rwa [Due, hc] at hdue

theorem Good.of_beginLoop {d : Driver Q T} (h : Good qs e s)
    (hc : s.control = .beginLoop x d r) : s.received = [] ∧ ∃ F k, s.frames = .loop x d r :: F ∧
      s.slots.Known x ∧ s.slots.active x = some k ∧ s.slots.Fresh (k :: x) ∧ Inside x r ∧
      d.Sync qs (envOf qs e r) ∧ Owes qs e s.slots F r := by
  have hdue := h.due
  rwa [Due, hc] at hdue

theorem Good.of_ret {f : Frame Q T} {fs : List (Frame Q T)} (h : Good qs e s)
    (hc : s.control = .ret) (hfs : s.frames = f :: fs) :
    s.received = [] ∧ Returns qs e s.slots (f :: fs) ∨
      (∃ σ, s.received = [σ]) ∧ f.Idle s.slots ∧ ∀ f ∈ fs, f.Idle s.slots := by
  have hdue := h.due
  rw [Due, hc, hfs] at hdue
  simpa only [List.forall_mem_cons] using hdue

/-- An idle frame is left. -/
theorem Good.leave {f : Frame Q T} {fs : List (Frame Q T)} (h : Good qs e s)
    (hc : s.control = .ret) (hfs : s.frames = f :: fs)
    (hf : Returns qs e s.slots (f :: fs) → Returns qs e s.slots fs) :
    Good qs e { s with frames := fs } := by
  refine ⟨h.untouched, h.quiet, ?_⟩
  rw [Due, hc]
  exact (h.of_ret hc hfs).imp (And.imp_right hf) (And.imp_right And.right)

theorem due_length (h : Due qs e s) : s.received.length ≤ 1 := by
  simp only [Due] at h
  split at h
  · simp [h.1]
  · simp [h.1]
  · simp [h.1]
  · rcases h with ⟨hnone, -⟩ | ⟨⟨σ, hσ⟩, -⟩
    · simp [hnone]
    · simp [hσ]
  · exact h.elim

/-- Something else in the operation at `x`, which holds something. -/
theorem Good.emplace (h : s.slots.Untouched) (hx : Held s.slots x) (hin : Inside x r)
    {F : List (Frame Q T)} (howes : Owes qs e s.slots F r) :
    (s.slots.emplace x).Untouched ∧ (s.slots.emplace x).Known ((s.slots.made x + 1) :: x) ∧
      (s.slots.emplace x).Fresh ((s.slots.made x + 1) :: x) ∧ Owes qs e (s.slots.emplace x) F r :=
  ⟨h.emplace hx.1, Slots.known_emplaced hx.1, h.fresh_emplaced hx.1,
    howes.replaced (Slots.replaced_emplace s.slots x) hin (.inl hx.2)⟩

/-- The next operation is put where the first one was, and started. -/
theorem Good.complete_first {d : Sender Q T} (h : Good qs e s) (hnone : s.received = [])
    (hx : Held s.slots x) (hin : Inside x r) (howes : Owes qs e s.slots s.frames r)
    (hsync : d.opSynchronous qs (envOf qs e r) = true) : Good qs e (s.complete_first x d r) := by
  obtain ⟨huntouched, hknown, hfresh, howes'⟩ := Good.emplace h.untouched hx hin howes
  exact ⟨huntouched, h.quiet, hnone, hsync, hknown, hfresh, hin.cons _, howes'⟩

theorem good_start {sndr : Sender Q T} (h : Good qs e s) (hc : s.control = .start x sndr r)
    (hs : start qs e s x r sndr = some s') : Good qs e s' := by
  obtain ⟨hnone, hsync, hknown, hfresh, hin, howes⟩ := h.of_start hc
  have hheld := held_of_fresh hknown hfresh
  have hfirst : s.slots.Known (0 :: x) ∧ s.slots.Fresh (0 :: x) :=
    ⟨⟨Nat.zero_le _, hknown⟩, hfresh.inner 0⟩
  cases sndr with
  | leaf | variant | whenAny => cases hs
  | «then» handle complete child results =>
      cases hs
      exact ⟨h.untouched, h.quiet, hnone, hsync, hknown, hfresh, hin.wrap rfl,
        .adaptor x _ _ r nofun hin True.intro howes⟩
  | intoVariant child variantOf =>
      cases hs
      exact ⟨h.untouched, h.quiet, hnone, hsync, hknown, hfresh, hin.wrap rfl,
        .adaptor x _ _ r nofun hin True.intro howes⟩
  | «let» tags child dependent =>
      obtain ⟨hchild, hdependent⟩ := Bool.and_eq_true_iff.mp hsync
      cases hs
      exact ⟨h.untouched, h.quiet, hnone, hchild, hfirst.1, hfirst.2, hin.push 0 _,
        .adaptor x _ _ r (fun _ => hheld) hin (fun σ hσ => List.all_eq_true.mp hdependent σ hσ)
          howes⟩
  | sequence child dependent =>
      obtain ⟨hchild, hdependent⟩ := Bool.and_eq_true_iff.mp hsync
      cases hs
      exact ⟨h.untouched, h.quiet, hnone, hchild, hfirst.1, hfirst.2, hin.push 0 _,
        .adaptor x _ _ r (fun _ => hheld) hin hdependent howes⟩
  | inciteOn child dependent => cases hsync
  | loop looped never child =>
      have hchild : child.opSynchronous qs ((envOf qs e r).forward qs) = true := hsync
      simp only [start, hchild, if_true] at hs
      cases hs
      obtain ⟨huntouched, hknown', hfresh', howes'⟩ := Good.emplace h.untouched hheld hin howes
      exact ⟨huntouched, h.quiet, .inl ⟨hnone, .loop x _ _ r _ hknown'.2
        (Function.update_self x _ s.slots.active) hfresh' hin ⟨rfl, hchild⟩ howes'⟩⟩
  | whenAll n children =>
      have hchildren : (Sender.whenAll n children).synchronous = true := hsync
      simp only [start, hchildren, if_true] at hs
      cases hs
      refine ⟨h.untouched, h.quiet, .inl ⟨hnone, .whenAll x _ _ _ r hheld hin ⟨?_, ?_⟩ howes⟩⟩
      · exact List.forall_mem_ofFn_iff.mpr (all_ofFn.mp hchildren)
      · exact ⟨_, List.mem_eraseDups.mpr List.mem_cons_self, by simp [Signature.channel]⟩

theorem good_handle {σ : Signature T} {hd : Handler Q T} (h : Good qs e s)
    (hc : s.control = .complete σ (⟨x, hd⟩ :: r)) (hs : handle s σ x r hd = some s') :
    Good qs e s' := by
  obtain ⟨hnone, howes⟩ := h.of_complete hc
  cases hd with
  | «then» handle complete results =>
      cases hs
      obtain ⟨-, -, -, howes⟩ := howes.of_adaptor nofun nofun
      exact ⟨h.untouched, h.quiet, hnone, howes⟩
  | intoVariant variant =>
      cases hs
      obtain ⟨-, -, -, howes⟩ := howes.of_adaptor nofun nofun
      exact ⟨h.untouched, h.quiet, hnone, howes⟩
  | «let» tags sigs dependent =>
      obtain ⟨hheld, hin, hsync, howes⟩ := howes.of_adaptor nofun nofun
      simp only [handle] at hs
      split at hs
      · split at hs <;> cases hs
        next hσ => exact h.complete_first hnone (hheld rfl) hin howes (hsync σ hσ)
      · cases hs
        exact ⟨h.untouched, h.quiet, hnone, howes⟩
  | sequence dependent =>
      obtain ⟨hheld, hin, hsync, howes⟩ := howes.of_adaptor nofun nofun
      simp only [handle] at hs
      split at hs <;> cases hs
      · exact h.complete_first hnone (hheld rfl) hin howes hsync
      · exact ⟨h.untouched, h.quiet, hnone, howes⟩
  | inciteOn dependent =>
      obtain ⟨-, -, hsync, -⟩ := howes.of_adaptor nofun nofun
      cases hsync
  | loop driver =>
      obtain ⟨F₁, F₂, hF, hidle, hheld, hin, -, howes⟩ := howes.of_loop
      simp only [handle] at hs
      split at hs <;> cases hs
      exact ⟨h.untouched.reset hheld.1, h.quiet, hnone, hF ▸ howes.reset hheld hin hidle⟩
  | whenAll =>
      cases hs
      exact ⟨h.untouched, h.quiet, .inl ⟨hnone, howes.of_whenAll⟩⟩

/-- Nobody is left waiting by the step: no `when_any` of nothing is started while no
stop has been requested. And the step does not read an operation that has been
destroyed. -/
def Settled (s : State Q T) (l : Event T) : Prop := l ≠ .wait ∧ s.mayRead = true

instance (s : State Q T) (l : Event T) : Decidable (Settled s l) :=
  inferInstanceAs (Decidable (l ≠ .wait ∧ s.mayRead = true))

theorem Settled.act {l : Event T} (hl : Settled s l) (hs : step qs e s l = some s') :
    act qs e s l = some s' := by
  simpa [step, hl.2] using hs

theorem good_step {l : Event T} (h : Good qs e s) (hs : step qs e s l = some s')
    (hl : Settled s l) : Good qs e s' := by
  have hact := hl.act hs
  cases act_move hact with
  | start x sndr r _ hc hs => exact good_start h hc hs
  | handle σ x hd r _ hc hs => exact good_handle h hc hs
  | option x n options r i hc =>
      obtain ⟨hnone, hsync, hknown, hfresh, hin, howes⟩ := h.of_start hc
      exact ⟨h.untouched, h.quiet, hnone, all_ofFn.mp hsync i, ⟨Nat.zero_le _, hknown⟩,
        hfresh.inner 0, hin.cons 0, howes⟩
  | send x queries sigs r σ hc =>
      obtain ⟨hnone, -, -, -, -, howes⟩ := h.of_start hc
      exact ⟨h.untouched, h.quiet, hnone, howes⟩
  | wait | waitAny => exact absurd rfl hl.1
  | stopRequested x r hc =>
      -- the callback is called while it is registered, and the frame only resets it
      obtain ⟨hnone, -, -, -, -, howes⟩ := h.of_start hc
      exact ⟨h.untouched, h.quiet, hnone, .idle _ _ r True.intro howes⟩
  | evaluateYes σ x driver r hc =>
      -- without a child the loop is done with, so its frame is idle from here on
      obtain ⟨hnone, howes⟩ := h.of_complete hc
      obtain ⟨F₁, F₂, hF, hidle, hheld, hin, -, howes⟩ := howes.of_loop
      exact ⟨h.untouched.reset hheld.1, h.quiet, hnone, hF ▸ howes.reset hheld hin hidle⟩
  | evaluateNo σ x driver r hc =>
      -- with a new child it is the loop's turn when the calls have returned
      obtain ⟨hnone, howes⟩ := h.of_complete hc
      obtain ⟨F₁, F₂, hF, hidle, hheld, hin, hsync, howes⟩ := howes.of_loop
      obtain ⟨huntouched, hknown', hfresh', howes'⟩ := Good.emplace h.untouched hheld hin howes
      rw [hsync.1]
      refine ⟨huntouched, h.quiet, .inl ⟨hnone, ?_⟩⟩
      rw [hF]
      refine Returns.append ?_ fun f hf =>
        (hidle f hf).replaced (Slots.replaced_emplace s.slots x) (.inl hheld.2)
      exact .loop x _ _ r _ hknown'.2 (Function.update_self x _ s.slots.active) hfresh' hin hsync
        howes'
  | receive σ hc =>
      obtain ⟨hnone, howes⟩ := h.of_complete hc
      exact ⟨h.untouched, h.quiet, .inr ⟨⟨σ, by simp [hnone]⟩, howes.root_idle⟩⟩
  | «begin» x driver r k hc hk =>
      obtain ⟨hnone, F, k', hF, hknown, hk', hfresh, hin, hsync, howes⟩ := h.of_beginLoop hc
      obtain rfl := Option.some.inj (hk.symm.trans hk')
      refine ⟨h.untouched, h.quiet, hnone, hsync.2, Slots.known_active hknown hk, hfresh,
        hin.push k _, ?_⟩
      rw [hF]
      exact .loop x driver F r ⟨hknown, by simp [hk]⟩ hin hsync howes
  | beginStopped x driver r hc =>
      obtain ⟨hnone, F, k, hF, hknown, hk, hfresh, hin, hsync, howes⟩ := h.of_beginLoop hc
      have hnil : ∀ f ∈ ([] : List (Frame Q T)), f.Idle s.slots := nofun
      refine ⟨h.untouched.reset hknown, h.quiet, hnone, ?_⟩
      rw [hF]
      exact howes.reset ⟨hknown, by simp [hk]⟩ hin hnil
  | again x driver r fs hc hfs hactive =>
      obtain ⟨hnone, hreturns⟩ | ⟨-, hidle, -⟩ := h.of_ret hc hfs
      · cases hreturns with
        | idle _ _ hidle => exact absurd hidle hactive
        | loop _ _ _ _ k hknown hk hfresh hin hsync howes =>
            exact ⟨h.untouched, h.quiet, hnone, fs, k, hfs, hknown, hk, hfresh, hin, hsync, howes⟩
      · exact absurd hidle hactive
  | endLoop x driver r fs hc hfs hactive =>
      refine h.leave hc hfs fun hreturns => ?_
      cases hreturns with
      | idle _ _ _ hreturns => exact hreturns
      | loop _ _ _ _ k _ hk => simp [hactive] at hk
  | nextChild x child rest sigs r fs hc hfs =>
      obtain ⟨hnone, hreturns⟩ | ⟨-, hidle, -⟩ := h.of_ret hc hfs
      · cases hreturns with
        | idle _ _ hidle => cases hidle
        | whenAll _ _ _ _ _ hheld hin hsync howes =>
            obtain ⟨hchild, hrest⟩ := List.forall_mem_cons.mp hsync.1
            obtain ⟨huntouched, hknown', hfresh', howes'⟩ :=
              Good.emplace h.untouched hheld hin howes
            have hheld' : Held (s.slots.emplace x) x := ⟨hknown'.2, by simp [Slots.emplace]⟩
            exact ⟨huntouched, h.quiet, hnone, opSynchronous_of_synchronous hchild _, hknown',
              hfresh', hin.push _ _,
              .whenAll x rest sigs fs r hheld' hin ⟨hrest, hsync.2⟩ howes'⟩
      · cases hidle
  | finish x sigs r fs σ hc hfs =>
      obtain ⟨hnone, hreturns⟩ | ⟨-, hidle, -⟩ := h.of_ret hc hfs
      · cases hreturns with
        | idle _ _ hidle => cases hidle
        | whenAll _ _ _ _ _ _ _ _ howes => exact ⟨h.untouched, h.quiet, hnone, howes⟩
      · cases hidle
  | resetCallback x fs hc hfs =>
      refine h.leave hc hfs fun hreturns => ?_
      cases hreturns with
      | idle _ _ _ hreturns => exact hreturns
  | resume c fs hc hfs =>
      obtain ⟨-, hreturns⟩ | ⟨-, hidle, -⟩ := h.of_ret hc hfs
      · cases hreturns with
        | idle _ _ hidle => cases hidle
      · cases hidle
  | fire i w σ hw => simp [h.quiet] at hw
  | fault => cases hact

end Steps

/-! ### Runs of `start` -/

/-- What is asked for at compile time: a sender that completes has something to send, a
variant has an option, a `when_any` of nothing has a token, and a `let_...` knows what
its child sends. -/
def State.Compiles (qs : Queries Q T) (e : Env Q T) (s : State Q T) : Prop :=
  match s.control with
  | .start _ (.leaf isSync queries sigs) r =>
      (Sender.leaf isSync queries sigs).signatures (envOf qs e r) ≠ []
  | .start _ (.variant n _) _ => 0 < n
  | .start _ .whenAny r => (envOf qs e r).stoppable = true
  | .complete σ (⟨_, .let tags sigs _⟩ :: _) => tags σ.channel = true → σ ∈ sigs
  | _ => True

variable {s : Sender Q T} {st : State Q T}

theorem good_init (h : s.opSynchronous qs e = true) : Good qs e (.init s) := by
  have hfresh : Slots.init.Fresh [] := fun y _ => ⟨rfl, rfl⟩
  have huntouched : Slots.init.Untouched := fun x k _ y _ => ⟨rfl, rfl⟩
  exact ⟨huntouched, rfl, rfl, h, True.intro, hfresh, nofun, .root⟩

theorem goes_on_start {x : Place} {sndr : Sender Q T} {r : List (Receiver Q T)}
    (h : Good qs e st) (hc : st.control = .start x sndr r) (hcompiles : st.Compiles qs e) :
    ∃ l, l ≠ .wait ∧ (act qs e st l).isSome = true := by
  obtain ⟨-, hsync, -⟩ := h.of_start hc
  rw [State.Compiles, hc] at hcompiles
  cases sndr with
  | leaf isSync queries sigs =>
      obtain rfl : isSync = true := hsync
      obtain ⟨σ, hσ⟩ := List.exists_mem_of_ne_nil _ hcompiles
      exact ⟨.send σ, by simp, by simp [act, hc, hσ]⟩
  | «then» | intoVariant | «let» | sequence => exact ⟨.start, by simp, by simp [act, hc, start]⟩
  | inciteOn => cases hsync
  | variant n options => exact ⟨.option 0, by simp, by simp [act, hc, show 0 < n from hcompiles]⟩
  | loop looped never child =>
      have hchild : child.opSynchronous qs ((envOf qs e r).forward qs) = true := hsync
      exact ⟨.start, by simp, by simp [act, hc, start, hchild]⟩
  | whenAll n children =>
      have hchildren : (Sender.whenAll n children).synchronous = true := hsync
      exact ⟨.start, by simp, by simp [act, hc, start, hchildren]⟩
  | whenAny =>
      exact ⟨.stopRequested, by simp, by
        simp [act, hc, show (envOf qs e r).stoppable = true from hcompiles]⟩

theorem goes_on_complete {σ : Signature T} {r : List (Receiver Q T)}
    (hc : st.control = .complete σ r) (hcompiles : st.Compiles qs e) :
    ∃ l, l ≠ .wait ∧ (act qs e st l).isSome = true := by
  rw [State.Compiles, hc] at hcompiles
  obtain _ | ⟨⟨x, hd⟩, r⟩ := r
  · exact ⟨.receive, by simp, by simp [act, hc]⟩
  · cases hd with
    | «then» | intoVariant | whenAll => exact ⟨.handle, by simp, by simp [act, hc, handle]⟩
    | sequence | inciteOn =>
        refine ⟨.handle, by simp, ?_⟩
        simp only [act, hc, handle]
        split <;> rfl
    | «let» tags sigs dependent =>
        refine ⟨.handle, by simp, ?_⟩
        simp only [act, hc, handle]
        split
        · next htags => simp [show σ ∈ sigs from hcompiles htags]
        · rfl
    | loop driver =>
        by_cases hchannel : σ.channel = driver.looped
        · exact ⟨.evaluate false, by simp, by simp [act, hc, hchannel]⟩
        · exact ⟨.handle, by simp, by simp [act, hc, handle, hchannel]⟩

theorem goes_on_ret (h : Good qs e st) (hc : st.control = .ret) (hret : st.frames ≠ []) :
    ∃ l, l ≠ .wait ∧ (act qs e st l).isSome = true := by
  cases hfs : st.frames with
  | nil => exact absurd hfs hret
  | cons f fs =>
      cases f with
      | loop x d r =>
          by_cases hactive : st.slots.active x = none
          · exact ⟨.endLoop, by simp, by simp [act, hc, hfs, hactive]⟩
          · exact ⟨.again, by simp, by simp [act, hc, hfs, hactive]⟩
      | stopCallback x => exact ⟨.resetCallback, by simp, by simp [act, hc, hfs]⟩
      | resume c => exact ⟨.resume, by simp, by simp [act, hc, hfs]⟩
      | whenAll x rest sigs r =>
          cases rest with
          | cons c rest => exact ⟨.nextChild, by simp, by simp [act, hc, hfs]⟩
          | nil =>
              obtain ⟨-, hreturns⟩ | ⟨-, hidle, -⟩ := h.of_ret hc hfs
              · cases hreturns with
                | idle _ _ hidle => cases hidle
                | whenAll _ _ _ _ _ _ _ hsync =>
                    obtain ⟨σ, hσ, hchannel⟩ := hsync.2
                    exact ⟨.finish σ, by simp, by simp [act, hc, hfs, hσ, hchannel]⟩
              · cases hidle

/-- The calls go on until they have all returned. -/
theorem Good.goes_on (h : Good qs e st) (hcompiles : st.Compiles qs e) (hret : ¬ st.Returned)
    (hread : st.mayRead = true) : ∃ l, Settled st l ∧ (step qs e st l).isSome = true := by
  obtain ⟨l, hl, hact⟩ : ∃ l, l ≠ .wait ∧ (act qs e st l).isSome = true := by
    cases hc : st.control with
    | start x sndr r => exact goes_on_start h hc hcompiles
    | complete σ r => exact goes_on_complete hc hcompiles
    | beginLoop x d r =>
        obtain ⟨-, F, k, -, -, hk, -⟩ := h.of_beginLoop hc
        exact ⟨.begin, by simp, by simp [act, hc, hk]⟩
    | ret => exact goes_on_ret h hc fun hfs => hret ⟨hc, hfs⟩
    | error =>
        have hdue := h.due
        rw [Due, hc] at hdue
        exact hdue.elim
  exact ⟨l, ⟨hl, hread⟩, by simpa [step, hread] using hact⟩

/-- The receiver of a sender that says that it completes synchronously is completed at
most once, and once when `start` has returned; until then the calls go on, unless the
next one reads an operation that has been destroyed. -/
theorem completes_synchronously (qs : Queries Q T) (e : Env Q T) (s : Sender Q T)
    (hsync : s.synchronous = true ∨ s.opSynchronous qs e = true) (tr : List (Event T))
    (st : State Q T) (h : Run (step qs e) (.init s) tr st)
    (hsettled : EachStep (step qs e) Settled (.init s) tr) :
    st.received.length ≤ 1 ∧ (st.Returned → ∃ σ, st.received = [σ]) ∧
      (¬ st.Returned → st.mayRead = true → st.Compiles qs e →
        ∃ l, Settled st l ∧ (step qs e st l).isSome = true) := by
  have hop := hsync.elim (fun hs => opSynchronous_of_synchronous hs e) id
  have hgood : Good qs e st := h.induction_of_eachStep (P := fun _ s => Good qs e s)
    (good_init hop) (fun _ _ _ _ _ ih hl hs => good_step ih hs hl) hsettled
  refine ⟨due_length hgood.due, fun hret => ?_, fun hret hread hcompiles =>
    hgood.goes_on hcompiles hret hread⟩
  have hdue := hgood.due
  rw [Due, hret.1, hret.2] at hdue
  obtain ⟨-, hreturns⟩ | ⟨hσ, -⟩ := hdue
  · cases hreturns
  · exact hσ

/-- No queries, and a token. -/
def stoppableEnv : Env Empty ℕ := ⟨true, nofun⟩

def noQueries : Queries Empty ℕ := ⟨nofun, nofun⟩

/-- `just() | sequence([] { return when_all(just(x), just(y)); }) | repeat_until(pred)`. -/
def repeatedSender : Sender Empty ℕ :=
  .repeatUntil false (.sequence (.just .value []) (.whenAll 2 fun _ => .just .value [0]))

/-- The predicate says yes the first time. -/
def repeatedTrace : List (Event ℕ) :=
  [.start, .again, .begin, .start, .send (.value []), .handle, .start, .nextChild,
    .send (.value [0]), .handle, .nextChild, .send (.value [0]), .handle, .finish (.value [0, 0]),
    .evaluate true, .receive, .endLoop]

theorem completes_synchronously_repeated : ∃ st,
    Run (step noQueries stoppableEnv) (.init repeatedSender) repeatedTrace st ∧
      ∃ σ, st.received = [σ] := by
  obtain ⟨st, hst⟩ : ∃ st, Run (step noQueries stoppableEnv) (.init repeatedSender)
      repeatedTrace st := exists_run_iff.mpr rfl
  have hview : (exec (step noQueries stoppableEnv) (.init repeatedSender) repeatedTrace).map
      (fun st => (st.control, st.frames)) = some (.ret, []) := rfl
  rw [show exec _ _ repeatedTrace = some st from hst] at hview
  simp only [Option.map_some, Option.some.injEq, Prod.mk.injEq] at hview
  refine ⟨st, hst, (completes_synchronously noQueries stoppableEnv repeatedSender (.inl rfl)
    repeatedTrace st hst ?_).2.1 hview⟩
  decide

/-- `start` of `when_any` of nothing returns when stop has not been requested. -/
theorem not_completed_when_any : ¬ ∀ (qs : Queries Empty ℕ) (e : Env Empty ℕ)
    (s : Sender Empty ℕ) (tr : List (Event ℕ)) (st : State Empty ℕ),
    s.synchronous = true ∨ s.opSynchronous qs e = true → Run (step qs e) (.init s) tr st →
    st.Returned → ∃ σ, st.received = [σ] := by
  intro hall
  obtain ⟨σ, hσ⟩ := hall noQueries stoppableEnv .whenAny [.wait] _ (.inl rfl) rfl ⟨rfl, rfl⟩
  cases hσ

end BaremetalSenders.Expressions
