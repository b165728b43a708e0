import BaremetalSenders.Adaptors.SyncLoop
import BaremetalSenders.Senders.Operations

/-!
Expressions in which nothing waits, and `SyncLoop`.

An expression of leaves that complete in `start`, `let_...`, `sequence`, `incite_on` and loops over
synchronous children has its operations where `SyncLoop` has them. What is sent is forgotten, and
so is the environment; of the signatures there are the channels, and of the predicates nothing.
-/

namespace BaremetalSenders.Expressions

variable {Q T : Type*} [DecidableEq T]

/-! ### The same operations -/

/-- Nothing of it waits, in the environment `e`. -/
def Sender.Prompt (qs : Queries Q T) : Sender Q T → Env Q T → Prop
  | .leaf isSync _ _, _ => isSync = true
  | .let _ s dependent, e => s.Prompt qs (e.forward qs) ∧ ∀ σ, (dependent σ).Prompt qs e
  | .sequence s dependent, e | .inciteOn s dependent, e =>
      s.Prompt qs (e.forward qs) ∧ dependent.Prompt qs e
  | .loop _ _ s, e => s.opSynchronous qs (e.forward qs) = true ∧ s.Prompt qs (e.forward qs)
  | .then _ _ _ _, _ | .intoVariant _ _, _ | .variant _ _, _ | .whenAll _ _, _ | .whenAny, _ =>
      False

/-- The sender of `SyncLoop`. The next operation of a `let_...` is chosen by the position of what
is sent among the signatures. -/
def Sender.loops (qs : Queries Q T) : Sender Q T → Env Q T → SyncLoop.Sender
  | .let tags s dependent, e =>
      .chain tags (s.loops qs (e.forward qs)) fun i =>
        (((s.signatures e).filter fun σ => tags σ.channel)[i]?).elim .leaf fun σ =>
          (dependent σ).loops qs e
  | .sequence s dependent, e | .inciteOn s dependent, e =>
      .chain (· == .value) (s.loops qs (e.forward qs)) fun _ => dependent.loops qs e
  | .loop looped _ s, e =>
      .loop looped (!(s.signatures e).sendsStopped) (s.loops qs (e.forward qs))
  | .leaf _ _ _, _ | .then _ _ _ _, _ | .intoVariant _ _, _ | .variant _ _, _ | .whenAll _ _, _
  | .whenAny, _ => .leaf

def Handler.Prompt (qs : Queries Q T) (e : Env Q T) : Handler Q T → Prop
  | .let _ _ dependent => ∀ σ, (dependent σ).Prompt qs e
  | .sequence dependent | .inciteOn dependent => dependent.Prompt qs e
  | .loop driver => driver.isSync = true ∧ driver.child.Prompt qs (e.forward qs)
  | .then _ _ _ | .intoVariant _ | .whenAll => False

def Handler.loops (qs : Queries Q T) (e : Env Q T) : Handler Q T → SyncLoop.Handler
  | .let tags sigs dependent =>
      .chain tags fun i => (sigs[i]?).elim .leaf fun σ => (dependent σ).loops qs e
  | .sequence dependent | .inciteOn dependent =>
      .chain (· == .value) fun _ => dependent.loops qs e
  | .loop driver => .loop driver.looped
  | .then _ _ _ | .intoVariant _ | .whenAll => .loop .value

section Machine

variable (qs : Queries Q T) (e : Env Q T)

def AllPrompt : List (Receiver Q T) → Prop
  | [] => True
  | ⟨_, h⟩ :: r => h.Prompt qs (envOf qs e r) ∧ AllPrompt r

def receiversLoops : List (Receiver Q T) → List SyncLoop.Receiver
  | [] => []
  | ⟨x, h⟩ :: r => ⟨x, h.loops qs (envOf qs e r)⟩ :: receiversLoops r

/-- In front of `begin_loop` a call has returned to the loop. -/
def Control.loops : Control Q T → SyncLoop.Control
  | .start x s r => .start x (s.loops qs (envOf qs e r)) (receiversLoops qs e r)
  | .complete σ r => .complete σ.channel (receiversLoops qs e r)
  | .beginLoop _ _ _ | .ret => .ret
  | .error => .error

def Frame.loops : Frame Q T → Option SyncLoop.Frame
  | .loop x driver r => some ⟨x, driver.looped, driver.checksStop,
      driver.child.loops qs ((envOf qs e r).forward qs), receiversLoops qs e r⟩
  | .whenAll _ _ _ _ | .stopCallback _ | .resume _ => none

def State.loops (s : State Q T) : SyncLoop.State :=
  ⟨s.control.loops qs e, s.frames.filterMap (Frame.loops qs e), s.slots,
    s.received.map Signature.channel⟩

def Frame.Prompt : Frame Q T → Prop
  | .loop x driver r => AllPrompt qs e (⟨x, .loop driver⟩ :: r)
  | .whenAll _ _ _ _ | .stopCallback _ | .resume _ => False

/-- Nothing waits, and `begin_loop` is called by the innermost loop while it has a child. -/
structure State.Prompt (s : State Q T) : Prop where
  start : ∀ x sndr r, s.control = .start x sndr r →
    sndr.Prompt qs (envOf qs e r) ∧ AllPrompt qs e r
  complete : ∀ σ r, s.control = .complete σ r → AllPrompt qs e r
  beginLoop : ∀ x driver r, s.control = .beginLoop x driver r →
    ∃ fs k, s.frames = .loop x driver r :: fs ∧ s.slots.active x = some k
  frames : ∀ f ∈ s.frames, f.Prompt qs e
  waiting : s.waiting = []

variable {qs e} {s s' : State Q T}

theorem mayRead_loops (h : s.Prompt qs e) : (s.loops qs e).mayRead = s.mayRead := by
  have hreads : (s.loops qs e).reads = s.reads := by
    obtain ⟨control, frames, slots, waiting, received⟩ := s
    cases control with
    | start x sndr r => rfl
    | complete σ r => cases r <;> rfl
    | beginLoop x driver r =>
        obtain ⟨fs, k, rfl, -⟩ := h.beginLoop x driver r rfl
        rfl
    | ret =>
        cases frames with
        | nil => rfl
        | cons f fs =>
            have hf := h.frames f List.mem_cons_self
            cases f with
            | loop x driver r => rfl
            | whenAll x rest sigs r => exact hf.elim
            | stopCallback x => exact hf.elim
            | resume c => exact hf.elim
    | error => rfl
  rw [SyncLoop.State.mayRead, hreads]
  rfl

/-! ### The same steps -/

section Kept

variable {frames : List (Frame Q T)} {slots : Slots} {waiting : List (Waiting Q T)}
  {received : List (Signature T)} {x : Place} {r : List (Receiver Q T)}

theorem prompt_start {sndr : Sender Q T} (hsndr : sndr.Prompt qs (envOf qs e r))
    (hr : AllPrompt qs e r) (hframes : ∀ f ∈ frames, f.Prompt qs e) (hwaiting : waiting = []) :
    State.Prompt qs e ⟨.start x sndr r, frames, slots, waiting, received⟩ where
  start _ _ _ hc := by cases hc; exact ⟨hsndr, hr⟩
  complete _ _ hc := by cases hc
  beginLoop _ _ _ hc := by cases hc
  frames := hframes
  waiting := hwaiting

theorem prompt_complete {σ : Signature T} (hr : AllPrompt qs e r)
    (hframes : ∀ f ∈ frames, f.Prompt qs e) (hwaiting : waiting = []) :
    State.Prompt qs e ⟨.complete σ r, frames, slots, waiting, received⟩ where
  start _ _ _ hc := by cases hc
  complete _ _ hc := by cases hc; exact hr
  beginLoop _ _ _ hc := by cases hc
  frames := hframes
  waiting := hwaiting

theorem prompt_ret (hframes : ∀ f ∈ frames, f.Prompt qs e) (hwaiting : waiting = []) :
    State.Prompt qs e ⟨.ret, frames, slots, waiting, received⟩ where
  start _ _ _ hc := by cases hc
  complete _ _ hc := by cases hc
  beginLoop _ _ _ hc := by cases hc
  frames := hframes
  waiting := hwaiting

theorem prompt_beginLoop {driver : Driver Q T} {fs : List (Frame Q T)} {k : ℕ}
    (hk : slots.active x = some k) (hframes : ∀ f ∈ .loop x driver r :: fs, f.Prompt qs e)
    (hwaiting : waiting = []) :
    State.Prompt qs e
      ⟨.beginLoop x driver r, .loop x driver r :: fs, slots, waiting, received⟩ where
  start _ _ _ hc := by cases hc
  complete _ _ hc := by cases hc
  beginLoop _ _ _ hc := by cases hc; exact ⟨fs, k, rfl, hk⟩
  frames := hframes
  waiting := hwaiting

end Kept

/-- What is started is started in the same way. -/
theorem start_loops {x : Place} {sndr : Sender Q T} {r : List (Receiver Q T)}
    (h : s.Prompt qs e) (hc : s.control = .start x sndr r)
    (hs : start qs e s x r sndr = some s') :
    s'.Prompt qs e ∧ SyncLoop.act (s.loops qs e) .start = some (s'.loops qs e) := by
  obtain ⟨hsndr, hr⟩ := h.start x sndr r hc
  obtain ⟨control, frames, slots, waiting, received⟩ := s
  obtain rfl : control = .start x sndr r := hc
  have hwaiting : waiting = [] := h.waiting
  have hframes : ∀ f ∈ frames, f.Prompt qs e := h.frames
  cases sndr with
  | «let» | sequence | inciteOn =>
      obtain rfl := Option.some.inj hs
      exact ⟨prompt_start hsndr.1 ⟨hsndr.2, hr⟩ hframes hwaiting, rfl⟩
  | loop looped never s =>
      simp only [start, hsndr.1, if_true] at hs
      obtain rfl := Option.some.inj hs
      exact ⟨prompt_ret (List.forall_mem_cons.mpr ⟨⟨⟨rfl, hsndr.2⟩, hr⟩, hframes⟩) hwaiting, rfl⟩
  | leaf | variant | whenAny => cases hs
  | «then» | intoVariant | whenAll => exact hsndr.elim

/-- A receiver of an adaptor that goes on to its next operation, or passes on what it has been
completed with. -/
theorem handle_loops {σ : Signature T} {x : Place} {hd : Handler Q T} {r : List (Receiver Q T)}
    (h : s.Prompt qs e) (hc : s.control = .complete σ (⟨x, hd⟩ :: r))
    (hs : handle s σ x r hd = some s') :
    s'.Prompt qs e ∧ ∃ ev, SyncLoop.act (s.loops qs e) ev = some (s'.loops qs e) := by
  obtain ⟨hhd, hr⟩ := h.complete _ _ hc
  obtain ⟨control, frames, slots, waiting, received⟩ := s
  obtain rfl : control = .complete σ (⟨x, hd⟩ :: r) := hc
  have hwaiting : waiting = [] := h.waiting
  have hframes : ∀ f ∈ frames, f.Prompt qs e := h.frames
  cases hd with
  | «let» tags sigs dependent =>
      simp only [handle] at hs
      split at hs
      · next htags =>
          split at hs <;> cases hs
          next hσ =>
            obtain ⟨i, hi⟩ := List.getElem?_of_mem hσ
            refine ⟨prompt_start (hhd σ) hr hframes hwaiting, .completeFirst i, ?_⟩
            simp [SyncLoop.act, State.loops, Control.loops, receiversLoops, Handler.loops, htags,
              hi, State.complete_first]
      · next htags =>
          cases hs
          refine ⟨prompt_complete hr hframes hwaiting, .passthrough, ?_⟩
          simp [SyncLoop.act, State.loops, Control.loops, receiversLoops, Handler.loops, htags]
  | sequence dependent | inciteOn dependent =>
      simp only [handle] at hs
      split at hs <;> cases hs
      · next hchannel =>
          refine ⟨prompt_start hhd hr hframes hwaiting, .completeFirst 0, ?_⟩
          simp [SyncLoop.act, State.loops, Control.loops, receiversLoops, Handler.loops, hchannel,
            State.complete_first]
      · next hchannel =>
          refine ⟨prompt_complete hr hframes hwaiting, .passthrough, ?_⟩
          simp [SyncLoop.act, State.loops, Control.loops, receiversLoops, Handler.loops, hchannel]
  | loop driver =>
      simp only [handle] at hs
      split at hs <;> cases hs
      next hchannel =>
        refine ⟨prompt_complete hr hframes hwaiting, .passthrough, ?_⟩
        simp [SyncLoop.act, State.loops, Control.loops, receiversLoops, Handler.loops, hchannel]
  | «then» | intoVariant | whenAll => exact hhd.elim

theorem run_act {ev : SyncLoop.Event} {u : SyncLoop.State} (h : s.Prompt qs e)
    (hread : s.mayRead = true) (hact : SyncLoop.act (s.loops qs e) ev = some u) :
    Run SyncLoop.step (s.loops qs e) [ev] u :=
  run_cons.mpr ⟨u, (if_pos ((mayRead_loops h).trans hread)).trans hact, run_nil.mpr rfl⟩

theorem move_loops {l : Event T} (h : s.Prompt qs e) (hread : s.mayRead = true)
    (hs : Move qs e s l s') (hl : l ≠ .fault) :
    s'.Prompt qs e ∧ ∃ ls, Run SyncLoop.step (s.loops qs e) ls (s'.loops qs e) := by
  cases hs with
  | start x sndr r s' hc hs =>
      obtain ⟨h', hact⟩ := start_loops h hc hs
      exact ⟨h', [.start], run_act h hread hact⟩
  | handle σ x hd r s' hc hs =>
      obtain ⟨h', ev, hact⟩ := handle_loops h hc hs
      exact ⟨h', [ev], run_act h hread hact⟩
  | fault => exact absurd rfl hl
  | option x n options r i hc => exact (h.start _ _ _ hc).1.elim
  | wait x queries sigs r hc => exact absurd (h.start _ _ _ hc).1 (by simp [Sender.Prompt])
  | waitAny x r hc hstop => exact (h.start _ _ _ hc).1.elim
  | stopRequested x r hc hstop => exact (h.start _ _ _ hc).1.elim
  | nextChild x child rest sigs r fs hc hfs =>
      exact False.elim (h.frames (.whenAll x (child :: rest) sigs r) (hfs ▸ List.mem_cons_self))
  | finish x sigs r fs σ hc hfs hσ hchannel =>
      exact False.elim (h.frames (.whenAll x [] sigs r) (hfs ▸ List.mem_cons_self))
  | resetCallback x fs hc hfs =>
      exact False.elim (h.frames (.stopCallback x) (hfs ▸ List.mem_cons_self))
  | resume c fs hc hfs => exact False.elim (h.frames (.resume c) (hfs ▸ List.mem_cons_self))
  | fire i w σ hw hσ => exact absurd hw (by simp [h.waiting])
  | send x queries sigs r σ hc hσ =>
      obtain ⟨-, hr⟩ := h.start _ _ _ hc
      have hact : SyncLoop.act (s.loops qs e) (.leaf σ.channel) =
          some (State.loops qs e { s with control := .complete σ r }) := by
        simp [SyncLoop.act, State.loops, hc, Control.loops, Sender.loops]
      refine ⟨?_, _, run_act h hread hact⟩
      exact prompt_complete hr h.frames h.waiting
  | evaluateYes σ x driver r hc hchannel hnever =>
      obtain ⟨-, hr⟩ := h.complete _ _ hc
      have hact : SyncLoop.act (s.loops qs e) (.evaluate true) = some (State.loops qs e
          { s with control := .complete σ r, slots := s.slots.reset x }) := by
        simp [SyncLoop.act, State.loops, hc, Control.loops, receiversLoops, Handler.loops, hchannel]
      refine ⟨?_, _, run_act h hread hact⟩
      exact prompt_complete hr h.frames h.waiting
  | evaluateNo σ x driver r hc hchannel =>
      obtain ⟨hdriver, -⟩ := h.complete _ _ hc
      have hact : SyncLoop.act (s.loops qs e) (.evaluate false) =
          some (State.loops qs e { s with control := .ret, slots := s.slots.emplace x }) := by
        simp [SyncLoop.act, State.loops, hc, Control.loops, receiversLoops, Handler.loops, hchannel]
      rw [if_pos hdriver.1]
      refine ⟨?_, _, run_act h hread hact⟩
      exact prompt_ret h.frames h.waiting
  | receive σ hc =>
      have hact : SyncLoop.act (s.loops qs e) (.receive σ.channel) =
          some (State.loops qs e { s with control := .ret, received := s.received ++ [σ] }) := by
        simp [SyncLoop.act, State.loops, hc, Control.loops, receiversLoops]
      refine ⟨?_, _, run_act h hread hact⟩
      exact prompt_ret h.frames h.waiting
  | «begin» x driver r k hc hk =>
      obtain ⟨fs, k', hfs, hk'⟩ := h.beginLoop _ _ _ hc
      obtain ⟨hdriver, hr⟩ := h.frames _ (hfs ▸ List.mem_cons_self)
      have hact : SyncLoop.act (s.loops qs e) (.beginLoop false) = some (State.loops qs e
          { s with control := .start (k :: x) driver.child (⟨x, .loop driver⟩ :: r) }) := by
        simp [SyncLoop.act, State.loops, hc, hfs, hk, Control.loops, Frame.loops, receiversLoops,
          Handler.loops, envOf]
      refine ⟨?_, _, run_act h hread hact⟩
      exact prompt_start hdriver.2 ⟨hdriver, hr⟩ h.frames h.waiting
  | beginStopped x driver r hc hchecks hstop =>
      obtain ⟨fs, k, hfs, hk⟩ := h.beginLoop _ _ _ hc
      obtain ⟨hdriver, hr⟩ := h.frames _ (hfs ▸ List.mem_cons_self)
      have hact : SyncLoop.act (s.loops qs e) (.beginLoop true) = some (State.loops qs e
          { s with control := .complete .stopped r, slots := s.slots.reset x }) := by
        simp [SyncLoop.act, State.loops, hc, hfs, hk, hchecks, Control.loops, Frame.loops]
        rfl
      refine ⟨?_, _, run_act h hread hact⟩
      exact prompt_complete hr h.frames h.waiting
  | again x driver r fs hc hfs hactive =>
      obtain ⟨k, hk⟩ := Option.ne_none_iff_exists'.mp hactive
      refine ⟨?_, [], ?_⟩
      · have hframes := h.frames
        rw [hfs] at hframes ⊢
        exact prompt_beginLoop hk hframes h.waiting
      · rw [run_nil]
        simp [State.loops, hc, Control.loops]
  | endLoop x driver r fs hc hfs hactive =>
      have hact : SyncLoop.act (s.loops qs e) .endLoop =
          some (State.loops qs e { s with frames := fs }) := by
        simp [SyncLoop.act, State.loops, hc, hfs, hactive, Control.loops, Frame.loops]
      refine ⟨?_, _, run_act h hread hact⟩
      rw [hc]
      exact prompt_ret (List.forall_mem_cons.mp (hfs ▸ h.frames)).2 h.waiting

/-- A step of an expression is one of `SyncLoop`, or the call of `begin_loop`, which is not
seen there. -/
theorem step_loops {l : Event T} (h : s.Prompt qs e) (hs : step qs e s l = some s') :
    s'.Prompt qs e ∧ ∃ ls, Run SyncLoop.step (s.loops qs e) ls (s'.loops qs e) := by
  cases hread : s.mayRead with
  | true =>
      refine move_loops h hread (step_move hs) ?_
      rintro rfl
      simp [step, hread, act] at hs
  | false =>
      have hl : l.isFire = false := by
        cases l with
        | fire i σ => simp [step, Event.isFire, act, h.waiting] at hs
        | _ => rfl
      simp only [step, hread, hl, Bool.or_self, Bool.false_eq_true, if_false] at hs
      split at hs <;> cases hs
      refine ⟨⟨?_, ?_, ?_, h.frames, h.waiting⟩, [.fault], run_cons.mpr ⟨_, ?_, run_nil.mpr rfl⟩⟩
      · exact fun _ _ _ hc => by cases hc
      · exact fun _ _ hc => by cases hc
      · exact fun _ _ _ hc => by cases hc
      · exact (if_neg (by simp [mayRead_loops h, hread])).trans (if_pos rfl)

/-- An expression in which nothing waits makes the runs that `SyncLoop` says, and the receiver is
completed on the same channels. -/
theorem loops_of_run {sndr : Sender Q T} (hsndr : sndr.Prompt qs e) {tr : List (Event T)}
    (h : Run (step qs e) (.init sndr) tr s) :
    s.Prompt qs e ∧ ∃ tr', Run SyncLoop.step (.init (sndr.loops qs e)) tr' (s.loops qs e) := by
  refine Run.induction (P := fun _ s => s.Prompt qs e ∧
    ∃ tr', Run SyncLoop.step (.init (sndr.loops qs e)) tr' (s.loops qs e)) ?_ ?_ h
  · exact ⟨prompt_start hsndr True.intro (by simp) rfl, [], run_nil.mpr rfl⟩
  · rintro tr s l s' - ⟨hprompt, tr', htr'⟩ hs
    obtain ⟨hprompt', ls, hls⟩ := step_loops hprompt hs
    exact ⟨hprompt', tr' ++ ls, run_append.mpr ⟨_, htr', hls⟩⟩

end Machine

end BaremetalSenders.Expressions
