import BaremetalSenders.Adaptors.SyncLoop
import BaremetalSenders.Foundation.Run

/-!
When the loop of a synchronous child reads its own operation.

The receivers of an operation belong to operations around it, so what an
operation replaces is never one that is still needed, but for the loops that
are under way in it: their calls have not returned. If a loop's completion makes
an enclosing operation emplace the next one, the loop comes back to a place
where it is not any more. As long as that does not happen everything that is
read is there, and if it happens once the calls do not return.
-/

namespace BaremetalSenders.SyncLoop

open Repeat (Channel)
open Slots (Replaced)

/-! ### What a step can do -/

inductive Move (s : State) : Event → State → Prop
  | startChain (x h first next r) : s.control = .start x (.chain h first next) r →
      Move s .start { s with control := .start (0 :: x) first (⟨x, .chain h next⟩ :: r) }
  | startLoop (x ch cs child r) : s.control = .start x (.loop ch cs child) r →
      Move s .start { s with
        control := .ret
        loops := ⟨x, ch, cs, child, r⟩ :: s.loops
        slots := s.slots.emplace x }
  | leaf (x ch r) : s.control = .start x .leaf r →
      Move s (.leaf ch) { s with control := .complete ch r }
  | completeFirst (i ch x h next r) : s.control = .complete ch (⟨x, .chain h next⟩ :: r) →
      Move s (.completeFirst i) { s with
        control := .start ((s.slots.made x + 1) :: x) (next i) r
        slots := s.slots.emplace x }
  | passChain (ch x h next r) : s.control = .complete ch (⟨x, .chain h next⟩ :: r) →
      Move s .passthrough { s with control := .complete ch r }
  | passLoop (ch x looped r) : s.control = .complete ch (⟨x, .loop looped⟩ :: r) →
      Move s .passthrough { s with control := .complete ch r, slots := s.slots.reset x }
  | stop (ch x looped r) : s.control = .complete ch (⟨x, .loop looped⟩ :: r) →
      Move s (.evaluate true) { s with control := .complete ch r, slots := s.slots.reset x }
  | again (ch x looped r) : s.control = .complete ch (⟨x, .loop looped⟩ :: r) →
      Move s (.evaluate false) { s with control := .ret, slots := s.slots.emplace x }
  | receive (ch) : s.control = .complete ch [] →
      Move s (.receive ch) { s with control := .ret, received := s.received ++ [ch] }
  | begin (f fs k) : s.control = .ret → s.loops = f :: fs → s.slots.active f.ops = some k →
      Move s (.beginLoop false) { s with
        control := .start (k :: f.ops) f.child (⟨f.ops, .loop f.looped⟩ :: f.rcvr) }
  | beginStopped (f fs k) : s.control = .ret → s.loops = f :: fs → s.slots.active f.ops = some k →
      Move s (.beginLoop true) { s with
        control := .complete .stopped f.rcvr
        slots := s.slots.reset f.ops }
  | endLoop (f fs) : s.control = .ret → s.loops = f :: fs → s.slots.active f.ops = none →
      Move s .endLoop { s with loops := fs }

theorem act_move {s s' : State} {e : Event} (h : act s e = some s') : Move s e s' := by
  cases e with
  | start =>
      simp only [act] at h
      split at h <;> cases h
      · next hc => exact .startChain _ _ _ _ _ hc
      · next hc => exact .startLoop _ _ _ _ _ hc
  | leaf ch =>
      simp only [act] at h
      split at h <;> cases h
      next hc => exact .leaf _ _ _ hc
  | completeFirst i =>
      simp only [act] at h
      split at h
      · next hc =>
          split at h <;> cases h
          exact .completeFirst i _ _ _ _ _ hc
      · cases h
  | passthrough =>
      simp only [act] at h
      split at h
      · next hc =>
          split at h <;> cases h
          exact .passChain _ _ _ _ _ hc
      · next hc =>
          split at h <;> cases h
          exact .passLoop _ _ _ _ hc
      · cases h
  | evaluate stop =>
      simp only [act] at h
      split at h
      · next hc =>
          split at h
          · cases stop <;> cases h
            · exact .again _ _ _ _ hc
            · exact .stop _ _ _ _ hc
          · cases h
      · cases h
  | receive ch =>
      simp only [act] at h
      split at h
      · next hc =>
          split at h <;> cases h
          next heq =>
            subst heq
            exact .receive _ hc
      · cases h
  | beginLoop stop =>
      simp only [act] at h
      split at h
      · next f fs hc hf =>
          split at h
          · next k hk =>
              cases stop with
              | true =>
                  simp only [if_true] at h
                  split at h <;> cases h
                  exact .beginStopped f fs k hc hf hk
              | false =>
                  cases h
                  exact .begin f fs k hc hf hk
          · cases h
      · cases h
  | endLoop =>
      simp only [act] at h
      split at h
      · next f fs hc hf =>
          split at h <;> cases h
          next hnone => exact .endLoop f fs hc hf hnone
      · cases h
  | fault => cases h

theorem step_cases {s s' : State} {e : Event} (h : step s e = some s') :
    s.mayRead = true ∧ Move s e s' ∨
      s.mayRead = false ∧ e = .fault ∧ s' = { s with control := .error } := by
  simp only [step] at h
  split at h
  · next hread => exact .inl ⟨hread, act_move h⟩
  · next hread =>
      split at h <;> cases h
      next hfault => exact .inr ⟨by simpa using hread, hfault, rfl⟩

/-- A step replaces what it says. -/
theorem Move.slots {s s' : State} {e : Event} (h : Move s e s') :
    s.replaces e = none ∧ s'.slots = s.slots ∨
      ∃ x, s.replaces e = some x ∧ Replaced s.slots x s'.slots := by
  cases h with
  | startChain x h first next r hc | passChain ch x h next r hc =>
      exact .inl ⟨by simp [State.replaces, hc], rfl⟩
  | leaf | receive | begin | endLoop => exact .inl ⟨rfl, rfl⟩
  | startLoop x ch cs child r hc =>
      exact .inr ⟨x, by simp [State.replaces, hc], Slots.replaced_emplace _ x⟩
  | completeFirst i ch x h next r hc =>
      exact .inr ⟨x, by simp [State.replaces, State.reads, hc], Slots.replaced_emplace _ x⟩
  | again ch x looped r hc =>
      exact .inr ⟨x, by simp [State.replaces, State.reads, hc], Slots.replaced_emplace _ x⟩
  | passLoop ch x looped r hc =>
      exact .inr ⟨x, by simp [State.replaces, hc], Slots.replaced_reset _ x⟩
  | stop ch x looped r hc =>
      exact .inr ⟨x, by simp [State.replaces, State.reads, hc], Slots.replaced_reset _ x⟩
  | beginStopped f fs k hc hf =>
      exact .inr ⟨f.ops, by simp [State.replaces, State.reads, hc, hf], Slots.replaced_reset _ _⟩

/-! ### Receivers are around -/

/-- The receivers of the operation at `x` belong to operations around it, and
there has been an operation at `x`. -/
structure At (m : Slots) (x : Place) (r : List Receiver) : Prop where
  around : (x :: r.map Receiver.ops).Pairwise fun a b => b.around a = true
  known : m.Known x

theorem At.tail {m : Slots} {x : Place} {rc : Receiver} {r : List Receiver} (h : At m x (rc :: r)) :
    At m rc.ops r := by
  obtain ⟨haround, htail⟩ := List.pairwise_cons.mp h.around
  exact ⟨htail, h.known.of_suffix (Slots.suffix_of_around (haround rc.ops (by simp)))⟩

theorem At.inner {m m' : Slots} {x : Place} {r : List Receiver} {k : ℕ} (h : At m x r)
    (hk : m'.Known (k :: x)) : At m' (k :: x) r := by
  obtain ⟨haround, htail⟩ := List.pairwise_cons.mp h.around
  exact ⟨List.pairwise_cons.mpr ⟨fun y hy => Slots.around_cons k (haround y hy), htail⟩, hk⟩

theorem At.push {m : Slots} {x : Place} {r : List Receiver} {k : ℕ} (h : At m x r)
    (hk : m.Known (k :: x)) (handler : Handler) : At m (k :: x) (⟨x, handler⟩ :: r) := by
  obtain ⟨haround, -⟩ := List.pairwise_cons.mp h.around
  refine ⟨List.pairwise_cons.mpr ⟨fun y hy => ?_, h.around⟩, hk⟩
  rcases List.mem_cons.mp hy with rfl | hy
  · exact Slots.around_cons_self k _
  · exact Slots.around_cons k (haround y hy)

theorem At.mono {m m' : Slots} {x : Place} {r : List Receiver} (h : At m x r)
    (hm : m.Known x → m'.Known x) : At m' x r := ⟨h.around, hm h.known⟩

structure Ordered (s : State) : Prop where
  untouched : s.slots.Untouched
  control : match s.control with
    | .start x _ r => At s.slots x r
    | .complete _ r => ∃ x, At s.slots x r
    | .ret | .error => True
  loops : ∀ f ∈ s.loops, At s.slots f.ops f.rcvr

theorem ordered_move {s s' : State} {e : Event} (h : Ordered s) (hs : Move s e s') :
    Ordered s' := by
  have hknown : ∀ x, s.slots.Known x → s'.slots.Known x := by
    intro x hx
    rcases hs.slots with ⟨-, heq⟩ | ⟨y, -, hrep⟩
    · rwa [heq]
    · exact hx.replaced hrep
  have hloops : ∀ f ∈ s.loops, At s'.slots f.ops f.rcvr :=
    fun f hf => (h.loops f hf).mono (hknown f.ops)
  have huntouched := h.untouched
  have hcontrol := h.control
  cases hs with
  | startChain x h first next r hc =>
      simp only [hc] at hcontrol
      exact ⟨huntouched, hcontrol.push ⟨Nat.zero_le _, hcontrol.known⟩ _, hloops⟩
  | startLoop x ch cs child r hc =>
      simp only [hc] at hcontrol
      refine ⟨huntouched.emplace hcontrol.known, True.intro, fun f hf => ?_⟩
      rcases List.mem_cons.mp hf with rfl | hf
      · exact hcontrol.mono (hknown _)
      · exact hloops f hf
  | leaf x ch r hc =>
      simp only [hc] at hcontrol
      exact ⟨huntouched, ⟨x, hcontrol⟩, hloops⟩
  | completeFirst i ch x h next r hc =>
      simp only [hc] at hcontrol
      obtain ⟨y, hy⟩ := hcontrol
      have hat := hy.tail
      exact ⟨huntouched.emplace hat.known, hat.inner (Slots.known_emplaced hat.known), hloops⟩
  | passChain ch x h next r hc =>
      simp only [hc] at hcontrol
      obtain ⟨y, hy⟩ := hcontrol
      exact ⟨huntouched, ⟨x, hy.tail⟩, hloops⟩
  | passLoop ch x looped r hc | stop ch x looped r hc =>
      simp only [hc] at hcontrol
      obtain ⟨y, hy⟩ := hcontrol
      exact ⟨huntouched.reset hy.tail.known, ⟨x, hy.tail.mono (hknown _)⟩, hloops⟩
  | again ch x looped r hc =>
      simp only [hc] at hcontrol
      obtain ⟨y, hy⟩ := hcontrol
      exact ⟨huntouched.emplace hy.tail.known, True.intro, hloops⟩
  | receive => exact ⟨huntouched, True.intro, hloops⟩
  | begin f fs k hc hf hk =>
      have hat := h.loops f (by simp [hf])
      exact ⟨huntouched, hat.push (Slots.known_active hat.known hk) _, hloops⟩
  | beginStopped f fs k hc hf =>
      have hat := h.loops f (by simp [hf])
      exact ⟨huntouched.reset hat.known, ⟨f.ops, hloops f (by simp [hf])⟩, hloops⟩
  | endLoop f fs hc hf =>
      refine ⟨huntouched, ?_, fun f' hf' => hloops f' (by simp [hf, hf'])⟩
      simp only [hc]

theorem ordered_step {s s' : State} {e : Event} (h : Ordered s) (hs : step s e = some s') :
    Ordered s' := by
  rcases step_cases hs with ⟨-, hmove⟩ | ⟨-, -, rfl⟩
  · exact ordered_move h hmove
  · exact ⟨h.untouched, True.intro, h.loops⟩

/-! ### Everything that is read is there -/

/-- The loops of the receivers `r` are the frames `fs`. -/
def Serves : List Receiver → List Frame → Prop
  | [], fs => fs = []
  | ⟨_, .chain _ _⟩ :: r, fs => Serves r fs
  | ⟨x, .loop _⟩ :: r, fs => ∃ f rest, fs = f :: rest ∧ f.ops = x ∧ f.rcvr = r ∧ Serves r rest

/-- Where the calls are. An operation is started once, after it has been made; the
loops that have completed are the innermost ones, and have nothing in them; and
when a call returns the innermost loop has just made its child, or all loops
have completed. -/
def Calls (s : State) : Prop :=
  match s.control with
  | .start x _ r => s.slots.Fresh x ∧ Serves r s.loops
  | .complete _ r => ∃ passed rest, s.loops = passed ++ rest ∧ Serves r rest ∧
      ∀ f ∈ passed, s.slots.active f.ops = none ∧ r <:+ f.rcvr
  | .ret => (∃ f fs k, s.loops = f :: fs ∧ Serves f.rcvr fs ∧ s.slots.active f.ops = some k ∧
      s.slots.Fresh (k :: f.ops)) ∨ ∀ f ∈ s.loops, s.slots.active f.ops = none
  | .error => False

/-- The loops under way are there, and so is what the next step reads. -/
structure Live (s : State) : Prop where
  loops : ∀ f ∈ s.loops, s.slots.alive f.ops = true
  control : s.mayRead = true
  calls : Calls s

theorem mayRead_of_at {m : Slots} {x : Place} {r : List Receiver} (h : At m x r)
    (hx : m.alive x = true) : (r.head?.map Receiver.ops).all m.alive = true := by
  cases r with
  | nil => rfl
  | cons rc r =>
      obtain ⟨haround, -⟩ := List.pairwise_cons.mp h.around
      exact Slots.alive_of_suffix (Slots.suffix_of_around (haround rc.ops (by simp))) hx

theorem mayRead_of_ret {s : State} (hc : s.control = .ret)
    (h : ∀ f ∈ s.loops, s.slots.alive f.ops = true) : s.mayRead = true := by
  simp only [State.mayRead, State.reads, hc]
  cases hl : s.loops with
  | nil => rfl
  | cons f fs => exact h f (by simp [hl])

/-- A loop that has completed is in every operation that is still to be told. -/
theorem around_of_passed {m : Slots} {f : Frame} {rc : Receiver} {r : List Receiver}
    (hat : At m f.ops f.rcvr) (hr : rc :: r <:+ f.rcvr) : rc.ops.around f.ops = true := by
  obtain ⟨haround, -⟩ := List.pairwise_cons.mp hat.around
  exact haround rc.ops (List.mem_map.mpr ⟨rc, hr.subset (by simp), rfl⟩)

/-- No loop has completed in the operation that is replaced. -/
theorem serves_of_spares {s : State} {e : Event} {ch : Channel} {rc : Receiver}
    {r : List Receiver} (ho : Ordered s) (h : Calls s) (hc : s.control = .complete ch (rc :: r))
    (hx : s.replaces e = some rc.ops) (hspares : Spares s e) : Serves (rc :: r) s.loops := by
  simp only [Calls, hc] at h
  obtain ⟨passed, rest, hloops, hserves, hpassed⟩ := h
  cases passed with
  | nil => rwa [hloops]
  | cons f passed =>
      have hf : f ∈ s.loops := by simp [hloops]
      have haround := around_of_passed (ho.loops f hf) (hpassed f (by simp)).2
      rw [hspares rc.ops hx f hf] at haround
      cases haround

/-- A place stays where it is when what is in it is replaced. -/
theorem alive_emplace_self (m : Slots) (x : Place) : (m.emplace x).alive x = m.alive x :=
  (Slots.replaced_emplace m x).alive_eq (Slots.around_irrefl_of_suffix (List.suffix_refl x))

theorem alive_of_move {s s' : State} {e : Event} {f : Frame} (h : Live s) (hspares : Spares s e)
    (hs : Move s e s') (hf : f ∈ s.loops) : s'.slots.alive f.ops = true := by
  rcases hs.slots with ⟨-, heq⟩ | ⟨x, hx, hrep⟩
  · rw [heq]
    exact h.loops f hf
  · rw [hrep.alive_eq (hspares x hx f hf)]
    exact h.loops f hf

/-- The innermost loop has completed: its `state` is empty, and what it is in is told. -/
theorem live_of_reset {s s' : State} {ch : Channel} {f : Frame} {fs : List Frame}
    (hat : At s.slots f.ops f.rcvr) (hserves : Serves f.rcvr fs)
    (halive : ∀ f ∈ s'.loops, s'.slots.alive f.ops = true) (hloops : s'.loops = f :: fs)
    (hslots : s'.slots = s.slots.reset f.ops) (hcontrol : s'.control = .complete ch f.rcvr) :
    Live s' := by
  have hat' : At s'.slots f.ops f.rcvr := by
    rw [hslots]
    exact hat.mono fun hk => hk.replaced (Slots.replaced_reset _ _)
  have hread := mayRead_of_at hat' (halive f (by simp [hloops]))
  refine ⟨halive, by simpa [State.mayRead, State.reads, hcontrol] using hread, ?_⟩
  simp only [Calls, hcontrol]
  refine ⟨[f], fs, hloops, hserves, fun f' hf' => ?_⟩
  obtain rfl := List.mem_singleton.mp hf'
  rw [hslots]
  exact ⟨Function.update_self _ _ _, List.suffix_refl _⟩

/-- When a call returns and the innermost loop has a child, it has just made it. -/
theorem Calls.innermost {s : State} {f : Frame} {fs : List Frame} {k : ℕ} (h : Calls s)
    (hc : s.control = .ret) (hf : s.loops = f :: fs) (hk : s.slots.active f.ops = some k) :
    Serves f.rcvr fs ∧ s.slots.Fresh (k :: f.ops) := by
  simp only [Calls, hc] at h
  rcases h with ⟨f', fs', k', hloops, hserves, hk', hfresh⟩ | hnone
  · obtain ⟨rfl, rfl⟩ := List.cons.inj (hf.symm.trans hloops)
    obtain rfl := Option.some.inj (hk.symm.trans hk')
    exact ⟨hserves, hfresh⟩
  · rw [hnone f (by simp [hf])] at hk
    cases hk

/-- When it has no child, no loop has. -/
theorem Calls.completed {s : State} {f : Frame} {fs : List Frame} (h : Calls s)
    (hc : s.control = .ret) (hf : s.loops = f :: fs) (hnone : s.slots.active f.ops = none) :
    ∀ f' ∈ s.loops, s.slots.active f'.ops = none := by
  simp only [Calls, hc] at h
  rcases h with ⟨f', fs', k, hloops, -, hk, -⟩ | hall
  · obtain ⟨rfl, rfl⟩ := List.cons.inj (hf.symm.trans hloops)
    rw [hnone] at hk
    cases hk
  · exact hall

theorem live_move {s s' : State} {e : Event} (ho : Ordered s) (h : Live s)
    (hspares : Spares s e) (hs : Move s e s') : Live s' := by
  have halive : ∀ f ∈ s.loops, s'.slots.alive f.ops = true := fun f => alive_of_move h hspares hs
  have hread := h.control
  have hcalls := h.calls
  have hcontrol := ho.control
  cases hs with
  | startChain x hd first next r hc =>
      simp only [State.mayRead, State.reads, hc, Option.all_some] at hread
      simp only [Calls, hc] at hcalls
      obtain ⟨hfresh, hserves⟩ := hcalls
      have hactive := (hfresh x (List.suffix_refl x)).1
      exact ⟨halive, Slots.alive_active hread hactive, hfresh.inner 0, hserves⟩
  | startLoop x ch cs child r hc =>
      simp only [State.mayRead, State.reads, hc, Option.all_some] at hread
      simp only [Calls, hc] at hcalls
      simp only [hc] at hcontrol
      have hx : (s.slots.emplace x).alive x = true := by rwa [alive_emplace_self]
      refine ⟨fun f hf => ?_, hx, .inl ⟨_, _, _, rfl, hcalls.2, Function.update_self _ _ _,
        ho.untouched.fresh_emplaced hcontrol.known⟩⟩
      rcases List.mem_cons.mp hf with rfl | hf
      · exact hx
      · exact halive f hf
  | leaf x ch r hc =>
      simp only [State.mayRead, State.reads, hc, Option.all_some] at hread
      simp only [Calls, hc] at hcalls
      simp only [hc] at hcontrol
      exact ⟨halive, mayRead_of_at hcontrol hread, [], s.loops, rfl, hcalls.2, by simp⟩
  | completeFirst i ch x hd next r hc =>
      have hserves := serves_of_spares ho hcalls hc
        (by simp [State.replaces, State.reads, hc]) hspares
      simp only [State.mayRead, State.reads, hc, List.head?_cons, Option.map_some,
        Option.all_some] at hread
      simp only [hc] at hcontrol
      obtain ⟨y, hy⟩ := hcontrol
      exact ⟨halive, Slots.alive_emplaced hread,
        ho.untouched.fresh_emplaced hy.tail.known, hserves⟩
  | passChain ch x hd next r hc =>
      simp only [State.mayRead, State.reads, hc, List.head?_cons, Option.map_some,
        Option.all_some] at hread
      simp only [Calls, hc] at hcalls
      simp only [hc] at hcontrol
      obtain ⟨y, hy⟩ := hcontrol
      obtain ⟨passed, rest, hloops, hserves, hpassed⟩ := hcalls
      refine ⟨halive, mayRead_of_at hy.tail hread, passed, rest, hloops, hserves, fun f hf => ?_⟩
      exact ⟨(hpassed f hf).1, (List.suffix_cons _ r).trans (hpassed f hf).2⟩
  | passLoop ch x looped r hc | stop ch x looped r hc =>
      have hserves := serves_of_spares ho hcalls hc
        (by simp [State.replaces, State.reads, hc]) hspares
      simp only [hc] at hcontrol
      obtain ⟨y, hy⟩ := hcontrol
      obtain ⟨f, rest, hloops, rfl, rfl, hrest⟩ := hserves
      exact live_of_reset hy.tail hrest halive hloops rfl rfl
  | again ch x looped r hc =>
      have hserves := serves_of_spares ho hcalls hc
        (by simp [State.replaces, State.reads, hc]) hspares
      simp only [hc] at hcontrol
      obtain ⟨y, hy⟩ := hcontrol
      obtain ⟨f, rest, hloops, rfl, rfl, hrest⟩ := hserves
      exact ⟨halive, mayRead_of_ret rfl halive, .inl ⟨f, rest, _, hloops, hrest,
        Function.update_self _ _ _, ho.untouched.fresh_emplaced hy.tail.known⟩⟩
  | receive ch hc =>
      simp only [Calls, hc] at hcalls
      obtain ⟨passed, rest, hloops, hserves, hpassed⟩ := hcalls
      obtain rfl : rest = [] := hserves
      exact ⟨halive, mayRead_of_ret rfl halive,
        .inr fun f hf => (hpassed f (by simpa [hloops] using hf)).1⟩
  | begin f fs k hc hf hk =>
      simp only [State.mayRead, State.reads, hc, hf, List.head?_cons, Option.map_some,
        Option.all_some] at hread
      obtain ⟨hserves, hfresh⟩ := hcalls.innermost hc hf hk
      exact ⟨halive, Slots.alive_active hread hk, hfresh, f, fs, hf, rfl, rfl, hserves⟩
  | beginStopped f fs k hc hf hk =>
      have hat := ho.loops f (by simp [hf])
      exact live_of_reset hat (hcalls.innermost hc hf hk).1 halive hf rfl rfl
  | endLoop f fs hc hf hnone =>
      have hall := hcalls.completed hc hf hnone
      have hfs : ∀ f' ∈ fs, s.slots.alive f'.ops = true :=
        fun f' hf' => halive f' (by simp [hf, hf'])
      refine ⟨hfs, mayRead_of_ret hc hfs, ?_⟩
      simp only [Calls, hc]
      exact .inr fun f' hf' => hall f' (by simp [hf, hf'])

/-! ### A loop that is not there -/

/-- A loop under way is not there, or has already read what is not. -/
def Doomed (s : State) : Prop :=
  s.control = .error ∨ ∃ f ∈ s.loops, s.slots.alive f.ops = false

/-- A loop goes on until it ends. -/
theorem Move.mem_loops {s s' : State} {e : Event} {f : Frame} (h : Move s e s')
    (hf : f ∈ s.loops) : f ∈ s'.loops ∨ e = .endLoop ∧ s.reads = some f.ops := by
  cases h with
  | startLoop => exact .inl (List.mem_cons_of_mem _ hf)
  | endLoop f' fs hc hl =>
      rw [hl] at hf
      rcases List.mem_cons.mp hf with rfl | hf
      · exact .inr ⟨rfl, by simp [State.reads, hc, hl]⟩
      · exact .inl hf
  | _ => exact .inl hf

/-- A loop that is not there comes to read it. -/
theorem doomed_step {s s' : State} {e : Event} (ho : Ordered s) (h : Doomed s)
    (hs : step s e = some s') : Doomed s' := by
  rcases step_cases hs with ⟨hread, hmove⟩ | ⟨-, -, rfl⟩
  · rcases h with herror | ⟨f, hf, hdead⟩
    · cases hmove <;> simp_all
    · have hdead' : s'.slots.alive f.ops = false := by
        rcases hmove.slots with ⟨-, heq⟩ | ⟨x, -, hrep⟩
        · rwa [heq]
        · exact hrep.dead_of_dead hdead (ho.loops f hf).known
      rcases hmove.mem_loops hf with hf' | ⟨-, hreads⟩
      · exact .inr ⟨f, hf', hdead'⟩
      · simp [State.mayRead, hreads, hdead] at hread
  · exact .inl rfl

/-- A loop in what is replaced is not there any more. -/
theorem doomed_of_not_spares {s s' : State} {e : Event} (ho : Ordered s) (h : ¬ Spares s e)
    (hs : step s e = some s') : Doomed s' := by
  simp only [Spares, not_forall] at h
  obtain ⟨x, hx, f, hf, haround⟩ := h
  rcases step_cases hs with ⟨-, hmove⟩ | ⟨-, rfl, rfl⟩
  · rcases hmove.slots with ⟨hnone, -⟩ | ⟨y, hy, hrep⟩
    · rw [hnone] at hx
      cases hx
    · obtain rfl := Option.some.inj (hy.symm.trans hx)
      refine .inr ⟨f, ?_, hrep.dead (by simpa using haround) (ho.loops f hf).known⟩
      rcases hmove.mem_loops hf with hf' | ⟨rfl, -⟩
      · exact hf'
      · cases hx
  · exact .inl rfl

/-! ### Whole runs -/

theorem ordered_of_run {sndr : Sender} {tr : List Event} {s : State}
    (h : Run step (.init sndr) tr s) : Ordered s := by
  refine Run.induction (P := fun _ s => Ordered s) ⟨?_, ?_, by simp [State.init]⟩
    (fun _ _ _ _ _ ih hs => ordered_step ih hs) h
  · intro x k hk y _
    exact ⟨rfl, rfl⟩
  · exact ⟨List.pairwise_singleton _ _, True.intro⟩

theorem live_of_run {sndr : Sender} {tr : List Event} {s : State}
    (h : Run step (.init sndr) tr s) (hspares : EachStep step Spares (.init sndr) tr) :
    Live s := by
  refine Run.induction_of_eachStep (P := fun _ s => Live s) ⟨by simp [State.init], rfl, ?_⟩ ?_ h
    hspares
  · exact ⟨fun y _ => ⟨rfl, rfl⟩, rfl⟩
  · intro tr s e s' hr ih hsp hs
    rcases step_cases hs with ⟨-, hmove⟩ | ⟨hread, -, -⟩
    · exact live_move (ordered_of_run hr) ih hsp hmove
    · rw [ih.control] at hread
      cases hread

/-- Until all calls have returned there is something to be done. -/
theorem Live.goes_on {s : State} (h : Live s) : s.Returned ∨ ∃ e, (step s e).isSome = true := by
  have hread := h.control
  have hcalls := h.calls
  cases hc : s.control with
  | start x sndr r =>
      right
      cases sndr with
      | leaf => exact ⟨.leaf .value, by simp [step, hread, act, hc]⟩
      | chain hd first next => exact ⟨.start, by simp [step, hread, act, hc]⟩
      | loop ch cs child => exact ⟨.start, by simp [step, hread, act, hc]⟩
  | complete ch r =>
      right
      match r with
      | [] => exact ⟨.receive ch, by simp [step, hread, act, hc]⟩
      | ⟨x, .chain hd next⟩ :: r =>
          cases hh : hd ch with
          | true => exact ⟨.completeFirst 0, by simp [step, hread, act, hc, hh]⟩
          | false => exact ⟨.passthrough, by simp [step, hread, act, hc, hh]⟩
      | ⟨x, .loop looped⟩ :: r =>
          by_cases heq : ch = looped
          · exact ⟨.evaluate true, by simp [step, hread, act, hc, heq]⟩
          · exact ⟨.passthrough, by simp [step, hread, act, hc, heq]⟩
  | ret =>
      cases hl : s.loops with
      | nil => exact .inl ⟨hc, hl⟩
      | cons f fs =>
          right
          cases hk : s.slots.active f.ops with
          | none => exact ⟨.endLoop, by simp [step, hread, act, hc, hl, hk]⟩
          | some k => exact ⟨.beginLoop false, by simp [step, hread, act, hc, hl, hk]⟩
  | error => simp only [Calls, hc] at hcalls

/-- Whatever is read is there, and the calls go on until they have all returned,
as long as no loop is under way in an operation that is destroyed or replaced.
All calls return in no other run. -/
theorem loops_read_active {sndr : Sender} {tr : List Event} {s : State}
    (h : Run step (.init sndr) tr s) :
    (EachStep step Spares (.init sndr) tr → s.mayRead = true ∧ s.control ≠ .error ∧
      (s.Returned ∨ ∃ e, (step s e).isSome = true)) ∧
    (s.Returned → EachStep step Spares (.init sndr) tr) := by
  constructor
  · intro hspares
    have hlive := live_of_run h hspares
    have hcalls := hlive.calls
    refine ⟨hlive.control, fun herror => ?_, hlive.goes_on⟩
    simp only [Calls, herror] at hcalls
  · intro hret
    by_contra hnot
    have hdoomed : Doomed s := by
      refine (Run.induction (P := fun tr s => EachStep step Spares (.init sndr) tr ∨ Doomed s)
        (.inl True.intro) ?_ h).resolve_left hnot
      rintro tr s e s' hr (hall | hdoomed) hs
      · by_cases hsp : Spares s e
        · exact .inl (hall.concat hr hsp)
        · exact .inr (doomed_of_not_spares (ordered_of_run hr) hsp hs)
      · exact .inr (doomed_step (ordered_of_run hr) hdoomed hs)
    rcases hdoomed with herror | ⟨f, hf, -⟩
    · rw [hret.1] at herror
      cases herror
    · rw [hret.2] at hf
      cases hf

/-- A `repeat` that goes round twice in a `let_error`, which passes its value on. -/
def passedTrace : List Event :=
  [.start, .start, .beginLoop false, .leaf .value, .evaluate false, .beginLoop false,
    .leaf .value, .evaluate true, .passthrough, .receive .value, .endLoop]

theorem loops_read_active_passed : ∃ s,
    Run step (.init ((Sender.repeatUntil true .leaf).letError fun _ => .leaf)) passedTrace s ∧
      s.mayRead = true ∧ s.control ≠ .error := by
  obtain ⟨s, hs⟩ : ∃ s, Run step
      (.init ((Sender.repeatUntil true .leaf).letError fun _ => .leaf)) passedTrace s :=
    exists_run_iff.mpr rfl
  have hread := (loops_read_active hs).1 (by decide)
  exact ⟨s, hs, hread.1, hread.2.1⟩

/-- A `repeat` whose child completes with a value, first in a `sequence`. -/
def sequenceTrace : List Event :=
  [.start, .start, .beginLoop false, .leaf .value, .evaluate true, .completeFirst 0,
    .leaf .value, .receive .value, .fault]

/-- The loop reads the `state` of an operation in whose place the next one is. -/
theorem sequence_reads_inactive : ¬ ∀ (sndr : Sender) (tr : List Event) (s : State),
    Run step (.init sndr) tr s → s.control ≠ .error := by
  intro h
  obtain ⟨s, hs⟩ : ∃ s, Run step (.init ((Sender.repeatUntil true .leaf).sequence .leaf))
      sequenceTrace s := exists_run_iff.mpr rfl
  have hlast : s.control = .error := by
    obtain ⟨s', -, hlast⟩ := run_concat.mp
      (show Run step _ (sequenceTrace.dropLast ++ [.fault]) s from hs)
    rcases step_cases hlast with ⟨-, hmove⟩ | ⟨-, -, rfl⟩
    · cases hmove
    · rfl
  exact h _ _ s hs hlast

end BaremetalSenders.SyncLoop
