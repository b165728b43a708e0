import BaremetalSenders.Senders.SequentialOperations

/-!
What `connect` and `start` do is what the expression means.

That an operation state at the end of a list of cells comes to complete the
receiver it was connected with, with what the sender means, and leaves the cells
before it alone, is proved by induction on the sender: the operations that a
function of `let_...` or `sequence` returns are smaller in that sense, wherever
they are put.
-/

namespace BaremetalSenders.Sequential

open Repeat (Channel)
open Routine (done handle handle_eq handle_eq_self)

variable {V W A : Type*} {order : ArgumentOrder}

/-! ### Receivers of adaptors -/

section Receivers

variable {below : List (Cell V W)} {r : Receiver V W} {above : List (Cell V W)} {args : Args V}
  {c : Completion V} {w : W} {received : List (Completion V)} {result : Completion V × W}

theorem Sends.complete {heap : List (Cell V W)} {r' : Receiver V W} {s' : State V W}
    (hargs : readArgs heap args = some c.args) (h : Sends order below r result s')
    (hs : State.complete ⟨heap, .complete c.channel args r', w, received⟩ c.channel args c.args r' =
      some s') (hreceived : s'.received = received) :
    Sends order below r result ⟨heap, .complete c.channel args r', w, received⟩ := by
  have hstep : Sequential.step order ⟨heap, .complete c.channel args r', w, received⟩ () =
      some s' := by
    simp only [Sequential.step, hargs, Option.bind_some, hs]
  exact h.step hstep hreceived

/-- A channel that `then` does not handle, or `into_variant`. -/
theorem Sends.wrapped {r' : Receiver V W}
    (hs : ∀ heap, State.complete ⟨heap, .complete c.channel args r', w, received⟩ c.channel args
      c.args r' = some ⟨heap, .complete c.channel args r, w, received⟩)
    (hargs : readArgs (below ++ above) args = some c.args) :
    Sends order below r (c, w)
      ⟨below ++ above, .complete c.channel args r', w, received⟩ :=
  Sends.complete hargs (Sends.now hargs) (hs _) rfl

/-- What `then` and `into_variant` complete the receiver with that they wrap. -/
theorem Sends.sent {r' : Receiver V W} {c' : Completion V} {w' : W}
    (hs : ∀ heap, State.complete ⟨heap, .complete c.channel args r', w, received⟩ c.channel args
      c.args r' = some ⟨heap, .complete c'.channel (.results c'.args) r, w', received⟩)
    (hargs : readArgs (below ++ above) args = some c.args) :
    Sends order below r (c', w')
      ⟨below ++ above, .complete c.channel args r', w, received⟩ :=
  Sends.complete hargs (Sends.now rfl) (hs _) rfl

/-- A channel that `let_...` or `sequence` do not handle. -/
theorem Sends.passthrough {cell : Cell V W} (cell' : Cell V W) {r' : Receiver V W}
    (hcell : cell.values = none) (hcell' : cell'.values = none)
    (hs : State.complete ⟨below ++ cell :: above, .complete c.channel args r', w, received⟩
      c.channel args c.args r' = some ⟨(below ++ cell :: above).set below.length cell',
        .complete c.channel args r, w, received⟩)
    (hargs : readArgs (below ++ cell :: above) args = some c.args) :
    Sends order below r (c, w)
      ⟨below ++ cell :: above, .complete c.channel args r', w, received⟩ := by
  have hnow : Sends order below r (c, w) ⟨(below ++ cell :: above).set below.length cell',
      .complete c.channel args r, w, received⟩ := by
    rw [set_below]
    exact Sends.now ((readArgs_below hcell hcell').trans hargs)
  exact Sends.complete hargs hnow hs rfl

/-- An operation state starts the one in it. -/
theorem Sends.inner {below' : List (Cell V W)} {cell : Cell V W} (inner : ℕ → List (Cell V W))
    (hcell : ∀ (s : State V W) (a : ℕ), s.heap[a]? = some cell →
      s.start order a = some { s with control := .start (a + 1) })
    (h : Sends order below' r result ⟨below ++ [cell] ++ inner (below ++ [cell]).length,
      .start (below ++ [cell]).length, w, received⟩) :
    Sends order below' r result
      ⟨below ++ cell :: inner (below.length + 1), .start below.length, w, received⟩ := by
  rw [List.append_assoc, List.singleton_append, List.length_append, List.length_singleton] at h
  exact h.step (hcell _ _ getElem?_below) rfl

end Receivers

/-! ### Operation states -/

/-- The operation state that `connect` makes completes the receiver with what the sender
means. -/
theorem sends (order : ArgumentOrder) (s : Sender V W) (below : List (Cell V W))
    (r : Receiver V W) (w : W) (received : List (Completion V)) :
    Sends order below r (denote order s w)
      ⟨below ++ connect s r below.length, .start below.length, w, received⟩ := by
  induction s generalizing below r w with
  | just c =>
      have hstep : step order ⟨below ++ [.just c (some r)], .start below.length, w, received⟩ () =
          some ⟨below ++ [.just c none], .complete c.channel (.values below.length) r, w,
            received⟩ := by
        simp only [step, State.start, getElem?_below, set_below]
      refine Sends.step hstep rfl (Sends.now ?_)
      simp only [readArgs, getElem?_below, Option.bind_some, Cell.values]
  | justResultOf tag fs =>
      have hstep : step order ⟨below ++ [.justResultOf tag fs (some r)], .start below.length, w,
          received⟩ () = some (State.send ⟨below ++ [.justResultOf tag fs none],
            .start below.length, (callAll order fs w).2, received⟩
            (.mk (callAll order fs w).1 tag) r) := by
        simp only [step, State.start, getElem?_below, set_below]
      exact Sends.step hstep rfl (Sends.now rfl)
  | «then» tag complete s fs ih =>
      refine (ih below (.then tag complete fs r) w).trans fun above args hargs => ?_
      cases htag : (denote order s w).1.channel == tag with
      | true =>
          rw [denote, handle_eq htag]
          exact Sends.sent (fun heap => by
            simp only [State.complete, if_pos (beq_iff_eq.mp htag), State.send]) hargs
      | false =>
          rw [denote, handle_eq_self htag]
          exact Sends.wrapped (fun heap => by
            simp only [State.complete, if_neg (beq_eq_false_iff_ne.mp htag)]) hargs
  | intoVariant s variant ih =>
      refine (ih below (.intoVariant variant r) w).trans fun above args hargs => ?_
      cases htag : (denote order s w).1.channel == .value with
      | true =>
          rw [denote, handle_eq htag]
          exact Sends.sent (fun heap => by
            simp only [State.complete, if_pos (beq_iff_eq.mp htag), State.send]) hargs
      | false =>
          rw [denote, handle_eq_self htag]
          exact Sends.wrapped (fun heap => by
            simp only [State.complete, if_neg (beq_eq_false_iff_ne.mp htag)]) hargs
  | variant index s ih =>
      exact Sends.inner (connect s r) (fun st a ha => by simp only [State.start, ha])
        (ih _ r w).drop
  | «let» tags s fn effect ih ihfn =>
      refine Sends.inner (connect s (.let below.length tags))
        (fun st a ha => by simp only [State.start, ha])
        ((ih _ (.let below.length tags) w).trans fun above args hargs => ?_)
      rw [List.append_assoc, List.singleton_append] at hargs ⊢
      cases htags : tags (denote order s w).1.channel with
      | true =>
          -- what the function returns is where the first operation was, with the receiver
          -- that the `let_...` has
          rw [denote, handle_eq htags]
          refine Sends.complete hargs (ihfn _ _ _ (below ++
            [.let fn effect (some r) (some (denote order s w).1.args)]) r _).drop ?_ rfl
          simp only [State.complete, if_pos htags, State.completeFirstLet, getElem?_below,
            List.take_left', List.append_assoc, List.singleton_append, List.length_append,
            List.length_singleton]
      | false =>
          -- only the cell of the `let_...` changes, which the arguments do not refer to
          rw [denote, handle_eq_self htags]
          refine Sends.passthrough (.let fn effect none none) rfl rfl ?_ hargs
          simp only [State.complete, htags, Bool.false_eq_true, if_false, State.passthrough,
            getElem?_below]
  | sequence s func effect ih ihfunc =>
      refine Sends.inner (connect s (.sequence below.length))
        (fun st a ha => by simp only [State.start, ha])
        ((ih _ (.sequence below.length) w).trans fun above args hargs => ?_)
      rw [List.append_assoc, List.singleton_append] at hargs ⊢
      cases htag : (denote order s w).1.channel == .value with
      | true =>
          rw [denote, handle_eq htag]
          refine Sends.complete hargs (ihfunc _ (below ++ [.sequence none none]) r _).drop ?_ rfl
          simp only [State.complete, if_pos (beq_iff_eq.mp htag), State.completeFirstSequence,
            getElem?_below, List.take_left', List.append_assoc, List.singleton_append,
            List.length_append, List.length_singleton]
      | false =>
          rw [denote, handle_eq_self htag]
          refine Sends.passthrough (.sequence (some (func, effect)) none) rfl rfl ?_ hargs
          simp only [State.complete, if_neg (beq_eq_false_iff_ne.mp htag), State.passthrough,
            getElem?_below]

/-! ### Expressions -/

/-- `connect` and `start` in the world `w` come to an end, and when they have, the receiver
has been completed once: with `c`, in the world `w'`. -/
def Completes (order : ArgumentOrder) (s : Sender V W) (w : W) (c : Completion V) (w' : W) :
    Prop :=
  ∃ n, ∀ tr st, Run (step order) (.init s w) tr st → tr.length ≤ n ∧
    ∃ tr' st', Run (step order) st tr' st' ∧ st'.control = .ret ∧ st'.received = [c] ∧
      st'.world = w'

/-- Neither the receiver nor the world can tell the senders apart. -/
def Equivalent (order : ArgumentOrder) (s s' : Sender V W) : Prop :=
  ∀ w c w', Completes order s w c w' ↔ Completes order s' w c w'

section Expressions

variable {s s' : Sender V W} {w w' : W} {c : Completion V}

theorem step_ret {st : State V W} (h : st.control = .ret) (l : Unit) :
    step order st l = none := by
  simp only [step, h]

theorem exists_run (order : ArgumentOrder) (s : Sender V W) (w : W) : ∃ tr st,
    Run (step order) (.init s w) tr st ∧ st.control = .ret ∧
    st.received = [(denote order s w).1] ∧ st.world = (denote order s w).2 := by
  obtain ⟨tr, above, args, hrun, hargs⟩ := sends order s [] .outer w []
  refine ⟨tr ++ [()], ⟨[] ++ above, .ret, (denote order s w).2, [(denote order s w).1]⟩,
    hrun.concat ?_, rfl, rfl, rfl⟩
  simp only [step, hargs, Option.bind_some, State.complete, Signature.mk_args_channel]
  rfl

theorem completes_iff : Completes order s w c w' ↔ denote order s w = (c, w') := by
  have hdet : ∀ (st : State V W) (l l' : Unit) (u u' : State V W), step order st l = some u →
      step order st l' = some u' → l = l' := fun _ _ _ _ _ _ _ => rfl
  obtain ⟨tr, st, hrun, hret, hreceived, hworld⟩ := exists_run order s w
  constructor
  · rintro ⟨n, hall⟩
    obtain ⟨-, tr', st', hrun', hret', hreceived', hworld'⟩ := hall [] _ (run_nil.mpr rfl)
    obtain ⟨rest, -, hrest⟩ := Run.extends hdet (step_ret hret) hrun hrun'
    -- nothing is left to do in either state, so they are the same
    cases rest with
    | nil =>
        obtain rfl := run_nil.mp hrest
        rw [hreceived] at hreceived'
        exact Prod.ext (List.singleton_inj.mp hreceived') (hworld.symm.trans hworld')
    | cons l rest =>
        obtain ⟨u, hu, -⟩ := run_cons.mp hrest
        rw [step_ret hret'] at hu
        cases hu
  · intro hdenote
    rw [hdenote] at hreceived hworld
    refine ⟨tr.length, fun tr' st' hrun' => ?_⟩
    obtain ⟨rest, rfl, hrest⟩ := Run.extends hdet (step_ret hret) hrun hrun'
    exact ⟨List.length_append ▸ Nat.le_add_right _ _, rest, st, hrest, hret, hreceived, hworld⟩

theorem equivalent_of_denote (h : denote order s = denote order s') : Equivalent order s s' := by
  intro w c w'
  rw [completes_iff, completes_iff, h]

/-- An outcome that the adaptor does not handle. -/
theorem completes_of_handle {p : Completion V → Bool} {s' : Sender V W}
    {f : Completion V → Routine W (Completion V)}
    (hs' : denote order s' = handle p (denote order s) f) (hp : p c = false)
    (h : Completes order s w c w') : Completes order s' w c w' := by
  rw [completes_iff] at h ⊢
  rw [hs', handle_eq_self (by rw [h]; exact hp), h]

/-- One that it handles. -/
theorem completes_of_handled {p : Completion V → Bool} {s' : Sender V W}
    {f : Completion V → Routine W (Completion V)} {c' : Completion V} {w'' : W}
    (hs' : denote order s' = handle p (denote order s) f) (hp : p c = true)
    (h : Completes order s w c w') (hf : f c w' = (c', w'')) : Completes order s' w c' w'' := by
  rw [completes_iff] at h ⊢
  rw [hs', handle_eq (by rw [h]; exact hp), h]
  exact hf

end Expressions

/-- `connect` and `start` complete the receiver once, with what the expression means: `then`
maps the channel it handles, `let_...` and `sequence` go on, and a channel that an
adaptor does not handle passes it without a function being called.
`make_variant_sender` makes the sender of the first option whose predicate holds,
`let_value` and `just` satisfy the laws of a monad, and `then` is its map. -/
theorem sequential_adaptors (order : ArgumentOrder) :
    (∀ (s : Sender V W) (w : W) (c : Completion V) (w' : W),
      Completes order s w c w' ↔ denote order s w = (c, w')) ∧
    (∀ (s : Sender V W) (w : W) (c : Completion V) (w' : W), Completes order s w c w' →
      (∀ complete fs, Completes order (.then c.channel complete s fs) w
        (.mk (fs c.args w').1 complete) (fs c.args w').2) ∧
      (∀ tags fn effect c' w'', tags c.channel = true →
        Completes order (fn c.channel c.args w') (effect c.channel c.args w') c' w'' →
        Completes order (.let tags s fn effect) w c' w'') ∧
      (∀ func effect c' w'', c.channel = .value →
        Completes order (func w') (effect w') c' w'' →
        Completes order (.sequence s func effect) w c' w'') ∧
      ∀ variant, c.channel = .value →
        Completes order (.intoVariant s variant) w (.value [variant c.args]) w') ∧
    (∀ (s : Sender V W) (w : W) (c : Completion V) (w' : W), Completes order s w c w' →
      (∀ tag complete fs, c.channel ≠ tag →
        Completes order (.then tag complete s fs) w c w') ∧
      (∀ tags fn effect, tags c.channel = false →
        Completes order (.let tags s fn effect) w c w') ∧
      (∀ func effect, c.channel ≠ .value → Completes order (.sequence s func effect) w c w') ∧
      ∀ variant, c.channel ≠ .value → Completes order (.intoVariant s variant) w c w') ∧
    (∀ (o₀ : MatchOption A V W) (os before after : List (MatchOption A V W))
      (o : MatchOption A V W) (args : A), o₀ :: os = before ++ o :: after →
      (∀ o' ∈ before, o'.test args = false) → o.test args = true →
      Equivalent order (makeVariantSender o₀ os args) (o.invoke args)) ∧
    (∀ (b : Bool) (f1 f2 : Sender V W),
      Equivalent order (selectSender b f1 f2) (if b then f1 else f2)) ∧
    (∀ (vs : List V) (fn : List V → W → Sender V W) (effect : List V → W → W) (w : W)
      (c : Completion V) (w' : W), Completes order (.letValue (.just_ vs) fn effect) w c w' ↔
        Completes order (fn vs w) (effect vs w) c w') ∧
    (∀ s : Sender V W,
      Equivalent order (.letValue s (fun vs _ => .just_ vs) fun _ w => w) s) ∧
    (∀ (s : Sender V W) (fn next : List V → W → Sender V W) (effect effect' : List V → W → W),
      Equivalent order (.letValue (.letValue s fn effect) next effect')
        (.letValue s (fun vs w => .letValue (fn vs w) next effect') effect)) ∧
    ∀ (s : Sender V W) (fs : List V → W → List V × W), Equivalent order (.then_ s fs)
      (.letValue s (fun vs w => .just_ (fs vs w).1) fun vs w => (fs vs w).2) := by
  refine ⟨fun s w c w' => completes_iff, fun s w c w' h => ⟨?_, ?_, ?_, ?_⟩,
    fun s w c w' h => ⟨?_, ?_, ?_, ?_⟩, ?_, ?_, ?_, ?_, ?_, ?_⟩
  · exact fun complete fs => completes_of_handled rfl (beq_self_eq_true c.channel) h rfl
  · exact fun tags fn effect c' w'' htags hnext =>
      completes_of_handled rfl htags h (completes_iff.mp hnext)
  · exact fun func effect c' w'' hc hnext =>
      completes_of_handled rfl (beq_iff_eq.mpr hc : (c.channel == .value) = true) h
        (completes_iff.mp hnext)
  · exact fun variant hc =>
      completes_of_handled rfl (beq_iff_eq.mpr hc : (c.channel == .value) = true) h rfl
  · exact fun tag complete fs hc =>
      completes_of_handle rfl (beq_eq_false_iff_ne.mpr hc : (c.channel == tag) = false) h
  · exact fun tags fn effect htags => completes_of_handle rfl htags h
  · exact fun func effect hc =>
      completes_of_handle rfl (beq_eq_false_iff_ne.mpr hc : (c.channel == .value) = false) h
  · exact fun variant hc =>
      completes_of_handle rfl (beq_eq_false_iff_ne.mpr hc : (c.channel == .value) = false) h
  · intro o₀ os before after o args hos hbefore ho
    rw [makeVariantSender_eq hos hbefore ho]
    exact equivalent_of_denote rfl
  · intro b f1 f2
    cases b <;> exact equivalent_of_denote rfl
  · intro vs fn effect w c w'
    rw [completes_iff, completes_iff, denote_letValue_just]
  · exact fun s => equivalent_of_denote denote_letValue_right
  · exact fun s fn next effect effect' => equivalent_of_denote denote_letValue_assoc
  · exact fun s fs => equivalent_of_denote (denote_then fs)

/-- `match([](auto n) { return n == k; }) >> f`. -/
def matchNumber (k : ℕ) (f : ℕ → Sender ℕ ℕ) : MatchOption ℕ ℕ ℕ := ⟨(· == k), f⟩

/-- The second option is chosen, and what it sends passes `upon_error`. -/
theorem sequential_adaptors_secondOption :
    Equivalent (fun _ => Equiv.refl _)
      (makeVariantSender (matchNumber 0 fun _ => .justStopped)
        [matchNumber 1 fun n => .just_ [n]] 1) (.just_ [1]) ∧
    Completes (fun _ => Equiv.refl _) (.uponError (.just_ [1]) fun es w => (es, w + 1)) 0
      (.value [1] : Completion ℕ) 0 := by
  obtain ⟨hmeaning, -, hpasses, hvariant, -⟩ :=
    sequential_adaptors (V := ℕ) (W := ℕ) (A := ℕ) fun _ => Equiv.refl _
  constructor
  · exact hvariant _ _ [matchNumber 0 fun _ => .justStopped] [] (matchNumber 1 fun n => .just_ [n])
      1 rfl (by simp [matchNumber]) rfl
  · have hjust := (hmeaning (.just_ [1]) 0 (.value [1]) 0).mpr rfl
    exact (hpasses _ _ _ _ hjust).1 .error .value _ (by decide)

end BaremetalSenders.Sequential
