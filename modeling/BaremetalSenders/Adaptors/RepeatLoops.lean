import BaremetalSenders.Adaptors.NestedRepeat
import BaremetalSenders.Adaptors.SyncLoop

/-!
The loop of `repeat` in its models.

`Repeat` has the values, the predicate's state and the calls of a loop function, but one adaptor
and nothing inside of its child. `NestedRepeat` has the counters of adaptors in one another, and
`SyncLoop` the storage they are in. Where they speak of the same, a single adaptor over a child
that completes synchronously, the runs of `NestedRepeat` are runs of `Repeat`, and those of
`Repeat` are runs of `SyncLoop`, and the receiver gets the same.
-/

namespace BaremetalSenders.Repeat

variable {V P : Type*}

/-- What the receiver is called with. -/
def delivered : Event V → Option (Channel × List (Option V))
  | .deliver _ ch vals => some (ch, vals)
  | _ => none

/-! ### One level of `NestedRepeat` -/

section Level

/-- Where one level of `NestedRepeat` is, as a phase of `Repeat` with the child in `state`. -/
inductive AtLevel : NestedRepeat.Control V → List ℕ → Option ℕ → Phase V → Prop
  | idle : AtLevel (.start 0) [] none .idle
  | ready (k : ℕ) : AtLevel .ret [0] (some k) (.ready none)
  | begun (k : ℕ) : AtLevel (.start 1) [0] (some k) .running
  | running (k : ℕ) : AtLevel (.running 1 k) [0] (some k) .running
  | completing (k : ℕ) (args : List (Ref V)) :
      AtLevel (.complete 1 .value args) [0] (some k) (.completing .value ⟨k, args⟩)
  | forwarding (k : ℕ) (ch : Channel) (args : List (Ref V)) :
      AtLevel (.complete 0 ch args) [0] none (.forwarding ch ⟨k, args⟩)
  | done : AtLevel .ret [0] none .done
  | returned : AtLevel .ret [] none .done

/-- The state of a `repeat_n` that is alone. -/
structure Level (checksStop : Bool) (s : NestedRepeat.State V) (t : State V UInt32) : Prop where
  ops : s.ops = .repeatN checksStop .child t.pred :: t.state.toList.map .child
  next : s.next = t.next
  calls : t.calls = []
  phase : AtLevel s.control s.loops t.state t.phase

variable {checksStop : Bool} {mem : ℕ → ℕ → V} {s s' : NestedRepeat.State V} {t : State V UInt32}

theorem Level.child? (h : Level checksStop s t) : s.child? = t.state := by
  rw [NestedRepeat.State.child?, h.ops]
  cases t.state <;> rfl

variable [DecidableEq V]

/-- A loop looks for a stop request where its operation does. -/
theorem checksStop_of_beginLoop {j : ℕ} {js : List ℕ}
    (hs : NestedRepeat.step mem s (.beginLoop true) = some s') (hloops : s.loops = j :: js) :
    ∃ sndr pred, s.ops[j]? = some (.repeatN true sndr pred) := by
  simp only [NestedRepeat.step, hloops, if_true] at hs
  split at hs
  · next hlevels =>
      obtain ⟨rfl, rfl⟩ := List.cons.inj hlevels
      split at hs
      · next hop =>
          split at hs
          · split at hs <;> cases hs
            next hchecks =>
              obtain rfl := hchecks
              exact ⟨_, _, hop⟩
          · cases hs
      · cases hs
  · cases hs

theorem Level.step {e : NestedRepeat.Event V} (h : Level checksStop s t)
    (hs : NestedRepeat.step mem s e = some s') :
    ∃ ls t', Run (Repeat.step (repeatN true checksStop) mem) t ls t' ∧ Level checksStop s' t' ∧
      s'.received = s.received ++ ls.filterMap delivered := by
  have hchild := h.child?
  obtain ⟨ops, next, loops, control, received⟩ := s
  obtain ⟨state, tnext, pred, phase, calls⟩ := t
  obtain ⟨hops, hnext, hcalls, hphase⟩ := h
  dsimp only at hops hnext hcalls hphase hchild
  subst hops hnext hcalls
  cases NestedRepeat.step_move hs with
  | start hc hop =>
      dsimp only at hc hop
      subst hc
      cases hphase with
      | idle =>
          cases hop
          exact ⟨[.start], _, run_cons.mpr ⟨_, rfl, run_nil.mpr rfl⟩, ⟨rfl, rfl, rfl, .ready _⟩,
            (List.append_nil _).symm⟩
      | begun k => cases hop
  | startChild hc hop =>
      dsimp only at hc hop
      subst hc
      cases hphase with
      | idle => cases hop
      | begun k =>
          cases hop
          exact ⟨[], _, run_nil.mpr rfl, ⟨rfl, rfl, rfl, .running _⟩, (List.append_nil _).symm⟩
  | @complete j k args hc hargs =>
      dsimp only at hc
      subst hc
      cases hphase with
      | running =>
          exact ⟨[.complete k .value args], _,
            run_cons.mpr ⟨_, if_pos ⟨rfl, hargs⟩, run_nil.mpr rfl⟩,
            ⟨rfl, rfl, rfl, .completing k args⟩, (List.append_nil _).symm⟩
  | @stop j args cs sndr pred' hc hop hpred =>
      dsimp only at hc
      subst hc
      cases hphase with
      | completing k =>
          cases hop
          refine ⟨[.evaluate k (args.map (Ref.read mem (some k))) true, .reset], _,
            run_cons.mpr ⟨_, if_pos ⟨rfl, rfl, rfl, hpred.symm⟩,
              run_cons.mpr ⟨_, rfl, run_nil.mpr rfl⟩⟩,
            ⟨rfl, rfl, rfl, .forwarding k _ args⟩, (List.append_nil _).symm⟩
  | @again j args cs sndr pred' hc hop hpred =>
      dsimp only at hc
      subst hc
      cases hphase with
      | completing k =>
          cases hop
          refine ⟨[.evaluate k (args.map (Ref.read mem (some k))) false, .again k], _,
            run_cons.mpr ⟨_, if_pos ⟨rfl, rfl, rfl, hpred.symm⟩,
              run_cons.mpr ⟨_, if_pos rfl, run_nil.mpr rfl⟩⟩,
            ⟨rfl, rfl, rfl, .ready _⟩, (List.append_nil _).symm⟩
  | passthrough hc hch =>
      dsimp only at hc
      subst hc
      cases hphase
      exact absurd rfl hch
  | @receive ch args hc =>
      dsimp only at hc
      subst hc
      cases hphase with
      | forwarding k =>
          exact ⟨[.deliver k ch (args.map (Ref.read mem none))], _,
            run_cons.mpr ⟨_, if_pos ⟨rfl, rfl, rfl⟩, run_nil.mpr rfl⟩, ⟨rfl, rfl, rfl, .done⟩, rfl⟩
  | beginStop hc hloops hlt =>
      obtain ⟨sndr, p, hop⟩ := checksStop_of_beginLoop hs hloops
      dsimp only at hc hloops hlt hop
      subst hc hloops
      cases hphase with
      | ready k =>
          cases hop
          exact ⟨[.begin true, .reset], _,
            run_cons.mpr ⟨_, rfl, run_cons.mpr ⟨_, rfl, run_nil.mpr rfl⟩⟩,
            ⟨rfl, rfl, rfl, .forwarding k _ []⟩, (List.append_nil _).symm⟩
      | done => exact absurd hlt (by simp)
  | begin hc hloops hlt =>
      dsimp only at hc hloops hlt
      subst hc hloops
      cases hphase with
      | ready k =>
          exact ⟨[.begin false], _, run_cons.mpr ⟨_, rfl, run_nil.mpr rfl⟩,
            ⟨rfl, rfl, rfl, .begun k⟩, (List.append_nil _).symm⟩
      | done => exact absurd hlt (by simp)
  | endLoop hc hloops heq =>
      dsimp only at hc hloops heq
      subst hc hloops
      cases hphase with
      | ready k => exact absurd heq (by simp)
      | done =>
          exact ⟨[], _, run_nil.mpr rfl, ⟨rfl, rfl, rfl, .returned⟩, (List.append_nil _).symm⟩
  | staleValue hc hloops hle =>
      dsimp only at hc hloops hle
      subst hc hloops
      cases hphase <;> exact absurd hle (by simp)
  | stale hc hloops hle =>
      dsimp only at hc hloops hle
      subst hc hloops
      cases hphase <;> exact absurd hle (by simp)

/-- A `repeat_n` that is alone makes the runs of `Repeat`. -/
theorem level_of_run {n : UInt32} {tr : List (NestedRepeat.Event V)}
    (h : Run (NestedRepeat.step mem) (.init (.repeatN checksStop n .child) 0) tr s) :
    ∃ tr' t, Run (Repeat.step (repeatN true checksStop) mem) (.init n) tr' t ∧
      Level checksStop s t ∧ tr'.filterMap delivered = s.received := by
  refine Run.induction (P := fun _ s => ∃ tr' t,
    Run (Repeat.step (repeatN true checksStop) mem) (.init n) tr' t ∧
      Level checksStop s t ∧ tr'.filterMap delivered = s.received) ?_ ?_ h
  · exact ⟨[], _, run_nil.mpr rfl, ⟨rfl, rfl, rfl, .idle⟩, rfl⟩
  · rintro tr s e s' - ⟨tr', t, ht, hlevel, hreceived⟩ hs
    obtain ⟨ls, t', ht', hlevel', hreceived'⟩ := hlevel.step hs
    exact ⟨tr' ++ ls, t', run_append.mpr ⟨t, ht, ht'⟩, hlevel',
      by rw [List.filterMap_append, hreceived, hreceived']⟩

end Level

/-! ### Where the child is -/

section Storage

/-- The adaptor, over a child that does nothing but complete. -/
def Driver.sender (D : Driver V P) : SyncLoop.Sender := .loop D.looped D.checksStop .leaf

def Driver.frame (D : Driver V P) : SyncLoop.Frame := ⟨[], D.looped, D.checksStop, .leaf, []⟩

/-- The receiver that the child has. -/
def Driver.receiver (D : Driver V P) : SyncLoop.Receiver := ⟨[], .loop D.looped⟩

/-- Where the adaptor is, as what is called and the loops of `SyncLoop`. -/
inductive AtCall (D : Driver V P) :
    Phase V → Option ℕ → SyncLoop.Control → List SyncLoop.Frame → Prop
  | idle : AtCall D .idle none (.start [] D.sender []) []
  | ready (k : ℕ) : AtCall D (.ready none) (some k) .ret [D.frame]
  | running (k : ℕ) :
      AtCall D .running (some k) (.start [k + 1] .leaf [D.receiver]) [D.frame]
  | completing (k : ℕ) (ch : Channel) (args : Args V) :
      AtCall D (.completing ch args) (some k) (.complete ch [D.receiver]) [D.frame]
  | looping (k : ℕ) (args : Args V) :
      AtCall D (.looping args) (some k) (.complete D.looped [D.receiver]) [D.frame]
  | resetting (k : ℕ) (args : Args V) :
      AtCall D (.resetting D.looped args) (some k) (.complete D.looped [D.receiver]) [D.frame]
  | stopping (k : ℕ) (args : Args V) (hchecks : D.checksStop = true) :
      AtCall D (.resetting .stopped args) (some k) .ret [D.frame]
  | forwarding (ch : Channel) (args : Args V) :
      AtCall D (.forwarding ch args) none (.complete ch []) [D.frame]
  | done : AtCall D .done none .ret [D.frame]

/-- The children are numbered as what has been put into the operation. -/
structure Stored (D : Driver V P) (s : State V P) (u : SyncLoop.State) : Prop where
  call : AtCall D s.phase s.state u.control u.loops
  made : u.slots.made [] = s.next
  active : s.phase = .idle ∨ u.slots.active [] = s.state.map (· + 1)

variable [DecidableEq V] {D : Driver V P} {mem : ℕ → ℕ → V} {s s' : State V P}
  {u : SyncLoop.State}

theorem Stored.step {e : Event V} (hsync : D.isSync = true) (h : Stored D s u)
    (hs : Repeat.step D mem s e = some s') :
    ∃ ls u', Run SyncLoop.step u ls u' ∧ Stored D s' u' ∧
      u'.received = u.received ++ ((delivered e).map Prod.fst).toList := by
  obtain ⟨state, next, pred, phase, calls⟩ := s
  obtain ⟨control, loops, slots, received⟩ := u
  obtain ⟨hcall, hmade, hactive⟩ := h
  dsimp only at hcall hmade hactive
  cases e with
  | start =>
      cases hcall with
      | idle =>
          obtain rfl := Option.some.inj hs
          refine ⟨[.start], ⟨.ret, [D.frame], slots.emplace [], received⟩,
            run_cons.mpr ⟨_, rfl, run_nil.mpr rfl⟩, ⟨.ready next, ?_, .inr ?_⟩,
            (List.append_nil _).symm⟩
          · simp [Slots.emplace, State.setup, hmade]
          · simp [Slots.emplace, State.setup, hmade]
      | _ => exact absurd hs (by simp [Repeat.step])
  | begin stop =>
      cases hcall with
      | ready k =>
          have hslot : slots.active [] = some (k + 1) := hactive.resolve_left (by simp)
          cases stop with
          | true =>
              simp only [Repeat.step, if_true] at hs
              split at hs <;> cases hs
              next hchecks =>
                exact ⟨[], _, run_nil.mpr rfl, ⟨.stopping k _ hchecks, hmade, .inr hslot⟩,
                  (List.append_nil _).symm⟩
          | false =>
              obtain rfl := Option.some.inj hs
              refine ⟨[.beginLoop false],
                ⟨.start [k + 1] .leaf [D.receiver], [D.frame], slots, received⟩,
                run_cons.mpr ⟨_, ?_, run_nil.mpr rfl⟩, ⟨.running k, hmade, .inr hslot⟩,
                (List.append_nil _).symm⟩
              simp [SyncLoop.step, SyncLoop.State.mayRead, SyncLoop.State.reads, SyncLoop.act,
                Driver.frame, Driver.receiver, Slots.alive, hslot]
      | _ => exact absurd hs (by simp [Repeat.step])
  | complete k ch refs =>
      cases hcall with
      | running k' =>
          have hslot : slots.active [] = some (k' + 1) := hactive.resolve_left (by simp)
          simp only [Repeat.step] at hs
          split at hs <;> cases hs
          refine ⟨[.leaf ch], ⟨.complete ch [D.receiver], [D.frame], slots, received⟩,
            run_cons.mpr ⟨_, ?_, run_nil.mpr rfl⟩, ⟨.completing k' ch _, hmade, .inr hslot⟩,
            (List.append_nil _).symm⟩
          simp [SyncLoop.step, SyncLoop.State.mayRead, SyncLoop.State.reads, SyncLoop.act,
            Slots.alive, hslot]
      | _ => exact absurd hs (by simp [Repeat.step])
  | evaluate k vals stop =>
      cases hcall with
      | completing k' ch =>
          have hslot : slots.active [] = some (k' + 1) := hactive.resolve_left (by simp)
          simp only [Repeat.step] at hs
          split at hs <;> cases hs
          next hargs =>
            obtain rfl := hargs.1
            refine ⟨[], _, run_nil.mpr rfl, ⟨?_, hmade, .inr hslot⟩, (List.append_nil _).symm⟩
            cases stop with
            | true => exact .resetting k' _
            | false => exact .looping k' _
      | _ => exact absurd hs (by simp [Repeat.step])
  | again k =>
      cases hcall with
      | looping k' =>
          simp only [Repeat.step, hsync, if_true] at hs
          split at hs <;> cases hs
          refine ⟨[.evaluate false], ⟨.ret, [D.frame], slots.emplace [], received⟩,
            run_cons.mpr ⟨_, ?_, run_nil.mpr rfl⟩, ⟨.ready next, ?_, .inr ?_⟩,
            (List.append_nil _).symm⟩
          · simp [SyncLoop.step, SyncLoop.State.mayRead, SyncLoop.State.reads, SyncLoop.act,
              Driver.receiver, Slots.alive]
          · simp [Slots.emplace, State.setup, hmade]
          · simp [Slots.emplace, State.setup, hmade]
      | _ => exact absurd hs (by simp [Repeat.step])
  | reset =>
      cases hcall with
      | completing k' ch args =>
          simp only [Repeat.step] at hs
          split at hs <;> cases hs
          next hch =>
            refine ⟨[.passthrough], ⟨.complete ch [], [D.frame], slots.reset [], received⟩,
              run_cons.mpr ⟨_, ?_, run_nil.mpr rfl⟩, ⟨.forwarding ch args, hmade, .inr ?_⟩,
              (List.append_nil _).symm⟩
            · simp [SyncLoop.step, SyncLoop.State.mayRead, SyncLoop.State.reads, SyncLoop.act,
                Driver.receiver, Slots.alive, hch]
            · simp [Slots.reset]
      | resetting k' args =>
          obtain rfl := Option.some.inj hs
          refine ⟨[.evaluate true], ⟨.complete D.looped [], [D.frame], slots.reset [], received⟩,
            run_cons.mpr ⟨_, ?_, run_nil.mpr rfl⟩, ⟨.forwarding D.looped args, hmade, .inr ?_⟩,
            (List.append_nil _).symm⟩
          · simp [SyncLoop.step, SyncLoop.State.mayRead, SyncLoop.State.reads, SyncLoop.act,
              Driver.receiver, Slots.alive]
          · simp [Slots.reset]
      | stopping k' args hchecks =>
          have hslot : slots.active [] = some (k' + 1) := hactive.resolve_left (by simp)
          obtain rfl := Option.some.inj hs
          refine ⟨[.beginLoop true], ⟨.complete .stopped [], [D.frame], slots.reset [], received⟩,
            run_cons.mpr ⟨_, ?_, run_nil.mpr rfl⟩, ⟨.forwarding .stopped args, hmade, .inr ?_⟩,
            (List.append_nil _).symm⟩
          · simp [SyncLoop.step, SyncLoop.State.mayRead, SyncLoop.State.reads, SyncLoop.act,
              Driver.frame, Slots.alive, hslot, hchecks]
          · simp [Slots.reset]
      | _ => exact absurd hs (by simp [Repeat.step])
  | deliver k ch vals =>
      cases hcall with
      | forwarding ch' args =>
          have hslot : slots.active [] = none := hactive.resolve_left (by simp)
          simp only [Repeat.step] at hs
          split at hs <;> cases hs
          next hargs =>
            obtain rfl := hargs.1
            refine ⟨[.receive ch'], ⟨.ret, [D.frame], slots, received ++ [ch']⟩,
              run_cons.mpr ⟨_, ?_, run_nil.mpr rfl⟩, ⟨.done, hmade, .inr hslot⟩, rfl⟩
            simp [SyncLoop.step, SyncLoop.State.mayRead, SyncLoop.State.reads, SyncLoop.act]
      | _ => exact absurd hs (by simp [Repeat.step])
  | loopFn k vals =>
      simp only [Repeat.step] at hs
      split at hs
      · split at hs <;> cases hs
        exact ⟨[], _, run_nil.mpr rfl, ⟨hcall, hmade, hactive⟩, (List.append_nil _).symm⟩
      · cases hs

/-- `repeat` over a child that completes synchronously makes the runs of `SyncLoop`. -/
theorem stored_of_run {p : P} {tr : List (Event V)} (hsync : D.isSync = true)
    (h : Run (Repeat.step D mem) (.init p) tr s) :
    ∃ tr' u, Run SyncLoop.step (.init D.sender) tr' u ∧ Stored D s u ∧
      u.received = (tr.filterMap delivered).map Prod.fst := by
  refine Run.induction (P := fun tr s => ∃ tr' u,
    Run SyncLoop.step (.init D.sender) tr' u ∧ Stored D s u ∧
      u.received = (tr.filterMap delivered).map Prod.fst) ?_ ?_ h
  · exact ⟨[], _, run_nil.mpr rfl, ⟨.idle, rfl, .inl rfl⟩, rfl⟩
  · rintro tr s e s' - ⟨tr', u, hu, hstored, hreceived⟩ hs
    obtain ⟨ls, u', hu', hstored', hreceived'⟩ := hstored.step hsync hs
    refine ⟨tr' ++ ls, u', run_append.mpr ⟨u, hu, hu'⟩, hstored', ?_⟩
    rw [hreceived', hreceived, List.filterMap_append, List.map_append]
    cases hd : delivered e <;> simp [hd]

end Storage

end BaremetalSenders.Repeat
