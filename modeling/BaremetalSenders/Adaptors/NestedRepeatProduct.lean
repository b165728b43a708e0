import BaremetalSenders.Adaptors.NestedRepeat
import Mathlib.Algebra.BigOperators.Group.List.Basic

/-!
How often nested `repeat_n` starts the child.

An operation that is started completes when its child has been started as often
as the product of the counts says: by induction on the sender, and for each
level on its counter. That the loops left on the stack come to an end then is a
matter of what they find where their operations have been.
-/

namespace BaremetalSenders.NestedRepeat

open Repeat (Channel Ref sentWith)

variable {V : Type*}

/-! ### The environment -/

structure Outcomes (V : Type*) where
  args : ℕ → List (Ref V)
  within : ∀ k, (args k).all (Ref.within k) = true

def Control.args : Control V → List (Ref V)
  | .complete _ _ args => args
  | _ => []

/-- The child that is in its `start`. -/
def Control.running? : Control V → Option ℕ
  | .running _ k => some k
  | _ => none

def Follows (O : Outcomes V) (s : State V) : Event V → Prop
  | .complete args => ∀ k ∈ s.control.running?, args = O.args k
  | _ => True

instance Follows.decidable [DecidableEq V] (O : Outcomes V) (s : State V) :
    (e : Event V) → Decidable (Follows O s e)
  | .complete args => inferInstanceAs (Decidable (∀ k ∈ s.control.running?, args = O.args k))
  | .start | .startChild _ | .evaluate _ | .passthrough | .receive _ _ | .beginLoop _ | .endLoop
  | .stale _ => inferInstanceAs (Decidable True)

/-- The side condition of a step: no stop is requested; a loop whose operation is not there any
more finds `state` empty; and what the receiver is given is not stored in a child that is not
there any more. -/
def Sound (s : State V) : Event V → Prop
  | .beginLoop stop => stop = false
  | .stale hasValue => hasValue = false
  | .receive _ _ => s.child? = none → ∀ r ∈ s.control.args, r.isExt = true
  | _ => True

def Event.startsChild : Event V → Option ℕ
  | .startChild k => some k
  | _ => none

def started (tr : List (Event V)) : List ℕ := tr.filterMap Event.startsChild

theorem started_append (tr tr' : List (Event V)) :
    started (tr ++ tr') = started tr ++ started tr' := List.filterMap_append

theorem started_cons (e : Event V) (tr : List (Event V)) :
    started (e :: tr) = e.startsChild.toList ++ started tr := by
  rw [started, List.filterMap_cons]
  cases e.startsChild <;> rfl

/-- How often the child of a sender is started. -/
def Sender.product : Sender → ℕ
  | .child => 1
  | .repeatN _ n sndr => (n.toNat + 1) * sndr.product

def Sender.isChild : Sender → Bool
  | .child => true
  | .repeatN _ _ _ => false

/-- The levels whose loops are on the stack when the operation at `level` completes. -/
def Sender.levels (level : ℕ) : Sender → List ℕ
  | .child => []
  | .repeatN _ _ sndr => sndr.levels (level + 1) ++ [level]

theorem Sender.le_levels (sndr : Sender) {level i : ℕ} (hi : i ∈ sndr.levels level) :
    level ≤ i := by
  induction sndr generalizing level with
  | child => cases hi
  | repeatN checksStop n sndr ih =>
      rcases List.mem_append.mp hi with hi | hi
      · exact Nat.le_of_succ_le (ih hi)
      · exact Nat.le_of_eq (List.mem_singleton.mp hi).symm

variable [DecidableEq V] {mem : ℕ → ℕ → V} {O : Outcomes V} {s s' s'' : State V}
  {tr tr' : List (Event V)} {e : Event V}

/-! ### Runs that meet the condition -/

/-- A run in which the children send what is given, and whose steps meet the condition. -/
structure Goes (mem : ℕ → ℕ → V) (O : Outcomes V) (s : State V) (tr : List (Event V))
    (s' : State V) : Prop where
  run : Run (step mem) s tr s'
  sound : EachStep (step mem) (fun s e => Follows O s e ∧ Sound s e) s tr

theorem Goes.refl (s : State V) : Goes mem O s [] s := ⟨run_nil.mpr rfl, True.intro⟩

theorem Goes.trans (h : Goes mem O s tr s') (h' : Goes mem O s' tr' s'') :
    Goes mem O s (tr ++ tr') s'' :=
  ⟨run_append.mpr ⟨s', h.run, h'.run⟩, h.sound.append h.run h'.sound⟩

theorem Goes.cons (hs : step mem s e = some s') (hfollows : Follows O s e) (hsound : Sound s e)
    (h : Goes mem O s' tr s'') : Goes mem O s (e :: tr) s'' := by
  refine ⟨run_cons.mpr ⟨s', hs, h.run⟩, ⟨hfollows, hsound⟩, fun u hu => ?_⟩
  obtain rfl := Option.some.inj (hs.symm.trans hu)
  exact h.sound

omit [DecidableEq V] in
theorem take_level (ops : List Op) (op : Op) (rest : List Op) :
    (ops ++ op :: rest).take (ops.length + 1) = ops ++ [op] := by
  simp [List.take_append]

/-- The loops of the operations at `level` and inside of it end when its `state` is empty. -/
theorem goes_loops {ops : List Op} {level next : ℕ} {loops loops' : List ℕ}
    {received : List (Channel × List (Option V))} (hlevel : level + 1 = ops.length)
    (hloops : ∀ i ∈ loops, level ≤ i) :
    ∃ tr, Goes mem O ⟨ops, next, loops ++ loops', .ret, received⟩ tr
      ⟨ops, next, loops', .ret, received⟩ ∧ started tr = [] := by
  induction loops with
  | nil => exact ⟨[], .refl _, rfl⟩
  | cons i loops ih =>
      obtain ⟨hi, hrest⟩ := List.forall_mem_cons.mp hloops
      obtain ⟨tr, htr, hnone⟩ := ih hrest
      rcases Nat.eq_or_lt_of_le hi with rfl | hlt
      · exact ⟨.endLoop :: tr, htr.cons (by simp [step, hlevel]) True.intro True.intro, hnone⟩
      · exact ⟨.stale false :: tr, htr.cons (by simp [step]; omega) True.intro rfl, hnone⟩

/-- The loops that end do not read anything else. -/
theorem goes_levels (mem : ℕ → ℕ → V) (ops : List Op) (op : Op) (sndr : Sender) (next : ℕ)
    (loops : List ℕ) (received : List (Channel × List (Option V))) :
    ∃ tr, Goes mem O ⟨ops ++ [op], next, sndr.levels ops.length ++ loops, .ret, received⟩ tr
      ⟨ops ++ [op], next, loops, .ret, received⟩ ∧ started tr = [] :=
  goes_loops (by simp) fun _ hi => sndr.le_levels hi

/-- An operation that is started completes with what its last child sends. -/
def Completes (mem : ℕ → ℕ → V) (O : Outcomes V) (sndr : Sender) : Prop :=
  ∀ (ops : List Op) (m : ℕ) (loops : List ℕ) (received : List (Channel × List (Option V))),
    ∃ tr op, Goes mem O
      ⟨ops ++ [sndr.connect m], m + sndr.born, loops, .start ops.length, received⟩ tr
      ⟨ops ++ [op], m + sndr.product, sndr.levels ops.length ++ loops,
        .complete ops.length .value (O.args (m + sndr.product - 1)), received⟩ ∧
      started tr = List.range' m sndr.product ∧
      op.child? = if sndr.isChild then some (m + sndr.product - 1) else none

section Iterate

variable {sndr : Sender} (checksStop : Bool) (ops : List Op) (loops : List ℕ)
  (received : List (Channel × List (Option V)))

/-- One iteration: `begin_loop` starts the operation inside, which completes. -/
theorem goes_iteration (ih : Completes mem O sndr) (c : UInt32) (m : ℕ) :
    ∃ tr op, Goes mem O
      ⟨ops ++ [.repeatN checksStop sndr c, sndr.connect m], m + sndr.born, ops.length :: loops,
        .ret, received⟩ tr
      ⟨ops ++ [.repeatN checksStop sndr c, op], m + sndr.product,
        sndr.levels (ops.length + 1) ++ ops.length :: loops,
        .complete (ops.length + 1) .value (O.args (m + sndr.product - 1)), received⟩ ∧
      started tr = List.range' m sndr.product := by
  obtain ⟨tr, op, htr, hstarted, -⟩ := ih (ops ++ [.repeatN checksStop sndr c]) m
    (ops.length :: loops) received
  rw [List.append_assoc, List.length_append, List.length_singleton, List.append_assoc] at htr
  exact ⟨.beginLoop false :: tr, op, htr.cons (by simp [step]) True.intro rfl,
    by rw [started_cons, hstarted]; rfl⟩

/-- The loop of `repeat_n` with `n` on the counter. -/
theorem goes_iterate (ih : Completes mem O sndr) {n : ℕ} {c : UInt32} (hc : c.toNat = n)
    (m : ℕ) : ∃ tr c', Goes mem O
      ⟨ops ++ [.repeatN checksStop sndr c, sndr.connect m], m + sndr.born, ops.length :: loops,
        .ret, received⟩ tr
      ⟨ops ++ [.repeatN checksStop sndr c'], m + (n + 1) * sndr.product,
        sndr.levels (ops.length + 1) ++ ops.length :: loops,
        .complete ops.length .value (O.args (m + (n + 1) * sndr.product - 1)), received⟩ ∧
      started tr = List.range' m ((n + 1) * sndr.product) := by
  induction n generalizing c m with
  | zero =>
      obtain rfl : c = 0 := UInt32.toNat_inj.mp hc
      obtain ⟨tr, op, htr, hstarted⟩ := goes_iteration checksStop ops loops received ih 0 m
      rw [Nat.zero_add, Nat.one_mul]
      refine ⟨tr ++ [.evaluate true], 0 - 1,
        htr.trans (.cons (e := .evaluate true) ?_ True.intro True.intro (.refl _)), ?_⟩
      · simp [step, State.reset, take_level]
      · rw [started_append, hstarted]
        exact List.append_nil _
  | succ n hn =>
      have hpos : (c == 0) = false := by
        rw [beq_eq_false_iff_ne]
        rintro rfl
        cases hc
      have hle : (1 : UInt32) ≤ c := UInt32.le_iff_toNat_le.mpr (by simp [hc])
      have hdec : (c - 1).toNat = n := by
        rw [UInt32.toNat_sub_of_le _ _ hle, hc]
        rfl
      obtain ⟨tr, op, htr, hstarted⟩ := goes_iteration checksStop ops loops received ih c m
      -- The operation inside is connected again, and the loops that are left come to an end.
      obtain ⟨tr₂, htr₂, hnone⟩ := goes_levels (O := O) mem
        (ops ++ [.repeatN checksStop sndr (c - 1)]) (sndr.connect (m + sndr.product)) sndr
        (m + sndr.product + sndr.born) (ops.length :: loops) received
      rw [List.append_assoc, List.length_append, List.length_singleton] at htr₂
      obtain ⟨tr₃, c₃, htr₃, hstarted₃⟩ := hn hdec (m + sndr.product)
      have hsum : (n + 1 + 1) * sndr.product = sndr.product + (n + 1) * sndr.product := by
        rw [Nat.succ_mul (n + 1), Nat.add_comm]
      have hnext : m + sndr.product + (n + 1) * sndr.product =
          m + (n + 1 + 1) * sndr.product := by rw [hsum, Nat.add_assoc]
      rw [hnext] at htr₃
      refine ⟨tr ++ .evaluate false :: (tr₂ ++ tr₃), c₃,
        htr.trans (.cons ?_ True.intro True.intro (htr₂.trans htr₃)), ?_⟩
      · simp [step, State.emplace, take_level, hpos]
      · rw [started_append, started_cons, started_append, hstarted, hnone, hstarted₃, hsum,
          ← List.range'_append_1]
        rfl

end Iterate

theorem completes (mem : ℕ → ℕ → V) (O : Outcomes V) (sndr : Sender) :
    Completes mem O sndr := by
  induction sndr with
  | child =>
      intro ops m loops received
      refine ⟨[.startChild m, .complete (O.args m)], .child m, ?_, rfl, rfl⟩
      have hcomplete : Goes mem O
          ⟨ops ++ [.child m], m + 1, loops, .running ops.length m, received⟩
          [.complete (O.args m)] ⟨ops ++ [.child m], m + 1, loops,
            .complete ops.length .value (O.args m), received⟩ := by
        refine Goes.cons ?_ ?_ True.intro (.refl _)
        · simpa [step] using O.within m
        · rintro k ⟨⟩
          rfl
      exact hcomplete.cons (by simp [step, Sender.connect, Sender.born]) True.intro True.intro
  | repeatN checksStop n sndr ih =>
      intro ops m loops received
      obtain ⟨tr, c, htr, hstarted⟩ := goes_iterate checksStop ops loops received ih rfl m
      refine ⟨.start :: tr, .repeatN checksStop sndr c, ?_, hstarted, rfl⟩
      rw [Sender.levels, List.append_assoc]
      refine htr.cons ?_ True.intro True.intro
      simp [step, Sender.connect, Sender.born, State.emplace, take_level]

/-! ### There is no choice -/

theorem step_over (hover : s.Over) : step mem s e = none := by
  cases hs : step mem s e with
  | none => rfl
  | some s' =>
      rcases hover with ⟨hc, hloops⟩ | hc <;> cases step_move hs <;> simp_all

def State.upcoming (mem : ℕ → ℕ → V) (O : Outcomes V) (s : State V) : Event V :=
  match s.control with
  | .start j =>
      match s.ops[j]? with
      | some (.child k) => .startChild k
      | _ => .start
  | .running _ k => .complete (O.args k)
  | .complete 0 ch args => .receive ch (args.map (Ref.read mem s.child?))
  | .complete (j + 1) .value _ =>
      match s.ops[j]? with
      | some (.repeatN _ _ pred) => .evaluate (pred == 0)
      | _ => .passthrough
  | .complete (_ + 1) _ _ => .passthrough
  | .ret =>
      match s.loops with
      | j :: _ =>
          if j + 1 < s.ops.length then .beginLoop false
          else if j + 1 = s.ops.length then .endLoop else .stale false
      | [] => .endLoop
  | .error => .endLoop

theorem eq_upcoming (hfollows : Follows O s e) (hsound : Sound s e) (hs : step mem s e = some s') :
    e = s.upcoming mem O := by
  cases step_move hs with
  | start hc hop | startChild hc hop => simp [State.upcoming, hc, hop]
  | complete hc =>
      have hargs := hfollows _ (by rw [hc]; rfl)
      simp [State.upcoming, hc, hargs]
  | stop hc hop hpred | again hc hop hpred => simp [State.upcoming, hc, hop, hpred]
  | @passthrough j ch args hc hch => cases ch <;> simp_all [State.upcoming]
  | receive hc => simp [State.upcoming, hc]
  | beginStop | staleValue => cases hsound
  | begin hc hloops hlt => simp [State.upcoming, hc, hloops, hlt]
  | endLoop hc hloops heq => simp [State.upcoming, hc, hloops, heq]
  | stale hc hloops hle =>
      have hlt : ¬ _ + 1 < s.ops.length := Nat.not_lt.mpr (Nat.le_succ_of_le hle)
      have hne : _ + 1 ≠ s.ops.length := Nat.ne_of_gt (Nat.lt_succ_of_le hle)
      simp [State.upcoming, hc, hloops, hlt, hne]

/-- Every run that meets the condition is the beginning of one that has come to its end. -/
theorem Goes.extends (h : Goes mem O s tr s') (hover : s'.Over) (h' : Goes mem O s tr' s'') :
    ∃ rest, tr = tr' ++ rest ∧ Run (step mem) s'' rest s' :=
  h.run.extends_of_eachStep
    (fun _ _ _ _ _ hC hC' hs hs' => (eq_upcoming hC.1 hC.2 hs).trans
      (eq_upcoming hC'.1 hC'.2 hs').symm)
    (fun _ => step_over hover) h.sound h'.run h'.sound

/-! ### The condition is met -/

/-- What is to be true of the operation of a sender whose children are numbered from `m` on. -/
structure Multiplied (mem : ℕ → ℕ → V) (O : Outcomes V) (sndr : Sender) (m : ℕ)
    (tr : List (Event V)) (s : State V) : Prop where
  /-- The call of `start` returns. -/
  returned : s.Returned
  /-- Each child is made by another `connect` and started once. -/
  started : started tr = List.range' m sndr.product
  /-- The receiver is completed once, with what the last child has sent. -/
  received : s.received =
    [(.value, (sentWith mem (O.args (m + sndr.product - 1))).map some)]

/-- The run in which the condition is met, up to the completion of the receiver. -/
theorem goes_init (mem : ℕ → ℕ → V) (O : Outcomes V) (sndr : Sender) (m : ℕ) :
    ∃ tr op, Goes mem O (.init sndr m) tr ⟨[op], m + sndr.product, sndr.levels 0,
      .complete 0 .value (O.args (m + sndr.product - 1)), []⟩ ∧
      started tr = List.range' m sndr.product ∧
      op.child? = if sndr.isChild then some (m + sndr.product - 1) else none := by
  obtain ⟨tr, op, htr, hstarted, hop⟩ := completes mem O sndr [] m [] []
  rw [List.append_nil] at htr
  exact ⟨tr, op, htr, hstarted, hop⟩

omit [DecidableEq V] in
/-- What the receiver reads is what the last child has sent. -/
theorem read_last {k : ℕ} {c : Option ℕ} (hc : c = some k ∨ c = none)
    (hext : c = none → ∀ r ∈ O.args k, r.isExt = true) :
    (O.args k).map (Ref.read mem c) = (sentWith mem (O.args k)).map some := by
  have hwithin := List.all_eq_true.mp (O.within k)
  rcases hc with rfl | rfl
  · exact Repeat.read_within hwithin
  · exact (Repeat.read_gone_iff hwithin (by simp)).mpr (hext rfl)

/-- The whole run. -/
theorem goes_all {sndr : Sender} {m : ℕ}
    (hext : sndr.isChild = false → ∀ r ∈ O.args (m + sndr.product - 1), r.isExt = true) :
    ∃ tr s, Goes mem O (.init sndr m) tr s ∧ Multiplied mem O sndr m tr s := by
  obtain ⟨tr, op, htr, hstarted, hop⟩ := goes_init mem O sndr m
  have hgone (hnone : op.child? = none) : ∀ r ∈ O.args (m + sndr.product - 1), r.isExt = true := by
    refine hext ?_
    by_contra hchild
    simp [hop, hchild] at hnone
  have hread : (O.args (m + sndr.product - 1)).map (Ref.read mem op.child?) =
      (sentWith mem (O.args (m + sndr.product - 1))).map some :=
    read_last (by rw [hop]; cases sndr.isChild <;> simp) hgone
  obtain ⟨tr', htr', hnone⟩ := goes_levels (O := O) mem [] op sndr (m + sndr.product) []
    [(.value, (sentWith mem (O.args (m + sndr.product - 1))).map some)]
  rw [List.append_nil] at htr'
  have hreceive : Goes mem O ⟨[op], m + sndr.product, sndr.levels 0,
      .complete 0 .value (O.args (m + sndr.product - 1)), []⟩
      (.receive .value ((sentWith mem (O.args (m + sndr.product - 1))).map some) :: tr') _ :=
    htr'.cons (by simp [step, State.child?, hread]) True.intro hgone
  refine ⟨_, _, htr.trans hreceive, ⟨rfl, rfl⟩, ?_, rfl⟩
  rw [started_append, started_cons, hstarted, hnone]
  exact List.append_nil _

/-- A run that meets the condition and has come to its end. -/
theorem multiplied_of_goes {sndr : Sender} {m : ℕ} (h : Goes mem O (.init sndr m) tr s)
    (hover : s.Over) : Multiplied mem O sndr m tr s := by
  obtain ⟨tr₁, op, h₁, -, hop⟩ := goes_init mem O sndr m
  obtain ⟨rest, rfl, hrest⟩ := h.extends hover h₁
  -- The receiver is completed next, and the condition says what with.
  have hext : sndr.isChild = false → ∀ r ∈ O.args (m + sndr.product - 1), r.isExt = true := by
    intro hchild
    cases rest with
    | nil =>
        obtain rfl := run_nil.mp hrest
        rcases hover with ⟨hc, -⟩ | hc <;> cases hc
    | cons e rest =>
        obtain ⟨s₂, hs, -⟩ := run_cons.mp hrest
        have hsound := (h.sound.of_append h₁.run).2.1.2
        have hnone : op.child? = none := by rw [hop, hchild]; rfl
        cases step_move hs with
        | receive hc =>
            cases hc
            exact hsound hnone
        | start hc | startChild hc | complete hc | stop hc | again hc | passthrough hc
        | beginStop hc | begin hc | endLoop hc | staleValue hc | stale hc => cases hc
  obtain ⟨tr₀, s₀, h₀, hmult⟩ := goes_all hext
  obtain ⟨rest', heq, hrest'⟩ := h.extends hover h₀
  obtain ⟨rest'', heq', -⟩ := h₀.extends (.inl hmult.returned) h
  obtain rfl : rest' = [] := by
    have := congrArg List.length heq
    have := congrArg List.length heq'
    simp only [List.length_append] at *
    exact List.eq_nil_of_length_eq_zero (by omega)
  obtain rfl := run_nil.mp hrest'
  rw [heq, List.append_nil]
  exact hmult

/-! ### The condition is needed -/

/-- What the receiver has got it keeps. -/
theorem mem_received_step (hs : step mem s e = some s') {x : Channel × List (Option V)}
    (hx : x ∈ s.received) : x ∈ s'.received := by
  cases step_move hs with
  | receive => exact List.mem_append_left _ hx
  | start | startChild | complete | stop | again | passthrough | beginStop | begin | endLoop
  | staleValue | stale => exact hx

theorem mem_received (h : Run (step mem) s tr s') {x : Channel × List (Option V)}
    (hx : x ∈ s.received) : x ∈ s'.received :=
  Run.induction (P := fun _ s => x ∈ s.received) hx
    (fun _ _ _ _ _ hx hs => mem_received_step hs hx) h

/-- The operation has found that stop was requested, and the receiver will get to know. -/
def Stopping (s : State V) : Prop :=
  (∃ j args, s.control = .complete j .stopped args) ∨ ∃ vals, (.stopped, vals) ∈ s.received

theorem stopping_step (h : Stopping s) (hs : step mem s e = some s') : Stopping s' := by
  rcases h with ⟨j, args, hc'⟩ | ⟨vals, hvals⟩
  · cases step_move hs with
    | passthrough hc =>
        rw [hc] at hc'
        cases hc'
        exact .inl ⟨_, _, rfl⟩
    | receive hc =>
        rw [hc] at hc'
        cases hc'
        exact .inr ⟨_, List.mem_append_right _ (List.mem_singleton.mpr rfl)⟩
    | start hc | startChild hc | complete hc | stop hc | again hc | beginStop hc | begin hc
    | endLoop hc | staleValue hc | stale hc =>
        rw [hc] at hc'
        cases hc'
  · exact .inr ⟨vals, mem_received_step hs hvals⟩

theorem stopping_of_run (h : Stopping s) (hr : Run (step mem) s tr s') : Stopping s' :=
  Run.induction (P := fun _ s => Stopping s) h (fun _ _ _ _ _ ih hs => stopping_step ih hs) hr

/-- An operation that has done what is to be done has met the condition. -/
theorem sound_of_multiplied {sndr : Sender} {m : ℕ} (h : Run (step mem) (.init sndr m) tr s)
    (hmult : Multiplied mem O sndr m tr s) : EachStep (step mem) Sound (.init sndr m) tr := by
  rw [eachStep_iff]
  rintro tr₁ e tr₂ s₁ rfl h₁
  obtain ⟨s₁', h₁', hrest⟩ := run_append.mp h
  obtain rfl := Option.some.inj (h₁.symm.trans h₁')
  obtain ⟨s₂, hs, htail⟩ := run_cons.mp hrest
  obtain ⟨hreturned, hloops⟩ := hmult.returned
  cases step_move hs with
  | @receive ch args hc =>
      intro hnone r hr
      -- The receiver has been completed with this only, and what has been destroyed is not read.
      have hmem := mem_received htail (List.mem_append_right s₁.received
        (List.mem_singleton.mpr rfl))
      rw [hmult.received, List.mem_singleton, Prod.mk.injEq, hnone] at hmem
      rw [hc] at hr
      cases r with
      | ext v => rfl
      | own k i =>
          have hread : none ∈ args.map (Ref.read mem none) := List.mem_map.mpr ⟨_, hr, rfl⟩
          rw [hmem.2] at hread
          simp at hread
  | beginStop =>
      rcases stopping_of_run (.inl ⟨_, _, rfl⟩) htail with ⟨j, args, hc⟩ | ⟨vals, hvals⟩
      · rw [hreturned] at hc
        cases hc
      · rw [hmult.received] at hvals
        simp at hvals
  | staleValue =>
      cases tr₂ with
      | nil =>
          obtain rfl := run_nil.mp htail
          cases hreturned
      | cons e' tr₂ =>
          obtain ⟨s₃, hs', -⟩ := run_cons.mp htail
          rw [step_over (.inr rfl)] at hs'
          cases hs'
  | start | startChild | complete | stop | again | passthrough | endLoop => exact True.intro
  | begin | stale => rfl

/-! ### Loops whose operation is gone -/

def Sender.depth : Sender → ℕ
  | .child => 0
  | .repeatN _ _ sndr => sndr.depth + 1

/-- The operation at each level is that of a sender which is not too deep. -/
def Fits (depth : ℕ) (ops : List Op) : Prop :=
  ∀ j checksStop sndr pred, ops[j]? = some (.repeatN checksStop sndr pred) →
    j + sndr.depth < depth

section Fits

variable {depth j : ℕ} {ops : List Op} {checksStop : Bool} {sndr : Sender} {pred : UInt32}

omit [DecidableEq V] in
theorem Fits.take (h : Fits depth ops) (n : ℕ) : Fits depth (ops.take n) := by
  intro i checksStop' sndr' pred' hi
  rw [List.getElem?_take] at hi
  split at hi
  · exact h i _ _ _ hi
  · cases hi

omit [DecidableEq V] in
/-- The counter of an operation does not matter. -/
theorem Fits.set (h : Fits depth ops) (hop : ops[j]? = some (.repeatN checksStop sndr pred))
    (pred' : UInt32) : Fits depth (ops.set j (.repeatN checksStop sndr pred')) := by
  intro i checksStop' sndr' pred'' hi
  rcases eq_or_ne i j with rfl | hne
  · obtain ⟨hlt, -⟩ := List.getElem?_eq_some_iff.mp hop
    rw [List.getElem?_set_self hlt] at hi
    cases hi
    exact h i _ _ _ hop
  · rw [List.getElem?_set_ne hne.symm] at hi
    exact h i _ _ _ hi

omit [DecidableEq V] in
theorem Fits.connect (h : Fits depth ops) (hdepth : ops.length + sndr.depth ≤ depth) (m : ℕ) :
    Fits depth (ops ++ [sndr.connect m]) := by
  intro i checksStop' sndr' pred' hi
  rcases Nat.lt_or_ge i ops.length with hlt | hge
  · rw [List.getElem?_append_left hlt] at hi
    exact h i _ _ _ hi
  · rw [List.getElem?_append_right hge] at hi
    obtain ⟨hzero, hi⟩ := List.getElem?_eq_some_iff.mp hi
    have hi' : i = ops.length := by
      simp only [List.length_singleton] at hzero
      omega
    subst hi'
    cases sndr with
    | child => simp [Sender.connect] at hi
    | repeatN checksStop n sndr =>
        simp only [Nat.sub_self, List.getElem_cons_zero, Sender.connect, Op.repeatN.injEq] at hi
        obtain ⟨-, rfl, -⟩ := hi
        simp only [Sender.depth] at hdepth
        omega

end Fits

/-- The outermost operation is there, and there are no more loops than the sender has. -/
structure Bounded (depth : ℕ) (s : State V) : Prop where
  outermost : s.ops ≠ []
  fits : Fits depth s.ops
  loops : ∀ j ∈ s.loops, j < depth

theorem Bounded.step {depth : ℕ} (h : Bounded depth s) (hs : step mem s e = some s') :
    Bounded depth s' := by
  have hpop {j : ℕ} {js : List ℕ} (hloops : s.loops = j :: js) : ∀ i ∈ js, i < depth :=
    fun i hi => h.loops i (by rw [hloops]; exact List.mem_cons_of_mem j hi)
  have htake (j : ℕ) : s.ops.take (j + 1) ≠ [] := by
    simpa using h.outermost
  cases step_move hs with
  | @start j checksStop sndr pred hc hop =>
      have hdepth := h.fits j _ _ _ hop
      obtain ⟨hlt, -⟩ := List.getElem?_eq_some_iff.mp hop
      refine ⟨by simp [State.emplace], (h.fits.take _).connect ?_ _, ?_⟩
      · rw [List.length_take]
        omega
      · exact List.forall_mem_cons.mpr ⟨by omega, h.loops⟩
  | @again j args checksStop sndr pred hc hop hpred =>
      have hdepth := h.fits j _ _ _ hop
      obtain ⟨hlt, -⟩ := List.getElem?_eq_some_iff.mp hop
      refine ⟨by simp, ((h.fits.set hop _).take _).connect ?_ _, h.loops⟩
      rw [List.length_take]
      omega
  | stop hc hop => exact ⟨by simpa using h.outermost, (h.fits.set hop _).take _, h.loops⟩
  | passthrough | beginStop => exact ⟨htake _, h.fits.take _, h.loops⟩
  | startChild | complete | receive | begin | staleValue => exact ⟨h.outermost, h.fits, h.loops⟩
  | endLoop _ hloops | stale _ hloops => exact ⟨h.outermost, h.fits, hpop hloops⟩

theorem bounded_of_run {sndr : Sender} {m : ℕ} (h : Run (step mem) (.init sndr m) tr s) :
    Bounded sndr.depth s := by
  refine Run.induction (P := fun _ s => Bounded sndr.depth s) ⟨by simp [State.init], ?_,
    by simp [State.init]⟩ (fun _ _ _ _ _ ih hs => ih.step hs) h
  have hnil : Fits sndr.depth [] := fun j _ _ _ hj => by simp at hj
  exact hnil.connect (by simp) m

/-- With one level only, no loop is left without its operation. -/
theorem not_stale {sndr : Sender} {m : ℕ} (hdepth : sndr.depth ≤ 1)
    (h : Run (step mem) (.init sndr m) tr s) (b : Bool) : .stale b ∉ tr := by
  intro hmem
  obtain ⟨tr₁, tr₂, rfl⟩ := List.append_of_mem hmem
  obtain ⟨s₁, h₁, hrest⟩ := run_append.mp h
  obtain ⟨s₂, hs, -⟩ := run_cons.mp hrest
  have hbounded := bounded_of_run h₁
  have hpos : 0 < s₁.ops.length := List.length_pos_iff.mpr hbounded.outermost
  cases step_move hs with
  | staleValue _ hloops hle | stale _ hloops hle =>
      have := hbounded.loops _ (by rw [hloops]; exact List.mem_cons_self)
      omega

/-! ### The result -/

/-- `child | repeat_n(n_1) | ... | repeat_n(n_k)`, with whether each level looks for a stop
request. -/
def nest (counts : List (Bool × UInt32)) : Sender :=
  counts.foldl (fun sndr c => .repeatN c.1 c.2 sndr) .child

theorem nest_concat (counts : List (Bool × UInt32)) (c : Bool × UInt32) :
    nest (counts ++ [c]) = .repeatN c.1 c.2 (nest counts) := by
  simp [nest, List.foldl_append]

theorem product_nest (counts : List (Bool × UInt32)) :
    (nest counts).product = (counts.map fun c => c.2.toNat + 1).prod := by
  induction counts using List.reverseRecOn with
  | nil => rfl
  | append_singleton counts c ih =>
      rw [nest_concat, List.map_append, List.prod_append, ← ih]
      simp [Sender.product, Nat.mul_comm]

theorem depth_nest (counts : List (Bool × UInt32)) : (nest counts).depth = counts.length := by
  induction counts using List.reverseRecOn with
  | nil => rfl
  | append_singleton counts c ih => simp [nest_concat, Sender.depth, ih]

theorem ne_nil_of_isChild {counts : List (Bool × UInt32)} (h : (nest counts).isChild = false) :
    counts ≠ [] := by
  rintro rfl
  cases h

/-- What holds of the operation of nested `repeat_n` whose children are numbered from `m` on and
send `O`. -/
structure Nested (mem : ℕ → ℕ → V) (O : Outcomes V) (counts : List (Bool × UInt32)) (m : ℕ) :
    Prop where
  product : (nest counts).product = (counts.map fun c => c.2.toNat + 1).prod
  /-- When nothing goes on any more, what was to be done has been done if and only if each step
  has met the condition. -/
  exact_iff : ∀ tr s, Run (step mem) (.init (nest counts) m) tr s →
    EachStep (step mem) (Follows O) (.init (nest counts) m) tr → s.Over →
      (Multiplied mem O (nest counts) m tr s ↔
        EachStep (step mem) Sound (.init (nest counts) m) tr)
  /-- It does come to its end: what meets the condition is the beginning of one run. -/
  ends : (counts ≠ [] → ∀ r ∈ O.args (m + (nest counts).product - 1), r.isExt = true) →
    ∃ tr s, Goes mem O (.init (nest counts) m) tr s ∧ s.Over ∧
      ∀ tr' s', Goes mem O (.init (nest counts) m) tr' s' → tr' <+: tr
  /-- Only with two levels or more a loop comes back to a place where nothing is. -/
  present : counts.length ≤ 1 → ∀ tr s b, Run (step mem) (.init (nest counts) m) tr s →
    .stale b ∉ tr

/-- Nested `repeat_n` starts the child as often as the product of the counts plus 1 says and
completes the receiver once, with what the last child has sent, exactly when the condition is
met: no stop is requested, what the last child sends is not stored in it, and the loops whose
operation has been destroyed find nothing there. -/
theorem nested_multiplies (mem : ℕ → ℕ → V) (O : Outcomes V) (counts : List (Bool × UInt32))
    (m : ℕ) : Nested mem O counts m where
  product := product_nest counts
  exact_iff := fun tr s h hfollows hover => by
    refine ⟨sound_of_multiplied h, fun hsound => multiplied_of_goes ⟨h, ?_⟩ hover⟩
    rw [eachStep_iff] at hfollows hsound ⊢
    exact fun tr₁ e tr₂ s₁ heq h₁ =>
      ⟨hfollows tr₁ e tr₂ s₁ heq h₁, hsound tr₁ e tr₂ s₁ heq h₁⟩
  ends := fun hext => by
    obtain ⟨tr, s, h, hmult⟩ : ∃ tr s, Goes mem O (.init (nest counts) m) tr s ∧
        Multiplied mem O (nest counts) m tr s :=
      goes_all fun hchild => hext (ne_nil_of_isChild hchild)
    refine ⟨tr, s, h, .inl hmult.returned, fun tr' s' h' => ?_⟩
    obtain ⟨rest, rfl, -⟩ := h.extends (.inl hmult.returned) h'
    exact List.prefix_append _ _
  present := fun hlength tr s b h => not_stale (by rwa [depth_nest]) h b

/-- Children that store what they send, as `just` does. -/
def ownOutcomes : Outcomes ℕ where
  args := fun k => [.own k 0]
  within := fun k => by simp [Ref.within]

def ownTrace : List (Event ℕ) :=
  [.start, .beginLoop false, .startChild 0, .complete [.own 0 0], .evaluate true,
    .receive .value [none], .endLoop]

/-- A `repeat_n` whose child stores what it sends. -/
theorem nested_reads_destroyed : ¬ ∀ (O : Outcomes ℕ) (counts : List (Bool × UInt32))
    (tr : List (Event ℕ)) (s : State ℕ),
      Run (step fun _ _ => 42) (.init (nest counts) 0) tr s →
      EachStep (step fun _ _ => 42) (Follows O) (.init (nest counts) 0) tr → s.Over →
        Multiplied (fun _ _ => 42) O (nest counts) 0 tr s := by
  intro h
  obtain ⟨s, hs⟩ : ∃ s, Run (step fun _ _ => 42) (.init (nest [(false, 0)]) 0) ownTrace s :=
    exists_run_iff.mpr rfl
  have hview : (exec (step fun _ _ => 42) (.init (nest [(false, 0)]) 0) ownTrace).map
      (fun s => (s.received, s.control, s.loops)) = some ([(.value, [none])], .ret, []) := rfl
  rw [Run] at hs
  rw [hs, Option.map_some, Option.some.injEq, Prod.mk.injEq, Prod.mk.injEq] at hview
  obtain ⟨hreceived, hc, hloops⟩ := hview
  have hmult := h ownOutcomes [(false, 0)] ownTrace s hs (by decide) (.inl ⟨hc, hloops⟩)
  rw [hmult.received] at hreceived
  cases hreceived

end BaremetalSenders.NestedRepeat
