import BaremetalSenders.Adaptors.Split
import BaremetalSenders.Foundation.ForwardList

/-!
Which operations of a split sender are completed.

The operations that have linked themselves form the list that `linked_ops`
heads. When the underlying operation completes, `notify` walks that list from
the head it finds. What is linked at that time is completed, once; an operation
that links itself later is put in front of the head the walk began with and is
never reached. `start` looks at the stored result before it links, and nothing
keeps a completion from coming in between.
-/

namespace BaremetalSenders.Split

variable {V E : Type*}

/-- A call site that is in use for the first time or has been used before: the
stop source and the environment may have been left in any state. -/
def State.fresh (stop : Bool) (env : Option E) : State V E :=
  ⟨none, none, .absent, stop, env, fun _ => .unborn⟩

/-- The completion has called `linked_ops->notify()`. -/
def Single.heard : Single V → Bool
  | .resetting _ | .delivering _ | .following _ | .notified => true
  | _ => false

/-- The side condition of a step: no operation links itself after the completion
of the underlying operation has read `linked_ops`. -/
def LinksInTime (s : State V E) : Event V E → Prop
  | .link _ _ => s.single.heard = false
  | _ => True

instance LinksInTime.decidable (s : State V E) : (e : Event V E) → Decidable (LinksInTime s e)
  | .link _ _ => inferInstanceAs (Decidable (s.single.heard = false))
  | .getEnv _ | .connect _ | .requestStop _ | .check _ _ | .unregister _ | .deliver _ _
  | .emplace _ | .test _ _ | .setStopped _ | .startSingle _ | .ret _ | .complete _ | .store
  | .notify | .resetCb _ | .notified _ _ | .next _ => inferInstanceAs (Decidable True)

/-- The operation has linked itself, or its `start` is about to return. -/
def Pc.late : Pc → Bool
  | .linked _ | .returning | .returned => true
  | _ => false

/-- How often the receiver has been completed, of an operation not in the list. -/
def Pc.completions : Pc → ℕ
  | .returning | .returned => 1
  | _ => 0

/-- How the three parts of the list fit the place the completion has reached. -/
def Walk (g : Single V) (newer done rest : List ℕ) : Prop :=
  match g with
  | .resetting o | .delivering o => rest.head? = some o
  | .following o => done.getLast? = some o
  | .notified => rest = []
  | _ => newer = [] ∧ done = []

/-- The list is `newer ++ done ++ rest`: the operations linked after the walk
began, those it has completed, and those it has not reached yet. -/
structure Layout (s : State V E) (newer done rest : List ℕ) : Prop where
  linked : Linked (fun o => (s.ops o).nextOps) s.linkedOps (newer ++ done ++ rest)
  nodup : (newer ++ done ++ rest).Nodup
  late : ∀ o ∈ newer ++ done ++ rest, (s.ops o).pc.late = true
  missed : ∀ o ∈ newer, (s.ops o).received = []
  reached : ∀ o ∈ done, (s.ops o).received.length = 1
  waiting : ∀ o ∈ rest, (s.ops o).received = []
  apart : ∀ o ∉ newer ++ done ++ rest, (∀ b, (s.ops o).pc ≠ .linked b) ∧
    (s.ops o).received.length = (s.ops o).pc.completions
  first : ∀ o, (s.ops o).pc = .linked true →
    s.single = .connected ∧ (newer ++ done ++ rest).getLast? = some o
  absent : s.single = .absent → ∀ o, (s.ops o).pc = .unborn
  empty : newer ++ done ++ rest = [] → s.single = .absent ∨ s.single = .connected
  walk : Walk s.single newer done rest

theorem layout_fresh (stop : Bool) (env : Option E) :
    Layout (State.fresh stop env : State V E) [] [] [] := by
  constructor <;> simp [State.fresh, Op.unborn, Linked, Pc.completions, Walk]

theorem Layout.present {s : State V E} {n d r : List ℕ} (h : Layout s n d r) (o : ℕ)
    (ho : (s.ops o).pc ≠ .unborn) : s.single ≠ .absent :=
  fun habs => ho (h.absent habs o)

/-- A step that only moves one operation, and does not complete it if it is in
the list. -/
theorem Layout.move {s s' : State V E} {n d r : List ℕ} (h : Layout s n d r) (o : ℕ)
    (hhead : s'.linkedOps = s.linkedOps) (hsingle : s'.single = s.single)
    (hops : ∀ o', o' ≠ o → s'.ops o' = s.ops o')
    (hnext : (s'.ops o).nextOps = (s.ops o).nextOps)
    (hborn : s.single ≠ .absent)
    (hfirst : (s'.ops o).pc = .linked true → (s.ops o).pc = .linked true)
    (hin : (s.ops o).pc.late = true → (s'.ops o).pc.late = true ∧
      (s'.ops o).received = (s.ops o).received)
    (hout : (∀ b, (s.ops o).pc ≠ .linked b) →
      (s.ops o).received.length = (s.ops o).pc.completions →
      (∀ b, (s'.ops o).pc ≠ .linked b) ∧ (s'.ops o).received.length = (s'.ops o).pc.completions) :
    Layout s' n d r := by
  have hrec : ∀ o' ∈ n ++ d ++ r, (s'.ops o').received = (s.ops o').received := by
    intro o' ho'
    by_cases heq : o' = o
    · subst heq
      exact (hin (h.late o' ho')).2
    · rw [hops o' heq]
  constructor
  · rw [hhead]
    refine h.linked.congr fun o' _ => ?_
    by_cases heq : o' = o
    · subst heq
      exact hnext
    · simp only [hops o' heq]
  · exact h.nodup
  · intro o' ho'
    by_cases heq : o' = o
    · subst heq
      exact (hin (h.late o' ho')).1
    · rw [hops o' heq]
      exact h.late o' ho'
  · intro o' ho'
    rw [hrec o' (by simp [ho'])]
    exact h.missed o' ho'
  · intro o' ho'
    rw [hrec o' (by simp [ho'])]
    exact h.reached o' ho'
  · intro o' ho'
    rw [hrec o' (by simp [ho'])]
    exact h.waiting o' ho'
  · intro o' ho'
    by_cases heq : o' = o
    · subst heq
      exact hout (h.apart o' ho').1 (h.apart o' ho').2
    · rw [hops o' heq]
      exact h.apart o' ho'
  · intro o' ho'
    rw [hsingle]
    by_cases heq : o' = o
    · subst heq
      exact h.first o' (hfirst ho')
    · exact h.first o' (hops o' heq ▸ ho')
  · intro habs
    exact absurd (hsingle ▸ habs) hborn
  · rw [hsingle]
    exact h.empty
  · rw [hsingle]
    exact h.walk

/-- A step that only moves the underlying operation along. -/
theorem Layout.setSingle {s : State V E} {n d r : List ℕ} (h : Layout s n d r) (g : Single V)
    (hfirst : g = .connected ∨ ∀ o, (s.ops o).pc ≠ .linked true) (habs : g ≠ .absent)
    (hempty : g = .connected ∨ n ++ d ++ r ≠ [])
    (hwalk : Walk g n d r) : Layout { s with single := g } n d r := by
  refine { h with first := ?_, absent := fun hg => absurd hg habs, empty := ?_, walk := hwalk }
  · intro o ho
    rcases hfirst with hg | hnone
    · exact ⟨hg, (h.first o ho).2⟩
    · exact absurd ho (hnone o)
  · intro hnil
    rcases hempty with hg | hne
    · exact .inr hg
    · exact absurd hnil hne

/-- An operation that is not in the list puts itself in front. -/
theorem Layout.link {s : State V E} {n d r n' r' : List ℕ} (h : Layout s n d r) {o : ℕ} {b : Bool}
    (hpc : (s.ops o).pc = .unlinked) (hb : b = s.linkedOps.isNone)
    (hcons : n' ++ d ++ r' = o :: (n ++ d ++ r)) (hn : n' = o :: n ∧ r' = r ∨
      n' = n ∧ r' = o :: r)
    (hwalk : Walk s.single n' d r') :
    Layout { s.setOp o { s.ops o with pc := .linked b, nextOps := s.linkedOps } with
      linkedOps := some o } n' d r' := by
  have hnew : o ∉ n ++ d ++ r := by
    intro ho
    have := h.late o ho
    rw [hpc] at this
    cases this
  have hreceived : (s.ops o).received = [] := by
    have := (h.apart o hnew).2
    rw [hpc] at this
    exact List.length_eq_zero_iff.mp this
  have hother : ∀ o', o' ≠ o → Function.update s.ops o
      { s.ops o with pc := .linked b, nextOps := s.linkedOps } o' = s.ops o' :=
    fun o' ho' => Function.update_of_ne ho' _ _
  have hsame : ∀ o' ∈ n ++ d ++ r, Function.update s.ops o
      { s.ops o with pc := .linked b, nextOps := s.linkedOps } o' = s.ops o' :=
    fun o' ho' => hother o' fun e => hnew (e ▸ ho')
  constructor
  · rw [hcons]
    refine h.linked.push hnew (by simp [State.setOp]) fun o' ho' => ?_
    simp [State.setOp, ho']
  · rw [hcons]
    exact List.nodup_cons.mpr ⟨hnew, h.nodup⟩
  · intro o' ho'
    rw [hcons, List.mem_cons] at ho'
    rcases ho' with rfl | ho'
    · simp [State.setOp, Pc.late]
    · simp only [State.setOp, hsame o' ho']
      exact h.late o' ho'
  · intro o' ho'
    by_cases heq : o' = o
    · subst heq
      simpa [State.setOp] using hreceived
    · simp only [State.setOp, hother o' heq]
      refine h.missed o' ?_
      rcases hn with ⟨rfl, -⟩ | ⟨rfl, -⟩
      · exact List.mem_of_ne_of_mem heq ho'
      · exact ho'
  · intro o' ho'
    simp only [State.setOp, hsame o' (by simp [ho'])]
    exact h.reached o' ho'
  · intro o' ho'
    by_cases heq : o' = o
    · subst heq
      simpa [State.setOp] using hreceived
    · simp only [State.setOp, hother o' heq]
      refine h.waiting o' ?_
      rcases hn with ⟨-, rfl⟩ | ⟨-, rfl⟩
      · exact ho'
      · exact List.mem_of_ne_of_mem heq ho'
  · intro o' ho'
    rw [hcons, List.mem_cons, not_or] at ho'
    simp only [State.setOp, hother o' ho'.1]
    exact h.apart o' ho'.2
  · intro o' ho'
    rw [hcons]
    by_cases heq : o' = o
    · subst heq
      obtain rfl : b = true := by simpa [State.setOp] using ho'
      have hnone : s.linkedOps = none := Option.isNone_iff_eq_none.mp hb.symm
      have hnil : n ++ d ++ r = [] := by
        have := h.linked.head_eq
        rw [hnone] at this
        exact List.head?_eq_none_iff.mp this.symm
      rw [hnil]
      refine ⟨?_, rfl⟩
      rcases h.empty hnil with habs | hconn
      · have := h.absent habs o'
        rw [hpc] at this
        cases this
      · exact hconn
    · simp only [State.setOp, hother o' heq] at ho'
      obtain ⟨hconn, hlast⟩ := h.first o' ho'
      refine ⟨hconn, ?_⟩
      rw [List.getLast?_cons, hlast]
      rfl
  · intro habs
    have := h.absent habs o
    rw [hpc] at this
    cases this
  · rw [hcons]
    intro hnil
    cases hnil
  · exact hwalk

/-- The walk completes the first operation it has not reached. -/
theorem Layout.notified {s : State V E} {n d r : List ℕ} {o : ℕ} (h : Layout s n d (o :: r))
    (hsingle : s.single = .delivering o) (v : Option (Completion V)) (c : Completion V) :
    Layout { s.setOp o { s.ops o with received := (s.ops o).received ++ [c] } with
      single := .following o, values := v } n (d ++ [o]) r := by
  have hassoc : n ++ (d ++ [o]) ++ r = n ++ d ++ o :: r := by simp
  have hreceived : (s.ops o).received = [] := h.waiting o (by simp)
  have hnd := h.nodup
  rw [List.nodup_append, List.nodup_append, List.nodup_cons] at hnd
  have hn : ∀ o' ∈ n, o' ≠ o := fun o' ho' => hnd.2.2 o' (by simp [ho']) o (by simp)
  have hd : ∀ o' ∈ d, o' ≠ o := fun o' ho' => hnd.2.2 o' (by simp [ho']) o (by simp)
  have hr : ∀ o' ∈ r, o' ≠ o := fun o' ho' e => hnd.2.1.1 (e ▸ ho')
  have hpc : ∀ o', (Function.update s.ops o
      { s.ops o with received := (s.ops o).received ++ [c] } o').pc = (s.ops o').pc := by
    intro o'
    by_cases heq : o' = o
    · subst heq
      simp
    · rw [Function.update_of_ne heq]
  constructor
  · rw [hassoc]
    refine h.linked.congr fun o' _ => ?_
    by_cases heq : o' = o
    · subst heq
      simp [State.setOp]
    · simp [State.setOp, heq]
  · rw [hassoc]
    exact h.nodup
  · rw [hassoc]
    simpa only [State.setOp, hpc] using h.late
  · intro o' ho'
    simp only [State.setOp, Function.update_of_ne (hn o' ho')]
    exact h.missed o' ho'
  · intro o' ho'
    by_cases heq : o' = o
    · subst heq
      simp [State.setOp, hreceived]
    · simp only [State.setOp, Function.update_of_ne heq]
      exact h.reached o' (by simpa [heq] using ho')
  · intro o' ho'
    simp only [State.setOp, Function.update_of_ne (hr o' ho')]
    exact h.waiting o' (List.mem_cons_of_mem o ho')
  · intro o' ho'
    rw [hassoc] at ho'
    have heq : o' ≠ o := by
      rintro rfl
      simp at ho'
    simp only [State.setOp, Function.update_of_ne heq]
    exact h.apart o' ho'
  · intro o' ho'
    simp only [State.setOp, hpc] at ho'
    have := (h.first o' ho').1
    rw [hsingle] at this
    cases this
  · intro habs
    cases habs
  · simp
  · simp [Walk]

/-- An operation that is not in the list moves on, and is not linked by that. -/
theorem Layout.setOp {s : State V E} {n d r : List ℕ} (h : Layout s n d r) (o : ℕ) {op : Op V}
    (hborn : (s.ops o).pc ≠ .unborn) (hlate : (s.ops o).pc.late = false)
    (hnext : op.nextOps = (s.ops o).nextOps) (hlinked : ∀ b, op.pc ≠ .linked b)
    (hcount : (s.ops o).received.length = (s.ops o).pc.completions →
      op.received.length = op.pc.completions) : Layout (s.setOp o op) n d r := by
  refine h.move o rfl rfl (fun _ => ops_setOp_of_ne s _) ?_ (h.present o hborn) ?_ ?_ ?_
  · rw [ops_setOp]
    exact hnext
  · rw [ops_setOp]
    exact fun hpc => absurd hpc (hlinked true)
  · exact fun hin => by simp [hlate] at hin
  · rw [ops_setOp]
    exact fun _ hlength => ⟨hlinked, hcount hlength⟩

/-- The operation of the sender has been started. -/
theorem Layout.running {s : State V E} {n d r : List ℕ} (h : Layout s n d r)
    (habs : s.single ≠ .absent) (hconn : s.single ≠ .connected) :
    n ++ d ++ r ≠ [] ∧ ∀ o, (s.ops o).pc ≠ .linked true := by
  refine ⟨fun hnil => ?_, fun o hpc => hconn (h.first o hpc).1⟩
  rcases h.empty hnil with hg | hg
  · exact habs hg
  · exact hconn hg

theorem Layout.isSome_linkedOps {s : State V E} {n d r : List ℕ} (h : Layout s n d r)
    (habs : s.single ≠ .absent) (hconn : s.single ≠ .connected) : s.linkedOps.isSome = true := by
  rw [h.linked.head_eq]
  cases hl : n ++ d ++ r with
  | nil => exact absurd hl (h.running habs hconn).1
  | cons o l => rfl

/-- The underlying operation goes on. -/
theorem Layout.goOn {s : State V E} {n d r : List ℕ} (h : Layout s n d r) (g : Single V)
    (habs : s.single ≠ .absent) (hconn : s.single ≠ .connected) (hg : g ≠ .absent)
    (hwalk : Walk g n d r) : Layout { s with single := g } n d r := by
  obtain ⟨hne, hfirst⟩ := h.running habs hconn
  exact h.setSingle g (.inr hfirst) hg (.inr hne) hwalk

theorem Layout.connect {s : State V E} {n d r : List ℕ} (h : Layout s n d r) {o : ℕ}
    (hpc : (s.ops o).pc = .unborn) :
    Layout { s.setOp o { s.ops o with pc := .connected } with single := s.single.ensure }
      n d r := by
  have hensure : Layout { s with single := s.single.ensure } n d r := by
    by_cases habs : s.single = .absent
    · rw [habs]
      have hwalk := h.walk
      rw [habs] at hwalk
      exact h.setSingle .connected (.inl rfl) (by simp) (.inl rfl) hwalk
    · have hsame : s.single.ensure = s.single := by
        cases hg : s.single <;> simp_all [Single.ensure]
      rw [hsame]
      exact h
  exact hensure.move o rfl rfl (fun _ => ops_setOp_of_ne s _) (by simp)
    (by cases s.single <;> simp [Single.ensure]) (by simp) (by simp [hpc, Pc.late])
    (by simp [hpc, Pc.completions])

/-- Where the walk has not begun an operation that links itself is one of those the walk will
reach. Otherwise it is in front of the head that the walk began with. -/
theorem Layout.link_heard {s : State V E} {n d r : List ℕ} (h : Layout s n d r) {o : ℕ}
    (hpc : (s.ops o).pc = .unlinked) :
    ∃ n' r', Layout { s.setOp o { s.ops o with
        pc := .linked s.linkedOps.isNone, nextOps := s.linkedOps } with linkedOps := some o }
          n' d r' ∧ (n' = [] ↔ n = [] ∧ s.single.heard = false) := by
  have hwalk := h.walk
  by_cases hheard : s.single.heard = true
  · refine ⟨o :: n, r, h.link hpc rfl rfl (.inl ⟨rfl, rfl⟩) ?_, by simp [hheard]⟩
    cases hg : s.single <;> simp_all [Walk, Single.heard]
  · have hnil : n = [] ∧ d = [] := by
      cases hg : s.single <;> simp_all [Walk, Single.heard]
    obtain ⟨rfl, rfl⟩ := hnil
    refine ⟨[], o :: r, h.link hpc rfl rfl (.inr ⟨rfl, rfl⟩) ?_, by simp [hheard]⟩
    cases hg : s.single <;> simp_all [Walk, Single.heard]

theorem Layout.startSingle {s : State V E} {n d r : List ℕ} (h : Layout s n d r) {o : ℕ}
    (hpc : (s.ops o).pc = .linked true) :
    Layout { s.setOp o { s.ops o with pc := .returning } with single := .running } n d r := by
  obtain ⟨hconn, hlast⟩ := h.first o hpc
  have hmove : Layout (s.setOp o { s.ops o with pc := .returning }) n d r := by
    refine h.move o rfl rfl (fun _ => ops_setOp_of_ne s _) (by simp)
      (h.present o (by simp [hpc])) (by simp) (by simp [Pc.late]) (fun hne => ?_)
    exact absurd hpc (hne true)
  refine hmove.setSingle .running (.inr fun o' ho' => ?_) (by simp) (.inr ?_) ?_
  · have := (hmove.first o' ho').2
    rw [hlast] at this
    obtain rfl := Option.some.inj this
    simp at ho'
  · intro hnil
    rw [hnil] at hlast
    cases hlast
  · have hwalk := h.walk
    rw [hconn] at hwalk
    exact hwalk

theorem Layout.complete {s : State V E} {n d r : List ℕ} (h : Layout s n d r) (c : Completion V)
    (hg : s.single = .running) :
    Layout { s with single := if s.linkedOps.isSome then .storing c else .notified } n d r := by
  rw [if_pos (h.isSome_linkedOps (by simp [hg]) (by simp [hg]))]
  have hwalk := h.walk
  rw [hg] at hwalk
  exact h.goOn (.storing c) (by simp [hg]) (by simp [hg]) (by simp) hwalk

theorem Layout.store {s : State V E} {n d r : List ℕ} (h : Layout s n d r) {c : Completion V}
    (hg : s.single = .storing c) :
    Layout { s with values := some c, single := .notifying } n d r := by
  have hwalk := h.walk
  rw [hg] at hwalk
  exact { h.goOn .notifying (by simp [hg]) (by simp [hg]) (by simp) hwalk with }

theorem Layout.notify {s : State V E} {n d r : List ℕ} (h : Layout s n d r) {o : ℕ}
    (hg : s.single = .notifying) (ho : s.linkedOps = some o) :
    Layout { s with single := .resetting o } n d r := by
  refine h.goOn (.resetting o) (by simp [hg]) (by simp [hg]) (by simp) ?_
  have hwalk := h.walk
  rw [hg] at hwalk
  obtain ⟨rfl, rfl⟩ := hwalk
  exact h.linked.head_eq.symm.trans ho

theorem Layout.resetCb {s : State V E} {n d r : List ℕ} (h : Layout s n d r) {o : ℕ}
    (hg : s.single = .resetting o) :
    Layout { s.setOp o { s.ops o with stopCb := false } with single := .delivering o } n d r := by
  have hwalk := h.walk
  rw [hg] at hwalk
  have hmove : Layout (s.setOp o { s.ops o with stopCb := false }) n d r :=
    h.move o rfl rfl (fun _ => ops_setOp_of_ne s _) (by simp) (by simp [hg]) (by simp)
      (by simp) (by simpa using fun h₁ h₂ h₃ => ⟨⟨h₁, h₂⟩, h₃⟩)
  exact hmove.goOn (.delivering o) (by simp [State.setOp, hg]) (by simp [State.setOp, hg])
    (by simp) hwalk

theorem Layout.next {s : State V E} {n d r : List ℕ} (h : Layout s n d r) {o : ℕ}
    (hg : s.single = .following o) :
    Layout { s with single := match (s.ops o).nextOps with
      | some o' => .resetting o'
      | none => .notified } n d r := by
  have hwalk := h.walk
  rw [hg] at hwalk
  obtain ⟨d', rfl⟩ := List.getLast?_eq_some_iff.mp hwalk
  have hnext : (s.ops o).nextOps = r.head? := by
    have hl := h.linked
    rw [show n ++ (d' ++ [o]) ++ r = (n ++ d') ++ o :: r by simp] at hl
    exact hl.next_eq
  have habs : s.single ≠ .absent := by simp [hg]
  have hconn : s.single ≠ .connected := by simp [hg]
  cases hr : (s.ops o).nextOps with
  | none =>
      exact h.goOn .notified habs hconn (by simp) (List.head?_eq_none_iff.mp (hnext.symm.trans hr))
  | some o' => exact h.goOn (.resetting o') habs hconn (by simp) (hnext.symm.trans hr)

variable {recv : ℕ → Receiver V}

variable [DecidableEq V] [DecidableEq E]

/-- What one statement does to the list. Only linking after the walk has begun
makes an operation the walk misses. -/
theorem layout_step {s s' : State V E} {e : Event V E} {n d r : List ℕ} (h : Layout s n d r)
    (hs : step recv s e = some s') :
    ∃ n' d' r', Layout s' n' d' r' ∧ (n' = [] ↔ n = [] ∧ LinksInTime s e) := by
  cases step_move hs with
  | getEnv => exact ⟨n, d, r, h, by simp [LinksInTime]⟩
  | connect hpc => exact ⟨n, d, r, h.connect hpc, by simp [LinksInTime]⟩
  | link hpc =>
      obtain ⟨n', r', hlayout, hnil⟩ := h.link_heard hpc
      exact ⟨n', d, r', hlayout, hnil⟩
  | startSingle hpc => exact ⟨n, d, r, h.startSingle hpc, by simp [LinksInTime]⟩
  | complete hg => exact ⟨n, d, r, h.complete _ hg, by simp [LinksInTime]⟩
  | store hg => exact ⟨n, d, r, h.store hg, by simp [LinksInTime]⟩
  | notify hg ho => exact ⟨n, d, r, h.notify hg ho, by simp [LinksInTime]⟩
  | resetCb hg => exact ⟨n, d, r, h.resetCb hg, by simp [LinksInTime]⟩
  | next hg => exact ⟨n, d, r, h.next hg, by simp [LinksInTime]⟩
  | @notified o c hg =>
      have hwalk := h.walk
      rw [hg] at hwalk
      obtain ⟨r', rfl⟩ : ∃ r', r = o :: r' := by
        cases r with
        | nil => cases hwalk
        | cons o' r' =>
            obtain rfl : o' = o := Option.some.inj hwalk
            exact ⟨r', rfl⟩
      exact ⟨n, d ++ [o], r', h.notified hg _ c, by simp [LinksInTime]⟩
  | @requestStop o hpc =>
      refine ⟨n, d, r, ?_, by simp [LinksInTime]⟩
      exact h.move o rfl rfl (fun _ => ops_setOp_of_ne s _) (by simp) (h.present o hpc) (by simp)
        (by simp) (by simpa using fun h₁ h₂ h₃ => ⟨⟨h₁, h₂⟩, h₃⟩)
  | @check o hpc =>
      refine ⟨n, d, r, ?_, by simp [LinksInTime]⟩
      exact h.setOp o (by simp [hpc]) (by simp [hpc, Pc.late]) rfl
        (by cases s.values.isSome <;> simp)
        (by cases s.values.isSome <;> simp [hpc, Pc.completions])
  | @test o hpc =>
      refine ⟨n, d, r, ?_, by simp [LinksInTime]⟩
      exact h.setOp o (by simp [hpc]) (by simp [hpc, Pc.late]) rfl
        (by cases s.stopRequested <;> simp)
        (by cases s.stopRequested <;> simp [hpc, Pc.completions])
  | @unregister o hpc | @setStopped o hpc =>
      refine ⟨n, d, r, ?_, by simp [LinksInTime]⟩
      exact h.setOp o (by simp [hpc]) (by simp [hpc, Pc.late]) rfl (by simp)
        (by simp [hpc, Pc.completions])
  | @deliver o c hpc | @emplace o hpc =>
      refine ⟨n, d, r, ?_, by simp [LinksInTime]⟩
      exact h.move o rfl rfl (fun _ => ops_setOp_of_ne s _) (by simp) (h.present o (by simp [hpc]))
        (by simp) (by simp [hpc, Pc.late]) (by simp [hpc, Pc.completions])
  | @ret o hpc =>
      refine ⟨n, d, r, ?_, by simp [LinksInTime]⟩
      refine h.move o rfl rfl (fun _ => ops_setOp_of_ne s _) (by simp) (h.present o ?_)
        (by simp) (by simp [Pc.late]) ?_
      · rcases hpc with hpc | hpc <;> simp [hpc]
      · rcases hpc with hpc | hpc <;> simp [hpc, Pc.completions]

theorem layout_of_run {stop : Bool} {env : Option E} {tr : List (Event V E)} {s : State V E}
    (h : Run (step recv) (.fresh stop env) tr s) :
    ∃ n d r, Layout s n d r ∧ (n = [] ↔ EachStep (step recv) LinksInTime (.fresh stop env) tr) := by
  refine Run.induction (P := fun tr s => ∃ n d r, Layout s n d r ∧
    (n = [] ↔ EachStep (step recv) LinksInTime (.fresh stop env) tr)) ?_ ?_ h
  · exact ⟨[], [], [], layout_fresh stop env, by simp [EachStep]⟩
  · rintro tr s e s' hr ⟨n, d, r, hl, hn⟩ hs
    obtain ⟨n', d', r', hl', hn'⟩ := layout_step hl hs
    exact ⟨n', d', r', hl', by rw [hn', hn, eachStep_concat_iff hr]⟩

/-! ### The underlying operation is started once -/

def starts (tr : List (Event V E)) : ℕ :=
  tr.countP fun
    | .startSingle _ => true
    | _ => false

def Single.isWaiting : Single V → Bool
  | .absent | .connected => true
  | _ => false

/-- The underlying operation never waits again. -/
theorem isWaiting_step {s s' : State V E} {e : Event V E} (hs : step recv s e = some s')
    (h : s'.single.isWaiting = true) : s.single.isWaiting = true ∧ ∀ o, e ≠ .startSingle o := by
  cases step_move hs with
  | connect =>
      refine ⟨?_, by simp⟩
      cases hg : s.single <;> simp_all [Single.ensure, Single.isWaiting]
  | complete =>
      cases hl : s.linkedOps <;> simp_all [Single.isWaiting]
  | @next o =>
      cases hl : (s.ops o).nextOps <;> simp_all [Single.isWaiting]
  | startSingle | store | notify | resetCb | notified => cases h
  | getEnv | requestStop | check | unregister | deliver | emplace | test | setStopped | link
  | ret => exact ⟨h, by simp⟩

theorem starts_of_run {stop : Bool} {env : Option E} {tr : List (Event V E)} {s : State V E}
    (h : Run (step recv) (.fresh stop env) tr s) :
    starts tr ≤ 1 ∧ (s.single.isWaiting = true → starts tr = 0) := by
  refine Run.induction (P := fun tr s => starts tr ≤ 1 ∧
    (s.single.isWaiting = true → starts tr = 0)) (by simp [starts]) ?_ h
  intro tr s e s' hr ih hs
  have hconcat : starts (tr ++ [e]) = starts tr + starts [e] := List.countP_append
  rw [hconcat]
  by_cases he : ∃ o, e = .startSingle o
  · obtain ⟨o, rfl⟩ := he
    obtain ⟨n, d, r, hl, -⟩ := layout_of_run hr
    have hpc : (s.ops o).pc = .linked true := by
      cases step_move hs with
      | startSingle hpc => exact hpc
    have hzero := ih.2 (by rw [(hl.first o hpc).1]; rfl)
    refine ⟨by rw [hzero]; simp [starts], fun hw => ?_⟩
    exact absurd rfl ((isWaiting_step hs hw).2 o)
  · have hzero : starts [e] = 0 := by
      cases e <;> simp_all [starts]
    rw [hzero]
    exact ⟨ih.1, fun hw => ih.2 (isWaiting_step hs hw).1⟩

/-! ### Who is completed -/

/-- Every operation is completed at most once, and the underlying operation is
started at most once. When `notify` has returned, an operation whose `start` has
returned has been completed, if every operation has linked itself in time; and
once no `start` is under way, only then have they all been. -/
theorem split_completes {stop : Bool} {env : Option E} {tr : List (Event V E)} {s : State V E}
    (h : Run (step recv) (.fresh stop env) tr s) :
    starts tr ≤ 1 ∧ (∀ o, (s.ops o).received.length ≤ 1) ∧
      (EachStep (step recv) LinksInTime (.fresh stop env) tr → s.single = .notified →
        ∀ o, (s.ops o).pc = .returned → (s.ops o).received.length = 1) ∧
      (s.single = .notified →
        (∀ o, (s.ops o).pc = .unborn ∨ (s.ops o).pc = .connected ∨ (s.ops o).pc = .returned) →
        ((∀ o, (s.ops o).pc = .returned → (s.ops o).received.length = 1) ↔
          EachStep (step recv) LinksInTime (.fresh stop env) tr)) := by
  obtain ⟨n, d, r, hl, hn⟩ := layout_of_run h
  have hall : EachStep (step recv) LinksInTime (.fresh stop env) tr → s.single = .notified →
      ∀ o, (s.ops o).pc = .returned → (s.ops o).received.length = 1 := by
    intro hC hdone o ho
    have hwalk := hl.walk
    rw [hdone] at hwalk
    obtain rfl : n = [] := hn.mpr hC
    obtain rfl : r = [] := hwalk
    by_cases hmem : o ∈ d
    · exact hl.reached o hmem
    · rw [(hl.apart o (by simpa using hmem)).2, ho]
      rfl
  refine ⟨(starts_of_run h).1, fun o => ?_, hall, fun hdone hidle => ⟨fun hcompleted => ?_,
    fun hC => hall hC hdone⟩⟩
  · by_cases hmem : o ∈ n ++ d ++ r
    · simp only [List.mem_append] at hmem
      rcases hmem with (hmem | hmem) | hmem
      · simp [hl.missed o hmem]
      · exact Nat.le_of_eq (hl.reached o hmem)
      · simp [hl.waiting o hmem]
    · rw [(hl.apart o hmem).2]
      cases (s.ops o).pc <;> simp [Pc.completions]
  · rw [← hn, List.eq_nil_iff_forall_not_mem]
    intro o ho
    have hlate := hl.late o (by simp [ho])
    have hreturned : (s.ops o).pc = .returned := by
      rcases hidle o with hpc | hpc | hpc
      · simp [hpc, Pc.late] at hlate
      · simp [hpc, Pc.late] at hlate
      · exact hpc
    have := hcompleted o hreturned
    simp [hl.missed o ho] at this

/-- Two operations; the second finds no stored result, and the completion comes
between that and its link. -/
def lateTrace : List (Event ℕ ℕ) :=
  [.connect 0, .connect 1, .check 0 false, .emplace 0, .test 0 false, .link 0 true,
    .startSingle 0, .ret 0, .check 1 false, .complete (.value 7), .store, .notify, .resetCb 0,
    .notified 0 (.value 7), .next 0, .emplace 1, .test 1 false, .link 1 false, .ret 1]

/-- The second operation is never completed. -/
theorem split_misses_late : ¬ ∀ (tr : List (Event ℕ ℕ)) (s : State ℕ ℕ),
    Run (step fun _ => ⟨id, id⟩) (.fresh false (some 0)) tr s → s.single = .notified →
      ∀ o, (s.ops o).pc = .returned → (s.ops o).received.length = 1 := by
  intro h
  obtain ⟨s, hs⟩ : ∃ s, Run (step fun _ => ⟨id, id⟩) (.fresh false (some 0)) lateTrace s :=
    exists_run_iff.mpr rfl
  have hview : (exec (step fun _ => ⟨id, id⟩) (.fresh false (some 0)) lateTrace).map
      (fun s : State ℕ ℕ => (s.single, (s.ops 1).pc, (s.ops 1).received)) =
      some (.notified, .returned, []) := rfl
  rw [show exec _ _ lateTrace = some s from hs, Option.map_some] at hview
  simp only [Option.some.injEq, Prod.mk.injEq] at hview
  have := h lateTrace s hs hview.1 1 hview.2.1
  simp [hview.2.2] at this

/-- A run in which both operations link in time. -/
def timelyTrace : List (Event ℕ ℕ) :=
  [.connect 0, .connect 1, .check 0 false, .emplace 0, .test 0 false, .link 0 true,
    .startSingle 0, .ret 0, .check 1 false, .emplace 1, .test 1 false, .link 1 false,
    .complete (.value 7), .ret 1, .store, .notify, .resetCb 1, .notified 1 (.value 7), .next 1,
    .resetCb 0, .notified 0 (.value 7), .next 0]

theorem split_completes_timely : ∃ s : State ℕ ℕ,
    Run (step fun _ => ⟨id, id⟩) (.fresh false (some 0)) timelyTrace s ∧
      EachStep (step fun _ => ⟨id, id⟩) LinksInTime (.fresh false (some 0)) timelyTrace ∧
      (s.ops 0).received.length = 1 ∧ (s.ops 1).received.length = 1 := by
  obtain ⟨s, hs⟩ : ∃ s, Run (step fun _ => ⟨id, id⟩) (.fresh false (some 0)) timelyTrace s :=
    exists_run_iff.mpr rfl
  have hview : (exec (step fun _ => ⟨id, id⟩) (.fresh false (some 0)) timelyTrace).map
      (fun s : State ℕ ℕ => (s.single, (s.ops 0).pc, (s.ops 1).pc)) =
      some (.notified, .returned, .returned) := rfl
  rw [show exec _ _ timelyTrace = some s from hs, Option.map_some] at hview
  simp only [Option.some.injEq, Prod.mk.injEq] at hview
  have hC : EachStep (step fun _ => ⟨id, id⟩) LinksInTime (.fresh false (some 0)) timelyTrace := by
    decide
  have hall := (split_completes hs).2.2.1 hC hview.1
  exact ⟨s, hs, hC, hall 0 hview.2.1, hall 1 hview.2.2⟩

end BaremetalSenders.Split
