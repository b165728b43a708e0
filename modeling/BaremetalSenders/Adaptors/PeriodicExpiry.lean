import BaremetalSenders.Adaptors.PeriodicDrift
import Mathlib.Data.BitVec
import Mathlib.Data.Finset.Fold
import Mathlib.Data.Int.ModEq
import Mathlib.Data.List.GetD
import Mathlib.Order.Bounds.Basic
import Mathlib.Order.Interval.Finset.Nat
import Mathlib.Tactic.Linarith
import Mathlib.Tactic.Ring

/-!
What the expiration providers of `periodic` compute, one time and again and
again.

A provider has a pointer to the operation; it reads its period `d`, and reads
and writes its time point `tp`. Time points and durations are ticks: integers,
or words of some width with unsigned arithmetic. The division is that of the
language, which truncates.

The results are about the sequence of clock readings the providers get, whatever
it is. In the operation the first provider is used by `start` and the other one
by `restart`, so the sequences here are those of its runs.
-/

namespace BaremetalSenders.Periodic

open Timer (ExpirationProvider)

variable {τ δ : Type*}

/-- The members of the operation that the providers use. -/
structure Ops (τ δ : Type*) where
  tp : τ
  d : δ
  deriving DecidableEq

/-- What `compute_expiration` returns is what it has stored. -/
def Ops.store (ops : Ops τ δ) (tp : τ) : τ × Ops τ δ := (tp, { ops with tp := tp })

@[simp] theorem Ops.store_fst (ops : Ops τ δ) (tp : τ) : (ops.store tp).1 = tp := rfl

@[simp] theorem Ops.store_tp (ops : Ops τ δ) (tp : τ) : (ops.store tp).2.tp = tp := rfl

@[simp] theorem Ops.store_d (ops : Ops τ δ) (tp : τ) : (ops.store tp).2.d = ops.d := rfl

/-- The values `safe_quantized_nth_expiration_provider` computes when `tp` is in the past:
`now - tp`, that decremented, `num_ticks`, `d * num_ticks`, and the new `tp`. -/
structure Quantization (τ : Type*) where
  gap : τ
  diff : τ
  numTicks : τ
  advance : τ
  tp : τ

def quantize [Add τ] [Sub τ] [Mul τ] [One τ] (div : τ → τ → τ) (tp d now : τ) :
    Quantization τ :=
  let gap := now - tp
  let diff := gap - 1
  let numTicks := div diff d + 1
  let advance := d * numTicks
  ⟨gap, diff, numTicks, advance, tp + advance⟩

namespace Ops

def firstExpiration [HAdd τ δ τ] (ops : Ops τ δ) (now : τ) : τ × Ops τ δ :=
  ops.store (now + ops.d)

def unsafeNthExpiration [HAdd τ δ τ] (ops : Ops τ δ) : τ × Ops τ δ := ops.store (ops.tp + ops.d)

def safeImmediateNthExpiration [HAdd τ δ τ] [Max τ] (ops : Ops τ δ) (now : τ) : τ × Ops τ δ :=
  ops.store (max (ops.tp + ops.d) now)

def safeQuantizedNthExpiration [Add τ] [Sub τ] [Mul τ] [One τ] [LT τ] [DecidableLT τ]
    (div : τ → τ → τ) (ops : Ops τ τ) (now : τ) : τ × Ops τ τ :=
  let tp := ops.tp + ops.d
  if tp < now then ops.store (quantize div tp ops.d now).tp else ops.store tp

end Ops

/-! ### The next tick -/

/-- The ticks after `tp` that are not before `now`. -/
def ticksFrom (tp d now : ℤ) : Set ℤ := {x | (∃ k : ℕ, 1 ≤ k ∧ x = tp + k * d) ∧ now ≤ x}

/-- The number of ticks that have to be added to reach `now`, rounded up. -/
theorem quantize_tp {tp d now : ℤ} (hlt : tp < now) :
    (quantize Int.tdiv tp d now).tp = tp + d * ((now - tp - 1) / d + 1) := by
  simp only [quantize]
  rw [Int.tdiv_eq_ediv_of_nonneg (by omega)]

theorem quantize_bounds {tp d now : ℤ} (hd : 0 < d) (hlt : tp < now) :
    now ≤ (quantize Int.tdiv tp d now).tp ∧ (quantize Int.tdiv tp d now).tp < now + d := by
  have hdiv := Int.mul_ediv_add_emod (now - tp - 1) d
  have hlow := Int.emod_nonneg (now - tp - 1) (by omega : d ≠ 0)
  have hhigh := Int.emod_lt_of_pos (now - tp - 1) hd
  rw [quantize_tp hlt, mul_add, mul_one]
  constructor <;> omega

/-- A tick is before another one if it is less than a period behind it. -/
theorem tick_le {tp d x y : ℤ} {m : ℤ} {k : ℕ} (hd : 0 < d) (hx : x = tp + m * d)
    (hy : y = tp + k * d) (hlt : x < y + d) : x ≤ y := by
  have hmul : m * d < (k + 1) * d := by
    rw [add_mul, one_mul]
    omega
  have hle : m ≤ k := by
    have := lt_of_mul_lt_mul_right hmul hd.le
    omega
  have := mul_le_mul_of_nonneg_right hle hd.le
  omega

theorem safeQuantizedNthExpiration_eq (tp d now : ℤ) :
    (Ops.safeQuantizedNthExpiration Int.tdiv ⟨tp, d⟩ now).1 =
      if tp + d < now then tp + d + d * ((now - (tp + d) - 1) / d + 1) else tp + d := by
  simp only [Ops.safeQuantizedNthExpiration]
  split
  next hlt => rw [Ops.store_fst, quantize_tp hlt]
  next hge => rw [Ops.store_fst]

theorem isLeast_safeQuantizedNthExpiration (ops : Ops ℤ ℤ) (now : ℤ) (hd : 0 < ops.d) :
    IsLeast (ticksFrom ops.tp ops.d now) (ops.safeQuantizedNthExpiration Int.tdiv now).1 := by
  simp only [Ops.safeQuantizedNthExpiration]
  split
  next hlt =>
    have hbounds := quantize_bounds hd hlt
    have hq : 0 ≤ (now - (ops.tp + ops.d) - 1) / ops.d := Int.ediv_nonneg (by omega) hd.le
    have hx : (quantize Int.tdiv (ops.tp + ops.d) ops.d now).tp =
        ops.tp + ((now - (ops.tp + ops.d) - 1) / ops.d + 2) * ops.d := by
      rw [quantize_tp hlt]
      ring
    rw [Ops.store_fst]
    refine ⟨⟨⟨((now - (ops.tp + ops.d) - 1) / ops.d + 2).toNat, by omega, ?_⟩, hbounds.1⟩, ?_⟩
    · rw [hx, Int.toNat_of_nonneg (by omega)]
    · rintro y ⟨⟨k, _, hy⟩, hnow⟩
      exact tick_le hd hx hy (by omega)
  next hge =>
    rw [Ops.store_fst]
    refine ⟨⟨⟨1, le_rfl, by simp⟩, by omega⟩, ?_⟩
    rintro y ⟨⟨k, hk, rfl⟩, _⟩
    have hmul : 1 * ops.d ≤ k * ops.d :=
      mul_le_mul_of_nonneg_right (by exact_mod_cast hk) hd.le
    omega

/-- It is the one after `tp`, or less than a period after `now`. -/
theorem lt_of_isLeast_ticksFrom {tp d now x : ℤ} (hd : 0 < d) (h : IsLeast (ticksFrom tp d now) x) :
    x = tp + d ∨ x < now + d := by
  obtain ⟨⟨⟨k, hk, rfl⟩, _⟩, hmin⟩ := h
  by_contra! hfar
  have hprev : ((k - 1 : ℕ) : ℤ) * d = k * d - d := by
    rw [Nat.cast_sub hk, sub_mul, Nat.cast_one, one_mul]
  have hk2 : 1 ≤ k - 1 := by
    by_contra hlt
    obtain rfl : k = 1 := by omega
    exact hfar.1 (by simp)
  have hle := hmin ⟨⟨k - 1, hk2, rfl⟩, by omega⟩
  omega

theorem le_of_mem_ticksFrom {tp d now x : ℤ} (hd : 0 < d) (h : x ∈ ticksFrom tp d now) :
    tp + d ≤ x ∧ now ≤ x := by
  obtain ⟨⟨k, hk, rfl⟩, hnow⟩ := h
  have hmul : 1 * d ≤ k * d := mul_le_mul_of_nonneg_right (by exact_mod_cast hk) hd.le
  exact ⟨by omega, hnow⟩

/-! ### Words -/

/-- The values are those of the integers, none of them reduced modulo the width. -/
structure Exact {w : ℕ} (q : Quantization (BitVec w)) (r : Quantization ℤ) : Prop where
  gap : (q.gap.toNat : ℤ) = r.gap
  diff : (q.diff.toNat : ℤ) = r.diff
  numTicks : (q.numTicks.toNat : ℤ) = r.numTicks
  advance : (q.advance.toNat : ℤ) = r.advance
  tp : (q.tp.toNat : ℤ) = r.tp

theorem quantize_exact {w : ℕ} {tp d now : BitVec w} (hd : d ≠ 0) (hlt : tp < now)
    (hnow : now.toNat + d.toNat < 2 ^ w) :
    Exact (quantize (· / ·) tp d now) (quantize Int.tdiv tp.toNat d.toNat now.toNat) := by
  have hdpos : 0 < d.toNat := by
    rcases Nat.eq_zero_or_pos d.toNat with h0 | hpos
    · exact absurd (BitVec.eq_of_toNat_eq (by simpa using h0)) hd
    · exact hpos
  have hlt' : tp.toNat < now.toNat := hlt
  have hbound := now.isLt
  have hone : (1 : BitVec w).toNat = 1 := by
    change (BitVec.ofNat w 1).toNat = 1
    rw [BitVec.toNat_ofNat, Nat.mod_eq_of_lt (by omega)]
  have hgap : (now - tp).toNat = now.toNat - tp.toNat :=
    BitVec.toNat_sub_of_le (BitVec.le_def.mpr hlt'.le)
  have hdiff : (now - tp - 1).toNat = now.toNat - tp.toNat - 1 := by
    rw [BitVec.toNat_sub_of_le (BitVec.le_def.mpr (by omega)), hgap, hone]
  -- rounding down and back up again stays below `now + d`
  have hround := Nat.div_mul_le_self (now.toNat - tp.toNat - 1) d.toNat
  have hprod : d.toNat * ((now.toNat - tp.toNat - 1) / d.toNat + 1) =
      (now.toNat - tp.toNat - 1) / d.toNat * d.toNat + d.toNat := by ring
  have hticks_le : (now.toNat - tp.toNat - 1) / d.toNat + 1 ≤
      d.toNat * ((now.toNat - tp.toNat - 1) / d.toNat + 1) := Nat.le_mul_of_pos_left _ hdpos
  have hticks : ((now - tp - 1) / d + 1).toNat = (now.toNat - tp.toNat - 1) / d.toNat + 1 := by
    rw [BitVec.toNat_add, BitVec.toNat_udiv, hdiff, hone, Nat.mod_eq_of_lt (by omega)]
  have hadvance : (d * ((now - tp - 1) / d + 1)).toNat =
      d.toNat * ((now.toNat - tp.toNat - 1) / d.toNat + 1) := by
    rw [BitVec.toNat_mul, hticks, Nat.mod_eq_of_lt (by omega)]
  have htp : (tp + d * ((now - tp - 1) / d + 1)).toNat =
      tp.toNat + d.toNat * ((now.toNat - tp.toNat - 1) / d.toNat + 1) := by
    rw [BitVec.toNat_add, hadvance, Nat.mod_eq_of_lt (by omega)]
  have hcast : ((now.toNat - tp.toNat - 1 : ℕ) : ℤ) = (now.toNat : ℤ) - tp.toNat - 1 := by omega
  have htdiv : ((now.toNat : ℤ) - tp.toNat - 1).tdiv d.toNat =
      ((now.toNat - tp.toNat - 1) / d.toNat : ℕ) := by
    rw [← hcast, Int.ofNat_tdiv]
  constructor
  · simp only [quantize]
    omega
  · simp only [quantize]
    omega
  · simp only [quantize, htdiv]
    rw [hticks]
    simp
  · simp only [quantize, htdiv]
    rw [hadvance]
    push_cast
    rfl
  · simp only [quantize, htdiv]
    rw [htp]
    push_cast
    rfl

/-! ### Sequences of expirations -/

def Expiry.nthExpiration (x : Expiry) (ops : Ops ℤ ℤ) (now : ℤ) : ℤ × Ops ℤ ℤ :=
  match x with
  | .unsafeExpiry => ops.unsafeNthExpiration
  | .safeImmediateExpiry => ops.safeImmediateNthExpiration now
  | .safeQuantizedExpiry => ops.safeQuantizedNthExpiration Int.tdiv now

/-- The members after `start` and `n` times `restart`; `now i` is what the clock shows to the
`i`th provider. -/
def Expiry.opsAfter (x : Expiry) (ops : Ops ℤ ℤ) (now : ℕ → ℤ) : ℕ → Ops ℤ ℤ
  | 0 => (ops.firstExpiration (now 0)).2
  | n + 1 => (x.nthExpiration (x.opsAfter ops now n) (now (n + 1))).2

def Expiry.expiration (x : Expiry) (d : ℤ) (now : ℕ → ℤ) (n : ℕ) : ℤ :=
  (x.opsAfter ⟨0, d⟩ now n).tp

section Sequences

variable (x : Expiry) (d : ℤ) (now : ℕ → ℤ) (n : ℕ)

/-- The providers return what they store and leave the period alone. -/
theorem nthExpiration_eq (ops : Ops ℤ ℤ) (r : ℤ) :
    x.nthExpiration ops r = ops.store (x.nthExpiration ops r).1 := by
  cases x with
  | unsafeExpiry => rfl
  | safeImmediateExpiry => rfl
  | safeQuantizedExpiry =>
      simp only [Expiry.nthExpiration, Ops.safeQuantizedNthExpiration]
      split <;> rfl

theorem opsAfter_eq : x.opsAfter ⟨0, d⟩ now n = ⟨x.expiration d now n, d⟩ := by
  induction n with
  | zero => rfl
  | succ n ih =>
      simp only [Expiry.expiration, Expiry.opsAfter]
      rw [nthExpiration_eq, ih]
      rfl

theorem expiration_zero : x.expiration d now 0 = now 0 + d := rfl

theorem expiration_succ : x.expiration d now (n + 1) =
    (x.nthExpiration ⟨x.expiration d now n, d⟩ (now (n + 1))).1 := by
  rw [← opsAfter_eq]
  simp only [Expiry.expiration, Expiry.opsAfter]
  rw [nthExpiration_eq]
  rfl

theorem unsafe_succ : Expiry.unsafeExpiry.expiration d now (n + 1) =
    Expiry.unsafeExpiry.expiration d now n + d := expiration_succ ..

theorem safeImmediate_succ : Expiry.safeImmediateExpiry.expiration d now (n + 1) =
    max (Expiry.safeImmediateExpiry.expiration d now n + d) (now (n + 1)) :=
  expiration_succ ..

theorem isLeast_safeQuantized_succ (hd : 0 < d) :
    IsLeast (ticksFrom (Expiry.safeQuantizedExpiry.expiration d now n) d (now (n + 1)))
      (Expiry.safeQuantizedExpiry.expiration d now (n + 1)) := by
  rw [expiration_succ]
  exact isLeast_safeQuantizedNthExpiration ⟨_, d⟩ _ hd

/-- The bound the first expiration and an overrun at `j` give for the `n`th expiration. -/
def overrunAt (j : ℕ) : ℤ := now j + (n - j : ℤ) * d

theorem overrunAt_succ (j : ℕ) : overrunAt d now (n + 1) j = overrunAt d now n j + d := by
  simp only [overrunAt]
  push_cast
  ring

theorem unsafe_expiration : Expiry.unsafeExpiry.expiration d now n = now 0 + d + n * d := by
  induction n with
  | zero => simp [expiration_zero]
  | succ n ih =>
      rw [unsafe_succ, ih]
      push_cast
      ring

/-- `safe_immediate` is never before the regular time, nor before an overrun with the regular
intervals after it, and one of these is when it is. -/
theorem safeImmediate_expiration : Expiry.safeImmediateExpiry.expiration d now n =
    (Finset.Icc 1 n).fold max (now 0 + d + n * d) (overrunAt d now n) := by
  induction n with
  | zero => simp [expiration_zero]
  | succ n ih =>
      have hlast : overrunAt d now (n + 1) (n + 1) = now (n + 1) := by simp [overrunAt]
      have hfirst : now 0 + d + ((n + 1 : ℕ) : ℤ) * d = now 0 + d + n * d + d := by
        push_cast
        ring
      have hshift : (Finset.Icc 1 n).fold max (now 0 + d + n * d + d)
          (overrunAt d now (n + 1)) =
          (Finset.Icc 1 n).fold max (now 0 + d + n * d) (overrunAt d now n) + d := by
        refine Eq.trans (Finset.fold_congr fun j _ => overrunAt_succ d now n j) ?_
        exact Finset.fold_hom (m := (· + d)) fun a b => (max_add_add_right a b d).symm
      have hIcc : Finset.Icc 1 (n + 1) = insert (n + 1) (Finset.Icc 1 n) := by
        ext j
        simp only [Finset.mem_Icc, Finset.mem_insert]
        omega
      have hnew : n + 1 ∉ Finset.Icc 1 n := by simp
      rw [safeImmediate_succ, ih, hfirst, hIcc,
        Finset.fold_insert hnew, hlast, hshift, max_comm]

theorem safeImmediate_le_safeQuantized (hd : 0 < d) :
    Expiry.safeImmediateExpiry.expiration d now n ≤
        Expiry.safeQuantizedExpiry.expiration d now n ∧
      Expiry.safeQuantizedExpiry.expiration d now n <
        Expiry.safeImmediateExpiry.expiration d now n + d := by
  induction n with
  | zero => simp [expiration_zero, hd]
  | succ n ih =>
      have hnext := isLeast_safeQuantized_succ d now n hd
      have hge := le_of_mem_ticksFrom hd hnext.1
      have hlt := lt_of_isLeast_ticksFrom hd hnext
      rw [safeImmediate_succ]
      omega

theorem unsafe_le_safeImmediate :
    Expiry.unsafeExpiry.expiration d now n ≤ Expiry.safeImmediateExpiry.expiration d now n := by
  induction n with
  | zero => rfl
  | succ n ih =>
      rw [unsafe_succ, safeImmediate_succ]
      exact le_max_of_le_left (by omega)

/-- No reading is later than the regular time of the child it belongs to. -/
def NoOverrun : Prop := ∀ j, 1 ≤ j → j ≤ n → now j ≤ now 0 + d + j * d

theorem safeImmediate_of_noOverrun (h : NoOverrun d now n) :
    Expiry.safeImmediateExpiry.expiration d now n = now 0 + d + n * d := by
  rw [safeImmediate_expiration]
  apply le_antisymm
  · refine (Finset.fold_max_le _).mpr ⟨le_rfl, fun j hj => ?_⟩
    obtain ⟨h1, hn⟩ := Finset.mem_Icc.mp hj
    have hj := h j h1 hn
    have hsplit : (n - j : ℤ) * d = n * d - j * d := sub_mul ..
    simp only [overrunAt]
    omega
  · exact (Finset.le_fold_max _).mpr (.inl le_rfl)

theorem safeQuantized_of_noOverrun (hd : 0 < d) (h : NoOverrun d now n) :
    Expiry.safeQuantizedExpiry.expiration d now n = now 0 + d + n * d := by
  induction n with
  | zero => simp [expiration_zero]
  | succ n ih =>
      have hprev : NoOverrun d now n := fun j h1 hj => h j h1 (by omega)
      have hnow := h (n + 1) (by omega) le_rfl
      have hregular : now 0 + d + ((n + 1 : ℕ) : ℤ) * d = now 0 + d + n * d + d := by
        push_cast
        ring
      have hnext := isLeast_safeQuantized_succ d now n hd
      rw [ih hprev] at hnext
      have hge := le_of_mem_ticksFrom hd hnext.1
      have hle := hnext.2 ⟨⟨1, le_rfl, rfl⟩, by omega⟩
      omega

end Sequences

/-! ### The expirations of an operation -/

/-- Only the readings so far matter. -/
theorem expiration_congr (x : Expiry) (d : ℤ) {now now' : ℕ → ℤ} {n : ℕ}
    (h : ∀ i ≤ n, now i = now' i) : x.expiration d now n = x.expiration d now' n := by
  induction n with
  | zero => simp only [expiration_zero, h 0 le_rfl]
  | succ n ih =>
      rw [expiration_succ, expiration_succ, ih fun i hi => h i (by omega), h (n + 1) le_rfl]

/-- The providers the operation is modelled with; `unsafe_expiry` does not look at the clock. -/
theorem computeExpiration_provider {x : Expiry} {d tp tp' : ℤ} {readings : List ℤ}
    (h : (x.provider d tp).computeExpiration readings = some tp') :
    tp' = (x.nthExpiration ⟨tp, d⟩ (readings.headD 0)).1 := by
  cases x with
  | unsafeExpiry =>
      cases readings with
      | nil => exact (Option.some.inj h).symm
      | cons r rs => cases h
  | safeImmediateExpiry =>
      obtain _ | ⟨r, _ | ⟨r', rs⟩⟩ := readings
      · cases h
      · exact (Option.some.inj h).symm
      · cases h
  | safeQuantizedExpiry =>
      obtain _ | ⟨r, rs⟩ := readings
      · cases h
      · simp only [Expiry.provider, Periodic.safeQuantizedExpiry,
          ExpirationProvider.computeExpiration] at h
        rw [List.headD_cons, Expiry.nthExpiration, safeQuantizedNthExpiration_eq]
        split at h
        next hlt =>
          rw [if_pos hlt]
          cases rs with
          | nil => exact (Option.some.inj h).symm
          | cons r' rs => cases h
        next hge =>
          rw [if_neg hge]
          cases rs with
          | nil => exact (Option.some.inj h).symm
          | cons r' rs => cases h

variable {P β : Type*}

/-- What the clock showed to the providers since the operation in the place has been started,
if its first child was scheduled. -/
def Event.provide (shown : Option (List ℤ)) : Event P β ℤ ℤ → Option (List ℤ)
  | .construct _ | .destroy | .start none => none
  | .start (some readings) => some [readings.headD 0]
  | .restart (some readings) => shown.map (· ++ [readings.headD 0])
  | _ => shown

def provided (tr : List (Event P β ℤ ℤ)) : Option (List ℤ) := tr.foldl Event.provide none

theorem provided_concat (tr : List (Event P β ℤ ℤ)) (e : Event P β ℤ ℤ) :
    provided (tr ++ [e]) = e.provide (provided tr) := by
  simp [provided, List.foldl_append]

/-- `tp` is the last one of the sequence of expirations. -/
theorem tp_of_run [DecidableEq β] {fused : Bool} {x : Expiry} {d : ℤ} {pred : P → Bool × P}
    {checksStop : Bool} {expirationTime : ℕ ⊕ β → ℤ} {tr : List (Event P β ℤ ℤ)}
    {s : State P β ℤ ℤ} {shown : List ℤ}
    (h : Run (step fused (timed x d pred checksStop)) (.init expirationTime) tr s)
    (hshown : provided tr = some shown) :
    ∃ op n, s.slot = some op ∧ shown.length = n + 1 ∧
      op.tp = x.expiration d (fun i => shown.getD i 0) n := by
  refine Run.induction (P := fun tr s => ∀ shown, provided tr = some shown →
    ∃ op n, s.slot = some op ∧ shown.length = n + 1 ∧
      op.tp = x.expiration d (fun i => shown.getD i 0) n) (by intro _ h; cases h) ?_ h shown hshown
  intro tr s e s' _ ih hs shown hshown
  rw [provided_concat] at hshown
  cases step_move hs with
  | construct | destroy => cases hshown
  | start readings op tp t hop _ hschedule =>
      cases readings with
      | none => cases hshown
      | some readings =>
          obtain ⟨hep, -, -⟩ := schedule_timed hschedule
          obtain rfl := Option.some.inj hshown
          obtain _ | ⟨r, _ | ⟨r', rs⟩⟩ := readings
          · cases hep
          · obtain rfl := Option.some.inj hep
            exact ⟨_, 0, rfl, rfl, rfl⟩
          · cases hep
  | restart readings op tp t hop _ hschedule =>
      cases readings with
      | none =>
          obtain ⟨op', n, hop', hlen, htp⟩ := ih shown hshown
          obtain rfl := Option.some.inj (hop.symm.trans hop')
          cases hschedule
          exact ⟨_, n, rfl, hlen, htp⟩
      | some readings =>
          obtain ⟨hep, -, -⟩ := schedule_timed hschedule
          obtain ⟨before, hbefore, rfl⟩ := Option.map_eq_some_iff.mp hshown
          obtain ⟨op', n, hop', hlen, htp⟩ := ih before hbefore
          obtain rfl := Option.some.inj (hop.symm.trans hop')
          refine ⟨_, n + 1, rfl, by simp [hlen], ?_⟩
          have hsame : x.expiration d (fun i => before.getD i 0) n =
              x.expiration d (fun i => (before ++ [readings.headD 0]).getD i 0) n :=
            expiration_congr x d fun i hi => by
              rw [List.getD_append _ _ _ _ (by omega)]
          have hlast : (before ++ [readings.headD 0]).getD (n + 1) 0 = readings.headD 0 := by
            rw [List.getD_append_right _ _ _ _ (by omega), hlen]
            simp
          rw [expiration_succ, hlast, ← hsame, ← htp]
          exact computeExpiration_provider hep
  | complete k ch op hop | evaluate op hop | stopped op hop | deliver ch op hop =>
      obtain ⟨op', n, hop', hlen, htp⟩ := ih shown hshown
      obtain rfl := Option.some.inj (hop.symm.trans hop')
      exact ⟨_, n, rfl, hlen, htp⟩
  | leave _ =>
      obtain ⟨op', n, hop', hlen, htp⟩ := ih shown hshown
      exact ⟨{ op' with state := none }, n, by rw [hop']; rfl, hlen, htp⟩
  | timer e t _ _ =>
      obtain ⟨op', n, hop', hlen, htp⟩ := ih shown hshown
      exact ⟨op', n, hop', hlen, htp⟩

/-! ### The results -/

/-- The expirations of the operation go through the sequence, with what the clock has shown. -/
def Expiry.Followed (x : Expiry) (d : ℤ) : Prop :=
  ∀ (P β : Type) [DecidableEq β] (fused : Bool) (pred : P → Bool × P) (checksStop : Bool)
    (expirationTime : ℕ ⊕ β → ℤ) (tr : List (Event P β ℤ ℤ)) (s : State P β ℤ ℤ) (shown : List ℤ),
    Run (step fused (timed x d pred checksStop)) (.init expirationTime) tr s →
    provided tr = some shown → ∃ op n, s.slot = some op ∧ shown.length = n + 1 ∧
      op.tp = x.expiration d (fun i => shown.getD i 0) n

theorem Expiry.followed (x : Expiry) (d : ℤ) : x.Followed d :=
  fun _ _ _ _ _ _ _ _ _ _ h hshown => tp_of_run h hshown

/-- What `safe_quantized` computes with integers. -/
structure NextTick (d : ℤ) : Prop where
  /-- It returns and stores the least tick that is not in the past. -/
  next : ∀ tp now, (Ops.safeQuantizedNthExpiration Int.tdiv ⟨tp, d⟩ now).2 =
      ⟨(Ops.safeQuantizedNthExpiration Int.tdiv ⟨tp, d⟩ now).1, d⟩ ∧
    IsLeast (ticksFrom tp d now) (Ops.safeQuantizedNthExpiration Int.tdiv ⟨tp, d⟩ now).1
  /-- All expirations are whole periods apart. -/
  congruent : ∀ now n, Expiry.safeQuantizedExpiry.expiration d now n ≡
    Expiry.safeQuantizedExpiry.expiration d now 0 [ZMOD d]
  later : ∀ now n, Expiry.safeQuantizedExpiry.expiration d now n <
    Expiry.safeQuantizedExpiry.expiration d now (n + 1)
  notPast : ∀ now n, now n ≤ Expiry.safeQuantizedExpiry.expiration d now n
  /-- These are the expirations of the operation. -/
  followed : Expiry.safeQuantizedExpiry.Followed d

/-- What it computes with words, which is what it computes with integers. -/
structure NoWrap {w : ℕ} (ops : Ops (BitVec w) (BitVec w)) (now : BitVec w) : Prop where
  period : (ops.tp + ops.d).toNat = ops.tp.toNat + ops.d.toNat
  divisor : ops.d ≠ 0
  exact : ops.tp + ops.d < now → Exact (quantize (· / ·) (ops.tp + ops.d) ops.d now)
    (quantize Int.tdiv (ops.tp.toNat + ops.d.toNat) ops.d.toNat now.toNat)
  result : ((ops.safeQuantizedNthExpiration (· / ·) now).1.toNat : ℤ) =
    (Ops.safeQuantizedNthExpiration Int.tdiv ⟨ops.tp.toNat, ops.d.toNat⟩ now.toNat).1

theorem nextTick {d : ℤ} (hd : 0 < d) : NextTick d where
  next := by
    intro tp now
    have hstore := nthExpiration_eq .safeQuantizedExpiry ⟨tp, d⟩ now
    exact ⟨congrArg Prod.snd hstore, isLeast_safeQuantizedNthExpiration ⟨tp, d⟩ now hd⟩
  congruent := by
    intro now n
    induction n with
    | zero => rfl
    | succ n ih =>
        obtain ⟨⟨⟨k, _, hk⟩, _⟩, _⟩ := isLeast_safeQuantized_succ d now n hd
        rw [hk, mul_comm]
        exact Int.modEq_add_fac_self.trans ih
  later := by
    intro now n
    have hge := le_of_mem_ticksFrom hd (isLeast_safeQuantized_succ d now n hd).1
    omega
  notPast := by
    intro now n
    cases n with
    | zero =>
        rw [expiration_zero]
        omega
    | succ n => exact (le_of_mem_ticksFrom hd (isLeast_safeQuantized_succ d now n hd).1).2
  followed := Expiry.safeQuantizedExpiry.followed d

theorem noWrap {w : ℕ} {ops : Ops (BitVec w) (BitVec w)} {now : BitVec w} (hd : 0 < ops.d.toNat)
    (htp : ops.tp.toNat + ops.d.toNat < 2 ^ w) (hnow : now.toNat + ops.d.toNat < 2 ^ w) :
    NoWrap ops now := by
  have hperiod : (ops.tp + ops.d).toNat = ops.tp.toNat + ops.d.toNat := by
    rw [BitVec.toNat_add, Nat.mod_eq_of_lt htp]
  have hne : ops.d ≠ 0 := by
    intro h0
    rw [h0] at hd
    simp at hd
  have hexact : ops.tp + ops.d < now →
      Exact (quantize (· / ·) (ops.tp + ops.d) ops.d now)
        (quantize Int.tdiv (ops.tp.toNat + ops.d.toNat) ops.d.toNat now.toNat) := by
    intro hlt
    have hq := quantize_exact hne hlt hnow
    rwa [hperiod, Nat.cast_add] at hq
  refine ⟨hperiod, hne, hexact, ?_⟩
  have hlt_iff : ops.tp + ops.d < now ↔ (ops.tp.toNat : ℤ) + ops.d.toNat < now.toNat := by
    rw [BitVec.lt_def, hperiod]
    omega
  simp only [Ops.safeQuantizedNthExpiration]
  by_cases hlt : ops.tp + ops.d < now
  · rw [if_pos hlt, if_pos (hlt_iff.mp hlt)]
    exact (hexact hlt).tp
  · rw [if_neg hlt, if_neg (hlt_iff.not.mp hlt)]
    simp only [Ops.store_fst, hperiod]
    push_cast
    rfl

/-- `safe_quantized` finds the next tick, with integers and with words that are wide enough
for the first candidate and for one period after the clock. -/
theorem safeQuantized_nextTick (d : ℤ) (hd : 0 < d) (w : ℕ) (ops : Ops (BitVec w) (BitVec w))
    (now : BitVec w) (hpos : 0 < ops.d.toNat) (htp : ops.tp.toNat + ops.d.toNat < 2 ^ w)
    (hnow : now.toNat + ops.d.toNat < 2 ^ w) : NextTick d ∧ NoWrap ops now :=
  ⟨nextTick hd, noWrap hpos htp hnow⟩

/-- Words of 8 bits, with a backlog that leaves just the room that is needed. -/
theorem safeQuantized_nextTick_eight : NextTick 1000 ∧ NoWrap (w := 8) ⟨5, 50⟩ 205 :=
  safeQuantized_nextTick 1000 (by decide) 8 ⟨5, 50⟩ 205 (by decide) (by decide) (by decide)

/-- The three policies with the same readings of the clock. -/
structure Compared (d : ℤ) (now : ℕ → ℤ) (n : ℕ) : Prop where
  /-- `unsafe` keeps to the regular times. -/
  unsafe_eq : Expiry.unsafeExpiry.expiration d now n = now 0 + d + n * d
  /-- `safe_immediate` is at the regular time or at the latest of the overruns, each with
  regular intervals since then. -/
  immediate_eq : Expiry.safeImmediateExpiry.expiration d now n =
    (Finset.Icc 1 n).fold max (now 0 + d + n * d) fun j => now j + (n - j : ℤ) * d
  unsafe_le : Expiry.unsafeExpiry.expiration d now n ≤
    Expiry.safeImmediateExpiry.expiration d now n
  immediate_le : Expiry.safeImmediateExpiry.expiration d now n ≤
    Expiry.safeQuantizedExpiry.expiration d now n
  quantized_lt : Expiry.safeQuantizedExpiry.expiration d now n <
    Expiry.safeImmediateExpiry.expiration d now n + d
  /-- Without overruns so far they are all at the regular times. -/
  regular : NoOverrun d now n → ∀ x : Expiry, x.expiration d now n = now 0 + d + n * d
  /-- They are the expirations of the operation with the policy. -/
  followed : ∀ x : Expiry, x.Followed d

theorem policies_compared (d : ℤ) (hd : 0 < d) (now : ℕ → ℤ) (n : ℕ) : Compared d now n where
  unsafe_eq := unsafe_expiration d now n
  immediate_eq := safeImmediate_expiration d now n
  unsafe_le := unsafe_le_safeImmediate d now n
  immediate_le := (safeImmediate_le_safeQuantized d now n hd).1
  quantized_lt := (safeImmediate_le_safeQuantized d now n hd).2
  regular := by
    intro h x
    cases x with
    | unsafeExpiry => exact unsafe_expiration d now n
    | safeImmediateExpiry => exact safeImmediate_of_noOverrun d now n h
    | safeQuantizedExpiry => exact safeQuantized_of_noOverrun d now n hd h
  followed x := x.followed d

/-- A clock that overruns once. -/
theorem policies_compared_overrun :
    Compared 10 (fun i => if i = 2 then 57 else 0) 3 :=
  policies_compared 10 (by decide) _ 3

end BaremetalSenders.Periodic
