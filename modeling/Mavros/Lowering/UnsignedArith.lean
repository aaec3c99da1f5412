/-
# `Mavros.Lowering.UnsignedArith` — unsigned addition, subtraction and multiplication

The check of the result is exact as long as the exact result lies in a window that does
not wrap into the type.  A product of two 128-bit numbers need not: the assertion on the
product's interval bounds its length, not its place.

## What is proved

* `processArith_unsigned_exact`: for every width up to 128, kind, guard and interval, the lowered
  addition, subtraction and multiplication is exact (`UnsignedSpec`) exactly unless the guard is on
  and a product is at least the modulus with a residue that is of the type.
* `processArith_mul_wraps`: such a product.

## How it goes

`processArith_unsigned` reduces all three kinds to one: the exact result, an interval that contains
it, and the check of `checkUnsigned`.  The check passes exactly when the residue has the type
(`checkUnsigned_eq_some`), or is left out because the interval says so; so what remains is when the
residue has the type although the result has not (`exactResult_residue`).

## What exact means

`Exact`: the checks can be passed exactly when the exact result has the type, and then with its
encoding only.  Both directions are about every prover and some prover; the hints are not used,
for the operation leaves the prover nothing to write.
-/
import Mavros.Lowering.IntegerArith

namespace Mavros.Lowering

open Lib Lib.Circuit
open Hlssa (IntInterval BinaryArithOpKind)

/-! ## What a lowered operation should do -/

/-- Some prover passes the checks with the result. -/
def Accepts (c : Gadget Fr Fr) (r : Fr) : Prop := ∃ σ P s t, c σ P s = some (r, t)

/-- The checks can be passed exactly when the exact result has the type, and then only with
its encoding. -/
def Exact (c : Gadget Fr Fr) (z : Int) (lo hi : Int) (encode : Int → Fr) : Prop :=
  ((∃ r, Accepts c r) ↔ lo ≤ z ∧ z < hi) ∧ ∀ r, Accepts c r → r = encode z

theorem accepts_of_possible {c : Gadget Fr Fr} {r : Fr} (h : c.Possible r) : Accepts c r := by
  obtain ⟨xs, h⟩ := h
  exact ⟨List Fr, .replay, xs ++ [], [], h []⟩

/-- The exact result of an operation. -/
def exactResult (kind : BinaryArithOpKind) (x y : Int) : Int :=
  match kind with
  | .add => x + y
  | .sub => x - y
  | .mul => x * y
  | _ => 0

/-- Addition, subtraction or multiplication. -/
def IsLinearOrMul (kind : BinaryArithOpKind) : Prop := kind = .add ∨ kind = .sub ∨ kind = .mul

/-! ## The width of the check -/

section Width

variable {range : IntInterval} {bits : Nat} {z : Int}

/-- Where the interval does not fit the type, the check is of the type's width. -/
theorem narrowRangecheckWidth_of_not_fits (h : range.Contains z)
    (hfits : ¬range.fitsInUnsignedBits bits) : narrowRangecheckWidth range bits = bits := by
  unfold narrowRangecheckWidth unsignedBitWidth
  obtain ⟨lo, hi⟩ := range
  cases lo with
  | none => rfl
  | some lo =>
    cases hi with
    | none => rfl
    | some hi =>
      simp only [Option.bind_eq_bind, Option.bind_some]
      by_cases hlo : lo < 0
      · simp [hlo]
      · have hhi : (2 : Int) ^ bits ≤ hi := by
          by_contra hhi
          exact hfits (by simp [IntInterval.fitsInUnsignedBits]; omega)
        have hsize : bits < Nat.size hi.natAbs := by
          rw [Nat.lt_size]
          have hcast : ((2 ^ bits : Nat) : Int) ≤ hi := by exact_mod_cast hhi
          omega
        simp only [hlo, if_false]
        omega

end Width

/-! ## Exactness

Windows around the type.
-/

section Exactness

variable {guard : Option Fr} {range : IntInterval} {bits : Nat} {z : Int}

/-- A checked result passes exactly when its residue has the type. -/
theorem checkUnsigned_eq_some {σ : Type} (hguard : Active guard) (hz : range.Contains z)
    (hbits : bits ≤ 253) {s : σ} {r : Fr × σ} :
    checkUnsigned (z : Fr) range bits guard s = some r ↔
      (z : Fr).val < 2 ^ bits ∧ r = ((z : Fr), s) := by
  unfold checkUnsigned
  rw [guardedOrZeroField_of_active hguard]
  by_cases hfits : range.fitsInUnsignedBits bits
  · have hval : (z : Fr).val < 2 ^ bits := by
      have hmod : (2 : Int) ^ bits < modulus := by exact_mod_cast two_pow_lt_modulus hbits
      obtain ⟨h0, hlt⟩ := hz.fitsInUnsignedBits hfits
      exact (val_intCast_lt (by omega) (by omega)).mpr ⟨h0, hlt⟩
    simp only [hfits, Bool.not_true, Bool.false_eq_true, if_false, hval, true_and]
    exact pure_eq_some
  · rw [narrowRangecheckWidth_of_not_fits hz hfits]
    simp only [hfits, Bool.not_false, if_true]
    constructor
    · intro h
      obtain ⟨_, t, hcheck, hpure⟩ := bind_eq_some.mp h
      obtain ⟨hval, ht⟩ := (guardedRangecheck_eq_some hguard).mp hcheck
      obtain ⟨-, rfl⟩ := Prod.mk.inj ht
      exact ⟨hval, pure_eq_some.mp hpure⟩
    · rintro ⟨hval, rfl⟩
      exact bind_run (guardedRangecheck_run hval s)

theorem checkUnsigned_inactive {σ : Type} (value : Fr) (s : σ) :
    checkUnsigned value range bits (some 0) s = some (0, s) := by
  unfold checkUnsigned
  split <;> rfl

/-- What an unsigned operation with the exact result `z` has to do. -/
structure UnsignedSpec (c : Gadget Fr Fr) (guard : Option Fr) (bits : Nat) (z : Int) : Prop where
  active : Active guard → Exact c z 0 (2 ^ bits) fun z => (z : Fr)
  inactive : guard = some 0 → Accepts c 0 ∧ ∀ r, Accepts c r → r = 0

theorem accepts_checkUnsigned (hguard : Active guard) (hz : range.Contains z) (hbits : bits ≤ 253)
    {r : Fr} :
    Accepts (fun _ _ => checkUnsigned (z : Fr) range bits guard) r ↔
      (z : Fr).val < 2 ^ bits ∧ r = z := by
  constructor
  · rintro ⟨σ, P, s, t, h⟩
    obtain ⟨hval, h⟩ := (checkUnsigned_eq_some hguard hz hbits).mp h
    exact ⟨hval, (Prod.mk.inj h).1⟩
  · rintro ⟨hval, rfl⟩
    exact ⟨Unit, .honest, (), (), (checkUnsigned_eq_some hguard hz hbits).mpr ⟨hval, rfl⟩⟩

/-- The checks of an operation are exact when the residue of its exact result has the type
only where the result has. -/
theorem unsignedSpec_checkUnsigned (hz : range.Contains z) (hbits : bits ≤ 253) :
    UnsignedSpec (fun _ _ => checkUnsigned (z : Fr) range bits guard) guard bits z ↔
      (Active guard → ((z : Fr).val < 2 ^ bits ↔ 0 ≤ z ∧ z < 2 ^ bits)) := by
  constructor
  · intro h hguard
    refine Iff.trans ?_ (h.active hguard).1
    refine ⟨fun hval => ⟨z, (accepts_checkUnsigned hguard hz hbits).mpr ⟨hval, rfl⟩⟩, ?_⟩
    rintro ⟨r, hr⟩
    exact ((accepts_checkUnsigned hguard hz hbits).mp hr).1
  · intro h
    refine ⟨fun hguard => ⟨?_, fun r hr => ?_⟩, ?_⟩
    · rw [← h hguard]
      refine ⟨?_, fun hval => ⟨z, (accepts_checkUnsigned hguard hz hbits).mpr ⟨hval, rfl⟩⟩⟩
      rintro ⟨r, hr⟩
      exact ((accepts_checkUnsigned hguard hz hbits).mp hr).1
    · exact ((accepts_checkUnsigned hguard hz hbits).mp hr).2
    · rintro rfl
      refine ⟨⟨Unit, .honest, (), (), checkUnsigned_inactive _ ()⟩, ?_⟩
      rintro r ⟨σ, P, s, t, hr⟩
      exact (Prod.mk.inj (Option.some.inj ((checkUnsigned_inactive _ s).symm.trans hr))).1.symm

/-- What a lowered operation checks: its exact result against an interval that contains it. -/
theorem processArith_unsigned {kind : BinaryArithOpKind} (hkind : IsLinearOrMul kind)
    {lhs rhs : Operand} (hl : lhs.range.Contains lhs.value.val)
    (hr : rhs.range.Contains rhs.value.val) {c : Gadget Fr Fr}
    (hc : processArith guard kind lhs rhs bits false = some c) :
    ∃ range : IntInterval, range.Contains (exactResult kind lhs.value.val rhs.value.val) ∧
      c = fun _ _ => checkUnsigned (exactResult kind lhs.value.val rhs.value.val : Int) range bits
        guard := by
  unfold processArith at hc
  split at hc
  · rcases hkind with rfl | rfl | rfl
    · obtain rfl := Option.some.inj hc
      exact ⟨_, hl.add hr, by simp [exactResult]⟩
    · obtain rfl := Option.some.inj hc
      exact ⟨_, hl.sub hr, by simp [exactResult]⟩
    · simp only [Bool.false_eq_true, if_false, lowerUnsignedMul] at hc
      split at hc
      · obtain rfl := Option.some.inj hc
        exact ⟨_, hl.mul hr, by simp [exactResult]⟩
      · simp at hc
  · simp at hc

/-- Sums and differences lie in the window around the type, products below the modulus do. -/
theorem exactResult_residue {kind : BinaryArithOpKind} (hkind : IsLinearOrMul kind)
    {x y : Nat} (hx : x < 2 ^ bits) (hy : y < 2 ^ bits) (hbits : bits ≤ 128) :
    (((exactResult kind x y : Int) : Fr).val < 2 ^ bits ↔
        0 ≤ exactResult kind x y ∧ exactResult kind x y < 2 ^ bits) ↔
      (kind = .mul → ¬(modulus ≤ x * y ∧ x * y % modulus < 2 ^ bits)) := by
  have hpow : 2 ^ bits ≤ 2 ^ 128 := Nat.pow_le_pow_right (by norm_num) hbits
  have hcast : ((2 ^ bits : Nat) : Int) = 2 ^ bits := by push_cast; rfl
  have hmod : (2 : Nat) ^ 253 < modulus := two_pow_lt_modulus le_rfl
  have hwindow : ∀ z : Int, -(2 ^ 128 : Int) ≤ z → z < 2 ^ 129 →
      ((z : Fr).val < 2 ^ bits ↔ 0 ≤ z ∧ z < 2 ^ bits) := by
    intro z hlo hhi
    have hmod' : (2 : Int) ^ 253 < modulus := by exact_mod_cast hmod
    have hpow' : (2 : Int) ^ bits ≤ 2 ^ 128 := by exact_mod_cast hpow
    exact val_intCast_lt (by omega) (by omega)
  rcases hkind with rfl | rfl | rfl
  · refine iff_of_true (hwindow _ ?_ ?_) (by simp) <;> simp only [exactResult] <;> omega
  · refine iff_of_true (hwindow _ ?_ ?_) (by simp) <;> simp only [exactResult] <;> omega
  · have hval : (((exactResult .mul x y : Int)) : Fr).val = x * y % modulus := by
      rw [exactResult, ← Nat.cast_mul, Int.cast_natCast, ZMod.val_natCast]
    have hrange : (0 ≤ exactResult .mul (x : Int) y ∧ exactResult .mul (x : Int) y < 2 ^ bits) ↔
        x * y < 2 ^ bits := by
      rw [exactResult, ← Nat.cast_mul, ← hcast, Int.ofNat_lt]
      omega
    rw [hval, hrange]
    simp only [forall_const, not_and]
    have hbelow : x * y < modulus → x * y % modulus = x * y := Nat.mod_eq_of_lt
    constructor
    · intro h hge hlt
      have := h.mp hlt
      omega
    · intro h
      rcases lt_or_ge (x * y) modulus with hlt | hge
      · rw [hbelow hlt]
      · have := h hge
        omega

/-- The lowered addition, subtraction and multiplication are exact, apart from products that
wrap into the type. -/
theorem processArith_unsigned_exact (kind : BinaryArithOpKind) (hkind : IsLinearOrMul kind)
    (lhs rhs : Operand) (bits : Nat) (hbits : bits ≤ 128) (hlhs : InType bits lhs.value)
    (hrhs : InType bits rhs.value) (hl : lhs.range.Contains lhs.value.val)
    (hr : rhs.range.Contains rhs.value.val) (guard : Option Fr) (c : Gadget Fr Fr)
    (hc : processArith guard kind lhs rhs bits false = some c) :
    UnsignedSpec c guard bits (exactResult kind lhs.value.val rhs.value.val) ↔
      (Active guard → kind = .mul → ¬(modulus ≤ lhs.value.val * rhs.value.val ∧
        lhs.value.val * rhs.value.val % modulus < 2 ^ bits)) := by
  obtain ⟨range, hrange, rfl⟩ := processArith_unsigned hkind hl hr hc
  rw [unsignedSpec_checkUnsigned hrange (by omega)]
  exact imp_congr_right fun _ => exactResult_residue hkind hlhs hrhs hbits

/-! ### A product that wraps -/

/-- The least `y` with `2 ^ 127 * y` above the modulus. -/
def wrapFactor : Nat := modulus / 2 ^ 127 + 1

def wrapLhs : Operand := ⟨0, (2 ^ 127 : Nat), false, .singleton (2 ^ 127)⟩

/-- A byte plus a constant. -/
def wrapRhs : Operand := ⟨1, (wrapFactor : Nat), true, .closed wrapFactor (wrapFactor + 255)⟩

theorem wrapLhs_val : wrapLhs.value.val = 2 ^ 127 :=
  ZMod.val_natCast_of_lt (two_pow_lt_modulus (by omega))

theorem wrapRhs_val : wrapRhs.value.val = wrapFactor :=
  ZMod.val_natCast_of_lt (by norm_num [wrapFactor, modulus])

/-- A product above the modulus passes the check of its width. -/
theorem processArith_mul_wraps : ∃ c, processArith none .mul wrapLhs wrapRhs 128 false = some c ∧
    InType 128 wrapLhs.value ∧ InType 128 wrapRhs.value ∧
    wrapLhs.range.Contains wrapLhs.value.val ∧ wrapRhs.range.Contains wrapRhs.value.val ∧
    2 ^ 128 ≤ wrapLhs.value.val * wrapRhs.value.val ∧ (∃ r, Accepts c r) ∧
    ¬UnsignedSpec c none 128 (exactResult .mul wrapLhs.value.val wrapRhs.value.val) := by
  have hwraps : modulus ≤ 2 ^ 127 * wrapFactor ∧ 2 ^ 127 * wrapFactor % modulus < 2 ^ 128 ∧
      wrapFactor < 2 ^ 128 := by decide +kernel
  have hl : InType 128 wrapLhs.value := by rw [InType, wrapLhs_val]; norm_num
  have hr : InType 128 wrapRhs.value := by rw [InType, wrapRhs_val]; exact hwraps.2.2
  have hcl : wrapLhs.range.Contains wrapLhs.value.val := by
    rw [wrapLhs_val]
    exact IntInterval.contains_singleton
  have hcr : wrapRhs.range.Contains wrapRhs.value.val := by
    rw [wrapRhs_val]
    exact IntInterval.contains_closed (le_refl _) (by omega)
  have hfits : rangeFitsFieldInjectively (wrapLhs.range.mul wrapRhs.range) = true := by
    decide +kernel
  obtain ⟨c, hc⟩ : ∃ c, processArith none .mul wrapLhs wrapRhs 128 false = some c :=
    ⟨_, if_pos hfits⟩
  obtain ⟨range, hrange, rfl⟩ := processArith_unsigned (.inr (.inr rfl)) hcl hcr hc
  have hresidue := exactResult_residue (.inr (.inr rfl)) hl hr (le_refl 128)
  refine ⟨_, hc, hl, hr, hcl, hcr, ?_, ?_, fun hspec => ?_⟩
  · rw [wrapLhs_val, wrapRhs_val]
    exact (by norm_num [modulus] : 2 ^ 128 ≤ modulus).trans hwraps.1
  · have hval : ((exactResult .mul (wrapLhs.value.val : Int) wrapRhs.value.val : Int) : Fr).val
        < 2 ^ 128 := by
      rw [exactResult, ← Nat.cast_mul, Int.cast_natCast, ZMod.val_natCast, wrapLhs_val, wrapRhs_val]
      exact hwraps.2.1
    exact ⟨_, (accepts_checkUnsigned (.inl rfl) hrange (by omega)).mpr ⟨hval, rfl⟩⟩
  · refine hresidue.mp ((unsignedSpec_checkUnsigned hrange (by omega)).mp hspec (.inl rfl)) rfl ?_
    rw [wrapLhs_val, wrapRhs_val]
    exact ⟨hwraps.1, hwraps.2.1⟩

def byteOperand (id : Nat) (x : Nat) : Operand := ⟨id, (x : Nat), true, .closed 0 255⟩

theorem processArith_unsigned_exact_bytes :
    ∃ c, processArith none .add (byteOperand 0 200) (byteOperand 1 100) 8 false = some c ∧
      (UnsignedSpec c none 8 (exactResult .add (byteOperand 0 200).value.val
          (byteOperand 1 100).value.val) ↔
        (Active none → BinaryArithOpKind.add = .mul →
          ¬(modulus ≤ (byteOperand 0 200).value.val * (byteOperand 1 100).value.val ∧
            (byteOperand 0 200).value.val * (byteOperand 1 100).value.val % modulus < 2 ^ 8))) := by
  have hval : ∀ id x, x < 2 ^ 8 → (byteOperand id x).value.val = x := fun id x hx =>
    ZMod.val_natCast_of_lt (hx.trans (two_pow_lt_modulus (by omega)))
  have hin : ∀ id x, x < 2 ^ 8 → InType 8 (byteOperand id x).value := fun id x hx => by
    rw [InType, hval id x hx]
    exact hx
  have hcontains : ∀ id x, x < 2 ^ 8 →
      (byteOperand id x).range.Contains (byteOperand id x).value.val := fun id x hx => by
    rw [hval id x hx]
    exact IntInterval.contains_closed (by omega) (by omega)
  exact ⟨_, rfl, processArith_unsigned_exact .add (.inl rfl) _ _ 8 (by omega)
    (hin 0 200 (by omega)) (hin 1 100 (by omega)) (hcontains 0 200 (by omega))
    (hcontains 1 100 (by omega)) none _ rfl⟩

end Exactness

end Mavros.Lowering
