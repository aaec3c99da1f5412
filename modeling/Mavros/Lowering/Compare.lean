/-
# `Mavros.Lowering.Compare` — comparisons of witnesses

`LowerWitnessCompareOps`.  Equality writes its result `r` and divides `1 - r` by the
difference: with a difference the product `difference · r` vanishes, without one `1 - r` does.
Less-than writes its result too, and the difference it selects must have the width.  The hint
of an equality is computed on one word of the frame, the lowest limb of a field element in
Montgomery form, and that is not all of it.

## What is proved

* `processCmp_exact`: a comparison is exact (`CompareExact`: every prover is held to the relation,
  and the hints pass) exactly where field elements that differ do so in their lowest limb.
* `processCmp_sound`: it is sound always.  What fails is the honest prover, who writes the hint.
* `processCmp_counterexample`: two elements whose lowest limbs are both zero.

## How it goes

Soundness of the equality is two products with a quotient that the prover is free to choose
(`lowerEq_ensures`); the quotient of two witnesses is a gadget of its own, from
`Mavros.Lowering.FieldDivision`.  For less-than the result selects the difference or its
opposite, and the one that is selected has the width exactly when the result is right
(`selectedDelta_iff`).  Signed operands are compared by their sign bits first (`signedResult_eq`).
-/
import Mavros.Hlssa.Types
import Mavros.Lowering.Bitwise
import Mavros.Lowering.FieldDivision
import Mavros.Lowering.SignedEncoding
import Mavros.VM.Cell

namespace Mavros.Lowering

open Lib Lib.Circuit
open Hlssa (CmpKind TypeExpr)

/-! ## The gadgets -/

def boolField (p : Prop) [Decidable p] : Fr := if p then 1 else 0

/-- `EqU64` on two operands of the type: one word of each is read. -/
def eqHint (type : TypeExpr) (lhs rhs : Fr) : Fr :=
  match type with
  | .field => boolField ((Cell.ofFr lhs).limb0 = (Cell.ofFr rhs).limb0)
  | _ => boolField (lhs = rhs)

section Definitions

variable {σ : Type} (P : Prover Fr σ)

/-- `lower_eq`.  The quotient is one of two witnesses. -/
def lowerEq (type : TypeExpr) (lhs rhs : Fr) : Circuit σ Fr := do
  let diff := lhs - rhs
  let result ← writeWitness P (some (eqHint type lhs rhs))
  let notResult := 1 - result
  let quotient ← lowerFieldDiv P notResult diff true true none
  constrain diff (quotient + result) notResult
  return result

/-- `lower_unsigned_lt`. -/
def lowerUnsignedLt (guard : Option Fr) (lhs rhs : Fr) (bits : Nat) : Circuit σ Fr := do
  let resultHint := boolField ((castHint bits lhs).val < (castHint bits rhs).val)
  let result ← writeWitness P (some resultHint)
  guardedRangecheck result 1 guard
  let trueDelta := rhs - lhs - 1
  let falseDelta := lhs - rhs
  let selectedAdjustment := result * (trueDelta - falseDelta)
  guardedRangecheck (falseDelta + selectedAdjustment) bits guard
  return result

/-- `sign_bit`. -/
def lowerSignBit (x : Operand) (bits : Nat) : Circuit σ Fr :=
  lowerBitRange P x.value x.isWitness bits (bits - 1) 1

/-- `lower_signed_lt`. -/
def lowerSignedLt (guard : Option Fr) (lhs rhs : Operand) (bits : Nat) : Circuit σ Fr := do
  let signL ← lowerSignBit P lhs bits
  let signR ← lowerSignBit P rhs bits
  let signsDiffer ← lowerU1Bitwise .xor signL signR
  let unsignedResult ← lowerUnsignedLt P guard lhs.value rhs.value bits
  return guardedOrZeroField (select signsDiffer signL unsignedResult) guard

/-- `process_cmp`, on operands of a type; `lower_lt` panics on others. -/
def processCmp (guard : Option Fr) (kind : CmpKind) (type : TypeExpr) (lhs rhs : Operand) :
    Circuit σ Fr :=
  match kind, type with
  | .eq, type => lowerEq P type lhs.value rhs.value
  | .lt, .u bits => lowerUnsignedLt P guard lhs.value rhs.value bits
  | .lt, .i bits => lowerSignedLt P guard lhs rhs bits
  | .lt, _ => failure

end Definitions

/-! ## Equality -/

section Equality

variable {σ : Type} {P : Prover Fr σ} {type : TypeExpr} {lhs rhs : Fr}

/-- Whatever the quotient, the result is whether there is no difference. -/
theorem lowerEq_ensures :
    Ensures (lowerEq P type lhs rhs) fun r => r = boolField (lhs = rhs) := by
  unfold lowerEq
  refine .bind .any fun r _ => .bind lowerFieldDiv_ensures fun quotient hquotient =>
    .bind ensures_constrain fun _ hresult => .pure ?_
  rw [guardValue, mul_one] at hquotient
  unfold boolField
  split
  · next heq =>
    rw [heq, sub_self, zero_mul] at hresult
    exact (sub_eq_zero.mp hresult.symm).symm
  · next hne =>
    have hprod : (lhs - rhs) * r = 0 := by linear_combination hresult - hquotient
    exact (mul_eq_zero.mp hprod).resolve_left (sub_ne_zero.mpr hne)

theorem lowerEq_completes (h : eqHint type lhs rhs = boolField (lhs = rhs)) :
    Gadget.Completes (fun _ P => lowerEq P type lhs rhs) (boolField (lhs = rhs)) := by
  unfold lowerEq
  rw [h]
  refine (completes_writeWitness _).bind ((lowerFieldDiv_completes (.inl rfl) ?_).bind
    ((completes_constrain ?_).bind .pure))
  all_goals
    unfold boolField divField
    by_cases heq : lhs = rhs
    · simp [heq, guardValue]
    · have hdiff : lhs - rhs ≠ 0 := sub_ne_zero.mpr heq
      simp [heq, hdiff, guardValue]

/-- The honest result is the hint. -/
theorem lowerEq_honest :
    Ensures (lowerEq .honest type lhs rhs) fun r => r = eqHint type lhs rhs := by
  have hwrite := ensures_honest_writeWitness (eqHint type lhs rhs)
  exact hwrite.bind fun r hr => .bind .any fun _ _ => .bind .any fun _ _ => .pure hr

end Equality

/-! ## Less than -/

section LessThan

variable {σ : Type} {P : Prover Fr σ} {guard : Option Fr} {bits : Nat} {lhs rhs : Fr}

/-- The difference selected by a result has the width when the result is right. -/
theorem selectedDelta_iff (hbits : bits ≤ 252) (hlhs : InType bits lhs) (hrhs : InType bits rhs)
    (b : Bool) :
    ((lhs - rhs) + boolField b * ((rhs - lhs - 1) - (lhs - rhs))).val < 2 ^ bits ↔
      (b = true ↔ lhs.val < rhs.val) := by
  have hlt : lhs.val < 2 ^ bits := hlhs
  have hlt' : rhs.val < 2 ^ bits := hrhs
  have hmod : (2 : Int) ^ bits + 2 ^ bits ≤ modulus := by
    have hpow : (2 : Nat) ^ (bits + 1) < modulus := two_pow_lt_modulus (by omega)
    rw [pow_succ] at hpow
    have hcast : ((2 ^ bits * 2 : Nat) : Int) < modulus := by exact_mod_cast hpow
    push_cast at hcast
    omega
  have hpowcast : ((2 ^ bits : Nat) : Int) = 2 ^ bits := by push_cast; rfl
  cases b with
  | false =>
    have hcast : (lhs - rhs) + boolField (false = true) * ((rhs - lhs - 1) - (lhs - rhs))
        = ((lhs.val - rhs.val : Int) : Fr) := by
      push_cast
      rw [natCast_val, natCast_val]
      simp [boolField]
    rw [hcast, val_intCast_lt (by omega) (by omega)]
    simp only [Bool.false_eq_true, false_iff]
    omega
  | true =>
    have hcast : (lhs - rhs) + boolField (true = true) * ((rhs - lhs - 1) - (lhs - rhs))
        = ((rhs.val - lhs.val - 1 : Int) : Fr) := by
      push_cast
      rw [natCast_val, natCast_val]
      simp [boolField]
    rw [hcast, val_intCast_lt (by omega) (by omega)]
    simp only [true_iff]
    omega

theorem lowerUnsignedLt_ensures (hguard : Active guard) (hbits : bits ≤ 252)
    (hlhs : InType bits lhs) (hrhs : InType bits rhs) :
    Ensures (lowerUnsignedLt P guard lhs rhs bits) fun r =>
      r = boolField (lhs.val < rhs.val) := by
  unfold lowerUnsignedLt
  refine .bind .any fun r _ => .bind (ensures_guardedRangecheck hguard) fun _ hbit =>
    .bind (ensures_guardedRangecheck hguard) fun _ hdelta => .pure ?_
  obtain ⟨b, rfl⟩ : ∃ b : Bool, r = boolField b := by
    rcases eq_zero_or_one_of_val_lt hbit with rfl | rfl
    · exact ⟨false, rfl⟩
    · exact ⟨true, rfl⟩
  have hb := (selectedDelta_iff hbits hlhs hrhs b).mp hdelta
  unfold boolField
  exact if_congr hb rfl rfl

theorem lowerUnsignedLt_completes (hbits : bits ≤ 252) (hlhs : InType bits lhs)
    (hrhs : InType bits rhs) :
    Gadget.Completes (fun _ P => lowerUnsignedLt P guard lhs rhs bits)
      (boolField (lhs.val < rhs.val)) := by
  unfold lowerUnsignedLt
  rw [castHint_of_inType hlhs, castHint_of_inType hrhs]
  have hbit : (boolField (lhs.val < rhs.val)).val < 2 ^ 1 := by
    unfold boolField
    split <;> decide +kernel
  have hdelta := (selectedDelta_iff hbits hlhs hrhs (decide (lhs.val < rhs.val))).mpr
    decide_eq_true_iff
  simp only [decide_eq_true_eq] at hdelta
  exact (completes_writeWitness _).bind ((completes_guardedRangecheck hbit).bind
    ((completes_guardedRangecheck hdelta).bind .pure))

end LessThan

/-! ### Signed -/

section Signed

variable {σ : Type} {P : Prover Fr σ} {guard : Option Fr} {bits : Nat} {x : Operand}
  {lhs rhs : Operand}

theorem lowerSignBit_ensures (hbits : 1 ≤ bits) (h : bits ≤ 128) (hx : InType bits x.value) :
    Ensures (lowerSignBit P x bits) fun r => r = signOf (decode bits x.value) := by
  rw [← topBit_eq_signOf hbits hx]
  exact lowerBitRange_ensures _ (by omega) h

theorem lowerSignBit_completes (hbits : 1 ≤ bits) (h : bits ≤ 128) (hx : InType bits x.value) :
    Gadget.Completes (fun _ P => lowerSignBit P x bits) (signOf (decode bits x.value)) := by
  rw [← topBit_eq_signOf hbits hx]
  exact lowerBitRange_completes _ hx (by omega) h

theorem inType_signOf (z : Int) : InType 1 (signOf z) := by
  rcases signOf_eq_zero_or_one z with h | h <;> rw [h, InType] <;> decide +kernel

/-- Of different signs the left one decides, of the same sign the encodings are in order. -/
theorem signedResult_eq {a b : Fr} (hbits : 1 ≤ bits) (ha : InType bits a) (hb : InType bits b) :
    select ((bitwise .xor (signOf (decode bits a)).val (signOf (decode bits b)).val : Nat) : Fr)
        (signOf (decode bits a)) (boolField (a.val < b.val))
      = boolField (decode bits a < decode bits b) := by
  have hone : (1 : Fr).val = 1 := rfl
  have hpow := two_pow_succ_pred hbits
  have hcast : ((2 ^ (bits - 1) : Nat) : Int) = 2 ^ (bits - 1) := by push_cast; rfl
  have halt : (a.val : Int) < 2 ^ bits := by exact_mod_cast ha
  have hblt : (b.val : Int) < 2 ^ bits := by exact_mod_cast hb
  by_cases hneg : a.val < 2 ^ (bits - 1) <;> by_cases hneg' : b.val < 2 ^ (bits - 1)
  · have hlt : decode bits a < decode bits b ↔ a.val < b.val := by
      simp only [decode, if_pos hneg, if_pos hneg']
      omega
    simp [signOf, (decode_nonneg hneg).not_gt, (decode_nonneg hneg').not_gt, bitwise, select,
      boolField, hlt]
  · have hgt : ¬decode bits a < decode bits b :=
      not_lt.mpr ((decode_neg hb hneg').le.trans (decode_nonneg hneg))
    simp [signOf, (decode_nonneg hneg).not_gt, decode_neg hb hneg', bitwise, select, boolField,
      hgt, hone]
  · have hlt : decode bits a < decode bits b := (decode_neg ha hneg).trans_le (decode_nonneg hneg')
    simp [signOf, (decode_nonneg hneg').not_gt, decode_neg ha hneg, bitwise, select, boolField,
      hlt, hone]
  · have hlt : decode bits a < decode bits b ↔ a.val < b.val := by
      simp only [decode, if_neg hneg, if_neg hneg']
      omega
    simp [signOf, decode_neg ha hneg, decode_neg hb hneg', bitwise, select, boolField, hlt]

theorem lowerSignedLt_ensures (hguard : Active guard) (hbits : 1 ≤ bits) (h : bits ≤ 128)
    (hlhs : InType bits lhs.value) (hrhs : InType bits rhs.value) :
    Ensures (lowerSignedLt P guard lhs rhs bits) fun r =>
      r = boolField (decode bits lhs.value < decode bits rhs.value) := by
  unfold lowerSignedLt
  refine .bind (lowerSignBit_ensures hbits h hlhs) fun signL hl =>
    .bind (lowerSignBit_ensures hbits h hrhs) fun signR hr => ?_
  subst hl hr
  rw [lowerU1Bitwise_eq (.inr (.inr rfl)) (inType_signOf _) (inType_signOf _), pure_bind]
  refine .bind (lowerUnsignedLt_ensures hguard (by omega) hlhs hrhs) fun r hr => .pure ?_
  rw [hr, guardedOrZeroField_of_active hguard, signedResult_eq hbits hlhs hrhs]

theorem lowerSignedLt_completes (hguard : Active guard) (hbits : 1 ≤ bits) (h : bits ≤ 128)
    (hlhs : InType bits lhs.value) (hrhs : InType bits rhs.value) :
    Gadget.Completes (fun _ P => lowerSignedLt P guard lhs rhs bits)
      (boolField (decode bits lhs.value < decode bits rhs.value)) := by
  unfold lowerSignedLt
  rw [← signedResult_eq hbits hlhs hrhs]
  refine (lowerSignBit_completes hbits h hlhs).bind ((lowerSignBit_completes hbits h hrhs).bind ?_)
  simp only [lowerU1Bitwise_eq (.inr (.inr rfl)) (inType_signOf _) (inType_signOf _), pure_bind,
    guardedOrZeroField_of_active hguard]
  exact (lowerUnsignedLt_completes (by omega) hlhs hrhs).bind .pure

end Signed

/-! ## Comparisons

Both kinds over all types.
-/

section Spec

variable {guard : Option Fr} {kind : CmpKind} {type : TypeExpr} {lhs rhs : Operand}

/-- The types a comparison is lowered for. -/
def Comparable : CmpKind → TypeExpr → Prop
  | .eq, .field => True
  | _, .u bits | _, .i bits => 1 ≤ bits ∧ bits ≤ 128
  | _, _ => False

/-- A value of the type. -/
def OfType : TypeExpr → Fr → Prop
  | .u bits, x | .i bits, x => InType bits x
  | _, _ => True

/-- The relation between two values of a type. -/
def Holds : CmpKind → TypeExpr → Fr → Fr → Prop
  | .eq, _, a, b => a = b
  | .lt, .i bits, a, b => decode bits a < decode bits b
  | .lt, _, a, b => a.val < b.val

instance decidableHolds : ∀ (kind : CmpKind) (type : TypeExpr) (a b : Fr),
    Decidable (Holds kind type a b)
  | .eq, _, a, b => inferInstanceAs (Decidable (a = b))
  | .lt, .i bits, a, b => inferInstanceAs (Decidable (decode bits a < decode bits b))
  | .lt, .u _, a, b | .lt, .field, a, b | .lt, .witnessOf _, a, b | .lt, .array _ _, a, b
  | .lt, .slice _, a, b | .lt, .ref _, a, b | .lt, .tuple _, a, b | .lt, .function, a, b =>
    inferInstanceAs (Decidable (a.val < b.val))

/-- Every prover is held to the relation, and the hints pass. -/
structure CompareExact (guard : Option Fr) (kind : CmpKind) (type : TypeExpr) (lhs rhs : Operand) :
    Prop where
  sound : ∀ (σ : Type) (P : Prover Fr σ), Ensures (processCmp P guard kind type lhs rhs) fun r =>
    r = boolField (Holds kind type lhs.value rhs.value)
  complete : Gadget.Completes (fun _ P => processCmp P guard kind type lhs rhs)
    (boolField (Holds kind type lhs.value rhs.value))

/-- Different field elements differ in the limb that is compared. -/
def FirstLimbDecides (kind : CmpKind) (type : TypeExpr) (a b : Fr) : Prop :=
  kind = .eq → type = .field → (Cell.ofFr a).limb0 = (Cell.ofFr b).limb0 → a = b

theorem processCmp_sound (hguard : Active guard) (htype : Comparable kind type)
    (hlhs : OfType type lhs.value) (hrhs : OfType type rhs.value) (σ : Type) (P : Prover Fr σ) :
    Ensures (processCmp P guard kind type lhs rhs) fun r =>
      r = boolField (Holds kind type lhs.value rhs.value) := by
  cases kind with
  | eq => exact lowerEq_ensures
  | lt =>
    cases type with
    | u bits => exact lowerUnsignedLt_ensures hguard (htype.2.trans (by norm_num)) hlhs hrhs
    | i bits => exact lowerSignedLt_ensures hguard htype.1 htype.2 hlhs hrhs
    | _ => exact htype.elim

theorem processCmp_complete (hguard : Active guard) (htype : Comparable kind type)
    (hlhs : OfType type lhs.value) (hrhs : OfType type rhs.value)
    (h : FirstLimbDecides kind type lhs.value rhs.value) :
    Gadget.Completes (fun _ P => processCmp P guard kind type lhs rhs)
      (boolField (Holds kind type lhs.value rhs.value)) := by
  cases kind with
  | eq =>
    refine lowerEq_completes ?_
    cases type with
    | field =>
      have hlimb : (Cell.ofFr lhs.value).limb0 = (Cell.ofFr rhs.value).limb0 ↔
          lhs.value = rhs.value := ⟨h rfl rfl, fun heq => by rw [heq]⟩
      unfold eqHint boolField
      exact if_congr hlimb rfl rfl
    | _ => rfl
  | lt =>
    cases type with
    | u bits => exact lowerUnsignedLt_completes (htype.2.trans (by norm_num)) hlhs hrhs
    | i bits => exact lowerSignedLt_completes hguard htype.1 htype.2 hlhs hrhs
    | _ => exact htype.elim

/-- A comparison is exact but for field elements that are not told apart by their lowest
limbs. -/
theorem processCmp_exact (guard : Option Fr) (kind : CmpKind) (type : TypeExpr)
    (lhs rhs : Operand) (hguard : Active guard) (htype : Comparable kind type)
    (hlhs : OfType type lhs.value) (hrhs : OfType type rhs.value) :
    CompareExact guard kind type lhs rhs ↔ FirstLimbDecides kind type lhs.value rhs.value := by
  constructor
  · rintro ⟨-, hcomplete⟩ rfl rfl hlimb
    have hhint := lowerEq_honest _ _ _ hcomplete.honest
    by_contra hne
    have hfalse : ¬Holds .eq .field lhs.value rhs.value := hne
    rw [boolField, if_neg hfalse, eqHint, boolField, if_pos hlimb] at hhint
    exact absurd hhint zero_ne_one
  · intro h
    exact ⟨processCmp_sound hguard htype hlhs hrhs, processCmp_complete hguard htype hlhs hrhs h⟩

theorem processCmp_exact_signed :
    CompareExact none .lt (.i 8) (fullOperand 8 1 200) (fullOperand 8 2 100) ↔
      FirstLimbDecides .lt (.i 8) (fullOperand 8 1 200).value (fullOperand 8 2 100).value :=
  processCmp_exact none .lt (.i 8) _ _ (.inl rfl) ⟨by norm_num, by norm_num⟩
    (fullOperand_inType (by norm_num) (by norm_num))
    (fullOperand_inType (by norm_num) (by norm_num))

/-- Two elements whose lowest limbs are zero: the hint says they are equal. -/
def zeroLimbs : Operand × Operand :=
  (⟨1, 0, true, .closed 0 0⟩, ⟨2, Cell.toFr (2 ^ 64), true, .closed 0 0⟩)

theorem processCmp_counterexample :
    processCmp .honest none .eq .field zeroLimbs.1 zeroLimbs.2 () = none ∧
      ¬∀ (kind : CmpKind) (type : TypeExpr) (lhs rhs : Operand), Comparable kind type →
        OfType type lhs.value → OfType type rhs.value → CompareExact none kind type lhs rhs := by
  have hrun : processCmp .honest none .eq .field zeroLimbs.1 zeroLimbs.2 () = none := by
    decide +kernel
  refine ⟨hrun, fun hexact => ?_⟩
  have hhonest :=
    (hexact .eq .field zeroLimbs.1 zeroLimbs.2 trivial trivial trivial).complete.honest
  rw [hrun] at hhonest
  cases hhonest

end Spec

end Mavros.Lowering
