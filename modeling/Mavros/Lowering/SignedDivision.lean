/-
# `Mavros.Lowering.SignedDivision` — signed division and remainder

The absolute values are divided, and the signs are put back.  Beside the division of `|a|`
the checks leave those of `|a| + p`, `|a| + 2p`, …, whose quotients must also fit the signed
type; the type of 127 bits is too narrow for the first of them, that of 128 bits is not.

## What is proved

* `lowerSignedDivmod_spec`: for every width up to 128 the division is right (`SignedDivModSpec`)
  exactly if the checks keep out the division of `|a| + p` (`NextPasses`), or an operand is divided
  by itself, which is lowered apart.
* `not_nextPasses`: up to 127 bits they do keep it out.
* `lowerSignedDivmod_wraps`: five by the greatest number of 128 bits has a wrong quotient that
  passes.

## How it goes

A run is a division with remainder of a number that is `|a|` in the field (`SignedDivides`),
followed by the encodings of the two magnitudes with their signs.  All such divisions are possible
(`lowerSignedDivmod_possible`); their quotients grow with the number, so that the first one after
`|a|` decides.  That two quotients are encoded differently is `NextPasses.encode_ne`.

Division truncates towards zero, and the remainder has the sign of the dividend (`Divisible`
excludes the one quotient that does not fit, and division by zero).
-/
import Mavros.Lowering.SignedEncoding
import Mavros.Lowering.UnsignedDivision

namespace Mavros.Lowering

open Lib Lib.Circuit
open Hlssa (IntInterval)

/-! ## Signs and magnitudes -/

def withSign (negative : Bool) (m : Nat) : Int := if negative then -m else m

/-- The sign bit of a result. -/
def signBit (negative : Bool) : Fr := if negative then 1 else 0

/-- A quotient is negative when one of the operands is. -/
def quotientNegative (a b : Int) : Bool := decide (a < 0) != decide (b < 0)

section Magnitude

variable {bits m : Nat} {a b : Int} {negative : Bool}

theorem signOf_eq_signBit (a : Int) : signOf a = signBit (decide (a < 0)) := by
  simp [signOf, signBit]

theorem signBit_xor (x y : Bool) :
    signBit x + signBit y - 2 * (signBit x * signBit y) = signBit (x != y) := by
  cases x <;> cases y <;> simp [signBit]
  norm_num

theorem withSign_natAbs (a : Int) : withSign (decide (a < 0)) a.natAbs = a := by
  unfold withSign
  split
  · next h =>
    have := of_decide_eq_true h
    omega
  · next h =>
    have : ¬a < 0 := fun hlt => h (decide_eq_true hlt)
    omega

theorem tdiv_eq_withSign (a b : Int) :
    a.tdiv b = withSign (quotientNegative a b) (a.natAbs / b.natAbs) := by
  conv_lhs => rw [← withSign_natAbs a, ← withSign_natAbs b]
  generalize a.natAbs = m, b.natAbs = n
  unfold quotientNegative withSign
  cases decide (a < 0) <;> cases decide (b < 0) <;> simp

theorem tmod_eq_withSign (a b : Int) :
    a.tmod b = withSign (decide (a < 0)) (a.natAbs % b.natAbs) := by
  conv_lhs => rw [← withSign_natAbs a, ← withSign_natAbs b]
  generalize a.natAbs = m, b.natAbs = n
  have hmod : (m : Int).tmod n = m % n := Int.tmod_eq_emod_of_nonneg (Int.natCast_nonneg m)
  unfold withSign
  cases decide (a < 0) <;> cases decide (b < 0) <;> simp [hmod]

theorem withSign_cast : ((withSign negative m : Int) : Fr) = m * (1 - 2 * signBit negative) := by
  cases negative
  · simp [withSign, signBit]
  · simp only [withSign, signBit, if_true]
    push_cast
    ring

theorem withSign_injective {m' : Nat} (h : withSign negative m = withSign negative m') :
    m = m' := by
  unfold withSign at h
  split at h <;> omega

theorem InSigned.natAbs_le (h : InSigned bits a) : a.natAbs ≤ 2 ^ (bits - 1) := by
  have hcast : ((2 ^ (bits - 1) : Nat) : Int) = 2 ^ (bits - 1) := by push_cast; rfl
  obtain ⟨hlo, hhi⟩ := h
  omega

theorem InSigned.natAbs_lt (hbits : 1 ≤ bits) (h : InSigned bits a) : a.natAbs < 2 ^ bits :=
  h.natAbs_le.trans_lt (Nat.pow_lt_pow_right (by norm_num) (by omega))

/-- Below a magnitude that fits, all fit. -/
theorem inSigned_withSign_mono {m' : Nat} (h : InSigned bits (withSign negative m))
    (hle : m' ≤ m) : InSigned bits (withSign negative m') := by
  have hpos : (0 : Int) < 2 ^ (bits - 1) := by positivity
  obtain ⟨hlo, hhi⟩ := h
  cases negative
  · simp only [InSigned, withSign, Bool.false_eq_true, if_false] at hlo hhi ⊢
    omega
  · simp only [InSigned, withSign, if_true] at hlo hhi ⊢
    omega

theorem inSigned_withSign_of_lt (h : m < 2 ^ (bits - 1)) (negative : Bool) :
    InSigned bits (withSign negative m) := by
  have hcast : (m : Int) < 2 ^ (bits - 1) := by exact_mod_cast h
  unfold withSign
  split <;> constructor <;> omega

/-- The interval of an absolute value. -/
theorem contains_absBound {range : IntInterval} (h : range.Contains a) :
    (absBound range).Contains a.natAbs := by
  unfold absBound
  split
  · next lo hi hlo hhi =>
    have hl := h.1 lo hlo
    have hh := h.2 hi hhi
    simp only [Int.abs_eq_natAbs]
    split
    · exact IntInterval.contains_closed (by omega) (by omega)
    · exact IntInterval.contains_closed (by omega) (by omega)
  · exact IntInterval.contains_top

end Magnitude

/-! ## Truncated division -/

/-- The divisions that have a result of the type. -/
def Divisible (bits : Nat) (a b : Int) : Prop := b ≠ 0 ∧ ¬(a = -2 ^ (bits - 1) ∧ b = -1)

section Division

variable {bits : Nat} {a b : Int}

theorem inSigned_quotient_iff (ha : InSigned bits a) (hb0 : b ≠ 0) :
    InSigned bits (withSign (quotientNegative a b) (a.natAbs / b.natAbs)) ↔ Divisible bits a b := by
  have hcast : ((2 ^ (bits - 1) : Nat) : Int) = 2 ^ (bits - 1) := by push_cast; rfl
  have hpos : 0 < 2 ^ (bits - 1) := Nat.two_pow_pos _
  constructor
  · rintro ⟨hlo, hhi⟩
    refine ⟨hb0, ?_⟩
    rintro ⟨rfl, rfl⟩
    have hneg : (-2 ^ (bits - 1) : Int) < 0 := by omega
    have hsign : quotientNegative (-2 ^ (bits - 1)) (-1) = false := by simp [quotientNegative]
    rw [hsign] at hhi
    simp only [withSign, Bool.false_eq_true, if_false, Int.natAbs_neg, Int.natAbs_one,
      Nat.div_one] at hhi
    omega
  · rintro ⟨-, hmin⟩
    have hle := ha.natAbs_le
    have hdiv := Nat.div_le_self a.natAbs b.natAbs
    by_cases hfull : a.natAbs / b.natAbs < 2 ^ (bits - 1)
    · exact inSigned_withSign_of_lt hfull _
    · -- the magnitude of the minimum is left by one and minus one alone
      have hb1 : b.natAbs = 1 := by
        by_contra hb1
        have hhalf : a.natAbs / b.natAbs ≤ a.natAbs / 2 :=
          Nat.div_le_div_left (by omega) (by norm_num)
        omega
      obtain ⟨hlo, hhi⟩ := ha
      have ha' : a = -2 ^ (bits - 1) := by omega
      have hb' : b = 1 := by
        by_contra hb'
        exact hmin ⟨ha', by omega⟩
      have hneg : a < 0 := by omega
      have hsign : quotientNegative a b = true := by simp [quotientNegative, hneg, hb']
      rw [hsign]
      constructor <;> simp only [withSign, if_true] <;> omega

end Division

/-! ## The results -/

section Result

variable {σ : Type} {P : Prover Fr σ} {guard : Option Fr} {bits m : Nat} {negative : Bool}

theorem lowerPureBitRangeValue_encode {w : Int} (hbits : 1 ≤ bits) (h : bits ≤ 128)
    (hw : InSigned bits w) : lowerPureBitRangeValue (encode bits w) (bits - 1) 1 = signOf w := by
  rw [lowerPureBitRangeValue_eq (by omega), topBit_eq_signOf hbits (encode_inType hbits h hw),
    decode_encode hbits h hw]

/-- A result is the encoding of the signed magnitude, which fits the type. -/
theorem writeSignedMagnitudeResult_ensures (hbits : 1 ≤ bits) (h : bits ≤ 128)
    (hguard : Active guard) (hm : m < 2 ^ 128) :
    Ensures (writeSignedMagnitudeResult P (m : Fr) (signBit negative) bits guard) fun r =>
      InSigned bits (withSign negative m) ∧ r = encode bits (withSign negative m) := by
  have hmod := two_pow_lt_modulus_int
  unfold writeSignedMagnitudeResult
  rw [← withSign_cast]
  refine (encodeSignedValue_ensures hbits h hguard IntInterval.contains_top).mono fun r hr => ?_
  obtain ⟨w, hw, rfl⟩ := hr
  have hwindow := hw.inSigned.window hbits h
  have hmag : -(2 : Int) ^ 128 < withSign negative m ∧ withSign negative m < 2 ^ 128 := by
    unfold withSign
    split <;> omega
  have heq : w = withSign negative m := eq_of_intCast_eq hw.residue (by omega) (by omega)
  exact ⟨heq ▸ hw.inSigned, by rw [heq]⟩

/-- The hint of the sign passes, also where the magnitude is zero. -/
theorem writeSignedMagnitudeResult_completes (hbits : 1 ≤ bits) (h : bits ≤ 128)
    (hguard : Active guard) (hm : m < 2 ^ 128) (hw : InSigned bits (withSign negative m)) :
    Gadget.Completes (fun _ P => writeSignedMagnitudeResult P (m : Fr)
      (signBit negative) bits guard)
      (encode bits (withSign negative m)) := by
  have hhint : (if (m : Fr) = 0 then 0 else select (signBit negative) (twoPow bits - m) m)
      = encode bits (withSign negative m) := by
    rw [encode_eq hbits hw]
    split
    · next h0 =>
      have hzero : m = 0 := eq_of_natCast_eq (b := 0) (by rw [h0]; simp)
        (hm.trans (two_pow_lt_modulus (by omega))) (by norm_num [modulus])
      subst hzero
      cases negative <;> simp [withSign, signOf]
    · next h0 =>
      have hpos : 0 < m := Nat.pos_of_ne_zero fun hm0 => h0 (by rw [hm0, Nat.cast_zero])
      cases negative
      · simp [withSign, signOf, signBit, select]
      · have hneg : (-m : Int) < 0 := by omega
        simp only [withSign, signOf, signBit, select, if_true, hneg, if_neg one_ne_zero]
        push_cast
        ring
  unfold writeSignedMagnitudeResult
  simp only [hhint, ← withSign_cast, castHint_of_inType (encode_inType hbits h hw)]
  exact encodeSignedValue_completes hbits h hguard (.self IntInterval.contains_top hw)
    (lowerPureBitRangeValue_encode hbits h hw)

end Result

/-! ## The runs

Every division that passes, and every one that may.
-/

section Runs

variable {σ : Type} {P : Prover Fr σ} {lhs rhs : Operand} {bits : Nat} {guard : Option Fr}

/-- The absolute value of an operand, under its name. -/
def absOperand (x : Operand) (bits : Nat) : Operand :=
  { x with value := ((decode bits x.value).natAbs : Nat), range := absBound x.range }

theorem writeAbsValue_signOf {x : Fr} (hx : InType bits x) :
    writeAbsValue x (signOf (decode bits x)) bits = ((decode bits x).natAbs : Nat) := by
  rw [writeAbsValue, signedValueFromEncoded_signOf hx]
  generalize decode bits x = a
  unfold signOf
  split
  · next h =>
    obtain ⟨m, rfl⟩ : ∃ m : Nat, a = -m := ⟨a.natAbs, by omega⟩
    rw [Int.natAbs_neg, Int.natAbs_natCast]
    push_cast
    ring
  · next h =>
    obtain ⟨m, rfl⟩ : ∃ m : Nat, a = m := ⟨a.natAbs, by omega⟩
    rw [Int.natAbs_natCast]
    push_cast
    ring

/-- What both operands promise. -/
structure SignedOperands (lhs rhs : Operand) (bits : Nat) : Prop where
  lhs_inType : InType bits lhs.value
  rhs_inType : InType bits rhs.value
  lhs_contains : lhs.range.Contains (decode bits lhs.value)
  rhs_contains : rhs.range.Contains (decode bits rhs.value)
  same : lhs.id = rhs.id → lhs.value = rhs.value

namespace SignedOperands

variable (h : SignedOperands lhs rhs bits)
include h

theorem abs_lhs_lt (hbits : 1 ≤ bits) : (decode bits lhs.value).natAbs < 2 ^ bits :=
  (decode_inSigned hbits h.lhs_inType).natAbs_lt hbits

theorem abs_rhs_lt (hbits : 1 ≤ bits) : (decode bits rhs.value).natAbs < 2 ^ bits :=
  (decode_inSigned hbits h.rhs_inType).natAbs_lt hbits

end SignedOperands

/-- The width of the check of the magnitude of the quotient. -/
def magnitudeWidth (lhs rhs : Operand) (bits : Nat) : Nat :=
  quotientWidth (absOperand lhs bits) (absOperand rhs bits) bits

/-- A quotient and a remainder of the absolute values that the checks leave. -/
structure SignedDivides (lhs rhs : Operand) (bits q r : Nat) : Prop extends
    Divides (decode bits lhs.value).natAbs (decode bits rhs.value).natAbs q r
      (magnitudeWidth lhs rhs bits) where
  fits : InSigned bits
    (withSign (quotientNegative (decode bits lhs.value) (decode bits rhs.value)) q)

/-- The results of a quotient and a remainder of the absolute values. -/
def signedResult (lhs rhs : Operand) (bits q r : Nat) : DivModResult where
  q := encode bits (withSign (quotientNegative (decode bits lhs.value) (decode bits rhs.value)) q)
  r := encode bits (withSign (decide (decode bits lhs.value < 0)) r)

theorem SignedDivides.lt (h : SignedOperands lhs rhs bits) (hbits : 1 ≤ bits) (hbits' : bits ≤ 128)
    {q r : Nat} (hdiv : Divides (decode bits lhs.value).natAbs (decode bits rhs.value).natAbs q r
      (magnitudeWidth lhs rhs bits)) : q < 2 ^ 128 ∧ r < 2 ^ 128 := by
  have hpow : 2 ^ bits ≤ 2 ^ 128 := Nat.pow_le_pow_right (by norm_num) hbits'
  have hwidth : 2 ^ magnitudeWidth lhs rhs bits ≤ 2 ^ bits :=
    Nat.pow_le_pow_right (by norm_num) (narrowRangecheckWidth_le _ _)
  exact ⟨(hdiv.quotient.trans_le hwidth).trans_le hpow,
    (hdiv.remainder.trans (h.abs_rhs_lt hbits)).trans_le hpow⟩

theorem lowerSignedDivmod_ensures (h : SignedOperands lhs rhs bits) (hbits : 1 ≤ bits)
    (hbits' : bits ≤ 128) (hguard : Active guard) (hid : lhs.id ≠ rhs.id) :
    Ensures (lowerSignedDivmod P lhs rhs bits guard) fun x =>
      ∃ q r, SignedDivides lhs rhs bits q r ∧ x = signedResult lhs rhs bits q r := by
  unfold lowerSignedDivmod
  simp only [if_neg hid]
  refine .bind (lowerSign_ensures hbits hbits' h.lhs_inType h.lhs_contains) fun signL hsignL => ?_
  refine .bind (lowerSign_ensures hbits hbits' h.rhs_inType h.rhs_contains) fun signR hsignR => ?_
  simp only [hsignL, hsignR, writeAbsValue_signOf h.lhs_inType, writeAbsValue_signOf h.rhs_inType]
  simp only [signOf_eq_signBit, signBit_xor]
  refine .bind (lowerUnsignedDivmod_ensures hguard hid rfl rfl (h.abs_lhs_lt hbits)
    (h.abs_rhs_lt hbits) hbits') fun x hx => ?_
  obtain ⟨q, r, rfl, hdiv⟩ := hx
  obtain ⟨hq, hr⟩ := SignedDivides.lt h hbits hbits' hdiv
  refine .bind (writeSignedMagnitudeResult_ensures hbits hbits' hguard hq) fun quotient hquot => ?_
  refine .bind (writeSignedMagnitudeResult_ensures hbits hbits' hguard hr) fun remainder hrem => ?_
  exact .pure ⟨q, r, ⟨hdiv, hquot.1⟩, by rw [hquot.2, hrem.2]; rfl⟩

/-- The remainder of the absolute values always fits. -/
theorem inSigned_remainder (h : SignedOperands lhs rhs bits) (hbits : 1 ≤ bits) {r : Nat}
    (hr : r < (decode bits rhs.value).natAbs) (negative : Bool) :
    InSigned bits (withSign negative r) :=
  inSigned_withSign_of_lt (hr.trans_le (decode_inSigned hbits h.rhs_inType).natAbs_le) negative

theorem signedResults_completes (h : SignedOperands lhs rhs bits) (hbits : 1 ≤ bits)
    (hbits' : bits ≤ 128) (hguard : Active guard) {q r : Nat}
    (hdiv : SignedDivides lhs rhs bits q r) :
    Gadget.Completes (fun _ P => do
      let quotient ← writeSignedMagnitudeResult P q
        (signBit (quotientNegative (decode bits lhs.value) (decode bits rhs.value))) bits guard
      let remainder ← writeSignedMagnitudeResult P r (signBit (decide (decode bits lhs.value < 0)))
        bits guard
      return (⟨quotient, remainder⟩ : DivModResult)) (signedResult lhs rhs bits q r) := by
  obtain ⟨hq, hr⟩ := SignedDivides.lt h hbits hbits' hdiv.toDivides
  exact (writeSignedMagnitudeResult_completes hbits hbits' hguard hq hdiv.fits).bind
    ((writeSignedMagnitudeResult_completes hbits hbits' hguard hr
      (inSigned_remainder h hbits hdiv.remainder _)).bind .pure)

/-- Every such division is possible. -/
theorem lowerSignedDivmod_possible (h : SignedOperands lhs rhs bits) (hbits : 1 ≤ bits)
    (hbits' : bits ≤ 128) (hguard : Active guard) (hid : lhs.id ≠ rhs.id) {q r : Nat}
    (hdiv : SignedDivides lhs rhs bits q r) :
    Gadget.Possible (fun _ P => lowerSignedDivmod P lhs rhs bits guard)
      (signedResult lhs rhs bits q r) := by
  have hid' : (absOperand lhs bits).id ≠ (absOperand rhs bits).id := hid
  unfold lowerSignedDivmod
  simp only [if_neg hid]
  refine (lowerSign_completes hbits hbits' h.lhs_inType h.lhs_contains).possible.bind
    ((lowerSign_completes hbits hbits' h.rhs_inType h.rhs_contains).possible.bind ?_)
  simp only [writeAbsValue_signOf h.lhs_inType, writeAbsValue_signOf h.rhs_inType]
  simp only [signOf_eq_signBit, signBit_xor]
  exact (lowerUnsignedDivmod_possible hid' hguard rfl rfl (h.abs_rhs_lt hbits)
    (contains_absBound h.rhs_contains) hbits' hdiv.toDivides).bind
    (signedResults_completes h hbits hbits' hguard hdiv).possible

/-- The hints pass where the division has a result. -/
theorem lowerSignedDivmod_completes (h : SignedOperands lhs rhs bits) (hbits : 1 ≤ bits)
    (hbits' : bits ≤ 128) (hguard : Active guard) (hid : lhs.id ≠ rhs.id)
    (hdiv : Divisible bits (decode bits lhs.value) (decode bits rhs.value)) :
    Gadget.Completes (fun _ P => lowerSignedDivmod P lhs rhs bits guard)
      (signedResult lhs rhs bits
        ((decode bits lhs.value).natAbs / (decode bits rhs.value).natAbs)
        ((decode bits lhs.value).natAbs % (decode bits rhs.value).natAbs)) := by
  have hb0 : (decode bits rhs.value).natAbs ≠ 0 := Int.natAbs_ne_zero.mpr hdiv.1
  have hcl : (absOperand lhs bits).range.Contains _ := contains_absBound h.lhs_contains
  have hcr : (absOperand rhs bits).range.Contains _ := contains_absBound h.rhs_contains
  have hid' : (absOperand lhs bits).id ≠ (absOperand rhs bits).id := hid
  have hself : SignedDivides lhs rhs bits _ _ :=
    ⟨divides_self hcl hcr (h.abs_lhs_lt hbits) hbits' hb0,
      (inSigned_quotient_iff (decode_inSigned hbits h.lhs_inType) hdiv.1).mpr hdiv⟩
  unfold lowerSignedDivmod
  simp only [if_neg hid]
  refine (lowerSign_completes hbits hbits' h.lhs_inType h.lhs_contains).bind
    ((lowerSign_completes hbits hbits' h.rhs_inType h.rhs_contains).bind ?_)
  simp only [writeAbsValue_signOf h.lhs_inType, writeAbsValue_signOf h.rhs_inType]
  simp only [signOf_eq_signBit, signBit_xor]
  exact (lowerUnsignedDivmod_completes hid' hguard rfl rfl (h.abs_lhs_lt hbits)
    (h.abs_rhs_lt hbits) hcl hcr hbits' hb0).bind
    (signedResults_completes h hbits hbits' hguard hself)

/-! ### A value by itself -/

theorem absOperand_val (hbits : 1 ≤ bits) (hbits' : bits ≤ 128) {x : Operand}
    (hx : InType bits x.value) : (absOperand x bits).value.val = (decode bits x.value).natAbs :=
  ZMod.val_natCast_of_lt (((decode_inSigned hbits hx).natAbs_lt hbits).trans
    (two_pow_lt_modulus (by omega)))

theorem absOperand_inType (hbits : 1 ≤ bits) (hbits' : bits ≤ 128) {x : Operand}
    (hx : InType bits x.value) : InType bits (absOperand x bits).value := by
  rw [InType, absOperand_val hbits hbits' hx]
  exact (decode_inSigned hbits hx).natAbs_lt hbits

theorem withSign_zero (negative : Bool) : withSign negative 0 = 0 := by
  cases negative <;> rfl

/-- Quotient one and remainder zero, as magnitudes. -/
theorem divMod_one_zero : (⟨1, 0⟩ : DivModResult) = ⟨(1 : Nat), (0 : Nat)⟩ := by simp

theorem lowerSignedDivmod_same_ensures (hlhs : InType bits lhs.value)
    (hcontains : lhs.range.Contains (decode bits lhs.value)) (hbits : 1 ≤ bits)
    (hbits' : bits ≤ 128) (hguard : Active guard) (hid : lhs.id = rhs.id) :
    Ensures (lowerSignedDivmod P lhs rhs bits guard) fun x =>
      decode bits lhs.value ≠ 0 ∧ InSigned bits 1 ∧ x = ⟨encode bits 1, encode bits 0⟩ := by
  unfold lowerSignedDivmod
  simp only [if_pos hid]
  refine .bind (lowerSign_ensures hbits hbits' hlhs hcontains) fun signL hsignL => ?_
  refine .bind (.pure rfl : Ensures _ fun s => s = signL) fun signR hsignR => ?_
  simp only [hsignL, hsignR, writeAbsValue_signOf hlhs]
  simp only [signOf_eq_signBit, signBit_xor, bne_self_eq_false]
  refine .bind (lowerUnsignedDivmod_same_ensures hbits' (absOperand_inType hbits hbits' hlhs) rfl
    hguard) fun x hx => ?_
  obtain ⟨h0, hx⟩ := hx
  rw [divMod_one_zero] at hx
  subst hx
  refine .bind (writeSignedMagnitudeResult_ensures hbits hbits' hguard (by norm_num))
    fun quotient hquot => ?_
  refine .bind (writeSignedMagnitudeResult_ensures hbits hbits' hguard (by norm_num))
    fun remainder hrem => ?_
  obtain ⟨hfits, rfl⟩ := hquot
  obtain ⟨-, rfl⟩ := hrem
  rw [withSign_zero]
  have h0' : (absOperand lhs bits).value.val ≠ 0 := h0
  rw [absOperand_val hbits hbits' hlhs, Int.natAbs_ne_zero] at h0'
  exact .pure ⟨h0', hfits, rfl⟩

theorem lowerSignedDivmod_same_completes (hlhs : InType bits lhs.value)
    (hcontains : lhs.range.Contains (decode bits lhs.value)) (hbits : 1 ≤ bits)
    (hbits' : bits ≤ 128) (hguard : Active guard) (hid : lhs.id = rhs.id)
    (h0 : decode bits lhs.value ≠ 0) (hfits : InSigned bits 1) :
    Gadget.Completes (fun _ P => lowerSignedDivmod P lhs rhs bits guard)
      ⟨encode bits 1, encode bits 0⟩ := by
  have h0' : (absOperand lhs bits).value.val ≠ 0 := by
    rw [absOperand_val hbits hbits' hlhs]
    exact Int.natAbs_ne_zero.mpr h0
  have hsame : (absOperand lhs bits).id = (absOperand lhs bits).id := rfl
  have hdivmod := lowerUnsignedDivmod_same_completes hbits'
    (absOperand_inType hbits hbits' hlhs) hsame hguard h0'
  rw [divMod_one_zero] at hdivmod
  unfold lowerSignedDivmod
  simp only [if_pos hid]
  refine (lowerSign_completes hbits hbits' hlhs hcontains).bind (Gadget.Completes.pure.bind ?_)
  simp only [writeAbsValue_signOf hlhs]
  simp only [signOf_eq_signBit, signBit_xor, bne_self_eq_false]
  refine hdivmod.bind (.bind (writeSignedMagnitudeResult_completes hbits hbits' hguard
    (by norm_num) hfits) (.bind (writeSignedMagnitudeResult_completes hbits hbits' hguard
    (by norm_num) ?_) ?_))
  · rw [withSign_zero]
    exact inSigned_withSign_of_lt (Nat.two_pow_pos _) false
  · rw [withSign_zero]
    exact .pure

end Runs

/-! ## Signed division and remainder

The equivalence, and the widths for which nothing can go wrong.
-/

section Spec

variable {lhs rhs : Operand} {bits : Nat} {guard : Option Fr}

/-- The division is right: whatever the prover writes the division has a result, and the
results are its encodings; where it has one the hints pass. -/
structure SignedDivModSpec (lhs rhs : Operand) (bits : Nat) (guard : Option Fr) : Prop where
  sound : ∀ (σ : Type) (P : Prover Fr σ),
    Ensures (lowerSignedDivmod P lhs rhs bits guard) fun x =>
      Divisible bits (decode bits lhs.value) (decode bits rhs.value) ∧
        x = ⟨encode bits ((decode bits lhs.value).tdiv (decode bits rhs.value)),
          encode bits ((decode bits lhs.value).tmod (decode bits rhs.value))⟩
  honest : Divisible bits (decode bits lhs.value) (decode bits rhs.value) →
    lowerSignedDivmod Prover.honest lhs rhs bits guard ()
      = some (⟨encode bits ((decode bits lhs.value).tdiv (decode bits rhs.value)),
          encode bits ((decode bits lhs.value).tmod (decode bits rhs.value))⟩, ())

theorem signedDivModSpec_same (h : SignedOperands lhs rhs bits) (hbits : 1 ≤ bits)
    (hbits' : bits ≤ 128) (hguard : Active guard) (hid : lhs.id = rhs.id) :
    SignedDivModSpec lhs rhs bits guard := by
  have hpos : (0 : Int) < 2 ^ (bits - 1) := by positivity
  constructor
  · intro σ P
    refine (lowerSignedDivmod_same_ensures h.lhs_inType h.lhs_contains hbits hbits' hguard
      hid).mono fun x hx => ?_
    obtain ⟨h0, hone, rfl⟩ := hx
    rw [← h.same hid, Int.tdiv_self h0, Int.tmod_self]
    refine ⟨⟨h0, ?_⟩, rfl⟩
    rintro ⟨hmin, hneg⟩
    have := hone.2
    omega
  · intro hdiv
    rw [← h.same hid] at hdiv ⊢
    obtain ⟨h0, hmin⟩ := hdiv
    rw [Int.tdiv_self h0, Int.tmod_self]
    have hone : InSigned bits 1 := by
      obtain ⟨hlo, hhi⟩ := decode_inSigned hbits h.lhs_inType
      constructor <;> omega
    exact (lowerSignedDivmod_same_completes h.lhs_inType h.lhs_contains hbits hbits' hguard hid h0
      hone).honest

/-- The division of `|a| + p` that the checks do not keep out. -/
def NextPasses (lhs rhs : Operand) (bits : Nat) : Prop :=
  (decode bits lhs.value).natAbs + modulus
      < 2 ^ magnitudeWidth lhs rhs bits * (decode bits rhs.value).natAbs ∧
    InSigned bits (withSign (quotientNegative (decode bits lhs.value) (decode bits rhs.value))
      (((decode bits lhs.value).natAbs + modulus) / (decode bits rhs.value).natAbs))

theorem abs_lhs_lt_modulus (h : SignedOperands lhs rhs bits) (hbits : 1 ≤ bits)
    (hbits' : bits ≤ 128) : (decode bits lhs.value).natAbs < modulus :=
  (h.abs_lhs_lt hbits).trans (two_pow_lt_modulus (by omega))

theorem NextPasses.divides (h : SignedOperands lhs rhs bits) (hbits : 1 ≤ bits)
    (hbits' : bits ≤ 128) (hnext : NextPasses lhs rhs bits) :
    SignedDivides lhs rhs bits
      (((decode bits lhs.value).natAbs + modulus) / (decode bits rhs.value).natAbs)
      (((decode bits lhs.value).natAbs + modulus) % (decode bits rhs.value).natAbs) :=
  ⟨divides_next (abs_lhs_lt_modulus h hbits hbits') hnext.1, hnext.2⟩

/-- The quotient of the next division is encoded otherwise. -/
theorem NextPasses.encode_ne (h : SignedOperands lhs rhs bits) (hbits : 1 ≤ bits)
    (hbits' : bits ≤ 128) (hnext : NextPasses lhs rhs bits)
    (hdiv : Divisible bits (decode bits lhs.value) (decode bits rhs.value)) :
    (signedResult lhs rhs bits
      (((decode bits lhs.value).natAbs + modulus) / (decode bits rhs.value).natAbs)
      (((decode bits lhs.value).natAbs + modulus) % (decode bits rhs.value).natAbs)).q
      ≠ encode bits ((decode bits lhs.value).tdiv (decode bits rhs.value)) := by
  intro heq
  have hfits := (inSigned_quotient_iff (decode_inSigned hbits h.lhs_inType) hdiv.1).mpr hdiv
  have hdecode := congrArg (decode bits) heq
  rw [signedResult, decode_encode hbits hbits' hnext.2, tdiv_eq_withSign,
    decode_encode hbits hbits' hfits] at hdecode
  have hb0 : 0 < (decode bits rhs.value).natAbs := Int.natAbs_pos.mpr hdiv.1
  have hb := (h.abs_rhs_lt hbits).trans (two_pow_lt_modulus (by omega))
  exact (div_lt_div_next hb0 hb.le).ne (withSign_injective hdecode).symm

/-- The lowered signed division is right exactly when the checks keep out the division of
the absolute value plus the modulus. -/
theorem lowerSignedDivmod_spec (lhs rhs : Operand) (bits : Nat) (hbits : 1 ≤ bits)
    (hbits' : bits ≤ 128) (h : SignedOperands lhs rhs bits) (guard : Option Fr)
    (hguard : Active guard) :
    SignedDivModSpec lhs rhs bits guard ↔ (lhs.id = rhs.id ∨ ¬NextPasses lhs rhs bits) := by
  by_cases hid : lhs.id = rhs.id
  · exact iff_of_true (signedDivModSpec_same h hbits hbits' hguard hid) (.inl hid)
  simp only [hid, false_or]
  have hin := decode_inSigned hbits h.lhs_inType
  constructor
  · intro hspec hnext
    -- the prover writes the quotient of the next division
    obtain ⟨xs, hrun⟩ := lowerSignedDivmod_possible h hbits hbits' hguard hid
      (hnext.divides h hbits hbits')
    obtain ⟨hdiv, hres⟩ := hspec.sound _ _ _ _ _ (hrun [])
    exact hnext.encode_ne h hbits hbits' hdiv (congrArg DivModResult.q hres)
  · intro hnext
    refine ⟨fun σ P => ?_, fun hdiv => ?_⟩
    · refine (lowerSignedDivmod_ensures h hbits hbits' hguard hid).mono fun x hx => ?_
      obtain ⟨q, r, hdiv, rfl⟩ := hx
      have hb0 : decode bits rhs.value ≠ 0 :=
        Int.natAbs_ne_zero.mp (Nat.zero_lt_of_lt hdiv.remainder).ne'
      have hself : q = (decode bits lhs.value).natAbs / (decode bits rhs.value).natAbs ∧
          r = (decode bits lhs.value).natAbs % (decode bits rhs.value).natAbs := by
        refine hdiv.eq_or_next_le.resolve_right fun hle => hnext ⟨?_, ?_⟩
        · exact (Nat.div_lt_iff_lt_mul (Nat.zero_lt_of_lt hdiv.remainder)).mp
            (hle.trans_lt hdiv.quotient)
        · exact inSigned_withSign_mono hdiv.fits hle
      obtain ⟨rfl, rfl⟩ := hself
      refine ⟨(inSigned_quotient_iff hin hb0).mp hdiv.fits, ?_⟩
      rw [tdiv_eq_withSign, tmod_eq_withSign]
      rfl
    · have hrun := (lowerSignedDivmod_completes h hbits hbits' hguard hid hdiv).honest
      rw [signedResult, ← tdiv_eq_withSign, ← tmod_eq_withSign] at hrun
      exact hrun

/-- Up to 127 bits they keep it out. -/
theorem not_nextPasses (h : SignedOperands lhs rhs bits) (hbits : 1 ≤ bits) (hbits' : bits ≤ 127) :
    ¬NextPasses lhs rhs bits := by
  rintro ⟨hlt, hfits⟩
  have hb0 : 0 < (decode bits rhs.value).natAbs := by
    refine Nat.pos_of_ne_zero fun h0 => ?_
    rw [h0] at hlt
    omega
  have hb := (decode_inSigned hbits h.rhs_inType).natAbs_le
  have hpow : 2 ^ (bits - 1) ≤ 2 ^ 126 := Nat.pow_le_pow_right (by norm_num) (by omega)
  have hmod : (2 : Nat) ^ 253 < modulus := two_pow_lt_modulus le_rfl
  have hnext :
    2 ^ 127 ≤ ((decode bits lhs.value).natAbs + modulus) / (decode bits rhs.value).natAbs := by
    rw [Nat.le_div_iff_mul_le hb0]
    calc 2 ^ 127 * (decode bits rhs.value).natAbs ≤ 2 ^ 127 * 2 ^ 126 := by gcongr; omega
      _ = 2 ^ 253 := by norm_num
      _ ≤ (decode bits lhs.value).natAbs + modulus := by omega
  have hcast : (2 : Int) ^ (bits - 1) ≤ 2 ^ 126 := by exact_mod_cast hpow
  obtain ⟨hlo, hhi⟩ := hfits
  cases hsign : quotientNegative (decode bits lhs.value) (decode bits rhs.value)
  · rw [hsign, withSign, if_neg (by decide)] at hhi
    omega
  · rw [hsign, withSign, if_pos rfl] at hlo
    omega

/-! ### A quotient of the wrong number -/

theorem signedOperands (hbits : 1 ≤ bits) (hbits' : bits ≤ 128) {a b : Int} (ha : InSigned bits a)
    (hb : InSigned bits b) :
    SignedOperands (signedOperand bits 0 a) (signedOperand bits 1 b) bits where
  lhs_inType := encode_inType hbits hbits' ha
  rhs_inType := encode_inType hbits hbits' hb
  lhs_contains := signedOperand_contains hbits hbits' ha
  rhs_contains := signedOperand_contains hbits hbits' hb
  same h := absurd h (show (0 : Nat) ≠ 1 by decide)

/-- Five divided by the greatest number of 128 bits: some values pass with the quotient of
`5 + p`. -/
theorem lowerSignedDivmod_wraps :
    SignedOperands (signedOperand 128 0 5) (signedOperand 128 1 (2 ^ 127 - 1)) 128 ∧
      Gadget.Possible (fun _ P => lowerSignedDivmod P (signedOperand 128 0 5)
        (signedOperand 128 1 (2 ^ 127 - 1)) 128 none)
        (signedResult (signedOperand 128 0 5) (signedOperand 128 1 (2 ^ 127 - 1)) 128
          ((5 + modulus) / (2 ^ 127 - 1)) ((5 + modulus) % (2 ^ 127 - 1))) ∧
      ¬SignedDivModSpec (signedOperand 128 0 5) (signedOperand 128 1 (2 ^ 127 - 1)) 128 none := by
  have hfive : InSigned 128 5 := ⟨by norm_num, by norm_num⟩
  have hmax : InSigned 128 (2 ^ 127 - 1) := ⟨by norm_num, by norm_num⟩
  have hops := signedOperands (by omega) le_rfl hfive hmax
  have hlhs : decode 128 (signedOperand 128 0 5).value = 5 := decode_encode (by omega) le_rfl hfive
  have hrhs : decode 128 (signedOperand 128 1 (2 ^ 127 - 1)).value = 2 ^ 127 - 1 :=
    decode_encode (by omega) le_rfl hmax
  have hwidth : magnitudeWidth (signedOperand 128 0 5)
    (signedOperand 128 1 (2 ^ 127 - 1)) 128 = 128 :=
    by decide +kernel
  have hnext : NextPasses (signedOperand 128 0 5) (signedOperand 128 1 (2 ^ 127 - 1)) 128 := by
    unfold NextPasses InSigned
    rw [hwidth, hlhs, hrhs]
    decide +kernel
  have hpossible := lowerSignedDivmod_possible hops (by omega) le_rfl (.inl rfl : Active none)
    (by decide) (hnext.divides hops (by omega) le_rfl)
  rw [hlhs, hrhs] at hpossible
  refine ⟨hops, hpossible, fun hspec => ?_⟩
  obtain ⟨xs, hrun⟩ := lowerSignedDivmod_possible hops (by omega) le_rfl (.inl rfl : Active none)
    (by decide) (hnext.divides hops (by omega) le_rfl)
  obtain ⟨hdiv, hres⟩ := hspec.sound _ _ _ _ _ (hrun [])
  exact hnext.encode_ne hops (by omega) le_rfl hdiv (congrArg DivModResult.q hres)

theorem lowerSignedDivmod_spec_bytes :
    SignedDivModSpec (signedOperand 8 0 (-100)) (signedOperand 8 1 7) 8 none ↔
      ((signedOperand 8 0 (-100)).id = (signedOperand 8 1 7).id ∨
        ¬NextPasses (signedOperand 8 0 (-100)) (signedOperand 8 1 7) 8) :=
  lowerSignedDivmod_spec _ _ 8 (by omega) (by omega) (signedOperands (by omega) (by omega)
    ⟨by norm_num, by norm_num⟩ ⟨by norm_num, by norm_num⟩) none (.inl rfl)

end Spec

end Mavros.Lowering
