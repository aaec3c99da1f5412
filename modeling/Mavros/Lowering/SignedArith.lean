/-
# `Mavros.Lowering.SignedArith` — signed addition, subtraction and multiplication

The result of the field is that of the integers modulo the prime, and the check on its
encoding accepts every number of the type with that residue.  There is one other such
number at most, a modulus away, and only for a product of 128-bit numbers.

## What is proved

* `processArith_signed_exact`: the lowered addition, subtraction and multiplication of signed
  integers of up to 128 bits is exact unless a product wraps into the type (`WrapsIntoType`), which
  depends on the operands and their intervals and on nothing the gadget computes.
* `processArith_signed_mul_wraps`: two numbers of 128 bits whose product is a modulus away from one.

## How it goes

What a lowered operation accepts are the encodings of the numbers that its checks leave, and all of
them (`accepts_lowerSigned`).  The number is determined by its residue, apart from products of 128
bits (`residue_decides`), since everything else lies in a window shorter than the modulus.
-/
import Mavros.Lowering.SignedEncoding
import Mavros.Lowering.UnsignedArith

namespace Mavros.Lowering

open Lib Lib.Circuit
open Hlssa (IntInterval BinaryArithOpKind)

/-! ## What a lowered operation accepts

By the encoding of the result, from `Mavros.Lowering.SignedEncoding`.
-/

section Accepts

variable {guard : Option Fr} {lhs rhs : Operand} {range : IntInterval} {bits : Nat} {z : Int}

/-- Every result is the encoding of a number that the checks leave. -/
theorem lowerSigned_ensures (hbits : 1 ≤ bits) (h : bits ≤ 128) (hguard : Active guard)
    (hlhs : InType bits lhs.value) (hrhs : InType bits rhs.value)
    (hl : lhs.range.Contains (decode bits lhs.value))
    (hr : rhs.range.Contains (decode bits rhs.value)) (hz : range.Contains z)
    {op : Fr → Fr → Fr} (hop : op (decode bits lhs.value) (decode bits rhs.value) = z)
    {hint : Int → Int → Int} {c : Gadget Fr Fr}
    (hc : lowerSigned op hint range guard lhs rhs bits = some c) (σ : Type) (P : Prover Fr σ) :
    Ensures (c σ P) fun r => ∃ w, Represents range bits (z : Fr) w ∧ r = encode bits w := by
  unfold lowerSigned at hc
  split at hc
  case isFalse => simp at hc
  obtain rfl := Option.some.inj hc
  refine .bind (lowerSign_ensures hbits h hlhs hl) fun signL hsignL => ?_
  refine .bind (lowerSign_ensures hbits h hrhs hr) fun signR hsignR => ?_
  simp only [hsignL, hsignR, signedValueFromEncoded_signOf hlhs,
    signedValueFromEncoded_signOf hrhs, hop]
  exact encodeSignedValue_ensures hbits h hguard hz

/-- Every encoding of such a number is possible. -/
theorem lowerSigned_possible (hbits : 1 ≤ bits) (h : bits ≤ 128) (hguard : Active guard)
    (hlhs : InType bits lhs.value) (hrhs : InType bits rhs.value)
    (hl : lhs.range.Contains (decode bits lhs.value))
    (hr : rhs.range.Contains (decode bits rhs.value))
    {op : Fr → Fr → Fr} (hop : op (decode bits lhs.value) (decode bits rhs.value) = z)
    {hint : Int → Int → Int} {c : Gadget Fr Fr}
    (hc : lowerSigned op hint range guard lhs rhs bits = some c) {w : Int}
    (hw : Represents range bits (z : Fr) w) : c.Possible (encode bits w) := by
  unfold lowerSigned at hc
  split at hc
  case isFalse => simp at hc
  obtain rfl := Option.some.inj hc
  refine (lowerSign_completes hbits h hlhs hl).possible.bind
    ((lowerSign_completes hbits h hrhs hr).possible.bind ?_)
  simp only [signedValueFromEncoded_signOf hlhs, signedValueFromEncoded_signOf hrhs, hop]
  exact encodeSignedValue_possible hbits h hguard hw

/-- The results are the encodings of the numbers that the checks leave. -/
theorem accepts_lowerSigned (hbits : 1 ≤ bits) (h : bits ≤ 128) (hguard : Active guard)
    (hlhs : InType bits lhs.value) (hrhs : InType bits rhs.value)
    (hl : lhs.range.Contains (decode bits lhs.value))
    (hr : rhs.range.Contains (decode bits rhs.value)) (hz : range.Contains z)
    {op : Fr → Fr → Fr} (hop : op (decode bits lhs.value) (decode bits rhs.value) = z)
    {hint : Int → Int → Int} {c : Gadget Fr Fr}
    (hc : lowerSigned op hint range guard lhs rhs bits = some c) {r : Fr} :
    Accepts c r ↔ ∃ w, Represents range bits (z : Fr) w ∧ r = encode bits w := by
  constructor
  · rintro ⟨σ, P, s, t, hrun⟩
    exact lowerSigned_ensures hbits h hguard hlhs hrhs hl hr hz hop hc σ P s r t hrun
  · rintro ⟨w, hw, rfl⟩
    exact accepts_of_possible (lowerSigned_possible hbits h hguard hlhs hrhs hl hr hop hc hw)

/-- The interval of a result. -/
def resultRange (kind : BinaryArithOpKind) (a b : IntInterval) : IntInterval :=
  match kind with
  | .add => a.add b
  | .sub => a.sub b
  | .mul => a.mul b
  | _ => .top

theorem contains_resultRange {kind : BinaryArithOpKind} (hkind : IsLinearOrMul kind)
    {a b : IntInterval} {x y : Int} (ha : a.Contains x) (hb : b.Contains y) :
    (resultRange kind a b).Contains (exactResult kind x y) := by
  rcases hkind with rfl | rfl | rfl
  · exact ha.add hb
  · exact ha.sub hb
  · exact ha.mul hb

theorem accepts_processArith_signed (hbits : 1 ≤ bits) (h : bits ≤ 128) (hguard : Active guard)
    (hlhs : InType bits lhs.value) (hrhs : InType bits rhs.value)
    (hl : lhs.range.Contains (decode bits lhs.value))
    (hr : rhs.range.Contains (decode bits rhs.value)) {kind : BinaryArithOpKind}
    (hkind : IsLinearOrMul kind) {c : Gadget Fr Fr}
    (hc : processArith guard kind lhs rhs bits true = some c) {r : Fr} :
    Accepts c r ↔ ∃ w, Represents (resultRange kind lhs.range rhs.range) bits
      (exactResult kind (decode bits lhs.value) (decode bits rhs.value) : Int) w ∧
        r = encode bits w := by
  have hz := contains_resultRange hkind hl hr
  unfold processArith at hc
  split at hc
  case isFalse => simp at hc
  rcases hkind with rfl | rfl | rfl
  · exact accepts_lowerSigned hbits h hguard hlhs hrhs hl hr hz (by simp [exactResult]) hc
  · exact accepts_lowerSigned hbits h hguard hlhs hrhs hl hr hz (by simp [exactResult]) hc
  · exact accepts_lowerSigned hbits h hguard hlhs hrhs hl hr hz (by simp [exactResult]) hc

end Accepts

/-! ## Exactness -/

section Exactness

variable {bits : Nat} {x y z w : Int} {range : IntInterval}

/-- A product that is a modulus away from a number of 128 bits, of a sign that the interval
allows. -/
def WrapsIntoType (range : IntInterval) (z : Int) : Prop :=
  ∃ w, (w = z - modulus ∨ w = z + modulus) ∧ InSigned 128 w ∧ (isStrictlyNegative range → w < 0)

theorem InSigned.abs_le_two_pow (hz : InSigned bits z) : |z| ≤ 2 ^ (bits - 1) := by
  obtain ⟨hlo, hhi⟩ := hz
  exact abs_le.mpr ⟨by omega, by omega⟩

theorem InSigned.abs_mul_le (hx : InSigned bits x) (hy : InSigned bits y) :
    |x * y| ≤ 2 ^ (bits - 1 + (bits - 1)) := by
  rw [abs_mul, pow_add]
  exact mul_le_mul hx.abs_le_two_pow hy.abs_le_two_pow (abs_nonneg y) (by positivity)

/-- Apart from a product of 128 bits, the residue decides the number. -/
theorem residue_decides (hbits : 1 ≤ bits) (h : bits ≤ 128) {kind : BinaryArithOpKind}
    (hkind : IsLinearOrMul kind) (hx : InSigned bits x) (hy : InSigned bits y)
    (hw : InSigned bits w) (hres : (w : Fr) = (exactResult kind x y : Int)) :
    w = exactResult kind x y ∨ kind = .mul ∧ bits = 128 ∧
      (w = exactResult kind x y - modulus ∨ w = exactResult kind x y + modulus) := by
  have hmod := two_pow_lt_modulus_int
  have hxw := hx.window hbits h
  have hyw := hy.window hbits h
  have hww := hw.window hbits h
  rcases hkind with rfl | rfl | rfl
  · left
    simp only [exactResult] at hres ⊢
    exact eq_of_intCast_eq hres (by omega) (by omega)
  · left
    simp only [exactResult] at hres ⊢
    exact eq_of_intCast_eq hres (by omega) (by omega)
  · simp only [exactResult] at hres ⊢
    have hmul := abs_le.mp (hx.abs_mul_le hy)
    rcases Nat.lt_or_ge bits 128 with hlt | hge
    · left
      have hpow : (2 : Int) ^ (bits - 1 + (bits - 1)) ≤ 2 ^ 252 :=
        pow_le_pow_right₀ (by norm_num) (by omega)
      exact eq_of_intCast_eq hres (by omega) (by omega)
    · obtain rfl : bits = 128 := by omega
      obtain ⟨k, hk⟩ := (ZMod.intCast_zmod_eq_zero_iff_dvd (w - x * y) modulus).mp
        (by rw [Int.cast_sub, hres, sub_self])
      have hmod : (2 : Int) ^ 253 + 2 ^ 252 < modulus := by norm_num [modulus]
      have hk' : -1 ≤ k ∧ k ≤ 1 := by
        constructor
        · by_contra hneg
          have : (modulus : Int) * k ≤ modulus * (-2) :=
            Int.mul_le_mul_of_nonneg_left (by omega) (by omega)
          omega
        · by_contra hpos
          have : (modulus : Int) * 2 ≤ modulus * k :=
            Int.mul_le_mul_of_nonneg_left (by omega) (by omega)
          omega
      obtain rfl | rfl | rfl : k = -1 ∨ k = 0 ∨ k = 1 := by omega
      · exact .inr ⟨trivial, rfl, .inl (by omega)⟩
      · exact .inl (by omega)
      · exact .inr ⟨trivial, rfl, .inr (by omega)⟩

/-- A number a modulus away passes the checks. -/
theorem WrapsIntoType.represents (hz : range.Contains z) (h : WrapsIntoType range z) :
    ∃ w ≠ z, Represents range 128 (z : Fr) w := by
  obtain ⟨w, hw, hin, hneg⟩ := h
  have hmod := two_pow_lt_modulus_int
  have hww := hin.window (by omega) le_rfl
  refine ⟨w, by omega, hin, ?_, fun hr => ?_, hneg⟩
  · rcases hw with rfl | rfl <;> simp
  · have := hz.nonNegativeInSigned hr
    omega

/-- The lowered signed addition, subtraction and multiplication are exact, apart from
products of 128 bits that wrap into the type. -/
theorem processArith_signed_exact (kind : BinaryArithOpKind) (hkind : IsLinearOrMul kind)
    (lhs rhs : Operand) (bits : Nat) (hbits : 1 ≤ bits) (hbits' : bits ≤ 128)
    (hlhs : InType bits lhs.value) (hrhs : InType bits rhs.value)
    (hl : lhs.range.Contains (decode bits lhs.value))
    (hr : rhs.range.Contains (decode bits rhs.value)) (guard : Option Fr) (hguard : Active guard)
    (c : Gadget Fr Fr) (hc : processArith guard kind lhs rhs bits true = some c) :
    Exact c (exactResult kind (decode bits lhs.value) (decode bits rhs.value))
        (-2 ^ (bits - 1)) (2 ^ (bits - 1)) (encode bits) ↔
      (kind = .mul → bits = 128 →
        ¬WrapsIntoType (lhs.range.mul rhs.range)
          (decode 128 lhs.value * decode 128 rhs.value)) := by
  have hz := contains_resultRange hkind hl hr
  have haccepts := fun r => accepts_processArith_signed (r := r) hbits hbits' hguard hlhs hrhs hl
    hr hkind hc
  have hin := decode_inSigned hbits hlhs
  have hin' := decode_inSigned hbits hrhs
  constructor
  · rintro hexact rfl rfl hwraps
    obtain ⟨w, hne, hw⟩ := hwraps.represents hz
    obtain ⟨hlo, hhi⟩ := hexact.1.mp ⟨encode 128 w, (haccepts _).mpr ⟨w, hw, rfl⟩⟩
    exact hne (InSigned.eq_of_cast_eq hbits hbits' ⟨hlo, hhi⟩ hw.inSigned hw.residue)
  · intro hwraps
    -- the checks leave the result alone
    have honly : ∀ w, Represents (resultRange kind lhs.range rhs.range) bits
        (exactResult kind (decode bits lhs.value) (decode bits rhs.value) : Int) w →
        w = exactResult kind (decode bits lhs.value) (decode bits rhs.value) := by
      intro w hw
      rcases residue_decides hbits hbits' hkind hin hin' hw.inSigned hw.residue with heq | hwrap
      · exact heq
      · obtain ⟨rfl, rfl, hwrap⟩ := hwrap
        exact absurd ⟨w, hwrap, hw.inSigned, hw.neg⟩ (hwraps rfl rfl)
    refine ⟨⟨?_, fun hz' => ⟨_, (haccepts _).mpr ⟨_, .self hz hz', rfl⟩⟩⟩, fun r hr => ?_⟩
    · rintro ⟨r, hr⟩
      obtain ⟨w, hw, -⟩ := (haccepts r).mp hr
      exact honly w hw ▸ hw.inSigned
    · obtain ⟨w, hw, rfl⟩ := (haccepts r).mp hr
      rw [honly w hw]

/-! ### A product that wraps -/

/-- The least factor that takes the greatest number of 128 bits above the modulus. -/
def signedWrapFactor : Nat := modulus / (2 ^ 127 - 1) + 1

def signedWrapLhs : Operand := ⟨0, (2 ^ 127 - 1 : Nat), false, .singleton (2 ^ 127 - 1)⟩

/-- A byte plus a constant. -/
def signedWrapRhs : Operand :=
  ⟨1, (signedWrapFactor : Nat), true, .closed signedWrapFactor (signedWrapFactor + 255)⟩

theorem signedWrapLhs_val : signedWrapLhs.value.val = 2 ^ 127 - 1 :=
  ZMod.val_natCast_of_lt (by norm_num [modulus])

theorem signedWrapRhs_val : signedWrapRhs.value.val = signedWrapFactor :=
  ZMod.val_natCast_of_lt (by norm_num [signedWrapFactor, modulus])

theorem signedWrapFactor_lt : signedWrapFactor < 2 ^ 127 := by norm_num [signedWrapFactor, modulus]

theorem decode_signedWrapLhs : decode 128 signedWrapLhs.value = 2 ^ 127 - 1 := by
  rw [decode, signedWrapLhs_val, if_pos (by norm_num)]
  norm_num

theorem decode_signedWrapRhs : decode 128 signedWrapRhs.value = signedWrapFactor := by
  rw [decode, signedWrapRhs_val, if_pos signedWrapFactor_lt]

/-- A product above the modulus passes the check of its encoding. -/
theorem processArith_signed_mul_wraps :
    ∃ c, processArith none .mul signedWrapLhs signedWrapRhs 128 true = some c ∧
      InType 128 signedWrapLhs.value ∧ InType 128 signedWrapRhs.value ∧
      signedWrapLhs.range.Contains (decode 128 signedWrapLhs.value) ∧
      signedWrapRhs.range.Contains (decode 128 signedWrapRhs.value) ∧
      2 ^ 127 ≤ decode 128 signedWrapLhs.value * decode 128 signedWrapRhs.value ∧
      (∃ r, Accepts c r) ∧
      ¬Exact c (exactResult .mul (decode 128 signedWrapLhs.value)
        (decode 128 signedWrapRhs.value)) (-2 ^ 127) (2 ^ 127) (encode 128) := by
  have hwraps : (modulus : Int) ≤ (2 ^ 127 - 1) * signedWrapFactor ∧
      (2 ^ 127 - 1) * (signedWrapFactor : Int) - modulus < 2 ^ 127 := by decide +kernel
  have hl : InType 128 signedWrapLhs.value := by
    rw [InType, signedWrapLhs_val]
    norm_num
  have hr : InType 128 signedWrapRhs.value := by
    rw [InType, signedWrapRhs_val]
    exact signedWrapFactor_lt.trans (by norm_num)
  have hcl : signedWrapLhs.range.Contains (decode 128 signedWrapLhs.value) := by
    rw [decode_signedWrapLhs]
    exact IntInterval.contains_singleton
  have hcr : signedWrapRhs.range.Contains (decode 128 signedWrapRhs.value) := by
    rw [decode_signedWrapRhs]
    exact IntInterval.contains_closed le_rfl (by omega)
  have hfits : rangeFitsFieldInjectively (signedWrapLhs.range.mul signedWrapRhs.range) = true := by
    decide +kernel
  have hwrap : WrapsIntoType (signedWrapLhs.range.mul signedWrapRhs.range)
      (decode 128 signedWrapLhs.value * decode 128 signedWrapRhs.value) := by
    rw [decode_signedWrapLhs, decode_signedWrapRhs]
    refine ⟨_, .inl rfl, ⟨?_, hwraps.2⟩, fun hneg => ?_⟩
    · have := hwraps.1
      omega
    · exact absurd hneg (by decide +kernel)
  obtain ⟨c, hc⟩ : ∃ c, processArith none .mul signedWrapLhs signedWrapRhs 128 true = some c :=
    ⟨_, if_pos hfits⟩
  have hz := contains_resultRange (.inr (.inr rfl)) hcl hcr
  have haccepts := fun r => accepts_processArith_signed (r := r) (by omega) le_rfl (.inl rfl) hl hr
    hcl hcr (.inr (.inr rfl)) hc
  obtain ⟨w, hne, hw⟩ := hwrap.represents hz
  have hacc := (haccepts _).mpr ⟨w, hw, rfl⟩
  have hmod := two_pow_lt_modulus_int
  refine ⟨c, hc, hl, hr, hcl, hcr, ?_, ⟨_, hacc⟩, fun hexact => ?_⟩
  · rw [decode_signedWrapLhs, decode_signedWrapRhs]
    exact le_trans (by omega) hwraps.1
  · obtain ⟨hlo, hhi⟩ := hexact.1.mp ⟨_, hacc⟩
    exact hne (InSigned.eq_of_cast_eq (by omega) le_rfl ⟨hlo, hhi⟩ hw.inSigned hw.residue)

theorem processArith_signed_exact_bytes :
    ∃ c, processArith none .mul (signedOperand 8 0 (-10)) (signedOperand 8 1 12) 8 true = some c ∧
      (Exact c (exactResult .mul (decode 8 (signedOperand 8 0 (-10)).value)
          (decode 8 (signedOperand 8 1 12).value)) (-2 ^ 7) (2 ^ 7) (encode 8) ↔
        (BinaryArithOpKind.mul = .mul → 8 = 128 →
          ¬WrapsIntoType ((signedOperand 8 0 (-10)).range.mul (signedOperand 8 1 12).range)
            (decode 128 (signedOperand 8 0 (-10)).value
              * decode 128 (signedOperand 8 1 12).value))) := by
  have hin : InSigned 8 (-10) := ⟨by norm_num, by norm_num⟩
  have hin' : InSigned 8 12 := ⟨by norm_num, by norm_num⟩
  have hfits : rangeFitsFieldInjectively
      ((signedOperand 8 0 (-10)).range.mul (signedOperand 8 1 12).range) = true := by decide +kernel
  obtain ⟨c, hc⟩ : ∃ c, processArith none .mul (signedOperand 8 0 (-10)) (signedOperand 8 1 12) 8
    true = some c := ⟨_, if_pos hfits⟩
  exact ⟨c, hc, processArith_signed_exact .mul (.inr (.inr rfl)) _ _ 8 (by omega) (by omega)
    (encode_inType (by omega) (by omega) hin) (encode_inType (by omega) (by omega) hin')
    (signedOperand_contains (by omega) (by omega) hin)
    (signedOperand_contains (by omega) (by omega) hin') none (.inl rfl) c hc⟩

end Exactness

end Mavros.Lowering
