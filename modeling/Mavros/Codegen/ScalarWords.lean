/-
# `Mavros.Codegen.ScalarWords` — one operation, on a word and on a constant

The machine computes an integer operation on 64-bit words and masks the result where its
opcode has a width; the generator reduces both operands to the width first, decodes them
when they are signed, and computes on `u128` or `i128`.  Where the two can differ is
stated once, in `IntOk`.

## What is proved

* `arithU_eq_wordOp`, `arithI_eq_wordOp`: under `IntOk` the opcode selected for a kind computes
  what the generator's arm does, unsigned and signed, for every width up to 64.
* `eqU64_eq`, `ltS64_eq`, `notU64_eq`: comparisons, and the complement.

## How it goes

Everything is modular.  A mask is a remainder by a power of two, a wrap to a wider word and then to
a narrower one is the latter alone (`mod_mod_two_pow`), and a decoded value is the encoded one
modulo the width (`decodeSigned_emod`); so sums, differences and products agree with no condition.
Division, shifts and comparisons are no congruences, and there the operands have to be what the
type says.
-/
import Mavros.Codegen.Scalar
import Mavros.R1CGen.Scalar

namespace Mavros.Codegen

open Hlssa Bytecode
open R1CGen (wrapUnsigned decodeSigned asU128 encodeSigned expectU128)

/-! ## Values as words -/

theorem mod_two_pow_lt_word {bits : Nat} (hbits : bits ≤ 64) (n : Nat) : n % 2 ^ bits < 2 ^ 64 :=
  (Nat.mod_lt _ (Nat.two_pow_pos bits)).trans_le (Nat.pow_le_pow_right (by norm_num) hbits)

theorem maskTo_eq {bits n : Nat} (hbits : bits ≤ 64) (hn : n < 2 ^ 64) :
    maskTo bits n = n % 2 ^ bits := by
  by_cases h : 64 ≤ bits
  · obtain rfl : bits = 64 := by omega
    rw [maskTo, if_pos h, Nat.mod_eq_of_lt hn]
  · rw [maskTo, if_neg h, Nat.and_two_pow_sub_one_eq_mod]

/-- Masking after wrapping to a wider word is masking alone. -/
theorem mod_mod_two_pow {m n : Nat} (h : m ≤ n) (x : Nat) : x % 2 ^ n % 2 ^ m = x % 2 ^ m :=
  Nat.mod_mod_of_dvd x (Nat.pow_dvd_pow 2 h)

theorem expectU128_eq {x : Fr} {n : Nat} (h : expectU128 x = some n) : x.val = n := by
  rw [expectU128] at h
  split at h
  · exact Option.some.inj h
  · exact absurd h (by simp)

/-! ## Signed values

Encoding, decoding, and arithmetic modulo the width.
-/

theorem encodeSigned_emod {bits : Nat} (hbits : bits ≤ 128) (v : Int) :
    (encodeSigned v bits : Int) = v % 2 ^ bits := by
  have hpos : (0 : Int) ≤ v % 2 ^ 128 := Int.emod_nonneg v (by norm_num)
  rw [encodeSigned, wrapUnsigned, asU128, Int.natCast_emod, Int.toNat_of_nonneg hpos]
  push_cast
  exact Int.emod_emod_of_dvd v (pow_dvd_pow 2 hbits)

/-- A decoded value is the encoded one modulo the width. -/
theorem decodeSigned_emod (a bits : Nat) :
    decodeSigned a bits % 2 ^ bits = (a : Int) % 2 ^ bits := by
  rw [decodeSigned, wrapUnsigned]
  split
  · push_cast
    exact Int.emod_emod_of_dvd _ dvd_rfl
  · push_cast
    rw [Int.sub_emod_right, Int.emod_emod_of_dvd _ dvd_rfl]

theorem encodeSigned_decodeSigned {a bits : Nat} (hbits : bits ≤ 128) :
    encodeSigned (decodeSigned a bits) bits = a % 2 ^ bits := by
  have h := encodeSigned_emod hbits (decodeSigned a bits)
  rw [decodeSigned_emod] at h
  exact_mod_cast h

theorem encodeSigned_of_emod_eq {bits n : Nat} {v : Int} (hbits : bits ≤ 128)
    (h : v % 2 ^ bits = (n : Int) % 2 ^ bits) : encodeSigned v bits = n % 2 ^ bits := by
  have hv := encodeSigned_emod hbits v
  rw [h] at hv
  exact_mod_cast hv

theorem encodeSigned_add {a b bits : Nat} (hbits : bits ≤ 128) :
    encodeSigned (decodeSigned a bits + decodeSigned b bits) bits = (a + b) % 2 ^ bits := by
  refine encodeSigned_of_emod_eq hbits ?_
  rw [Int.add_emod, decodeSigned_emod, decodeSigned_emod, ← Int.add_emod, Nat.cast_add]

theorem encodeSigned_mul {a b bits : Nat} (hbits : bits ≤ 128) :
    encodeSigned (decodeSigned a bits * decodeSigned b bits) bits = a * b % 2 ^ bits := by
  refine encodeSigned_of_emod_eq hbits ?_
  rw [Int.mul_emod, decodeSigned_emod, decodeSigned_emod, ← Int.mul_emod, Nat.cast_mul]

/-- A wrapping subtraction on a word of `n` bits is the subtraction modulo fewer bits. -/
theorem wrappingSub_emod {a b bits n : Nat} (hbits : bits ≤ n) (hb : b < 2 ^ n) :
    ((a + 2 ^ n - b : Nat) : Int) % 2 ^ bits = ((a : Int) - b) % 2 ^ bits := by
  have hdvd : (2 ^ bits : Int) ∣ 2 ^ n := pow_dvd_pow 2 hbits
  have hwrap : ((a + 2 ^ n - b : Nat) : Int) = (a - b : Int) + 2 ^ n := by
    rw [Nat.cast_sub (by omega)]
    push_cast
    ring
  rw [hwrap, Int.add_emod, Int.emod_eq_zero_of_dvd hdvd, add_zero, Int.emod_emod_of_dvd _ dvd_rfl]

theorem encodeSigned_sub {a b bits : Nat} (hbits : bits ≤ 64) (hb : b < 2 ^ 64) :
    encodeSigned (decodeSigned a bits - decodeSigned b bits) bits
      = (a + 2 ^ 64 - b) % 2 ^ bits := by
  refine encodeSigned_of_emod_eq (hbits.trans (by norm_num)) ?_
  rw [Int.sub_emod, decodeSigned_emod, decodeSigned_emod, ← Int.sub_emod,
    wrappingSub_emod hbits hb]

/-- Sign extending a word inside the machine is decoding it. -/
theorem signExtend_eq {a bits : Nat} (hpos : 0 < bits) (hbits : bits ≤ 64) :
    signExtend bits a = decodeSigned a bits := by
  obtain ⟨s, hs⟩ : ∃ s, 64 = bits + s := ⟨64 - bits, by omega⟩
  have hlt : s < 64 := by omega
  have hsub : 64 - bits = s := by omega
  have hshift : shiftLeft a s = a % 2 ^ bits * 2 ^ s := by
    rw [shiftLeft, Nat.mod_eq_of_lt hlt, Nat.shiftLeft_eq, hs, pow_add,
      Nat.mul_mod_mul_right]
  have hhalf : a % 2 ^ bits * 2 ^ s < 2 ^ 63 ↔ a % 2 ^ bits < 2 ^ (bits - 1) := by
    have hpow : 2 ^ 63 = 2 ^ (bits - 1) * 2 ^ s := by
      rw [← pow_add]
      congr 1
      omega
    rw [hpow, Nat.mul_lt_mul_right (Nat.two_pow_pos s)]
  have hne : (2 ^ s : Int) ≠ 0 := by positivity
  rw [signExtend, hsub, Nat.mod_eq_of_lt hlt, hshift, asI64, decodeSigned, wrapUnsigned]
  simp only [hhalf]
  split
  · push_cast
    exact Int.mul_ediv_cancel _ hne
  · have hword : (2 ^ 64 : Int) = 2 ^ bits * 2 ^ s := by rw [hs, pow_add]
    rw [hword]
    push_cast
    rw [← sub_mul]
    exact Int.mul_ediv_cancel _ hne

/-! ## Integer arithmetic -/

/-- What the opcode chosen for an integer instruction computes on words. -/
def wordOp (signed : Bool) (bits a b : Nat) : BinaryArithOpKind → Option Nat
  | .add => some (addInt bits a b)
  | .sub => some (subInt bits a b)
  | .mul => some (mulInt bits a b)
  | .div => if signed then none else divU64 a b
  | .mod => if signed then none else modU64 a b
  | .and => some (a &&& b)
  | .or => some (a ||| b)
  | .xor => some (a ^^^ b)
  | .shl => some (shlU64 bits a b)
  | .shr => some (ushrU64 a b)

/-- Where an opcode neither reduces its operands nor masks its result, they have to be in
the range of the type; a shift amount has to be below 64, for it is taken modulo 64. -/
def IntOk (bits a b : Nat) : BinaryArithOpKind → Prop
  | .add | .sub | .mul => True
  | .div | .mod | .and | .or | .xor => a < 2 ^ bits ∧ b < 2 ^ bits
  | .shl => b < 64 ∧ b < 2 ^ bits
  | .shr => a < 2 ^ bits ∧ b < 64 ∧ b < 2 ^ bits

/-- The amount the generator shifts by, for one below 64 that is in range. -/
theorem shiftAmount_eq {bits b : Nat} (hb : b < 64) (hlt : b < 2 ^ bits) :
    b % 2 ^ bits % 2 ^ 32 % 128 = b := by
  rw [Nat.mod_eq_of_lt hlt]
  omega

section Arith

variable {bits a b : Nat} (hbits : bits ≤ 64)

include hbits

theorem shlU64_eq (hb : b < 64) : shlU64 bits a b = a <<< b % 2 ^ bits := by
  rw [shlU64, shiftLeft, Nat.mod_eq_of_lt hb, maskTo_eq hbits (Nat.mod_lt _ (by norm_num)),
    mod_mod_two_pow hbits]

/-- A left shift sees the low bits of its operand only. -/
theorem shiftLeft_mod (n : Nat) :
    (a % 2 ^ bits) <<< n % 2 ^ 128 % 2 ^ bits = a <<< n % 2 ^ bits := by
  rw [mod_mod_two_pow (by omega), Nat.shiftLeft_eq, Nat.shiftLeft_eq, Nat.mod_mul_mod]

theorem addInt_eq : addInt bits a b = (a + b) % 2 ^ bits := by
  rw [addInt, maskTo_eq hbits (Nat.mod_lt _ (by norm_num)), mod_mod_two_pow hbits]

theorem mulInt_eq : mulInt bits a b = a * b % 2 ^ bits := by
  rw [mulInt, maskTo_eq hbits (Nat.mod_lt _ (by norm_num)), mod_mod_two_pow hbits]

theorem subInt_eq : subInt bits a b = (a + 2 ^ 64 - b) % 2 ^ bits := by
  rw [subInt, maskTo_eq hbits (Nat.mod_lt _ (by norm_num)), mod_mod_two_pow hbits]

theorem wrapUnsigned_sub (hb : b < 2 ^ 64) :
    (a % 2 ^ bits + 2 ^ 128 - b % 2 ^ bits) % 2 ^ 128 % 2 ^ bits
      = (a + 2 ^ 64 - b) % 2 ^ bits := by
  have hb' : b % 2 ^ bits < 2 ^ 128 := (Nat.mod_le _ _).trans_lt (by omega)
  have h := wrappingSub_emod (a := a % 2 ^ bits) (hbits.trans (by norm_num : 64 ≤ 128)) hb'
  rw [Int.natCast_emod, Int.natCast_emod, Nat.cast_pow, Nat.cast_ofNat, ← Int.sub_emod,
    ← wrappingSub_emod hbits hb] at h
  rw [mod_mod_two_pow (hbits.trans (by norm_num))]
  exact_mod_cast h

/-- The unsigned arm agrees with the opcode on words. -/
theorem arithU_eq_wordOp {kind : BinaryArithOpKind} {r : Nat} (hb : b < 2 ^ 64)
    (hok : IntOk bits a b kind)
    (h : R1CGen.arithU kind (wrapUnsigned a bits) (wrapUnsigned b bits) = some r) :
    wordOp false bits a b kind = some (wrapUnsigned r bits) := by
  have h128 : bits ≤ 128 := by omega
  cases kind with
  | add =>
    obtain rfl := Option.some.inj h
    simp only [wordOp, wrapUnsigned, addInt_eq hbits, mod_mod_two_pow h128, ← Nat.add_mod]
  | mul =>
    obtain rfl := Option.some.inj h
    simp only [wordOp, wrapUnsigned, mulInt_eq hbits, mod_mod_two_pow h128, ← Nat.mul_mod]
  | sub =>
    obtain rfl := Option.some.inj h
    simp only [wordOp, wrapUnsigned, subInt_eq hbits, wrapUnsigned_sub hbits hb]
  | div =>
    simp only [R1CGen.arithU, wrapUnsigned, Nat.mod_eq_of_lt hok.1, Nat.mod_eq_of_lt hok.2] at h
    split at h
    · exact absurd h (by simp)
    · next hb0 =>
      obtain rfl := Option.some.inj h
      have hlt : a / b < 2 ^ bits := (Nat.div_le_self a b).trans_lt hok.1
      simp [wordOp, divU64, hb0, wrapUnsigned, Nat.mod_eq_of_lt hlt]
  | mod =>
    simp only [R1CGen.arithU, wrapUnsigned, Nat.mod_eq_of_lt hok.1, Nat.mod_eq_of_lt hok.2] at h
    split at h
    · exact absurd h (by simp)
    · next hb0 =>
      obtain rfl := Option.some.inj h
      have hlt : a % b < 2 ^ bits := (Nat.mod_le a b).trans_lt hok.1
      simp [wordOp, modU64, hb0, wrapUnsigned, Nat.mod_eq_of_lt hlt]
  | and =>
    obtain rfl := Option.some.inj h
    have hlt : a &&& b < 2 ^ bits := Nat.and_lt_two_pow a hok.2
    simp only [wordOp, wrapUnsigned, Nat.mod_eq_of_lt hok.1, Nat.mod_eq_of_lt hok.2,
      Nat.mod_eq_of_lt hlt]
  | or =>
    obtain rfl := Option.some.inj h
    have hlt : a ||| b < 2 ^ bits := Nat.or_lt_two_pow hok.1 hok.2
    simp only [wordOp, wrapUnsigned, Nat.mod_eq_of_lt hok.1, Nat.mod_eq_of_lt hok.2,
      Nat.mod_eq_of_lt hlt]
  | xor =>
    obtain rfl := Option.some.inj h
    have hlt : a ^^^ b < 2 ^ bits := Nat.xor_lt_two_pow hok.1 hok.2
    simp only [wordOp, wrapUnsigned, Nat.mod_eq_of_lt hok.1, Nat.mod_eq_of_lt hok.2,
      Nat.mod_eq_of_lt hlt]
  | shl =>
    obtain rfl := Option.some.inj h
    have hshift := shiftAmount_eq hok.1 hok.2
    simp only [wordOp, wrapUnsigned, hshift, shlU64_eq hbits hok.1, shiftLeft_mod hbits]
  | shr =>
    obtain rfl := Option.some.inj h
    have hshift := shiftAmount_eq hok.2.1 hok.2.2
    have hlt : a >>> b < 2 ^ bits := (Nat.shiftRight_le a b).trans_lt hok.1
    simp only [wordOp, wrapUnsigned, hshift, ushrU64, Nat.mod_eq_of_lt hok.1,
      Nat.mod_eq_of_lt hok.2.1, Nat.mod_eq_of_lt hlt]

/-- The signed arm computes what the unsigned one does, on the encodings. -/
theorem arithI_eq_wordOp {kind : BinaryArithOpKind} {r : Nat} (hb : b < 2 ^ 64)
    (hok : IntOk bits a b kind)
    (h : R1CGen.arithI kind bits (decodeSigned a bits) (decodeSigned b bits) = some r) :
    wordOp true bits a b kind = some r := by
  have h128 : bits ≤ 128 := by omega
  have hraw : ∀ n, wrapUnsigned (asU128 (decodeSigned n bits)) bits = n % 2 ^ bits :=
    fun n => encodeSigned_decodeSigned h128
  simp only [R1CGen.arithI, hraw] at h
  cases kind with
  | add =>
    obtain rfl := Option.some.inj h
    simp only [wordOp, addInt_eq hbits, encodeSigned_add h128]
  | mul =>
    obtain rfl := Option.some.inj h
    simp only [wordOp, mulInt_eq hbits, encodeSigned_mul h128]
  | sub =>
    obtain rfl := Option.some.inj h
    simp only [wordOp, subInt_eq hbits, encodeSigned_sub hbits hb]
  | div | mod => exact absurd h (by simp)
  | and | or | xor =>
    obtain rfl := Option.some.inj h
    simp only [wordOp, Nat.mod_eq_of_lt hok.1, Nat.mod_eq_of_lt hok.2]
  | shl =>
    obtain rfl := Option.some.inj h
    have hshift := shiftAmount_eq hok.1 hok.2
    simp only [wordOp, wrapUnsigned, hshift, shlU64_eq hbits hok.1, shiftLeft_mod hbits]
  | shr =>
    obtain rfl := Option.some.inj h
    have hshift := shiftAmount_eq hok.2.1 hok.2.2
    simp only [wordOp, hshift, ushrU64, Nat.mod_eq_of_lt hok.1, Nat.mod_eq_of_lt hok.2.1]

end Arith

/-! ## Operations on values

The same on elements of the field, which hold the words.
-/

section Values

variable {bits : Nat} {a b x : Fr} (hbits : bits ≤ 64) (ha : a.val < 2 ^ 64) (hb : b.val < 2 ^ 64)

include hbits hb in
theorem arith_u_eq_wordOp {kind : BinaryArithOpKind} (hok : IntOk bits a.val b.val kind)
    (h : R1CGen.arith kind (.u bits) a b = some x) :
    wordOp false bits a.val b.val kind = some x.val ∧ x.val < 2 ^ 64 := by
  simp only [R1CGen.arith, TypeExpr.stripWitness, Option.bind_eq_bind] at h
  split at h
  · exact absurd h (by simp)
  obtain ⟨na, hna, hrest⟩ := Option.bind_eq_some_iff.mp h
  obtain ⟨nb, hnb, hrest⟩ := Option.bind_eq_some_iff.mp hrest
  obtain ⟨r, hr, hx⟩ := Option.bind_eq_some_iff.mp hrest
  rw [← expectU128_eq hna, ← expectU128_eq hnb] at hr
  have hlt : wrapUnsigned r bits < 2 ^ 64 := mod_two_pow_lt_word hbits r
  rw [arithU_eq_wordOp hbits hb hok hr, ← Option.some.inj hx, val_of_word hlt]
  exact ⟨rfl, hlt⟩

theorem arithI_lt {kind : BinaryArithOpKind} {m n : Int} {r : Nat}
    (h : R1CGen.arithI kind bits m n = some r) : r < 2 ^ bits := by
  have hmod : ∀ k, wrapUnsigned k bits < 2 ^ bits := fun k => Nat.mod_lt _ (Nat.two_pow_pos bits)
  cases kind with
  | add | sub | mul | shl => exact Option.some.inj h ▸ hmod _
  | div | mod => exact absurd h (by simp [R1CGen.arithI])
  | and => exact Option.some.inj h ▸ Nat.and_lt_two_pow _ (hmod _)
  | or => exact Option.some.inj h ▸ Nat.or_lt_two_pow (hmod _) (hmod _)
  | xor => exact Option.some.inj h ▸ Nat.xor_lt_two_pow (hmod _) (hmod _)
  | shr => exact Option.some.inj h ▸ (Nat.shiftRight_le _ _).trans_lt (hmod _)

include hbits hb in
theorem arith_i_eq_wordOp {kind : BinaryArithOpKind} (hok : IntOk bits a.val b.val kind)
    (h : R1CGen.arith kind (.i bits) a b = some x) :
    wordOp true bits a.val b.val kind = some x.val ∧ x.val < 2 ^ 64 := by
  simp only [R1CGen.arith, TypeExpr.stripWitness, Option.bind_eq_bind] at h
  split at h
  · exact absurd h (by simp)
  obtain ⟨na, hna, hrest⟩ := Option.bind_eq_some_iff.mp h
  obtain ⟨nb, hnb, hrest⟩ := Option.bind_eq_some_iff.mp hrest
  obtain ⟨r, hr, hx⟩ := Option.bind_eq_some_iff.mp hrest
  have hlt : r < 2 ^ 64 := (arithI_lt hr).trans_le (Nat.pow_le_pow_right (by norm_num) hbits)
  rw [← expectU128_eq hna, ← expectU128_eq hnb] at hr
  rw [arithI_eq_wordOp hbits hb hok hr, ← Option.some.inj hx, val_of_word hlt]
  exact ⟨rfl, hlt⟩

/-- The complement of a word is the complement of its low bits when the others are set. -/
theorem notU64_eq {t : TypeExpr} (ht : t = .u bits ∨ t = .i bits)
    (hset : a.val / 2 ^ bits = 2 ^ (64 - bits) - 1) (hbits : bits ≤ 64)
    (h : R1CGen.not t a = some x) : notU64 a.val = x.val := by
  have hsize : t.bitSize = some bits := by
    rcases ht with rfl | rfl <;> rfl
  rw [R1CGen.not, hsize] at h
  simp only [Option.bind_eq_bind, Option.bind_some] at h
  split at h
  · next hlt =>
    have hpow : 2 ^ bits * 2 ^ (64 - bits) = 2 ^ 64 := by
      rw [← pow_add, Nat.add_sub_cancel' hbits]
    have hdiv := Nat.div_add_mod a.val (2 ^ bits)
    have hmod := Nat.mod_lt a.val (Nat.two_pow_pos bits)
    rw [hset, Nat.mul_sub, hpow, Nat.mul_one] at hdiv
    rw [← Option.some.inj h, ZMod.val_natCast_of_lt hlt, notU64]
    have hle : 2 ^ bits ≤ 2 ^ 64 := Nat.pow_le_pow_right (by norm_num) hbits
    omega
  · exact absurd h (by simp)

theorem ofBool_val (c : Bool) : (R1CGen.ofBool c).val = Bytecode.ofBool c := by
  cases c <;> rfl

theorem eqU64_eq : eqU64 a.val b.val = (R1CGen.ofBool (a = b)).val := by
  rw [ofBool_val, eqU64]
  congr 1
  exact decide_eq_decide.mpr (ZMod.val_injective modulus).eq_iff

theorem ltS64_eq (hbits : bits ≤ 64) (h : R1CGen.slt bits a b = some x) :
    ltS64 bits a.val b.val = x.val := by
  obtain ⟨na, hna, hrest⟩ := Option.bind_eq_some_iff.mp h
  obtain ⟨nb, hnb, hrest⟩ := Option.bind_eq_some_iff.mp hrest
  split at hrest
  · exact absurd hrest (by simp)
  · have hpos : 0 < bits := by omega
    rw [← Option.some.inj hrest, ofBool_val, ltS64, signExtend_eq hpos hbits,
      signExtend_eq hpos hbits, expectU128_eq hna, expectU128_eq hnb]

end Values

end Mavros.Codegen
