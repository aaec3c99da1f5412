/-
# `Mavros.Lowering.SignedEncoding` — signed integers in two's complement

An operand is decoded by its sign, which is its top bit or known from its interval; a
result is encoded with a sign of the prover's choice.  The check on the encoding leaves
the prover the numbers of the type that have the residue of the result.

## What is proved

* `encode_eq`, `decode_encode`: the sign takes a number of the type to its encoding and back.
* `knownSign_eq`, `lowerSign_ensures`: a sign that is known or computed is the sign.
* `encodeSignedValue_ensures`, `encodeSignedValue_possible`: the encodings that pass are those of
  the numbers that the checks leave (`Represents`), and all of them.

## How it goes

`signCheck_iff` is the heart: what is left of a value without its sign fits in one bit less exactly
if the value is the residue of a number of the type with that sign.  The two signs give the two
halves of the type, and both are shorter than the modulus, so that each half has at most one number
of a residue (`InSigned.eq_of_cast_eq`).
-/
import Mavros.Lowering.IntegerArith

namespace Mavros.Lowering

open Lib Lib.Circuit
open Hlssa (IntInterval)

/-- The number an encoding stands for. -/
def decode (bits : Nat) (x : Fr) : Int :=
  if x.val < 2 ^ (bits - 1) then x.val else x.val - 2 ^ bits

/-- The encoding of a number. -/
def encode (bits : Nat) (z : Int) : Fr := (z % 2 ^ bits : Int)

/-- A number of the type. -/
def InSigned (bits : Nat) (z : Int) : Prop := -2 ^ (bits - 1) ≤ z ∧ z < 2 ^ (bits - 1)

/-- The sign bit of a number. -/
def signOf (z : Int) : Fr := if z < 0 then 1 else 0

/-! ## Numbers and encodings -/

section Encoding

variable {bits : Nat} {x : Fr} {z w : Int}

theorem two_pow_le_of_le (h : bits ≤ 128) : (2 : Int) ^ bits ≤ 2 ^ 128 :=
  pow_le_pow_right₀ (by norm_num) h

theorem two_pow_lt_modulus_int : (2 : Int) ^ 253 < modulus := by
  exact_mod_cast two_pow_lt_modulus le_rfl

theorem InSigned.window (hbits : 1 ≤ bits) (h : bits ≤ 128) (hz : InSigned bits z) :
    -2 ^ 127 ≤ z ∧ z < 2 ^ 127 := by
  have hpow := two_pow_succ_pred hbits
  have hle := two_pow_le_of_le h
  obtain ⟨hlo, hhi⟩ := hz
  omega

theorem decode_nonneg (h : x.val < 2 ^ (bits - 1)) : 0 ≤ decode bits x := by
  rw [decode, if_pos h]
  exact Int.natCast_nonneg _

theorem decode_neg (hx : InType bits x) (h : ¬x.val < 2 ^ (bits - 1)) : decode bits x < 0 := by
  have hlt : (x.val : Int) < 2 ^ bits := by exact_mod_cast hx
  rw [decode, if_neg h]
  omega

theorem decode_inSigned (hbits : 1 ≤ bits) (hx : InType bits x) :
    InSigned bits (decode bits x) := by
  have hpow := two_pow_succ_pred hbits
  have hlt : (x.val : Int) < 2 ^ bits := by exact_mod_cast hx
  have hcast : ((2 ^ (bits - 1) : Nat) : Int) = 2 ^ (bits - 1) := by push_cast; rfl
  unfold InSigned decode
  split <;> omega

/-- The sign takes an encoding to its number. -/
theorem signedValueFromEncoded_signOf (hx : InType bits x) :
    signedValueFromEncoded x (signOf (decode bits x)) bits = (decode bits x : Fr) := by
  unfold signedValueFromEncoded signOf twoPow
  by_cases h : x.val < 2 ^ (bits - 1)
  · rw [if_neg (decode_nonneg h).not_gt, decode, if_pos h]
    push_cast
    rw [natCast_val]
    ring
  · rw [if_pos (decode_neg hx h), decode, if_neg h]
    push_cast
    rw [natCast_val]
    ring

/-- The top bit of an encoding is the sign of its number. -/
theorem topBit_eq_signOf (hbits : 1 ≤ bits) (hx : InType bits x) :
    ((x.val / 2 ^ (bits - 1) % 2 ^ 1 : Nat) : Fr) = signOf (decode bits x) := by
  unfold signOf
  by_cases h : x.val < 2 ^ (bits - 1)
  · rw [if_neg (decode_nonneg h).not_gt, Nat.div_eq_of_lt h]
    simp
  · have hlt : x.val < 2 ^ (bits - 1) * 2 := by
      rw [← pow_succ, Nat.sub_add_cancel hbits]
      exact hx
    have hone : x.val / 2 ^ (bits - 1) = 1 :=
      Nat.div_eq_of_lt_le (by omega) (by omega)
    rw [if_pos (decode_neg hx h), hone]
    simp

/-- The sign takes a number of the type to its encoding. -/
theorem encode_eq (hbits : 1 ≤ bits) (hw : InSigned bits w) :
    encode bits w = (w : Fr) + signOf w * twoPow bits := by
  have hpow := two_pow_succ_pred hbits
  obtain ⟨hlo, hhi⟩ := hw
  rw [encode, emod_eq_ite (by omega) (by omega), signOf, twoPow]
  split
  · push_cast
    ring
  · ring

/-- Two numbers of the type are at most one residue. -/
theorem InSigned.eq_of_cast_eq (hbits : 1 ≤ bits) (h : bits ≤ 128) (hz : InSigned bits z)
    (hw : InSigned bits w) (hcast : (w : Fr) = z) : w = z := by
  have hmod := two_pow_lt_modulus_int
  have hz := hz.window hbits h
  have hw := hw.window hbits h
  exact eq_of_intCast_eq hcast (by omega) (by omega)

theorem encode_val (hbits : 1 ≤ bits) (h : bits ≤ 128) (hw : InSigned bits w) :
    ((encode bits w).val : Int) = if w < 0 then w + 2 ^ bits else w := by
  have hpow := two_pow_succ_pred hbits
  have hle := two_pow_le_of_le h
  have hmod := two_pow_lt_modulus_int
  have hpos : (0 : Int) < 2 ^ bits := by positivity
  have hnonneg := Int.emod_nonneg w hpos.ne'
  have hlt := Int.emod_lt_of_pos w hpos
  obtain ⟨hlo, hhi⟩ := hw
  rw [encode, val_intCast_of_mem hnonneg (by omega), emod_eq_ite (by omega) (by omega)]

theorem decode_encode (hbits : 1 ≤ bits) (h : bits ≤ 128) (hw : InSigned bits w) :
    decode bits (encode bits w) = w := by
  have hpow := two_pow_succ_pred hbits
  have hval := encode_val hbits h hw
  have hcast : ((2 ^ (bits - 1) : Nat) : Int) = 2 ^ (bits - 1) := by push_cast; rfl
  obtain ⟨hlo, hhi⟩ := hw
  unfold decode
  split at hval <;> split <;> omega

theorem encode_inType (hbits : 1 ≤ bits) (h : bits ≤ 128) (hw : InSigned bits w) :
    InType bits (encode bits w) := by
  have hpow := two_pow_succ_pred hbits
  have hval := encode_val hbits h hw
  have hcast : ((2 ^ bits : Nat) : Int) = 2 ^ bits := by push_cast; rfl
  obtain ⟨hlo, hhi⟩ := hw
  unfold InType
  split at hval <;> omega

/-- A number with the interval of its signed type. -/
def signedOperand (bits id : Nat) (z : Int) : Operand :=
  ⟨id, encode bits z, true, .closed (-2 ^ (bits - 1)) (2 ^ (bits - 1) - 1)⟩

theorem signedOperand_contains (hbits : 1 ≤ bits) (h : bits ≤ 128) {id : Nat}
    (hz : InSigned bits z) :
    (signedOperand bits id z).range.Contains (decode bits (signedOperand bits id z).value) := by
  have hdecode : decode bits (signedOperand bits id z).value = z := decode_encode hbits h hz
  obtain ⟨hlo, hhi⟩ := hz
  rw [hdecode]
  exact IntInterval.contains_closed hlo (by omega)

end Encoding

/-! ## The sign of an operand

Known from the interval, or cut out as the top bit.
-/

section Sign

variable {σ : Type} {P : Prover Fr σ} {range : IntInterval} {bits : Nat} {z : Int} {x : Operand}

theorem isStrictlyNegative_lt (hz : range.Contains z) (h : isStrictlyNegative range) : z < 0 := by
  obtain ⟨lo, hi⟩ := range
  cases hi with
  | none => simp [isStrictlyNegative] at h
  | some hi =>
    have hneg : hi < 0 := by simpa [isStrictlyNegative] using h
    exact (hz.2 hi rfl).trans_lt hneg

/-- A known sign is the sign. -/
theorem knownSign_eq (hz : range.Contains z) {negative : Bool}
    (h : knownSign range bits = some negative) : signOf z = if negative then 1 else 0 := by
  unfold knownSign at h
  split at h
  · next hnonneg =>
    obtain rfl := Option.some.inj h
    exact if_neg (hz.nonNegativeInSigned hnonneg).1.not_gt
  · split at h
    · next hneg =>
      obtain rfl := Option.some.inj h
      exact if_pos (isStrictlyNegative_lt hz hneg)
    · simp at h

theorem lowerSign_ensures (hbits : 1 ≤ bits) (h : bits ≤ 128) (hx : InType bits x.value)
    (hc : x.range.Contains (decode bits x.value)) :
    Ensures (lowerSign P x bits) fun s => s = signOf (decode bits x.value) := by
  unfold lowerSign
  split
  · next hknown => exact .pure (by rw [knownSign_eq hc hknown]; rfl)
  · next hknown => exact .pure (by rw [knownSign_eq hc hknown]; rfl)
  · rw [← topBit_eq_signOf hbits hx]
    exact lowerBitRange_ensures x.isWitness (by omega) h

theorem lowerSign_completes (hbits : 1 ≤ bits) (h : bits ≤ 128) (hx : InType bits x.value)
    (hc : x.range.Contains (decode bits x.value)) :
    Gadget.Completes (fun _ P => lowerSign P x bits) (signOf (decode bits x.value)) := by
  unfold lowerSign
  split
  · next hknown =>
    rw [knownSign_eq hc hknown]
    exact .pure
  · next hknown =>
    rw [knownSign_eq hc hknown]
    exact .pure
  · rw [← topBit_eq_signOf hbits hx]
    exact lowerBitRange_completes x.isWitness hx (by omega) h

end Sign

/-! ## The encoding of a result

The sign is written, and the check is on the rest.
-/

section Result

variable {σ : Type} {P : Prover Fr σ} {guard : Option Fr} {hint : Option Fr} {range : IntInterval}
  {bits : Nat} {v s : Fr} {z w : Int}

theorem signOf_eq_zero_or_one (w : Int) : signOf w = 0 ∨ signOf w = 1 := by
  unfold signOf
  split
  · exact .inr rfl
  · exact .inl rfl

/-- What is left of a value without its sign fits in one bit less: the value is the
residue of a number of the type with this sign. -/
theorem signCheck_iff (hbits : 1 ≤ bits) (h : bits ≤ 128) (hs : s = 0 ∨ s = 1) :
    (v + s * twoPow (bits - 1)).val < 2 ^ (bits - 1) ↔
      ∃ w, InSigned bits w ∧ (w : Fr) = v ∧ s = signOf w := by
  have hpow := two_pow_succ_pred hbits
  have hle := two_pow_le_of_le h
  have hmod := two_pow_lt_modulus_int
  have hcast : ((2 ^ (bits - 1) : Nat) : Int) = 2 ^ (bits - 1) := by push_cast; rfl
  have hpos : (0 : Int) < 2 ^ (bits - 1) := by positivity
  constructor
  · intro hlt
    generalize hu : v + s * twoPow (bits - 1) = u at hlt
    have huval := natCast_val u
    rcases hs with rfl | rfl
    · refine ⟨u.val, ⟨by omega, by omega⟩, ?_, (if_neg (by omega)).symm⟩
      rw [Int.cast_natCast, huval, ← hu]
      ring
    · refine ⟨u.val - 2 ^ (bits - 1), ⟨by omega, by omega⟩, ?_, (if_pos (by omega)).symm⟩
      push_cast
      rw [huval, ← hu, twoPow]
      ring
  · rintro ⟨w, ⟨hlo, hhi⟩, rfl, rfl⟩
    have hterm : (w : Fr) + signOf w * twoPow (bits - 1)
        = ((if w < 0 then w + 2 ^ (bits - 1) else w : Int) : Fr) := by
      unfold signOf twoPow
      split
      · push_cast
        ring
      · ring
    rw [hterm, val_intCast_lt (by split <;> omega) (by split <;> omega)]
    split <;> omega

theorem enforceSignedEncodingSign_eq_some (hbits : 1 ≤ bits) (hguard : Active guard) {st : σ}
    {r : Unit × σ} :
    enforceSignedEncodingSign (v + s * twoPow bits) s bits guard st = some r ↔
      (v + s * twoPow (bits - 1)).val < 2 ^ (bits - 1) ∧ r = ((), st) := by
  unfold enforceSignedEncodingSign
  split
  · next hone =>
    subst hone
    have hterm : v + s * twoPow 1 - s = v + s := by rw [twoPow]; ring
    have hterm' : s - (v + s * twoPow 1) = -(v + s) := by rw [twoPow]; ring
    have hone : v + s * twoPow (1 - 1) = v + s := by rw [twoPow]; simp
    rw [hterm, hterm', hone]
    generalize v + s = u
    -- a bit whose negation is a bit is zero
    have hbit : u.val < 2 ^ (1 - 1) ↔ u.val < 2 ^ 1 ∧ (-u).val < 2 ^ 1 := by
      constructor
      · intro h
        have hu : u = 0 := (ZMod.val_eq_zero u).mp (by omega)
        simp [hu]
      · rintro ⟨h, hneg⟩
        rcases eq_zero_or_one_of_val_lt h with rfl | rfl
        · simp
        · exact absurd hneg (by decide +kernel)
    rw [hbit]
    constructor
    · intro h
      obtain ⟨_, t, hfirst, hsecond⟩ := bind_eq_some.mp h
      obtain ⟨hu, ht⟩ := (guardedRangecheck_eq_some hguard).mp hfirst
      obtain ⟨-, rfl⟩ := Prod.mk.inj ht
      obtain ⟨hneg, hr⟩ := (guardedRangecheck_eq_some hguard).mp hsecond
      exact ⟨⟨hu, hneg⟩, hr⟩
    · rintro ⟨⟨hu, hneg⟩, rfl⟩
      exact (bind_run (guardedRangecheck_run hu st)).trans (guardedRangecheck_run hneg st)
  · next hne =>
    have hterm : v + s * twoPow bits - s * twoPow (bits - 1) = v + s * twoPow (bits - 1) := by
      obtain ⟨n, rfl⟩ : ∃ n, bits = n + 1 := ⟨bits - 1, by omega⟩
      rw [twoPow, twoPow, Nat.add_sub_cancel, pow_succ]
      ring
    rw [hterm, guardedRangecheck_eq_some hguard]

/-- A number that the checks on a result leave: it is one of the type, has the residue of
the result, and a sign that the interval allows. -/
structure Represents (range : IntInterval) (bits : Nat) (v : Fr) (w : Int) : Prop where
  inSigned : InSigned bits w
  residue : (w : Fr) = v
  nonneg : range.isNonNegativeInSigned bits → 0 ≤ w
  neg : isStrictlyNegative range → w < 0

/-- The result itself, where it has the type. -/
theorem Represents.self (hz : range.Contains z) (h : InSigned bits z) :
    Represents range bits (z : Fr) z where
  inSigned := h
  residue := rfl
  nonneg hr := (hz.nonNegativeInSigned hr).1
  neg := isStrictlyNegative_lt hz

theorem signOf_eq_zero_iff : signOf w = 0 ↔ 0 ≤ w := by
  unfold signOf
  split <;> simp <;> omega

theorem signOf_eq_one_iff : signOf w = 1 ↔ w < 0 := by
  unfold signOf
  split <;> simp <;> omega

theorem resultSign_ensures (hguard : Active guard) (hz : range.Contains z) :
    Ensures (resultSign P hint range bits guard) fun s => (s = 0 ∨ s = 1) ∧
      (range.isNonNegativeInSigned bits → s = 0) ∧ (isStrictlyNegative range → s = 1) := by
  unfold resultSign
  split
  · next h =>
    refine .pure ⟨.inl rfl, fun _ => rfl, fun hneg => ?_⟩
    have := isStrictlyNegative_lt hz hneg
    have := (hz.nonNegativeInSigned h).1
    omega
  · next h =>
    split
    · next hneg => exact .pure ⟨.inr rfl, fun h' => absurd h' h, fun _ => rfl⟩
    · next hneg =>
      refine .bind .any fun s _ => .bind (ensures_guardedRangecheck hguard) fun _ hs => .pure ?_
      exact ⟨eq_zero_or_one_of_val_lt hs, fun h' => absurd h' h, fun h' => absurd h' hneg⟩

/-- Every result is the encoding of a number that the checks leave. -/
theorem encodeSignedValue_ensures (hbits : 1 ≤ bits) (h : bits ≤ 128) (hguard : Active guard)
    (hz : range.Contains z) :
    Ensures (encodeSignedValue P (z : Fr) hint range bits guard) fun r =>
      ∃ w, Represents range bits (z : Fr) w ∧ r = encode bits w := by
  unfold encodeSignedValue
  refine .bind (resultSign_ensures hguard hz) fun s hsign => ?_
  obtain ⟨hs, hnonneg, hneg⟩ := hsign
  simp only [guardedOrZeroField_of_active hguard]
  split
  · -- checked: some number of the type with this sign
    have hcheck : Ensures (enforceSignedEncodingSign ((z : Fr) + s * twoPow bits) s bits guard :
        Circuit σ Unit) fun _ => ∃ w, InSigned bits w ∧ (w : Fr) = (z : Fr) ∧ s = signOf w :=
      fun _ _ _ hrun => (signCheck_iff hbits h hs).mp
        ((enforceSignedEncodingSign_eq_some hbits hguard).mp hrun).1
    refine .bind hcheck fun _ hw => .pure ?_
    obtain ⟨w, hin, hres, rfl⟩ := hw
    refine ⟨w, ⟨hin, hres, fun hr => signOf_eq_zero_iff.mp (hnonneg hr), fun hr =>
      signOf_eq_one_iff.mp (hneg hr)⟩, ?_⟩
    rw [encode_eq hbits hin, hres]
  · next hcond =>
    -- not checked: the interval shows that the result has the type, and its sign
    have hfits : range.fitsInSignedBits bits := by
      by_contra hfits
      simp [hfits] at hcond
    have hin : InSigned bits z := hz.fitsInSignedBits (by omega) hfits
    refine .pure ⟨z, .self hz hin, ?_⟩
    have hsz : s = signOf z := by
      by_cases hr : range.isNonNegativeInSigned bits
      · rw [hnonneg hr, signOf_eq_zero_iff.mpr (hz.nonNegativeInSigned hr).1]
      · have hr' : isStrictlyNegative range := by
          by_contra hr'
          simp [knownSign, hr, hr'] at hcond
        rw [hneg hr', signOf_eq_one_iff.mpr (isStrictlyNegative_lt hz hr')]
    rw [encode_eq hbits hin, hsz]

/-- With the sign of such a number the checks pass. -/
theorem encodeSignedValue_after_sign (hbits : 1 ≤ bits) (h : bits ≤ 128) (hguard : Active guard)
    (hw : Represents range bits v w) :
    Gadget.Completes (F := Fr) (fun _ _ => do
      if !range.fitsInSignedBits bits || (knownSign range bits).isNone then
        enforceSignedEncodingSign (v + signOf w * twoPow bits) (signOf w) bits guard
      return guardedOrZeroField (v + signOf w * twoPow bits) guard) (encode bits w) := by
  have hencode : v + signOf w * twoPow bits = encode bits w := by
    rw [encode_eq hbits hw.inSigned, hw.residue]
  rw [guardedOrZeroField_of_active hguard, hencode]
  split
  · have hcheck := (signCheck_iff hbits h (signOf_eq_zero_or_one w)).mpr
      ⟨w, hw.inSigned, hw.residue, rfl⟩
    refine ⟨[], fun σ P s t hst => ?_⟩
    obtain rfl : s = t := hst
    rw [← hencode]
    exact bind_run ((enforceSignedEncodingSign_eq_some hbits hguard).mpr ⟨hcheck, rfl⟩)
  · exact .pure

theorem resultSign_possible (hw : Represents range bits v w) :
    Gadget.Possible (fun _ P => resultSign P hint range bits guard) (signOf w) := by
  unfold resultSign
  split
  · next hr =>
    rw [signOf_eq_zero_iff.mpr (hw.nonneg hr)]
    exact .pure
  · split
    · next hr =>
      rw [signOf_eq_one_iff.mpr (hw.neg hr)]
      exact .pure
    · refine (possible_writeWitness _ _).bind
        (.bind (completes_guardedRangecheck ?_).possible .pure)
      rcases signOf_eq_zero_or_one w with h | h <;> rw [h] <;> decide

/-- The hint's top bit is the sign. -/
theorem resultSign_completes {e : Fr} (hw : Represents range bits v w)
    (he : lowerPureBitRangeValue e (bits - 1) 1 = signOf w) :
    Gadget.Completes (fun _ P => resultSign P (some e) range bits guard) (signOf w) := by
  unfold resultSign
  split
  · next hr =>
    rw [signOf_eq_zero_iff.mpr (hw.nonneg hr)]
    exact .pure
  · split
    · next hr =>
      rw [signOf_eq_one_iff.mpr (hw.neg hr)]
      exact .pure
    · rw [Option.map_some, he]
      refine (completes_writeWitness _).bind ((completes_guardedRangecheck ?_).bind .pure)
      rcases signOf_eq_zero_or_one w with h | h <;> rw [h] <;> decide

theorem encodeSignedValue_possible (hbits : 1 ≤ bits) (h : bits ≤ 128) (hguard : Active guard)
    (hw : Represents range bits v w) :
    Gadget.Possible (fun _ P => encodeSignedValue P v hint range bits guard) (encode bits w) :=
  (resultSign_possible hw).bind (encodeSignedValue_after_sign hbits h hguard hw).possible

theorem encodeSignedValue_completes {e : Fr} (hbits : 1 ≤ bits) (h : bits ≤ 128)
    (hguard : Active guard) (hw : Represents range bits v w)
    (he : lowerPureBitRangeValue e (bits - 1) 1 = signOf w) :
    Gadget.Completes (fun _ P => encodeSignedValue P v (some e) range bits guard) (encode bits w) :=
  (resultSign_completes hw he).bind (encodeSignedValue_after_sign hbits h hguard hw)

end Result

end Mavros.Lowering
