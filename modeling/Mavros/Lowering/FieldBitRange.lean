/-
# `Mavros.Lowering.FieldBitRange` — bits of a field element

`BitRange` on a witness of the field.  The element is written as 32 bytes, which must make
up a number below the modulus; the bits below both ends of the range are read off them,
and where an end lies inside a byte that byte is split.  The bytes are unique, the split
is not: the low part is bounded from above alone.

## What is proved

* `lowerWitnessFieldBitRange_spec`: for every element and every range within 254 bits, the result
  is the range under every prover exactly where, at both ends, the bits up to the end of the byte
  are all ones (`HighOnes`; at the end of a byte there are none).
* `lowerWitnessFieldBitRange_counterexample`: the low four bits of zero can be minus sixteen.

## How it goes

* The bytes: `decompose_canonical_field_bytes` is sound, since the comparison with the modulus,
  made by halves, is the comparison (`belowModulus_iff`), and 32 bytes of a number below it are
  unique.
* The split of a byte: the high part may exceed what it should be by as much as its width leaves
  (`split_ensures`), and any such excess is possible (`split_possible`).
* The low bits at an end are then off by a multiple of a power of two (`lowBits_ensures`), and the
  range by what both ends are off.  An equivalence is reached because each step has its converse.
-/
import Mathlib.Tactic.LinearCombination
import Mavros.Lib.BigEndian
import Mavros.Lowering.Builder

namespace Mavros.Lowering

open Lib Lib.Circuit

/-! ## The gadget

Bytes into limbs, limbs into halves, and the split where an end needs it.
-/

/-- The bytes so far, the limbs of eight bytes they make up, and their sum. -/
structure ByteSums where
  bytes : List Fr
  limbs : Nat → Fr
  fullSum : Fr

/-- A byte goes into its limb. -/
def pushLimb (limbs : Nat → Fr) (limbIdx : Nat) (byte : Fr) : Nat → Fr :=
  fun j => if j = limbIdx then limbs limbIdx * 256 + byte else limbs j

def ByteSums.push (s : ByteSums) (i : Nat) (byte : Fr) : ByteSums where
  bytes := s.bytes ++ [byte]
  limbs := pushLimb s.limbs (i / 8) byte
  fullSum := s.fullSum * 256 + byte

def modulusHi : Nat := 0x30644e72e131a029b85045b68181585d

def modulusLoM1 : Nat := 0x2833e84879b9709143e1f593f0000000

section Definitions

variable {σ : Type} (P : Prover Fr σ)

def lookupRngchk8 (x : Fr) : Circuit σ Unit := rangecheck 8 x

/-- The loop over the upper 31 bytes of `decompose_canonical_field_bytes`. -/
def writeByte (value : Fr) (s : ByteSums) (i : Nat) : Circuit σ ByteSums := do
  let byte ← writeWitness P (some (value.val / 256 ^ (31 - i) % 256 : Nat))
  lookupRngchk8 byte
  return s.push i byte

/-- Whether the low limbs are above those of the modulus. -/
def borrowHint (limb2 limb3 : Fr) : Fr :=
  let limb2 := (castHint 64 limb2).val
  let limb3 := (castHint 64 limb3).val
  let hiLt : Fr := if 0x2833e84879b97091 < limb2 then 1 else 0
  let hiEq : Fr := if 0x2833e84879b97091 = limb2 then 1 else 0
  let loLt : Fr := if 0x43e1f593f0000000 < limb3 then 1 else 0
  hiLt + hiEq * loLt

/-- `decompose_canonical_field_bytes`. -/
def decomposeCanonicalFieldBytes (value : Fr) : Circuit σ (List Fr) := do
  let s ← (List.range 31).foldlM (writeByte P value) ⟨[], fun _ => 0, 0⟩
  let lsb := value - s.fullSum * 256
  lookupRngchk8 lsb
  let limbs := pushLimb s.limbs 3 lsb
  let hi := limbs 0 * twoPow 64 + limbs 1
  let lo := limbs 2 * twoPow 64 + limbs 3
  let borrow ← writeWitness P (some (borrowHint (limbs 2) (limbs 3)))
  constrain borrow borrow borrow
  let resultLo := (modulusLoM1 : Fr) - lo + borrow * twoPow 128
  let resultHi := (modulusHi : Fr) - hi - borrow
  rangecheck 128 resultHi
  rangecheck 128 resultLo
  return s.bytes ++ [lsb]

/-- `split_partial_field_byte`: the low bits of a byte. -/
def splitPartialFieldByte (byte : Fr) (loSize : Nat) : Circuit σ Fr := do
  let hiSize := 8 - loSize
  let hi ← writeWitness P (some ((castHint 8 byte).val / 2 ^ loSize : Nat))
  lookupRngchk8 ((2 ^ hiSize - 1 : Nat) - hi)
  let lo := byte - hi * (2 ^ loSize : Nat)
  lookupRngchk8 ((2 ^ loSize - 1 : Nat) - lo)
  return lo

/-- One turn of the loop of `lower_field_low_bits_from_bytes`: the first byte may be partial. -/
def addByte (start partialBits : Nat) (value : Fr) (entry : Fr × Nat) : Circuit σ Fr := do
  let elem ← (if entry.2 = start ∧ 0 < partialBits then
      splitPartialFieldByte P entry.1 partialBits
    else pure entry.1 : Circuit σ Fr)
  return value * 256 + elem

/-- `lower_field_low_bits_from_bytes`. -/
def lowerFieldLowBitsFromBytes (bytes : List Fr) (bits : Nat) : Circuit σ Fr :=
  if bits = 0 then pure 0
  else
    let fullBytes := bits / 8
    let partialBits := bits % 8
    let start := 32 - fullBytes - (if 0 < partialBits then 1 else 0)
    (bytes.zipIdx.drop start).foldlM (addByte P start partialBits) 0

/-- `lower_field_bit_range_from_bytes`. -/
def lowerFieldBitRangeFromBytes (bytes : List Fr) (offset width : Nat) : Circuit σ Fr := do
  let lowEnd ← lowerFieldLowBitsFromBytes P bytes (offset + width)
  let lowStart ← lowerFieldLowBitsFromBytes P bytes offset
  return (lowEnd - lowStart) / twoPow offset

/-- `lower_witness_field_bit_range`. -/
def lowerWitnessFieldBitRange (value : Fr) (offset width : Nat) : Circuit σ Fr := do
  let bytes ← decomposeCanonicalFieldBytes P value
  lowerFieldBitRangeFromBytes P bytes offset width

end Definitions

/-! ## The bytes

All 31 that are written, and the last one, which is what remains.
-/

def fieldBytes (ns : List Nat) : List Fr := ns.map (Nat.cast : Nat → Fr)

/-- The sums of a list of bytes. -/
def ByteSums.of (ns : List Nat) : ByteSums where
  bytes := fieldBytes ns
  limbs j := (bigEndian 256 ((ns.drop (8 * j)).take 8) : Nat)
  fullSum := (bigEndian 256 ns : Nat)

theorem limb_concat (ns : List Nat) (n j : Nat) :
    bigEndian 256 (((ns ++ [n]).drop (8 * j)).take 8)
      = if j = ns.length / 8 then bigEndian 256 ((ns.drop (8 * j)).take 8) * 256 + n
        else bigEndian 256 ((ns.drop (8 * j)).take 8) := by
  split
  · next h =>
    have hlen : (ns.drop (8 * j)).length ≤ 7 := by
      rw [List.length_drop]
      omega
    rw [List.drop_append_of_le_length (by omega), List.take_of_length_le (by simp; omega),
      List.take_of_length_le (by omega), bigEndian_concat]
  · next h =>
    rcases Nat.lt_or_gt_of_ne h with hlt | hgt
    · rw [List.drop_append_of_le_length (by omega), List.take_append_of_le_length]
      rw [List.length_drop]
      omega
    · rw [List.drop_eq_nil_of_le (by simp; omega), List.drop_eq_nil_of_le (by omega)]

theorem ByteSums.of_push (ns : List Nat) (n : Nat) :
    (ByteSums.of ns).push ns.length (n : Fr) = ByteSums.of (ns ++ [n]) := by
  unfold ByteSums.push ByteSums.of pushLimb
  congr 1
  · simp [fieldBytes]
  · funext j
    rw [limb_concat]
    split
    · next h =>
      subst h
      push_cast
      rfl
    · rfl
  · rw [bigEndian_concat]
    push_cast
    rfl

/-- Bytes, as the lookups bound them. -/
def Bytes (ns : List Nat) : Prop := ∀ n ∈ ns, n < 256

theorem Bytes.concat {ns : List Nat} (h : Bytes ns) {n : Nat} (hn : n < 256) :
    Bytes (ns ++ [n]) :=
  List.forall_mem_append.mpr ⟨h, List.forall_mem_singleton.mpr hn⟩

section Loop

variable {σ : Type} {P : Prover Fr σ} {value : Fr}

theorem byteSums_nil : (⟨[], fun _ => 0, 0⟩ : ByteSums) = .of [] := by
  simp [ByteSums.of, fieldBytes]

/-- The loop writes 31 bytes. -/
theorem writeBytes_ensures :
    Ensures ((List.range 31).foldlM (writeByte P value) ⟨[], fun _ => 0, 0⟩) fun s =>
      ∃ ns, s = .of ns ∧ ns.length = 31 ∧ Bytes ns := by
  refine Ensures.foldlM_range (I := fun i s => ∃ ns, s = ByteSums.of ns ∧ ns.length = i ∧
    Bytes ns) ?_ ⟨[], byteSums_nil, rfl, List.forall_mem_nil _⟩
  intro i _ s hs
  obtain ⟨ns, rfl, rfl, hbytes⟩ := hs
  unfold writeByte lookupRngchk8
  refine .bind .any fun byte _ => .bind ensures_rangecheck fun _ hbyte => .pure ?_
  refine ⟨ns ++ [byte.val], ?_, by simp, hbytes.concat hbyte⟩
  rw [← ByteSums.of_push, natCast_val]

/-- Every 31 bytes are possible. -/
theorem writeBytes_possible {ns : List Nat} (hlen : ns.length = 31) (hbytes : Bytes ns) :
    Gadget.Possible (fun _ P => (List.range 31).foldlM (writeByte P value) ⟨[], fun _ => 0, 0⟩)
      (.of ns) := by
  have hloop := Gadget.Possible.foldlM_range (F := Fr) (n := 31)
    (c := fun _ P => writeByte P value) (f := fun i => ByteSums.of (ns.take i)) ?_
  · rw [byteSums_nil, ← List.take_zero (l := ns)]
    simpa [← hlen] using hloop
  · intro i hi
    have hi' : i < ns.length := by omega
    have htake : (ns.take i).length = i := List.length_take_of_le hi'.le
    have hpush := ByteSums.of_push (ns.take i) ns[i]
    rw [htake, List.take_append_getElem hi'] at hpush
    unfold writeByte lookupRngchk8
    refine .bind (possible_writeWitness (ns[i] : Fr) _)
      (.bind (completes_rangecheck (val_byte (hbytes _ (List.getElem_mem hi')))).possible ?_)
    rw [hpush]
    exact .pure

end Loop

/-! ### Below the modulus -/

section Canonical

variable {ns : List Nat}

/-- A limb of eight bytes. -/
def limb (ns : List Nat) (j : Nat) : Nat := bigEndian 256 ((ns.drop (8 * j)).take 8)

theorem Bytes.limb_lt (h : Bytes ns) (j : Nat) : limb ns j < 2 ^ 64 := by
  have hlimb : ∀ d ∈ (ns.drop (8 * j)).take 8, d < 256 := by
    intro d hd
    exact h d (List.mem_of_mem_drop (List.mem_of_mem_take hd))
  calc limb ns j < 256 ^ ((ns.drop (8 * j)).take 8).length := bigEndian_lt (by norm_num) hlimb
    _ ≤ 256 ^ 8 := Nat.pow_le_pow_right (by norm_num) (List.length_take_le _ _)
    _ = 2 ^ 64 := by norm_num

/-- The limb above the limbs that follow it. -/
theorem bigEndian_drop (hlen : ns.length = 32) {j k : Nat} (hjk : j + 1 + k = 4) :
    bigEndian 256 (ns.drop (8 * j))
      = limb ns j * 2 ^ (64 * k) + bigEndian 256 (ns.drop (8 * (j + 1))) := by
  have hrest : (ns.drop (8 * j)).drop 8 = ns.drop (8 * (j + 1)) := by
    rw [List.drop_drop]
    congr 1
  have hlength : (ns.drop (8 * (j + 1))).length = 8 * k := by
    rw [List.length_drop]
    omega
  have hpow : (256 : Nat) ^ (8 * k) = 2 ^ (64 * k) := by
    rw [show (256 : Nat) = 2 ^ 8 from rfl, ← pow_mul, ← Nat.mul_assoc]
  conv_lhs => rw [← List.take_append_drop 8 (ns.drop (8 * j)), hrest]
  rw [bigEndian_append, hlength, hpow, limb]

theorem bigEndian_limbs (hlen : ns.length = 32) : bigEndian 256 ns
    = (limb ns 0 * 2 ^ 64 + limb ns 1) * 2 ^ 128 + (limb ns 2 * 2 ^ 64 + limb ns 3) := by
  calc bigEndian 256 ns = bigEndian 256 (ns.drop (8 * 0)) := rfl
    _ = limb ns 0 * 2 ^ (64 * 3) + (limb ns 1 * 2 ^ (64 * 2) + (limb ns 2 * 2 ^ (64 * 1)
        + (limb ns 3 * 2 ^ (64 * 0) + bigEndian 256 (ns.drop (8 * 4))))) := by
      rw [bigEndian_drop hlen (show 0 + 1 + 3 = 4 from rfl),
        bigEndian_drop hlen (show 1 + 1 + 2 = 4 from rfl),
        bigEndian_drop hlen (show 2 + 1 + 1 = 4 from rfl),
        bigEndian_drop hlen (show 3 + 1 + 0 = 4 from rfl)]
    _ = _ := by
      rw [List.drop_eq_nil_of_le (by omega), bigEndian_nil]
      ring

/-- The comparison with the modulus less one, half by half. -/
structure BelowModulus (hi lo borrow : Nat) : Prop where
  bit : borrow = 0 ∨ borrow = 1
  hi : (hi + borrow : Int) ≤ modulusHi
  lo : (0 : Int) ≤ modulusLoM1 - lo + borrow * 2 ^ 128 ∧
    (modulusLoM1 - lo + borrow * 2 ^ 128 : Int) < 2 ^ 128

theorem modulus_halves : modulus = modulusHi * 2 ^ 128 + modulusLoM1 + 1 := by
  norm_num [modulus, modulusHi, modulusLoM1]

theorem BelowModulus.lt {hi lo borrow : Nat} (h : BelowModulus hi lo borrow) :
    hi * 2 ^ 128 + lo < modulus := by
  obtain ⟨hbit, hhi, hlo, -⟩ := h
  have := modulus_halves
  rcases hbit with rfl | rfl <;> omega

theorem belowModulus_of_lt {hi lo : Nat} (hlo : lo < 2 ^ 128) (h : hi * 2 ^ 128 + lo < modulus) :
    ∃ borrow, BelowModulus hi lo borrow := by
  have hmod := modulus_halves
  have hlo1 : modulusLoM1 < 2 ^ 128 := by norm_num [modulusLoM1]
  by_cases hle : lo ≤ modulusLoM1
  · exact ⟨0, .inl rfl, by omega, by omega, by omega⟩
  · exact ⟨1, .inr rfl, by omega, by omega, by omega⟩

/-- The two range checks are the comparison. -/
theorem belowModulus_iff {hi lo borrow : Nat} (hhi : hi < 2 ^ 128) (hlo : lo < 2 ^ 128)
    (hbit : borrow = 0 ∨ borrow = 1) :
    ((modulusHi : Fr) - (hi : Nat) - (borrow : Nat)).val < 2 ^ 128 ∧
      ((modulusLoM1 : Fr) - (lo : Nat) + (borrow : Nat) * twoPow 128).val < 2 ^ 128 ↔
    BelowModulus hi lo borrow := by
  have hmod : (2 : Int) ^ 128 + 2 ^ 129 ≤ modulus := by norm_num [modulus]
  have hhi1 : (modulusHi : Int) < 2 ^ 128 := by norm_num [modulusHi]
  have hlo1 : (modulusLoM1 : Int) < 2 ^ 128 := by norm_num [modulusLoM1]
  have hcastHi : (modulusHi : Fr) - (hi : Nat) - (borrow : Nat)
      = ((modulusHi - hi - borrow : Int) : Fr) := by push_cast; ring
  have hcastLo : (modulusLoM1 : Fr) - (lo : Nat) + (borrow : Nat) * twoPow 128
      = ((modulusLoM1 - lo + borrow * 2 ^ 128 : Int) : Fr) := by
    rw [twoPow]
    push_cast
    ring
  have hborrow : borrow ≤ 1 := by omega
  rw [hcastHi, hcastLo, val_intCast_lt (by omega) (by omega), val_intCast_lt (by omega) (by omega)]
  constructor
  · rintro ⟨⟨hhi0, -⟩, hlo0⟩
    exact ⟨hbit, by omega, hlo0⟩
  · intro h
    exact ⟨⟨by have := h.hi; omega, by omega⟩, h.lo⟩

end Canonical

/-! ### The canonical bytes -/

/-- Bytes that make up the element. -/
structure CanonicalBytes (value : Fr) (ns : List Nat) : Prop where
  length : ns.length = 32
  bytes : Bytes ns
  sum : bigEndian 256 ns = value.val

theorem canonicalBytes_digitsOf (value : Fr) :
    CanonicalBytes value (digitsOf 256 32 value.val) where
  length := digitsOf_length 32 value.val
  bytes := by
    intro n hn
    exact lt_of_mem_digitsOf (by norm_num) hn
  sum := by
    rw [bigEndian_digitsOf]
    exact Nat.mod_eq_of_lt ((ZMod.val_lt value).trans (by norm_num [modulus]))

/-- The upper and the lower half of the bytes. -/
def halves (ns : List Nat) : Nat × Nat :=
  (limb ns 0 * 2 ^ 64 + limb ns 1, limb ns 2 * 2 ^ 64 + limb ns 3)

theorem Bytes.halves_lt {ns : List Nat} (h : Bytes ns) :
    (halves ns).1 < 2 ^ 128 ∧ (halves ns).2 < 2 ^ 128 := by
  have h0 := h.limb_lt 0
  have h1 := h.limb_lt 1
  have h2 := h.limb_lt 2
  have h3 := h.limb_lt 3
  constructor <;> simp only [halves] <;> omega

section Decompose

variable {σ : Type} {P : Prover Fr σ} {value : Fr}

/-- The last byte is not written: it is what the element is above the others. -/
theorem push_lsb {ns : List Nat} (hlen : ns.length = 31) {n : Nat}
    (hn : value - (ByteSums.of ns).fullSum * 256 = (n : Nat)) :
    (ByteSums.of ns).bytes ++ [((n : Nat) : Fr)] = fieldBytes (ns ++ [n]) ∧
      pushLimb (ByteSums.of ns).limbs 3 (n : Nat) = (ByteSums.of (ns ++ [n])).limbs ∧
      value = (bigEndian 256 (ns ++ [n]) : Nat) := by
  have hpush := ByteSums.of_push ns n
  rw [hlen] at hpush
  refine ⟨congrArg ByteSums.bytes hpush, congrArg ByteSums.limbs hpush, ?_⟩
  have hsum : (ByteSums.of ns).fullSum * 256 + (n : Nat) = (bigEndian 256 (ns ++ [n]) : Nat) :=
    congrArg ByteSums.fullSum hpush
  rw [← hsum]
  linear_combination hn

theorem decompose_ensures :
    Ensures (decomposeCanonicalFieldBytes P value) fun bytes =>
      ∃ ns, CanonicalBytes value ns ∧ bytes = fieldBytes ns := by
  unfold decomposeCanonicalFieldBytes lookupRngchk8
  refine .bind writeBytes_ensures fun s hs => .bind ensures_rangecheck fun _ hlsb =>
    .bind .any fun borrow _ => .bind ensures_constrain fun _ hborrow =>
    .bind ensures_rangecheck fun _ hhi => .bind ensures_rangecheck fun _ hlo => .pure ?_
  obtain ⟨ns, rfl, hlen, hbytes⟩ := hs
  obtain ⟨n, hn⟩ : ∃ n : Nat, value - (ByteSums.of ns).fullSum * 256 = (n : Nat) ∧ n < 256 :=
    ⟨_, (natCast_val _).symm, hlsb⟩
  obtain ⟨hlist, hlimbs, hvalue⟩ := push_lsb hlen hn.1
  rw [hn.1, hlimbs] at hhi hlo
  rw [hn.1, hlist]
  have hall : Bytes (ns ++ [n]) := hbytes.concat hn.2
  have hlength : (ns ++ [n]).length = 32 := by rw [List.length_append, hlen, List.length_singleton]
  obtain ⟨bit, rfl, hbit⟩ : ∃ bit : Nat, borrow = (bit : Nat) ∧ (bit = 0 ∨ bit = 1) := by
    have hprod : borrow * (borrow - 1) = 0 := by linear_combination hborrow
    rcases mul_eq_zero.mp hprod with h | h
    · exact ⟨0, by rw [h, Nat.cast_zero], .inl rfl⟩
    · exact ⟨1, by rw [sub_eq_zero.mp h, Nat.cast_one], .inr rfl⟩
  have hbelow : BelowModulus (halves (ns ++ [n])).1 (halves (ns ++ [n])).2 bit := by
    rw [← belowModulus_iff hall.halves_lt.1 hall.halves_lt.2 hbit]
    simp only [halves, Nat.cast_add, Nat.cast_mul, Nat.cast_pow, Nat.cast_ofNat]
    exact ⟨hhi, hlo⟩
  have hlt := hbelow.lt
  rw [halves, ← bigEndian_limbs hlength] at hlt
  refine ⟨ns ++ [n], ⟨hlength, hall, ?_⟩, rfl⟩
  rw [hvalue, ZMod.val_natCast_of_lt hlt]

/-- The bytes of the element are possible. -/
theorem decompose_possible {ns : List Nat} (h : CanonicalBytes value ns) :
    Gadget.Possible (fun _ P => decomposeCanonicalFieldBytes P value)
      (fieldBytes ns) := by
  obtain ⟨hlength, hall, hsum⟩ := h
  obtain ⟨init, n, rfl⟩ : ∃ init n, ns = init ++ [n] := by
    rcases List.eq_nil_or_concat ns with rfl | ⟨init, n, h⟩
    · simp at hlength
    · exact ⟨init, n, by rw [h, List.concat_eq_append]⟩
  have hlen : init.length = 31 := by
    rw [List.length_append, List.length_singleton] at hlength
    omega
  have hbytes : Bytes init := by
    intro m hm
    exact hall m (List.mem_append_left _ hm)
  have hn : n < 256 := hall n (by simp)
  have hval : (n : Fr).val < 2 ^ 8 := val_byte hn
  have hlsb : value - (ByteSums.of init).fullSum * 256 = (n : Nat) := by
    rw [← natCast_val value, ← hsum, bigEndian_concat]
    push_cast
    simp [ByteSums.of, fieldBytes]
  obtain ⟨hlist, hlimbs, -⟩ := push_lsb hlen hlsb
  have hlt : (halves (init ++ [n])).1 * 2 ^ 128 + (halves (init ++ [n])).2 < modulus := by
    rw [halves, ← bigEndian_limbs hlength, hsum]
    exact ZMod.val_lt value
  obtain ⟨bit, hbelow⟩ := belowModulus_of_lt hall.halves_lt.2 hlt
  have hchecks := (belowModulus_iff hall.halves_lt.1 hall.halves_lt.2 hbelow.bit).mpr hbelow
  simp only [halves, Nat.cast_add, Nat.cast_mul, Nat.cast_pow, Nat.cast_ofNat] at hchecks
  have hidempotent : ((bit : Nat) : Fr) * (bit : Nat) = (bit : Nat) := by
    rcases hbelow.bit with rfl | rfl <;> simp
  unfold decomposeCanonicalFieldBytes lookupRngchk8
  refine .bind (writeBytes_possible hlen hbytes) ?_
  simp only [hlsb, hlimbs, hlist]
  exact .bind (completes_rangecheck hval).possible (.bind (possible_writeWitness (bit : Nat) _)
    (.bind (completes_constrain hidempotent).possible
      (.bind (completes_rangecheck hchecks.1).possible
        (.bind (completes_rangecheck hchecks.2).possible .pure))))

end Decompose

/-! ### The split of a byte -/

section Split

variable {σ : Type} {P : Prover Fr σ} {n loSize : Nat}

theorem pow_split (hlo : loSize < 8) : 2 ^ (8 - loSize) * 2 ^ loSize = 256 := by
  rw [← pow_add, Nat.sub_add_cancel hlo.le]
  norm_num

/-- The lookup of the low part, where the high part is `gap` below its largest value. -/
theorem low_gap_iff (hn : n < 256) (hlo : loSize < 8) {gap : Nat} (hgap : gap < 256) :
    (((2 ^ loSize - 1 : Nat) : Fr)
        - ((n : Fr) - (((2 ^ (8 - loSize) - 1 : Nat) : Fr) - (gap : Nat)) * (2 ^ loSize : Nat))).val
      < 2 ^ 8 ↔ n + gap * 2 ^ loSize < 256 := by
  have hpow := pow_split hlo
  have hpos : 0 < 2 ^ loSize := Nat.two_pow_pos loSize
  have hhiSize : 0 < 2 ^ (8 - loSize) := Nat.two_pow_pos _
  have hle : 2 ^ loSize ≤ 256 := Nat.pow_le_pow_right (by norm_num) hlo.le
  have hprod : gap * 2 ^ loSize ≤ 256 * 256 := Nat.mul_le_mul hgap.le hle
  generalize 2 ^ loSize = low at *
  generalize 2 ^ (8 - loSize) = high at *
  have hcast : ((low - 1 : Nat) : Fr)
      - ((n : Fr) - (((high - 1 : Nat) : Fr) - (gap : Nat)) * (low : Nat))
        = ((255 - n - (gap * low : Nat) : Int) : Fr) := by
    have hpowFr : (high : Fr) * low = 256 := by exact_mod_cast congrArg (Nat.cast (R := Fr)) hpow
    rw [Nat.cast_sub hpos, Nat.cast_sub hhiSize]
    push_cast
    linear_combination hpowFr
  have hmod : (2 : Int) ^ 8 + 256 * 256 + 256 ≤ modulus := by norm_num [modulus]
  rw [hcast, val_intCast_lt (by omega) (by omega)]
  omega

theorem low_of_gap {gap d : Nat} (h : n / 2 ^ loSize + gap + d + 1 = 2 ^ (8 - loSize)) :
    (n : Fr) - (((2 ^ (8 - loSize) - 1 : Nat) : Fr) - (gap : Nat)) * (2 ^ loSize : Nat)
      = ((n % 2 ^ loSize : Nat) : Fr) - (d * 2 ^ loSize : Nat) := by
  have hn : (n : Fr) = (2 ^ loSize * (n / 2 ^ loSize) + n % 2 ^ loSize : Nat) := by
    rw [Nat.div_add_mod]
  rw [← h, Nat.add_sub_cancel, hn]
  push_cast
  ring

/-- The gaps of the high part that leave the low part in bounds. -/
theorem gap_fits_iff (hlo : loSize < 8) {gap : Nat} :
    n + gap * 2 ^ loSize < 256 ↔ n / 2 ^ loSize + gap < 2 ^ (8 - loSize) := by
  have hpos : 0 < 2 ^ loSize := Nat.two_pow_pos loSize
  rw [← Nat.add_mul_div_right n gap hpos, Nat.div_lt_iff_lt_mul hpos, pow_split hlo]

/-- The high part may be too large, as long as it fits its width; the low part is then too
small. -/
theorem split_ensures (hn : n < 256) (hlo : loSize < 8) :
    Ensures (splitPartialFieldByte P (n : Fr) loSize) fun lo => ∃ d : Nat,
      n / 2 ^ loSize + d < 2 ^ (8 - loSize) ∧
        lo = ((n % 2 ^ loSize : Nat) : Fr) - (d * 2 ^ loSize : Nat) := by
  unfold splitPartialFieldByte lookupRngchk8
  refine .bind .any fun hi _ => .bind ensures_rangecheck fun _ hhi =>
    .bind ensures_rangecheck fun _ hlow => .pure ?_
  obtain ⟨gap, hgap, hgaplt⟩ : ∃ gap : Nat,
      ((2 ^ (8 - loSize) - 1 : Nat) : Fr) - hi = (gap : Nat) ∧ gap < 256 :=
    ⟨_, (natCast_val _).symm, hhi⟩
  obtain rfl : hi = ((2 ^ (8 - loSize) - 1 : Nat) : Fr) - (gap : Nat) := by
    rw [← hgap]
    ring
  rw [low_gap_iff hn hlo hgaplt, gap_fits_iff hlo] at hlow
  obtain ⟨d, hd⟩ := Nat.exists_eq_add_of_lt hlow
  refine ⟨d, ?_, low_of_gap hd.symm⟩
  rw [hd, Nat.add_right_comm (n / 2 ^ loSize)]
  exact Nat.lt_succ_of_le (Nat.le_add_right (n / 2 ^ loSize + d) gap)

theorem split_possible (hn : n < 256) (hlo : loSize < 8) {d : Nat}
    (hd : n / 2 ^ loSize + d < 2 ^ (8 - loSize)) :
    Gadget.Possible (fun _ P => splitPartialFieldByte P (n : Fr) loSize)
      (((n % 2 ^ loSize : Nat) : Fr) - (d * 2 ^ loSize : Nat)) := by
  obtain ⟨gap, hgap⟩ := Nat.exists_eq_add_of_lt hd
  have hsum : n / 2 ^ loSize + gap + d + 1 = 2 ^ (8 - loSize) := by
    rw [hgap, Nat.add_right_comm (n / 2 ^ loSize)]
  have hfits : n + gap * 2 ^ loSize < 256 := by
    rw [gap_fits_iff hlo, ← hsum, Nat.add_assoc]
    exact Nat.lt_add_of_pos_right (Nat.succ_pos d)
  have hgaplt : gap < 256 :=
    (Nat.le_mul_of_pos_right gap (Nat.two_pow_pos loSize)).trans_lt (by omega)
  have hval : (((2 ^ (8 - loSize) - 1 : Nat) : Fr)
      - (((2 ^ (8 - loSize) - 1 : Nat) : Fr) - (gap : Nat))).val < 2 ^ 8 := by
    rw [sub_sub_cancel, ZMod.val_natCast_of_lt (hgaplt.trans (by norm_num [modulus]))]
    exact hgaplt
  rw [← low_of_gap hsum]
  unfold splitPartialFieldByte lookupRngchk8
  exact .bind (possible_writeWitness (((2 ^ (8 - loSize) - 1 : Nat) : Fr) - (gap : Nat)) _)
    (.bind (completes_rangecheck hval).possible
      (.bind (completes_rangecheck ((low_gap_iff hn hlo hgaplt).mpr hfits)).possible .pure))

end Split

/-! ### The low bits -/

section LowBits

variable {σ : Type} {P : Prover Fr σ} {value : Fr} {ns : List Nat} {bits : Nat}

theorem addByte_split {start partialBits : Nat} (h : 0 < partialBits) (acc byte : Fr) :
    addByte P start partialBits acc (byte, start) = (do
      let lo ← splitPartialFieldByte P byte partialBits
      return acc * 256 + lo) := by
  unfold addByte
  rw [if_pos ⟨rfl, h⟩]

/-- Whole bytes are added as they are. -/
theorem foldlM_addByte_full {start partialBits k : Nat} (hk : partialBits = 0 ∨ start < k)
    (acc : Fr) :
    ((fieldBytes ns).zipIdx k).foldlM (addByte P start partialBits) acc
      = pure (acc * 256 ^ ns.length + (bigEndian 256 ns : Nat)) := by
  induction ns generalizing acc k with
  | nil => simp [fieldBytes]
  | cons n ns ih =>
    have hfull : ¬((n : Fr), k).2 = start ∨ ¬0 < partialBits := by
      rcases hk with rfl | hk
      · exact .inr (Nat.lt_irrefl 0)
      · exact .inl (Nat.ne_of_gt hk)
    have hstep : addByte P start partialBits acc ((n : Fr), k) = pure (acc * 256 + n) := by
      unfold addByte
      rw [if_neg (not_and_or.mpr hfull), pure_bind]
    rw [fieldBytes, List.map_cons, List.zipIdx_cons, List.foldlM_cons, hstep, pure_bind,
      ← fieldBytes, ih (hk.imp_right Nat.lt_succ_of_lt), bigEndian_cons, List.length_cons]
    congr 1
    push_cast
    ring

/-- The bytes from an index on, with their indices. -/
theorem zipIdx_drop {α : Type} (xs : List α) {k : Nat} (hk : k ≤ xs.length) :
    xs.zipIdx.drop k = (xs.drop k).zipIdx k := by
  have hlen : ((xs.take k).zipIdx).length = k := by
    rw [List.length_zipIdx, List.length_take, Nat.min_eq_left hk]
  conv_lhs => rw [← List.take_append_drop k xs, List.zipIdx_append]
  rw [List.drop_append_of_le_length hlen.ge, List.drop_eq_nil_of_le hlen.le, List.nil_append,
    List.length_take, Nat.min_eq_left hk, Nat.zero_add]

/-- The last bytes of an element are its low bits. -/
theorem CanonicalBytes.drop (h : CanonicalBytes value ns) {k : Nat} (hk : k ≤ 32) :
    bigEndian 256 (ns.drop (32 - k)) = value.val % 2 ^ (8 * k) := by
  have hlen : (ns.drop (32 - k)).length = k := by
    rw [List.length_drop, h.length]
    omega
  have hbytes : ∀ n ∈ ns.drop (32 - k), n < 256 := by
    intro n hn
    exact h.bytes n (List.mem_of_mem_drop hn)
  have hmod : bigEndian 256 (ns.take (32 - k) ++ ns.drop (32 - k))
      % 256 ^ (ns.drop (32 - k)).length = bigEndian 256 (ns.drop (32 - k)) :=
    bigEndian_mod (by norm_num) hbytes
  rw [List.take_append_drop, h.sum, hlen] at hmod
  rw [← hmod, pow_mul]
  norm_num

/-- The byte above the last `k` bytes. -/
theorem CanonicalBytes.drop_succ (h : CanonicalBytes value ns) {k : Nat} (hk : k < 32) :
    ns.drop (32 - (k + 1)) = value.val / 2 ^ (8 * k) % 256 :: ns.drop (32 - k) := by
  have hlt : 32 - (k + 1) < ns.length := by
    rw [h.length]
    omega
  have hcons := List.drop_eq_getElem_cons hlt
  rw [show 32 - (k + 1) + 1 = 32 - k by omega] at hcons
  have hlen : (ns.drop (32 - k)).length = k := by
    rw [List.length_drop, h.length]
    omega
  have hsum := h.drop (k := k + 1) hk
  rw [hcons, bigEndian_cons, h.drop hk.le, hlen, Nat.mul_succ, pow_add, Nat.mod_mul,
    show (256 : Nat) = 2 ^ 8 from rfl, ← pow_mul] at hsum
  have hpos : 0 < 2 ^ (8 * k) := Nat.two_pow_pos _
  rw [hcons]
  congr 1
  refine Nat.eq_of_mul_eq_mul_left hpos ?_
  rw [Nat.mul_comm, show (256 : Nat) = 2 ^ 8 from rfl]
  omega

/-- At the end of a byte no byte is split. -/
theorem lowBits_eq_of_aligned (h : CanonicalBytes value ns) (hle : bits ≤ 254)
    (haligned : bits % 8 = 0) :
    lowerFieldLowBitsFromBytes P (fieldBytes ns) bits
      = pure ((value.val % 2 ^ bits : Nat) : Fr) := by
  unfold lowerFieldLowBitsFromBytes
  split
  · next hzero => simp [hzero, Nat.mod_one]
  · have hbits : 8 * (bits / 8) = bits := by omega
    rw [haligned]
    simp only [Nat.lt_irrefl, if_false, Nat.sub_zero]
    rw [zipIdx_drop _ (by rw [fieldBytes, List.length_map, h.length]; omega), fieldBytes,
      ← List.map_drop, ← fieldBytes, foldlM_addByte_full (.inl rfl), h.drop (by omega), hbits,
        zero_mul, zero_add]

/-- Elsewhere the byte in which the bits end is split. -/
theorem lowBits_eq_of_split (h : CanonicalBytes value ns) (hle : bits ≤ 254)
    (hsplit : bits % 8 ≠ 0) :
    lowerFieldLowBitsFromBytes P (fieldBytes ns) bits = (do
      let lo ← splitPartialFieldByte P ((value.val / 2 ^ (8 * (bits / 8)) % 256 : Nat) : Fr)
        (bits % 8)
      return lo * 256 ^ (bits / 8) + (value.val % 2 ^ (8 * (bits / 8)) : Nat)) := by
  have hpos : 0 < bits % 8 := Nat.pos_of_ne_zero hsplit
  have hzero : bits ≠ 0 := by
    intro hbits
    simp [hbits] at hsplit
  unfold lowerFieldLowBitsFromBytes
  rw [if_neg hzero]
  simp only [hpos, if_true]
  rw [Nat.sub_sub, zipIdx_drop _ (by rw [fieldBytes, List.length_map, h.length]; omega), fieldBytes,
    ← List.map_drop, h.drop_succ (by omega), List.map_cons, List.zipIdx_cons, List.foldlM_cons,
    addByte_split hpos, bind_assoc, ← fieldBytes]
  refine bind_congr fun lo => ?_
  rw [pure_bind, foldlM_addByte_full (.inr (Nat.lt_succ_self _)), h.drop (by omega),
    List.length_drop,
    h.length, Nat.sub_sub_self (by omega), zero_mul, zero_add]

/-- The excess of the high part of the split at a bit: none at the end of a byte, and
elsewhere as much as its width leaves room for. -/
def Slack (n bits d : Nat) : Prop :=
  if bits % 8 = 0 then d = 0 else n / 2 ^ bits % 2 ^ (8 - bits % 8) + d < 2 ^ (8 - bits % 8)

theorem slack_zero (n bits : Nat) : Slack n bits 0 := by
  unfold Slack
  split
  · rfl
  · exact Nat.mod_lt _ (Nat.two_pow_pos _)

/-- The low bits, less an excess of the high part. -/
def lowBits (n bits d : Nat) : Fr := ((n % 2 ^ bits : Nat) : Fr) - (d * 2 ^ bits : Nat)

theorem bits_eq (bits : Nat) : bits = 8 * (bits / 8) + bits % 8 := (Nat.div_add_mod bits 8).symm

theorem byte_div (n bits : Nat) : n / 2 ^ (8 * (bits / 8)) % 256 / 2 ^ (bits % 8)
    = n / 2 ^ bits % 2 ^ (8 - bits % 8) := by
  have h256 : 256 = 2 ^ (bits % 8) * 2 ^ (8 - bits % 8) := by
    rw [Nat.mul_comm, pow_split (Nat.mod_lt bits (by norm_num))]
  rw [h256, Nat.mod_mul_right_div_self, Nat.div_div_eq_div_mul, ← pow_add, ← bits_eq]

theorem byte_mod (n bits : Nat) : n / 2 ^ (8 * (bits / 8)) % 256 % 2 ^ (bits % 8)
    = n / 2 ^ (8 * (bits / 8)) % 2 ^ (bits % 8) :=
  Nat.mod_mod_of_dvd _ ⟨2 ^ (8 - bits % 8), by
    rw [Nat.mul_comm, pow_split (Nat.mod_lt bits (by norm_num))]⟩

/-- The split byte above the whole bytes. -/
theorem lowBits_eq (n bits d : Nat) :
    (((n / 2 ^ (8 * (bits / 8)) % 256 % 2 ^ (bits % 8) : Nat) : Fr) - (d * 2 ^ (bits % 8) : Nat))
        * 256 ^ (bits / 8) + (n % 2 ^ (8 * (bits / 8)) : Nat)
      = lowBits n bits d := by
  have hpow : (256 : Fr) ^ (bits / 8) = 2 ^ (8 * (bits / 8)) := by
    rw [pow_mul]
    norm_num
  unfold lowBits
  rw [byte_mod, hpow]
  conv_rhs => rw [bits_eq bits, pow_add, Nat.mod_mul]
  push_cast
  ring

theorem lowBits_ensures (h : CanonicalBytes value ns) (hle : bits ≤ 254) :
    Ensures (lowerFieldLowBitsFromBytes P (fieldBytes ns) bits) fun r =>
      ∃ d, Slack value.val bits d ∧ r = lowBits value.val bits d := by
  by_cases haligned : bits % 8 = 0
  · rw [lowBits_eq_of_aligned h hle haligned]
    exact .pure ⟨0, slack_zero _ _, by simp [lowBits]⟩
  · rw [lowBits_eq_of_split h hle haligned]
    refine (split_ensures (Nat.mod_lt _ (by norm_num)) (Nat.mod_lt _ (by norm_num))).bind
      fun lo hlo => .pure ?_
    obtain ⟨d, hd, rfl⟩ := hlo
    rw [byte_div] at hd
    exact ⟨d, by rwa [Slack, if_neg haligned], lowBits_eq _ _ _⟩

theorem lowBits_possible (h : CanonicalBytes value ns) (hle : bits ≤ 254) {d : Nat}
    (hd : Slack value.val bits d) :
    Gadget.Possible (fun _ P => lowerFieldLowBitsFromBytes P (fieldBytes ns) bits)
      (lowBits value.val bits d) := by
  by_cases haligned : bits % 8 = 0
  · rw [Slack, if_pos haligned] at hd
    subst hd
    simp only [lowBits_eq_of_aligned h hle haligned, lowBits, Nat.zero_mul, Nat.cast_zero, sub_zero]
    exact .pure
  · rw [Slack, if_neg haligned, ← byte_div] at hd
    simp only [lowBits_eq_of_split h hle haligned, ← lowBits_eq]
    exact .bind (split_possible (Nat.mod_lt _ (by norm_num)) (Nat.mod_lt _ (by norm_num)) hd) .pure

end LowBits

/-! ## The range

Two ends, with an excess at each.
-/

section Range

variable {value : Fr} {offset width : Nat}

/-- The low bits of both ends, as the range. -/
theorem range_of_lowBits (n d e : Nat) :
    (lowBits n (offset + width) d - lowBits n offset e) / twoPow offset
      = ((n / 2 ^ offset % 2 ^ width : Nat) : Fr) - (d * 2 ^ width : Nat) + (e : Nat) := by
  have htwo : (2 : Fr) ^ offset ≠ 0 := pow_ne_zero _ (by decide)
  rw [twoPow, div_eq_iff htwo, lowBits, lowBits, pow_add, Nat.mod_mul]
  push_cast
  ring

/-- Every run is off by the excess of both splits. -/
theorem fieldBitRange_ensures {σ : Type} {P : Prover Fr σ} (h : offset + width ≤ 254) :
    Ensures (lowerWitnessFieldBitRange P value offset width) fun r =>
      ∃ d e, Slack value.val (offset + width) d ∧ Slack value.val offset e ∧
        r = ((value.val / 2 ^ offset % 2 ^ width : Nat) : Fr) - (d * 2 ^ width : Nat)
          + (e : Nat) := by
  unfold lowerWitnessFieldBitRange lowerFieldBitRangeFromBytes
  refine decompose_ensures.bind fun bytes hbytes => ?_
  obtain ⟨ns, hns, rfl⟩ := hbytes
  refine (lowBits_ensures hns h).bind fun lowEnd hend =>
    (lowBits_ensures hns (by omega)).bind fun lowStart hstart => .pure ?_
  obtain ⟨d, hd, rfl⟩ := hend
  obtain ⟨e, he, rfl⟩ := hstart
  exact ⟨d, e, hd, he, range_of_lowBits _ _ _⟩

/-- And every excess is possible. -/
theorem fieldBitRange_possible (h : offset + width ≤ 254) {d e : Nat}
    (hd : Slack value.val (offset + width) d) (he : Slack value.val offset e) :
    Gadget.Possible (fun _ P => lowerWitnessFieldBitRange P value offset width)
      (((value.val / 2 ^ offset % 2 ^ width : Nat) : Fr) - (d * 2 ^ width : Nat) + (e : Nat)) := by
  have hns := canonicalBytes_digitsOf value
  rw [← range_of_lowBits]
  unfold lowerWitnessFieldBitRange lowerFieldBitRangeFromBytes
  exact .bind (decompose_possible hns) (.bind (lowBits_possible hns h hd)
    (.bind (lowBits_possible hns (by omega) he) .pure))

/-- The bits from one on up to the next end of a byte are ones. -/
def HighOnes (n bits : Nat) : Prop :=
  bits % 8 = 0 ∨ n / 2 ^ bits % 2 ^ (8 - bits % 8) = 2 ^ (8 - bits % 8) - 1

/-- Ones leave no room. -/
theorem HighOnes.eq_zero {n bits d : Nat} (h : HighOnes n bits) (hd : Slack n bits d) : d = 0 := by
  unfold Slack at hd
  split at hd
  · exact hd
  · next hsplit =>
    rcases h with h | h
    · exact absurd h hsplit
    · rw [h] at hd
      omega

theorem slack_one {n bits : Nat} (h : ¬HighOnes n bits) : Slack n bits 1 := by
  obtain ⟨hsplit, hones⟩ := not_or.mp h
  rw [Slack, if_neg hsplit]
  have hlt := Nat.mod_lt (n / 2 ^ bits) (Nat.two_pow_pos (8 - bits % 8))
  omega

/-- The result is the range under every prover exactly where the parts above the split bits
are all ones. -/
theorem lowerWitnessFieldBitRange_spec (value : Fr) {offset width : Nat}
    (h : offset + width ≤ 254) :
    (∀ (σ : Type) (P : Prover Fr σ), Ensures (lowerWitnessFieldBitRange P value offset width)
        fun r => r = (value.val / 2 ^ offset % 2 ^ width : Nat)) ↔
      HighOnes value.val offset ∧ HighOnes value.val (offset + width) := by
  constructor
  · intro hsound
    -- a possible result is the range
    have hresult : ∀ d e, Slack value.val (offset + width) d → Slack value.val offset e →
        (e : Fr) - (d * 2 ^ width : Nat) = 0 := by
      intro d e hd he
      obtain ⟨xs, hrun⟩ := fieldBitRange_possible h hd he
      have heq := hsound _ .replay _ _ _ (hrun [])
      linear_combination heq
    constructor
    · by_contra hstart
      have hone := hresult 0 1 (slack_zero _ _) (slack_one hstart)
      simp at hone
    · by_contra hend
      have hpow := hresult 1 0 (slack_one hend) (slack_zero _ _)
      have htwo : (2 : Fr) ^ width ≠ 0 := pow_ne_zero _ (by decide)
      simp [htwo] at hpow
  · rintro ⟨hstart, hend⟩ σ P
    refine (fieldBitRange_ensures h).mono fun r hr => ?_
    obtain ⟨d, e, hd, he, rfl⟩ := hr
    rw [hend.eq_zero hd, hstart.eq_zero he]
    simp

theorem lowerWitnessFieldBitRange_nibble :
    Ensures (lowerWitnessFieldBitRange Prover.replay 245 0 4) fun r =>
      r = ((245 : Fr).val / 2 ^ 0 % 2 ^ 4 : Nat) :=
  (lowerWitnessFieldBitRange_spec 245 (by norm_num)).mpr
    ⟨.inl rfl, .inr (by decide +kernel)⟩ (List Fr) .replay

/-- The low four bits of zero: with a high part of one they are minus sixteen. -/
theorem lowerWitnessFieldBitRange_counterexample :
    lowerWitnessFieldBitRange .replay 0 0 4 (List.replicate 31 0 ++ [0, 1]) = some (-16, []) ∧
      ¬∀ (value : Fr) (offset width : Nat), offset + width ≤ 254 →
        ∀ (σ : Type) (P : Prover Fr σ), Ensures (lowerWitnessFieldBitRange P value offset width)
          fun r => r = (value.val / 2 ^ offset % 2 ^ width : Nat) := by
  have hrun : lowerWitnessFieldBitRange .replay 0 0 4 (List.replicate 31 0 ++ [0, 1])
      = some (-16, []) := by decide +kernel
  refine ⟨hrun, fun hsound => ?_⟩
  have heq := hsound 0 0 4 (by norm_num) _ .replay _ _ _ hrun
  exact absurd heq (by decide +kernel)

end Range

end Mavros.Lowering
