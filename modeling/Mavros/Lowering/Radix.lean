/-
# `Mavros.Lowering.Radix` — the digits of a field element

`ToRadix` of a witness, as `ExplicitWitness` leaves it.  The digits are written, the highest
first, each is looked up as a byte, and their sum must be the element.  The sum is one in the
field: while all numbers of so many digits are below the modulus the digits are unique, and
from 32 digits on every element has those of `v + p` beside its own.

## What is proved

* `lowerToRadix_exact`: for every element, digit count and order, the digits are those of the
  element (`RadixExact`) exactly if there are at most 31.
* `lowerToRadix_counterexample`: the bytes of the modulus pass as 32 bytes of zero.

## How it goes

A run gives the digits of some number that is the element in the field (`lowerToRadix_ensures`), and
every such number is possible (`lowerToRadix_possible`).  The question is then how many numbers of
so many digits have one residue: with 31 bytes one, and with 32 there is room for a second
(`not_radixExact`).
-/
import Mathlib.Tactic.LinearCombination
import Mavros.Lib.BigEndian
import Mavros.Lowering.Builder

namespace Mavros.Lowering

open Lib Lib.Circuit
open Hlssa (Endianness)

/-! ## The gadget

The highest digit is visited first, wherever it is put.
-/

/-- `Radix`; a dynamic one comes with its value. -/
inductive Radix
  | bytes
  | dyn (radix : Fr)
  deriving DecidableEq, Repr

/-- The digits written so far, in place, and their sum. -/
structure RadixSums where
  witnesses : List Fr
  currentSum : Fr

section Definitions

variable {σ : Type} (P : Prover Fr σ)

/-- The digit at an index, as the pure `ToRadix` computes it. -/
def radixHint (value : Fr) (endianness : Endianness) (count i : Nat) : Fr :=
  match endianness with
  | .little => (value.val / 256 ^ i % 256 : Nat)
  | .big => (value.val / 256 ^ (count - 1 - i) % 256 : Nat)

/-- `visit_order`: the highest digit first. -/
def visitOrder (endianness : Endianness) (count : Nat) : List Nat :=
  match endianness with
  | .little => (List.range count).reverse
  | .big => List.range count

/-- A dynamic radix is asserted to be 256. -/
def pinRadix : Radix → Circuit σ Unit
  | .bytes => pure ()
  | .dyn radix => require (radix = 256)

def writeDigit (value : Fr) (endianness : Endianness) (count : Nat) (s : RadixSums) (i : Nat) :
    Circuit σ RadixSums := do
  let byteWit ← writeWitness P (some (radixHint value endianness count i))
  rangecheck 8 byteWit
  return ⟨s.witnesses.set i byteWit, s.currentSum * 256 + byteWit⟩

/-- `ToRadix` of a witness. -/
def lowerToRadix (value : Fr) (radix : Radix) (endianness : Endianness) (count : Nat) :
    Circuit σ (List Fr) := do
  pinRadix radix
  let s ← (visitOrder endianness count).foldlM (writeDigit P value endianness count)
    ⟨List.replicate count 0, 0⟩
  constrain s.currentSum 1 value
  return s.witnesses

end Definitions

/-! ## The digits -/

/-- The digits of a number in the order they are asked for. -/
def ordered (endianness : Endianness) (ns : List Nat) : List Nat :=
  match endianness with
  | .little => ns.reverse
  | .big => ns

/-- The place of the digit visited after so many others. -/
def place (endianness : Endianness) (count k : Nat) : Nat :=
  match endianness with
  | .little => count - 1 - k
  | .big => k

/-- The highest digits in their places, zero in the others. -/
def layout (endianness : Endianness) (count : Nat) (ns : List Nat) : List Fr :=
  match endianness with
  | .little => List.replicate (count - ns.length) 0 ++ (ns.map (Nat.cast : Nat → Fr)).reverse
  | .big => ns.map (Nat.cast : Nat → Fr) ++ List.replicate (count - ns.length) 0

def RadixSums.of (endianness : Endianness) (count : Nat) (ns : List Nat) : RadixSums where
  witnesses := layout endianness count ns
  currentSum := (bigEndian 256 ns : Nat)

section Layout

variable {endianness : Endianness} {count : Nat} {ns : List Nat}

theorem layout_nil : layout endianness count [] = List.replicate count 0 := by
  cases endianness <;> simp [layout]

theorem layout_full (h : ns.length = count) :
    layout endianness count ns = (ordered endianness ns).map Nat.cast := by
  cases endianness <;> simp [layout, ordered, h]

theorem layout_set (h : ns.length < count) (n : Nat) :
    (layout endianness count ns).set (place endianness count ns.length) (n : Fr)
      = layout endianness count (ns ++ [n]) := by
  obtain ⟨m, hm⟩ : ∃ m, count - ns.length = m + 1 := Nat.exists_eq_succ_of_ne_zero (by omega)
  have hlen : count - (ns ++ [n]).length = m := by
    rw [List.length_append, List.length_singleton]
    omega
  cases endianness with
  | little =>
    have hplace : count - 1 - ns.length = m := by omega
    simp only [layout, place, hm, hlen, hplace]
    rw [List.replicate_succ', List.append_assoc, List.set_append_right _ _ (by simp)]
    simp
  | big =>
    simp only [layout, place, hm, hlen]
    rw [List.set_append_right _ _ (by simp)]
    simp [List.replicate_succ]

theorem visitOrder_eq (endianness : Endianness) (count : Nat) :
    visitOrder endianness count = (List.range count).map (place endianness count) := by
  cases endianness with
  | little =>
    refine List.ext_getElem (by simp [visitOrder]) fun i h₁ h₂ => ?_
    simp [visitOrder, place]
  | big => exact (List.map_id' _).symm

theorem radixHint_place (value : Fr) (k : Nat) :
    radixHint value endianness count (place endianness count k)
      = (value.val / 256 ^ (count - 1 - k) % 256 : Nat) := by
  cases endianness <;> rfl

end Layout

/-! ## Runs

The loop, with the digits so far as the high part of a number.
-/

section Runs

variable {σ : Type} {P : Prover Fr σ} {value : Fr} {radix : Radix} {endianness : Endianness}
  {count : Nat} {ns : List Nat}

/-- One more digit. -/
theorem RadixSums.of_push (endianness : Endianness) (h : ns.length < count) (n : Nat) :
    (⟨(RadixSums.of endianness count ns).witnesses.set (place endianness count ns.length) (n : Fr),
        (RadixSums.of endianness count ns).currentSum * 256 + (n : Fr)⟩ : RadixSums)
      = .of endianness count (ns ++ [n]) := by
  unfold RadixSums.of
  rw [← layout_set h, bigEndian_concat]
  push_cast
  rfl

theorem writeDigits_ensures :
    Ensures ((visitOrder endianness count).foldlM (writeDigit P value endianness count)
      ⟨List.replicate count 0, 0⟩) fun s =>
        ∃ ns, s = .of endianness count ns ∧ ns.length = count ∧ ∀ n ∈ ns, n < 256 := by
  rw [visitOrder_eq, List.foldlM_map]
  refine Ensures.foldlM_range (I := fun k s => ∃ ns, s = RadixSums.of endianness count ns ∧
    ns.length = k ∧ ∀ n ∈ ns, n < 256) ?_ ⟨[], by simp [RadixSums.of, layout_nil], rfl, by simp⟩
  intro k hk s hs
  obtain ⟨ns, rfl, rfl, hbytes⟩ := hs
  unfold writeDigit
  refine .bind .any fun byte _ => .bind ensures_rangecheck fun _ hbyte => .pure ?_
  refine ⟨ns ++ [byte.val], ?_, by simp, ?_⟩
  · rw [← RadixSums.of_push _ hk, natCast_val]
  · exact List.forall_mem_append.mpr ⟨hbytes, List.forall_mem_singleton.mpr hbyte⟩

/-- The hints are the digits of the value. -/
theorem writeDigits_completes :
    Gadget.Completes (fun _ P => (visitOrder endianness count).foldlM
        (writeDigit P value endianness count) ⟨List.replicate count 0, 0⟩)
      (.of endianness count (digitsOf 256 count value.val)) := by
  have hstart : (⟨List.replicate count 0, 0⟩ : RadixSums)
      = .of endianness count (digitsOf 256 0 (value.val / 256 ^ (count - 0))) := by
    simp [RadixSums.of, layout_nil, digitsOf]
  have hloop := Gadget.Completes.foldlM_range (F := Fr) (n := count)
    (c := fun _ P s k => writeDigit P value endianness count s (place endianness count k))
    (f := fun k =>
      RadixSums.of endianness count (digitsOf 256 k (value.val / 256 ^ (count - k)))) ?_
  · simp only [visitOrder_eq, List.foldlM_map, hstart]
    simpa using hloop
  · intro k hk
    have hlen : (digitsOf 256 k (value.val / 256 ^ (count - k))).length = k := digitsOf_length _ _
    have hpush := RadixSums.of_push endianness (hlen.trans_lt hk)
      (value.val / 256 ^ (count - 1 - k) % 256)
    rw [hlen, digitsOf_step hk] at hpush
    unfold writeDigit
    simp only [radixHint_place value k]
    refine (completes_writeWitness _).bind
      ((completes_rangecheck (val_byte (Nat.mod_lt _ (by norm_num)))).bind ?_)
    rw [hpush]
    exact .pure

/-- All digits are possible. -/
theorem writeDigits_possible (hlen : ns.length = count) (hbytes : ∀ n ∈ ns, n < 256) :
    Gadget.Possible (fun _ P => (visitOrder endianness count).foldlM
        (writeDigit P value endianness count) ⟨List.replicate count 0, 0⟩)
      (.of endianness count ns) := by
  have hstart : (⟨List.replicate count 0, 0⟩ : RadixSums) = .of endianness count (ns.take 0) := by
    simp [RadixSums.of, layout_nil]
  have hloop := Gadget.Possible.foldlM_range (F := Fr) (n := count)
    (c := fun _ P s k => writeDigit P value endianness count s (place endianness count k))
    (f := fun k => RadixSums.of endianness count (ns.take k)) ?_
  · simp only [visitOrder_eq, List.foldlM_map, hstart]
    simpa [← hlen] using hloop
  · intro k hk
    have hk' : k < ns.length := by omega
    have htake : (ns.take k).length = k := List.length_take_of_le hk'.le
    have hpush := RadixSums.of_push endianness (htake.trans_lt hk) ns[k]
    rw [htake, List.take_append_getElem hk'] at hpush
    unfold writeDigit
    refine .bind (possible_writeWitness (ns[k] : Fr) _)
      (.bind (completes_rangecheck (val_byte (hbytes _ (List.getElem_mem hk')))).possible ?_)
    rw [hpush]
    exact .pure

/-- The radix is 256, as the assertion leaves it. -/
def Radix.IsBytes (radix : Radix) : Prop := radix = .bytes ∨ radix = .dyn 256

theorem pinRadix_completes (h : radix.IsBytes) :
    Gadget.Completes (F := Fr) (fun _ _ => pinRadix radix) () := by
  rcases h with rfl | rfl
  · exact .pure
  · exact .require rfl

/-- The digits of a number that is the element in the field. -/
theorem lowerToRadix_ensures :
    Ensures (lowerToRadix P value radix endianness count) fun ds =>
      ∃ ns, ds = (ordered endianness ns).map Nat.cast ∧ ns.length = count ∧
        (∀ n ∈ ns, n < 256) ∧ value = (bigEndian 256 ns : Nat) := by
  unfold lowerToRadix
  refine .bind .any fun _ _ => .bind writeDigits_ensures fun s hs =>
    .bind ensures_constrain fun _ hsum => .pure ?_
  obtain ⟨ns, rfl, hlen, hbytes⟩ := hs
  refine ⟨ns, layout_full hlen, hlen, hbytes, ?_⟩
  rw [← hsum, mul_one]
  rfl

theorem lowerToRadix_possible (endianness : Endianness) (hradix : radix.IsBytes)
    (hlen : ns.length = count) (hbytes : ∀ n ∈ ns, n < 256)
    (hvalue : value = (bigEndian 256 ns : Nat)) :
    Gadget.Possible (fun _ P => lowerToRadix P value radix endianness count)
      ((ordered endianness ns).map Nat.cast) := by
  unfold lowerToRadix
  rw [← layout_full hlen]
  refine .bind (pinRadix_completes hradix).possible (.bind (writeDigits_possible hlen hbytes) ?_)
  refine .bind (completes_constrain ?_).possible .pure
  rw [mul_one, hvalue]
  rfl

theorem lowerToRadix_completes (hradix : radix.IsBytes) (hvalue : value.val < 256 ^ count) :
    Gadget.Completes (fun _ P => lowerToRadix P value radix endianness count)
      ((ordered endianness (digitsOf 256 count value.val)).map Nat.cast) := by
  unfold lowerToRadix
  rw [← layout_full (digitsOf_length count value.val)]
  refine (pinRadix_completes hradix).bind (writeDigits_completes.bind ?_)
  refine (completes_constrain ?_).bind .pure
  rw [mul_one]
  unfold RadixSums.of
  rw [bigEndian_digitsOf, Nat.mod_eq_of_lt hvalue, natCast_val]

end Runs

/-! ## Uniqueness

Of digits given the number, and of the number given the element.
-/

section Unique

variable {value : Fr} {radix : Radix} {endianness : Endianness} {count : Nat}

/-- The digits of the element, in the order they are asked for. -/
def radixDigits (value : Fr) (endianness : Endianness) (count : Nat) : List Fr :=
  (ordered endianness (digitsOf 256 count value.val)).map Nat.cast

/-- The digits are those of the element, and there are some where it has so many. -/
structure RadixExact (value : Fr) (radix : Radix) (endianness : Endianness) (count : Nat) :
    Prop where
  digits : ∀ (σ : Type) (P : Prover Fr σ),
    Ensures (lowerToRadix P value radix endianness count) fun ds =>
      ds = radixDigits value endianness count ∧ ∀ d ∈ ds, d.val < 256
  satisfiable : Gadget.Satisfiable (fun _ P => lowerToRadix P value radix endianness count) ↔
    value.val < 256 ^ count

theorem ordered_injective {ns ms : List Nat} (h : ordered endianness ns = ordered endianness ms) :
    ns = ms := by
  cases endianness with
  | little => exact List.reverse_injective h
  | big => exact h

theorem mem_ordered {ns : List Nat} {n : Nat} : n ∈ ordered endianness ns ↔ n ∈ ns := by
  cases endianness with
  | little => exact List.mem_reverse
  | big => exact Iff.rfl

/-- Digits are read back from the field. -/
theorem cast_digits_injective {ns ms : List Nat} (hns : ∀ n ∈ ns, n < 256) (hms : ∀ m ∈ ms, m < 256)
    (h : ns.map (Nat.cast : Nat → Fr) = ms.map Nat.cast) : ns = ms := by
  have hback : ∀ xs : List Nat, (∀ x ∈ xs, x < 256) →
      (xs.map (Nat.cast : Nat → Fr)).map ZMod.val = xs := by
    intro xs hxs
    rw [List.map_map]
    conv_rhs => rw [← List.map_id xs]
    exact List.map_congr_left fun x hx =>
      ZMod.val_natCast_of_lt ((hxs x hx).trans (by norm_num [modulus]))
  rw [← hback ns hns, h, hback ms hms]

/-- Below 32 digits no two numbers are one element. -/
theorem radixExact_of_le (hradix : radix.IsBytes) (hcount : count ≤ 31) :
    RadixExact value radix endianness count := by
  have hmod : 256 ^ count < modulus :=
    (Nat.pow_le_pow_right (by norm_num) hcount).trans_lt (by norm_num [modulus])
  have hval : ∀ ns : List Nat, ns.length = count → (∀ n ∈ ns, n < 256) →
      value = (bigEndian 256 ns : Nat) →
        value.val = bigEndian 256 ns ∧ value.val < 256 ^ count := by
    intro ns hlen hbytes hvalue
    have hlt : bigEndian 256 ns < 256 ^ count := hlen ▸ bigEndian_lt (by norm_num) hbytes
    have heq : value.val = bigEndian 256 ns := by
      rw [hvalue, ZMod.val_natCast_of_lt (hlt.trans hmod)]
    exact ⟨heq, heq ▸ hlt⟩
  refine ⟨fun σ P => lowerToRadix_ensures.mono fun ds hds => ?_, fun h => ?_, fun h => ?_⟩
  · obtain ⟨ns, rfl, hlen, hbytes, hvalue⟩ := hds
    constructor
    · rw [radixDigits, (hval ns hlen hbytes hvalue).1, ← hlen, digitsOf_bigEndian hbytes]
    · intro d hd
      obtain ⟨n, hn, rfl⟩ := List.mem_map.mp hd
      exact val_byte (hbytes n (mem_ordered.mp hn))
  · refine h.ensures fun σ P => lowerToRadix_ensures.mono fun ds hds => ?_
    obtain ⟨ns, -, hlen, hbytes, hvalue⟩ := hds
    exact (hval ns hlen hbytes hvalue).2
  · exact (lowerToRadix_completes hradix h).satisfiable

/-- From 32 digits on, the digits of `v + p` are digits of `v`. -/
theorem not_radixExact (hradix : radix.IsBytes) (hcount : 32 ≤ count) :
    ¬RadixExact value radix endianness count := by
  intro hexact
  have hlt : value.val + modulus < 256 ^ count :=
    calc value.val + modulus < modulus + modulus := Nat.add_lt_add_right (ZMod.val_lt value) _
      _ < 256 ^ 32 := by norm_num [modulus]
      _ ≤ 256 ^ count := Nat.pow_le_pow_right (by norm_num) hcount
  have hbytes : ∀ v, ∀ n ∈ digitsOf 256 count v, n < 256 := fun v n hn =>
    lt_of_mem_digitsOf (by norm_num) hn
  have hsum : bigEndian 256 (digitsOf 256 count (value.val + modulus)) = value.val + modulus := by
    rw [bigEndian_digitsOf, Nat.mod_eq_of_lt hlt]
  have hvalue : value = (bigEndian 256 (digitsOf 256 count (value.val + modulus)) : Nat) := by
    rw [hsum]
    push_cast
    rw [natCast_val, CharP.cast_eq_zero, add_zero]
  obtain ⟨xs, hrun⟩ := lowerToRadix_possible endianness hradix
    (digitsOf_length count _) (hbytes _) hvalue
  have hdigits := (hexact.digits _ _ _ _ _ (hrun [])).1
  have heq := ordered_injective (cast_digits_injective
    (fun n hn => hbytes _ n (mem_ordered.mp hn))
    (fun n hn => hbytes _ n (mem_ordered.mp hn)) hdigits)
  have hcontra := congrArg (bigEndian 256) heq
  rw [hsum, bigEndian_digitsOf, Nat.mod_eq_of_lt (by omega)] at hcontra
  exact absurd hcontra (by norm_num [modulus])

/-- The digits are unique while they are fewer than 32. -/
theorem lowerToRadix_exact (value : Fr) (radix : Radix) (endianness : Endianness) (count : Nat)
    (hradix : radix.IsBytes) : RadixExact value radix endianness count ↔ count ≤ 31 := by
  constructor
  · intro h
    by_contra hcount
    exact not_radixExact hradix (by omega) h
  · exact radixExact_of_le hradix

theorem lowerToRadix_exact_word :
    RadixExact 1000 (.dyn 256) .little 2 ↔ 2 ≤ 31 :=
  lowerToRadix_exact 1000 (.dyn 256) .little 2 (.inr rfl)

/-- The bytes of the modulus are bytes of zero. -/
theorem lowerToRadix_counterexample :
    lowerToRadix .replay 0 .bytes .big 32 ((digitsOf 256 32 modulus).map Nat.cast)
        = some ((digitsOf 256 32 modulus).map Nat.cast, []) ∧
      ¬∀ (value : Fr) (endianness : Endianness) (count : Nat),
        RadixExact value .bytes endianness count := by
  have hrun : lowerToRadix .replay 0 .bytes .big 32 ((digitsOf 256 32 modulus).map Nat.cast)
      = some ((digitsOf 256 32 modulus).map Nat.cast, []) := by decide +kernel
  refine ⟨hrun, fun hexact => ?_⟩
  exact absurd ((hexact 0 .big 32).digits _ _ _ _ _ hrun).1 (by decide +kernel)

end Unique

end Mavros.Lowering
