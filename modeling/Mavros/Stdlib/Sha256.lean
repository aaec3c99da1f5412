/-
# `Mavros.Stdlib.Sha256` — the replacement of the SHA-256 compression function

`sha256_compression.nr` on the values its wires carry: a `u32` or a `Field` is an element of
the scalar field, and a cast is the identity.  `spread::<N>` and `unspread::<N>` constrain
their argument to `N` bits or to `N` pairs of bits.  A word is kept as the spread words of
four chunks; a rotation puts the chunks together again in another order, and the sum of
three spread words has their exclusive or at the even positions and their majority at the
odd ones.

## What is proved

`sha256Compression_computes`: for every block and every state, the circuit computes
`Mavros.Lib.Sha256.compress`.  Whatever the prover writes for the hints, a run that ends gives the
hash value of the standard, and the honest hints get through.

## How it goes

Each function of the source has its lemma, a `Computes` with the function of words as its result.

* `splitAndSpread4_computes`, `unspread64_computes`: the hints are pinned down by the range checks
  on the parts and one equation on their sum.
* `bigSigma_computes`, `maj_computes`, `ch_computes`: a sum of spread words, taken apart;
  `toNat_ch` has the choice function as the source computes it, from two conjunctions.
* `Chunks.sum_computes`: the sum of several words is checked in its carry only, and the result is a
  word because its chunks are.  Without the chunks it would be open.
* `scheduleLoop_computes`, `Regs.round_computes`: the two loops, turn by turn.
-/
import Mathlib.Data.BitVec
import Mathlib.Tactic.LinearCombination
import Mavros.Field
import Mavros.Lib.Circuit
import Mavros.Lib.Interleave
import Mavros.Lib.Residue
import Mavros.Lib.Sha256

namespace Mavros.Stdlib

open Lib Lib.Circuit

/-! ## The source -/

/-- The global `K`. -/
def k : List Nat := [
  0x428a2f98, 0x71374491, 0xb5c0fbcf, 0xe9b5dba5, 0x3956c25b, 0x59f111f1, 0x923f82a4, 0xab1c5ed5,
  0xd807aa98, 0x12835b01, 0x243185be, 0x550c7dc3, 0x72be5d74, 0x80deb1fe, 0x9bdc06a7, 0xc19bf174,
  0xe49b69c1, 0xefbe4786, 0x0fc19dc6, 0x240ca1cc, 0x2de92c6f, 0x4a7484aa, 0x5cb0a9dc, 0x76f988da,
  0x983e5152, 0xa831c66d, 0xb00327c8, 0xbf597fc7, 0xc6e00bf3, 0xd5a79147, 0x06ca6351, 0x14292967,
  0x27b70a85, 0x2e1b2138, 0x4d2c6dfc, 0x53380d13, 0x650a7354, 0x766a0abb, 0x81c2c92e, 0x92722c85,
  0xa2bfe8a1, 0xa81a664b, 0xc24b8b70, 0xc76c51a3, 0xd192e819, 0xd6990624, 0xf40e3585, 0x106aa070,
  0x19a4c116, 0x1e376c08, 0x2748774c, 0x34b0bcb5, 0x391c0cb3, 0x4ed8aa4a, 0x5b9cca4f, 0x682e6ff3,
  0x748f82ee, 0x78a5636f, 0x84c87814, 0x8cc70208, 0x90befffa, 0xa4506ceb, 0xbef9a3f7, 0xc67178f2]

def pow2 (n : Nat) : Fr := ((1 <<< n : Nat) : Fr)

section Gadgets

variable {σ : Type} (P : Prover Fr σ)

/-- `spread::<N>`: fails unless the argument has at most `n` bits. -/
def spread (n : Nat) (x : Fr) : Circuit σ Fr := do
  require (x.val < 2 ^ n)
  return (Lib.spread n x.val : Nat)

/-- `unspread::<N>`: fails unless the argument has at most `n` pairs of bits.  The odd
positions come first. -/
def unspread (n : Nat) (x : Fr) : Circuit σ (Fr × Fr) := do
  require (x.val < 4 ^ n)
  return ((odds n x.val : Nat), (evens n x.val : Nat))

/-- `assert_max_bit_size::<N>` -/
def assertMaxBitSize (n : Nat) (x : Fr) : Circuit σ Unit := require (x.val < 2 ^ n)

def split4Hint (f a b c d : Nat) : Fr × Fr × Fr :=
  let a0 := (f &&& (((1 <<< a) - 1) <<< (b + c + d))) >>> (b + c + d)
  let a1 := (f &&& (((1 <<< b) - 1) <<< (c + d))) >>> (c + d)
  let a2 := (f &&& (((1 <<< c) - 1) <<< d)) >>> d
  ((a0 : Nat), (a1 : Nat), (a2 : Nat))

def splitAndSpread4 (a b c d : Nat) (f : Fr) : Circuit σ (Fr × Fr × Fr × Fr) := do
  require (a + b + c + d = 32)
  let hint := split4Hint f.val a b c d
  let a0 ← P.choose (some hint.1)
  let a1 ← P.choose (some hint.2.1)
  let a2 ← P.choose (some hint.2.2)
  let a3 := f - a0 * pow2 (b + c + d) - a1 * pow2 (c + d) - a2 * pow2 d
  let s0 ← spread a a0
  let s1 ← spread b a1
  let s2 ← spread c a2
  let s3 ← spread d a3
  return (s0, s1, s2, s3)

def unspread64Hint (f : Nat) : Fr × Fr :=
  let mask22 := (1 <<< 22) - 1
  (((f >>> 42) &&& mask22 : Nat), ((f >>> 20) &&& mask22 : Nat))

/-- The odd and the even positions of a word of 64 bits. -/
def unspread64 (x : Fr) : Circuit σ (Fr × Fr) := do
  let hint := unspread64Hint x.val
  let a0 ← P.choose (some hint.1)
  let a1 ← P.choose (some hint.2)
  let a2 := x - a0 * pow2 42 - a1 * pow2 20
  let a0Uns ← unspread 11 a0
  let a1Uns ← unspread 11 a1
  let a2Uns ← unspread 10 a2
  return (a2Uns.1 + a1Uns.1 * pow2 10 + a0Uns.1 * pow2 21,
    a2Uns.2 + a1Uns.2 * pow2 10 + a0Uns.2 * pow2 21)

def wrappingAddNHint (a : Fr) : Fr := (a.val % 2 ^ 32 : Nat)

/-- `unsafe_wrapping_add_N`: the carry is checked, the result is not. -/
def unsafeWrappingAddN (a : List Fr) : Circuit σ Fr := do
  require (a.length < 20)
  require (0 < a.length)
  let sum := a.foldl (· + ·) 0
  let res ← P.choose (some (wrappingAddNHint sum))
  let carry := (sum - res) / pow2 32
  assertMaxBitSize 8 carry
  return res

def wrappingAddN (a : List Fr) : Circuit σ Fr := do
  let res ← unsafeWrappingAddN P a
  assertMaxBitSize 32 res
  return res

end Gadgets

/-- A word and the spread words of its four chunks, from the top down. -/
structure Chunks where
  (packed s0 s1 s2 s3 : Fr)

/-- `new`, with the layout of the type. -/
def Chunks.new {σ : Type} (P : Prover Fr σ) (a b c d : Nat) (x : Fr) : Circuit σ Chunks := do
  let s ← splitAndSpread4 P a b c d x
  return ⟨x, s.1, s.2.1, s.2.2.1, s.2.2.2⟩

abbrev Sigma0Word := Chunks

namespace Sigma0Word

variable {σ : Type} (P : Prover Fr σ)

def new (x : Fr) : Circuit σ Sigma0Word := Chunks.new P 10 9 11 2 x

def spread (self : Sigma0Word) : Fr :=
  self.s3 + self.s2 * pow2 4 + self.s1 * pow2 26 + self.s0 * pow2 44

def bigSigma (self : Sigma0Word) : Circuit σ Fr := do
  let arr2 := self.s2 + self.s1 * pow2 22 + self.s0 * pow2 40 + self.s3 * pow2 60
  let arr13 := self.s1 + self.s0 * pow2 18 + self.s3 * pow2 38 + self.s2 * pow2 42
  let arr22 := self.s0 + self.s3 * pow2 20 + self.s2 * pow2 24 + self.s1 * pow2 46
  let r ← unspread64 P (arr2 + arr13 + arr22)
  return r.2

def maj (a b c : Sigma0Word) : Circuit σ Fr := do
  let r ← unspread64 P (a.spread + b.spread + c.spread)
  return r.1

def wrappingAdd (a : List Fr) : Circuit σ Sigma0Word := do
  let res ← unsafeWrappingAddN P a
  new P res

end Sigma0Word

abbrev Sigma1Word := Chunks

namespace Sigma1Word

variable {σ : Type} (P : Prover Fr σ)

def new (x : Fr) : Circuit σ Sigma1Word := Chunks.new P 7 14 5 6 x

def spread (self : Sigma1Word) : Fr :=
  self.s3 + self.s2 * pow2 12 + self.s1 * pow2 22 + self.s0 * pow2 50

def bigSigma (self : Sigma1Word) : Circuit σ Fr := do
  let err6 := self.s2 + self.s1 * pow2 10 + self.s0 * pow2 38 + self.s3 * pow2 52
  let err11 := self.s1 + self.s0 * pow2 28 + self.s3 * pow2 42 + self.s2 * pow2 54
  let err25 := self.s0 + self.s3 * pow2 14 + self.s2 * pow2 26 + self.s1 * pow2 36
  let r ← unspread64 P (err6 + err11 + err25)
  return r.2

def ch (e f g : Sigma1Word) : Circuit σ Fr := do
  let eSpread := spread e
  let fSpread := spread f
  let gSpread := spread g
  let eAndF ← unspread64 P (eSpread + fSpread)
  let eAndG ← unspread64 P (eSpread + gSpread)
  return eAndF.1 + g.packed - eAndG.1

def wrappingAdd (a : List Fr) : Circuit σ Sigma1Word := do
  let res ← unsafeWrappingAddN P a
  new P res

end Sigma1Word

section Compression

variable {σ : Type} (P : Prover Fr σ)

def smallSigma0 (x : Fr) : Circuit σ Fr := do
  let s ← splitAndSpread4 P 14 11 4 3 x
  let (s14, s11, s4, s3) := s
  let rr7 := s11 + s14 * pow2 22 + s3 * pow2 50 + s4 * pow2 56
  let rr18 := s14 + s3 * pow2 28 + s4 * pow2 34 + s11 * pow2 42
  let rs3 := s4 + s11 * pow2 8 + s14 * pow2 30
  let r ← unspread64 P (rr7 + rr18 + rs3)
  return r.2

def smallSigma1 (x : Fr) : Circuit σ Fr := do
  let s ← splitAndSpread4 P 13 2 7 10 x
  let (s13, s2, s7, s10) := s
  let rr17 := s2 + s13 * pow2 4 + s10 * pow2 30 + s7 * pow2 50
  let rr19 := s13 + s10 * pow2 26 + s7 * pow2 46 + s2 * pow2 60
  let rs10 := s7 + s2 * pow2 14 + s13 * pow2 18
  let r ← unspread64 P (rr17 + rr19 + rs10)
  return r.2

/-- The message schedule; an array is a function that is zero past its end. -/
def scheduleLoop (msgBlock : Vector Fr 16) : Circuit σ (Nat → Fr) :=
  (List.range 48).foldlM
    (fun w j => do
      let i := 16 + j
      let s1 ← smallSigma1 P (w (i - 2))
      let s0 ← smallSigma0 P (w (i - 15))
      let x ← wrappingAddN P [s1, w (i - 7), s0, w (i - 16)]
      return Function.update w i x)
    (fun i => msgBlock[i]?.getD 0)

/-- The variables of the main loop. -/
structure Regs where
  (aW bW cW : Sigma0Word)
  d : Fr
  (eW fW gW : Sigma1Word)
  h : Fr

/-- One turn of the main loop. -/
def Regs.round (s : Regs) (ki wi : Fr) : Circuit σ Regs := do
  let bs1 ← Sigma1Word.bigSigma P s.eW
  let ch ← Sigma1Word.ch P s.eW s.fW s.gW
  let bs0 ← Sigma0Word.bigSigma P s.aW
  let maj ← Sigma0Word.maj P s.aW s.bW s.cW
  let newEW ← Sigma1Word.wrappingAdd P [s.d, s.h, bs1, ch, ki, wi]
  let newAW ← Sigma0Word.wrappingAdd P [s.h, bs1, ch, ki, wi, bs0, maj]
  return { h := s.gW.packed, gW := s.fW, fW := s.eW, eW := newEW, d := s.cW.packed, cW := s.bW,
           bW := s.aW, aW := newAW }

/-- The words that are returned. -/
def Regs.addTo (s : Regs) (state : Vector Fr 8) : Circuit σ (Vector Fr 8) := do
  let r0 ← wrappingAddN P [state[0], s.aW.packed]
  let r1 ← wrappingAddN P [state[1], s.bW.packed]
  let r2 ← wrappingAddN P [state[2], s.cW.packed]
  let r3 ← wrappingAddN P [state[3], s.d]
  let r4 ← wrappingAddN P [state[4], s.eW.packed]
  let r5 ← wrappingAddN P [state[5], s.fW.packed]
  let r6 ← wrappingAddN P [state[6], s.gW.packed]
  let r7 ← wrappingAddN P [state[7], s.h]
  return #v[r0, r1, r2, r3, r4, r5, r6, r7]

def sha256Compression (msgBlock : Vector Fr 16) (state : Vector Fr 8) :
    Circuit σ (Vector Fr 8) := do
  let w ← scheduleLoop P msgBlock
  let aW ← Sigma0Word.new P state[0]
  let bW ← Sigma0Word.new P state[1]
  let cW ← Sigma0Word.new P state[2]
  let eW ← Sigma1Word.new P state[4]
  let fW ← Sigma1Word.new P state[5]
  let gW ← Sigma1Word.new P state[6]
  let s ← (List.range 64).foldlM (fun s i => s.round P (k.getD i 0 : Nat) (w i))
    (⟨aW, bW, cW, state[3], eW, fW, gW, state[7]⟩ : Regs)
  s.addTo P state

end Compression

/-! ## Words and their parts

Chunks of a word, and the words between the spread ones.
-/

/-- The value of a wire that carries a word. -/
def toFr (w : Sha256.Word) : Fr := (w.toNat : Nat)

@[simp] theorem pow2_eq (n : Nat) : pow2 n = 2 ^ n := by
  rw [pow2, Nat.one_shiftLeft]
  push_cast
  rfl

theorem lt_modulus_of_word {n : Nat} (h : n < 2 ^ 64) : n < modulus :=
  Nat.lt_trans h (two_pow_lt_modulus (by decide))

theorem val_toFr (w : Sha256.Word) : (toFr w).val = w.toNat :=
  val_of_word (Nat.lt_trans w.isLt (by decide))

/-- A field of bits cut out by a mask. -/
theorem and_mask_shiftRight (f a s : Nat) :
    (f &&& (((1 <<< a) - 1) <<< s)) >>> s = f / 2 ^ s % 2 ^ a := by
  rw [Nat.shiftRight_and_distrib, Nat.shiftLeft_shiftRight, Nat.one_shiftLeft,
    Nat.and_two_pow_sub_one_eq_mod, Nat.shiftRight_eq_div_pow]

theorem append_div {m x : Nat} (y : Nat) (hx : x < 2 ^ m) : (x + 2 ^ m * y) / 2 ^ m = y := by
  rw [Nat.add_mul_div_left _ _ (Nat.two_pow_pos m), Nat.div_eq_of_lt hx, Nat.zero_add]

/-- The spread chunks of a word. -/
def spreadChunks (a b c d n : Nat) : Fr × Fr × Fr × Fr :=
  ((Lib.spread a (n / 2 ^ (b + c + d)) : Nat), (Lib.spread b (n / 2 ^ (c + d)) : Nat),
    (Lib.spread c (n / 2 ^ d) : Nat), (Lib.spread d n : Nat))

section Splitting

variable {σ : Type} {P : Prover Fr σ}

theorem spread_ensures {n : Nat} {x : Fr} :
    Ensures (spread n x : Circuit σ Fr) fun y =>
      x.val < 2 ^ n ∧ y = (Lib.spread n x.val : Nat) :=
  Ensures.require.bind fun _ hx => .pure ⟨hx, rfl⟩

/-- Whatever the chunks are, the argument is a word and these are its chunks. -/
theorem splitAndSpread4_ensures {a b c d : Nat} {f : Fr} :
    Ensures (splitAndSpread4 P a b c d f) fun s =>
      f.val < 2 ^ 32 ∧ s = spreadChunks a b c d f.val := by
  refine Ensures.require.bind fun _ hsum => ?_
  refine Ensures.any.bind fun a0 _ => Ensures.any.bind fun a1 _ => Ensures.any.bind fun a2 _ => ?_
  refine spread_ensures.bind fun s0 h0 => spread_ensures.bind fun s1 h1 => ?_
  refine spread_ensures.bind fun s2 h2 => spread_ensures.bind fun s3 h3 => .pure ?_
  obtain ⟨h0, rfl⟩ := h0
  obtain ⟨h1, rfl⟩ := h1
  obtain ⟨h2, rfl⟩ := h2
  obtain ⟨h3, rfl⟩ := h3
  set a3 := f - a0 * pow2 (b + c + d) - a1 * pow2 (c + d) - a2 * pow2 d with ha3
  -- the chunks put together
  have hlt1 := append_lt h1 h0
  have hlt2 := append_lt h2 hlt1
  have hlt3 := append_lt h3 hlt2
  let n := a3.val + 2 ^ d * (a2.val + 2 ^ c * (a1.val + 2 ^ b * a0.val))
  have hn : n < 2 ^ 32 := by
    rwa [show d + (c + (b + a)) = 32 by omega, mul_comm _ (2 ^ d), mul_comm _ (2 ^ c),
      mul_comm _ (2 ^ b)] at hlt3
  have hcast : f = ((n : Nat) : Fr) := by
    have hval : ∀ x : Fr, ((x.val : Nat) : Fr) = x := ZMod.natCast_zmod_val
    simp only [n]
    push_cast
    rw [hval, hval, hval, hval, ha3, pow2_eq, pow2_eq, pow2_eq]
    ring
  have hf : f.val = n := hcast ▸ val_of_word (Nat.lt_trans hn (by decide))
  refine ⟨hf ▸ hn, ?_⟩
  have hd : n / 2 ^ d = a2.val + 2 ^ c * (a1.val + 2 ^ b * a0.val) := append_div _ h3
  have hcd : n / 2 ^ (c + d) = a1.val + 2 ^ b * a0.val := by
    rw [Nat.add_comm, pow_add, ← Nat.div_div_eq_div_mul, hd, append_div _ h2]
  have hbcd : n / 2 ^ (b + c + d) = a0.val := by
    rw [Nat.add_assoc, Nat.add_comm, pow_add, ← Nat.div_div_eq_div_mul, hcd, append_div _ h1]
  have hmod : ∀ {m x : Nat} (y : Nat), x < 2 ^ m →
      Lib.spread m (x + 2 ^ m * y) = Lib.spread m x := by
    intro m x y hx
    rw [← spread_mod, Nat.add_mul_mod_self_left, Nat.mod_eq_of_lt hx]
  rw [hf, spreadChunks, hbcd, hcd, hd, hmod _ h1, hmod _ h2]
  simp only [n, hmod _ h3]

/-- The low bits of a number are in range. -/
theorem Completes.spread {n : Nat} (x : Nat) (hn : n ≤ 32) :
    Gadget.Completes (F := Fr) (fun _ _ => Stdlib.spread n ((x % 2 ^ n : Nat) : Fr))
      (Lib.spread n x : Nat) := by
  have hlt : x % 2 ^ n < 2 ^ n := Nat.mod_lt _ (Nat.two_pow_pos n)
  have hval : ((x % 2 ^ n : Nat) : Fr).val = x % 2 ^ n := by
    refine val_of_word (Nat.lt_of_lt_of_le hlt ?_)
    exact Nat.pow_le_pow_right Nat.two_pos (by omega)
  refine Gadget.Completes.bind (a := ()) (.require (by rwa [hval])) ?_
  rw [hval, spread_mod]
  exact .pure

/-- The hints are the chunks. -/
theorem splitAndSpread4_completes {a b c d n : Nat} (hsum : a + b + c + d = 32)
    (hn : n < 2 ^ 32) :
    Gadget.Completes (fun _ P => splitAndSpread4 P a b c d ((n : Nat) : Fr))
      (spreadChunks a b c d n) := by
  have hval : ((n : Nat) : Fr).val = n := val_of_word (Nat.lt_trans hn (by decide))
  have hhint : split4Hint n a b c d = (((n / 2 ^ (b + c + d) % 2 ^ a : Nat) : Fr),
      ((n / 2 ^ (c + d) % 2 ^ b : Nat) : Fr), ((n / 2 ^ d % 2 ^ c : Nat) : Fr)) := by
    simp only [split4Hint, and_mask_shiftRight]
  have hlow : ((n : Nat) : Fr) - ((n / 2 ^ (b + c + d) % 2 ^ a : Nat) : Fr) * pow2 (b + c + d)
      - ((n / 2 ^ (c + d) % 2 ^ b : Nat) : Fr) * pow2 (c + d)
      - ((n / 2 ^ d % 2 ^ c : Nat) : Fr) * pow2 d = ((n % 2 ^ d : Nat) : Fr) := by
    have htop : n / 2 ^ (b + c + d) % 2 ^ a = n / 2 ^ (b + c + d) := by
      refine Nat.mod_eq_of_lt (Nat.div_lt_of_lt_mul ?_)
      rwa [← pow_add, show b + c + d + a = 32 by omega]
    have hsplit : ∀ m k, n / 2 ^ m = n / 2 ^ m % 2 ^ k + 2 ^ k * (n / 2 ^ (k + m)) := by
      intro m k
      rw [Nat.add_comm k m, pow_add, ← Nat.div_div_eq_div_mul, Nat.mod_add_div]
    have hnat : n = n % 2 ^ d + 2 ^ d * (n / 2 ^ d % 2 ^ c
        + 2 ^ c * (n / 2 ^ (c + d) % 2 ^ b + 2 ^ b * (n / 2 ^ (b + c + d) % 2 ^ a))) := by
      rw [htop, Nat.add_assoc b c d, ← hsplit, ← hsplit, Nat.mod_add_div]
    have hfr := congrArg (Nat.cast : Nat → Fr) hnat
    push_cast at hfr ⊢
    simp only [pow2_eq]
    linear_combination hfr
  refine .bind (a := ()) (.require hsum) ?_
  simp only [hval, hhint]
  refine .bind .choose (.bind .choose (.bind .choose ?_))
  simp only [hlow]
  refine .bind (Completes.spread _ (by omega)) (.bind (Completes.spread _ (by omega)) ?_)
  exact .bind (Completes.spread _ (by omega)) (.bind (Completes.spread _ (by omega)) .pure)

theorem splitAndSpread4_computes {a b c d n : Nat} (hsum : a + b + c + d = 32)
    (hn : n < 2 ^ 32) :
    Gadget.Computes (fun _ P => splitAndSpread4 P a b c d ((n : Nat) : Fr))
      (spreadChunks a b c d n) := by
  refine .of_sound (fun σ P => splitAndSpread4_ensures.mono fun s hs => ?_)
    ⟨_, splitAndSpread4_completes hsum hn⟩
  rw [hs.2, val_of_word (Nat.lt_trans hn (by decide))]

/-- The odd and the even positions of a word below `2 ^ 64`, whatever its limbs are. -/
theorem unspread64_ensures {n : Nat} (hn : n < 2 ^ 64) :
    Ensures (unspread64 P ((n : Nat) : Fr)) fun r =>
      r = (((odds 32 n : Nat) : Fr), ((evens 32 n : Nat) : Fr)) := by
  refine Ensures.any.bind fun a0 _ => Ensures.any.bind fun a1 _ => ?_
  have hun : ∀ {k : Nat} {x : Fr}, Ensures (unspread k x : Circuit σ (Fr × Fr)) fun y =>
      x.val < 4 ^ k ∧ y = (((odds k x.val : Nat) : Fr), ((evens k x.val : Nat) : Fr)) :=
    fun {k x} => Ensures.require.bind fun _ hx => .pure ⟨hx, rfl⟩
  refine hun.bind fun r0 h0 => hun.bind fun r1 h1 => hun.bind fun r2 h2 => .pure ?_
  obtain ⟨h0, rfl⟩ := h0
  obtain ⟨h1, rfl⟩ := h1
  obtain ⟨h2, rfl⟩ := h2
  set a2 := ((n : Nat) : Fr) - a0 * pow2 42 - a1 * pow2 20 with ha2
  -- the limbs put together are the word
  have hcast : ((n : Nat) : Fr) = ((a2.val + 4 ^ 10 * (a1.val + 4 ^ 11 * a0.val) : Nat) : Fr) := by
    have hval : ∀ x : Fr, ((x.val : Nat) : Fr) = x := ZMod.natCast_zmod_val
    push_cast
    rw [hval, hval, hval, ha2, pow2_eq, pow2_eq]
    ring
  have hnat : n = a2.val + 4 ^ 10 * (a1.val + 4 ^ 11 * a0.val) := by
    refine eq_of_natCast_eq hcast (lt_modulus_of_word hn) (lt_modulus_of_word ?_)
    norm_num at h0 h1 h2 ⊢
    omega
  have hdiv : n / 4 ^ 10 = a1.val + 4 ^ 11 * a0.val := by
    rw [hnat]
    norm_num at h2 ⊢
    omega
  have hdiv' : n / 4 ^ 10 / 4 ^ 11 = a0.val := by
    rw [hdiv]
    norm_num at h1 ⊢
    omega
  have hodds : odds 32 n
      = odds 10 a2.val + 2 ^ 10 * (odds 11 a1.val + 2 ^ 11 * odds 11 a0.val) := by
    rw [show (32 : Nat) = 10 + (11 + 11) from rfl, odds_add 10, odds_add 11, hdiv', hdiv,
      odds_add_mul, hnat, odds_add_mul]
  have hevens : evens 32 n
      = evens 10 a2.val + 2 ^ 10 * (evens 11 a1.val + 2 ^ 11 * evens 11 a0.val) := by
    rw [show (32 : Nat) = 10 + (11 + 11) from rfl, evens_add 10, evens_add 11, hdiv', hdiv,
      evens_add_mul, hnat, evens_add_mul]
  rw [hodds, hevens, Prod.mk.injEq]
  push_cast
  simp only [pow2_eq]
  exact ⟨by ring, by ring⟩

/-- The hints are the limbs. -/
theorem unspread64_completes {n : Nat} (hn : n < 2 ^ 64) :
    ∃ r, Gadget.Completes (fun _ P => unspread64 P ((n : Nat) : Fr)) r := by
  have hhint : unspread64Hint n
      = (((n / 2 ^ 42 : Nat) : Fr), ((n / 2 ^ 20 % 2 ^ 22 : Nat) : Fr)) := by
    have htop : n / 2 ^ 42 % 2 ^ 22 = n / 2 ^ 42 := Nat.mod_eq_of_lt (by omega)
    simp only [unspread64Hint, Nat.one_shiftLeft, Nat.and_two_pow_sub_one_eq_mod,
      Nat.shiftRight_eq_div_pow, htop]
  have hlow : ((n : Nat) : Fr) - ((n / 2 ^ 42 : Nat) : Fr) * pow2 42
      - ((n / 2 ^ 20 % 2 ^ 22 : Nat) : Fr) * pow2 20 = ((n % 2 ^ 20 : Nat) : Fr) := by
    have hnat : n = n % 2 ^ 20 + 2 ^ 20 * (n / 2 ^ 20 % 2 ^ 22) + 2 ^ 42 * (n / 2 ^ 42) := by omega
    have hfr := congrArg (Nat.cast : Nat → Fr) hnat
    push_cast at hfr ⊢
    simp only [pow2_eq]
    linear_combination hfr
  have hun : ∀ {k x : Nat}, x < 4 ^ k → x < 2 ^ 64 → Gadget.Completes (F := Fr)
      (fun _ _ => unspread k ((x : Nat) : Fr))
      (((odds k ((x : Nat) : Fr).val : Nat) : Fr), ((evens k ((x : Nat) : Fr).val : Nat) : Fr)) :=
    fun {k x} hx hx' => .bind (a := ()) (.require (by rwa [val_of_word hx'])) .pure
  simp only [unspread64, val_of_word hn, hhint]
  refine Gadget.Completes.choose.bind_exists (Gadget.Completes.choose.bind_exists ?_)
  simp only [hlow]
  have h42 : n / 2 ^ 42 < 4 ^ 11 := by
    norm_num at hn ⊢
    omega
  have h20 : n / 2 ^ 20 % 2 ^ 22 < 4 ^ 11 := by
    norm_num
    omega
  have h0 : n % 2 ^ 20 < 4 ^ 10 := by
    norm_num
    omega
  exact (hun h42 (by omega)).bind_exists
    ((hun h20 (by omega)).bind_exists ⟨_, (hun h0 (by omega)).bind .pure⟩)

/-- Two spread words put together are taken apart. -/
theorem unspread64_computes {u v : Nat} (hu : u < 2 ^ 32) (hv : v < 2 ^ 32) {x : Fr}
    (hx : x = ((2 * Lib.spread 32 u + Lib.spread 32 v : Nat) : Fr)) :
    Gadget.Computes (fun _ P => unspread64 P x) (((u : Nat) : Fr), ((v : Nat) : Fr)) := by
  have hlt : 2 * Lib.spread 32 u + Lib.spread 32 v < 2 ^ 64 := interleaved_lt 32 u v
  subst hx
  refine .of_sound (fun σ P => (unspread64_ensures hlt).mono fun r hr => ?_)
    (unspread64_completes hlt)
  rw [hr, odds_interleaved v hu, evens_interleaved u hv]

end Splitting

/-! ## Functions of words -/

section Words

variable (w : Sha256.Word) {m k : Nat}

theorem toNat_div_lt (hsum : m + k = 32) : w.toNat / 2 ^ k < 2 ^ m := by
  refine Nat.div_lt_of_lt_mul ?_
  rw [← pow_add, Nat.add_comm, hsum]
  exact w.isLt

theorem toNat_rotateRight (hsum : m + k = 32) (hm : 0 < m) :
    (w.rotateRight k).toNat = w.toNat / 2 ^ k + w.toNat % 2 ^ k * 2 ^ m := by
  have hpow : (2 : Nat) ^ 32 = 2 ^ k * 2 ^ m := by rw [← pow_add, Nat.add_comm, hsum]
  rw [BitVec.rotateRight_def, Nat.mod_eq_of_lt (by omega), show 32 - k = m by omega,
    BitVec.toNat_or, BitVec.toNat_ushiftRight, BitVec.toNat_shiftLeft, Nat.shiftLeft_eq,
    Nat.shiftRight_eq_div_pow, hpow, Nat.mul_mod_mul_right, Nat.or_comm, Nat.mul_comm _ (2 ^ m),
    ← Nat.two_pow_add_eq_or_of_lt (toNat_div_lt w hsum), Nat.add_comm]

/-- A rotated word is spread with its low bits on top. -/
theorem spread_rotateRight (hsum : m + k = 32) (hm : 0 < m) :
    Lib.spread 32 (w.rotateRight k).toNat
      = Lib.spread m (w.toNat / 2 ^ k) + 4 ^ m * Lib.spread k w.toNat := by
  rw [toNat_rotateRight w hsum hm, ← spread_mod k, ← spread_append (toNat_div_lt w hsum), hsum]

theorem spread_shiftRight (hsum : m + k = 32) :
    Lib.spread 32 (w >>> k).toNat = Lib.spread m (w.toNat / 2 ^ k) := by
  have hzero : ∀ n, Lib.spread n 0 = 0 := by
    intro n
    induction n with
    | zero => rfl
    | succ n ih => rw [Lib.spread, Nat.zero_div, ih]
  have happ := spread_append (n := k) (v := 0) (toNat_div_lt w hsum)
  rw [hsum, hzero, Nat.zero_mul, Nat.add_zero, Nat.mul_zero, Nat.add_zero] at happ
  rw [BitVec.toNat_ushiftRight, Nat.shiftRight_eq_div_pow, happ]

/-- A chunk above bit `k` is two chunks. -/
theorem spread_add_div (m n k x : Nat) :
    Lib.spread (m + n) (x / 2 ^ k)
      = Lib.spread m (x / 2 ^ k) + 4 ^ m * Lib.spread n (x / 2 ^ (k + m)) := by
  rw [spread_add, Nat.div_div_eq_div_mul, ← pow_add]

end Words

/-- Three spread words together hold their exclusive or and their majority. -/
theorem unspread64_three {x : Fr} {u v w : Sha256.Word}
    (hx : x = ((Lib.spread 32 u.toNat + Lib.spread 32 v.toNat + Lib.spread 32 w.toNat : Nat) :
    Fr)) :
    Gadget.Computes (fun _ P => unspread64 P x)
      (toFr ((u &&& v) ^^^ (u &&& w) ^^^ (v &&& w)), toFr (u ^^^ v ^^^ w)) := by
  refine unspread64_computes (BitVec.isLt _) (BitVec.isLt _) (hx.trans ?_)
  rw [spread_add_three]
  simp only [BitVec.toNat_xor, BitVec.toNat_and]

/-- Two spread words hold the carries of their bits. -/
theorem unspread64_two {x : Fr} {u v : Sha256.Word}
    (hx : x = ((Lib.spread 32 u.toNat + Lib.spread 32 v.toNat : Nat) : Fr)) :
    Gadget.Computes (fun _ P => unspread64 P x) (toFr (u &&& v), toFr (u ^^^ v)) := by
  refine unspread64_computes (BitVec.isLt _) (BitVec.isLt _) (hx.trans ?_)
  rw [spread_add_spread]
  simp only [BitVec.toNat_xor, BitVec.toNat_and]

/-- A word with its spread chunks. -/
def Chunks.of (a b c d : Nat) (w : Sha256.Word) : Chunks :=
  let s := spreadChunks a b c d w.toNat
  ⟨toFr w, s.1, s.2.1, s.2.2.1, s.2.2.2⟩

theorem Chunks.new_computes {a b c d : Nat} (hsum : a + b + c + d = 32) (w : Sha256.Word) :
    Gadget.Computes (fun _ P => Chunks.new P a b c d (toFr w)) (Chunks.of a b c d w) :=
  (splitAndSpread4_computes hsum w.isLt).bind .pure

namespace Sigma0Word

def of (w : Sha256.Word) : Sigma0Word := Chunks.of 10 9 11 2 w

section Layout

variable (w : Sha256.Word)

/-- The chunks of the layout, from the bottom up. -/
theorem spread_of : spread (of w) = ((Lib.spread 32 w.toNat : Nat) : Fr) := by
  have h32 : Lib.spread 32 w.toNat = _ := spread_add 2 30 w.toNat
  have h30 : Lib.spread 30 (w.toNat / 2 ^ 2) = _ := spread_add_div 11 19 2 w.toNat
  have h19 : Lib.spread 19 (w.toNat / 2 ^ 13) = _ := spread_add_div 9 10 13 w.toNat
  rw [h32, h30, h19]
  simp only [spread, of, Chunks.of, spreadChunks, pow2_eq]
  push_cast
  ring

theorem bigSigma_computes :
    Gadget.Computes (fun _ P => bigSigma P (of w)) (toFr (Sha256.bigSigma0 w)) := by
  have h30 : Lib.spread 30 (w.toNat / 2 ^ 2) = _ := spread_add_div 11 19 2 w.toNat
  have h20 : Lib.spread 20 (w.toNat / 2 ^ 2) = _ := spread_add_div 11 9 2 w.toNat
  have h19 : Lib.spread 19 (w.toNat / 2 ^ 13) = _ := spread_add_div 9 10 13 w.toNat
  have h22 : Lib.spread 22 w.toNat = _ := spread_add 2 20 w.toNat
  have h13 : Lib.spread 13 w.toNat = _ := spread_add 2 11 w.toNat
  refine .bind (unspread64_three (u := w.rotateRight 2) (v := w.rotateRight 13)
    (w := w.rotateRight 22) ?_) .pure
  rw [spread_rotateRight w (m := 30) rfl (by decide),
    spread_rotateRight w (m := 19) rfl (by decide),
    spread_rotateRight w (m := 10) rfl (by decide), h30, h22, h13, h20, h19]
  simp only [of, Chunks.of, spreadChunks, pow2_eq]
  push_cast
  ring

theorem maj_computes (u v : Sha256.Word) :
    Gadget.Computes (fun _ P => maj P (of u) (of v) (of w)) (toFr (Sha256.maj u v w)) := by
  refine .bind (unspread64_three (u := u) (v := v) (w := w) ?_) .pure
  simp only [spread_of]
  push_cast
  rfl

end Layout

end Sigma0Word

namespace Sigma1Word

def of (w : Sha256.Word) : Sigma1Word := Chunks.of 7 14 5 6 w

section Layout

variable (w : Sha256.Word)

theorem spread_of : spread (of w) = ((Lib.spread 32 w.toNat : Nat) : Fr) := by
  have h32 : Lib.spread 32 w.toNat = _ := spread_add 6 26 w.toNat
  have h26 : Lib.spread 26 (w.toNat / 2 ^ 6) = _ := spread_add_div 5 21 6 w.toNat
  have h21 : Lib.spread 21 (w.toNat / 2 ^ 11) = _ := spread_add_div 14 7 11 w.toNat
  rw [h32, h26, h21]
  simp only [spread, of, Chunks.of, spreadChunks, pow2_eq]
  push_cast
  ring

theorem bigSigma_computes :
    Gadget.Computes (fun _ P => bigSigma P (of w)) (toFr (Sha256.bigSigma1 w)) := by
  have h26 : Lib.spread 26 (w.toNat / 2 ^ 6) = _ := spread_add_div 5 21 6 w.toNat
  have h19 : Lib.spread 19 (w.toNat / 2 ^ 6) = _ := spread_add_div 5 14 6 w.toNat
  have h21 : Lib.spread 21 (w.toNat / 2 ^ 11) = _ := spread_add_div 14 7 11 w.toNat
  have h25 : Lib.spread 25 w.toNat = _ := spread_add 6 19 w.toNat
  have h11 : Lib.spread 11 w.toNat = _ := spread_add 6 5 w.toNat
  refine .bind (unspread64_three (u := w.rotateRight 6) (v := w.rotateRight 11)
    (w := w.rotateRight 25) ?_) .pure
  rw [spread_rotateRight w (m := 26) rfl (by decide),
    spread_rotateRight w (m := 21) rfl (by decide),
    spread_rotateRight w (m := 7) rfl (by decide), h26, h25, h11, h19, h21]
  simp only [of, Chunks.of, spreadChunks, pow2_eq]
  push_cast
  ring

/-- The bits where the first word is zero are those of the third without the conjunction. -/
theorem toNat_ch (u v : Sha256.Word) :
    (Sha256.ch u v w).toNat + (u &&& w).toNat = (u &&& v).toNat + w.toNat := by
  have hdisj : (u &&& v) &&& (~~~u &&& w) = 0#32 := by
    ext i hi
    simp only [BitVec.getElem_and, BitVec.getElem_not, BitVec.getElem_zero]
    cases u[i] <;> simp
  have hdisj' : (u &&& w) &&& (~~~u &&& w) = 0#32 := by
    ext i hi
    simp only [BitVec.getElem_and, BitVec.getElem_not, BitVec.getElem_zero]
    cases u[i] <;> simp
  have hch : Sha256.ch u v w = (u &&& v) + (~~~u &&& w) := by
    rw [BitVec.add_eq_or_of_and_eq_zero _ _ hdisj]
    ext i hi
    simp only [Sha256.ch, BitVec.getElem_xor, BitVec.getElem_or, BitVec.getElem_and,
      BitVec.getElem_not]
    cases u[i] <;> simp
  have hw : w = (u &&& w) + (~~~u &&& w) := by
    rw [BitVec.add_eq_or_of_and_eq_zero _ _ hdisj']
    ext i hi
    simp only [BitVec.getElem_or, BitVec.getElem_and, BitVec.getElem_not]
    cases u[i] <;> simp
  have hsum := BitVec.toNat_add_of_and_eq_zero hdisj
  have hsum' := BitVec.toNat_add_of_and_eq_zero hdisj'
  rw [← hch] at hsum
  rw [← hw] at hsum'
  omega

theorem ch_computes (u v : Sha256.Word) :
    Gadget.Computes (fun _ P => ch P (of u) (of v) (of w)) (toFr (Sha256.ch u v w)) := by
  have hval : toFr (u &&& v) + toFr w - toFr (u &&& w) = toFr (Sha256.ch u v w) := by
    have hfr := congrArg (Nat.cast : Nat → Fr) (toNat_ch w u v)
    simp only [toFr]
    push_cast at hfr
    linear_combination -hfr
  rw [← hval]
  refine .bind (unspread64_two (u := u) (v := v) ?_)
    (.bind (unspread64_two (u := u) (v := w) ?_) .pure)
  · simp only [spread_of]
    push_cast
    rfl
  · simp only [spread_of]
    push_cast
    rfl

end Layout

end Sigma1Word

section SmallSigma

variable (w : Sha256.Word)

theorem smallSigma0_computes :
    Gadget.Computes (fun _ P => smallSigma0 P (toFr w)) (toFr (Sha256.smallSigma0 w)) := by
  have h25 : Lib.spread 25 (w.toNat / 2 ^ 7) = _ := spread_add_div 11 14 7 w.toNat
  have h7 : Lib.spread 7 w.toNat = _ := spread_add 3 4 w.toNat
  have h18 : Lib.spread 18 w.toNat = _ := spread_add 3 15 w.toNat
  have h15 : Lib.spread 15 (w.toNat / 2 ^ 3) = _ := spread_add_div 4 11 3 w.toNat
  have h29 : Lib.spread 29 (w.toNat / 2 ^ 3) = _ := spread_add_div 4 25 3 w.toNat
  refine .bind (splitAndSpread4_computes rfl w.isLt) (.bind (unspread64_three
    (u := w.rotateRight 7) (v := w.rotateRight 18) (w := w >>> 3) ?_) .pure)
  rw [spread_rotateRight w (m := 25) rfl (by decide),
    spread_rotateRight w (m := 14) rfl (by decide),
    spread_shiftRight w (m := 29) rfl, h29, h25, h7, h18, h15]
  simp only [pow2_eq]
  push_cast
  ring

theorem smallSigma1_computes :
    Gadget.Computes (fun _ P => smallSigma1 P (toFr w)) (toFr (Sha256.smallSigma1 w)) := by
  have h15 : Lib.spread 15 (w.toNat / 2 ^ 17) = _ := spread_add_div 2 13 17 w.toNat
  have h17 : Lib.spread 17 w.toNat = _ := spread_add 10 7 w.toNat
  have h19 : Lib.spread 19 w.toNat = _ := spread_add 10 9 w.toNat
  have h9 : Lib.spread 9 (w.toNat / 2 ^ 10) = _ := spread_add_div 7 2 10 w.toNat
  have h22 : Lib.spread 22 (w.toNat / 2 ^ 10) = _ := spread_add_div 7 15 10 w.toNat
  refine .bind (splitAndSpread4_computes rfl w.isLt) (.bind (unspread64_three
    (u := w.rotateRight 17) (v := w.rotateRight 19) (w := w >>> 10) ?_) .pure)
  rw [spread_rotateRight w (m := 15) rfl (by decide),
    spread_rotateRight w (m := 13) rfl (by decide),
    spread_shiftRight w (m := 22) rfl, h22, h15, h17, h19, h9]
  simp only [pow2_eq]
  push_cast
  ring

end SmallSigma

/-! ## Sums -/

theorem foldl_add_map (ws : List Sha256.Word) (n : Nat) :
    (ws.map toFr).foldl (· + ·) ((n : Nat) : Fr)
      = ((n + (ws.map BitVec.toNat).sum : Nat) : Fr) := by
  induction ws generalizing n with
  | nil => simp
  | cons w ws ih =>
    have ih := ih (n + w.toNat)
    push_cast at ih
    simp only [List.map_cons, List.foldl_cons, List.sum_cons]
    rw [toFr, ih]
    push_cast
    ring

theorem sum_toNat_le (ws : List Sha256.Word) :
    (ws.map BitVec.toNat).sum ≤ ws.length * 2 ^ 32 := by
  induction ws with
  | nil => simp
  | cons w ws ih =>
    have := w.isLt
    simp only [List.map_cons, List.sum_cons, List.length_cons]
    omega

theorem toNat_sum (ws : List Sha256.Word) :
    ws.sum.toNat = (ws.map BitVec.toNat).sum % 2 ^ 32 := by
  induction ws with
  | nil => rfl
  | cons w ws ih => rw [List.sum_cons, BitVec.toNat_add, ih, Nat.add_mod_mod]; rfl

section Sums

variable {ws : List Sha256.Word}

theorem sum_lt (hlen : ws.length < 20) : (ws.map BitVec.toNat).sum < 20 * 2 ^ 32 := by
  have := sum_toNat_le ws
  omega

/-- A result that turns out to be a word is the sum. -/
theorem unsafeWrappingAddN_ensures {σ : Type} {P : Prover Fr σ} :
    Ensures (unsafeWrappingAddN P (ws.map toFr)) fun r => r.val < 2 ^ 32 → r = toFr ws.sum := by
  refine Ensures.require.bind fun _ hlen => Ensures.any.bind fun _ _ => ?_
  refine Ensures.any.bind fun res _ => Ensures.require.bind fun _ hcarry => .pure fun hres => ?_
  rw [List.length_map] at hlen
  have hsum := foldl_add_map ws 0
  rw [Nat.cast_zero, Nat.zero_add] at hsum
  have hlt := sum_lt hlen
  have hmod := toNat_sum ws
  rw [hsum, pow2_eq] at hcarry
  generalize (ws.map BitVec.toNat).sum = n at hcarry hlt hmod
  obtain ⟨carry, hdef⟩ : ∃ carry, carry = (((n : Nat) : Fr) - res) / 2 ^ 32 := ⟨_, rfl⟩
  rw [← hdef] at hcarry
  have hne : (2 : Fr) ^ 32 ≠ 0 := pow_ne_zero _ (by decide)
  have hcast : ((n : Nat) : Fr) = ((res.val + carry.val * 2 ^ 32 : Nat) : Fr) := by
    have hval : ∀ x : Fr, ((x.val : Nat) : Fr) = x := ZMod.natCast_zmod_val
    have hmul := (eq_div_iff hne).mp hdef
    push_cast
    rw [hval, hval]
    linear_combination -hmul
  have hnat := eq_of_natCast_eq hcast (lt_modulus_of_word (by omega))
    (lt_modulus_of_word (by omega))
  have hres' : res.val = ws.sum.toNat := by omega
  rw [toFr, ← hres', ZMod.natCast_zmod_val]

theorem unsafeWrappingAddN_completes (hlen : ws.length < 20) (hpos : 0 < ws.length) :
    Gadget.Completes (fun _ P => unsafeWrappingAddN P (ws.map toFr)) (toFr ws.sum) := by
  have hsum := foldl_add_map ws 0
  rw [Nat.cast_zero, Nat.zero_add] at hsum
  have hlt := sum_lt hlen
  have hhint : wrappingAddNHint ((ws.map toFr).foldl (· + ·) 0) = toFr ws.sum := by
    rw [hsum, wrappingAddNHint, val_of_word (by omega), toFr, toNat_sum]
  have hcarry : (((ws.map toFr).foldl (· + ·) 0 - toFr ws.sum) / pow2 32 : Fr)
      = (((ws.map BitVec.toNat).sum / 2 ^ 32 : Nat) : Fr) := by
    have hne : (2 : Fr) ^ 32 ≠ 0 := pow_ne_zero _ (by decide)
    have hnat := Nat.div_add_mod (ws.map BitVec.toNat).sum (2 ^ 32)
    have hfr := congrArg (Nat.cast : Nat → Fr) hnat
    rw [hsum, pow2_eq, div_eq_iff hne, toFr, toNat_sum]
    push_cast at hfr ⊢
    linear_combination -hfr
  refine .bind (a := ()) (.require (by rwa [List.length_map])) ?_
  refine .bind (a := ()) (.require (by rwa [List.length_map])) ?_
  simp only [hhint]
  refine .bind .choose (.bind (a := ()) (.require ?_) .pure)
  rw [hcarry, val_of_word (by omega)]
  omega

theorem wrappingAddN_computes (ws : List Sha256.Word) (hlen : ws.length < 20)
    (hpos : 0 < ws.length) :
    Gadget.Computes (fun _ P => wrappingAddN P (ws.map toFr)) (toFr ws.sum) where
  sound σ P := unsafeWrappingAddN_ensures.bind fun r hr =>
    Ensures.require.bind fun _ hlt => .pure (hr hlt)
  complete := by
    refine (unsafeWrappingAddN_completes hlen hpos).bind (.bind (a := ()) (.require ?_) .pure)
    rw [val_toFr]
    exact ws.sum.isLt

/-- The chunks check what the sum left open. -/
theorem Chunks.sum_computes {a b c d : Nat} (ws : List Sha256.Word) (hsum : a + b + c + d = 32)
    (hlen : ws.length < 20) (hpos : 0 < ws.length) :
    Gadget.Computes (fun _ P => unsafeWrappingAddN P (ws.map toFr) >>= Chunks.new P a b c d)
      (Chunks.of a b c d ws.sum) where
  sound σ P := unsafeWrappingAddN_ensures.bind fun r hr =>
    splitAndSpread4_ensures.bind fun s hs => .pure (by
      rw [hs.2, hr hs.1, val_toFr]
      rfl)
  complete := (unsafeWrappingAddN_completes hlen hpos).bind (Chunks.new_computes hsum _).complete

end Sums

/-! ## The compression function -/

/-- The constants are those of the standard. -/
theorem k_eq : ∀ i < 64, ((k.getD i 0 : Nat) : Fr) = toFr (Sha256.k i) := by
  have h : ∀ i < 64, k.getD i 0 = (Sha256.k i).toNat := by decide +kernel
  intro i hi
  rw [toFr, h i hi]

/-- The schedule up to word `16 + n`, zero from there on. -/
def scheduled (block : Vector Sha256.Word 16) (n : Nat) : Nat → Fr := fun i =>
  if i < 16 + n then toFr (Sha256.schedule block i) else 0

theorem scheduled_lt {block : Vector Sha256.Word 16} {n i : Nat} (h : i < 16 + n) :
    scheduled block n i = toFr (Sha256.schedule block i) := if_pos h

theorem scheduled_zero (block : Vector Sha256.Word 16) :
    (fun i => (block.map toFr)[i]?.getD 0) = scheduled block 0 := by
  funext i
  by_cases hi : i < 16
  · rw [scheduled_lt hi, Sha256.schedule, dif_pos hi]
    simp [hi]
  · rw [scheduled, if_neg hi]
    simp [hi]

/-- Another word of the schedule. -/
theorem scheduled_succ (block : Vector Sha256.Word 16) (n : Nat) :
    Function.update (scheduled block n) (16 + n) (toFr (Sha256.schedule block (16 + n)))
      = scheduled block (n + 1) := by
  funext i
  by_cases hi : i = 16 + n
  · subst hi
    rw [Function.update_self, scheduled_lt (by omega)]
  · rw [Function.update_of_ne hi]
    by_cases hlt : i < 16 + n
    · rw [scheduled_lt hlt, scheduled_lt (by omega)]
    · rw [scheduled, if_neg hlt, scheduled, if_neg (by omega)]

theorem scheduleLoop_computes (block : Vector Sha256.Word 16) :
    Gadget.Computes (fun _ P => scheduleLoop P (block.map toFr)) (scheduled block 48) := by
  simp only [scheduleLoop, scheduled_zero]
  refine .foldlM_range (f := scheduled block) fun n _ => ?_
  rw [scheduled_lt (by omega), scheduled_lt (by omega), scheduled_lt (by omega),
    scheduled_lt (by omega), ← scheduled_succ]
  refine .bind (smallSigma1_computes _) (.bind (smallSigma0_computes _) ?_)
  have hsum : Sha256.schedule block (16 + n)
      = [Sha256.smallSigma1 (Sha256.schedule block (16 + n - 2)),
          Sha256.schedule block (16 + n - 7),
          Sha256.smallSigma0 (Sha256.schedule block (16 + n - 15)),
          Sha256.schedule block (16 + n - 16)].sum := by
    rw [Sha256.schedule, dif_neg (by omega)]
    simp [BitVec.add_assoc]
  rw [hsum]
  exact .bind (wrappingAddN_computes [_, _, _, _] (by simp) (by simp)) .pure

/-- The registers that hold the working variables. -/
def Regs.of (v : Sha256.Vars) : Regs where
  aW := Sigma0Word.of v.a
  bW := Sigma0Word.of v.b
  cW := Sigma0Word.of v.c
  d := toFr v.d
  eW := Sigma1Word.of v.e
  fW := Sigma1Word.of v.f
  gW := Sigma1Word.of v.g
  h := toFr v.h

theorem Regs.round_computes (v : Sha256.Vars) (kt wt : Sha256.Word) :
    Gadget.Computes (fun _ P => (Regs.of v).round P (toFr kt) (toFr wt))
      (Regs.of (v.round kt wt)) := by
  have he : (v.round kt wt).e
      = [v.d, v.h, Sha256.bigSigma1 v.e, Sha256.ch v.e v.f v.g, kt, wt].sum := by
    simp [Sha256.Vars.round, BitVec.add_assoc]
  have ha : (v.round kt wt).a
      = [v.h, Sha256.bigSigma1 v.e, Sha256.ch v.e v.f v.g, kt, wt, Sha256.bigSigma0 v.a,
          Sha256.maj v.a v.b v.c].sum := by
    simp [Sha256.Vars.round, BitVec.add_assoc]
  have hnext : Regs.of (v.round kt wt) = { Regs.of v with
      h := toFr v.g, gW := Sigma1Word.of v.f, fW := Sigma1Word.of v.e,
      eW := Sigma1Word.of (v.round kt wt).e, d := toFr v.c, cW := Sigma0Word.of v.b,
      bW := Sigma0Word.of v.a, aW := Sigma0Word.of (v.round kt wt).a } := rfl
  rw [hnext, he, ha]
  refine .bind (Sigma1Word.bigSigma_computes _) (.bind (Sigma1Word.ch_computes _ _ _) ?_)
  refine .bind (Sigma0Word.bigSigma_computes _) (.bind (Sigma0Word.maj_computes _ _ _) ?_)
  refine .bind (Chunks.sum_computes [_, _, _, _, _, _] rfl (by simp) (by simp)) ?_
  exact .bind (Chunks.sum_computes [_, _, _, _, _, _, _] rfl (by simp) (by simp)) .pure

theorem getElem_map_toFr (state : Vector Sha256.Word 8) {i : Nat} (hi : i < 8) :
    (state.map toFr)[i] = toFr state[i] := by
  simp

theorem Regs.addTo_computes (v : Sha256.Vars) (state : Vector Sha256.Word 8) :
    Gadget.Computes (fun _ P => (Regs.of v).addTo P (state.map toFr))
      ((v.addTo state).map toFr) := by
  have hsum : ∀ u v : Sha256.Word,
      Gadget.Computes (fun _ P => wrappingAddN P [toFr u, toFr v]) (toFr (v + u)) := by
    intro u v
    have h := wrappingAddN_computes [u, v] (by simp) (by simp)
    rwa [show [u, v].sum = v + u by simp [BitVec.add_comm]] at h
  have hmap : (v.addTo state).map toFr
      = #v[toFr (v.a + state[0]), toFr (v.b + state[1]), toFr (v.c + state[2]),
          toFr (v.d + state[3]), toFr (v.e + state[4]), toFr (v.f + state[5]),
          toFr (v.g + state[6]), toFr (v.h + state[7])] := by
    simp only [Sha256.Vars.addTo, Vector.map_mk, List.map_toArray, List.map_cons, List.map_nil]
    rfl
  simp only [Regs.addTo, getElem_map_toFr, hmap]
  refine .bind (hsum _ _) (.bind (hsum _ _) (.bind (hsum _ _) (.bind (hsum _ _) ?_)))
  exact .bind (hsum _ _) (.bind (hsum _ _) (.bind (hsum _ _) (.bind (hsum _ _) .pure)))

/-- For every block and state, and for every choice of the hints that gets through, the
result is the hash value of the standard; the honest hints get through. -/
theorem sha256Compression_computes (block : Vector Sha256.Word 16)
    (state : Vector Sha256.Word 8) :
    Gadget.Computes (fun _ P => sha256Compression P (block.map toFr) (state.map toFr))
      ((Sha256.compress block state).map toFr) := by
  simp only [sha256Compression, getElem_map_toFr]
  refine .bind (scheduleLoop_computes block) ?_
  refine .bind (Chunks.new_computes rfl _) (.bind (Chunks.new_computes rfl _) ?_)
  refine .bind (Chunks.new_computes rfl _) (.bind (Chunks.new_computes rfl _) ?_)
  refine .bind (Chunks.new_computes rfl _) (.bind (Chunks.new_computes rfl _) ?_)
  refine .bind (a := Regs.of (Sha256.vars block state 64)) ?_ (Regs.addTo_computes _ _)
  refine .foldlM_range (f := fun t => Regs.of (Sha256.vars block state t)) fun t ht => ?_
  rw [k_eq t ht, scheduled_lt (by omega)]
  exact Regs.round_computes _ _ _

end Mavros.Stdlib
