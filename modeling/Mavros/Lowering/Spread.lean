/-
# `Mavros.Lowering.Spread` — spread words and their lookups

## What is modelled

`LowerWitnessSpreadOps`, and the lookups of `ExplicitWitness`: a spread word is written and
looked up, a wide one in chunks of eight bits, of which the last is looked up with what is left
of the expected spread word.  A lookup is a row of its table, the key in range and the value its
spread word, and it takes a flag: where the flag is off nothing is demanded.  The pass itself
only passes the flag one, and the gadgets that the bitwise operations call are the flagged ones
at that flag.

## What is proved

The first part is about words: `spread_bits` and `unspread_bits` work by masks, and for words of
up to 64 bits they are the digit by digit functions of `Mavros.Lib.Interleave`
(`spreadBits_eq`, `unspreadBits_eq`).  The masks are linear over disjunction, so it is enough to
know them on single bits.

The second is about lookups: with the flag on a lookup shows that the value is the spread word
of the key (`lookupSpreadFlag_ensures`), by induction on the chunks, and the chunks of the key
pass it (`lookupSpreadFlag_completes`).  With the gadgets come the interleaved words of an
operand (`Interleaves`), which are unique.
-/
import Mathlib.Tactic.LinearCombination
import Mavros.Lib.Interleave
import Mavros.Lowering.Builder
import Mavros.Spread

namespace Mavros.Lowering

open Lib Lib.Circuit

/-! ## The words -/

section Words

theorem or_swap (a b c d : Nat) : (a ||| b) ||| (c ||| d) = (a ||| c) ||| (b ||| d) := by ac_rfl

theorem spreadStep_or (w k mask x y : Nat) :
    spreadStep w k mask (x ||| y) = spreadStep w k mask x ||| spreadStep w k mask y := by
  rw [spreadStep, Nat.shiftLeft_or_distrib, Nat.or_mod_two_pow, or_swap, Nat.and_or_distrib_right]
  rfl

theorem spreadBits_or (x y : Nat) : spreadBits (x ||| y) = spreadBits x ||| spreadBits y := by
  simp only [spreadBits, spreadStep_or]

theorem compactStep_or (k mask x y : Nat) :
    compactStep k mask (x ||| y) = compactStep k mask x ||| compactStep k mask y := by
  rw [compactStep, Nat.shiftRight_or_distrib, or_swap, Nat.and_or_distrib_right]
  rfl

theorem compactBits_or (x y : Nat) : compactBits (x ||| y) = compactBits x ||| compactBits y := by
  simp only [compactBits, Nat.and_or_distrib_right, compactStep_or]

/-- The words are computed bit by bit, so they are known from single bits. -/
theorem spreadBits_bit : ∀ n < 64, ∀ d < 2, spreadBits (2 ^ n * d) = 2 ^ (2 * n) * d := by
  decide +kernel

theorem compactBits_digit : ∀ n < 64, ∀ d < 4,
    compactBits (2 ^ (2 * n) * d) = 2 ^ n * (d % 2) ∧
      compactBits ((2 ^ (2 * n) * d) >>> 1) = 2 ^ n * (d / 2) := by
  decide +kernel

theorem four_pow (n : Nat) : 4 ^ n = 2 ^ (2 * n) := by
  rw [pow_mul]
  rfl

theorem spread_one {d : Nat} (hd : d < 2) : spread 1 d = d := by
  rw [spread, spread]
  omega

/-- `spread_bits` spreads words of up to 64 bits. -/
theorem spreadBits_eq {n v : Nat} (hn : n ≤ 64) (hv : v < 2 ^ n) : spreadBits v = spread n v := by
  induction n generalizing v with
  | zero =>
    obtain rfl : v = 0 := by omega
    decide
  | succ n ih =>
    have hlow : v % 2 ^ n < 2 ^ n := Nat.mod_lt v (Nat.two_pow_pos n)
    have htop : v / 2 ^ n < 2 := Nat.div_lt_of_lt_mul (by rwa [← pow_succ])
    have hspread : spread n (v % 2 ^ n) < 2 ^ (2 * n) := by
      have := spread_le n (v % 2 ^ n)
      rw [four_pow] at this
      omega
    calc spreadBits v = spreadBits (2 ^ n * (v / 2 ^ n) ||| v % 2 ^ n) := by
          rw [← Nat.two_pow_add_eq_or_of_lt hlow, Nat.div_add_mod]
      _ = 2 ^ (2 * n) * (v / 2 ^ n) ||| spread n (v % 2 ^ n) := by
          rw [spreadBits_or, spreadBits_bit n (by omega) _ htop, ih (by omega) hlow]
      _ = spread n (v % 2 ^ n) + 4 ^ n * spread 1 (v / 2 ^ n) := by
          rw [← Nat.two_pow_add_eq_or_of_lt hspread, spread_one htop, four_pow, Nat.add_comm]
      _ = spread (n + 1) v := by rw [spread_mod, ← spread_add]

/-- `unspread_bits` takes the words of up to 64 bits apart. -/
theorem unspreadBits_eq {n u v : Nat} (hn : n ≤ 64) (hu : u < 2 ^ n) (hv : v < 2 ^ n) :
    unspreadBits (2 * spread n u + spread n v) = (u, v) := by
  induction n generalizing u v with
  | zero =>
    obtain rfl : u = 0 := by omega
    obtain rfl : v = 0 := by omega
    decide
  | succ n ih =>
    have hlow : ∀ x, x % 2 ^ n < 2 ^ n := fun x => Nat.mod_lt x (Nat.two_pow_pos n)
    have htop : ∀ x, x < 2 ^ (n + 1) → x / 2 ^ n < 2 := fun x hx =>
      Nat.div_lt_of_lt_mul (by rwa [← pow_succ])
    have hdigit : ∀ a b : Nat, b < 2 → (2 * a + b) / 2 = a ∧ (2 * a + b) % 2 = b := by
      intro a b hb
      omega
    have hrest : 2 * spread n (u % 2 ^ n) + spread n (v % 2 ^ n) < 2 ^ (2 * n) := by
      rw [← four_pow]
      exact interleaved_lt n _ _
    -- the top digit holds the top bits of both words
    have hsplit : 2 * spread (n + 1) u + spread (n + 1) v
        = 2 ^ (2 * n) * (2 * (u / 2 ^ n) + v / 2 ^ n)
          ||| (2 * spread n (u % 2 ^ n) + spread n (v % 2 ^ n)) := by
      rw [← Nat.two_pow_add_eq_or_of_lt hrest, spread_add n 1 u, spread_add n 1 v,
        spread_one (htop u hu), spread_one (htop v hv), spread_mod, spread_mod, four_pow]
      ring
    obtain ⟨hodd, heven⟩ := hdigit (u / 2 ^ n) (v / 2 ^ n) (htop v hv)
    have htop4 : 2 * (u / 2 ^ n) + v / 2 ^ n < 4 := by
      have := htop u hu
      have := htop v hv
      generalize u / 2 ^ n = a, v / 2 ^ n = b at *
      omega
    obtain ⟨hcompact, hcompact'⟩ := compactBits_digit n (by omega) _ htop4
    have hih := ih (by omega) (hlow u) (hlow v)
    rw [unspreadBits, Prod.mk.injEq] at hih
    rw [unspreadBits, hsplit, Nat.shiftRight_or_distrib, compactBits_or, compactBits_or, hcompact,
      hcompact', hih.1, hih.2, hodd, heven, ← Nat.two_pow_add_eq_or_of_lt (hlow u),
      ← Nat.two_pow_add_eq_or_of_lt (hlow v), Nat.div_add_mod, Nat.div_add_mod]

end Words

/-! ## The lookups -/

/-- `SPREAD_SPILL_THRESHOLD_BITS`. -/
def spreadSpillThresholdBits : Nat := 16

section Definitions

variable {σ : Type} (P : Prover Fr σ)

/-- A row of the table of the width. -/
def lookupTable (bits : Nat) (key value : Fr) : Circuit σ Unit :=
  require (key.val < 2 ^ bits ∧ value = (spreadBits key.val : Nat))

/-- The loop of `lower_wide_spread_lookup` from an offset, with so many chunks to go.  The
spread word of the last chunk is what is left of the expected one. -/
def wideChunksFlag (pureKey : Nat) (expectedSpread flag : Fr) (bits : Nat) :
    Nat → Nat → Fr → Fr → Circuit σ Fr
  | 0, _, reconstructedKey, _ => pure reconstructedKey
  | chunks + 1, offset, reconstructedKey, reconstructedSpread => do
    let chunkBits := min (bits - offset) 8
    let chunk := pureKey / 2 ^ offset % 2 ^ chunkBits
    let chunkKey ← writeWitness P (some (chunk : Nat))
    let isLast := offset + chunkBits = bits
    let chunkSpread ← (if isLast then
        pure ((expectedSpread - reconstructedSpread) * (twoPow (offset * 2))⁻¹)
      else writeWitness P (some (spreadBits chunk : Nat)) : Circuit σ Fr)
    flagged flag (lookupTable chunkBits chunkKey chunkSpread)
    wideChunksFlag pureKey expectedSpread flag bits chunks (offset + chunkBits)
      (reconstructedKey + chunkKey * twoPow offset)
      (if isLast then reconstructedSpread
        else reconstructedSpread + chunkSpread * twoPow (offset * 2))

/-- `lower_wide_spread_lookup`, of a witness key. -/
def lowerWideSpreadLookupFlag (key expectedSpread flag : Fr) (bits : Nat) : Circuit σ Unit := do
  let reconstructedKey ←
    wideChunksFlag P (castHint bits key).val expectedSpread flag bits ((bits + 7) / 8) 0 0 0
  constrain (reconstructedKey - key) flag 0

/-- `lookup_spread`, as `ExplicitWitness` leaves it. -/
def lookupSpreadFlag (bits : Nat) (key value flag : Fr) : Circuit σ Unit :=
  if spreadSpillThresholdBits ≤ bits then lowerWideSpreadLookupFlag P key value flag bits
  else flagged flag (lookupTable bits key value)

/-- `lower_witness_spread`. -/
def lowerWitnessSpreadFlag (value flag : Fr) (bits : Nat) : Circuit σ Fr := do
  let spreadWit ← writeWitness P (some (spreadBits value.val : Nat))
  lookupSpreadFlag P bits value spreadWit flag
  return spreadWit

/-- `lower_witness_unspread`: the odd and the even bits. -/
def lowerWitnessUnspreadFlag (value flag : Fr) (bits : Nat) : Circuit σ (Fr × Fr) := do
  let (oddHint, evenHint) := unspreadBits value.val
  let odd ← writeWitness P (some (oddHint : Nat))
  let even ← writeWitness P (some (evenHint : Nat))
  let oddSpread ← lowerWitnessSpreadFlag P odd flag bits
  let evenSpread := value - 2 * oddSpread
  lookupSpreadFlag P bits even evenSpread flag
  return (odd, even)

/-- `Spread` of a witness, which the pass gives the flag one, or of a pure value, as a field
element. -/
def spreadAsField (value : Fr) (isWitness : Bool) (bits : Nat) : Circuit σ Fr :=
  if isWitness then lowerWitnessSpreadFlag P value 1 bits
  else pure (spreadBits value.val : Nat)

/-- `Unspread` of a witness, which the pass gives the flag one. -/
def lowerWitnessUnspread (value : Fr) (bits : Nat) : Circuit σ (Fr × Fr) :=
  lowerWitnessUnspreadFlag P value 1 bits

end Definitions

/-! ## What a lookup shows

The invariant of the loop is the part of the key below the offset, with its spread word: as long
as chunks are left the spread words add up to that of the part, and after the last one the
expected word is that of the whole key. -/

section Lookups

variable {σ : Type} {P : Prover Fr σ} {bits : Nat} {key value flag : Fr}

/-- The value is the spread word of the key, which has the width. -/
def IsSpread (bits : Nat) (key value : Fr) : Prop :=
  key.val < 2 ^ bits ∧ value = (spread bits key.val : Nat)

theorem isSpread_iff (h : bits ≤ 64) :
    IsSpread bits key value ↔ key.val < 2 ^ bits ∧ value = (spreadBits key.val : Nat) := by
  unfold IsSpread
  refine and_congr_right fun hkey => ?_
  rw [spreadBits_eq h hkey]

theorem lookupTable_ensures (h : bits ≤ 64) :
    Ensures (lookupTable bits key value : Circuit σ Unit) fun _ => IsSpread bits key value := by
  rw [isSpread_iff h]
  exact .require

theorem lookupTable_completes (h : bits ≤ 64) (hkey : IsSpread bits key value) :
    Gadget.Completes (F := Fr) (fun _ _ => lookupTable bits key value) () :=
  .require ((isSpread_iff h).mp hkey)

theorem twoPow_ne_zero (n : Nat) : twoPow n ≠ 0 := by
  have htwo : (2 : Fr) ≠ 0 := by decide +kernel
  exact pow_ne_zero n htwo

theorem spread_append_cast {m n u v : Nat} (hu : u < 2 ^ m) :
    ((spread (m + n) (u + v * 2 ^ m) : Nat) : Fr)
      = (spread m u : Nat) + (spread n v : Nat) * twoPow (m * 2) := by
  rw [spread_append hu, four_pow, twoPow, mul_comm m 2]
  push_cast
  ring

/-- The chunks make up a key of the width, and their spread words the expected one. -/
theorem wideChunksFlag_ensures (hflag : flag ≠ 0) {pureKey : Nat} {expected : Fr} (chunks : Nat) :
    ∀ {offset k : Nat} {s : Fr}, chunks = (bits - offset + 7) / 8 → offset ≤ bits →
      k < 2 ^ offset → (offset < bits → s = (spread offset k : Nat)) →
      (offset = bits → expected = (spread bits k : Nat)) →
      Ensures (wideChunksFlag P pureKey expected flag bits chunks offset (k : Nat) s) fun r =>
        ∃ k' : Nat, r = k' ∧ k' < 2 ^ bits ∧ expected = (spread bits k' : Nat) := by
  induction chunks with
  | zero =>
    intro offset k s hchunks hoffset hk _ hend
    obtain rfl : offset = bits := by omega
    exact .pure ⟨k, rfl, hk, hend rfl⟩
  | succ chunks ih =>
    intro offset k s hchunks hoffset hk hs _
    have hlt : offset < bits := by omega
    obtain rfl := hs hlt
    unfold wideChunksFlag
    simp only [flagged_of_ne_zero hflag]
    refine .bind .any fun chunkKey _ => ?_
    generalize hc : min (bits - offset) 8 = c
    have hkey : (k : Fr) + chunkKey * twoPow offset
        = ((k + chunkKey.val * 2 ^ offset : Nat) : Fr) := by
      push_cast
      rw [natCast_val, twoPow]
    rw [hkey]
    by_cases hlast : offset + c = bits
    · -- the last chunk is looked up with what is left of the expected spread word
      simp only [hlast, if_true]
      refine .bind (.pure rfl : Ensures _ fun x => x = _) fun chunkSpread hspread => ?_
      refine .bind (lookupTable_ensures (by omega)) fun _ hlook => ?_
      have hexpected : expected = (spread bits (k + chunkKey.val * 2 ^ offset) : Nat) := by
        have hrow := hspread.symm.trans hlook.2
        rw [mul_inv_eq_iff_eq_mul₀ (twoPow_ne_zero _)] at hrow
        rw [← hlast, spread_append_cast hk]
        linear_combination hrow
      have hlt' := append_lt hk hlook.1
      rw [hlast] at hlt'
      exact ih (by omega) le_rfl hlt' (fun hfalse => absurd hfalse (lt_irrefl _)) fun _ => hexpected
    · simp only [hlast, if_false]
      refine .bind .any fun chunkSpread _ => ?_
      refine .bind (lookupTable_ensures (by omega)) fun _ hlook => ?_
      refine ih (by omega) (by omega) (append_lt hk hlook.1) (fun _ => ?_) fun hend =>
        absurd hend hlast
      rw [spread_append_cast hk, hlook.2]

/-- The key of a wide lookup, chunk by chunk. -/
theorem wideChunksFlag_completes (hflag : flag ≠ 0) {v : Nat} (hv : v < 2 ^ bits) (chunks : Nat) :
    ∀ {offset : Nat} {s : Fr}, chunks = (bits - offset + 7) / 8 → offset ≤ bits →
      (offset < bits → s = (spread offset (v % 2 ^ offset) : Nat)) →
      Gadget.Completes (fun _ P => wideChunksFlag P v ((spread bits v : Nat) : Fr) flag bits chunks
        offset ((v % 2 ^ offset : Nat) : Fr) s) (v : Fr) := by
  induction chunks with
  | zero =>
    intro offset s hchunks hoffset _
    obtain rfl : offset = bits := by omega
    rw [Nat.mod_eq_of_lt hv]
    exact .pure
  | succ chunks ih =>
    intro offset s hchunks hoffset hs
    have hlt : offset < bits := by omega
    obtain rfl := hs hlt
    unfold wideChunksFlag
    simp only [flagged_of_ne_zero hflag]
    generalize hc : min (bits - offset) 8 = c
    have hlow : v % 2 ^ offset < 2 ^ offset := Nat.mod_lt v (Nat.two_pow_pos offset)
    have hchunk : v / 2 ^ offset % 2 ^ c < 2 ^ c := Nat.mod_lt _ (Nat.two_pow_pos c)
    have happend : v % 2 ^ offset + v / 2 ^ offset % 2 ^ c * 2 ^ offset = v % 2 ^ (offset + c) := by
      rw [pow_add, Nat.mod_mul]
      ring
    have hkey : ((v % 2 ^ offset : Nat) : Fr) + ((v / 2 ^ offset % 2 ^ c : Nat) :
      Fr) * twoPow offset
        = ((v % 2 ^ (offset + c) : Nat) : Fr) := by
      rw [← happend, twoPow]
      push_cast
      ring
    have hval : ((v / 2 ^ offset % 2 ^ c : Nat) : Fr).val = v / 2 ^ offset % 2 ^ c :=
      ZMod.val_natCast_of_lt (hchunk.trans (two_pow_lt_modulus (by omega)))
    have hrow : IsSpread c ((v / 2 ^ offset % 2 ^ c : Nat) : Fr)
        (spread c (v / 2 ^ offset % 2 ^ c) : Nat) := ⟨by rwa [hval], by rw [hval]⟩
    have hspread := @spread_append_cast offset c (v % 2 ^ offset) (v / 2 ^ offset % 2 ^ c) hlow
    rw [happend] at hspread
    refine (completes_writeWitness _).bind ?_
    simp only [hkey]
    by_cases hlast : offset + c = bits
    · simp only [hlast, if_true]
      rw [hlast, Nat.mod_eq_of_lt hv] at hspread
      have hleft : (((spread bits v : Nat) : Fr) - (spread offset (v % 2 ^ offset) : Nat))
          * (twoPow (offset * 2))⁻¹ = (spread c (v / 2 ^ offset % 2 ^ c) : Nat) := by
        rw [mul_inv_eq_iff_eq_mul₀ (twoPow_ne_zero _)]
        linear_combination hspread
      rw [hleft]
      refine Gadget.Completes.pure.bind ((lookupTable_completes (by omega) hrow).bind ?_)
      exact ih (by omega) le_rfl fun hfalse => absurd hfalse (lt_irrefl _)
    · simp only [hlast, if_false]
      refine (completes_writeWitness _).bind ?_
      rw [spreadBits_eq (by omega) hchunk]
      refine (lookupTable_completes (by omega) hrow).bind ?_
      exact ih (by omega) (by omega) fun _ => hspread.symm

/-- A lookup shows that the value is the spread word of the key. -/
theorem lookupSpreadFlag_ensures (hflag : flag ≠ 0) (h : bits ≤ 128) :
    Ensures (lookupSpreadFlag P bits key value flag) fun _ => IsSpread bits key value := by
  unfold lookupSpreadFlag spreadSpillThresholdBits
  split
  · unfold lowerWideSpreadLookupFlag
    have hchunks : Ensures (wideChunksFlag P (castHint bits key).val value flag bits
        ((bits + 7) / 8) 0 ((0 : Nat) : Fr) 0) _ :=
      wideChunksFlag_ensures hflag _ (by simp) (by omega) (by norm_num) (by simp [spread])
        (by omega)
    rw [Nat.cast_zero] at hchunks
    refine .bind hchunks fun r hr => ?_
    obtain ⟨k, rfl, hk, hvalue⟩ := hr
    refine ensures_constrain.mono fun _ hprod => ?_
    have hdiff : (k : Fr) - key = 0 := (mul_eq_zero.mp hprod).resolve_right hflag
    have hkey : key = (k : Fr) := (sub_eq_zero.mp hdiff).symm
    have hval : key.val = k := by
      rw [hkey]
      exact ZMod.val_natCast_of_lt (hk.trans (two_pow_lt_modulus (by omega)))
    exact ⟨by rwa [hval], by rw [hval, hvalue]⟩
  · next hnarrow =>
    rw [flagged_of_ne_zero hflag]
    exact lookupTable_ensures (by omega)

theorem lookupSpreadFlag_completes_on (hflag : flag ≠ 0) (h : bits ≤ 128) {v : Nat}
    (hv : v < 2 ^ bits) :
    Gadget.Completes (fun _ P => lookupSpreadFlag P bits (v : Fr) (spread bits v : Nat) flag)
      () := by
  have hval : (v : Fr).val = v :=
    ZMod.val_natCast_of_lt (hv.trans (two_pow_lt_modulus (by omega)))
  unfold lookupSpreadFlag spreadSpillThresholdBits
  split
  · unfold lowerWideSpreadLookupFlag
    have hpure : (castHint bits (v : Fr)).val = v := by
      rw [castHint, hval, Nat.mod_eq_of_lt hv, hval]
    rw [hpure]
    have hchunks : Gadget.Completes (fun _ P => wideChunksFlag P v ((spread bits v : Nat) : Fr)
        flag bits ((bits + 7) / 8) 0 ((v % 2 ^ 0 : Nat) : Fr) 0) _ :=
      wideChunksFlag_completes hflag hv _ (by simp) (by omega) (by simp [spread])
    rw [pow_zero, Nat.mod_one, Nat.cast_zero] at hchunks
    exact hchunks.bind (completes_constrain (by ring))
  · next hnarrow =>
    exact completes_flagged fun _ =>
      lookupTable_completes (by omega) ⟨by rwa [hval], by rw [hval]⟩

end Lookups

/-! ## With the flag off -/

section Off

variable {bits : Nat} {key value : Fr}

theorem flagged_zero {σ : Type} (m : Circuit σ Unit) : flagged 0 m = pure () := if_pos rfl

theorem wideChunksFlag_off (pureKey : Nat) (expected : Fr) (chunks : Nat) :
    ∀ (offset : Nat) (k s : Fr), ∃ r, Gadget.Completes
      (fun _ P => wideChunksFlag P pureKey expected 0 bits chunks offset k s) r := by
  induction chunks with
  | zero => exact fun offset k s => ⟨k, .pure⟩
  | succ chunks ih =>
    intro offset k s
    unfold wideChunksFlag
    simp only [flagged_zero, pure_bind]
    by_cases hlast : offset + min (bits - offset) 8 = bits
    · simp only [hlast, if_true]
      obtain ⟨r, hr⟩ := ih bits (k + (pureKey / 2 ^ offset % 2 ^ min (bits - offset) 8 : Nat)
        * twoPow offset) s
      exact ⟨r, (completes_writeWitness _).bind (Gadget.Completes.pure.bind hr)⟩
    · simp only [hlast, if_false]
      obtain ⟨r, hr⟩ := ih (offset + min (bits - offset) 8)
        (k + (pureKey / 2 ^ offset % 2 ^ min (bits - offset) 8 : Nat) * twoPow offset)
        (s + (spreadBits (pureKey / 2 ^ offset % 2 ^ min (bits - offset) 8) : Nat)
          * twoPow (offset * 2))
      exact ⟨r, (completes_writeWitness _).bind ((completes_writeWitness _).bind hr)⟩

theorem lookupSpreadFlag_completes_off :
    Gadget.Completes (fun _ P => lookupSpreadFlag P bits key value 0) () := by
  unfold lookupSpreadFlag
  split
  · obtain ⟨r, hr⟩ := @wideChunksFlag_off bits (castHint bits key).val value ((bits + 7) / 8) 0 0 0
    exact hr.bind (completes_constrain (mul_zero _))
  · simp only [flagged_zero]
    exact .pure

end Off

/-! ## The gadgets -/

section Gadgets

variable {σ : Type} {P : Prover Fr σ} {bits : Nat} {value flag : Fr}

theorem lookupSpreadFlag_completes {key : Fr} (h : bits ≤ 128)
    (hkey : flag = 0 ∨ IsSpread bits key value) :
    Gadget.Completes (fun _ P => lookupSpreadFlag P bits key value flag) () := by
  by_cases hflag : flag = 0
  · rw [hflag]
    exact lookupSpreadFlag_completes_off
  · obtain ⟨hlt, rfl⟩ := hkey.resolve_left hflag
    have hcompletes := lookupSpreadFlag_completes_on hflag h hlt
    rwa [natCast_val] at hcompletes

theorem lowerWitnessSpreadFlag_ensures (hflag : flag ≠ 0) (h : bits ≤ 128) :
    Ensures (lowerWitnessSpreadFlag P value flag bits) fun r => IsSpread bits value r := by
  unfold lowerWitnessSpreadFlag
  exact .bind .any fun r _ => .bind (lookupSpreadFlag_ensures hflag h) fun _ hrow => .pure hrow

theorem lowerWitnessSpreadFlag_completes (h : bits ≤ 64)
    (hvalue : flag = 0 ∨ value.val < 2 ^ bits) :
    Gadget.Completes (fun _ P => lowerWitnessSpreadFlag P value flag bits)
      ((spreadBits value.val : Nat) : Fr) := by
  unfold lowerWitnessSpreadFlag
  refine (completes_writeWitness _).bind
    ((lookupSpreadFlag_completes (h.trans (by norm_num)) ?_).bind
    .pure)
  exact hvalue.imp_right fun hlt => (isSpread_iff h).mpr ⟨hlt, rfl⟩

theorem interleaved_lt_modulus (h : bits ≤ 64) (u v : Nat) :
    2 * spread bits u + spread bits v < modulus := by
  refine (interleaved_lt bits u v).trans ?_
  rw [four_pow]
  exact two_pow_lt_modulus (by omega)

/-- Two words of the width that are interleaved in the operand. -/
structure Interleaves (bits : Nat) (value odd even : Fr) : Prop where
  oddLt : odd.val < 2 ^ bits
  evenLt : even.val < 2 ^ bits
  sum : value.val = 2 * spread bits odd.val + spread bits even.val

theorem Interleaves.unique {odd even odd' even' : Fr} (h : Interleaves bits value odd even)
    (h' : Interleaves bits value odd' even') : odd = odd' ∧ even = even' := by
  obtain ⟨hodd, heven⟩ := interleaved_injective h.oddLt h.evenLt h'.oddLt h'.evenLt
    (h.sum.symm.trans h'.sum)
  exact ⟨ZMod.val_injective modulus hodd, ZMod.val_injective modulus heven⟩

theorem lowerWitnessUnspreadFlag_ensures (hflag : flag ≠ 0) (h : bits ≤ 64) :
    Ensures (lowerWitnessUnspreadFlag P value flag bits) fun r =>
      Interleaves bits value r.1 r.2 := by
  have h128 : bits ≤ 128 := h.trans (by norm_num)
  unfold lowerWitnessUnspreadFlag
  refine .bind .any fun odd _ => .bind .any fun even _ =>
    .bind (lowerWitnessSpreadFlag_ensures hflag h128) fun oddSpread hodd =>
    .bind (lookupSpreadFlag_ensures hflag h128) fun _ heven => .pure ?_
  obtain ⟨hoddlt, rfl⟩ := hodd
  obtain ⟨hevenlt, heven⟩ := heven
  refine ⟨hoddlt, hevenlt, ?_⟩
  have hvalue : value = ((2 * spread bits odd.val + spread bits even.val : Nat) : Fr) := by
    push_cast
    linear_combination heven
  conv_lhs => rw [hvalue]
  exact ZMod.val_natCast_of_lt (interleaved_lt_modulus h _ _)

theorem lowerWitnessUnspreadFlag_completes (h : bits ≤ 64) {odd even : Fr}
    (hwords : Interleaves bits value odd even) :
    Gadget.Completes (fun _ P => lowerWitnessUnspreadFlag P value flag bits) (odd, even) := by
  obtain ⟨hodd, heven, hvalue⟩ := hwords
  have hhints : unspreadBits value.val = (odd.val, even.val) := by
    rw [hvalue, unspreadBits_eq h hodd heven]
  have hleft : value - 2 * (spreadBits odd.val : Nat) = (spread bits even.val : Nat) := by
    rw [spreadBits_eq h hodd]
    conv_lhs => rw [← natCast_val value, hvalue]
    push_cast
    ring
  unfold lowerWitnessUnspreadFlag
  simp only [hhints, natCast_val]
  refine (completes_writeWitness _).bind ((completes_writeWitness _).bind
    ((lowerWitnessSpreadFlag_completes h (.inr hodd)).bind ?_))
  simp only [hleft]
  exact (lookupSpreadFlag_completes (h.trans (by norm_num)) (.inr ⟨heven, rfl⟩)).bind .pure

end Gadgets

/-! ## The gadgets of the bitwise operations

They know the words they spread and the two that are interleaved in a sum of spread words. -/

section Bitwise

variable {σ : Type} {P : Prover Fr σ} {bits : Nat} {value : Fr}

theorem natCast_val_of_lt {v : Nat} (h : bits ≤ 64) (hv : v < 2 ^ bits) : (v : Fr).val = v :=
  ZMod.val_natCast_of_lt (hv.trans (two_pow_lt_modulus (by omega)))

/-- The spread word of an operand, which has its type where it is a witness. -/
theorem spreadAsField_ensures (h : bits ≤ 64) {isWitness : Bool}
    (hvalue : isWitness = false → InType bits value) :
    Ensures (spreadAsField P value isWitness bits) fun r => IsSpread bits value r := by
  unfold spreadAsField
  split
  · exact lowerWitnessSpreadFlag_ensures one_ne_zero (h.trans (by norm_num))
  · next hpure =>
    have hin : InType bits value := hvalue (by simpa using hpure)
    exact .pure ⟨hin, by rw [spreadBits_eq h hin]⟩

theorem spreadAsField_completes (h : bits ≤ 64) (isWitness : Bool) {v : Nat}
    (hv : v < 2 ^ bits) :
    Gadget.Completes (fun _ P => spreadAsField P (v : Fr) isWitness bits)
      ((spread bits v : Nat) : Fr) := by
  have hval : (v : Fr).val = v := natCast_val_of_lt h hv
  have hspread : spreadBits (v : Fr).val = spread bits v := by rw [hval, spreadBits_eq h hv]
  unfold spreadAsField
  split
  · have hcompletes := @lowerWitnessSpreadFlag_completes bits v 1 h (.inr (by rwa [hval]))
    rwa [hspread] at hcompletes
  · rw [hspread]
    exact .pure

theorem interleaves_sum (h : bits ≤ 64) {u v : Nat} (hu : u < 2 ^ bits) (hv : v < 2 ^ bits) :
    Interleaves bits ((2 * spread bits u + spread bits v : Nat) : Fr) (u : Fr) (v : Fr) where
  oddLt := by rwa [natCast_val_of_lt h hu]
  evenLt := by rwa [natCast_val_of_lt h hv]
  sum := by
    rw [natCast_val_of_lt h hu, natCast_val_of_lt h hv,
      ZMod.val_natCast_of_lt (interleaved_lt_modulus h u v)]

/-- The words read off a sum of interleaved words are these words. -/
theorem lowerWitnessUnspread_ensures (h : bits ≤ 64) {u v : Nat}
    (hu : u < 2 ^ bits) (hv : v < 2 ^ bits) :
    Ensures (lowerWitnessUnspread P ((2 * spread bits u + spread bits v : Nat) : Fr) bits) fun r =>
      r = ((u : Fr), (v : Fr)) := by
  refine (lowerWitnessUnspreadFlag_ensures one_ne_zero h).mono fun r hr => ?_
  obtain ⟨hodd, heven⟩ := hr.unique (interleaves_sum h hu hv)
  exact Prod.ext hodd heven

theorem lowerWitnessUnspread_completes (h : bits ≤ 64) {u v : Nat}
    (hu : u < 2 ^ bits) (hv : v < 2 ^ bits) :
    Gadget.Completes
      (fun _ P => lowerWitnessUnspread P ((2 * spread bits u + spread bits v : Nat) : Fr) bits)
      ((u : Fr), (v : Fr)) :=
  lowerWitnessUnspreadFlag_completes h (interleaves_sum h hu hv)

end Bitwise

end Mavros.Lowering
