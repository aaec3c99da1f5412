/-
# `Mavros.Lib.Interleave` — words at every other bit

Two words go into one, one at the even and one at the odd positions.  A spread word has
room for a carry, so the sum of two of them holds the carries of the bits at the odd
positions and the bits without their carries at the even ones.

## What is proved

* `testBit_spread`: the bits of a spread word, from which everything is bounded.
* `interleaved_injective`: two words are known from the one they went into.
* `spread_add_spread`: the sum of two spread words is the conjunction at the odd and the
  exclusive disjunction at the even positions; `spread_add_three` has majority and parity.
* `odds_interleaved`, `evens_interleaved`: the two words are read back.

## How it goes

`spread` is recursive from the lowest bit, and so are `odds` and `evens`; the sums are proved
by induction on the number of bits, with one full adder in the step, and no bit is looked at
from outside.  `spread_append` and `odds_add` cut words into chunks, which is what a table of
limited width asks for.
-/
import Mathlib.Tactic.Common
import Mathlib.Tactic.Ring

namespace Mavros.Lib

/-- The low `n` bits of a word, at the even positions. -/
def spread : Nat → Nat → Nat
  | 0, _ => 0
  | n + 1, v => v % 2 + 4 * spread n (v / 2)

theorem spread_le (n v : Nat) : 3 * spread n v + 1 ≤ 4 ^ n := by
  induction n generalizing v with
  | zero => simp [spread]
  | succ n ih =>
    have := ih (v / 2)
    rw [spread, pow_succ]
    omega

/-- Two spread words, one of them at the odd positions. -/
theorem interleaved_lt (n u v : Nat) : 2 * spread n u + spread n v < 4 ^ n := by
  have hu := spread_le n u
  have hv := spread_le n v
  omega

/-- The bits of the word at the even positions, zeros at the odd ones. -/
theorem testBit_spread (n v i : Nat) :
    (spread n v).testBit (2 * i) = (decide (i < n) && v.testBit i)
      ∧ (spread n v).testBit (2 * i + 1) = false := by
  induction n generalizing v i with
  | zero => simp [spread]
  | succ n ih =>
    have hrest : ∀ j, (spread (n + 1) v).testBit (j + 2) = (spread n (v / 2)).testBit j := by
      intro j
      have hquarter : (v % 2 + 4 * spread n (v / 2)) / 2 / 2 = spread n (v / 2) := by omega
      rw [Nat.testBit_add_one, Nat.testBit_add_one, spread, hquarter]
    cases i with
    | zero =>
      have hlow : (v % 2 + 4 * spread n (v / 2)) % 2 = v % 2 := by omega
      have hnext : (v % 2 + 4 * spread n (v / 2)) / 2 % 2 = 0 := by omega
      refine ⟨?_, ?_⟩
      · simp [spread, hlow]
      · simp [spread, Nat.testBit_add_one, hnext]
    | succ i =>
      obtain ⟨heven, hodd⟩ := ih (v / 2) i
      refine ⟨?_, (hrest _).trans hodd⟩
      rw [Nat.mul_succ, hrest, heven, Nat.testBit_add_one]
      simp

/-- The low bits and the high bits are spread apart. -/
theorem spread_add (m n v : Nat) :
    spread (m + n) v = spread m v + 4 ^ m * spread n (v / 2 ^ m) := by
  induction m generalizing v with
  | zero => simp [spread]
  | succ m ih =>
    rw [Nat.succ_add, spread, spread, ih, Nat.div_div_eq_div_mul, ← pow_succ']
    ring

theorem spread_mod (n v : Nat) : spread n (v % 2 ^ n) = spread n v := by
  induction n generalizing v with
  | zero => rfl
  | succ n ih =>
    have hdiv : v % 2 ^ (n + 1) / 2 = v / 2 % 2 ^ n := by
      rw [pow_succ', Nat.mod_mul_right_div_self]
    have hmod : v % 2 ^ (n + 1) % 2 = v % 2 :=
      Nat.mod_mod_of_dvd v (Dvd.intro_left (2 ^ n) rfl)
    rw [spread, hdiv, hmod, ih, spread]

/-- A word put above another is a word of both widths. -/
theorem append_lt {m n u v : Nat} (hu : u < 2 ^ m) (hv : v < 2 ^ n) :
    u + v * 2 ^ m < 2 ^ (m + n) :=
  calc u + v * 2 ^ m < 2 ^ m + v * 2 ^ m := Nat.add_lt_add_right hu _
    _ = (v + 1) * 2 ^ m := by ring
    _ ≤ 2 ^ n * 2 ^ m := Nat.mul_le_mul_right _ hv
    _ = 2 ^ (m + n) := by rw [Nat.mul_comm, pow_add]

theorem spread_append {m n u v : Nat} (hu : u < 2 ^ m) :
    spread (m + n) (u + v * 2 ^ m) = spread m u + 4 ^ m * spread n v := by
  have hdiv : (u + v * 2 ^ m) / 2 ^ m = v := by
    rw [Nat.add_mul_div_right _ _ (Nat.two_pow_pos m), Nat.div_eq_of_lt hu, Nat.zero_add]
  rw [spread_add, hdiv, ← spread_mod m (u + v * 2 ^ m), Nat.add_mul_mod_self_right,
    Nat.mod_eq_of_lt hu]

/-- The positions of two words in one are the words. -/
theorem interleaved_injective {n u v u' v' : Nat} (hu : u < 2 ^ n) (hv : v < 2 ^ n)
    (hu' : u' < 2 ^ n) (hv' : v' < 2 ^ n)
    (h : 2 * spread n u + spread n v = 2 * spread n u' + spread n v') : u = u' ∧ v = v' := by
  induction n generalizing u v u' v' with
  | zero => omega
  | succ n ih =>
    rw [pow_succ] at hu hv hu' hv'
    simp only [spread] at h
    have hrest : 2 * spread n (u / 2) + spread n (v / 2)
        = 2 * spread n (u' / 2) + spread n (v' / 2) := by omega
    obtain ⟨hdu, hdv⟩ := ih (by omega) (by omega) (by omega) (by omega) hrest
    omega

/-- The sum of two spread words holds the carries and the sums without them. -/
theorem spread_add_spread (n u v : Nat) :
    spread n u + spread n v = 2 * spread n (u &&& v) + spread n (u ^^^ v) := by
  induction n generalizing u v with
  | zero => rfl
  | succ n ih =>
    have hand : (u &&& v) % 2 = (u % 2) &&& (v % 2) := Nat.and_mod_two_pow (n := 1)
    have hxor : (u ^^^ v) % 2 = (u % 2) ^^^ (v % 2) := Nat.xor_mod_two_pow (n := 1)
    have hbits : u % 2 + v % 2 = 2 * ((u % 2) &&& (v % 2)) + ((u % 2) ^^^ (v % 2)) := by
      rcases Nat.mod_two_eq_zero_or_one u with hu | hu <;>
        rcases Nat.mod_two_eq_zero_or_one v with hv | hv <;> rw [hu, hv] <;> rfl
    have := ih (u / 2) (v / 2)
    rw [spread, spread, spread, spread, Nat.and_div_two, Nat.xor_div_two, hand, hxor]
    omega

theorem and_add_xor (u v : Nat) : (u &&& v) + (u ^^^ v) = u ||| v := by
  induction u using Nat.strongRecOn generalizing v with
  | ind u ih =>
    rcases Nat.eq_zero_or_pos u with rfl | hpos
    · simp
    · have hand : (u &&& v) % 2 = (u % 2) &&& (v % 2) := Nat.and_mod_two_pow (n := 1)
      have hxor : (u ^^^ v) % 2 = (u % 2) ^^^ (v % 2) := Nat.xor_mod_two_pow (n := 1)
      have hor : (u ||| v) % 2 = (u % 2) ||| (v % 2) := Nat.or_mod_two_pow (n := 1)
      have hbits : ((u % 2) &&& (v % 2)) + ((u % 2) ^^^ (v % 2)) = (u % 2) ||| (v % 2) := by
        rcases Nat.mod_two_eq_zero_or_one u with hu | hu <;>
          rcases Nat.mod_two_eq_zero_or_one v with hv | hv <;> rw [hu, hv] <;> rfl
      have hrest := ih (u / 2) (Nat.div_lt_self hpos (by norm_num)) (v / 2)
      rw [← Nat.and_div_two, ← Nat.xor_div_two, ← Nat.or_div_two] at hrest
      omega

/-- The bits two of three words have, and the sums without carries, of three spread words. -/
theorem spread_add_three (n u v w : Nat) :
    spread n u + spread n v + spread n w
      = 2 * spread n ((u &&& v) ^^^ (u &&& w) ^^^ (v &&& w)) + spread n (u ^^^ v ^^^ w) := by
  induction n generalizing u v w with
  | zero => rfl
  | succ n ih =>
    have hbit : ∀ a < 2, ∀ b < 2, ∀ c < 2,
        a + b + c = 2 * ((a &&& b) ^^^ (a &&& c) ^^^ (b &&& c)) + (a ^^^ b ^^^ c) := by
      decide
    have hand : ∀ x y : Nat, (x &&& y) % 2 = (x % 2) &&& (y % 2) := fun x y =>
      Nat.and_mod_two_pow (n := 1)
    have hxor : ∀ x y : Nat, (x ^^^ y) % 2 = (x % 2) ^^^ (y % 2) := fun x y =>
      Nat.xor_mod_two_pow (n := 1)
    have hbits := hbit _ (Nat.mod_lt u Nat.two_pos) _ (Nat.mod_lt v Nat.two_pos) _
      (Nat.mod_lt w Nat.two_pos)
    have := ih (u / 2) (v / 2) (w / 2)
    simp only [spread, Nat.and_div_two, Nat.xor_div_two, hand, hxor]
    omega

/-! ## Words taken apart

A word of `n` pairs of bits.  What stands above the pairs is not read, so that a sum that has
overflowed them is taken apart all the same.
-/

/-- The bits at the odd positions of a word of `n` pairs. -/
def odds : Nat → Nat → Nat
  | 0, _ => 0
  | n + 1, x => x / 2 % 2 + 2 * odds n (x / 4)

/-- The bits at the even positions. -/
def evens : Nat → Nat → Nat
  | 0, _ => 0
  | n + 1, x => x % 2 + 2 * evens n (x / 4)

theorem odds_add (m n x : Nat) : odds (m + n) x = odds m x + 2 ^ m * odds n (x / 4 ^ m) := by
  induction m generalizing x with
  | zero => simp [odds]
  | succ m ih =>
    rw [Nat.succ_add, odds, odds, ih, Nat.div_div_eq_div_mul, ← pow_succ']
    ring

theorem evens_add (m n x : Nat) : evens (m + n) x = evens m x + 2 ^ m * evens n (x / 4 ^ m) := by
  induction m generalizing x with
  | zero => simp [evens]
  | succ m ih =>
    rw [Nat.succ_add, evens, evens, ih, Nat.div_div_eq_div_mul, ← pow_succ']
    ring

/-- Only `n` pairs of bits are read. -/
theorem odds_add_mul (n x y : Nat) : odds n (x + 4 ^ n * y) = odds n x := by
  induction n generalizing x with
  | zero => rfl
  | succ n ih =>
    rw [pow_succ', Nat.mul_assoc]
    generalize 4 ^ n * y = z at ih ⊢
    have hdiv : (x + 4 * z) / 4 = x / 4 + z := by omega
    rw [odds, odds, hdiv, ih]
    omega

theorem evens_add_mul (n x y : Nat) : evens n (x + 4 ^ n * y) = evens n x := by
  induction n generalizing x with
  | zero => rfl
  | succ n ih =>
    rw [pow_succ', Nat.mul_assoc]
    generalize 4 ^ n * y = z at ih ⊢
    have hdiv : (x + 4 * z) / 4 = x / 4 + z := by omega
    rw [evens, evens, hdiv, ih]
    omega

theorem odds_interleaved {n u : Nat} (v : Nat) (hu : u < 2 ^ n) :
    odds n (2 * spread n u + spread n v) = u := by
  induction n generalizing u v with
  | zero =>
    rw [odds]
    omega
  | succ n ih =>
    rw [pow_succ] at hu
    have hdiv : (2 * spread (n + 1) u + spread (n + 1) v) / 4
        = 2 * spread n (u / 2) + spread n (v / 2) := by
      rw [spread, spread]
      omega
    rw [odds, hdiv, ih (v / 2) (by omega), spread, spread]
    omega

theorem evens_interleaved {n v : Nat} (u : Nat) (hv : v < 2 ^ n) :
    evens n (2 * spread n u + spread n v) = v := by
  induction n generalizing u v with
  | zero =>
    rw [evens]
    omega
  | succ n ih =>
    rw [pow_succ] at hv
    have hdiv : (2 * spread (n + 1) u + spread (n + 1) v) / 4
        = 2 * spread n (u / 2) + spread n (v / 2) := by
      rw [spread, spread]
      omega
    rw [evens, hdiv, ih (u / 2) (by omega), spread, spread]
    omega

end Mavros.Lib
