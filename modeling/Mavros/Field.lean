/-
# `Mavros.Field` — the scalar field

`mavros_artifacts::Field` is `ark_bn254::Fr`, the integers modulo the order of
the BN254 group.  The crate's operations are the field operations of `ZMod p`;
`into_bigint` is the canonical residue and `from(u64)` the cast.  The only fact
about the modulus the development needs is that it is prime, which is proved
here from a chain of Lucas witnesses.

## How it goes

Each test of the chain is one number with a witness and the prime factors of its predecessor, which
are the numbers of tests before it or small enough for `norm_num`; the modulus is the last.  The
tests are evaluated all at once, in the kernel, and the primes are then read off in order by
`Mavros.Lib.prime_of_lucasTest`.

Every width of up to 253 bits has room below the modulus (`two_pow_lt_modulus`); the tighter
comparisons, of the digits of the modulus itself, are made where they are needed.
-/
import Mathlib.Algebra.Field.ZMod
import Mathlib.Tactic.NormNum.Prime
import Mavros.Lib.Lucas

namespace Mavros

/-- `<Field as PrimeField>::MODULUS`. -/
def modulus : Nat :=
  21888242871839275222246405745257275088548364400416034343698204186575808495617

/-- `mavros_artifacts::Field`. -/
abbrev Fr := ZMod modulus

/-! ## The modulus is prime

Each step is a Lucas test whose prime factors were settled by a step before it;
the small ones are left to `norm_num`. -/

section Modulus

open Lib

/-- The tests, all at once. -/
theorem lucasTests :
    lucasTest 34 12048837557 2 [(2, 2), (7, 2), (661, 1), (93001, 1)] ∧
    lucasTest 43 5156902474397 2 [(2, 2), (107, 1), (12048837557, 1)] ∧
    lucasTest 51 1670836401704629 2 [(2, 2), (3, 4), (5156902474397, 1)] ∧
    lucasTest 30 639533339 2 [(2, 1), (229, 1), (853, 1), (1637, 1)] ∧
    lucasTest 56 65865678001877903 5 [(2, 1), (83, 1), (379, 1), (1637, 1), (639533339, 1)] ∧
    lucasTest 94 13818364434197438864469338081 3
      [(2, 5), (5, 1), (823, 1), (1593227, 1), (65865678001877903, 1)] ∧
    lucasTest 29 405928799 22 [(2, 1), (11, 1), (3691, 1), (4999, 1)] ∧
    lucasTest 254 modulus 5
      [(2, 28), (3, 2), (13, 1), (29, 1), (983, 1), (11003, 1), (237073, 1), (405928799, 1),
        (1670836401704629, 1), (13818364434197438864469338081, 1)] := by
  decide +kernel

theorem modulus_prime : Nat.Prime modulus := by
  obtain ⟨h₁, h₂, h₃, h₄, h₅, h₆, h₇, h₈⟩ := lucasTests
  have p₁ : Nat.Prime 12048837557 :=
    prime_of_lucasTest _ _ _ (by intro f hf; fin_cases hf <;> norm_num) h₁
  have p₂ : Nat.Prime 5156902474397 :=
    prime_of_lucasTest _ _ _ (by intro f hf; fin_cases hf <;> first | exact p₁ | norm_num) h₂
  have p₃ : Nat.Prime 1670836401704629 :=
    prime_of_lucasTest _ _ _ (by intro f hf; fin_cases hf <;> first | exact p₂ | norm_num) h₃
  have p₄ : Nat.Prime 639533339 :=
    prime_of_lucasTest _ _ _ (by intro f hf; fin_cases hf <;> norm_num) h₄
  have p₅ : Nat.Prime 65865678001877903 :=
    prime_of_lucasTest _ _ _ (by intro f hf; fin_cases hf <;> first | exact p₄ | norm_num) h₅
  have p₆ : Nat.Prime 13818364434197438864469338081 :=
    prime_of_lucasTest _ _ _ (by intro f hf; fin_cases hf <;> first | exact p₅ | norm_num) h₆
  have p₇ : Nat.Prime 405928799 :=
    prime_of_lucasTest _ _ _ (by intro f hf; fin_cases hf <;> norm_num) h₇
  exact prime_of_lucasTest _ _ _
    (by
      intro f hf
      fin_cases hf <;> first | exact p₃ | exact p₆ | exact p₇ | norm_num) h₈

end Modulus

instance : Fact modulus.Prime := ⟨modulus_prime⟩

/-! ## Words

A word has a residue of its own. -/

theorem two_pow_lt_modulus {bits : Nat} (h : bits ≤ 253) : 2 ^ bits < modulus :=
  (Nat.pow_le_pow_right (by norm_num) h).trans_lt (by norm_num [modulus])

theorem val_of_word {n : Nat} (h : n < 2 ^ 64) : ((n : Nat) : Fr).val = n :=
  ZMod.val_natCast_of_lt (h.trans (two_pow_lt_modulus (by norm_num)))

/-! ## Numerals

The numerals that definitions use have their instances by name, so that no definition holds
a proof of its own for one. -/

instance atLeastTwo_two : Nat.AtLeastTwo 2 := ⟨by decide⟩
instance atLeastTwo_four : Nat.AtLeastTwo 4 := ⟨by decide⟩
instance atLeastTwo_five : Nat.AtLeastTwo 5 := ⟨by decide⟩
instance atLeastTwo_six : Nat.AtLeastTwo 6 := ⟨by decide⟩
instance atLeastTwo_seven : Nat.AtLeastTwo 7 := ⟨by decide⟩
instance atLeastTwo_nine : Nat.AtLeastTwo 9 := ⟨by decide⟩
instance atLeastTwo_byte : Nat.AtLeastTwo 256 := ⟨by decide⟩

end Mavros
