/-
# `Mavros.Lib.Lucas` — primality by a Lucas witness the kernel can check

A number is proved prime from a witness and the list of primes dividing its
predecessor.  The check is a Boolean computed by square-and-multiply, so that a
254-bit prime costs a few hundred products; the primes of the list are proved
the same way first, or by `norm_num` once they are small.

## What is proved

`prime_of_lucasTest`: when `lucasTest` returns true and the primes of the list are primes, the
number is a prime.  Mathlib has the criterion (`lucas_primality`); what is added is the test
as a function on `Nat` that reduces under `decide`, with `powMod_cast` to say that it computes
the powers of the criterion.

## What it is not

It is no search: the witness and the factors are given, and a wrong one makes the test false.
-/
import Mathlib.Data.List.Prime
import Mathlib.NumberTheory.LucasPrimality

namespace Mavros.Lib

/-- `b ^ e % m`, reading `fuel` bits of the exponent from the lowest one. -/
def powMod (m : Nat) : (fuel : Nat) → (b e : Nat) → Nat
  | 0, _, _ => 1 % m
  | fuel + 1, b, e =>
      if e % 2 = 1 then powMod m fuel (b * b % m) (e / 2) * b % m
      else powMod m fuel (b * b % m) (e / 2)

theorem powMod_cast (m : Nat) :
    ∀ (fuel b e : Nat), e < 2 ^ fuel → (powMod m fuel b e : ZMod m) = (b : ZMod m) ^ e
  | 0, b, e, h => by
      obtain rfl : e = 0 := by simpa using h
      simp [powMod]
  | fuel + 1, b, e, h => by
      have hhalf : e / 2 < 2 ^ fuel := by rw [pow_succ] at h; omega
      have ih := powMod_cast m fuel (b * b % m) (e / 2) hhalf
      have hsq : ((b * b % m : Nat) : ZMod m) ^ (e / 2) = (b : ZMod m) ^ (2 * (e / 2)) := by
        rw [ZMod.natCast_mod, Nat.cast_mul, pow_mul, sq]
      rw [hsq] at ih
      by_cases hodd : e % 2 = 1
      · have he : e = 2 * (e / 2) + 1 := by omega
        rw [powMod, if_pos hodd, ZMod.natCast_mod, Nat.cast_mul, ih, ← pow_succ, ← he]
      · have he : e = 2 * (e / 2) := by omega
        rw [powMod, if_neg hodd, ih, ← he]

/-- The Lucas test of `p` with witness `a`: the listed prime powers multiply to
`p - 1`, the witness has order dividing `p - 1`, and no maximal proper divisor
will do. -/
def lucasTest (bits p a : Nat) (fs : List (Nat × Nat)) : Bool :=
  decide (1 < p) && decide (p < 2 ^ bits) &&
    decide ((fs.map fun f => f.1 ^ f.2).prod = p - 1) &&
    decide (powMod p bits a (p - 1) % p = 1) &&
    fs.all fun f => decide (powMod p bits a ((p - 1) / f.1) % p ≠ 1)

/-- A prime dividing a product of prime powers is one of the listed primes. -/
theorem mem_of_dvd_primePowers {q : Nat} (hq : q.Prime) {fs : List (Nat × Nat)}
    (hfs : ∀ f ∈ fs, f.1.Prime) (hdvd : q ∣ (fs.map fun f => f.1 ^ f.2).prod) :
    ∃ f ∈ fs, f.1 = q := by
  obtain ⟨x, hx, hqx⟩ := (Prime.dvd_prod_iff hq.prime).mp hdvd
  obtain ⟨f, hf, rfl⟩ := List.mem_map.mp hx
  exact ⟨f, hf, ((Nat.prime_dvd_prime_iff_eq hq (hfs f hf)).mp (hq.dvd_of_dvd_pow hqx)).symm⟩

theorem cast_eq_one_iff {p x : Nat} (hp : 1 < p) : (x : ZMod p) = 1 ↔ x % p = 1 := by
  rw [← Nat.cast_one, ZMod.natCast_eq_natCast_iff', Nat.mod_eq_of_lt hp]

theorem prime_of_lucasTest {p : Nat} (bits a : Nat) (fs : List (Nat × Nat))
    (hfs : ∀ f ∈ fs, f.1.Prime) (h : lucasTest bits p a fs = true) : p.Prime := by
  simp only [lucasTest, Bool.and_eq_true, decide_eq_true_eq, List.all_eq_true] at h
  obtain ⟨⟨⟨⟨hp, hbits⟩, hprod⟩, hone⟩, hne⟩ := h
  have hcast : ∀ e, e ≤ p - 1 → (powMod p bits a e : ZMod p) = (a : ZMod p) ^ e :=
    fun e he => powMod_cast p bits a e (by omega)
  refine lucas_primality p (a : ZMod p) ?_ fun q hq hdvd => ?_
  · rw [← hcast (p - 1) le_rfl]
    exact (cast_eq_one_iff hp).mpr hone
  · obtain ⟨f, hf, rfl⟩ := mem_of_dvd_primePowers hq hfs (hprod ▸ hdvd)
    rw [← hcast _ (Nat.div_le_self _ _)]
    exact fun hcontra => hne f hf ((cast_eq_one_iff hp).mp hcontra)

end Mavros.Lib
