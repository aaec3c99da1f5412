/-
# `Mavros.Lib.BigEndian` — numbers as their digits, the first the highest

The digits of a number in a fixed length, and what part of a number a part of its digits
is.

## What is proved

`bigEndian` is the number of a list of digits and `digitsOf` the list of a number.  They are
inverse to each other in both directions: `bigEndian_digitsOf` gives back the number as far as
the length holds it, and `digitsOf_bigEndian` the digits as long as each is less than the base.

Between them stand the facts that a decomposition in a loop needs.  A list read from the left
grows by a digit at a time (`bigEndian_concat`), the last digits are the remainder by a power of the
base (`bigEndian_mod`), and the number of the digits above a place is the one that a loop from
the highest digit down has when it gets there (`digitsOf_step`).

## What it is not

`Nat.digits` has the lowest digit first and no leading zeros.  Here the length is given and the
zeros stand, since a circuit decomposes into as many digits as it was told to.
-/
import Mathlib.Data.List.Induction
import Mathlib.Data.Nat.Digits.Defs
import Mathlib.Tactic.Ring

namespace Mavros.Lib

/-- The number of a list of digits. -/
def bigEndian (base : Nat) (digits : List Nat) : Nat := Nat.ofDigits base digits.reverse

section BigEndian

variable {base d : Nat} {ds es : List Nat}

@[simp]
theorem bigEndian_nil : bigEndian base [] = 0 := rfl

theorem bigEndian_append :
    bigEndian base (ds ++ es) = bigEndian base ds * base ^ es.length + bigEndian base es := by
  rw [bigEndian, List.reverse_append, Nat.ofDigits_append, List.length_reverse, bigEndian,
    bigEndian]
  ring

theorem bigEndian_singleton : bigEndian base [d] = d := Nat.ofDigits_singleton

theorem bigEndian_concat : bigEndian base (ds ++ [d]) = bigEndian base ds * base + d := by
  rw [bigEndian_append, bigEndian_singleton, List.length_singleton, pow_one]

theorem bigEndian_cons : bigEndian base (d :: ds) = d * base ^ ds.length + bigEndian base ds := by
  rw [← List.singleton_append, bigEndian_append, bigEndian_singleton]

theorem bigEndian_lt (hbase : 1 < base) (h : ∀ d ∈ ds, d < base) :
    bigEndian base ds < base ^ ds.length := by
  rw [← List.length_reverse]
  exact Nat.ofDigits_lt_base_pow_length hbase fun d hd => h d (List.mem_reverse.mp hd)

/-- The last digits make up the remainder. -/
theorem bigEndian_mod (hbase : 1 < base) (h : ∀ e ∈ es, e < base) :
    bigEndian base (ds ++ es) % base ^ es.length = bigEndian base es := by
  rw [bigEndian_append, Nat.add_comm, Nat.add_mul_mod_self_right,
    Nat.mod_eq_of_lt (bigEndian_lt hbase h)]

/-- The digits of a number, in a fixed length. -/
def digitsOf (base : Nat) : Nat → Nat → List Nat
  | 0, _ => []
  | n + 1, v => digitsOf base n (v / base) ++ [v % base]

theorem digitsOf_length (n v : Nat) : (digitsOf base n v).length = n := by
  induction n generalizing v with
  | zero => rfl
  | succ n ih => rw [digitsOf, List.length_append, ih, List.length_singleton]

theorem lt_of_mem_digitsOf (hbase : 0 < base) {n v : Nat} (h : d ∈ digitsOf base n v) :
    d < base := by
  induction n generalizing v with
  | zero => simp [digitsOf] at h
  | succ n ih =>
    rw [digitsOf, List.mem_append, List.mem_singleton] at h
    rcases h with h | rfl
    · exact ih h
    · exact Nat.mod_lt v hbase

theorem bigEndian_digitsOf (n v : Nat) : bigEndian base (digitsOf base n v) = v % base ^ n := by
  induction n generalizing v with
  | zero => simp [digitsOf, Nat.mod_one]
  | succ n ih =>
    rw [digitsOf, bigEndian_concat, ih, pow_succ', Nat.mod_mul]
    ring

theorem digitsOf_cons (n v : Nat) :
    digitsOf base (n + 1) v = v / base ^ n % base :: digitsOf base n v := by
  induction n generalizing v with
  | zero => simp [digitsOf]
  | succ n ih =>
    rw [digitsOf, ih, digitsOf, List.cons_append, Nat.div_div_eq_div_mul, ← pow_succ']

/-- From the highest digit down: the digits above one, and that one. -/
theorem digitsOf_step {n i : Nat} (hi : i < n) (v : Nat) :
    digitsOf base i (v / base ^ (n - i)) ++ [v / base ^ (n - 1 - i) % base]
      = digitsOf base (i + 1) (v / base ^ (n - (i + 1))) := by
  have hpow : base ^ (n - i) = base ^ (n - 1 - i) * base := by
    rw [← pow_succ]
    congr 1
    omega
  rw [hpow, ← Nat.div_div_eq_div_mul, Nat.sub_add_eq, Nat.sub_right_comm]
  rfl

/-- A number of so many digits is known from its digits. -/
theorem digitsOf_bigEndian (h : ∀ d ∈ ds, d < base) :
    digitsOf base ds.length (bigEndian base ds) = ds := by
  induction ds using List.reverseRecOn with
  | nil => rfl
  | append_singleton ds d ih =>
    have hd : d < base := h d (by simp)
    have hds : ∀ e ∈ ds, e < base := fun e he => h e (List.mem_append_left _ he)
    rw [List.length_append, List.length_singleton, digitsOf, bigEndian_concat,
      Nat.mul_add_mod_self_right, Nat.mod_eq_of_lt hd, Nat.mul_comm,
      Nat.mul_add_div (Nat.zero_lt_of_lt hd), Nat.div_eq_of_lt hd, Nat.add_zero, ih hds]

end BigEndian

end Mavros.Lib
