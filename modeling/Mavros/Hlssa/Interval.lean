/-
# `Mavros.Hlssa.Interval` — intervals of integers

The abstract values of the value-range analysis.  A missing bound is infinite.  What the
lowerings rest on is that the arithmetic keeps membership.

## What is modelled

`IntInterval` with its constructors, queries and arithmetic as in the analysis; `mul` looks at
the four products of the bounds, and an infinite bound times zero is zero there.  An interval
with crossed bounds is empty, and arithmetic on an empty one gives the same empty interval.

## What is proved

`Contains.add`, `Contains.sub` and `Contains.mul`: members of two intervals give a member of the
interval computed.  With `Contains.fitsInUnsignedBits`, `Contains.fitsInSignedBits` and
`Contains.nonNegativeInSigned` a query answered with yes is a bound on the value.

## What it is not

No interval is claimed to be the smallest.  A query answered with no says nothing, and the
lowerings that ask emit their checks then.
-/
import Mathlib.Data.Nat.Size
import Mathlib.Tactic.Linarith
import Mavros.Field

namespace Mavros.Hlssa

structure IntInterval where
  lo : Option Int
  hi : Option Int
deriving DecidableEq

namespace IntInterval

/-- `(-∞, +∞)`. -/
def top : IntInterval := ⟨none, none⟩

/-- The unique empty interval. -/
def empty : IntInterval := ⟨some 1, some 0⟩

def isEmpty (r : IntInterval) : Bool :=
  match r.lo, r.hi with
  | some l, some h => l > h
  | _, _ => false

def singleton (v : Int) : IntInterval := ⟨some v, some v⟩

def closed (a b : Int) : IntInterval := if a > b then empty else ⟨some a, some b⟩

/-! ## Queries -/

def isNonNegative (r : IntInterval) : Bool := r.lo.any (0 ≤ ·)

/-- Containment in `[0, 2^bits)`. -/
def fitsInUnsignedBits (r : IntInterval) (bits : Nat) : Bool :=
  r.lo.any (0 ≤ ·) && r.hi.any (· < 2 ^ bits)

/-- Containment in `[-2^(bits-1), 2^(bits-1))`. -/
def fitsInSignedBits (r : IntInterval) (bits : Nat) : Bool :=
  if bits = 0 then r.lo = some 0 && r.hi = some 0
  else r.lo.any (-2 ^ (bits - 1) ≤ ·) && r.hi.any (· < 2 ^ (bits - 1))

/-- Containment in `[0, 2^(bits-1))`. -/
def isNonNegativeInSigned (r : IntInterval) (bits : Nat) : Bool :=
  if bits = 0 then false else r.lo.any (0 ≤ ·) && r.hi.any (· < 2 ^ (bits - 1))

/-! ## Arithmetic

Bounds are combined one by one, and one missing bound leaves the result without it.
-/

def optAdd : Option Int → Option Int → Option Int
  | some x, some y => some (x + y)
  | _, _ => none

def optSub : Option Int → Option Int → Option Int
  | some x, some y => some (x - y)
  | _, _ => none

/-- An infinite bound times zero is zero. -/
def optMul : Option Int → Option Int → Option Int
  | some x, some y => some (x * y)
  | none, some z | some z, none => if z = 0 then some 0 else none
  | none, none => none

def add (a b : IntInterval) : IntInterval :=
  if a.isEmpty || b.isEmpty then empty else ⟨optAdd a.lo b.lo, optAdd a.hi b.hi⟩

def sub (a b : IntInterval) : IntInterval :=
  if a.isEmpty || b.isEmpty then empty else ⟨optSub a.lo b.hi, optSub a.hi b.lo⟩

/-- `[lo, hi]` widened to a candidate; a candidate without a value takes both bounds away. -/
def widen (r : IntInterval) (p : Option Int) : IntInterval where
  lo := match r.lo, p with
    | some a, some b => if b < a then some b else some a
    | _, _ => none
  hi := match r.hi, p with
    | some a, some b => if b > a then some b else some a
    | _, _ => none

def mul (a b : IntInterval) : IntInterval :=
  if a.isEmpty || b.isEmpty then empty
  else
    let first := optMul a.lo b.lo
    [optMul a.lo b.hi, optMul a.hi b.lo, optMul a.hi b.hi].foldl widen ⟨first, first⟩

/-! ## Membership -/

def Contains (r : IntInterval) (z : Int) : Prop :=
  (∀ l ∈ r.lo, l ≤ z) ∧ ∀ h ∈ r.hi, z ≤ h

section Contains

variable {a b r : IntInterval} {x y z : Int}

theorem contains_top : top.Contains z := ⟨by simp [top], by simp [top]⟩

theorem contains_singleton : (singleton z).Contains z := by simp [singleton, Contains]

theorem Contains.not_empty (h : r.Contains z) : r.isEmpty = false := by
  obtain ⟨lo, hi⟩ := r
  cases lo <;> cases hi <;> simp_all [Contains, isEmpty]
  omega

theorem contains_closed (hx : x ≤ z) (hy : z ≤ y) : (closed x y).Contains z := by
  rw [closed, if_neg (by omega)]
  exact ⟨by simp [hx], by simp [hy]⟩

theorem Contains.add (ha : a.Contains x) (hb : b.Contains y) : (a.add b).Contains (x + y) := by
  rw [IntInterval.add, ha.not_empty, hb.not_empty]
  obtain ⟨alo, ahi⟩ := a
  obtain ⟨blo, bhi⟩ := b
  constructor
  · cases alo <;> cases blo <;> simp_all [Contains, optAdd]
    omega
  · cases ahi <;> cases bhi <;> simp_all [Contains, optAdd]
    omega

theorem Contains.sub (ha : a.Contains x) (hb : b.Contains y) : (a.sub b).Contains (x - y) := by
  rw [IntInterval.sub, ha.not_empty, hb.not_empty]
  obtain ⟨alo, ahi⟩ := a
  obtain ⟨blo, bhi⟩ := b
  constructor
  · cases alo <;> cases bhi <;> simp_all [Contains, optSub]
    omega
  · cases ahi <;> cases blo <;> simp_all [Contains, optSub]
    omega

/-- Between the least and the greatest of four candidates. -/
theorem contains_hull {p q s t : Int} (hlo : p ≤ z ∨ q ≤ z ∨ s ≤ z ∨ t ≤ z)
    (hhi : z ≤ p ∨ z ≤ q ∨ z ≤ s ∨ z ≤ t) :
    ((((⟨some p, some p⟩ : IntInterval).widen (some q)).widen (some s)).widen
      (some t)).Contains z := by
  have hlow (u v : Int) : (if v < u then some v else some u) = some (min u v) := by
    split <;> congr 1 <;> omega
  have hhigh (u v : Int) : (if u < v then some v else some u) = some (max u v) := by
    split <;> congr 1 <;> omega
  simp only [widen, hlow, hhigh, gt_iff_lt, Contains, Option.mem_def, Option.some.injEq, forall_eq']
  omega

theorem mul_between {l h : Int} (hl : l ≤ x) (hh : x ≤ h) (y : Int) :
    (l * y ≤ x * y ∨ h * y ≤ x * y) ∧ (x * y ≤ l * y ∨ x * y ≤ h * y) := by
  rcases le_total 0 y with hy | hy
  · exact ⟨.inl (Int.mul_le_mul_of_nonneg_right hl hy), .inr (Int.mul_le_mul_of_nonneg_right hh hy)⟩
  · exact ⟨.inr (Int.mul_le_mul_of_nonpos_right hh hy), .inl (Int.mul_le_mul_of_nonpos_right hl hy)⟩

theorem Contains.mul (ha : a.Contains x) (hb : b.Contains y) : (a.mul b).Contains (x * y) := by
  rw [IntInterval.mul, ha.not_empty, hb.not_empty]
  obtain ⟨alo, ahi⟩ := a
  obtain ⟨blo, bhi⟩ := b
  obtain ⟨hal, hah⟩ := ha
  obtain ⟨hbl, hbh⟩ := hb
  simp only [Bool.or_self, Bool.false_eq_true, if_false, List.foldl_cons, List.foldl_nil]
  rcases alo with _ | l <;> rcases ahi with _ | h <;> rcases blo with _ | l' <;>
    rcases bhi with _ | h'
  all_goals simp only [Option.mem_def, Option.some.injEq, forall_eq', reduceCtorEq,
    IsEmpty.forall_iff, implies_true] at hal hah hbl hbh
  case some.some.some.some =>
    have hx := mul_between hal hah y
    have hl := mul_between hbl hbh l
    have hh := mul_between hbl hbh h
    rw [mul_comm l' l, mul_comm y l, mul_comm h' l] at hl
    rw [mul_comm l' h, mul_comm y h, mul_comm h' h] at hh
    refine contains_hull ?_ ?_ <;> omega
  -- an infinite bound leaves a finite hull only beside the factor zero
  case none.none.none.none => exact contains_top
  all_goals
    simp only [optMul]
    split_ifs <;> simp_all [widen, Contains]
  all_goals
    have hzero : x = 0 ∨ y = 0 := by omega
    rcases hzero with rfl | rfl <;> simp

theorem Contains.fitsInUnsignedBits (h : r.Contains z) {bits : Nat}
    (hfits : r.fitsInUnsignedBits bits) : 0 ≤ z ∧ z < 2 ^ bits := by
  obtain ⟨lo, hi⟩ := r
  cases lo <;> cases hi <;> simp_all [Contains, IntInterval.fitsInUnsignedBits]
  omega

theorem Contains.fitsInSignedBits (h : r.Contains z) {bits : Nat} (hbits : bits ≠ 0)
    (hfits : r.fitsInSignedBits bits) : -2 ^ (bits - 1) ≤ z ∧ z < 2 ^ (bits - 1) := by
  obtain ⟨lo, hi⟩ := r
  cases lo <;> cases hi <;> simp_all [Contains, IntInterval.fitsInSignedBits]
  omega

theorem Contains.nonNegativeInSigned (h : r.Contains z) {bits : Nat}
    (hr : r.isNonNegativeInSigned bits) : 0 ≤ z ∧ z < 2 ^ (bits - 1) := by
  obtain ⟨lo, hi⟩ := r
  cases lo <;> cases hi <;> simp_all [Contains, isNonNegativeInSigned]
  omega

end Contains

end IntInterval

end Mavros.Hlssa
