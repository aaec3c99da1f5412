/-
# `Mavros.Passes.SimplifierRules` — the identities of the simplifier

Each identity holds of the values once the constant's type fits the other operand's: a
constant of a wider or another type widens the result, and a witness next to an absorbing
constant makes the result a witness.

## What is proved

One lemma for each identity, on raw values, with the condition on types as its hypothesis: neutral
constants (`zero_add_raw`, `mul_one_raw`, `shift_zero_raw`), absorbing ones (`zero_mul_raw`,
`zero_and_raw`), equal operands (`sub_self_raw`, `eq_self_raw`), and the rest (`shr_const_raw`,
`notRaw_notRaw`, `castVal_castVal`).

## How it goes

`IsNum` says that a value stands for a number, in whatever type, and `Fits` that a constant beside
an operand leaves the operand's type.  `arithRaw_left` and `arithRaw_right` then reduce a rule
for a neutral constant to the two facts that are particular to it, one about integers and one
about field elements.

An exact result that fits its width does not depend on the execution, and every integer identity
below has one; so nothing is assumed about overflow.
-/
import Mavros.Hlssa.ValueTypes
import Mavros.Passes.Simplifier

namespace Mavros.Simplifier

open Hlssa

/-! ## Numbers -/

section Numbers

variable {A W : Type} {C : Completion A W}

theorem ofInt_intVal (s : Bool) {n : Nat} (x : BitVec n) : BitVec.ofInt n (intVal s x) = x := by
  cases s with
  | true => simp [intVal]
  | false => simp [intVal]

theorem ofExact_intVal (s : Bool) {n : Nat} (x : BitVec n) : ofExact s n (intVal s x) = some x := by
  rw [ofExact, ofInt_intVal, if_pos rfl]

theorem fit_intVal (kind : BinaryArithOpKind) (s : Bool) {n : Nat} (x : BitVec n) :
    fit C kind s n (intVal s x) = some x := by
  rw [fit, ofExact_intVal]

theorem intVal_zero (s : Bool) (n : Nat) : intVal s (0#n) = 0 := by
  cases s <;> simp [intVal]

theorem fit_zero (kind : BinaryArithOpKind) (s : Bool) (n : Nat) :
    fit C kind s n 0 = some (0#n) := by
  have h := @fit_intVal A W C kind s n 0#n
  rwa [intVal_zero] at h

theorem intVal_one_unsigned {m : Nat} (h : 1 ≤ m) : intVal false (BitVec.ofNat m 1) = 1 := by
  have : 1 < 2 ^ m := Nat.one_lt_two_pow (by omega)
  simp [intVal, Nat.mod_eq_of_lt this]

theorem intVal_one_signed {m : Nat} (h : 2 ≤ m) : intVal true (BitVec.ofNat m 1) = 1 := by
  have hle : 2 ^ 2 ≤ 2 ^ m := Nat.pow_le_pow_right (by decide) h
  have hlt : 1 < 2 ^ m := by omega
  simp only [intVal, if_true, BitVec.toInt, BitVec.toNat_ofNat, Nat.mod_eq_of_lt hlt]
  rw [if_pos (by omega)]
  rfl

/-- The value stands for the number `e`. -/
def IsNum (e : Int) : Raw A → Prop
  | .int s _ x => intVal s x = e
  | .field x => x = e
  | .other _ _ _ => False

end Numbers

/-! ## Types that fit

Integer beside integer by width, and integer beside field element.
-/

/-- A constant of the first type next to a value of the second leaves the second's type. -/
def Fits : TypeExpr → TypeExpr → Prop
  | .u m, .u n | .i m, .i n => m ≤ n
  | .u _, .field | .i _, .field | .field, .field => True
  | _, _ => False

/-- The same for the integer types alone. -/
def FitsInt : TypeExpr → TypeExpr → Prop
  | .u m, .u n | .i m, .i n => m ≤ n
  | _, _ => False

section Shapes

variable {A W : Type} {C : Completion A W}

theorem FitsInt.fits {s t : TypeExpr} (h : FitsInt s t) : Fits s t := by
  cases s <;> cases t <;> first | exact h | exact h.elim

theorem Fits.shapes {k a : Raw A} (h : Fits k.type a.type) :
    (∃ s m n, ∃ (x : BitVec m) (y : BitVec n), m ≤ n ∧ k = .int s m x ∧ a = .int s n y) ∨
      (∃ s m, ∃ (x : BitVec m) (y : Fr), k = .int s m x ∧ a = .field y) ∨
        ∃ x y, k = .field x ∧ a = .field y := by
  cases k with
  | int s m x =>
    cases a with
    | int s' n y =>
      cases s <;> cases s' <;> first
        | exact .inl ⟨_, _, _, x, y, h, rfl, rfl⟩
        | exact h.elim
    | field y => exact .inr (.inl ⟨s, m, x, y, rfl, rfl⟩)
    | other t ht y => cases s <;> cases t <;> first | exact ht.elim | exact h.elim
  | field x =>
    cases a with
    | int s n y => cases s <;> exact h.elim
    | field y => exact .inr (.inr ⟨x, y, rfl, rfl⟩)
    | other t ht y => cases t <;> first | exact ht.elim | exact h.elim
  | other t ht x => cases t <;> first | exact ht.elim | exact h.elim

theorem FitsInt.shapes {k a : Raw A} (h : FitsInt k.type a.type) :
    ∃ s m n, ∃ (x : BitVec m) (y : BitVec n), m ≤ n ∧ k = .int s m x ∧ a = .int s n y := by
  rcases h.fits.shapes with h' | ⟨s, m, x, y, rfl, rfl⟩ | ⟨x, y, rfl, rfl⟩
  · exact h'
  · cases s <;> exact h.elim
  · exact h.elim

/-- The number a scalar counts as next to a field element. -/
def numFr : Raw A → Fr
  | .int s _ x => (intVal s x : Int)
  | .field x => x
  | .other _ _ _ => 0

theorem IsNum.numFr {e : Int} {k : Raw A} (h : IsNum e k) : numFr k = (e : Fr) := by
  cases k with
  | int s m x => exact congrArg (fun e : Int => (e : Fr)) h
  | field x => exact h
  | other t ht x => exact h.elim

/-- A constant on the left that fits is neutral when it is for integers and for the field. -/
theorem arithRaw_left {kind : BinaryArithOpKind} {k a : Raw A} (h : Fits k.type a.type)
    (hint : ∀ s m n (x : BitVec m) (y : BitVec n), m ≤ n → k = .int s m x →
      intArith C kind s n x y = some y)
    (hfield : ∀ y, a = .field y → fieldArith kind (numFr k) y = some y) :
    arithRaw C kind k a = some a := by
  rcases h.shapes with ⟨s, m, n, x, y, hmn, rfl, rfl⟩ | ⟨s, m, x, y, rfl, rfl⟩ | ⟨x, y, rfl, rfl⟩
  · show (if s = s then _ else none) = _
    rw [if_pos rfl, Nat.max_eq_right hmn, hint s m n x y hmn rfl]
    rfl
  · exact congrArg (Option.map Raw.field) (hfield y rfl)
  · exact congrArg (Option.map Raw.field) (hfield y rfl)

theorem arithRaw_right {kind : BinaryArithOpKind} {k a : Raw A} (h : Fits k.type a.type)
    (hint : ∀ s m n (x : BitVec m) (y : BitVec n), m ≤ n → k = .int s m x →
      intArith C kind s n y x = some y)
    (hfield : ∀ y, a = .field y → fieldArith kind y (numFr k) = some y) :
    arithRaw C kind a k = some a := by
  rcases h.shapes with ⟨s, m, n, x, y, hmn, rfl, rfl⟩ | ⟨s, m, x, y, rfl, rfl⟩ | ⟨x, y, rfl, rfl⟩
  · show (if s = s then _ else none) = _
    rw [if_pos rfl, Nat.max_eq_left hmn, hint s m n x y hmn rfl]
    rfl
  · exact congrArg (Option.map Raw.field) (hfield y rfl)
  · exact congrArg (Option.map Raw.field) (hfield y rfl)

/-- The same for the operations that only integers have. -/
theorem arithRaw_left_int {kind : BinaryArithOpKind} {k a : Raw A} (h : FitsInt k.type a.type)
    (hint : ∀ s m n (x : BitVec m) (y : BitVec n), m ≤ n → k = .int s m x →
      intArith C kind s n x y = some y) :
    arithRaw C kind k a = some a := by
  obtain ⟨s, m, n, x, y, hmn, rfl, rfl⟩ := h.shapes
  refine arithRaw_left h.fits hint fun z hz => ?_
  simp at hz

theorem arithRaw_right_int {kind : BinaryArithOpKind} {k a : Raw A} (h : FitsInt k.type a.type)
    (hint : ∀ s m n (x : BitVec m) (y : BitVec n), m ≤ n → k = .int s m x →
      intArith C kind s n y x = some y) :
    arithRaw C kind a k = some a := by
  obtain ⟨s, m, n, x, y, hmn, rfl, rfl⟩ := h.shapes
  refine arithRaw_right h.fits hint fun z hz => ?_
  simp at hz

end Shapes

/-! ## Neutral and absorbing constants

A left and a right form where the operation is not symmetric in its types.
-/

section Neutral

variable {A W : Type} {C : Completion A W} {k a : Raw A}

theorem eq_zero_of_intVal {s : Bool} {n : Nat} {x : BitVec n} (h : intVal s x = 0) : x = 0#n := by
  have := ofInt_intVal s x
  rw [h] at this
  simpa using this.symm

theorem IsNum.eq_zero {s : Bool} {m : Nat} {x : BitVec m} (hk : IsNum 0 k)
    (h : k = .int s m x) : x = 0#m := by
  subst h
  exact eq_zero_of_intVal hk

theorem IsNum.intVal_eq {e : Int} {s : Bool} {m : Nat} {x : BitVec m} (hk : IsNum e k)
    (h : k = .int s m x) : intVal s x = e := by
  subst h
  exact hk

theorem zero_add_raw (hk : IsNum 0 k) (h : Fits k.type a.type) :
    arithRaw C .add k a = some a := by
  refine arithRaw_left h (fun s m n x y _ hx => ?_) fun y _ => ?_
  · show fit C .add s n (intVal s x + intVal s y) = _
    rw [hk.intVal_eq hx, Int.zero_add, fit_intVal]
  · show some (numFr k + y) = _
    rw [hk.numFr, Int.cast_zero, zero_add]

theorem add_zero_raw (hk : IsNum 0 k) (h : Fits k.type a.type) :
    arithRaw C .add a k = some a := by
  refine arithRaw_right h (fun s m n x y _ hx => ?_) fun y _ => ?_
  · show fit C .add s n (intVal s y + intVal s x) = _
    rw [hk.intVal_eq hx, Int.add_zero, fit_intVal]
  · show some (y + numFr k) = _
    rw [hk.numFr, Int.cast_zero, add_zero]

theorem sub_zero_raw (hk : IsNum 0 k) (h : Fits k.type a.type) :
    arithRaw C .sub a k = some a := by
  refine arithRaw_right h (fun s m n x y _ hx => ?_) fun y _ => ?_
  · show fit C .sub s n (intVal s y - intVal s x) = _
    rw [hk.intVal_eq hx, Int.sub_zero, fit_intVal]
  · show some (y - numFr k) = _
    rw [hk.numFr, Int.cast_zero, sub_zero]

theorem one_mul_raw (hk : IsNum 1 k) (h : Fits k.type a.type) :
    arithRaw C .mul k a = some a := by
  refine arithRaw_left h (fun s m n x y _ hx => ?_) fun y _ => ?_
  · show fit C .mul s n (intVal s x * intVal s y) = _
    rw [hk.intVal_eq hx, Int.one_mul, fit_intVal]
  · show some (numFr k * y) = _
    rw [hk.numFr, Int.cast_one, one_mul]

theorem mul_one_raw (hk : IsNum 1 k) (h : Fits k.type a.type) :
    arithRaw C .mul a k = some a := by
  refine arithRaw_right h (fun s m n x y _ hx => ?_) fun y _ => ?_
  · show fit C .mul s n (intVal s y * intVal s x) = _
    rw [hk.intVal_eq hx, Int.mul_one, fit_intVal]
  · show some (y * numFr k) = _
    rw [hk.numFr, Int.cast_one, mul_one]

theorem div_one_raw (hk : IsNum 1 k) (h : Fits k.type a.type) :
    arithRaw C .div a k = some a := by
  refine arithRaw_right h (fun s m n x y _ hx => ?_) fun y _ => ?_
  · show (if intVal s x = 0 then none else fit C .div s n ((intVal s y).tdiv (intVal s x))) = _
    rw [hk.intVal_eq hx, if_neg Int.one_ne_zero, Int.tdiv_one, fit_intVal]
  · show (if numFr k = 0 then none else some (y / numFr k)) = _
    rw [hk.numFr, Int.cast_one, if_neg one_ne_zero, div_one]

theorem zero_or_raw (hk : IsNum 0 k) (h : FitsInt k.type a.type) :
    arithRaw C .or k a = some a := by
  refine arithRaw_left_int h fun s m n x y _ hx => ?_
  show some (x.setWidth n ||| y.setWidth n) = _
  simp [hk.eq_zero hx]

theorem or_zero_raw (hk : IsNum 0 k) (h : FitsInt k.type a.type) :
    arithRaw C .or a k = some a := by
  refine arithRaw_right_int h fun s m n x y _ hx => ?_
  show some (y.setWidth n ||| x.setWidth n) = _
  simp [hk.eq_zero hx]

theorem zero_xor_raw (hk : IsNum 0 k) (h : FitsInt k.type a.type) :
    arithRaw C .xor k a = some a := by
  refine arithRaw_left_int h fun s m n x y _ hx => ?_
  show some (x.setWidth n ^^^ y.setWidth n) = _
  simp [hk.eq_zero hx]

theorem xor_zero_raw (hk : IsNum 0 k) (h : FitsInt k.type a.type) :
    arithRaw C .xor a k = some a := by
  refine arithRaw_right_int h fun s m n x y _ hx => ?_
  show some (y.setWidth n ^^^ x.setWidth n) = _
  simp [hk.eq_zero hx]

theorem shift_zero_raw {kind : BinaryArithOpKind} (hkind : kind = .shl ∨ kind = .shr)
    (hk : IsNum 0 k) (h : FitsInt k.type a.type) (ha : a.type ≠ .u 0 ∧ a.type ≠ .i 0) :
    arithRaw C kind a k = some a := by
  obtain ⟨s, m, n, x, y, hmn, rfl, rfl⟩ := h.shapes
  have hn : 0 < n := by
    rcases Nat.eq_zero_or_pos n with rfl | hn
    · cases s with
      | false => exact absurd rfl ha.1
      | true => exact absurd rfl ha.2
    · exact hn
  obtain rfl := eq_zero_of_intVal hk
  show (if s = s then _ else none) = _
  rw [if_pos rfl, Nat.max_eq_left hmn]
  rcases hkind with rfl | rfl
  · show Option.map _ (if (0#m).toNat < n then some (y.setWidth n <<< (0#m).toNat) else _) = _
    rw [if_pos (by simpa using hn)]
    simp
  · show Option.map _ (if (0#m).toNat < n then some (y.setWidth n >>> (0#m).toNat) else _) = _
    rw [if_pos (by simpa using hn)]
    simp

/-- Next to an absorbing zero the other operand has to fit. -/
theorem zero_mul_raw (hk : IsNum 0 k) (h : Fits a.type k.type) :
    arithRaw C .mul k a = some k := by
  rcases h.shapes with ⟨s, m, n, x, y, hmn, rfl, rfl⟩ | ⟨s, m, x, y, rfl, rfl⟩ | ⟨x, y, rfl, rfl⟩
  · obtain rfl := eq_zero_of_intVal hk
    show (if s = s then (fit C .mul s (max n m) (intVal s (0#n) * intVal s x)).map _ else none) = _
    rw [if_pos rfl, Nat.max_eq_left hmn, intVal_zero, Int.zero_mul, fit_zero]
    rfl
  · show some (Raw.field (y * ((intVal s x : Int) : Fr))) = _
    rw [show y = 0 by simpa [IsNum] using hk, zero_mul]
  · show some (Raw.field (y * x)) = _
    rw [show y = 0 by simpa [IsNum] using hk, zero_mul]

theorem mul_zero_raw (hk : IsNum 0 k) (h : Fits a.type k.type) :
    arithRaw C .mul a k = some k := by
  rcases h.shapes with ⟨s, m, n, x, y, hmn, rfl, rfl⟩ | ⟨s, m, x, y, rfl, rfl⟩ | ⟨x, y, rfl, rfl⟩
  · obtain rfl := eq_zero_of_intVal hk
    show (if s = s then (fit C .mul s (max m n) (intVal s x * intVal s (0#n))).map _ else none) = _
    rw [if_pos rfl, Nat.max_eq_right hmn, intVal_zero, Int.mul_zero, fit_zero]
    rfl
  · show some (Raw.field (((intVal s x : Int) : Fr) * y)) = _
    rw [show y = 0 by simpa [IsNum] using hk, mul_zero]
  · show some (Raw.field (x * y)) = _
    rw [show y = 0 by simpa [IsNum] using hk, mul_zero]

theorem zero_and_raw (hk : IsNum 0 k) (h : FitsInt a.type k.type) :
    arithRaw C .and k a = some k := by
  obtain ⟨s, m, n, x, y, hmn, rfl, rfl⟩ := h.shapes
  obtain rfl := eq_zero_of_intVal hk
  show (if s = s then (some ((0#n).setWidth (max n m) &&& x.setWidth (max n m))).map _
    else none) = _
  rw [if_pos rfl, Nat.max_eq_left hmn]
  simp

theorem and_zero_raw (hk : IsNum 0 k) (h : FitsInt a.type k.type) :
    arithRaw C .and a k = some k := by
  obtain ⟨s, m, n, x, y, hmn, rfl, rfl⟩ := h.shapes
  obtain rfl := eq_zero_of_intVal hk
  show (if s = s then (some (x.setWidth (max m n) &&& (0#n).setWidth (max m n))).map _
    else none) = _
  rw [if_pos rfl, Nat.max_eq_right hmn]
  simp

theorem eq_int_of_type {s : Bool} {n : Nat} (h : a.type = (Raw.int (A := A) s n 0#n).type) :
    ∃ y, a = .int s n y := by
  cases a with
  | int s' m y =>
    cases s <;> cases s' <;> first
      | (simp only [Raw.type, TypeExpr.u.injEq, TypeExpr.i.injEq] at h; subst h; exact ⟨y, rfl⟩)
      | simp [Raw.type] at h
  | field y => cases s <;> simp [Raw.type] at h
  | other t ht y =>
    have h : t = (Raw.int (A := A) s n 0#n).type := h
    subst h
    cases s <;> exact ht.elim

/-- All ones of the width of the other operand. -/
theorem ones_and_raw {s : Bool} {n : Nat} (h : a.type = (Raw.int (A := A) s n 0#n).type) :
    arithRaw C .and (.int s n (BitVec.allOnes n)) a = some a ∧
      arithRaw C .and a (.int s n (BitVec.allOnes n)) = some a := by
  obtain ⟨y, rfl⟩ := eq_int_of_type h
  constructor
  · show (if s = s then (some ((BitVec.allOnes n).setWidth (max n n) &&& y.setWidth (max n n))).map _
      else none) = _
    rw [if_pos rfl, Nat.max_self]
    simp
  · show (if s = s then (some (y.setWidth (max n n) &&& (BitVec.allOnes n).setWidth (max n n))).map _
      else none) = _
    rw [if_pos rfl, Nat.max_self]
    simp

end Neutral

/-! ## Equal operands and the other identities

These look at one value twice, and need no constant.
-/

section Others

variable {A W : Type} {C : Completion A W} {a : Raw A}

/-- An integer or a field element. -/
def IsScalar : TypeExpr → Prop
  | .u _ | .i _ | .field => True
  | _ => False

def IsInt : TypeExpr → Prop
  | .u _ | .i _ => True
  | _ => False

theorem IsScalar.cases (h : IsScalar a.type) :
    (∃ s n, ∃ x : BitVec n, a = .int s n x) ∨ ∃ x, a = .field x := by
  cases a with
  | int s n x => exact .inl ⟨s, n, x, rfl⟩
  | field x => exact .inr ⟨x, rfl⟩
  | other t ht x => cases t <;> first | exact ht.elim | exact h.elim

theorem IsInt.cases (h : IsInt a.type) : ∃ s n, ∃ x : BitVec n, a = .int s n x := by
  cases a with
  | int s n x => exact ⟨s, n, x, rfl⟩
  | field x => exact h.elim
  | other t ht x => cases t <;> first | exact ht.elim | exact h.elim

/-- The number of a scalar type. -/
def scalarRaw (value : Nat) : TypeExpr → Option (Raw A)
  | .u n => some (.int false n (BitVec.ofNat n value))
  | .i n => some (.int true n (BitVec.ofNat n value))
  | .field => some (.field value)
  | _ => none

theorem constVal_scalarConst {value : Nat} {t : TypeExpr} {k : Constant}
    (h : scalarConst value t = some k) :
    ∃ raw, scalarRaw value t = some raw ∧ constVal C k = ⟨false, raw⟩ := by
  cases t <;> simp only [scalarConst, Option.some.injEq, reduceCtorEq] at h <;> subst h <;>
    exact ⟨_, rfl, rfl⟩

theorem sub_self_raw {z : Raw A} (h : scalarRaw 0 a.type = some z) :
    arithRaw C .sub a a = some z := by
  cases a with
  | int s n x =>
    show (if s = s then (fit C .sub s (max n n) (intVal s x - intVal s x)).map _ else none) = _
    rw [if_pos rfl, Nat.max_self, Int.sub_self, fit_zero, ← h]
    cases s <;> rfl
  | field x =>
    show some (Raw.field (x - x)) = _
    rw [sub_self, ← h]
    exact congrArg (fun y => some (Raw.field y)) Nat.cast_zero.symm
  | other t ht x => cases t <;> first | exact ht.elim | simp [Raw.type, scalarRaw] at h

theorem xor_self_raw {z : Raw A} (ha : IsInt a.type) (h : scalarRaw 0 a.type = some z) :
    arithRaw C .xor a a = some z := by
  obtain ⟨s, n, x, rfl⟩ := ha.cases
  show (if s = s then (some (x.setWidth (max n n) ^^^ x.setWidth (max n n))).map _ else none) = _
  rw [if_pos rfl, Nat.max_self, BitVec.xor_self, ← h]
  cases s <;> rfl

theorem and_self_raw (h : IsInt a.type) : arithRaw C .and a a = some a := by
  obtain ⟨s, n, x, rfl⟩ := h.cases
  show (if s = s then (some (x.setWidth (max n n) &&& x.setWidth (max n n))).map _ else none) = _
  rw [if_pos rfl, Nat.max_self]
  simp

theorem or_self_raw (h : IsInt a.type) : arithRaw C .or a a = some a := by
  obtain ⟨s, n, x, rfl⟩ := h.cases
  show (if s = s then (some (x.setWidth (max n n) ||| x.setWidth (max n n))).map _ else none) = _
  rw [if_pos rfl, Nat.max_self]
  simp

theorem eq_self_raw (h : IsScalar a.type) : cmpRaw .eq a a = some (boolRaw true) := by
  rcases h.cases with ⟨s, n, x, rfl⟩ | ⟨x, rfl⟩
  · simp [cmpRaw]
  · simp [cmpRaw]

/-- A shift by a constant below the width keeps a range of bits. -/
theorem shr_const_raw {m n : Nat} {x : BitVec n} {offset : Nat} (hm : m ≤ n)
    (hoffset : offset < n) (hvalue : offset < 2 ^ m) :
    arithRaw C .shr (.int false n x) (.int (A := A) false m (BitVec.ofNat m offset)) =
      bitRangeRaw offset (n - offset) (.int false n x) := by
  have hy : (BitVec.ofNat m offset).toNat = offset := by
    rw [BitVec.toNat_ofNat, Nat.mod_eq_of_lt hvalue]
  show (if false = false then Option.map _ (if (BitVec.ofNat m offset).toNat < max n m then
    some (x.setWidth (max n m) >>> (BitVec.ofNat m offset).toNat) else _) else none) = _
  rw [if_pos rfl, Nat.max_eq_left hm, hy, if_pos hoffset]
  have hlt : x.toNat / 2 ^ offset < 2 ^ (n - offset) := by
    rw [Nat.div_lt_iff_lt_mul (Nat.two_pow_pos _), ← Nat.pow_add, Nat.sub_add_cancel hoffset.le]
    exact x.isLt
  have hbits : x.setWidth n >>> offset
      = BitVec.ofNat n (x.toNat / 2 ^ offset % 2 ^ (n - offset)) := by
    apply BitVec.eq_of_toNat_eq
    rw [Nat.mod_eq_of_lt hlt, BitVec.toNat_ofNat]
    simp only [BitVec.setWidth_eq, BitVec.toNat_ushiftRight, Nat.shiftRight_eq_div_pow]
    exact (Nat.mod_eq_of_lt ((Nat.div_le_self _ _).trans_lt x.isLt)).symm
  rw [hbits]
  rfl

theorem mulConst_zero_raw {k : Raw A} (hk : IsNum 0 k) (h : IsScalar k.type)
    (ha : a.type = k.type) : mulConstRaw C k a = some k := by
  rcases h.cases with ⟨s, n, x, rfl⟩ | ⟨x, rfl⟩
  · obtain rfl := eq_zero_of_intVal hk
    obtain ⟨y, rfl⟩ := eq_int_of_type ha
    show (if s = s then (fit C .mul s n (intVal s (0#n) * intVal s y)).map _ else none) = _
    rw [if_pos rfl, intVal_zero, Int.zero_mul, fit_zero]
    rfl
  · have hx : x = 0 := by simpa [IsNum] using hk
    cases a with
    | field y =>
      show some (Raw.field (x * y)) = _
      rw [hx, zero_mul]
    | int s n y => cases s <;> simp [Raw.type] at ha
    | other t ht y =>
      have ha : t = .field := ha
      subst ha
      exact ht.elim

/-- A factor in front of a value of the second type. -/
def Scales : TypeExpr → TypeExpr → Prop
  | .u _, .u _ | .i _, .i _ => True
  | .u _, .field | .i _, .field | .field, .field => True
  | _, _ => False

theorem mulConst_one_raw {k : Raw A} (hk : IsNum 1 k) (h : Scales k.type a.type) :
    mulConstRaw C k a = some a := by
  cases k with
  | int s m x =>
    have hx : intVal s x = 1 := hk
    cases a with
    | int s' n y =>
      have hs : s = s' := by
        cases s <;> cases s' <;> first | rfl | exact h.elim
      subst hs
      show (if s = s then (fit C .mul s n (intVal s x * intVal s y)).map _ else none) = _
      rw [if_pos rfl, hx, Int.one_mul, fit_intVal]
      rfl
    | field y =>
      show some (Raw.field (((intVal s x : Int) : Fr) * y)) = _
      rw [hx, Int.cast_one, one_mul]
    | other t ht y => cases s <;> cases t <;> first | exact ht.elim | exact h.elim
  | field x =>
    cases a with
    | int s n y => cases s <;> exact h.elim
    | field y =>
      show some (Raw.field (x * y)) = _
      rw [show x = 1 by simpa [IsNum] using hk, one_mul]
    | other t ht y => cases t <;> first | exact ht.elim | exact h.elim
  | other t ht x => exact hk.elim

theorem notRaw_notRaw {b : Raw A} (h : notRaw a = some b) : notRaw b = some a := by
  cases a with
  | int s n x =>
    obtain rfl := Option.some.inj h
    show some (Raw.int s n (~~~(~~~x))) = _
    rw [BitVec.not_not]
  | field x =>
    have hx : x.val < modulus := ZMod.val_lt x
    have hp : modulus < 2 ^ 254 := by decide
    simp only [notRaw] at h
    split at h
    · next hlt =>
      obtain rfl := Option.some.inj h
      have hval : (((2 ^ 254 - 1 - x.val : Nat) : Fr)).val = 2 ^ 254 - 1 - x.val :=
        ZMod.val_cast_of_lt hlt
      have hback : 2 ^ 254 - 1 - (2 ^ 254 - 1 - x.val) = x.val := by omega
      simp only [notRaw, hval, hback, if_pos hx, ZMod.natCast_val, ZMod.cast_id', id]
    · simp at h
  | other t ht x => simp [notRaw] at h

theorem bitRange_all_raw {bits : Nat} (h : a.type.bitSize = some bits) :
    bitRangeRaw 0 bits a = some a := by
  cases a with
  | int s n x =>
    have hb : n = bits := by cases s <;> exact Option.some.inj h
    subst hb
    have hx : x.toNat / 2 ^ 0 % 2 ^ n = x.toNat := by
      rw [Nat.pow_zero, Nat.div_one, Nat.mod_eq_of_lt x.isLt]
    show some (Raw.int s n (BitVec.ofNat n (x.toNat / 2 ^ 0 % 2 ^ n))) = _
    rw [hx, BitVec.ofNat_toNat, BitVec.setWidth_eq]
  | field x =>
    obtain rfl := Option.some.inj h
    have hx : x.val / 2 ^ 0 % 2 ^ 254 = x.val := by
      rw [Nat.pow_zero, Nat.div_one]
      exact Nat.mod_eq_of_lt ((ZMod.val_lt x).trans (by decide))
    show some (Raw.field ((x.val / 2 ^ 0 % 2 ^ 254 : Nat) : Fr)) = _
    rw [hx, ZMod.natCast_val, ZMod.cast_id', id]
  | other t ht x => cases t <;> first | exact ht.elim | simp [Raw.type, TypeExpr.bitSize] at h

theorem selectRaw_self (cond : Bool) (h : IsScalar a.type) : selectRaw cond a a = some a := by
  rcases h.cases with ⟨s, n, x, rfl⟩ | ⟨x, rfl⟩
  · show (if s = s then some (Raw.int s (max n n)
      (if cond = true then x.setWidth (max n n) else x.setWidth (max n n))) else none) = _
    rw [if_pos rfl, Nat.max_self]
    simp
  · show some (Raw.field (if cond = true then x else x)) = _
    rw [ite_self]

/-- A second cast to the same type changes nothing. -/
theorem castVal_castVal {signatures : FunctionId → Option (List TypeExpr × List TypeExpr)}
    (hC : C.Typed signatures) {target : CastTarget} {v v' : Value A} {t t' : TypeExpr}
    (ht : target.resultType v.type = some t) (h : castVal C target v = some v')
    (ht' : target.resultType v'.type = some t') : castVal C target v' = some v' := by
  have htype : v'.type = t := castVal_type hC h ht
  have hraw : v'.raw.type = t.stripWitness := by rw [← htype, Value.stripWitness_type]
  cases target with
  | nop => rfl
  | witnessOf =>
    have hmk : t = .witnessOf v.type := by
      cases hv : v.type <;> rw [hv] at ht <;> first
        | exact (Option.some.inj ht).symm
        | simp [CastTarget.resultType, TypeExpr.mkWitnessOf] at ht
    rw [htype, hmk] at ht'
    simp [CastTarget.resultType, TypeExpr.mkWitnessOf] at ht'
  | arrayToSlice =>
    have hslice : ∃ elem, t = .slice elem := by
      cases hv : v.type <;> rw [hv] at ht <;> first
        | exact ⟨_, (Option.some.inj ht).symm⟩
        | simp [CastTarget.resultType] at ht
    obtain ⟨elem, rfl⟩ := hslice
    rw [htype] at ht'
    simp [CastTarget.resultType] at ht'
  | field =>
    rw [← Option.some.inj ht] at hraw
    have hfield : ∃ x, v'.raw = .field x := by
      cases hr : v'.raw with
      | field x => exact ⟨x, rfl⟩
      | int s n x =>
        rw [hr] at hraw
        cases s <;> cases hw : v.type.isWitnessOf <;>
          simp [Raw.type, TypeExpr.wrapLike, TypeExpr.stripWitness, hw] at hraw
      | other t ht x =>
        rw [hr] at hraw
        cases hw : v.type.isWitnessOf <;>
          simp [Raw.type, TypeExpr.wrapLike, TypeExpr.stripWitness, hw] at hraw <;>
            subst hraw <;> exact ht.elim
    obtain ⟨x, hx⟩ := hfield
    simp [castVal, hx]
  | u n =>
    rw [← Option.some.inj ht] at hraw
    have hint : v'.raw.type = (Raw.int (A := A) false n 0#n).type := by
      rw [hraw]
      cases hw : v.type.isWitnessOf <;> simp [TypeExpr.wrapLike, TypeExpr.stripWitness, hw,
        Raw.type]
    obtain ⟨x, hx⟩ := eq_int_of_type hint
    simp [castVal, hx]
  | i n =>
    rw [← Option.some.inj ht] at hraw
    have hint : v'.raw.type = (Raw.int (A := A) true n 0#n).type := by
      rw [hraw]
      cases hw : v.type.isWitnessOf <;> simp [TypeExpr.wrapLike, TypeExpr.stripWitness, hw,
        Raw.type]
    obtain ⟨x, hx⟩ := eq_int_of_type hint
    simp [castVal, hx]

end Others

end Mavros.Simplifier
