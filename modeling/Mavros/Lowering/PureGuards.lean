/-
# `Mavros.Lowering.PureGuards` — guarded integer operations on pure operands

## What is modelled

`LowerPureGuards` checks for overflow, bad shift amounts and zero divisors before it lets an
operation under a guard run: where the check fails the condition is asserted to be false and
the result is zero.  Here its code is run by the integer opcodes of the machine, from words to
a word or to an abort.

What runs is not quite what the lowering emits.  The lowering of witness integers follows it,
and `lower_not` there rewrites the complement of every value, of a pure one too, into a
subtraction in the field (`lowerNot`).  So the opcode that flips all 64 bits of a word is never
reached, and the complement of a comparison is the other boolean (`lowerNot_ofBool`).

## What is proved

`GuardExact` says that the code aborts exactly when the condition holds and the exact operation
fails, and that under the condition it returns the exact result.  `lowerGuard_exact` says for
which operands it does, over every operation, width and condition: always for the unsigned
operations, and for the signed ones exactly on `SignedRight` and `SignedShiftRight`.

Two things go wrong with signs.

* A cast to a wider type moves the word and does not extend its sign, so that a negative operand
  is taken for a large one; and the upper bound of the check is itself let through.
* A shift to the right brings in zeros, and one to the left is taken for exact when the word
  comes back from a shift of words, whatever became of the sign bit.

The signed arithmetic is linear once a word is split into a number and its sign (`Encodes`),
with `h` for half the range: `WideRight` is what the check decides of the wide result and the
exact one, and each operation compares it with its own condition.
-/
import Mavros.Codegen.ScalarWords
import Mavros.Lib.Residue

namespace Mavros.Lowering

open Hlssa (BinaryArithOpKind)
open Bytecode Codegen
open Lib (emod_eq_ite two_pow_succ_pred)
open R1CGen (decodeSigned wrapUnsigned)

/-! ## The lowering

A value is the word of its register.  The width of a type only shows in the opcodes, which mask
what they compute to it, and in the constants. -/

/-- `wider_bits`. -/
def widerBits (bits : Nat) : Nat :=
  if 1 ≤ bits ∧ bits ≤ 8 then 16
  else if 9 ≤ bits ∧ bits ≤ 16 then 32
  else if 17 ≤ bits ∧ bits ≤ 32 then 64
  else if 33 ≤ bits ∧ bits ≤ 64 then 128
  else bits * 2

/-- The word of a constant, `value as u128 as u64`. -/
def constWord (value : Int) : Nat := (value % 2 ^ 64).toNat

/-- `build_if_else` on the machine: a word that is not zero takes the first branch. -/
def ifElse (cond : Nat) (ifT ifF : Option Nat) : Option Nat := if cond ≠ 0 then ifT else ifF

/-- `emit_guard_failure_default`: the condition is asserted to be false. -/
def emitGuardFailureDefault (condition : Nat) : Option Nat :=
  if condition = 0 then some 0 else none

/-- `emit_guarded_branch`. -/
def emitGuardedBranch (condition failure : Nat) (okPath : Option Nat) : Option Nat :=
  ifElse failure (emitGuardFailureDefault condition) okPath

/-- `lower_unsigned_add_sub_guard`. -/
def lowerUnsignedAddSubGuard (kind : BinaryArithOpKind) (bits condition lhs rhs : Nat) :
    Option Nat := do
  let nativeResult ← wordOp false bits lhs rhs kind
  let overflow ← match kind with
    | .add => some (ltU64 nativeResult lhs)
    | .sub => some (ltU64 lhs nativeResult)
    | _ => none
  emitGuardedBranch condition overflow (some nativeResult)

/-- `lower_not`.  The lowering of witness integers runs after that of guards and rewrites the
complement of a pure value as well: the value is taken from `2 ^ bits - 1` in the field, and
the cast back reads the lowest limb. -/
def lowerNot (bits w : Nat) : Nat := ((2 ^ bits - 1 : Fr) - (w : Fr)).val % 2 ^ 64

/-- The check of `lower_overflow_guard`; casts move words. -/
def wideOverflow (signed : Bool) (bits wideBits wideResult : Nat) : Nat :=
  if signed then
    let minVal := constWord (-2 ^ (bits - 1))
    let maxVal := constWord (2 ^ (bits - 1))
    let tooLow := ltS64 wideBits wideResult minVal
    let tooHigh := ltS64 wideBits maxVal wideResult
    tooLow ||| tooHigh
  else lowerNot 1 (ltU64 wideResult (constWord (2 ^ bits)))

/-- `lower_overflow_guard`, where the operation is made in a wider type. -/
def lowerWideGuard (kind : BinaryArithOpKind) (signed : Bool) (bits condition lhs rhs : Nat) :
    Option Nat := do
  let wideResult ← wordOp signed (widerBits bits) lhs rhs kind
  emitGuardedBranch condition (wideOverflow signed bits (widerBits bits) wideResult)
    (some wideResult)

/-- `emit_invalid_shift_cond`. -/
def emitInvalidShiftCond (signed : Bool) (bits rhs : Nat) : Nat :=
  let cmpBits := max bits 64
  let rhsBound := constWord bits
  let rhsLtBits := if signed then ltS64 cmpBits rhs rhsBound else ltU64 rhs rhsBound
  let rhsTooLarge := lowerNot 1 rhsLtBits
  if signed then ltS64 cmpBits rhs (constWord 0) ||| rhsTooLarge else rhsTooLarge

/-- `emit_checked_shl_ok_path`. -/
def emitCheckedShlOkPath (signed : Bool) (bits condition lhs rhs : Nat) : Option Nat := do
  let shifted ← wordOp signed bits lhs rhs .shl
  let back ← wordOp signed bits shifted rhs .shr
  let overflow := lowerNot 1 (eqU64 back lhs)
  ifElse overflow (emitGuardFailureDefault condition) (some shifted)

/-- `lower_shift_guard`. -/
def lowerShiftGuard (kind : BinaryArithOpKind) (signed : Bool) (bits condition lhs rhs : Nat) :
    Option Nat :=
  ifElse (emitInvalidShiftCond signed bits rhs) (emitGuardFailureDefault condition)
    (match kind with
      | .shr => wordOp signed bits lhs rhs .shr
      | .shl => emitCheckedShlOkPath signed bits condition lhs rhs
      | _ => none)

/-- `lower_divmod_guard`. -/
def lowerDivmodGuard (kind : BinaryArithOpKind) (signed : Bool) (bits condition lhs rhs : Nat) :
    Option Nat :=
  ifElse (eqU64 rhs (constWord 0)) (emitGuardFailureDefault condition)
    (wordOp signed bits lhs rhs kind)

/-- The widest value of the code for an operation. -/
def widestValue (kind : BinaryArithOpKind) (signed : Bool) (bits : Nat) : Nat :=
  match kind, signed with
  | .mul, _ | .add, true | .sub, true => max bits (widerBits bits)
  | .shl, _ | .shr, _ => max bits 64
  | _, _ => bits

/-- The code generator keeps integers in one word and has no signed division. -/
def Compiles (kind : BinaryArithOpKind) (signed : Bool) (bits : Nat) : Bool :=
  widestValue kind signed bits ≤ 64 && !(signed && (kind = .div || kind = .mod))

/-- `lower_guard` on the operations that can fail, from the condition and the operands to the
result or an abort; `none` where the machine has no code for them. -/
def lowerGuard (kind : BinaryArithOpKind) (signed : Bool) (bits : Nat) :
    Option (Nat → Nat → Nat → Option Nat) :=
  if Compiles kind signed bits then
    match kind, signed with
    | .add, false | .sub, false => some (lowerUnsignedAddSubGuard kind bits)
    | .add, true | .sub, true | .mul, _ => some (lowerWideGuard kind signed bits)
    | .shl, _ | .shr, _ => some (lowerShiftGuard kind signed bits)
    | .div, _ | .mod, _ => some (lowerDivmodGuard kind signed bits)
    | .and, _ | .or, _ | .xor, _ => none
  else none

/-! ## The exact operations

What the code is compared with: integers without a width, and the range of the type as the one
reason to fail besides a zero divisor and an amount that is out of range. -/

/-- The integers of a type. -/
def InIntType (signed : Bool) (bits : Nat) (z : Int) : Prop :=
  if signed then -2 ^ (bits - 1) ≤ z ∧ z < 2 ^ (bits - 1) else 0 ≤ z ∧ z < 2 ^ bits

instance (signed : Bool) (bits : Nat) (z : Int) : Decidable (InIntType signed bits z) :=
  inferInstanceAs (Decidable (if signed then _ else _))

/-- The integer a word stands for. -/
def intValue (signed : Bool) (bits w : Nat) : Int := if signed then decodeSigned w bits else w

/-- An integer as a word of the type. -/
def wordOf (bits : Nat) (z : Int) : Nat := (z % 2 ^ bits).toNat

/-- The exact operation, which fails on an overflow, a zero divisor and a shift too far. -/
def exactOp (kind : BinaryArithOpKind) (signed : Bool) (bits : Nat) (x y : Int) : Option Int :=
  let fit := fun z => if InIntType signed bits z then some z else none
  match kind with
  | .add => fit (x + y)
  | .sub => fit (x - y)
  | .mul => fit (x * y)
  | .div => if y = 0 then none else fit (x.tdiv y)
  | .mod => if y = 0 then none else fit (x.tmod y)
  | .shl => if 0 ≤ y ∧ y < bits then fit (x * 2 ^ y.toNat) else none
  | .shr => if 0 ≤ y ∧ y < bits then fit (x / 2 ^ y.toNat) else none
  | .and | .or | .xor => none

/-- Guarded code does what it should: it aborts exactly when the condition holds and the exact
operation fails, and under the condition it returns the exact result. -/
structure GuardExact (kind : BinaryArithOpKind) (signed : Bool) (bits condition lhs rhs : Nat)
    (result : Option Nat) : Prop where
  aborts : result = none ↔
    condition ≠ 0 ∧
      exactOp kind signed bits (intValue signed bits lhs) (intValue signed bits rhs) = none
  returns : condition ≠ 0 → ∀ z,
    exactOp kind signed bits (intValue signed bits lhs) (intValue signed bits rhs) = some z →
      result = some (wordOf bits z)

/-! ## Branches

Under a false condition the failing branch returns zero, so that guarded code is right as soon
as it ends.  Under a true one it is right where the check and the exact operation agree. -/

section Branches

variable {kind : BinaryArithOpKind} {signed : Bool} {bits condition a b : Nat}

/-- On the result of a comparison the complement is that of the machine's booleans. -/
theorem lowerNot_ofBool (p : Bool) : lowerNot 1 (ofBool p) = ofBool (!p) := by
  cases p with
  | true =>
    have hsub : (2 ^ 1 - 1 : Fr) - ((ofBool true : Nat) : Fr) = 0 := by
      rw [ofBool, if_pos rfl]
      norm_num
    rw [lowerNot, hsub, ZMod.val_zero]
    rfl
  | false =>
    have hsub : (2 ^ 1 - 1 : Fr) - ((ofBool false : Nat) : Fr) = 1 := by
      rw [ofBool, if_neg Bool.false_ne_true]
      norm_num
    rw [lowerNot, hsub, ZMod.val_one]
    rfl

theorem or_ne_zero {m n : Nat} : m ||| n ≠ 0 ↔ m ≠ 0 ∨ n ≠ 0 := by
  rw [Ne, Nat.or_eq_zero_iff]
  tauto

@[simp]
theorem ofBool_ne_zero {p : Bool} : ofBool p ≠ 0 ↔ p = true := by
  cases p <;> decide

@[simp]
theorem emitGuardFailureDefault_eq_none :
    emitGuardFailureDefault condition = none ↔ condition ≠ 0 := by
  simp [emitGuardFailureDefault]

theorem ifElse_pos {c : Nat} (h : c ≠ 0) (x y : Option Nat) : ifElse c x y = x := if_pos h

theorem ifElse_neg {c : Nat} (h : ¬c ≠ 0) (x y : Option Nat) : ifElse c x y = y := if_neg h

/-- Under a false condition all that is asked of guarded code is that it ends. -/
theorem guardExact_inactive {result : Option Nat} (h : result ≠ none) :
    GuardExact kind signed bits 0 a b result :=
  ⟨by simp [h], fun h => absurd rfl h⟩

/-- Code that fails under every condition is right where the operation fails. -/
theorem guardExact_fails_iff (hcondition : condition ≠ 0) :
    GuardExact kind signed bits condition a b none ↔
      exactOp kind signed bits (intValue signed bits a) (intValue signed bits b) = none := by
  constructor
  · intro h
    exact (h.aborts.mp rfl).2
  · intro h
    exact ⟨by simp [hcondition, h], fun _ z hz => by simp [h] at hz⟩

/-- Code that gives a result is right where the exact result is that word. -/
theorem guardExact_returns_iff (hcondition : condition ≠ 0) {w : Nat} :
    GuardExact kind signed bits condition a b (some w) ↔
      ∃ z, exactOp kind signed bits (intValue signed bits a) (intValue signed bits b) = some z ∧
        w = wordOf bits z := by
  constructor
  · intro h
    cases hz : exactOp kind signed bits (intValue signed bits a) (intValue signed bits b) with
    | none => exact absurd (h.aborts.mpr ⟨hcondition, hz⟩) (by simp)
    | some z => exact ⟨z, rfl, Option.some.inj (h.returns hcondition z hz)⟩
  · rintro ⟨z, hz, rfl⟩
    exact ⟨by simp [hz], fun _ z' hz' => by rw [hz] at hz'; rw [Option.some.inj hz']⟩

theorem emitGuardedBranch_exact_iff (hcondition : condition ≠ 0) (failure w : Nat) :
    GuardExact kind signed bits condition a b (emitGuardedBranch condition failure (some w)) ↔
      if failure ≠ 0 then
        exactOp kind signed bits (intValue signed bits a) (intValue signed bits b) = none
      else ∃ z, exactOp kind signed bits (intValue signed bits a)
        (intValue signed bits b) = some z ∧
        w = wordOf bits z := by
  unfold emitGuardedBranch ifElse
  split
  · rw [emitGuardFailureDefault_eq_none.mpr hcondition]
    exact guardExact_fails_iff hcondition
  · exact guardExact_returns_iff hcondition

theorem emitGuardedBranch_inactive (failure w : Nat) :
    emitGuardedBranch 0 failure (some w) ≠ none := by
  unfold emitGuardedBranch ifElse emitGuardFailureDefault
  split <;> simp

end Branches

/-! ## The operations whose check is right -/

section Right

variable {bits condition a b : Nat}

theorem wordOf_natCast {n : Nat} (h : n < 2 ^ bits) : wordOf bits n = n := by
  have hcast : ((n : Nat) : Int) < 2 ^ bits := by exact_mod_cast h
  rw [wordOf, Int.emod_eq_of_lt (Int.natCast_nonneg n) hcast, Int.toNat_natCast]

theorem exactOp_unsigned_fit {n : Nat} :
    (if InIntType false bits n then some (n : Int) else none)
      = if n < 2 ^ bits then some (n : Int) else none := by
  have hiff : InIntType false bits n ↔ n < 2 ^ bits := by
    simp only [InIntType, Bool.false_eq_true, if_false]
    constructor
    · intro h
      exact_mod_cast h.2
    · intro h
      exact ⟨Int.natCast_nonneg n, by exact_mod_cast h⟩
  simp only [hiff]

theorem addInt_lt_iff {M : Nat} (ha : a < M) (hb : b < M) : (a + b) % M < a ↔ M ≤ a + b := by
  rcases Nat.lt_or_ge (a + b) M with h | h
  · rw [Nat.mod_eq_of_lt h]
    omega
  · rw [Nat.mod_eq_sub_mod h, Nat.mod_eq_of_lt (by omega)]
    omega

/-- The sum wraps around exactly when it is below an operand. -/
theorem lowerUnsignedAdd_exact (hbits : bits ≤ 64) (ha : a < 2 ^ bits) (hb : b < 2 ^ bits) :
    GuardExact .add false bits condition a b
      (lowerUnsignedAddSubGuard .add bits condition a b) := by
  have hcode : lowerUnsignedAddSubGuard .add bits condition a b
      = emitGuardedBranch condition (ltU64 ((a + b) % 2 ^ bits) a) (some ((a + b) % 2 ^ bits)) := by
    simp [lowerUnsignedAddSubGuard, wordOp, addInt_eq hbits]
  rw [hcode]
  rcases Nat.eq_zero_or_pos condition with rfl | hpos
  · exact guardExact_inactive (emitGuardedBranch_inactive _ _)
  rw [emitGuardedBranch_exact_iff hpos.ne']
  have hexact : exactOp .add false bits (intValue false bits a) (intValue false bits b)
      = if a + b < 2 ^ bits then some ((a + b : Nat) : Int) else none := by
    simp only [exactOp, intValue, Bool.false_eq_true, if_false, ← Nat.cast_add]
    exact exactOp_unsigned_fit
  rw [hexact]
  simp only [ltU64, ofBool_ne_zero, decide_eq_true_eq, addInt_lt_iff ha hb]
  split
  · next h => rw [if_neg (Nat.not_lt.mpr h)]
  · next h =>
    have hlt : a + b < 2 ^ bits := Nat.lt_of_not_le h
    exact ⟨_, if_pos hlt, by rw [Nat.mod_eq_of_lt hlt, wordOf_natCast hlt]⟩

theorem subInt_lt_iff {M : Nat} (ha : a < M) (hb : b < M) : a < (a + M - b) % M ↔ a < b := by
  rcases Nat.lt_or_ge a b with h | h
  · rw [Nat.mod_eq_of_lt (by omega)]
    omega
  · rw [show a + M - b = a - b + M by omega, Nat.add_mod_right, Nat.mod_eq_of_lt (by omega)]
    omega

theorem subInt_eq_mod (hbits : bits ≤ 64) (hb : b < 2 ^ bits) :
    subInt bits a b = (a + 2 ^ bits - b) % 2 ^ bits := by
  have hword : b < 2 ^ 64 := hb.trans_le (Nat.pow_le_pow_right (by norm_num) hbits)
  have h := (wrappingSub_emod (a := a) hbits hword).trans (wrappingSub_emod le_rfl hb).symm
  rw [subInt_eq hbits]
  exact_mod_cast h

/-- The difference wraps around exactly when it is above the first operand. -/
theorem lowerUnsignedSub_exact (hbits : bits ≤ 64) (ha : a < 2 ^ bits) (hb : b < 2 ^ bits) :
    GuardExact .sub false bits condition a b
      (lowerUnsignedAddSubGuard .sub bits condition a b) := by
  have hcode : lowerUnsignedAddSubGuard .sub bits condition a b
      = emitGuardedBranch condition (ltU64 a ((a + 2 ^ bits - b) % 2 ^ bits))
        (some ((a + 2 ^ bits - b) % 2 ^ bits)) := by
    simp [lowerUnsignedAddSubGuard, wordOp, subInt_eq_mod hbits hb]
  rw [hcode]
  rcases Nat.eq_zero_or_pos condition with rfl | hpos
  · exact guardExact_inactive (emitGuardedBranch_inactive _ _)
  rw [emitGuardedBranch_exact_iff hpos.ne']
  simp only [ltU64, ofBool_ne_zero, decide_eq_true_eq, subInt_lt_iff ha hb]
  split
  · next h =>
    have hout : ¬InIntType false bits ((a : Int) - b) := by
      rintro ⟨hnonneg, -⟩
      omega
    exact if_neg hout
  · next h =>
    have hle : b ≤ a := Nat.le_of_not_lt h
    have hlt : a - b < 2 ^ bits := (Nat.sub_le a b).trans_lt ha
    refine ⟨((a - b : Nat) : Int), ?_, ?_⟩
    · simp only [exactOp, intValue, Bool.false_eq_true, if_false, ← Nat.cast_sub hle]
      exact exactOp_unsigned_fit.trans (if_pos hlt)
    · rw [wordOf_natCast hlt, show a + 2 ^ bits - b = a - b + 2 ^ bits by omega, Nat.add_mod_right,
        Nat.mod_eq_of_lt hlt]

theorem constWord_natCast {n : Nat} (h : n < 2 ^ 64) : constWord n = n := by
  have hcast : (n : Int) < 2 ^ 64 := by exact_mod_cast h
  rw [constWord, Int.emod_eq_of_lt (Int.natCast_nonneg n) hcast, Int.toNat_natCast]

/-- The wide type has room for a product, and more than two bits to spare. -/
theorem widerBits_spec (hbits : 1 ≤ bits) (hwide : widerBits bits ≤ 64) :
    2 * bits ≤ widerBits bits ∧ bits + 2 ≤ widerBits bits := by
  unfold widerBits at *
  split_ifs at * <;> omega

/-- The wide type holds the product, and the check compares it with the first word that is too
large. -/
theorem lowerUnsignedMul_exact (hbits : 1 ≤ bits) (hwide : widerBits bits ≤ 64)
    (ha : a < 2 ^ bits) (hb : b < 2 ^ bits) :
    GuardExact .mul false bits condition a b (lowerWideGuard .mul false bits condition a b) := by
  obtain ⟨hdouble, -⟩ := widerBits_spec hbits hwide
  have hroom : a * b < 2 ^ widerBits bits :=
    calc a * b < 2 ^ bits * 2 ^ bits := Nat.mul_lt_mul'' ha hb
      _ = 2 ^ (2 * bits) := by rw [← pow_add, two_mul]
      _ ≤ 2 ^ widerBits bits := Nat.pow_le_pow_right (by norm_num) hdouble
  have hbound : constWord (2 ^ bits) = 2 ^ bits := by
    have hlt : 2 ^ bits < 2 ^ 64 := Nat.pow_lt_pow_right (by norm_num) (by omega)
    exact_mod_cast constWord_natCast hlt
  have hcode : lowerWideGuard .mul false bits condition a b
      = emitGuardedBranch condition (ofBool !decide (a * b < 2 ^ bits)) (some (a * b)) := by
    simp [lowerWideGuard, wordOp, mulInt_eq hwide, Nat.mod_eq_of_lt hroom, wideOverflow, hbound,
      ltU64, lowerNot_ofBool]
  rw [hcode]
  rcases Nat.eq_zero_or_pos condition with rfl | hpos
  · exact guardExact_inactive (emitGuardedBranch_inactive _ _)
  rw [emitGuardedBranch_exact_iff hpos.ne']
  have hexact : exactOp .mul false bits (intValue false bits a) (intValue false bits b)
      = if a * b < 2 ^ bits then some ((a * b : Nat) : Int) else none := by
    simp only [exactOp, intValue, Bool.false_eq_true, if_false, ← Nat.cast_mul]
    exact exactOp_unsigned_fit
  rw [hexact]
  by_cases hfit : a * b < 2 ^ bits
  · rw [if_neg (by simp [hfit]), if_pos hfit]
    exact ⟨_, rfl, (wordOf_natCast hfit).symm⟩
  · rw [if_pos (by simp [hfit]), if_neg hfit]

/-- A zero divisor is the one failure of a division. -/
theorem lowerUnsignedDivmod_exact {kind : BinaryArithOpKind} (hkind : kind = .div ∨ kind = .mod)
    (ha : a < 2 ^ bits) :
    GuardExact kind false bits condition a b (lowerDivmodGuard kind false bits condition a b) := by
  have hzero : constWord 0 = 0 := rfl
  unfold lowerDivmodGuard
  rw [hzero]
  rcases Nat.eq_zero_or_pos b with rfl | hpos
  · rw [ifElse_pos (by simp [eqU64])]
    have hfails :
        exactOp kind false bits (intValue false bits a) (intValue false bits 0) = none := by
      rcases hkind with rfl | rfl <;> simp [exactOp, intValue]
    constructor
    · rw [emitGuardFailureDefault_eq_none, hfails]
      simp
    · intro _ z hz
      rw [hfails] at hz
      cases hz
  · rw [ifElse_neg (by simp [eqU64, hpos.ne'])]
    have hb : (b : Int) ≠ 0 := by exact_mod_cast hpos.ne'
    obtain ⟨n, hn, hword, hexact⟩ : ∃ n, n < 2 ^ bits ∧ wordOp false bits a b kind = some n ∧
        exactOp kind false bits (intValue false bits a) (intValue false bits b)
          = some (n : Int) := by
      rcases hkind with rfl | rfl
      · have hlt : a / b < 2 ^ bits := (Nat.div_le_self a b).trans_lt ha
        refine ⟨a / b, hlt, by simp [wordOp, divU64, hpos.ne'], ?_⟩
        simp only [exactOp, intValue, Bool.false_eq_true, if_false, if_neg hb]
        exact exactOp_unsigned_fit.trans (if_pos hlt)
      · have hlt : a % b < 2 ^ bits := (Nat.mod_le a b).trans_lt ha
        refine ⟨a % b, hlt, by simp [wordOp, modU64, hpos.ne'], ?_⟩
        simp only [exactOp, intValue, Bool.false_eq_true, if_false, if_neg hb]
        exact exactOp_unsigned_fit.trans (if_pos hlt)
    rw [hword]
    exact ⟨by simp [hexact], fun _ z hz => by
      rw [hexact] at hz
      rw [← Option.some.inj hz, wordOf_natCast hn]⟩

end Right

/-! ## Signed arithmetic on words that are not extended

The operation is made on the words as they are, in a type that holds its result, and the check
reads that result with the sign of the wide type. -/

section Signed

variable {bits wide condition a b W : Nat} {n : Int}

/-- A word of the wide type, read as a signed integer. -/
theorem decodeSigned_of_emod {M : Int} (hM : M = 2 ^ (wide - 1)) (hwide : 1 ≤ wide)
    (hW : (W : Int) % 2 ^ wide = n % 2 ^ wide) (hlo : -M ≤ n) (hhi : n < 2 * M) :
    decodeSigned W wide = n ∨ (M ≤ n ∧ decodeSigned W wide = n - 2 * M) := by
  have hpow : (2 : Int) ^ wide = 2 * M := hM ▸ two_pow_succ_pred hwide
  have hmod : n % 2 ^ wide = if n < 0 then n + 2 * M else n := by
    rw [hpow, emod_eq_ite (by omega) hhi]
  have hmasked : ((W % 2 ^ wide : Nat) : Int) = if n < 0 then n + 2 * M else n := by
    rw [← hmod, ← hW]
    push_cast
    rfl
  have hhalf : W % 2 ^ wide < 2 ^ (wide - 1) ↔ ((W % 2 ^ wide : Nat) : Int) < M := by
    rw [hM]
    exact_mod_cast Iff.rfl
  rw [decodeSigned, wrapUnsigned]
  simp only [hhalf, hpow]
  split_ifs at hmasked ⊢ <;> omega

theorem constWord_emod (hwide : wide ≤ 64) (v : Int) :
    (constWord v : Int) % 2 ^ wide = v % 2 ^ wide := by
  rw [constWord, Int.toNat_of_nonneg (Int.emod_nonneg v (by norm_num))]
  exact Int.emod_emod_of_dvd v (pow_dvd_pow 2 hwide)

/-- The check compares the wide result with the bounds, the upper one among the values that
pass; a result beyond the wide type is negative and does not pass either. -/
theorem wideOverflow_iff {h M : Int} (hh : h = 2 ^ (bits - 1)) (hM : M = 2 ^ (wide - 1))
    (hwide : 1 ≤ wide) (hwide' : wide ≤ 64) (hhM : h < M)
    (hW : (W : Int) % 2 ^ wide = n % 2 ^ wide) (hlo : -M ≤ n) (hhi : n + h < 2 * M) :
    wideOverflow true bits wide W ≠ 0 ↔ n < -h ∨ h < n := by
  have hpos : 0 < h := hh ▸ by positivity
  have hmin : decodeSigned (constWord (-2 ^ (bits - 1))) wide = -h := by
    rcases decodeSigned_of_emod hM hwide (constWord_emod hwide' (-2 ^ (bits - 1)))
      (by omega) (by omega) with hdec | ⟨hle, -⟩
    · rw [hdec, hh]
    · omega
  have hmax : decodeSigned (constWord (2 ^ (bits - 1))) wide = h := by
    rcases decodeSigned_of_emod hM hwide (constWord_emod hwide' (2 ^ (bits - 1)))
      (by omega) (by omega) with hdec | ⟨hle, -⟩
    · rw [hdec, hh]
    · omega
  simp only [wideOverflow, if_true, or_ne_zero, ltS64, ofBool_ne_zero, decide_eq_true_eq,
    signExtend_eq hwide hwide', hmin, hmax]
  rcases decodeSigned_of_emod hM hwide hW hlo (by omega) with hdec | ⟨hle, hdec⟩
  · rw [hdec]
  · rw [hdec]
    omega

theorem wordOf_eq {h z : Int} (hh : (2 : Int) ^ bits = 2 * h) (hlo : -h ≤ z) (hhi : z < h) :
    (wordOf bits z : Int) = if z < 0 then z + 2 * h else z := by
  rw [wordOf, hh, Int.toNat_of_nonneg (Int.emod_nonneg z (by omega)),
    emod_eq_ite (by omega) (by omega)]

/-- A word and the signed integer it stands for, in a type whose least integer is `-h`. -/
structure Encodes (h : Int) (a x : Int) : Prop where
  lo : -h ≤ x
  hi : x < h
  word : a = if x < 0 then x + 2 * h else x

theorem decodeSigned_encodes {h : Int} (hh : h = 2 ^ (bits - 1)) (hbits : 1 ≤ bits)
    (ha : a < 2 ^ bits) : Encodes h a (decodeSigned a bits) := by
  have htwo : (2 : Int) ^ bits = 2 * h := hh ▸ two_pow_succ_pred hbits
  have hlt : (a : Int) < 2 * h := htwo ▸ (by exact_mod_cast ha)
  have hhalf : a < 2 ^ (bits - 1) ↔ (a : Int) < h := by
    rw [hh]
    exact_mod_cast Iff.rfl
  rw [decodeSigned, wrapUnsigned, Nat.mod_eq_of_lt ha]
  simp only [hhalf, htwo]
  split
  · exact ⟨by omega, by omega, by rw [if_neg (by omega)]⟩
  · exact ⟨by omega, by omega, by rw [if_pos (by omega)]; ring⟩

/-- The wide result `n` stands for the exact one `e` when both are out of range, or when it
is not negative and they are one word. -/
def WideRight (h n e : Int) : Prop :=
  ((e < -h ∨ h ≤ e) ∧ (n < -h ∨ h < n)) ∨
    (-h ≤ e ∧ e < h ∧ 0 ≤ n ∧ n ≤ h ∧ (n = e ∨ n = e + 2 * h))

theorem signedWide_exact_iff {kind : BinaryArithOpKind} {h M e : Int} (hbits : 1 ≤ bits)
    (hh : h = 2 ^ (bits - 1)) (hM : M = 2 ^ (wide - 1)) (hwide : 1 ≤ wide) (hwide' : wide ≤ 64)
    (hhM : 2 * h ≤ M) (hcondition : condition ≠ 0) (hlt : W < 2 ^ wide)
    (hW : (W : Int) % 2 ^ wide = n % 2 ^ wide) (hlo : -M ≤ n) (hhi : n + h < 2 * M)
    (hexact : exactOp kind true bits (intValue true bits a) (intValue true bits b)
      = if InIntType true bits e then some e else none) :
    GuardExact kind true bits condition a b
      (emitGuardedBranch condition (wideOverflow true bits wide W) (some W)) ↔ WideRight h n e := by
  have hpos : 0 < h := hh ▸ by positivity
  have htwo : (2 : Int) ^ bits = 2 * h := hh ▸ two_pow_succ_pred hbits
  have hwideTwo : (2 : Int) ^ wide = 2 * M := hM ▸ two_pow_succ_pred hwide
  have hin : InIntType true bits e ↔ -h ≤ e ∧ e < h := by rw [hh]; exact Iff.rfl
  have hword : (W : Int) = n % 2 ^ wide := by
    rw [← hW, Int.emod_eq_of_lt (Int.natCast_nonneg W) (by exact_mod_cast hlt)]
  rw [emitGuardedBranch_exact_iff hcondition, hexact, WideRight]
  simp only [wideOverflow_iff hh hM hwide hwide' (by omega) hW hlo hhi, hin]
  by_cases hfit : -h ≤ e ∧ e < h
  · have hwordOf := wordOf_eq htwo hfit.1 hfit.2
    simp only [if_pos hfit, reduceCtorEq, Option.some.injEq, exists_eq_left']
    split
    · next hflag =>
      refine ⟨False.elim, ?_⟩
      rintro (⟨he, -⟩ | ⟨-, -, hn, hn', -⟩) <;> omega
    · next hflag =>
      have hval : (W : Int) = if n < 0 then n + 2 * M else n := by
        rw [hword, hwideTwo, emod_eq_ite (by omega) (by omega)]
      have heq : W = wordOf bits e ↔ (W : Int) = (wordOf bits e : Int) := by norm_cast
      rw [heq, hval, hwordOf]
      split_ifs <;> omega
  · simp only [if_neg hfit, reduceCtorEq, false_and, exists_false, if_true_left]
    constructor
    · intro hflag
      exact .inl ⟨by omega, by_contra hflag⟩
    · rintro (⟨-, hflag⟩ | ⟨he, he', -⟩) hnot
      · exact hnot hflag
      · exact hfit ⟨he, he'⟩

end Signed

/-! ## The signed operands the check is right on -/

/-- The product of a number `p` that is not negative and a negative one `m`. -/
def MixedProduct (h p m : Int) : Prop :=
  0 ≤ p ∧ m < 0 ∧ (p = 0 ∨ p * m < -h ∨ (p = 1 ∧ m = -h))

/-- The operands of a signed operation, of a type whose least integer is `-h`, whose words
are not mistaken for other operands. -/
def SignedRight (kind : BinaryArithOpKind) (h x y : Int) : Prop :=
  match kind with
  | .add =>
    (0 ≤ x ∧ 0 ≤ y ∧ x + y ≠ h) ∨ (x < 0 ∧ y < 0 ∧ x + y < -h) ∨ (x = -h ∧ y = 0) ∨ (x = 0 ∧ y = -h)
  | .sub => ((0 ≤ x ↔ 0 ≤ y) ∧ y ≤ x) ∨ (x < 0 ∧ 0 ≤ y ∧ x - y = -h)
  | .mul =>
    (0 ≤ x ∧ 0 ≤ y ∧ x * y ≠ h) ∨ (x < 0 ∧ y < 0 ∧ h ≤ x * y ∧ h ≠ 1) ∨ MixedProduct h x y ∨
      MixedProduct h y x
  | _ => True

/-- The operands of a signed shift that a shift of words is right on: an amount out of range,
and otherwise a number that is not negative and does not reach the sign bit, or one that is
shifted by nothing or out of the type. -/
def SignedShiftRight (kind : BinaryArithOpKind) (bits : Nat) (x y : Int) : Prop :=
  0 ≤ y ∧ y < bits →
    match kind with
    | .shl =>
      (0 ≤ x ∧ (x * 2 ^ y.toNat < 2 ^ (bits - 1) ∨ 2 ^ bits ≤ x * 2 ^ y.toNat)) ∨
        (x < 0 ∧ (y = 0 ∨ x * 2 ^ y.toNat < -2 ^ (bits - 1)))
    | .shr => 0 ≤ x ∨ y = 0
    | _ => True

section Right

variable {h a b x y : Int}

theorem wideRight_add (hpos : 0 < h) (hx : Encodes h a x) (hy : Encodes h b y) :
    WideRight h (a + b) (x + y) ↔ SignedRight .add h x y := by
  obtain ⟨hxlo, hxhi, rfl⟩ := hx
  obtain ⟨hylo, hyhi, rfl⟩ := hy
  unfold WideRight SignedRight
  dsimp only
  split_ifs <;> omega

theorem wideRight_sub (hpos : 0 < h) (hx : Encodes h a x) (hy : Encodes h b y) :
    WideRight h (a - b) (x - y) ↔ SignedRight .sub h x y := by
  obtain ⟨hxlo, hxhi, rfl⟩ := hx
  obtain ⟨hylo, hyhi, rfl⟩ := hy
  unfold WideRight SignedRight
  dsimp only
  split_ifs <;> omega

/-- One factor is negative: its word is `m + 2 * h`. -/
theorem wideRight_mixed {p m : Int} (hpos : 0 < h) (hp : 0 ≤ p) (hm : m < 0) (hmlo : -h ≤ m) :
    WideRight h (p * (m + 2 * h)) (p * m) ↔ MixedProduct h p m := by
  unfold WideRight MixedProduct
  rcases hp.eq_or_lt with rfl | hp'
  · rw [zero_mul, zero_mul]
    exact iff_of_true (.inr ⟨by omega, hpos, le_rfl, hpos.le, .inl rfl⟩) ⟨le_rfl, hm, .inl rfl⟩
  · have hneg : p * m < 0 := mul_neg_of_pos_of_neg hp' hm
    rcases (Int.add_one_le_iff.mpr hp').eq_or_lt with hone | htwo
    · obtain rfl : p = 1 := by omega
      rw [one_mul, one_mul]
      constructor <;> intro hcase <;> omega
    · have hlarge : 2 * h ≤ p * (m + 2 * h) :=
        calc 2 * h ≤ p * h := mul_le_mul_of_nonneg_right (by omega) hpos.le
          _ ≤ p * (m + 2 * h) := mul_le_mul_of_nonneg_left (by omega) hp
      have hne : p ≠ 0 := by omega
      have hne' : p ≠ 1 := by omega
      simp only [hne, hne', hp, hm, false_or, false_and, or_false, true_and]
      omega

theorem wideRight_mul (hpos : 0 < h) (hx : Encodes h a x) (hy : Encodes h b y) :
    WideRight h (a * b) (x * y) ↔ SignedRight .mul h x y := by
  obtain ⟨hxlo, hxhi, rfl⟩ := hx
  obtain ⟨hylo, hyhi, rfl⟩ := hy
  have hmixed : ∀ {p m : Int}, 0 ≤ p → ¬MixedProduct h m p := fun hp hmix => by
    have := hmix.2.1
    omega
  have hmixed' : ∀ {p m : Int}, p < 0 → ¬MixedProduct h p m := fun hp hmix => by
    have := hmix.1
    omega
  unfold SignedRight
  dsimp only
  split_ifs with hxneg hyneg hyneg
  · -- both words are at least `h`, and so is their product unless `h` is one
    have hprod : h * h ≤ (x + 2 * h) * (y + 2 * h) :=
      mul_le_mul (by omega) (by omega) hpos.le (by omega)
    have hexact : 0 < x * y := mul_pos_of_neg_of_neg hxneg hyneg
    simp only [hmixed' hxneg, hmixed' hyneg, or_false, WideRight]
    rcases (Int.add_one_le_iff.mpr hpos).eq_or_lt with hone | htwo
    · obtain rfl : h = 1 := by omega
      obtain rfl : x = -1 := by omega
      obtain rfl : y = -1 := by omega
      decide
    · have hlarge : 2 * h ≤ h * h := mul_le_mul_of_nonneg_right (by omega) hpos.le
      omega
  · rw [mul_comm (x + 2 * h), mul_comm x, wideRight_mixed hpos (not_lt.mp hyneg) hxneg hxlo]
    simp only [hxneg.not_ge, hyneg, hmixed' hxneg, false_and, and_false, false_or]
  · rw [wideRight_mixed hpos (not_lt.mp hxneg) hyneg hylo]
    simp only [hyneg.not_ge, hxneg, hmixed' hyneg, false_and, and_false, false_or, or_false]
  · have hx : 0 ≤ x := by omega
    have hy : 0 ≤ y := by omega
    have hprod : 0 ≤ x * y := mul_nonneg hx hy
    simp only [hmixed hx, hmixed hy, or_false, WideRight, true_or, and_true]
    omega

end Right

section Wide

variable {kind : BinaryArithOpKind} {bits condition a b : Nat}

theorem wordOp_emod {wide : Nat} (hwide : wide ≤ 64) (hb : b < 2 ^ 64) {z : Int}
    (hz : (kind = .add ∧ z = (a : Int) + b) ∨ (kind = .sub ∧ z = (a : Int) - b) ∨
      (kind = .mul ∧ z = (a : Int) * b)) :
    ∃ W, wordOp true wide a b kind = some W ∧ W < 2 ^ wide ∧
      (W : Int) % 2 ^ wide = z % 2 ^ wide := by
  rcases hz with ⟨rfl, rfl⟩ | ⟨rfl, rfl⟩ | ⟨rfl, rfl⟩
  · refine ⟨_, congrArg some (addInt_eq hwide), Nat.mod_lt _ (by positivity), ?_⟩
    push_cast
    exact Int.emod_emod_of_dvd _ dvd_rfl
  · refine ⟨_, congrArg some (subInt_eq hwide), Nat.mod_lt _ (by positivity), ?_⟩
    rw [← wrappingSub_emod hwide hb, Int.natCast_emod, Nat.cast_pow, Nat.cast_ofNat]
    exact Int.emod_emod_of_dvd _ dvd_rfl
  · refine ⟨_, congrArg some (mulInt_eq hwide), Nat.mod_lt _ (by positivity), ?_⟩
    push_cast
    exact Int.emod_emod_of_dvd _ dvd_rfl

/-- Under a condition that holds, the check of a signed operation is right on these operands. -/
theorem lowerSignedWide_exact_iff (hbits : 1 ≤ bits) (hwide : widerBits bits ≤ 64)
    (hkind : kind = .add ∨ kind = .sub ∨ kind = .mul) (hcondition : condition ≠ 0)
    (ha : a < 2 ^ bits) (hb : b < 2 ^ bits) :
    GuardExact kind true bits condition a b (lowerWideGuard kind true bits condition a b) ↔
      SignedRight kind (2 ^ (bits - 1)) (decodeSigned a bits) (decodeSigned b bits) := by
  obtain ⟨hdouble, hspare⟩ := widerBits_spec hbits hwide
  obtain ⟨h, hh⟩ : ∃ h : Int, h = 2 ^ (bits - 1) := ⟨_, rfl⟩
  obtain ⟨M, hM⟩ : ∃ M : Int, M = 2 ^ (widerBits bits - 1) := ⟨_, rfl⟩
  have hpos : 0 < h := hh ▸ by positivity
  have hx := decodeSigned_encodes hh hbits ha
  have hy := decodeSigned_encodes hh hbits hb
  have htwo : (2 : Int) ^ bits = 2 * h := hh ▸ two_pow_succ_pred hbits
  have hroom : 4 * h ≤ M := by
    have hpow : (2 : Int) ^ (bits - 1) * 2 ^ 2 ≤ 2 ^ (widerBits bits - 1) := by
      rw [← pow_add]
      exact pow_le_pow_right₀ (by norm_num) (by omega)
    omega
  have hsquare : 4 * (h * h) ≤ 2 * M := by
    have hpow : (2 : Int) ^ bits * 2 ^ bits ≤ 2 * 2 ^ (widerBits bits - 1) := by
      rw [← pow_add, ← pow_succ']
      exact pow_le_pow_right₀ (by norm_num) (by omega)
    rw [htwo, ← hM] at hpow
    linarith
  have ha' : (a : Int) < 2 * h := htwo ▸ (by exact_mod_cast ha)
  have hb' : (b : Int) < 2 * h := htwo ▸ (by exact_mod_cast hb)
  have hword : b < 2 ^ 64 := hb.trans_le (Nat.pow_le_pow_right (by norm_num) (by omega))
  have hiff : ∀ {n e : Int}, ((kind = .add ∧ n = (a : Int) + b) ∨
      (kind = .sub ∧ n = (a : Int) - b) ∨ (kind = .mul ∧ n = (a : Int) * b)) →
      -M ≤ n → n + h < 2 * M →
      exactOp kind true bits (intValue true bits a) (intValue true bits b)
        = (if InIntType true bits e then some e else none) →
      (GuardExact kind true bits condition a b (lowerWideGuard kind true bits condition a b) ↔
        WideRight h n e) := by
    intro n e hn hlo hhi hexact
    obtain ⟨W, hW, hlt, hmod⟩ := wordOp_emod hwide hword hn
    have hcode : lowerWideGuard kind true bits condition a b
        = emitGuardedBranch condition (wideOverflow true bits (widerBits bits) W) (some W) := by
      rw [lowerWideGuard, hW]
      rfl
    rw [hcode]
    exact signedWide_exact_iff hbits hh hM (by omega) hwide (by omega) hcondition hlt hmod hlo hhi
      hexact
  rw [← hh]
  rcases hkind with rfl | rfl | rfl
  · rw [hiff (.inl ⟨rfl, rfl⟩) (by omega) (by omega) rfl, ← wideRight_add hpos hx hy]
    rfl
  · rw [hiff (.inr (.inl ⟨rfl, rfl⟩)) (by omega) (by omega) rfl, ← wideRight_sub hpos hx hy]
    rfl
  · have hnonneg : (0 : Int) ≤ a * b := by positivity
    have hle : (a : Int) * b ≤ (2 * h - 1) * (2 * h - 1) :=
      mul_le_mul (by omega) (by omega) (by omega) (by omega)
    have hexpand : (2 * h - 1) * (2 * h - 1) = 4 * (h * h) - 4 * h + 1 := by ring
    have hbelow : (a : Int) * b + h < 2 * M := by linarith
    rw [hiff (.inr (.inr ⟨rfl, rfl⟩)) (by omega) hbelow rfl, ← wideRight_mul hpos hx hy]
    rfl

end Wide

/-! ## Shifts

Both operands of a shift are words of the type.  The amount is compared in a type of at least 64
bits, to which it is cast without its sign; that of a negative amount is still too large.  The
shifts themselves are those of words: the right one brings in zeros, and the left one is taken
for exact when the word comes back. -/

section Shifts

variable {kind : BinaryArithOpKind} {signed : Bool} {bits condition a b : Nat}

theorem decodeSigned_of_lt {wide n : Nat} (hwide : 1 ≤ wide) (hn : n < 2 ^ (wide - 1)) :
    decodeSigned n wide = n := by
  have hlt : n < 2 ^ wide := hn.trans (Nat.pow_lt_pow_right (by norm_num) (by omega))
  rw [decodeSigned, wrapUnsigned, Nat.mod_eq_of_lt hlt, if_pos hn]

/-- In the type of the comparison a word is read as in its own, or as it stands. -/
theorem decodeSigned_cmp (hword : bits ≤ 64) (hb : b < 2 ^ bits) :
    decodeSigned b 64 = decodeSigned b bits ∨ decodeSigned b 64 = b := by
  rcases hword.eq_or_lt with rfl | hlt
  · exact .inl rfl
  · have hle : 2 ^ bits ≤ 2 ^ (64 - 1) := Nat.pow_le_pow_right (by norm_num) (by omega)
    exact .inr (decodeSigned_of_lt (by norm_num) (hb.trans_le hle))

/-- The check of the amount is right. -/
theorem emitInvalidShiftCond_iff (hbits : 1 ≤ bits) (hword : bits ≤ 64) (hb : b < 2 ^ bits) :
    emitInvalidShiftCond signed bits b ≠ 0 ↔
      ¬(0 ≤ intValue signed bits b ∧ intValue signed bits b < bits) := by
  have hbound : constWord bits = bits := constWord_natCast (hword.trans_lt (by norm_num))
  unfold emitInvalidShiftCond
  rw [max_eq_right hword, hbound]
  cases signed with
  | false => simp [intValue, ltU64, lowerNot_ofBool]
  | true =>
    obtain ⟨h, hh⟩ : ∃ h : Int, h = 2 ^ (bits - 1) := ⟨_, rfl⟩
    obtain ⟨hlo, hhi, henc⟩ := decodeSigned_encodes hh hbits hb
    have hsmall : (bits : Int) ≤ h := by
      have hlt : bits - 1 < 2 ^ (bits - 1) := Nat.lt_two_pow_self
      have hle : bits ≤ 2 ^ (bits - 1) := by omega
      rw [hh]
      exact_mod_cast hle
    have hread : ∀ n : Nat, signExtend 64 n = decodeSigned n 64 :=
      fun n => signExtend_eq (by norm_num) le_rfl
    have hamount : decodeSigned bits 64 = bits :=
      decodeSigned_of_lt (by norm_num) (hword.trans_lt (by norm_num))
    have hzero : decodeSigned (constWord 0) 64 = 0 := rfl
    simp only [if_true, intValue, or_ne_zero, ltS64, lowerNot_ofBool, ofBool_ne_zero, hread,
      hamount, hzero, Bool.not_eq_true', decide_eq_true_eq, decide_eq_false_iff_not]
    rcases decodeSigned_cmp hword hb with hcmp | hcmp
    · rw [hcmp]
      omega
    · rw [hcmp]
      split_ifs at henc <;> omega

/-- The exact shift has no result for an amount that is out of range. -/
theorem exactOp_shift_none (hkind : kind = .shl ∨ kind = .shr) {x y : Int}
    (hy : ¬(0 ≤ y ∧ y < bits)) : exactOp kind signed bits x y = none := by
  rcases hkind with rfl | rfl <;> exact if_neg hy

theorem lowerShiftGuard_invalid (hkind : kind = .shl ∨ kind = .shr) (hcondition : condition ≠ 0)
    (hbits : 1 ≤ bits) (hword : bits ≤ 64) (hb : b < 2 ^ bits)
    (hy : ¬(0 ≤ intValue signed bits b ∧ intValue signed bits b < bits)) :
    GuardExact kind signed bits condition a b (lowerShiftGuard kind signed bits condition a b) := by
  unfold lowerShiftGuard
  rw [ifElse_pos ((emitInvalidShiftCond_iff hbits hword hb).mpr hy),
    emitGuardFailureDefault_eq_none.mpr hcondition]
  exact (guardExact_fails_iff hcondition).mpr (exactOp_shift_none hkind hy)

/-- An amount in range is its own word. -/
theorem intValue_amount (signed : Bool) (hbits : 1 ≤ bits) (hb : b < 2 ^ bits)
    (hy : 0 ≤ intValue signed bits b) : intValue signed bits b = b := by
  cases signed with
  | false => rfl
  | true =>
    obtain ⟨-, -, henc⟩ := decodeSigned_encodes rfl hbits hb
    have hnonneg : ¬decodeSigned b bits < 0 := not_lt.mpr hy
    rw [if_neg hnonneg] at henc
    exact henc.symm

theorem ushrU64_eq (hb : b < 64) : ushrU64 a b = a / 2 ^ b := by
  rw [ushrU64, Nat.mod_eq_of_lt hb, Nat.shiftRight_eq_div_pow]

/-- A word comes back from a shift to the left when nothing of it was shifted out. -/
theorem shl_back_iff :
    a * 2 ^ b % 2 ^ bits / 2 ^ b = a ↔ a * 2 ^ b < 2 ^ bits := by
  have hpos : 0 < 2 ^ b := by positivity
  constructor
  · intro hback
    by_contra hlarge
    have hlow : a * 2 ^ b % 2 ^ bits < 2 ^ bits := Nat.mod_lt _ (by positivity)
    have hlt : a * 2 ^ b % 2 ^ bits / 2 ^ b < a := by
      rw [Nat.div_lt_iff_lt_mul hpos]
      omega
    exact hlt.ne hback
  · intro hfit
    rw [Nat.mod_eq_of_lt hfit, Nat.mul_div_cancel _ hpos]

theorem emitCheckedShlOkPath_eq (hword : bits ≤ 64) (hb : b < 64) :
    emitCheckedShlOkPath signed bits condition a b
      = emitGuardedBranch condition (ofBool (2 ^ bits ≤ a * 2 ^ b))
        (some (a * 2 ^ b % 2 ^ bits)) := by
  have hback : decide (a * 2 ^ b % 2 ^ bits / 2 ^ b = a) = !decide (2 ^ bits ≤ a * 2 ^ b) := by
    simp only [← decide_not, Nat.not_le, shl_back_iff]
  simp only [emitCheckedShlOkPath, wordOp, shlU64_eq hword hb, ushrU64_eq hb, Nat.shiftLeft_eq,
    Option.bind_eq_bind, Option.bind_some, eqU64, lowerNot_ofBool, hback, Bool.not_not]
  rfl

/-- Under a false condition a shift ends. -/
theorem lowerShiftGuard_inactive (hkind : kind = .shl ∨ kind = .shr) :
    lowerShiftGuard kind signed bits 0 a b ≠ none := by
  unfold lowerShiftGuard ifElse
  split
  · simp [emitGuardFailureDefault]
  · rcases hkind with rfl | rfl
    · exact emitGuardedBranch_inactive _ _
    · simp [wordOp]

/-- The words a shift by an amount in range is run on. -/
theorem lowerShiftGuard_valid (signed : Bool) (condition a : Nat) (hbits : 1 ≤ bits)
    (hword : bits ≤ 64) (hb : b < 2 ^ bits)
    (hy : 0 ≤ intValue signed bits b ∧ intValue signed bits b < bits) :
    b < bits ∧
      lowerShiftGuard .shr signed bits condition a b = some (a / 2 ^ b) ∧
      lowerShiftGuard .shl signed bits condition a b
        = emitGuardedBranch condition (ofBool (2 ^ bits ≤ a * 2 ^ b))
          (some (a * 2 ^ b % 2 ^ bits)) := by
  have hamount : (b : Int) < bits := intValue_amount signed hbits hb hy.1 ▸ hy.2
  have hlt : b < bits := by exact_mod_cast hamount
  have hvalid : ¬emitInvalidShiftCond signed bits b ≠ 0 := fun h =>
    (emitInvalidShiftCond_iff hbits hword hb).mp h hy
  refine ⟨hlt, ?_, ?_⟩
  · exact (ifElse_neg hvalid _ _).trans (congrArg some (ushrU64_eq (by omega)))
  · exact (ifElse_neg hvalid _ _).trans (emitCheckedShlOkPath_eq hword (by omega))

/-- An unsigned shift is right on all operands. -/
theorem lowerUnsignedShift_exact (hkind : kind = .shl ∨ kind = .shr) (hbits : 1 ≤ bits)
    (hword : bits ≤ 64) (ha : a < 2 ^ bits) (hb : b < 2 ^ bits) :
    GuardExact kind false bits condition a b (lowerShiftGuard kind false bits condition a b) := by
  rcases Nat.eq_zero_or_pos condition with rfl | hpos
  · exact guardExact_inactive (lowerShiftGuard_inactive hkind)
  have hcondition : condition ≠ 0 := hpos.ne'
  by_cases hy : 0 ≤ intValue false bits b ∧ intValue false bits b < bits
  · obtain ⟨-, hshr, hshl⟩ := lowerShiftGuard_valid false condition a hbits hword hb hy
    rcases hkind with rfl | rfl
    · rw [hshl, emitGuardedBranch_exact_iff hcondition]
      have hexact : exactOp .shl false bits (intValue false bits a) (intValue false bits b)
          = if a * 2 ^ b < 2 ^ bits then some ((a * 2 ^ b : Nat) : Int) else none := by
        rw [← exactOp_unsigned_fit]
        simp only [exactOp, if_pos hy]
        simp [intValue]
      rw [hexact]
      by_cases hfit : a * 2 ^ b < 2 ^ bits
      · rw [if_neg (by simpa using hfit), if_pos hfit, Nat.mod_eq_of_lt hfit]
        exact ⟨_, rfl, (wordOf_natCast hfit).symm⟩
      · rw [if_pos (by simpa using hfit), if_neg hfit]
    · rw [hshr, guardExact_returns_iff hcondition]
      have hlt : a / 2 ^ b < 2 ^ bits := (Nat.div_le_self _ _).trans_lt ha
      have hexact : exactOp .shr false bits (intValue false bits a) (intValue false bits b)
          = some ((a / 2 ^ b : Nat) : Int) := by
        refine Eq.trans ?_ (exactOp_unsigned_fit.trans (if_pos hlt))
        simp only [exactOp, if_pos hy]
        simp [intValue]
      exact ⟨_, hexact, (wordOf_natCast hlt).symm⟩
  · exact lowerShiftGuard_invalid hkind hcondition hbits hword hb hy

/-- The word of a number shifted to the right is the shifted word of a number that is not
negative, and of a negative one that is not moved. -/
theorem shr_word_iff {h x : Int} (hbits : b < bits) (hh : (2 : Int) ^ bits = 2 * h)
    (hx : Encodes h a x) : a / 2 ^ b = wordOf bits (x / 2 ^ b) ↔ 0 ≤ x ∨ (b : Int) = 0 := by
  obtain ⟨hlo, hhi, henc⟩ := hx
  have hk : (0 : Int) < 2 ^ b := by positivity
  have hone : (1 : Int) ≤ 2 ^ b := hk
  have hzlo : -h ≤ x / 2 ^ b := Int.le_ediv_of_mul_le hk (by nlinarith)
  have hzhi : x / 2 ^ b < h := Int.ediv_lt_of_lt_mul hk (by nlinarith)
  have hcast : a / 2 ^ b = wordOf bits (x / 2 ^ b) ↔
      (a : Int) / 2 ^ b = (wordOf bits (x / 2 ^ b) : Int) := by norm_cast
  rw [hcast, wordOf_eq hh hzlo hzhi, henc]
  by_cases hneg : x < 0
  · have hz : x / 2 ^ b < 0 := Int.ediv_neg_of_neg_of_pos hneg hk
    have hsplit : (2 : Int) * h = 2 ^ (bits - b) * 2 ^ b := by
      rw [← hh, ← pow_add, Nat.sub_add_cancel hbits.le]
    have hdiv : (x + 2 * h) / 2 ^ b = x / 2 ^ b + 2 ^ (bits - b) := by
      rw [hsplit, Int.add_mul_ediv_right _ _ hk.ne']
    have hpow : (2 : Int) ^ (bits - b) = 2 ^ bits ↔ b = 0 := by
      rw [pow_right_inj₀ (by norm_num) (by norm_num)]
      omega
    rw [if_pos hneg, if_pos hz, hdiv, ← hh, add_right_inj, hpow]
    omega
  · have hnonneg : 0 ≤ x := not_lt.mp hneg
    have hz : ¬x / 2 ^ b < 0 := not_lt.mpr (Int.ediv_nonneg hnonneg hk.le)
    rw [if_neg hneg, if_neg hz]
    exact iff_of_true rfl (.inl hnonneg)

/-- A shift to the right brings in zeros, which is right on a number that is not negative. -/
theorem lowerSignedShr_exact_iff (hbits : 1 ≤ bits) (hword : bits ≤ 64) (hcondition : condition ≠ 0)
    (ha : a < 2 ^ bits) (hb : b < 2 ^ bits)
    (hy : 0 ≤ decodeSigned b bits ∧ decodeSigned b bits < bits) :
    GuardExact .shr true bits condition a b (lowerShiftGuard .shr true bits condition a b) ↔
      0 ≤ decodeSigned a bits ∨ decodeSigned b bits = 0 := by
  obtain ⟨hlt, hshr, -⟩ := lowerShiftGuard_valid true condition a hbits hword hb hy
  have hamount : decodeSigned b bits = b := intValue_amount true hbits hb hy.1
  obtain ⟨h, hh⟩ : ∃ h : Int, h = 2 ^ (bits - 1) := ⟨_, rfl⟩
  have htwo : (2 : Int) ^ bits = 2 * h := hh ▸ two_pow_succ_pred hbits
  have hx := decodeSigned_encodes hh hbits ha
  have hk : (1 : Int) ≤ 2 ^ b := one_le_pow₀ (by norm_num)
  have hexact : exactOp .shr true bits (intValue true bits a) (intValue true bits b)
      = some (decodeSigned a bits / 2 ^ b) := by
    have hin : InIntType true bits (decodeSigned a bits / 2 ^ b) := by
      have hlo : -h ≤ decodeSigned a bits / 2 ^ b :=
        Int.le_ediv_of_mul_le (by omega) (by nlinarith [hx.lo, hx.hi])
      have hhi : decodeSigned a bits / 2 ^ b < h :=
        Int.ediv_lt_of_lt_mul (by omega) (by nlinarith [hx.lo, hx.hi])
      rw [hh] at hlo hhi
      exact ⟨hlo, hhi⟩
    simp only [exactOp, intValue, if_true, if_pos hy]
    rw [hamount, Int.toNat_natCast, if_pos hin]
  rw [hshr, guardExact_returns_iff hcondition, hexact, hamount, ← shr_word_iff hlt htwo hx]
  simp

/-- The operands of a left shift whose check is right: a number that is not negative must not
reach the sign bit alone, and a negative one, which loses its highest bit, must leave the type. -/
theorem shl_word_iff {h x : Int} (hh : (2 : Int) ^ bits = 2 * h)
    (hx : Encodes h a x) :
    (if 2 ^ bits ≤ a * 2 ^ b then ¬(-h ≤ x * 2 ^ b ∧ x * 2 ^ b < h)
      else (-h ≤ x * 2 ^ b ∧ x * 2 ^ b < h) ∧ a * 2 ^ b % 2 ^ bits = wordOf bits (x * 2 ^ b)) ↔
      (0 ≤ x ∧ (x * 2 ^ b < h ∨ 2 * h ≤ x * 2 ^ b)) ∨
        (x < 0 ∧ ((b : Int) = 0 ∨ x * 2 ^ b < -h)) := by
  obtain ⟨hlo, hhi, henc⟩ := hx
  have hflag : 2 ^ bits ≤ a * 2 ^ b ↔ 2 * h ≤ (a : Int) * 2 ^ b := by
    rw [← hh]
    norm_cast
  by_cases hneg : x < 0
  · rw [if_pos hneg] at henc
    rcases Nat.eq_zero_or_pos b with rfl | hbpos
    · have hlt : (a : Int) < 2 * h := by omega
      have hword : a * 2 ^ 0 % 2 ^ bits = wordOf bits (x * 2 ^ 0) := by
        have hfit : a < 2 ^ bits := by
          rw [← hh] at hlt
          exact_mod_cast hlt
        rw [pow_zero, mul_one, Nat.mod_eq_of_lt hfit]
        have hcast : (a : Int) = (wordOf bits (x * 2 ^ 0) : Int) := by
          rw [pow_zero, mul_one, wordOf_eq hh hlo hhi, if_pos hneg, henc]
        exact_mod_cast hcast
      rw [if_neg (by rw [hflag]; omega)]
      exact iff_of_true ⟨by omega, hword⟩ (.inr ⟨hneg, .inl rfl⟩)
    · have hk : (2 : Int) ≤ 2 ^ b :=
        calc (2 : Int) = 2 ^ 1 := (pow_one 2).symm
          _ ≤ 2 ^ b := pow_le_pow_right₀ (by norm_num) hbpos
      have hlost : 2 * h ≤ (a : Int) * 2 ^ b := by nlinarith
      have hxneg : x * 2 ^ b < 0 := by nlinarith
      have hb0 : (b : Int) ≠ 0 := by exact_mod_cast hbpos.ne'
      rw [if_pos (hflag.mpr hlost)]
      simp only [hneg, hb0, false_or, true_and]
      omega
  · rw [if_neg hneg] at henc
    have hxnonneg : 0 ≤ x * 2 ^ b := mul_nonneg (not_lt.mp hneg) (by positivity)
    rw [henc] at hflag
    simp only [hflag]
    split
    · omega
    · next hkept =>
      have hfit : a * 2 ^ b < 2 ^ bits := Nat.lt_of_not_le fun hle => hkept (hflag.mp hle)
      have hword : x * 2 ^ b < h → a * 2 ^ b % 2 ^ bits = wordOf bits (x * 2 ^ b) := fun hlt => by
        have hcast : ((a * 2 ^ b : Nat) : Int) = (wordOf bits (x * 2 ^ b) : Int) := by
          rw [wordOf_eq hh (by omega) hlt, if_neg (by omega), ← henc]
          push_cast
          rfl
        rw [Nat.mod_eq_of_lt hfit]
        exact_mod_cast hcast
      constructor
      · rintro ⟨⟨-, hlt⟩, -⟩
        exact .inl ⟨not_lt.mp hneg, .inl hlt⟩
      · intro hright
        have hlt : x * 2 ^ b < h := by omega
        exact ⟨⟨by omega, hlt⟩, hword hlt⟩

/-- A shift to the left is taken for exact when the word comes back. -/
theorem lowerSignedShl_exact_iff (hbits : 1 ≤ bits) (hword : bits ≤ 64) (hcondition : condition ≠ 0)
    (ha : a < 2 ^ bits) (hb : b < 2 ^ bits)
    (hy : 0 ≤ decodeSigned b bits ∧ decodeSigned b bits < bits) :
    GuardExact .shl true bits condition a b (lowerShiftGuard .shl true bits condition a b) ↔
      (0 ≤ decodeSigned a bits ∧ (decodeSigned a bits * 2 ^ b < 2 ^ (bits - 1) ∨
        2 ^ bits ≤ decodeSigned a bits * 2 ^ b)) ∨
      (decodeSigned a bits < 0 ∧
        (decodeSigned b bits = 0 ∨ decodeSigned a bits * 2 ^ b < -2 ^ (bits - 1))) := by
  obtain ⟨hlt, -, hshl⟩ := lowerShiftGuard_valid true condition a hbits hword hb hy
  have hamount : decodeSigned b bits = b := intValue_amount true hbits hb hy.1
  obtain ⟨h, hh⟩ : ∃ h : Int, h = 2 ^ (bits - 1) := ⟨_, rfl⟩
  have htwo : (2 : Int) ^ bits = 2 * h := hh ▸ two_pow_succ_pred hbits
  have hin : ∀ z, InIntType true bits z ↔ -h ≤ z ∧ z < h := fun z => by rw [hh]; exact Iff.rfl
  have hexact : exactOp .shl true bits (intValue true bits a) (intValue true bits b)
      = if -h ≤ decodeSigned a bits * 2 ^ b ∧ decodeSigned a bits * 2 ^ b < h then
          some (decodeSigned a bits * 2 ^ b) else none := by
    simp only [exactOp, intValue, if_true, if_pos hy, hin]
    rw [hamount, Int.toNat_natCast]
  rw [hshl, emitGuardedBranch_exact_iff hcondition, hexact, hamount, ← hh, htwo,
    ← shl_word_iff htwo (decodeSigned_encodes hh hbits ha)]
  simp only [ofBool_ne_zero, decide_eq_true_eq]
  split_ifs with hlost hfit hfit <;> simp [hfit]

/-- A signed shift under a condition that holds. -/
theorem lowerSignedShift_exact_iff (hkind : kind = .shl ∨ kind = .shr) (hbits : 1 ≤ bits)
    (hword : bits ≤ 64) (hcondition : condition ≠ 0) (ha : a < 2 ^ bits) (hb : b < 2 ^ bits) :
    GuardExact kind true bits condition a b (lowerShiftGuard kind true bits condition a b) ↔
      SignedShiftRight kind bits (decodeSigned a bits) (decodeSigned b bits) := by
  by_cases hy : 0 ≤ decodeSigned b bits ∧ decodeSigned b bits < bits
  · have hamount : decodeSigned b bits = b := intValue_amount true hbits hb hy.1
    rcases hkind with rfl | rfl
    · rw [lowerSignedShl_exact_iff hbits hword hcondition ha hb hy]
      simp only [SignedShiftRight, hy, true_and, forall_const]
      rw [hamount, Int.toNat_natCast]
    · rw [lowerSignedShr_exact_iff hbits hword hcondition ha hb hy]
      simp [SignedShiftRight, hy]
  · exact iff_of_true (lowerShiftGuard_invalid hkind hcondition hbits hword hb hy)
      fun hvalid => absurd hvalid hy

end Shifts

/-! ## Guarded operations -/

section Guards

variable {kind : BinaryArithOpKind} {signed : Bool} {bits condition a b : Nat}

/-- Where guarded code is right: there is no code, the condition is false, or the check is
right on the operands. -/
def GuardRight (kind : BinaryArithOpKind) (signed : Bool) (bits condition : Nat) (x y : Int) :
    Prop :=
  Compiles kind signed bits = false ∨ condition = 0 ∨
    match kind, signed with
    | .add, true | .sub, true | .mul, true => SignedRight kind (2 ^ (bits - 1)) x y
    | .shl, true | .shr, true => SignedShiftRight kind bits x y
    | _, _ => True

theorem lowerSignedWide_inactive (hkind : kind = .add ∨ kind = .sub ∨ kind = .mul) :
    lowerWideGuard kind signed bits 0 a b ≠ none := by
  rcases hkind with rfl | rfl | rfl <;> exact emitGuardedBranch_inactive _ _

/-- The check of a signed operation, whatever the condition. -/
theorem lowerSignedGuard_exact_iff (hbits : 1 ≤ bits)
    (hkind : kind = .add ∨ kind = .sub ∨ kind = .mul) (hc : Compiles kind true bits = true)
    (ha : a < 2 ^ bits) (hb : b < 2 ^ bits) :
    GuardExact kind true bits condition a b (lowerWideGuard kind true bits condition a b) ↔
      condition = 0 ∨
        SignedRight kind (2 ^ (bits - 1)) (intValue true bits a) (intValue true bits b) := by
  have hwide : widerBits bits ≤ 64 := by
    rcases hkind with rfl | rfl | rfl <;> simp [Compiles, widestValue] at hc <;> exact hc.2
  rcases Nat.eq_zero_or_pos condition with rfl | hpos
  · exact iff_of_true (guardExact_inactive (lowerSignedWide_inactive hkind)) (.inl rfl)
  · rw [lowerSignedWide_exact_iff hbits hwide hkind hpos.ne' ha hb]
    simp [hpos.ne', intValue]

/-- The check of a signed shift, whatever the condition. -/
theorem lowerSignedShiftGuard_exact_iff (hkind : kind = .shl ∨ kind = .shr) (hbits : 1 ≤ bits)
    (hword : bits ≤ 64) (ha : a < 2 ^ bits) (hb : b < 2 ^ bits) :
    GuardExact kind true bits condition a b (lowerShiftGuard kind true bits condition a b) ↔
      condition = 0 ∨ SignedShiftRight kind bits (intValue true bits a) (intValue true bits b) := by
  rcases Nat.eq_zero_or_pos condition with rfl | hpos
  · exact iff_of_true (guardExact_inactive (lowerShiftGuard_inactive hkind)) (.inl rfl)
  · rw [lowerSignedShift_exact_iff hkind hbits hword hpos.ne' ha hb]
    simp [hpos.ne', intValue]

/-- Guarded code aborts and returns as it should exactly on the operands named. -/
theorem lowerGuard_exact (hbits : 1 ≤ bits) (ha : a < 2 ^ bits) (hb : b < 2 ^ bits) :
    (∀ run, lowerGuard kind signed bits = some run →
        GuardExact kind signed bits condition a b (run condition a b)) ↔
      GuardRight kind signed bits condition (intValue signed bits a) (intValue signed bits b) := by
  cases hc : Compiles kind signed bits with
  | false => simp [lowerGuard, GuardRight, hc]
  | true =>
    have hwidth : widestValue kind signed bits ≤ 64 := by
      simp only [Compiles, Bool.and_eq_true, decide_eq_true_eq] at hc
      exact hc.1
    simp only [lowerGuard, GuardRight, hc, if_true, reduceCtorEq, false_or]
    cases kind with
    | add =>
      cases signed with
      | true => simpa using lowerSignedGuard_exact_iff hbits (.inl rfl) hc ha hb
      | false =>
        have hword : bits ≤ 64 := hwidth
        simpa using lowerUnsignedAdd_exact hword ha hb
    | sub =>
      cases signed with
      | true => simpa using lowerSignedGuard_exact_iff hbits (.inr (.inl rfl)) hc ha hb
      | false =>
        have hword : bits ≤ 64 := hwidth
        simpa using lowerUnsignedSub_exact hword ha hb
    | mul =>
      cases signed with
      | true => simpa using lowerSignedGuard_exact_iff hbits (.inr (.inr rfl)) hc ha hb
      | false =>
        have hwide : widerBits bits ≤ 64 := (le_max_right _ _).trans hwidth
        simpa using lowerUnsignedMul_exact hbits hwide ha hb
    | shl =>
      have hword : bits ≤ 64 := (le_max_left _ _).trans hwidth
      cases signed with
      | true => simpa using lowerSignedShiftGuard_exact_iff (.inl rfl) hbits hword ha hb
      | false => simpa using lowerUnsignedShift_exact (.inl rfl) hbits hword ha hb
    | shr =>
      have hword : bits ≤ 64 := (le_max_left _ _).trans hwidth
      cases signed with
      | true => simpa using lowerSignedShiftGuard_exact_iff (.inr rfl) hbits hword ha hb
      | false => simpa using lowerUnsignedShift_exact (.inr rfl) hbits hword ha hb
    | div | mod =>
      cases signed with
      | true => simp [Compiles] at hc
      | false => simpa using lowerUnsignedDivmod_exact (by simp) ha
    | and | or | xor => simp

theorem lowerGuard_exact_byte :
    GuardExact .add true 8 1 100 27 (lowerWideGuard .add true 8 1 100 27) := by
  have hright : GuardRight .add true 8 1 (intValue true 8 100) (intValue true 8 27) :=
    .inr (.inr (.inl (by decide)))
  exact (lowerGuard_exact (by decide) (by decide) (by decide)).mpr hright _ rfl

/-- `-1 + 1` on signed bytes is zero, and the code takes it for `255 + 1` and aborts. -/
theorem lowerGuard_counterexample :
    ¬ ∀ run, lowerGuard .add true 8 = some run → GuardExact .add true 8 1 255 1 (run 1 255 1) := by
  intro h
  have hexact := (h _ rfl).aborts.mp rfl
  exact absurd hexact.2 (by decide)

end Guards

end Mavros.Lowering
