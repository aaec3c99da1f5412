/-
# `Mavros.Lowering.Builder` — what the builder calls of a lowering emit

Values are field elements; a cast to another type keeps the element.  What is computed
from `value_of` results is a hint: it is computed by the prover alone, on numbers of the
type's width, and may be undefined.  Witnesses are written by the prover, products and
selections of witnesses are exact (the pass that introduces their witness adds the
constraint that defines it), and a guarded check binds where the condition is one.

## What is modelled

The calls that the lowerings of this directory have in common, as programs of `Mavros.Lib.Circuit`
over the scalar field: writing a witness after a hint, constraining a product, checking a range, and
the same under a guard or a flag.  An operand comes with its name, its value, whether it is a
witness, and the interval that the value-range analysis has for it.

## What is proved

The rules of the judgements for each call (`ensures_rangecheck`, `completes_writeWitness`,
`possible_writeWitness` and so on), and the facts about numbers behind values that every lowering
needs: an integer of a type is below the modulus, and a check of a width on an integer in the
field is a bound on the integer (`val_intCast_lt`).

A range check is taken as the bound it is meant to be.  That the gadget it is lowered to is exact is
`Mavros.Lowering.RangeCheck`.
-/
import Mavros.Field
import Mavros.Hlssa.Interval
import Mavros.Hlssa.Syntax
import Mavros.Lib.Circuit
import Mavros.Lib.Residue

namespace Mavros.Lowering

open Lib Lib.Circuit

/-- An operand of a lowering: its name, its value, whether it is a witness, and what the
value-range analysis says of it. -/
structure Operand where
  id : Hlssa.ValueId
  value : Fr
  isWitness : Bool
  range : Hlssa.IntInterval

/-- `two_pow`. -/
def twoPow (exponent : Nat) : Fr := 2 ^ exponent

/-! ## Hints

Integer arithmetic of the prover, with its own failures.
-/

/-- A cast to an integer type on the side of the prover: the low bits. -/
def castHint (bits : Nat) (x : Fr) : Fr := (x.val % 2 ^ bits : Nat)

/-- Unsigned division; by zero it stops the prover. -/
def divHint (x y : Fr) : Option Fr := if y = 0 then none else some (x.val / y.val : Nat)

/-- Wrapping arithmetic on integers of the width. -/
def wrapHint (bits : Nat) (z : Int) : Fr := (z % 2 ^ bits : Int)

/-! ## Checks -/

section Checks

variable {σ : Type}

def writeWitness (P : Prover Fr σ) (hint : Option Fr) : Circuit σ Fr := P.choose hint

def constrain (a b c : Fr) : Circuit σ Unit := require (a * b = c)

def rangecheck (bits : Nat) (x : Fr) : Circuit σ Unit := require (x.val < 2 ^ bits)

/-- `OpCode::Guard`: without effect where the condition is zero. -/
def guarded (guard : Option Fr) (m : Circuit σ Unit) : Circuit σ Unit :=
  if guard = some 0 then pure () else m

def guardedRangecheck (value : Fr) (bits : Nat) (guard : Option Fr) : Circuit σ Unit :=
  guarded guard (rangecheck bits value)

/-- A check under a flag: without effect where the flag is zero. -/
def flagged (flag : Fr) (m : Circuit σ Unit) : Circuit σ Unit :=
  if flag = 0 then pure () else m

/-- `Select`. -/
def select (cond x y : Fr) : Fr := if cond = 0 then y else x

def guardedOrZeroField (value : Fr) (guard : Option Fr) : Fr :=
  match guard with
  | some condition => select condition value 0
  | none => value

end Checks

/-! ## Runs -/

section Runs

variable {σ : Type} {guard : Option Fr}

theorem ensures_rangecheck {bits : Nat} {x : Fr} :
    Ensures (rangecheck bits x : Circuit σ Unit) fun _ => x.val < 2 ^ bits := .require

theorem ensures_constrain {a b c : Fr} :
    Ensures (constrain a b c : Circuit σ Unit) fun _ => a * b = c := .require

theorem ensures_honest_writeWitness (x : Fr) :
    Ensures (writeWitness .honest (some x)) fun y => y = x := .choose_honest rfl

theorem rangecheck_eq_some {bits : Nat} {x : Fr} {s : σ} {r : Unit × σ} :
    rangecheck bits x s = some r ↔ x.val < 2 ^ bits ∧ r = ((), s) := require_eq_some

theorem constrain_eq_some {a b c : Fr} {s : σ} {r : Unit × σ} :
    constrain a b c s = some r ↔ a * b = c ∧ r = ((), s) := require_eq_some

theorem rangecheck_run {bits : Nat} {x : Fr} (h : x.val < 2 ^ bits) (s : σ) :
    rangecheck bits x s = some ((), s) := require_run h s

theorem completes_writeWitness (x : Fr) :
    Gadget.Completes (fun _ P => writeWitness P (some x)) x := .choose

theorem possible_writeWitness (x : Fr) (hint : Option Fr) :
    Gadget.Possible (fun _ P => writeWitness P hint) x := .choose

theorem completes_rangecheck {bits : Nat} {x : Fr} (h : x.val < 2 ^ bits) :
    Gadget.Completes (F := Fr) (fun _ _ => rangecheck bits x) () := .require h

theorem completes_constrain {a b c : Fr} (h : a * b = c) :
    Gadget.Completes (F := Fr) (fun _ _ => constrain a b c) () := .require h

/-- The guard is on: there is none, or its condition is one. -/
def Active (guard : Option Fr) : Prop := guard = none ∨ guard = some 1

theorem Active.ne_zero (h : Active guard) : guard ≠ some 0 := by
  rcases h with rfl | rfl <;> simp

theorem guarded_of_active {m : Circuit σ Unit} (h : Active guard) : guarded guard m = m :=
  if_neg h.ne_zero

theorem guardedRangecheck_eq_some {value : Fr} {bits : Nat} (h : Active guard) {s : σ}
    {r : Unit × σ} :
    guardedRangecheck value bits guard s = some r ↔ value.val < 2 ^ bits ∧ r = ((), s) := by
  rw [guardedRangecheck, guarded_of_active h, rangecheck_eq_some]

theorem ensures_guardedRangecheck {value : Fr} {bits : Nat} (h : Active guard) :
    Ensures (guardedRangecheck value bits guard : Circuit σ Unit) fun _ =>
      value.val < 2 ^ bits := by
  rw [guardedRangecheck, guarded_of_active h]
  exact ensures_rangecheck

theorem guardedRangecheck_run {value : Fr} {bits : Nat} (h : value.val < 2 ^ bits) (s : σ) :
    guardedRangecheck value bits guard s = some ((), s) := by
  rw [guardedRangecheck, guarded]
  split
  · rfl
  · exact rangecheck_run h s

theorem completes_guardedRangecheck {value : Fr} {bits : Nat} (h : value.val < 2 ^ bits) :
    Gadget.Completes (F := Fr) (fun _ _ => guardedRangecheck value bits guard) () := by
  unfold guardedRangecheck guarded
  split
  · exact .pure
  · exact completes_rangecheck h

theorem flagged_of_ne_zero {flag : Fr} {m : Circuit σ Unit} (h : flag ≠ 0) : flagged flag m = m :=
  if_neg h

theorem completes_flagged {flag : Fr} {m : Gadget Fr Unit}
    (h : flag ≠ 0 → Gadget.Completes m ()) :
    Gadget.Completes (fun σ P => flagged flag (m σ P)) () := by
  unfold flagged
  split
  · exact .pure
  · next hflag => exact h hflag

@[simp]
theorem guardedOrZeroField_of_active {value : Fr} (h : Active guard) :
    guardedOrZeroField value guard = value := by
  rcases h with rfl | rfl <;> simp [guardedOrZeroField, select]

end Runs

/-! ## The numbers behind the values -/

section Numbers

/-- An integer of the type, as it is encoded. -/
def InType (bits : Nat) (x : Fr) : Prop := x.val < 2 ^ bits

theorem natCast_val (x : Fr) : (x.val : Fr) = x := ZMod.natCast_zmod_val x

theorem eq_zero_or_one_of_val_lt {x : Fr} (h : x.val < 2 ^ 1) : x = 0 ∨ x = 1 := by
  have hx := natCast_val x
  have hcases : x.val = 0 ∨ x.val = 1 := by omega
  rcases hcases with h0 | h1
  · left
    rw [← hx, h0, Nat.cast_zero]
  · right
    rw [← hx, h1, Nat.cast_one]

theorem val_byte {n : Nat} (hn : n < 256) : (n : Fr).val < 2 ^ 8 := by
  rwa [ZMod.val_natCast_of_lt (hn.trans (by norm_num [modulus]))]

theorem castHint_of_inType {bits : Nat} {x : Fr} (h : InType bits x) : castHint bits x = x := by
  rw [castHint, Nat.mod_eq_of_lt h, natCast_val]

/-- The check of a width on an integer in the field. -/
theorem val_intCast_lt {bits : Nat} {z : Int} (hlo : (2 ^ bits : Int) - modulus ≤ z)
    (hhi : z < modulus) : (z : Fr).val < 2 ^ bits ↔ 0 ≤ z ∧ z < 2 ^ bits := by
  have h := @val_intCast_lt_iff modulus _ (2 ^ bits) z (by exact_mod_cast hlo) hhi
  exact_mod_cast h

/-- A number with the interval of its type. -/
def fullOperand (bits id x : Nat) : Operand := ⟨id, (x : Nat), true, .closed 0 (2 ^ bits - 1)⟩

theorem fullOperand_val {bits x id : Nat} (hbits : bits ≤ 128) (hx : x < 2 ^ bits) :
    (fullOperand bits id x).value.val = x :=
  ZMod.val_natCast_of_lt (hx.trans (two_pow_lt_modulus (by omega)))

theorem fullOperand_inType {bits x id : Nat} (hbits : bits ≤ 128) (hx : x < 2 ^ bits) :
    InType bits (fullOperand bits id x).value := by
  rw [InType, fullOperand_val hbits hx]
  exact hx

theorem fullOperand_contains {bits x id : Nat} (hbits : bits ≤ 128) (hx : x < 2 ^ bits) :
    (fullOperand bits id x).range.Contains (fullOperand bits id x).value.val := by
  rw [fullOperand_val hbits hx]
  have hcast : ((x : Nat) : Int) < 2 ^ bits := by exact_mod_cast hx
  exact Hlssa.IntInterval.contains_closed (Int.natCast_nonneg x) (by omega)

end Numbers

end Mavros.Lowering
