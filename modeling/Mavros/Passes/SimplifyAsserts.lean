/-
# `Mavros.Passes.SimplifyAsserts` — `compiler/passes/simplify_asserts.rs`

An assertion on a comparison becomes an assertion of the comparison, one on a conjunction
of bits two assertions, and an equation with a product of field type a constraint.  The
recursion over the definitions carries fuel; a value without a type is a panic.

## What is modelled

`emitAssert` and `emitAssertEq` are the two recursive functions of the pass and
`simplifyInstruction` what is pushed for one instruction.  The definition of a value is looked up
wherever in the function it stands, as the source does, and not only in the same block.

The second half is no part of the source.  It says what an assertion claims of its operands
(`Holds`), guards included, and when an execution is one that stops at a failing assertion or only
records it (`Asserting`); `Mavros.Passes.SimplifiedAsserts` is about these.
-/
import Mavros.Passes.Simplifier

namespace Mavros.SimplifyAsserts

open Hlssa

section Rules

variable (types : ValueId → Option TypeExpr) (defs : ValueId → Option OpCode)

/-- The factors of a value that is defined as a product of field type. -/
def fieldFactors (value : ValueId) : Option (Option (ValueId × ValueId)) :=
  match defs value with
  | some (.binaryArithOp .mul result a b) =>
    (types result).map fun t => if t.stripWitness = .field then some (a, b) else none
  | _ => some none

def emitAssertEq (lhs rhs : ValueId) : Option (List OpCode) :=
  (fieldFactors types defs lhs).bind fun
  | some (a, b) => some [.assertR1C a b rhs]
  | none => (fieldFactors types defs rhs).map fun
    | some (a, b) => [.assertR1C a b lhs]
    | none => [.assertCmp .eq lhs rhs]

def emitAssert : Nat → ValueId → Option (List OpCode)
  | 0, _ => none
  | fuel + 1, value =>
    match defs value with
    | some (.cmp .eq _ lhs rhs) => emitAssertEq types defs lhs rhs
    | some (.cmp .lt _ lhs rhs) => some [.assertCmp .lt lhs rhs]
    | some (.binaryArithOp .and result lhs rhs) =>
      (types result).bind fun t =>
        if t.stripWitness = .u 1 then
          (emitAssert fuel lhs).bind fun out => (emitAssert fuel rhs).map (out ++ ·)
        else some [.assert value]
    | _ => some [.assert value]

/-- What is pushed for one instruction. -/
def simplifyInstruction (fuel : Nat) : OpCode → Option (List OpCode)
  | .assert value => emitAssert types defs fuel value
  | .assertCmp .eq lhs rhs => emitAssertEq types defs lhs rhs
  | op => some [op]

def simplifyBlock (fuel : Nat) (block : Block) : Option Block :=
  (block.instructions.mapM (simplifyInstruction types defs fuel)).map fun ops =>
    { block with instructions := ops.flatten }

def runFunction (fuel : Nat) (f : Function) : Option Function :=
  (f.blocks.mapM fun p => (simplifyBlock types (Simplifier.definition f) fuel p.2).map
    (Prod.mk p.1)).map fun blocks => { f with blocks }

end Rules

/-- `do_run`, with the types of every function; `orders` holds the domination pre-orders. -/
def doRun (fuel : Nat) (orders : FunctionId → List BlockId) (ssa : SSA) : Option SSA :=
  (ssa.functions.mapM fun p : FunctionId × Function =>
    (p.2.types (Simplifier.signatures ssa.functions) ssa.constants (orders p.1)).bind fun types =>
      (runFunction types fuel p.2).map (Prod.mk p.1)).map fun functions => { ssa with functions }

/-! ## What an assertion says

In the terms of the source's three kinds of assertion.
-/

/-- `assert`, `assert_cmp` and `assert_r1c`, also under guards. -/
def IsAssertion : OpCode → Prop
  | .assert _ | .assertCmp _ _ _ | .assertR1C _ _ _ => True
  | .guard _ inner => IsAssertion inner
  | _ => False

section Executions

variable {A W : Type} (C : Completion A W)

/-- The assertion holds of its operands; under a guard that is off there is nothing to
hold. -/
def Holds : OpCode → List (Value A) → Prop
  | .assert _, [v] => v.raw = boolRaw true
  | .assertCmp kind _ _, [a, b] => cmpRaw kind a.raw b.raw = some (boolRaw true)
  | .assertR1C _ _ _, [a, b, c] => arithRaw C .mul a.raw b.raw = some c.raw ∧ c.raw.type = .field
  | .guard _ inner, condition :: xs => condition.raw = boolRaw true → Holds inner xs
  | _, _ => False

/-- An execution in which a failing assertion stops the run, or is only recorded. -/
structure Asserting (stops : Bool) : Prop where
  holds : ∀ op xs w, IsAssertion op → Holds C op xs → C.op op.shape xs w = (w, some [])
  fails : ∀ op xs w, IsAssertion op → ¬Holds C op xs →
    C.op op.shape xs w = (w, if stops then none else some [])

variable (K : Env (Value A))

/-- One assertion holds of what is bound where it stands. -/
def HoldsAt (op : OpCode) (env : Env (Value A)) : Prop :=
  ∃ xs, op.inputs.mapM (Env.read K env) = some xs ∧ Holds C op xs

/-- Every assertion among the instructions that is executed holds. -/
def AssertsHold : List OpCode → Env (Value A) → W → Prop
  | [], _, _ => True
  | op :: ops, env, w => (IsAssertion op → HoldsAt C K op env) ∧
      ∀ w' env', execInstruction (valueSem C) K op env w = (w', some env') →
        AssertsHold ops env' w'

/-- Every assertion that is executed in the block of a state holds. -/
def BlockAssertsHold (f : Function) (s : State (Value A) W) : Prop :=
  ∀ block, f.block s.block = some block → AssertsHold C K block.instructions s.env s.world

end Executions

end Mavros.SimplifyAsserts
