/-
# `Mavros.Program` — the operations that reach the constraint system

By the time constraints are generated a program has no control flow left that a
witness decides: what the generator and the two machines see is one sequence of
operations.  An instruction names the variables it uses; the ones it consumes are
used up, in step with the reference counts: `dup` is `inc_rc`, `drop` is
`dec_rc`, and an operand that ends up inside a new value is handed over.

A scalar is an element of type `WitnessOf Field`, whether it is constant or not.
The values of fresh witnesses come from code the generator does not see; they are
part of the sequence.

## What is modelled

The operations with an effect on what the three sides keep: constants and witnesses, sums and
multiples, arrays of words, elements or arrays, rows, and lookups of the three kinds, each under its
flag.  `Instr.symbolic`, `Instr.forward` and `Instr.derivative` are what they do on each side.

## What it is not

It is no intermediate representation of the compiler.  A run of a program in one has such a
sequence, and what is proved of all sequences holds of it; straight-line scalar code, whose values
do not reach the constraint system, is compared in `Mavros.Codegen.Evaluators`.
-/
import Mavros.Lib.Env
import Mavros.VM.Heap

namespace Mavros

/-- What an array holds. -/
inductive Elem where
  | word
  | field
  | witness
  | array (e : Elem)
deriving DecidableEq, Repr

/-- The types of variables. -/
inductive Ty where
  | scalar
  | array (e : Elem)
deriving DecidableEq, Repr

/-- The type of an element that is a variable of its own. -/
def Elem.ty : Elem → Option Ty
  | witness => some .scalar
  | array e => some (.array e)
  | _ => none

/-- The type of an element stored in place. -/
def PrimElem.elem : PrimElem → Elem
  | word _ => .word
  | field _ => .field

/-- `read_pure_elem_as_field`. -/
def PrimElem.toFr : PrimElem → Fr
  | word n => n
  | field x => x

abbrev Var := Nat

inductive Instr where
  | const (c : Fr)
  | writeWitness (val : Fr)
  | add (x y : Var)
  | mulConst (c : Fr) (x : Var)
  | mkPure (e : Elem) (elems : List PrimElem)
  | mkArray (e : Elem) (xs : List Var)
  | arrayGet (e : Elem) (arr : Var) (index : Nat)
  | arraySet (e : Elem) (arr : Var) (index : Nat) (x : Var)
  | arraySetPure (e : Elem) (arr : Var) (index : Nat) (elem : PrimElem)
  | dup (x : Var)
  | drop (x : Var)
  | constrain (a b c : Var)
  | rangecheck (x flag : Var)
  | spreadLookup (bits : Nat) (x result flag : Var)
  | arrayLookup (e : Elem) (arr index result flag : Var)
deriving DecidableEq, Repr

abbrev Program := List Instr

/-- The entry point writes the constant one to witness 0 before anything else. -/
def Program.entry (prog : Program) : Program := .writeWitness 1 :: prog

/-- The values written to the witness, in order. -/
def Program.witnessValues (prog : Program) : List Fr :=
  prog.filterMap fun
    | .writeWitness val => some val
    | _ => none

end Mavros
