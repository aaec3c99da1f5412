/-
# `Mavros.VM.DerivativeRun` — the derivative program

`run_ad` and the opcodes of the derivative program, and `R1CS::compute_derivatives`
and `check_ad_output`, which say what its outputs should be.

A variable of the derivative program is a pointer: a scalar is a gradient node, and an
array of scalars an array of nodes.  The two conversions of `vm/bytecode.rs` that make
nodes out of constants and of witnesses are allocations, and so are the sum and the
multiple.  A constraint takes the next coefficient and hands it to its operands.

## What is modelled

* `computeDerivatives` and `checkAdOutput` on the rows of a system: for every row its coefficient
  times each of its three combinations, added to the entries of the witnesses it names.
* `Instr.derivative`, one case for each instruction of `Mavros.Program`, over the state `Ad`, and
  `runAd` with the outputs it hands out.

## What it is not

The forward and the derivative program are two lowerings of one source.  That they come from one
`Program`, which the generator runs too, is part of the model, and so is which opcodes an
instruction becomes in either of them.
-/
import Mavros.VM.Derivative

namespace Mavros

open Lib

/-! ## Derivatives of a sealed system -/

/-- The combination of a row on one side. -/
def R1C.side (r : R1C) : Side → LC
  | .a => r.a
  | .b => r.b
  | .c => r.c

/-- Every term of a combination is added to the entry it names, after `f`. -/
def LC.scatter (f : Fr → Fr) (lc : LC) (res : Nat → Fr) : Nat → Fr :=
  lc.foldl (fun res t => addAt res t.1 (f t.2)) res

namespace R1CS

variable (r : R1CS) (coeffs : Nat → Fr)

/-- `R1CS::compute_derivatives`, on top of what `res_a`, `res_b` and `res_c` hold. -/
def computeDerivatives (res : Side → Nat → Fr) : Side → Nat → Fr :=
  r.constraints.zipIdx.foldl
    (fun res row side => (row.1.side side).scatter (fun c => c * coeffs row.2) (res side)) res

/-- What `check_ad_output` has left of `a`, `b` and `c` when it looks for wrong entries. -/
def adRemainder (out : Side → Nat → Fr) : Side → Nat → Fr :=
  r.constraints.zipIdx.foldl
    (fun rest row side => (row.1.side side).scatter (fun c => -(c * coeffs row.2)) (rest side)) out

/-- `R1CS::check_ad_output`. -/
def checkAdOutput (out : Side → Nat → Fr) : Bool :=
  (List.range r.witnessLayout.size).all fun i =>
    [Side.a, .b, .c].all fun side => r.adRemainder coeffs out side i = 0

end R1CS

/-! ## The state -/

/-- The variables of the frame, the rest of the machine, and `current_cnst_off`. -/
structure Ad where
  env : Env Ptr
  vm : AdVm
  currentCnstOff : Nat

namespace Ad

def newAd (coeffs : Nat → Fr) (wl : WitnessLayout) (cl : ConstraintsLayout) : Ad :=
  { env := [], vm := .newAd coeffs wl cl, currentCnstOff := 0 }

/-- The same machine with another memory. -/
def setMem (mem : Mem) (v : Ad) : Ad := { v with vm := { v.vm with mem := mem } }

def push (p : Ptr) (v : Ad) : Ad := { v with env := v.env.push p }

/-- A new block, bound to a new variable. -/
def pushAlloc (payload : Payload) (v : Ad) : Ad :=
  let (p, mem) := v.vm.mem.alloc payload
  (v.setMem mem).push p

def take (x : Var) (v : Ad) : Option (Ptr × Ad) := do
  let (p, env) ← v.env.take x
  return (p, { v with env := env })

/-! ## Opcodes

References taken over and handed out are counted by the opcode itself.
-/

/-- `pure_to_witness_ref`. -/
def pureToWitnessRef (c : Fr) (v : Ad) : Ad := v.pushAlloc (.adConst c)

/-- `fresh_witness`. -/
def freshWitness (v : Ad) : Ad :=
  let (p, vm) := v.vm.freshWitness
  { v with vm := vm }.push p

/-- `add_boxed`. -/
def addBoxed (a b : Ptr) (v : Ad) : Ad := v.pushAlloc (.adSum a b fun _ => 0)

/-- `mul_const`. -/
def mulConst (coeff : Fr) (value : Ptr) (v : Ad) : Ad :=
  v.pushAlloc (.adMulConst coeff value fun _ => 0)

/-- `next_d_coeff`. -/
def nextDCoeff (v : Ad) : Fr × Ad :=
  (v.vm.adCoeffs v.currentCnstOff, { v with currentCnstOff := v.currentCnstOff + 1 })

/-- A constraint as `witness_lowering` leaves it: `next_d_coeff`, then `bump_da`,
`bump_db` and `bump_dc`. -/
def constrain (a b c : Ptr) (v : Ad) : Option Ad := do
  let (coeff, v) := v.nextDCoeff
  let mem ← v.vm.mem.bumps [.node .a a coeff, .node .b b coeff, .node .c c coeff]
  return v.setMem mem

/-- `array_get`, and the reference count of the element; words are no variables. -/
def arrayGet (arr : Ptr) (index : Nat) (v : Ad) : Option Ad := do
  let c ← v.vm.mem.heap.get? arr
  match c.val.payload with
  | .boxedArray elems => do
      let p ← elems[index]?
      let mem ← v.vm.mem.incRc p 1
      return (v.setMem mem).push p
  | _ => none

/-- `array_set`. -/
def arraySet (arr : Ptr) (index : Nat) (source : PrimElem ⊕ Ptr) (v : Ad) : Option Ad := do
  let (p, mem) ← v.vm.mem.arraySet arr index source
  return (v.setMem mem).push p

/-- `inc_rc`. -/
def dup (x : Var) (v : Ad) : Option Ad := do
  let p ← v.env.read x
  let mem ← v.vm.mem.incRc p 1
  return (v.setMem mem).push p

/-- `dec_rc`. -/
def drop (x : Var) (v : Ad) : Option Ad := do
  let (p, v) ← v.take x
  let mem ← v.vm.mem.decRc p
  return v.setMem mem

end Ad

/-- One operation of the derivative program. -/
def Instr.derivative (v : Ad) : Instr → Option Ad
  | const c => some (v.pureToWitnessRef c)
  | writeWitness _ => some v.freshWitness
  | add x y => do
      let (a, v) ← v.take x
      let (b, v) ← v.take y
      return v.addBoxed a b
  | mulConst c x => do
      let (a, v) ← v.take x
      return v.mulConst c a
  | mkPure _ elems => some (v.pushAlloc (.primArray elems))
  | mkArray e xs => do
      let _ ← e.ty
      let (ps, env) ← v.env.takeAll xs
      return { v with env := env }.pushAlloc (.boxedArray ps)
  | arrayGet _ arr index => do
      let p ← v.env.read arr
      v.arrayGet p index
  | arraySet _ arr index x => do
      let (p, v) ← v.take arr
      let (q, v) ← v.take x
      v.arraySet p index (.inr q)
  | arraySetPure _ arr index elem => do
      let (p, v) ← v.take arr
      v.arraySet p index (.inl elem)
  | dup x => v.dup x
  | drop x => v.drop x
  | constrain a b c => do
      let a ← v.env.read a
      let b ← v.env.read b
      let c ← v.env.read c
      v.constrain a b c
  | rangecheck x flag => do
      let x ← v.env.read x
      let flag ← v.env.read flag
      let vm ← v.vm.drngchk8Field x flag
      return { v with vm := vm }
  | spreadLookup bits x result flag => do
      let x ← v.env.read x
      let result ← v.env.read result
      let flag ← v.env.read flag
      let vm ← v.vm.dspreadLookupField bits x result flag
      return { v with vm := vm }
  | arrayLookup _ arr index result flag => do
      let arr ← v.env.read arr
      let index ← v.env.read index
      let result ← v.env.read result
      let flag ← v.env.read flag
      let vm ← v.vm.darrayLookupField arr index result flag
      return { v with vm := vm }

/-- `dispatch` over the derivative program. -/
def Program.derivative : Program → Ad → Option Ad
  | [], v => some v
  | instr :: prog, v => (instr.derivative v).bind (Program.derivative prog)

/-- `run_ad`: `out_da`, `out_db` and `out_dc`. -/
def runAd (prog : Program) (coeffs : Nat → Fr) (wl : WitnessLayout) (cl : ConstraintsLayout) :
    Option (Side → Nat → Fr) := do
  let v ← prog.derivative (.newAd coeffs wl cl)
  return v.vm.mem.out

end Mavros
