/-
# `Mavros.R1CGen.Exec` — running a program symbolically

`R1CGen` as the `Context` of the symbolic executor.  The executor knows the type
of every value; a variable is bound to both, and a use at another type is a
program that does not exist (`none`), like a panic.  `mem_op` does nothing, so
that `dup` and `drop` only rename.

## What is modelled

`Instr.symbolic` runs one instruction of `Mavros.Program` on the generator, `Program.symbolic` a
whole program from `R1CGen::new`.  An instruction takes its operands from the environment, calls one
method of the generator and binds the result.

Writing a witness allots the next one and binds the linear combination that is this witness; what
its value will be is of no concern to a symbolic run.

The same programs are run by the virtual machine in `Mavros.VM.Forward` and
`Mavros.VM.DerivativeRun`.
-/
import Mavros.Program
import Mavros.R1CGen.Run

namespace Mavros

open Lib

/-- The variables, with their types, and the generator. -/
structure SymState where
  env : Env (Ty × Value)
  gen : R1CGen

namespace SymState

def new : SymState := { env := [], gen := R1CGen.new }

/-- A variable of type `t`. -/
def read (s : SymState) (t : Ty) (x : Var) : Option Value := do
  let (t', v) ← s.env.read x
  if t' = t then return v else none

/-- A variable of type `t`, used up. -/
def take (s : SymState) (t : Ty) (x : Var) : Option (Value × SymState) := do
  let ((t', v), env) ← s.env.take x
  if t' = t then return (v, { s with env := env }) else none

/-- Variables of type `t`, used up. -/
def takeAll (s : SymState) (t : Ty) (xs : List Var) : Option (List Value × SymState) := do
  let (tvs, env) ← s.env.takeAll xs
  if ∀ tv ∈ tvs, tv.1 = t then return (tvs.map Prod.snd, { s with env := env }) else none

def push (s : SymState) (t : Ty) (v : Value) (g : R1CGen) : SymState :=
  { env := s.env.push (t, v), gen := g }

end SymState

/-- A pure element is a constant. -/
def PrimElem.value (p : PrimElem) : Value := .const p.toFr

/-- One operation on `R1CGen`. -/
def Instr.symbolic (s : SymState) : Instr → Option SymState
  | const c => some (s.push .scalar (.const c) s.gen)
  | writeWitness _ => some (s.push .scalar s.gen.freshWitness.1 s.gen.freshWitness.2)
  | add x y => do
      let (a, s) ← s.take .scalar x
      let (b, s) ← s.take .scalar y
      let v ← a.add b
      return s.push .scalar v s.gen
  | mulConst c x => do
      let (a, s) ← s.take .scalar x
      let v ← (Value.const c).mul a
      return s.push .scalar v s.gen
  | mkPure e elems =>
      if ∀ p ∈ elems, p.elem = e then
        let (v, g) := s.gen.mkArray (elems.map PrimElem.value)
        some (s.push (.array e) v g)
      else none
  | mkArray e xs => do
      let t ← e.ty
      let (vs, s) ← s.takeAll t xs
      let (v, g) := s.gen.mkArray vs
      return s.push (.array e) v g
  | arrayGet e arr index => do
      let t ← e.ty
      let a ← s.read (.array e) arr
      let v ← R1CGen.arrayGet a index
      return s.push t v s.gen
  | arraySet e arr index x => do
      let t ← e.ty
      let (a, s) ← s.take (.array e) arr
      let (v, s) ← s.take t x
      let (v, g) ← s.gen.arraySet a index v
      return s.push (.array e) v g
  | arraySetPure e arr index elem =>
      if elem.elem = e then do
        let (a, s) ← s.take (.array e) arr
        let (v, g) ← s.gen.arraySet a index elem.value
        return s.push (.array e) v g
      else none
  | dup x => do
      let (t, v) ← s.env.read x
      return s.push t v s.gen
  | drop x => do
      let (_, env) ← s.env.take x
      return { s with env := env }
  | constrain a b c => do
      let a ← s.read .scalar a
      let b ← s.read .scalar b
      let c ← s.read .scalar c
      let g ← s.gen.constrain a b c
      return { s with gen := g }
  | rangecheck x flag => do
      let x ← s.read .scalar x
      let flag ← s.read .scalar flag
      let g ← s.gen.lookup (.rangecheck 8) [x] flag
      return { s with gen := g }
  | spreadLookup bits x result flag => do
      let x ← s.read .scalar x
      let result ← s.read .scalar result
      let flag ← s.read .scalar flag
      let g ← s.gen.lookup (.spread bits) [x, result] flag
      return { s with gen := g }
  | arrayLookup e arr index result flag => do
      let arr ← s.read (.array e) arr
      let index ← s.read .scalar index
      let result ← s.read .scalar result
      let flag ← s.read .scalar flag
      let g ← s.gen.lookup (.array arr) [index, result] flag
      return { s with gen := g }

/-- `R1CGen::run`. -/
def Program.symbolic : Program → SymState → Option SymState
  | [], s => some s
  | instr :: prog, s => (instr.symbolic s).bind (Program.symbolic prog)

end Mavros
