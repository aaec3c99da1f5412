/-
# `Mavros.VM.Forward` — phase 1 of witness generation

The opcodes of the forward program (`vm/bytecode.rs`) and `run_phase1`.  Every
vector is a function of the index, with raw cells as values; the pointers into
them are offsets.  `out_a`, `out_b` and `out_c` advance together, and so do the
three pointers of the lookup tape.

The one write whose place depends on data is the multiplicity counter: past the
end of the witness it is undefined, `none` here, like a panic.

## What is modelled

* `FwdVm`: the vectors, the offsets and the tables made so far, as `run_phase1` sets them up in the
  layouts of the sealed system.
* The lookup opcodes with the tables they make on first use: the rangecheck's, a spread table for
  each width, and one for each array, whose number is kept in the array's own block.
* `Instr.forward`, one case for each instruction of `Mavros.Program`, and the loop that turns the
  counters into elements at the end of `run_phase1`.

An entry of the lookup tape is written where the row of the lookup will be: the table's number, the
key and the flag, and the key is a number if it was counted and an element if it was not.

## What it is not

Frames, calls and jumps are not part of it; the program is the straight line of instructions that a
run executes.
-/
import Mavros.Program
import Mavros.Spread
import Mavros.VM.Cell

namespace Mavros

open Lib

/-- `TableInfo`; `multiplicities_wit` is an offset into the witness. -/
structure TableInfo where
  multiplicitiesWit : Nat
  numIndices : Nat
  numValues : Nat
  length : Nat
  elemInversesWitnessSectionOffset : Nat
  elemInversesConstraintSectionOffset : Nat
deriving DecidableEq, Repr

/-- What a variable of the forward program holds. -/
inductive Slot where
  | felt (x : Fr)
  | ptr (p : Ptr)
deriving DecidableEq, Repr

/-- A write of a field element. -/
def writeFr (v : Nat → Cell) (i : Nat) (x : Fr) : Nat → Cell :=
  Function.update v i (Cell.ofFr x)

/-- A write through `*mut u64`. -/
def writeU64 (v : Nat → Cell) (i n : Nat) : Nat → Cell :=
  Function.update v i ((v i).setLimb0 n)

/-- `into_bigint(x).0[0]`. -/
def lowU64 (x : Fr) : Nat := x.val % 2 ^ 64

/-- `VM` with `FwdArrays`. -/
structure FwdVm where
  outA : Nat → Cell
  outB : Nat → Cell
  outC : Nat → Cell
  witPreComm : Nat → Cell
  witPreCommSize : Nat
  outOff : Nat
  algebraicWitness : Nat
  multiplicitiesWitness : Nat
  lookupsOff : Nat
  elemInversesConstraintSectionOffset : Nat
  elemInversesWitnessSectionOffset : Nat
  tables : List TableInfo
  rgchk8 : Option Nat
  spreadTables : List (Option Nat)

/-- `VM::new_witgen` as `run_phase1` calls it: zeroed vectors, the sections where the
layouts put them. -/
def FwdVm.newWitgen (wl : WitnessLayout) (cl : ConstraintsLayout) : FwdVm :=
  { outA := fun _ => 0
    outB := fun _ => 0
    outC := fun _ => 0
    witPreComm := fun _ => 0
    witPreCommSize := wl.preCommitmentSize
    outOff := 0
    algebraicWitness := 0
    multiplicitiesWitness := wl.multiplicitiesStart
    lookupsOff := cl.lookupsDataStart
    elemInversesConstraintSectionOffset := cl.tablesDataStart
    elemInversesWitnessSectionOffset := wl.tablesDataStart - wl.challengesStart
    tables := []
    rgchk8 := none
    spreadTables := List.replicate 17 none }

/-! ## Opcodes on the vectors and tables

No variables yet: keys, values and flags are elements.
-/

namespace FwdVm

/-- The multiplicity counter of a key. -/
def bumpMultiplicity (table : TableInfo) (key flagU64 : Nat) (v : FwdVm) : Option FwdVm :=
  let i := table.multiplicitiesWit + key
  if i < v.witPreCommSize then
    some { v with witPreComm := writeU64 v.witPreComm i ((v.witPreComm i).limb0 + flagU64) }
  else none

/-- The tape entry of a key: the table, the key — as a number when it is counted —
and the flag. -/
def emitKey (tableIdx : Nat) (key : Fr) (flagU64 : Nat) (v : FwdVm) : Option FwdVm := do
  let table ← v.tables[tableIdx]?
  let v ← if flagU64 ≠ 0 then v.bumpMultiplicity table (lowU64 key) flagU64 else some v
  let o := v.lookupsOff
  return { v with
    outA := writeU64 v.outA o tableIdx
    outB := if flagU64 ≠ 0 then writeU64 v.outB o (lowU64 key) else writeFr v.outB o key
    outC := writeU64 v.outC o flagU64
    lookupsOff := o + 1 }

/-- The tape entry of a looked-up value. -/
def emitValue (tableIdx : Nat) (result : Fr) (v : FwdVm) : FwdVm :=
  let o := v.lookupsOff
  { v with
    outA := writeU64 v.outA o tableIdx
    outB := writeFr v.outB o result
    outC := writeU64 v.outC o 0
    lookupsOff := o + 1 }

/-- `forward_kv_lookup_emit`. -/
def forwardKvLookupEmit (tableIdx : Nat) (key result : Fr) (flagU64 : Nat) (v : FwdVm) :
    Option FwdVm :=
  (v.emitValue tableIdx result).emitKey tableIdx key flagU64

/-- A new table at the current offsets, which move past it. -/
def pushTable (numValues length : Nat) (v : FwdVm) : FwdVm :=
  { v with
    tables := v.tables ++
      [{ multiplicitiesWit := v.multiplicitiesWitness
         numIndices := 1
         numValues := numValues
         length := length
         elemInversesWitnessSectionOffset := v.elemInversesWitnessSectionOffset
         elemInversesConstraintSectionOffset := v.elemInversesConstraintSectionOffset }]
    multiplicitiesWitness := v.multiplicitiesWitness + length
    elemInversesConstraintSectionOffset :=
      v.elemInversesConstraintSectionOffset + ((numValues + 1) * length + 1)
    elemInversesWitnessSectionOffset :=
      v.elemInversesWitnessSectionOffset + (numValues + 1) * length }

/-- The values of a table, dumped into its `x` slots. -/
def dumpValues (values : List Fr) (v : FwdVm) : FwdVm :=
  { v with
    outA := values.zipIdx.foldl
      (fun out vi => writeFr out (v.elemInversesConstraintSectionOffset + 2 * vi.2) vi.1)
      v.outA }

/-- The 8-bit range table, made on first use. -/
def rngchk8Table (v : FwdVm) : Nat × FwdVm :=
  match v.rgchk8 with
  | some id => (id, v)
  | none => (v.tables.length, { v.pushTable 0 256 with rgchk8 := some v.tables.length })

/-- `rngchk_8_field`. -/
def rngchk8Field (val flag : Fr) (v : FwdVm) : Option FwdVm :=
  let (tableIdx, v) := v.rngchk8Table
  v.emitKey tableIdx val (lowU64 flag)

/-- The spread table of a width, made on first use; there is no room for widths from
17 on. -/
def spreadTable (bits : Nat) (v : FwdVm) : Option (Nat × FwdVm) := do
  match ← v.spreadTables[bits]? with
  | some id => some (id, v)
  | none =>
      let values := (List.range (2 ^ bits)).map fun i => (vmSpreadBits i : Fr)
      some (v.tables.length,
        { (v.dumpValues values).pushTable 1 (2 ^ bits) with
          spreadTables := v.spreadTables.set bits (some v.tables.length) })

/-- `spread_lookup_field`. -/
def spreadLookupField (bits : Nat) (val result flag : Fr) (v : FwdVm) : Option FwdVm := do
  let (tableIdx, v) ← v.spreadTable bits
  v.forwardKvLookupEmit tableIdx val result (lowU64 flag)

/-- `write_witness`. -/
def writeWitness (val : Fr) (v : FwdVm) : FwdVm :=
  { v with
    witPreComm := writeFr v.witPreComm v.algebraicWitness val
    algebraicWitness := v.algebraicWitness + 1 }

/-- `r1c`. -/
def r1c (a b c : Fr) (v : FwdVm) : FwdVm :=
  { v with
    outA := writeFr v.outA v.outOff a
    outB := writeFr v.outB v.outOff b
    outC := writeFr v.outC v.outOff c
    outOff := v.outOff + 1 }

end FwdVm

/-- The whole state: the variables of the frame, the heap, and the rest. -/
structure Fwd where
  env : Env Slot
  mem : Mem
  vm : FwdVm

namespace Fwd

def newWitgen (wl : WitnessLayout) (cl : ConstraintsLayout) : Fwd :=
  { env := [], mem := { heap := [], out := fun _ _ => 0, freed := [] }
    vm := FwdVm.newWitgen wl cl }

/-! ## Operands

A variable is an element or a pointer, and a pointer is a counted reference.
-/

def readFelt (v : Fwd) (x : Var) : Option Fr := do
  match ← v.env.read x with
  | .felt a => some a
  | .ptr _ => none

def readPtr (v : Fwd) (x : Var) : Option Ptr := do
  match ← v.env.read x with
  | .felt _ => none
  | .ptr p => some p

def takeFelt (v : Fwd) (x : Var) : Option (Fr × Fwd) := do
  let (s, env) ← v.env.take x
  match s with
  | .felt a => some (a, { v with env := env })
  | .ptr _ => none

def takePtr (v : Fwd) (x : Var) : Option (Ptr × Fwd) := do
  let (s, env) ← v.env.take x
  match s with
  | .felt _ => none
  | .ptr p => some (p, { v with env := env })

def push (v : Fwd) (s : Slot) : Fwd := { v with env := v.env.push s }

/-- The elements of a new array: scalars are stored in place, arrays by reference. -/
def newPayload : Elem → List Slot → Option Payload
  | .witness, slots => do
      let elems ← slots.mapM fun
        | .felt x => some (PrimElem.field x)
        | .ptr _ => none
      return .primArray elems
  | .array _, slots => do
      let elems ← slots.mapM fun
        | .ptr p => some p
        | .felt _ => none
      return .boxedArray elems
  | _, _ => none

/-! ## Arrays -/

/-- The leaves of an array as field elements; a pointer among them is not one. -/
def leafValues (leaves : List (PrimElem ⊕ Ptr)) : Option (List Fr) :=
  leaves.mapM fun
    | .inl p => some p.toFr
    | .inr _ => none

/-- The table of an array, made on its first lookup. -/
def arrayTable (arr : Ptr) (v : Fwd) : Option (Nat × Fwd) := do
  let c ← v.mem.heap.get? arr
  match c.val.tableId with
  | some id => some (id, v)
  | none => do
      let leaves ← forEachArrayLeaf v.mem.heap v.mem.heap.length arr
      let values ← leafValues leaves
      let id := v.vm.tables.length
      let mem ← v.mem.setTableId arr id
      return (id, { v with mem := mem, vm := (v.vm.dumpValues values).pushTable 1 values.length })

/-- `array_lookup_field`. -/
def arrayLookupField (arr : Ptr) (index result flag : Fr) (v : Fwd) : Option Fwd := do
  let (tableIdx, v) ← v.arrayTable arr
  let vm ← v.vm.forwardKvLookupEmit tableIdx index result (lowU64 flag)
  return { v with vm := vm }

/-- A new block, bound to a new variable. -/
def pushAlloc (payload : Payload) (v : Fwd) : Fwd :=
  let (p, mem) := v.mem.alloc payload
  { v with mem := mem }.push (.ptr p)

/-- `array_get`, and the reference count of an element that is an array. -/
def arrayGet (arr : Ptr) (index : Nat) (v : Fwd) : Option Fwd := do
  let c ← v.mem.heap.get? arr
  match c.val.payload with
  | .primArray elems => do
      match ← elems[index]? with
      | .field x => some (v.push (.felt x))
      | .word _ => none
  | .boxedArray elems => do
      let p ← elems[index]?
      let mem ← v.mem.incRc p 1
      return { v with mem := mem }.push (.ptr p)
  | _ => none

/-- `array_set` of an element stored in place or by reference. -/
def arraySet (arr : Ptr) (index : Nat) (source : PrimElem ⊕ Ptr) (v : Fwd) : Option Fwd := do
  let (p, mem) ← v.mem.arraySet arr index source
  return { v with mem := mem }.push (.ptr p)

/-- The operand of `array_set`. -/
def takeElem (e : Elem) (x : Var) (v : Fwd) : Option ((PrimElem ⊕ Ptr) × Fwd) :=
  match e with
  | .witness => do
      let (a, v) ← v.takeFelt x
      return (.inl (.field a), v)
  | .array _ => do
      let (p, v) ← v.takePtr x
      return (.inr p, v)
  | _ => none

/-- `inc_rc`; scalars are copied. -/
def dup (x : Var) (v : Fwd) : Option Fwd := do
  match ← v.env.read x with
  | .felt a => some (v.push (.felt a))
  | .ptr p => do
      let mem ← v.mem.incRc p 1
      return { v with mem := mem }.push (.ptr p)

/-- `dec_rc`; scalars are forgotten. -/
def drop (x : Var) (v : Fwd) : Option Fwd := do
  let (s, env) ← v.env.take x
  match s with
  | .felt _ => some { v with env := env }
  | .ptr p => do
      let mem ← v.mem.decRc p
      return { v with env := env, mem := mem }

end Fwd

/-- One opcode of the forward program. -/
def Instr.forward (v : Fwd) : Instr → Option Fwd
  | const c => some (v.push (.felt c))
  | writeWitness val => some ({ v with vm := v.vm.writeWitness val }.push (.felt val))
  | add x y => do
      let (a, v) ← v.takeFelt x
      let (b, v) ← v.takeFelt y
      return v.push (.felt (a + b))
  | mulConst c x => do
      let (a, v) ← v.takeFelt x
      return v.push (.felt (c * a))
  | mkPure _ elems => some (v.pushAlloc (.primArray elems))
  | mkArray e xs => do
      let (slots, env) ← v.env.takeAll xs
      let payload ← Fwd.newPayload e slots
      return { v with env := env }.pushAlloc payload
  | arrayGet _ arr index => do
      let p ← v.readPtr arr
      v.arrayGet p index
  | arraySet e arr index x => do
      let (p, v) ← v.takePtr arr
      let (source, v) ← v.takeElem e x
      v.arraySet p index source
  | arraySetPure _ arr index elem => do
      let (p, v) ← v.takePtr arr
      v.arraySet p index (.inl elem)
  | dup x => v.dup x
  | drop x => v.drop x
  | constrain a b c => do
      let a ← v.readFelt a
      let b ← v.readFelt b
      let c ← v.readFelt c
      return { v with vm := v.vm.r1c a b c }
  | rangecheck x flag => do
      let x ← v.readFelt x
      let flag ← v.readFelt flag
      let vm ← v.vm.rngchk8Field x flag
      return { v with vm := vm }
  | spreadLookup bits x result flag => do
      let x ← v.readFelt x
      let result ← v.readFelt result
      let flag ← v.readFelt flag
      let vm ← v.vm.spreadLookupField bits x result flag
      return { v with vm := vm }
  | arrayLookup _ arr index result flag => do
      let p ← v.readPtr arr
      let index ← v.readFelt index
      let result ← v.readFelt result
      let flag ← v.readFelt flag
      v.arrayLookupField p index result flag

/-- `dispatch` over the forward program. -/
def Program.forward : Program → Fwd → Option Fwd
  | [], v => some v
  | instr :: prog, v => (instr.forward v).bind (Program.forward prog)

/-- `fix_multiplicities_section`. -/
def fixMultiplicitiesSection (wit : Nat → Cell) (wl : WitnessLayout) : Nat → Cell :=
  fun i =>
    if wl.multiplicitiesStart ≤ i ∧ i < wl.multiplicitiesEnd then
      Cell.ofFr ((wit i).limb0 : Fr)
    else wit i

/-- `Phase1Result`. -/
structure Phase1Result where
  witPreComm : Nat → Cell
  outA : Nat → Cell
  outB : Nat → Cell
  outC : Nat → Cell
  tables : List TableInfo

/-- `run_phase1`. -/
def runPhase1 (prog : Program) (wl : WitnessLayout) (cl : ConstraintsLayout) :
    Option Phase1Result := do
  let v ← prog.forward (Fwd.newWitgen wl cl)
  return {
    witPreComm := fixMultiplicitiesSection v.vm.witPreComm wl
    outA := v.vm.outA
    outB := v.vm.outB
    outC := v.vm.outC
    tables := v.vm.tables }

end Mavros
