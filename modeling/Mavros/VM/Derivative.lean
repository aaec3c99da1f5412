/-
# `Mavros.VM.Derivative` — the lookups of the derivative pass

The opcodes `drngchk_8_field`, `dspread_lookup_field` and `darray_lookup_field`
(`vm/bytecode.rs`).  Each adds multiples of coefficients to the outputs, at the places of
the rows the lookup stands for, and to the nodes of its operands.  A table adds its own
rows when it is first used.

## What is modelled

Each opcode as the list of additions it makes (`Bump`), in the order it makes them, and the offsets
it moves.  An addition goes to an output or to a gradient node; `Mem.bumps` runs a list of them.
`AdVm` is the machine with the three running offsets, the tables made so far and the memory.

A table's additions are the same for both kinds of operands, so the rows of a key and those of a
key with its value are one definition each.

## What it is not

The rest of the derivative program, with its variables, is in `Mavros.VM.DerivativeRun`; nothing is
proved here.
-/
import Mavros.VM.Forward

namespace Mavros

/-! ## Additions -/

/-- `out_d? [i] += x`, or `bump_d?` of a node. -/
inductive Bump where
  | out (side : Side) (i : Nat) (x : Fr)
  | node (side : Side) (p : Ptr) (x : Fr)

def Bump.run : Bump → Mem → Option Mem
  | out side i x, m => some (m.addOut side i x)
  | node side p x, m => m.bump side p x

/-- Some additions, one after the other. -/
def Mem.bumps (bs : List Bump) (m : Mem) : Option Mem := bs.foldlM (fun m b => b.run m) m

/-! ## The state -/

/-- `VM` with `AdArrays`; the outputs are in the memory. -/
structure AdVm where
  mem : Mem
  adCoeffs : Nat → Fr
  currentWitOff : Nat
  logupWitChallengeOff : Nat
  currentWitMultiplicitiesOff : Nat
  currentWitTablesOff : Nat
  currentWitLookupsOff : Nat
  currentCnstTablesOff : Nat
  currentCnstLookupsOff : Nat
  tables : List TableInfo
  rgchk8 : Option Nat
  spreadTables : List (Option Nat)

namespace AdVm

/-- `VM::new_ad`. -/
def newAd (coeffs : Nat → Fr) (wl : WitnessLayout) (cl : ConstraintsLayout) : AdVm :=
  { mem := { heap := [], out := fun _ _ => 0, freed := [] }
    adCoeffs := coeffs
    currentWitOff := 0
    logupWitChallengeOff := wl.challengesStart
    currentWitMultiplicitiesOff := wl.multiplicitiesStart
    currentWitTablesOff := wl.tablesDataStart
    currentWitLookupsOff := wl.lookupsDataStart
    currentCnstTablesOff := cl.tablesDataStart
    currentCnstLookupsOff := cl.lookupsDataStart
    tables := []
    rgchk8 := none
    spreadTables := List.replicate 17 none }

/-- `fresh_witness`. -/
def freshWitness (v : AdVm) : Ptr × AdVm :=
  let (p, mem) := v.mem.alloc (.adWitness v.currentWitOff)
  (p, { v with mem := mem, currentWitOff := v.currentWitOff + 1 })

/-! ## Tables -/

/-- A new table at the current offsets, which move past it. -/
def pushTable (numValues length : Nat) (v : AdVm) : AdVm :=
  { v with
    tables := v.tables ++
      [{ multiplicitiesWit := 0
         numIndices := 1
         numValues := numValues
         length := length
         elemInversesWitnessSectionOffset := v.currentWitTablesOff
         elemInversesConstraintSectionOffset := v.currentCnstTablesOff }]
    currentWitMultiplicitiesOff := v.currentWitMultiplicitiesOff + length
    currentWitTablesOff := v.currentWitTablesOff + (numValues + 1) * length
    currentCnstTablesOff := v.currentCnstTablesOff + ((numValues + 1) * length + 1) }

/-- The row of a key of the range table, and its inverse in the sum. -/
def rngchk8Row (sumCoeff : Fr) (v : AdVm) (i : Nat) : List Bump :=
  let coeff := v.adCoeffs (v.currentCnstTablesOff + i)
  [.out .a (v.currentWitTablesOff + i) coeff,
    .out .b v.logupWitChallengeOff coeff,
    .out .b 0 (-(coeff * i)),
    .out .c (v.currentWitMultiplicitiesOff + i) coeff,
    .out .a (v.currentWitTablesOff + i) sumCoeff]

/-- The rows of a key and its value; `value` adds the value's multiple. -/
def keyValueRows (value : Fr → Bump) (v : AdVm) (i : Nat) : List Bump :=
  let xCoeff := v.adCoeffs (v.currentCnstTablesOff + 2 * i)
  let yCoeff := v.adCoeffs (v.currentCnstTablesOff + 2 * i + 1)
  [.out .a (v.logupWitChallengeOff + 1) xCoeff,
    value xCoeff,
    .out .c (v.currentWitTablesOff + 2 * i) (-xCoeff),
    .out .a (v.currentWitTablesOff + 2 * i + 1) yCoeff,
    .out .b v.logupWitChallengeOff yCoeff,
    .out .b 0 (-(yCoeff * i)),
    .out .b (v.currentWitTablesOff + 2 * i) (-yCoeff),
    .out .c (v.currentWitMultiplicitiesOff + i) yCoeff]

/-- The range table of `drngchk_8_field`. -/
def drngchk8Table (v : AdVm) : Option (Nat × AdVm) :=
  match v.rgchk8 with
  | some id => some (id, v)
  | none => do
      let sumCoeff := v.adCoeffs (v.currentCnstTablesOff + 256)
      let mem ← v.mem.bumps
        ((List.range 256).flatMap (v.rngchk8Row sumCoeff) ++ [.out .b 0 sumCoeff])
      return (v.tables.length, { v.pushTable 0 256 with mem := mem, rgchk8 := some v.tables.length })

/-- The spread table of `dspread_lookup_field`. -/
def dspreadTable (bits : Nat) (v : AdVm) : Option (Nat × AdVm) := do
  match ← v.spreadTables[bits]? with
  | some id => some (id, v)
  | none =>
      let sumCoeff := v.adCoeffs (v.currentCnstTablesOff + 2 * 2 ^ bits)
      let rows := (List.range (2 ^ bits)).flatMap fun i =>
        v.keyValueRows (fun xCoeff => .out .b 0 (xCoeff * vmSpreadBits i)) i
          ++ [.out .a (v.currentWitTablesOff + 2 * i + 1) sumCoeff]
      let mem ← v.mem.bumps (rows ++ [.out .b 0 sumCoeff])
      return (v.tables.length,
        { v.pushTable 1 (2 ^ bits) with
          mem := mem
          spreadTables := v.spreadTables.set bits (some v.tables.length) })

/-- `lookup_elem_bump_db`. -/
def lookupElemBumpDb (leaf : PrimElem ⊕ Ptr) (coeff : Fr) : Bump :=
  match leaf with
  | .inl (.word n) => .out .b 0 (coeff * n)
  | .inl (.field x) => .out .b 0 (coeff * x)
  | .inr p => .node .b p coeff

/-- The table of `darray_lookup_field`: the sum follows the rows. -/
def darrayTable (arr : Ptr) (v : AdVm) : Option (Nat × AdVm) := do
  let c ← v.mem.heap.get? arr
  match c.val.tableId with
  | some id => some (id, v)
  | none => do
      let leaves ← forEachArrayLeaf v.mem.heap v.mem.heap.length arr
      let rows := leaves.zipIdx.flatMap fun leaf =>
        v.keyValueRows (lookupElemBumpDb leaf.1) leaf.2
      let sumCoeff := v.adCoeffs (v.currentCnstTablesOff + 2 * leaves.length)
      let sums := (List.range leaves.length).map fun i =>
        .out .a (v.currentWitTablesOff + 2 * i + 1) sumCoeff
      let mem ← v.mem.bumps (rows ++ sums ++ [.out .b 0 sumCoeff])
      let mem ← mem.setTableId arr v.tables.length
      return (v.tables.length, { v.pushTable 1 leaves.length with mem := mem })

/-! ## Lookups -/

/-- `ad_kv_lookup_emit`. -/
def adKvLookupEmit (tableIdx : Nat) (key result flag : Ptr) (v : AdVm) : Option AdVm := do
  let table ← v.tables[tableIdx]?
  let xCoeff := v.adCoeffs v.currentCnstLookupsOff
  let xWitOff := v.currentWitLookupsOff
  let yCoeff := v.adCoeffs (v.currentCnstLookupsOff + 1)
  let yWitOff := v.currentWitLookupsOff + 1
  let invSumCoeff :=
    v.adCoeffs (table.elemInversesConstraintSectionOffset + 2 * table.length)
  let mem ← v.mem.bumps
    [.out .a (v.logupWitChallengeOff + 1) xCoeff,
      .node .b result xCoeff,
      .out .c xWitOff (-xCoeff),
      .out .a yWitOff yCoeff,
      .out .b v.logupWitChallengeOff yCoeff,
      .out .b xWitOff (-yCoeff),
      .node .b key (-yCoeff),
      .node .c flag yCoeff,
      .out .c yWitOff invSumCoeff]
  return { v with
    mem := mem
    currentWitLookupsOff := v.currentWitLookupsOff + 2
    currentCnstLookupsOff := v.currentCnstLookupsOff + 2 }

/-- The row of `drngchk_8_field`. -/
def drngchk8Emit (tableIdx : Nat) (val flag : Ptr) (v : AdVm) : Option AdVm := do
  let table ← v.tables[tableIdx]?
  let invCoeff := v.adCoeffs v.currentCnstLookupsOff
  let invSumCoeff := v.adCoeffs (table.elemInversesConstraintSectionOffset + 256)
  let mem ← v.mem.bumps
    [.out .c v.currentWitLookupsOff invSumCoeff,
      .out .a v.currentWitLookupsOff invCoeff,
      .out .b v.logupWitChallengeOff invCoeff,
      .node .b val (-invCoeff),
      .node .c flag invCoeff]
  return { v with
    mem := mem
    currentWitLookupsOff := v.currentWitLookupsOff + 1
    currentCnstLookupsOff := v.currentCnstLookupsOff + 1 }

/-- `drngchk_8_field`. -/
def drngchk8Field (val flag : Ptr) (v : AdVm) : Option AdVm := do
  let (tableIdx, v) ← v.drngchk8Table
  v.drngchk8Emit tableIdx val flag

/-- `dspread_lookup_field`. -/
def dspreadLookupField (bits : Nat) (val result flag : Ptr) (v : AdVm) : Option AdVm := do
  let (tableIdx, v) ← v.dspreadTable bits
  v.adKvLookupEmit tableIdx val result flag

/-- `darray_lookup_field`. -/
def darrayLookupField (arr index result flag : Ptr) (v : AdVm) : Option AdVm := do
  let (tableIdx, v) ← v.darrayTable arr
  v.adKvLookupEmit tableIdx index result flag

end AdVm

end Mavros
