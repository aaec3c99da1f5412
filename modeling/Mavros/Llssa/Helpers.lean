/-
# `Mavros.Llssa.Helpers` — the forward lookup helpers of the second backend

The functions `hlssa_to_llssa` generates for the lookups of the forward pass, as the
instructions they emit compute them: `i32` and `i64` arithmetic wraps, a failed assertion
traps.  Pointers into the vectors are offsets, a cell is the four limbs of a field
element, and the table registry is a vector of slots behind a length and a capacity.

## What is modelled

* `LookupTableSpec` with the numbers of values, witnesses and rows that a table of each kind takes.
* `getOrInitForwardLookupTable`: a table that is known by its number, or the first use, on which a
  slot of the registry is filled and the values are stored.
* `emitForwardLookupKeyEntry` with the assertions it makes when the flag is set: the key and the
  flag are numbers of one limb.
* The three calls, by range, width and array type.

The number of a table is kept in a global, plus one, or in the word of an array, where a sentinel
stands for none.

## What it is not

Instructions are not modelled one by one, and neither is the second backend's code generation; what
a function computes is written down as its emitter emits it.
-/
import Mavros.VM.Forward

namespace Mavros.Llssa

/-! ## Instructions -/

/-- `emit_int_const(32, n)`, `truncate(_, 32)` and the casts of the host. -/
def i32 (n : Nat) : Nat := n % 2 ^ 32

def add32 (x y : Nat) : Nat := i32 (x + y)

def sub32 (x y : Nat) : Nat := i32 (x + (2 ^ 32 - y))

def mul32 (x y : Nat) : Nat := i32 (x * y)

/-- `assert`: a trap where it fails. -/
def trapUnless (ok : Prop) [Decidable ok] : Option Unit := if ok then some () else none

/-- `field_limbs`. -/
def fieldLimb (x : Fr) (i : Nat) : Nat := x.val / 2 ^ (64 * i) % 2 ^ 64

/-- The upper three limbs are zero. -/
def HighLimbsZero (x : Fr) : Prop := ∀ i ∈ [1, 2, 3], fieldLimb x i = 0

instance (x : Fr) : Decidable (HighLimbsZero x) :=
  inferInstanceAs (Decidable (∀ i ∈ [1, 2, 3], fieldLimb x i = 0))

/-- `compile_spread_bits` on `result_bits` bits: a shift that leaves the word is skipped. -/
def compileSpreadBits (activeBits resultBits value : Nat) : Nat :=
  [(32, 0x00000000FFFFFFFF00000000FFFFFFFF), (16, 0x0000FFFF0000FFFF0000FFFF0000FFFF),
    (8, 0x00FF00FF00FF00FF00FF00FF00FF00FF), (4, 0x0F0F0F0F0F0F0F0F0F0F0F0F0F0F0F0F),
    (2, 0x33333333333333333333333333333333), (1, 0x55555555555555555555555555555555)].foldl
    (fun x step =>
      if step.1 < resultBits then spreadStep resultBits step.1 (step.2 % 2 ^ resultBits) x else x)
    (value % 2 ^ resultBits &&& (2 ^ activeBits - 1))

/-! ## The state -/

/-- The type of an array's elements, as far as lookups take them. -/
inductive ElemType where
  | field
  | int (bits : Nat)
  | witness
deriving DecidableEq, Repr

/-- `LookupTableSpec`. -/
structure LookupTableSpec where
  length : Nat
  keyValue : Bool

namespace LookupTableSpec

def rangecheck8 : LookupTableSpec := ⟨256, false⟩

def spread (bits : Nat) : LookupTableSpec := ⟨2 ^ bits, true⟩

def array (length : Nat) : LookupTableSpec := ⟨length, true⟩

variable (spec : LookupTableSpec)

def numValues : Nat := if spec.keyValue then 1 else 0

def witnessSlots : Nat := if spec.keyValue then 2 * spec.length else spec.length

def constraintSlots : Nat := spec.witnessSlots + 1

def sumConstraintOffset : Nat := spec.witnessSlots

end LookupTableSpec

/-- `witgen_vm` with the vectors behind its pointers, the globals of the helpers and the
heap. -/
structure WitgenVm where
  outA : Nat → Cell
  outB : Nat → Cell
  outC : Nat → Cell
  witness : Nat → Cell
  multsCursor : Nat
  lookupsA : Nat
  lookupsB : Nat
  lookupsC : Nat
  tablesLen : Nat
  tablesCap : Nat
  tables : Nat → TableInfo
  currentCnstTablesOff : Nat
  currentWitTablesOff : Nat
  rngchk8TableIdx : Nat
  spreadTableIdx : Nat → Nat
  mem : Mem

/-- The state the host hands over. -/
def WitgenVm.init (wl : WitnessLayout) (cl : ConstraintsLayout) : WitgenVm :=
  { outA := fun _ => 0
    outB := fun _ => 0
    outC := fun _ => 0
    witness := fun _ => 0
    multsCursor := wl.multiplicitiesStart
    lookupsA := cl.lookupsDataStart
    lookupsB := cl.lookupsDataStart
    lookupsC := cl.lookupsDataStart
    tablesLen := 0
    tablesCap := i32 cl.tablesDataSize
    tables := fun _ => ⟨0, 0, 0, 0, 0, 0⟩
    currentCnstTablesOff := i32 cl.tablesDataStart
    currentWitTablesOff := i32 (wl.tablesDataStart - wl.challengesStart)
    rngchk8TableIdx := 0
    spreadTableIdx := fun _ => 0
    mem := { heap := [], out := fun _ _ => 0, freed := [] } }

/-! ## The tape -/

namespace WitgenVm

/-- `write_tape_entry_u64` of the first column. -/
def writeTapeA (n : Nat) (s : WitgenVm) : WitgenVm :=
  { s with outA := writeU64 s.outA s.lookupsA n, lookupsA := s.lookupsA + 1 }

/-- `write_tape_entry_u64` of the second column. -/
def writeTapeB (n : Nat) (s : WitgenVm) : WitgenVm :=
  { s with outB := writeU64 s.outB s.lookupsB n, lookupsB := s.lookupsB + 1 }

/-- `write_tape_entry_field`. -/
def writeTapeBField (x : Fr) (s : WitgenVm) : WitgenVm :=
  { s with outB := writeFr s.outB s.lookupsB x, lookupsB := s.lookupsB + 1 }

/-- `write_tape_entry_u64` of the third column. -/
def writeTapeC (n : Nat) (s : WitgenVm) : WitgenVm :=
  { s with outC := writeU64 s.outC s.lookupsC n, lookupsC := s.lookupsC + 1 }

/-! ## Tables

The registry has a capacity, and a slot past it traps.
-/

end WitgenVm

/-- `ForwardLookupTableState`: the global of a helper, or the word in an array. -/
inductive ForwardLookupTableState where
  | rngchk8
  | spread (bits : Nat)
  | array (arr : Ptr)

namespace ForwardLookupTableState

/-- The table, if it is allocated: a global holds its number plus one, an array its number
or the sentinel. -/
def load (s : WitgenVm) : ForwardLookupTableState → Option (Option Nat)
  | rngchk8 => some (if s.rngchk8TableIdx = 0 then none else some (sub32 s.rngchk8TableIdx 1))
  | spread bits =>
      some (if s.spreadTableIdx bits = 0 then none else some (sub32 (s.spreadTableIdx bits) 1))
  | array arr => do
      let c ← s.mem.heap.get? arr
      return c.val.tableId.map i32

def store (tableIdx : Nat) (s : WitgenVm) : ForwardLookupTableState → Option WitgenVm
  | rngchk8 => some { s with rngchk8TableIdx := add32 tableIdx 1 }
  | spread bits =>
      some { s with spreadTableIdx := Function.update s.spreadTableIdx bits (add32 tableIdx 1) }
  | array arr => do
      let mem ← s.mem.setTableId arr tableIdx
      return { s with mem := mem }

end ForwardLookupTableState

namespace WitgenVm

/-- What `get_or_init_forward_lookup_table` writes to a slot of the registry. -/
def newSlot (spec : LookupTableSpec) (s : WitgenVm) : TableInfo where
  multiplicitiesWit := s.multsCursor
  numIndices := 1
  numValues := spec.numValues
  length := i32 spec.length
  elemInversesWitnessSectionOffset := s.currentWitTablesOff
  elemInversesConstraintSectionOffset := s.currentCnstTablesOff

/-- The cursors move past the table, from where they were when it was claimed. -/
def advance (spec : LookupTableSpec) (s claimed : WitgenVm) : WitgenVm :=
  { s with
    multsCursor := claimed.multsCursor + i32 spec.length
    tablesLen := add32 claimed.tablesLen 1
    currentCnstTablesOff := add32 claimed.currentCnstTablesOff (i32 spec.constraintSlots)
    currentWitTablesOff := add32 claimed.currentWitTablesOff (i32 spec.witnessSlots) }

/-- The first use of `get_or_init_forward_lookup_table`: a slot of the registry is filled,
the values are dumped and the table is made known. -/
def initTable (state : ForwardLookupTableState) (spec : LookupTableSpec)
    (initTableValues : Nat → WitgenVm → Option WitgenVm) (claimed : WitgenVm) :
    Option (Nat × Nat × WitgenVm) := do
  let tableIdx := claimed.tablesLen
  trapUnless (tableIdx < claimed.tablesCap)
  let s := { claimed with tables := Function.update claimed.tables tableIdx (claimed.newSlot spec) }
  let s ← initTableValues claimed.currentCnstTablesOff s
  let s ← state.store tableIdx s
  return (claimed.multsCursor, tableIdx, s.advance spec claimed)

/-- `get_or_init_forward_lookup_table`: the base of the multiplicities and the table. -/
def getOrInitForwardLookupTable (state : ForwardLookupTableState) (spec : LookupTableSpec)
    (initTableValues : Nat → WitgenVm → Option WitgenVm) (s : WitgenVm) :
    Option (Nat × Nat × WitgenVm) := do
  match ← state.load s with
  | none => s.initTable state spec initTableValues
  | some tableIdx => some ((s.tables tableIdx).multiplicitiesWit, tableIdx, s)

/-- A value goes into the `x` slot of a row. -/
def storeTableValue (invCnstOff i : Nat) (x : Fr) (s : WitgenVm) : WitgenVm :=
  { s with outA := writeFr s.outA (add32 invCnstOff (mul32 (i32 i) 2)) x }

/-! ## Lookups -/

/-- The low limb of a multiplicity grows by the flag. -/
def addMultiplicity (slot flagU64 : Nat) (s : WitgenVm) : WitgenVm :=
  { s with witness := writeU64 s.witness slot (((s.witness slot).limb0 + flagU64) % 2 ^ 64) }

/-- `emit_forward_lookup_key_entry`. -/
def emitForwardLookupKeyEntry (multsBase : Nat) (keyField : Fr) (flagU64 : Nat)
    (spec : LookupTableSpec) (s : WitgenVm) : Option WitgenVm :=
  let key := fieldLimb keyField 0
  if flagU64 = 0 then some (s.writeTapeBField keyField)
  else do
    trapUnless (key < spec.length)
    trapUnless (HighLimbsZero keyField)
    return (s.addMultiplicity (multsBase + key) flagU64).writeTapeB key

/-- `emit_forward_key_value_lookup`. -/
def emitForwardKeyValueLookup (multsBase tableIdx : Nat) (keyField resultField : Fr)
    (flagU64 : Nat) (spec : LookupTableSpec) (s : WitgenVm) : Option WitgenVm := do
  let s := ((s.writeTapeA tableIdx).writeTapeBField resultField).writeTapeC 0
  let s ← (s.writeTapeA tableIdx).emitForwardLookupKeyEntry multsBase keyField flagU64 spec
  return s.writeTapeC flagU64

/-- `generate_rngchk_8_function`. -/
def rngchk8 (val flag : Fr) (s : WitgenVm) : Option WitgenVm := do
  trapUnless (HighLimbsZero flag)
  let flagU64 := fieldLimb flag 0
  let (multsBase, tableIdx, s) ←
    s.getOrInitForwardLookupTable .rngchk8 .rangecheck8 fun _ s => some s
  let s ← (s.writeTapeA tableIdx).emitForwardLookupKeyEntry multsBase val flagU64 .rangecheck8
  return s.writeTapeC flagU64

/-- The values of a spread table: the key is cut to the width, its spread has twice that. -/
def initSpreadValues (bits : Nat) (invCnstOff : Nat) (s : WitgenVm) : WitgenVm :=
  (List.range (2 ^ bits)).foldl (fun s i =>
    s.storeTableValue invCnstOff i (compileSpreadBits bits (2 * bits) (i % 2 ^ bits) : Nat)) s

/-- `generate_spread_lookup_function`; for other widths there is none. -/
def spreadLookup (bits : Nat) (key result flag : Fr) (s : WitgenVm) : Option WitgenVm := do
  trapUnless (1 ≤ bits ∧ bits ≤ 16)
  trapUnless (HighLimbsZero flag)
  let flagU64 := fieldLimb flag 0
  let (multsBase, tableIdx, s) ←
    s.getOrInitForwardLookupTable (.spread bits) (.spread bits) fun invCnstOff s =>
      some (s.initSpreadValues bits invCnstOff)
  s.emitForwardKeyValueLookup multsBase tableIdx key result flagU64 (.spread bits)

/-- `load_pure_lookup_elem_as_field`. -/
def loadPureLookupElemAsField (elemType : ElemType) (payload : Payload) (i : Nat) : Option Fr :=
  match elemType, payload with
  | .field, .primArray elems => do
      match ← elems[i]? with
      | .field x => some x
      | .word _ => none
  | .int bits, .primArray elems => do
      trapUnless (bits ≤ 64)
      match ← elems[i]? with
      | .word n => some (n % 2 ^ bits : Nat)
      | .field _ => none
  | _, _ => none

/-- The values of an array's table. -/
def initArrayValues (elemType : ElemType) (count : Nat) (arr : Ptr) (invCnstOff : Nat)
    (s : WitgenVm) : Option WitgenVm := do
  let c ← s.mem.heap.get? arr
  (List.range count).foldlM (fun s i => do
    let elem ← loadPureLookupElemAsField elemType c.val.payload i
    return s.storeTableValue invCnstOff i elem) s

/-- `generate_array_lookup_function` for arrays of a type. -/
def arrayLookup (elemType : ElemType) (count : Nat) (arr : Ptr) (key result flag : Fr)
    (s : WitgenVm) : Option WitgenVm := do
  trapUnless (HighLimbsZero flag)
  let flagU64 := fieldLimb flag 0
  let (multsBase, tableIdx, s) ←
    s.getOrInitForwardLookupTable (.array arr) (.array count) (initArrayValues elemType count arr)
  s.emitForwardKeyValueLookup multsBase tableIdx key result flagU64 (.array count)

end WitgenVm

end Mavros.Llssa
