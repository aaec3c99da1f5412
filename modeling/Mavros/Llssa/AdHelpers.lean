/-
# `Mavros.Llssa.AdHelpers` — the lookup helpers of the derivative pass

The functions `hlssa_to_llssa` generates for the lookups of the derivative pass.  There is
no registry: a table is known by the row it starts at, kept plus one in a global or in the
array.  Coefficients are read by row, and the row of a lookup is found from its witness.

## What is modelled

* The bump function, which goes by the tag of the node, and the writes of constants and of
  witnesses; a body is the list of its writes, in the order in which they are emitted.
* The globals of the helpers and `ad_vm`, with the six cursors of the sections.
* For each kind of lookup the function that makes its table on first use and the call.  The spread
  tables are one function for each width that has a helper, and the arrays one for each type.

Offsets are `i32`; arithmetic on them wraps at `2 ^ 32`.

## What it is not

The functions are given as what the emitted instructions compute, and not as instructions.
-/
import Mavros.Llssa.Helpers
import Mavros.VM.Derivative

namespace Mavros.Llssa

/-! ## Writes

Additions to the outputs, directly or through a node.
-/

/-- `ad_write_const`, `ad_write_witness`, or the call of a bump function. -/
inductive AdWrite where
  | const (matrix : Side) (value sensitivity : Fr)
  | witness (matrix : Side) (index : Nat) (sensitivity : Fr)
  | bump (matrix : Side) (node : Ptr) (amount : Fr)

/-- `generate_ad_bump_function`: by the tag of the node. -/
def adBump (matrix : Side) (node : Ptr) (amount : Fr) (m : Mem) : Option Mem := do
  let c ← m.heap.get? node
  match c.val.payload with
  | .adConst value => some (m.addOut matrix 0 (value * amount))
  | .adWitness index => some (m.addOut matrix (i32 index) amount)
  | .adSum a b d =>
      some (m.setPayload node c (.adSum a b (Function.update d matrix (d matrix + amount))))
  | .adMulConst coeff value d =>
      some (m.setPayload node c
        (.adMulConst coeff value (Function.update d matrix (d matrix + amount))))
  | _ => none

def AdWrite.run : AdWrite → Mem → Option Mem
  | const matrix value sensitivity, m => some (m.addOut matrix 0 (value * sensitivity))
  | witness matrix index sensitivity, m => some (m.addOut matrix index sensitivity)
  | bump matrix node amount, m => adBump matrix node amount m

/-- Some writes, one after the other. -/
def adWrites (ws : List AdWrite) (m : Mem) : Option Mem := ws.foldlM (fun m w => w.run m) m

/-- `field_neg_via_sub`. -/
def fieldNegViaSub (x : Fr) : Fr := 0 - x

/-! ## The state

What the host has set up, and where the cursors go.
-/

/-- `ad_vm` with the coefficients and outputs behind its pointers, the globals of the
helpers and the heap. -/
structure AdVmLl where
  mem : Mem
  coeffs : Nat → Fr
  currentWitOff : Nat
  currentLookupWitOff : Nat
  currentCnstTablesOff : Nat
  currentWitTablesOff : Nat
  currentWitMultiplicitiesOff : Nat
  drngchk8InvCnstOff : Nat
  dspreadInvCnstOff : Nat → Nat

namespace AdVmLl

/-- The state the host hands over. -/
def init (coeffs : Nat → Fr) (wl : WitnessLayout) (cl : ConstraintsLayout) : AdVmLl :=
  { mem := { heap := [], out := fun _ _ => 0, freed := [] }
    coeffs := coeffs
    currentWitOff := 0
    currentLookupWitOff := i32 wl.lookupsDataStart
    currentCnstTablesOff := i32 cl.tablesDataStart
    currentWitTablesOff := i32 wl.tablesDataStart
    currentWitMultiplicitiesOff := i32 wl.multiplicitiesStart
    drngchk8InvCnstOff := 0
    dspreadInvCnstOff := fun _ => 0 }

/-- `lower_ad_fresh_witness`. -/
def freshWitness (s : AdVmLl) : Ptr × AdVmLl :=
  let (p, mem) := s.mem.alloc (.adWitness s.currentWitOff)
  (p, { s with mem := mem, currentWitOff := add32 s.currentWitOff 1 })

def write (ws : List AdWrite) (s : AdVmLl) : Option AdVmLl := do
  let mem ← adWrites ws s.mem
  return { s with mem := mem }

/-- `ad_next_lookup_wit_off`. -/
def nextLookupWitOff (s : AdVmLl) : Nat × AdVmLl :=
  (s.currentLookupWitOff, { s with currentLookupWitOff := add32 s.currentLookupWitOff 1 })

/-- `claim_ad_lookup_table_region`. -/
def claimAdLookupTableRegion (lookup : LookupTableSpec) (s : AdVmLl) : AdVmLl :=
  { s with
    currentCnstTablesOff := add32 s.currentCnstTablesOff (i32 lookup.constraintSlots)
    currentWitTablesOff := add32 s.currentWitTablesOff (i32 lookup.witnessSlots)
    currentWitMultiplicitiesOff := add32 s.currentWitMultiplicitiesOff (i32 lookup.length) }

/-! ## Tables -/

/-- A turn of the loop of `emit_rngchk_8_ad_init_body`; the offsets are those the region was
claimed at. -/
def rngchk8AdRow (wl : WitnessLayout) (invSumCoeff : Fr) (claimed : AdVmLl) (i : Nat) :
    List AdWrite :=
  let logupChallenge := i32 wl.challengesStart
  let coeff := claimed.coeffs (add32 claimed.currentCnstTablesOff (i32 i))
  let daIdx := add32 claimed.currentWitTablesOff (i32 i)
  let dcIdx := add32 claimed.currentWitMultiplicitiesOff (i32 i)
  [.witness .a daIdx coeff,
    .witness .b logupChallenge coeff,
    .const .b (0 - i) coeff,
    .witness .c dcIdx coeff,
    .witness .a daIdx invSumCoeff]

/-- A turn of the loop of `emit_key_value_ad_table_init_body`; `emitValueDb` adds the
value's multiple. -/
def keyValueAdRow (wl : WitnessLayout) (invSumCoeff : Fr) (emitValueDb : Fr → AdWrite)
    (claimed : AdVmLl) (i : Nat) : List AdWrite :=
  let logupAlpha := i32 wl.challengesStart
  let logupBeta := i32 (wl.challengesStart + 1)
  let twiceI := mul32 (i32 i) 2
  let xCnstIdx := add32 claimed.currentCnstTablesOff twiceI
  let yCnstIdx := add32 xCnstIdx 1
  let xCoeff := claimed.coeffs xCnstIdx
  let yCoeff := claimed.coeffs yCnstIdx
  let xWitIdx := add32 claimed.currentWitTablesOff twiceI
  let yWitIdx := add32 xWitIdx 1
  let multsIdx := add32 claimed.currentWitMultiplicitiesOff (i32 i)
  [.witness .a logupBeta xCoeff,
    emitValueDb xCoeff,
    .witness .c xWitIdx (fieldNegViaSub xCoeff),
    .witness .a yWitIdx yCoeff,
    .witness .b logupAlpha yCoeff,
    .const .b (fieldNegViaSub i) yCoeff,
    .witness .b xWitIdx (fieldNegViaSub yCoeff),
    .witness .c multsIdx yCoeff,
    .witness .a yWitIdx invSumCoeff]

/-- The coefficient of the sum of a table. -/
def invSumCoeff (invCnstOff : Nat) (lookup : LookupTableSpec) (s : AdVmLl) : Fr :=
  s.coeffs (add32 invCnstOff (i32 lookup.sumConstraintOffset))

/-- `emit_rngchk_8_ad_init_body`. -/
def rngchk8AdInit (wl : WitnessLayout) (claimed : AdVmLl) : Option AdVmLl :=
  let invCnstOff := claimed.currentCnstTablesOff
  let s := claimed.claimAdLookupTableRegion .rangecheck8
  let s := { s with drngchk8InvCnstOff := add32 invCnstOff 1 }
  let sumCoeff := s.coeffs (add32 invCnstOff 256)
  s.write ((List.range 256).flatMap (claimed.rngchk8AdRow wl sumCoeff) ++ [.const .b 1 sumCoeff])

/-- `emit_spread_ad_init_body`. -/
def spreadAdInit (wl : WitnessLayout) (bits : Nat) (claimed : AdVmLl) : Option AdVmLl :=
  let invCnstOff := claimed.currentCnstTablesOff
  let s := claimed.claimAdLookupTableRegion (.spread bits)
  let s :=
    { s with dspreadInvCnstOff := Function.update s.dspreadInvCnstOff bits (add32 invCnstOff 1) }
  let sumCoeff := s.invSumCoeff invCnstOff (.spread bits)
  let rows := (List.range (2 ^ bits)).flatMap fun i =>
    claimed.keyValueAdRow wl sumCoeff
      (fun xCoeff => .const .b (compileSpreadBits bits (2 * bits) (i % 2 ^ bits) : Nat) xCoeff) i
  s.write (rows ++ [.const .b 1 sumCoeff])

/-- `ad_bump_lookup_elem_db`. -/
def adBumpLookupElemDb (elemType : ElemType) (payload : Payload) (i : Nat) :
    Option (Fr → AdWrite) :=
  match elemType, payload with
  | .witness, .boxedArray elems => do
      let node ← elems[i]?
      return fun coeff => .bump .b node coeff
  | .witness, _ => none
  | elemType, payload => do
      let value ← WitgenVm.loadPureLookupElemAsField elemType payload i
      return fun coeff => .const .b value coeff

/-- `emit_array_ad_init_body`. -/
def arrayAdInit (wl : WitnessLayout) (elemType : ElemType) (count : Nat) (arr : Ptr)
    (claimed : AdVmLl) : Option AdVmLl := do
  let invCnstOff := claimed.currentCnstTablesOff
  let s := claimed.claimAdLookupTableRegion (.array count)
  let mem ← s.mem.setTableId arr (add32 invCnstOff 1)
  let s := { s with mem := mem }
  let sumCoeff := s.invSumCoeff invCnstOff (.array count)
  let c ← s.mem.heap.get? arr
  let s ← (List.range count).foldlM (fun s i => do
    let emitValueDb ← adBumpLookupElemDb elemType c.val.payload i
    s.write (claimed.keyValueAdRow wl sumCoeff emitValueDb i)) s
  s.write [.const .b 1 sumCoeff]

/-! ## Lookups

The call of a helper, with its table made if it is the first one.
-/

/-- The row of the witness of a lookup. -/
def lookupRow (wl : WitnessLayout) (cl : ConstraintsLayout) (witOff : Nat) : Nat :=
  add32 (i32 cl.lookupsDataStart) (sub32 witOff (i32 wl.lookupsDataStart))

/-- `emit_key_value_ad_lookup_call_body`. -/
def keyValueAdLookupCall (wl : WitnessLayout) (cl : ConstraintsLayout) (invCnstOff : Nat)
    (lookup : LookupTableSpec) (key result flag : Ptr) (s : AdVmLl) : Option AdVmLl :=
  let sumCoeff := s.invSumCoeff invCnstOff lookup
  let (xWitOff, s) := s.nextLookupWitOff
  let (yWitOff, s) := s.nextLookupWitOff
  let xCoeff := s.coeffs (lookupRow wl cl xWitOff)
  let yCoeff := s.coeffs (lookupRow wl cl yWitOff)
  let logupAlpha := i32 wl.challengesStart
  let logupBeta := i32 (wl.challengesStart + 1)
  s.write
    [.witness .a logupBeta xCoeff,
      .bump .b result xCoeff,
      .witness .c xWitOff (fieldNegViaSub xCoeff),
      .witness .a yWitOff yCoeff,
      .witness .b logupAlpha yCoeff,
      .witness .b xWitOff (fieldNegViaSub yCoeff),
      .bump .b key (fieldNegViaSub yCoeff),
      .bump .c flag yCoeff,
      .witness .c yWitOff sumCoeff]

/-- The first row of the range table, which is made on first use. -/
def drngchk8Region (wl : WitnessLayout) (s : AdVmLl) : Option (Nat × AdVmLl) :=
  if s.drngchk8InvCnstOff = 0 then
    (s.rngchk8AdInit wl).map fun s' => (s.currentCnstTablesOff, s')
  else some (sub32 s.drngchk8InvCnstOff 1, s)

/-- `generate_drngchk_8_ad_call`. -/
def drngchk8AdCall (wl : WitnessLayout) (cl : ConstraintsLayout) (val flag : Ptr) (s : AdVmLl) :
    Option AdVmLl := do
  let (invCnstOff, s) ← s.drngchk8Region wl
  let sumCoeff := s.coeffs (add32 invCnstOff 256)
  let (invWitOff, s) := s.nextLookupWitOff
  let invCoeff := s.coeffs (lookupRow wl cl invWitOff)
  s.write
    [.witness .c invWitOff sumCoeff,
      .witness .a invWitOff invCoeff,
      .witness .b (i32 wl.challengesStart) invCoeff,
      .bump .b val (0 - invCoeff),
      .bump .c flag invCoeff]

/-- The first row of the spread table of a width. -/
def dspreadRegion (wl : WitnessLayout) (bits : Nat) (s : AdVmLl) : Option (Nat × AdVmLl) :=
  if s.dspreadInvCnstOff bits = 0 then
    (s.spreadAdInit wl bits).map fun s' => (s.currentCnstTablesOff, s')
  else some (sub32 (s.dspreadInvCnstOff bits) 1, s)

/-- `generate_dspread_ad_call`; for other widths there is none. -/
def dspreadAdCall (wl : WitnessLayout) (cl : ConstraintsLayout) (bits : Nat)
    (key result flag : Ptr) (s : AdVmLl) : Option AdVmLl := do
  trapUnless (1 ≤ bits ∧ bits ≤ 16)
  let (invCnstOff, s) ← s.dspreadRegion wl bits
  s.keyValueAdLookupCall wl cl invCnstOff (.spread bits) key result flag

/-- The first row of the table of an array. -/
def darrayRegion (wl : WitnessLayout) (elemType : ElemType) (count : Nat) (arr : Ptr)
    (s : AdVmLl) : Option (Nat × AdVmLl) := do
  let c ← s.mem.heap.get? arr
  match c.val.tableId with
  | none => (s.arrayAdInit wl elemType count arr).map fun s' => (s.currentCnstTablesOff, s')
  | some snap => some (sub32 (i32 snap) 1, s)

/-- `generate_darray_ad_call` for arrays of a type. -/
def darrayAdCall (wl : WitnessLayout) (cl : ConstraintsLayout) (elemType : ElemType)
    (count : Nat) (arr key result flag : Ptr) (s : AdVmLl) : Option AdVmLl := do
  let (invCnstOff, s) ← s.darrayRegion wl elemType count arr
  s.keyValueAdLookupCall wl cl invCnstOff (.array count) key result flag

end AdVmLl

end Mavros.Llssa
