/-
# `Mavros.VM.Phase2` — phase 2 of witness generation

`run_phase2`: with the challenges known, the four loops that complete the vectors.
The first two invert the denominators of all counted entries at once — running
products forwards, then backwards with one inverse.  The third plays the lookup
tape.  The fourth scales the inverses by the multiplicities and sums them.

The code repeats each loop body for the two widths of tables; what the two share
is a definition here.  The assertion that a table is one or two columns wide,
which every loop makes again, is made once.

## What is modelled

The state is the three vectors and the two parts of the witness, as functions of the index with raw
cells for values.  `fillTables` and `invertTables` go over all entries of all tables in opposite
orders, with a running product that only counted entries enter; `playLookups` reads the tape row by
row, one row or two for each lookup, and `finishTable` completes a table and its sum row.

An inverse is asked for once.  It is that of the product of all denominators, so that a denominator
that is zero makes the inverse, and with it the run, fail.
-/
import Mavros.VM.Forward

namespace Mavros

/-- `WitgenResult`, and the state of `run_phase2`. -/
structure Phase2 where
  outA : Nat → Cell
  outB : Nat → Cell
  outC : Nat → Cell
  witPostComm : Nat → Fr

namespace TableInfo

variable (tbl : TableInfo)

/-- The row of the inverse at entry `i`. -/
def yRow (i : Nat) : Nat :=
  if tbl.numValues = 0 then tbl.elemInversesConstraintSectionOffset + i
  else tbl.elemInversesConstraintSectionOffset + 2 * i + 1

/-- The sum row. -/
def sumRow : Nat :=
  if tbl.numValues = 0 then tbl.elemInversesConstraintSectionOffset + tbl.length
  else tbl.elemInversesConstraintSectionOffset + 2 * tbl.length

end TableInfo

namespace Phase2

/-- `out_a[i]` and so on, as field elements. -/
def a (st : Phase2) (i : Nat) : Fr := (st.outA i).toFr
def b (st : Phase2) (i : Nat) : Fr := (st.outB i).toFr
def c (st : Phase2) (i : Nat) : Fr := (st.outC i).toFr

def setA (st : Phase2) (i : Nat) (x : Fr) : Phase2 := { st with outA := writeFr st.outA i x }
def setB (st : Phase2) (i : Nat) (x : Fr) : Phase2 := { st with outB := writeFr st.outB i x }
def setC (st : Phase2) (i : Nat) (x : Fr) : Phase2 := { st with outC := writeFr st.outC i x }
def setPost (st : Phase2) (i : Nat) (x : Fr) : Phase2 :=
  { st with witPostComm := Function.update st.witPostComm i x }

def alpha (st : Phase2) : Fr := st.witPostComm 0
def beta (st : Phase2) : Fr := st.witPostComm 1

/-! ## Running products

Entries that no lookup hits are skipped, and their inverses stay zero.
-/

/-- The row of an inverse: its denominator and multiplicity, and the running product
when it is counted. -/
def fillY (row : Nat) (denom multiplicity : Fr) (acc : Fr × Phase2) : Fr × Phase2 :=
  let (runningProd, st) := acc
  let st := (st.setB row denom).setC row multiplicity
  if multiplicity ≠ 0 then (runningProd * denom, st.setA row runningProd) else (runningProd, st)

/-- One entry of a table. -/
def fillEntry (wit : Nat → Cell) (tbl : TableInfo) (acc : Fr × Phase2) (i : Nat) :
    Fr × Phase2 :=
  let (runningProd, st) := acc
  let base := tbl.elemInversesConstraintSectionOffset
  let multiplicity := (wit (tbl.multiplicitiesWit + i)).toFr
  if tbl.numValues = 0 then
    fillY (base + i) (st.alpha - (i : Fr)) multiplicity (runningProd, st)
  else
    let v := st.a (base + 2 * i)
    let x := -st.beta * v
    let denom := st.alpha - (i : Fr) - x
    fillY (base + 2 * i + 1) denom multiplicity
      (runningProd,
        ((st.setA (base + 2 * i) st.beta).setB (base + 2 * i) v).setC (base + 2 * i) (-x))

def fillTables (wit : Nat → Cell) (tables : List TableInfo) (st : Phase2) : Fr × Phase2 :=
  tables.foldl (fun acc tbl => (List.range tbl.length).foldl (fillEntry wit tbl) acc) (1, st)

/-! ## Inverses

The running inverse of the entries so far, from behind.
-/

/-- One entry, the later ones being done: its inverse, and theirs divided out. -/
def invertEntry (tbl : TableInfo) (acc : Fr × Phase2) (i : Nat) : Fr × Phase2 :=
  let (runningInv, st) := acc
  let row := tbl.yRow i
  if st.c row ≠ 0 then (runningInv * st.b row, st.setA row (st.a row * runningInv))
  else (runningInv, st)

def invertTables (tables : List TableInfo) (runningInv : Fr) (st : Phase2) : Fr × Phase2 :=
  tables.reverse.foldl
    (fun acc tbl => (List.range tbl.length).reverse.foldl (invertEntry tbl) acc) (runningInv, st)

/-! ## The lookup tape

A lookup that was counted copies the inverse of the entry it hits.
-/

/-- The row of a key: copied from the entry of its table when it is counted, and
pushed into the sum row. -/
def playKey (table : TableInfo) (cnstOff witOff : Nat) (x : Fr) (st : Phase2) : Phase2 :=
  let flagU64 := (st.outC cnstOff).limb0
  if flagU64 = 0 then
    let key := st.b cnstOff
    (((st.setA cnstOff 0).setB cnstOff (st.alpha - key - x)).setC cnstOff 0).setPost witOff 0
  else
    let ixInTable := (st.outB cnstOff).limb0
    let y := st.a (table.yRow ixInTable)
    let st := ((st.setA cnstOff y).setB cnstOff (st.b (table.yRow ixInTable))).setC cnstOff flagU64
    let st := st.setPost witOff y
    st.setC table.sumRow (st.c table.sumRow + y)

/-- One lookup, and how many rows it takes. -/
def playLookup (tables : List TableInfo) (cnstOff witOff : Nat) (st : Phase2) :
    Option (Phase2 × Nat) := do
  let table ← tables[(st.outA cnstOff).limb0]?
  if table.numValues = 0 then
    return (st.playKey table cnstOff witOff 0, 1)
  else
    let resultValue := st.b cnstOff
    let x := -st.beta * resultValue
    let st := ((st.setA cnstOff st.beta).setB cnstOff resultValue).setC cnstOff (-x)
    let st := st.setPost witOff x
    return (st.playKey table (cnstOff + 1) (witOff + 1) x, 2)

/-- The loop over the tape.  Every round moves on, so the rows are enough fuel. -/
def playLookups (tables : List TableInfo) (cnstStart witStart size : Nat) :
    (fuel : Nat) → (off : Nat) → Phase2 → Option Phase2
  | fuel, off, st =>
      if off < size then
        match fuel with
        | 0 => none
        | fuel + 1 =>
            (st.playLookup tables (cnstStart + off) (witStart + off)).bind fun (st, n) =>
              playLookups tables cnstStart witStart size fuel (off + n) st
      else some st

/-! ## Quotients and sums -/

/-- One entry: its inverse times its multiplicity, and the value column. -/
def finishEntry (tbl : TableInfo) (st : Phase2) (i : Nat) : Phase2 :=
  let witBase := tbl.elemInversesWitnessSectionOffset
  let base := tbl.elemInversesConstraintSectionOffset
  let row := tbl.yRow i
  let multiplicity := st.c row
  let wit := if tbl.numValues = 0 then witBase + i else witBase + 2 * i + 1
  let st :=
    if multiplicity ≠ 0 then
      let elem := st.a row * multiplicity
      let st := (st.setA row elem).setPost wit elem
      st.setA tbl.sumRow (st.a tbl.sumRow + elem)
    else st
  if tbl.numValues = 0 then st else st.setPost (witBase + 2 * i) (-st.c (base + 2 * i))

def finishTable (st : Phase2) (tbl : TableInfo) : Phase2 :=
  ((List.range tbl.length).foldl (finishEntry tbl) st).setB tbl.sumRow 1

end Phase2

/-- `run_phase2`. -/
def runPhase2 (phase1 : Phase1Result) (challenges : List Fr) (wl : WitnessLayout)
    (cl : ConstraintsLayout) : Option Phase2 :=
  if ∀ tbl ∈ phase1.tables, tbl.numValues = 0 ∨ tbl.numValues = 1 then
    let st : Phase2 :=
      { outA := phase1.outA, outB := phase1.outB, outC := phase1.outC
        witPostComm := fun i => challenges.getD i 0 }
    let (runningProd, st) := st.fillTables phase1.witPreComm phase1.tables
    if runningProd = 0 then none
    else
      let (_, st) := st.invertTables phase1.tables runningProd⁻¹
      let st := st.playLookups phase1.tables cl.lookupsDataStart
        (wl.lookupsDataStart - wl.challengesStart) cl.lookupsDataSize cl.lookupsDataSize 0
      st.map fun st => phase1.tables.foldl Phase2.finishTable st
  else none

end Mavros
