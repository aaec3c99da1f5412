/-
# `Mavros.R1CGen.Seal` — sealing the constraint system

`R1CGen::seal` in its three passes: the multiplicity sections, the table rows
and the lookup rows.  Each pass threads the witness layout, which hands out the
indices, and the list of rows; the third pass also pushes every lookup's inverse
into the sum row of its table, wherever in the list that row is.

The code repeats one loop for each kind of table.  Here the kinds differ in
their length, their width and the value of an entry, and the loop is written
once for each width.

## What is modelled

The rows are those of LogUp.  With the challenge `α`, entry `i` of a table of one column has the
row `y · (α - i) = m`, where `m` is how often the entry is looked up; a lookup of `key` has
`y · (α - key) = flag`; and the sum row of the table demands that the `y` of its entries and the
`y` of its lookups have one sum.  A table of two columns has the value in the denominator as well,
by a second challenge `β` that is only allotted if some table needs it.

A lookup of a width other than one or two is a panic, and so is an index into the table list that
is not there.

## What it is not

The passes are kept as they are, with their state.  What they build is computed in
`Mavros.R1CGen.SealSpec`, and what a satisfied row says in `Mavros.R1CGen.Soundness`.
-/
import Mavros.R1CGen.Lookup
import Mavros.Spread

namespace Mavros

namespace Table

/-- The number of entries. -/
def len : Table → Nat
  | range bits => 2 ^ bits
  | ofElems els => els.length
  | spread bits => 2 ^ bits

/-- The number of columns: the key alone, or key and value. -/
def width : Table → Nat
  | range _ => 1
  | ofElems _ => 2
  | spread _ => 2

/-- The value column at entry `i`. -/
def value : Table → Nat → LC
  | range _, _ => []
  | ofElems els, i => els.getD i []
  | spread _, i => [(0, (spreadBits i : Fr))]

end Table

/-! ## The rows -/

/-- `y * (α - i) = m`. -/
def rangeRow (alpha y m i : Nat) : R1C :=
  { a := [(y, 1)], b := [(alpha, 1), (0, -(i : Fr))], c := [(m, 1)] }

/-- `β * v = -x`. -/
def xRow (beta x : Nat) (v : LC) : R1C :=
  { a := [(beta, 1)], b := v, c := [(x, -1)] }

/-- `y * (α - i - x) = m`. -/
def yRow (alpha x y m i : Nat) : R1C :=
  { a := [(y, 1)], b := [(alpha, 1), (0, -(i : Fr)), (x, -1)], c := [(m, 1)] }

/-- The sum row of a table; its right-hand side is filled by the lookups. -/
def sumRow (sumLhs sumRhs : LC) : R1C := { a := sumLhs, b := [(0, 1)], c := sumRhs }

/-- The key with its coefficients negated, as the lookup rows append it. -/
def negTerms (key : LC) : LC := key.map fun t => (t.1, -t.2)

/-- `y * (α - key) = flag`. -/
def lookupRow1 (alpha y : Nat) (key flag : LC) : R1C :=
  { a := [(y, 1)], b := (alpha, 1) :: negTerms key, c := flag }

/-- `y * (α - x - key) = flag`. -/
def lookupRow2 (alpha x y : Nat) (key flag : LC) : R1C :=
  { a := [(y, 1)], b := (alpha, 1) :: (x, -1) :: negTerms key, c := flag }

/-! ## The passes of `seal`

The layout hands out an index with every witness, so the order of the loops decides the indices.
-/

/-- The local `TableInfo` of `seal`. -/
structure SealTable where
  multiplicitiesWitnessOff : Nat
  table : Table
  sumConstraintIdx : Nat

/-- Multiplicities init: the sections in table order, and the widest table. -/
def initTables (tables : List Table) (layout : WitnessLayout) :
    List SealTable × Nat × WitnessLayout :=
  tables.foldl
    (fun st table =>
      let (infos, maxWidth, layout) := st
      (infos ++ [⟨layout.multiplicitiesSize + layout.algebraicSize, table, 0⟩],
        max maxWidth table.width,
        { layout with multiplicitiesSize := layout.multiplicitiesSize + table.len }))
    ([], 0, layout)

/-- What a loop over the entries of a table threads: layout, rows, `sum_lhs`. -/
structure EntryState where
  layout : WitnessLayout
  result : List R1C
  sumLhs : LC

/-- One entry of a one-column table. -/
def rangeEntry (alpha m : Nat) (st : EntryState) (i : Nat) : EntryState :=
  let (y, layout) := st.layout.nextTableData
  { layout := layout
    result := st.result ++ [rangeRow alpha y (m + i) i]
    sumLhs := st.sumLhs ++ [(y, 1)] }

/-- One entry of a two-column table. -/
def kvEntry (alpha beta m : Nat) (table : Table) (st : EntryState) (i : Nat) : EntryState :=
  let (x, layout) := st.layout.nextTableData
  let (y, layout) := layout.nextTableData
  { layout := layout
    result := st.result ++ [xRow beta x (table.value i), yRow alpha x y (m + i) i]
    sumLhs := st.sumLhs ++ [(y, 1)] }

/-- The entries of a table, by its width. -/
def tableEntry (alpha beta m : Nat) (table : Table) : EntryState → Nat → EntryState :=
  if table.width = 1 then rangeEntry alpha m else kvEntry alpha beta m table

/-- Tables contents init, for one table: its entries, then its sum row. -/
def sealTable (alpha beta : Nat) (st : WitnessLayout × List R1C) (info : SealTable) :
    (WitnessLayout × List R1C) × SealTable :=
  let es := (List.range info.table.len).foldl
    (tableEntry alpha beta info.multiplicitiesWitnessOff info.table)
    { layout := st.1, result := st.2, sumLhs := [] }
  let result := es.result ++ [sumRow es.sumLhs []]
  ((es.layout, result), { info with sumConstraintIdx := result.length - 1 })

/-- Tables contents init. -/
def sealTables (alpha beta : Nat) :
    WitnessLayout × List R1C → List SealTable → (WitnessLayout × List R1C) × List SealTable
  | st, [] => (st, [])
  | st, info :: infos =>
      let (st, info) := sealTable alpha beta st info
      let (st, infos) := sealTables alpha beta st infos
      (st, info :: infos)

/-- Lookups init, for one lookup: its rows, then its inverse pushed into the sum
row of its table.  Other widths, and a table that does not exist, panic. -/
def sealLookup (alpha beta : Nat) (infos : List SealTable) (st : WitnessLayout × List R1C)
    (lookup : LookupConstraint) : Option (WitnessLayout × List R1C) := do
  let (layout, result) := st
  let (yWit, layout, result) ←
    match lookup.elements with
    | [key] =>
        let (y, layout) := layout.nextLookupsData
        some (y, layout, result ++ [lookupRow1 alpha y key lookup.flag])
    | [key, value] =>
        let (x, layout) := layout.nextLookupsData
        let (y, layout) := layout.nextLookupsData
        some (y, layout,
          result ++ [xRow beta x value, lookupRow2 alpha x y key lookup.flag])
    | _ => none
  let info ← infos[lookup.tableId]?
  return (layout,
    result.modify info.sumConstraintIdx fun r => { r with c := r.c ++ [(yWit, 1)] })

/-- `usize::MAX`, which stands in for `β` when no table is two columns wide. -/
def usizeMax : Nat := 2 ^ 64 - 1

/-- `seal` from the tables contents on, the challenges being allotted. -/
def R1CGen.sealRows (g : R1CGen) (alpha beta : Nat) (witnessLayout : WitnessLayout)
    (infos : List SealTable) : Option R1CS := do
  let algebraicSize := g.constraints.length
  let ((witnessLayout, result), infos) :=
    sealTables alpha beta (witnessLayout, g.constraints) infos
  let tablesDataSize := result.length - algebraicSize
  let (witnessLayout, result) ←
    g.lookups.foldlM (sealLookup alpha beta infos) (witnessLayout, result)
  return {
    witnessLayout := witnessLayout
    constraintsLayout :=
      { algebraicSize := algebraicSize
        tablesDataSize := tablesDataSize
        lookupsDataSize := result.length - algebraicSize - tablesDataSize }
    constraints := result }

/-- `R1CGen::seal`. -/
def R1CGen.seal (g : R1CGen) : Option R1CS :=
  let witnessLayout : WitnessLayout :=
    { algebraicSize := g.nextWitness, multiplicitiesSize := 0, challengesSize := 0,
      tablesDataSize := 0, lookupsDataSize := 0 }
  let (infos, maxWidth, witnessLayout) := initTables g.tables witnessLayout
  if infos.isEmpty then
    some {
      witnessLayout := witnessLayout
      constraintsLayout :=
        { algebraicSize := g.constraints.length, tablesDataSize := 0, lookupsDataSize := 0 }
      constraints := g.constraints }
  else
    let alpha := witnessLayout.challengesEnd
    let witnessLayout :=
      { witnessLayout with challengesSize := witnessLayout.challengesSize + 1 }
    if maxWidth > 1 then
      let beta := witnessLayout.challengesEnd
      let witnessLayout :=
        { witnessLayout with challengesSize := witnessLayout.challengesSize + 1 }
      g.sealRows alpha beta witnessLayout infos
    else g.sealRows alpha usizeMax witnessLayout infos

end Mavros
