/-
# `Mavros.R1CGen.Lookup` — the generator's state and its lookups

The operations of `R1CGen` that change its state: fresh witnesses, constraints,
new arrays and lookups.  `lookup` is the table resolution of the code, panics
included: a rangecheck wants table 0 to be the range table, a spread table is
found by its width, an array carries the index of its table in the `table_id`
of its cell.

## What is modelled

`R1CGen` with all it records, and each of its methods as a function from state to state.  The
three kinds of target are resolved by `rangeTable`, `spreadTable` and `arrayTable`; the last
flattens the array the first time and stores the table's index in the cell, so that a later lookup
in the same array, or in a copy that shares the cell, finds it.

`arraySet` makes a new cell over a new vector, whose `table_id` is not set: an array that was
written to gets a table of its own.

## What it is not

Nothing is proved here.  That the table found is the one asked for depends on the order of
operations, and `Mavros.R1CGen.Run` has the invariant.
-/
import Mavros.R1CGen.Value

namespace Mavros

mutual
/-- One element of an array being flattened: an inner array, or a leaf. -/
def Value.flatten : Value → List LC
  | .array _ data => flattenArrayIntoTable data
  | .const c => [[(0, c)]]
  | .lc terms => [terms]
/-- `flatten_array_into_table`: the leaves of a nested array, in order. -/
def flattenArrayIntoTable : List Value → List LC
  | [] => []
  | elem :: data => elem.flatten ++ flattenArrayIntoTable data
end

/-- `hlssa::LookupTarget<Value>`. -/
inductive LookupTarget where
  | rangecheck (bits : Nat)
  | dynRangecheck (v : Value)
  | spread (bits : Nat)
  | array (arr : Value)

/-- `LookupConstraint`. -/
structure LookupConstraint where
  tableId : Nat
  elements : List LC
  flag : LC
deriving DecidableEq, Repr

/-- `Table`. -/
inductive Table where
  | range (bits : Nat)
  | ofElems (els : List LC)
  | spread (bits : Nat)
deriving DecidableEq, Repr

/-- `R1CGen`, with the cells the code reaches through `Rc`: `tableIds rc` is the
`table_id` of the array labelled `rc`, and labels are handed out in order. -/
structure R1CGen where
  constraints : List R1C
  tables : List Table
  lookups : List LookupConstraint
  nextWitness : Nat
  tableIds : Nat → Option Nat
  nextRc : Nat

namespace R1CGen

/-- `R1CGen::new`. -/
def new : R1CGen :=
  { constraints := [], tables := [], lookups := [], nextWitness := 0,
    tableIds := fun _ => none, nextRc := 0 }

/-- `fresh_witness` and `write_witness`. -/
def freshWitness (g : R1CGen) : Value × R1CGen :=
  (.lc [(g.nextWitness, 1)], { g with nextWitness := g.nextWitness + 1 })

def constrain (a b c : Value) (g : R1CGen) : Option R1CGen := do
  let a ← a.expectLinearCombination
  let b ← b.expectLinearCombination
  let c ← c.expectLinearCombination
  return { g with constraints := g.constraints ++ [⟨a, b, c⟩] }

/-- `Value::mk_array`: a new cell with no table. -/
def mkArray (data : List Value) (g : R1CGen) : Value × R1CGen :=
  (.array g.nextRc data,
    { g with nextRc := g.nextRc + 1, tableIds := Function.update g.tableIds g.nextRc none })

/-- `array_get`; an index past the end panics. -/
def arrayGet (arr : Value) (index : Nat) : Option Value :=
  match arr with
  | .array _ data => data[index]?
  | _ => none

/-- `array_set`: always a new cell, over the old vector with one entry replaced. -/
def arraySet (arr : Value) (index : Nat) (value : Value) (g : R1CGen) :
    Option (Value × R1CGen) :=
  match arr with
  | .array _ data =>
      if index < data.length then some (g.mkArray (data.set index value)) else none
  | _ => none

/-- The table of an 8-bit rangecheck: table 0, which is made on first use and
must be the range table afterwards. -/
def rangeTable (g : R1CGen) : Option R1CGen :=
  match g.tables with
  | [] => some { g with tables := [.range 8] }
  | .range i1 :: _ => if i1 = 8 then some g else none
  | _ :: _ => none

/-- The table of a spread lookup: the first of its width, or a new one. -/
def spreadTable (bits : Nat) (g : R1CGen) : Nat × R1CGen :=
  match g.tables.findIdx? (· == .spread bits) with
  | some idx => (idx, g)
  | none => (g.tables.length, { g with tables := g.tables ++ [.spread bits] })

/-- The table of an array lookup: the one its cell names, or a new one made of
its leaves. -/
def arrayTable (rc : Nat) (data : List Value) (g : R1CGen) : Nat × R1CGen :=
  match g.tableIds rc with
  | some idx => (idx, g)
  | none =>
      (g.tables.length,
        { g with
          tables := g.tables ++ [.ofElems (flattenArrayIntoTable data)]
          tableIds := Function.update g.tableIds rc (some g.tables.length) })

/-- The table a target resolves to, and the state with that table in place. -/
def resolveTable (target : LookupTarget) (g : R1CGen) : Option (Nat × R1CGen) :=
  match target with
  | .rangecheck i => if i = 8 then g.rangeTable.map (0, ·) else none
  | .dynRangecheck v =>
      match v with
      | .const c => if c.val = 256 then g.rangeTable.map (0, ·) else none
      | _ => none
  | .spread bits => some (g.spreadTable bits)
  | .array (.array rc data) => some (g.arrayTable rc data)
  | .array _ => none

/-- `R1CGen::lookup`. -/
def lookup (target : LookupTarget) (args : List Value) (flag : Value) (g : R1CGen) :
    Option R1CGen := do
  let flag ← flag.expectLinearCombination
  let els ← args.mapM Value.expectLinearCombination
  let (tableId, g) ← g.resolveTable target
  return { g with lookups := g.lookups ++ [⟨tableId, els, flag⟩] }

end R1CGen

end Mavros
