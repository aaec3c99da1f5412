/-
# `Mavros.R1CGen.SealSpec` — the sealed system in closed form

`seal` threads a layout and a growing list of rows.  What it builds is a
concatenation: the algebraic rows, one block of rows for each table, one block
for each lookup — each block a function of the offsets at which it starts.  The
offsets are sums of the sizes before it, `placeTables`, and the same offsets are
what the virtual machine computes while it runs.

`seal_eq` is the one fact about `seal` the rest of the development uses.

## How it goes

Each pass has a lemma that says what it appends.

* `initTables_foldl`: the multiplicity sections, one behind the other.
* `sealTable_eq`, `sealTables_eq`: the block of a table, its sum row still empty on the right.
* `sealLookup_eq`, `foldlM_sealLookup`: the rows of a lookup, and its inverse pushed into the sum
  row of its table.  A push changes the block of that table and no other (`modify_tableRows`), so
  that after the third pass the sum row of table `k` lists the inverses of the lookups that name `k`
  (`sumRhs`).

The offsets are found by induction on the tables (`getElem?_placeTables`); the entry loop is an
induction on the number of entries.
-/
import Mavros.R1CGen.Seal

namespace Mavros

/-! ## Where the tables go

A table and its three offsets, and how they follow from the sizes.
-/

/-- A table with the offsets of its three sections: multiplicity witnesses, data
witnesses, constraints. -/
structure TablePlace where
  table : Table
  mult : Nat
  wit : Nat
  cnst : Nat

/-- The number of rows of a table, its sum row included. -/
def Table.rowCount (t : Table) : Nat := t.width * t.len + 1

/-- The number of data witnesses of a table. -/
def Table.witCount (t : Table) : Nat := t.width * t.len

/-- Tables in order, each section starting where the one before it ends. -/
def placeTables : (mult wit cnst : Nat) → List Table → List TablePlace
  | _, _, _, [] => []
  | m, d, c, t :: ts =>
      ⟨t, m, d, c⟩ :: placeTables (m + t.len) (d + t.witCount) (c + t.rowCount) ts

def totalLen (ts : List Table) : Nat := (ts.map Table.len).sum
def totalWit (ts : List Table) : Nat := (ts.map Table.witCount).sum
def totalRows (ts : List Table) : Nat := (ts.map Table.rowCount).sum

@[simp] theorem length_placeTables :
    ∀ (m d c : Nat) (ts : List Table), (placeTables m d c ts).length = ts.length
  | _, _, _, [] => rfl
  | m, d, c, t :: ts => by simp [placeTables, length_placeTables]

theorem placeTables_append (m d c : Nat) (ts us : List Table) :
    placeTables m d c (ts ++ us) =
      placeTables m d c ts
        ++ placeTables (m + totalLen ts) (d + totalWit ts) (c + totalRows ts) us := by
  induction ts generalizing m d c with
  | nil => simp [placeTables, totalLen, totalWit, totalRows]
  | cons t ts ih =>
      simp only [List.cons_append, placeTables, ih, totalLen, totalWit, totalRows,
        List.map_cons, List.sum_cons, Nat.add_assoc]

theorem placeTables_table :
    ∀ (m d c : Nat) (ts : List Table), (placeTables m d c ts).map TablePlace.table = ts
  | _, _, _, [] => rfl
  | m, d, c, t :: ts => by simp [placeTables, placeTables_table]

/-- The offsets of a table are the sums of the sizes before it. -/
theorem getElem?_placeTables {t : Table} : ∀ {ts : List Table} {m d c k : Nat},
    ts[k]? = some t →
    (placeTables m d c ts)[k]? = some ⟨t, m + totalLen (ts.take k), d + totalWit (ts.take k),
      c + totalRows (ts.take k)⟩ := by
  intro ts
  induction ts with
  | nil => intro m d c k h; simp at h
  | cons u ts ih =>
      intro m d c k hk
      cases k with
      | zero =>
          obtain rfl : u = t := by simpa using hk
          simp [placeTables, totalLen, totalWit, totalRows]
      | succ k =>
          have h := ih (m := m + u.len) (d := d + u.witCount) (c := c + u.rowCount)
            (k := k) (by simpa using hk)
          simpa [placeTables, totalLen, totalWit, totalRows, Nat.add_assoc] using h

/-! ## The blocks of rows

What a table and a lookup contribute, given where they start.
-/

namespace TablePlace

variable (p : TablePlace)

/-- The witness of the inverse at entry `i`. -/
def yWit (i : Nat) : Nat := p.wit + p.table.width * i + (p.table.width - 1)

/-- The witness of the value column at entry `i`, for two-column tables. -/
def xWit (i : Nat) : Nat := p.wit + p.table.width * i

/-- The rows of entry `i`. -/
def entryRows (alpha beta i : Nat) : List R1C :=
  if p.table.width = 1 then [rangeRow alpha (p.yWit i) (p.mult + i) i]
  else [xRow beta (p.xWit i) (p.table.value i),
    yRow alpha (p.xWit i) (p.yWit i) (p.mult + i) i]

/-- The left-hand side of the sum row. -/
def sumLhs : LC := (List.range p.table.len).map fun i => (p.yWit i, 1)

/-- The whole block, given the right-hand side of the sum row. -/
def rows (alpha beta : Nat) (rhs : LC) : List R1C :=
  (List.range p.table.len).flatMap (p.entryRows alpha beta) ++ [sumRow p.sumLhs rhs]

/-- The position of the sum row. -/
def sumIdx : Nat := p.cnst + p.table.width * p.table.len

end TablePlace

/-- The blocks of the tables, the `k`-th with right-hand side `rhs k`. -/
def tableRows (alpha beta : Nat) (rhs : Nat → LC) : (k : Nat) → List TablePlace → List R1C
  | _, [] => []
  | k, p :: ps => p.rows alpha beta (rhs k) ++ tableRows alpha beta rhs (k + 1) ps

namespace LookupConstraint

def width (l : LookupConstraint) : Nat := l.elements.length

/-- The rows of a lookup whose witnesses start at `d`. -/
def rows (alpha beta d : Nat) (l : LookupConstraint) : List R1C :=
  match l.elements with
  | [key] => [lookupRow1 alpha d key l.flag]
  | [key, value] => [xRow beta d value, lookupRow2 alpha d (d + 1) key l.flag]
  | _ => []

/-- The witness of the inverse of a lookup whose witnesses start at `d`. -/
def yWit (d : Nat) (l : LookupConstraint) : Nat := d + (l.width - 1)

/-- The lookups `seal` accepts: one or two columns. -/
def Sealable (l : LookupConstraint) : Prop := l.width = 1 ∨ l.width = 2

end LookupConstraint

def totalWidth (ls : List LookupConstraint) : Nat := (ls.map LookupConstraint.width).sum

/-- The blocks of the lookups, the first starting at witness `d`. -/
def lookupRows (alpha beta : Nat) : (d : Nat) → List LookupConstraint → List R1C
  | _, [] => []
  | d, l :: ls => l.rows alpha beta d ++ lookupRows alpha beta (d + l.width) ls

/-- The inverses of the lookups of table `k`, as the sum row lists them. -/
def sumRhs (k : Nat) : (d : Nat) → List LookupConstraint → LC
  | _, [] => []
  | d, l :: ls =>
      (if l.tableId = k then [(l.yWit d, 1)] else []) ++ sumRhs k (d + l.width) ls

/-! ## The offsets of the sealed system

The challenges come between the multiplicities and the data, one or two of them.
-/

namespace R1CGen

variable (g : R1CGen)

/-- Two columns somewhere, hence a second challenge. -/
def wide : Bool := g.tables.any fun t => t.width = 2

def challengesSize : Nat := if g.wide then 2 else 1

/-- The witness of `α`. -/
def alpha : Nat := g.nextWitness + totalLen g.tables

/-- The witness of `β`. -/
def beta : Nat := if g.wide then g.alpha + 1 else usizeMax

def tablesStart : Nat := g.alpha + g.challengesSize

def lookupsStart : Nat := g.tablesStart + totalWit g.tables

/-- The tables with their offsets. -/
def places : List TablePlace :=
  placeTables g.nextWitness g.tablesStart g.constraints.length g.tables

/-- Table `k` at its offsets. -/
def place (k : Nat) (t : Table) : TablePlace :=
  ⟨t, g.nextWitness + totalLen (g.tables.take k), g.tablesStart + totalWit (g.tables.take k),
    g.constraints.length + totalRows (g.tables.take k)⟩

theorem getElem?_places {k : Nat} {t : Table} (h : g.tables[k]? = some t) :
    g.places[k]? = some (g.place k t) :=
  getElem?_placeTables h

/-- The right-hand side of the sum row of table `k`. -/
def sumRhs (k : Nat) : LC := Mavros.sumRhs k g.lookupsStart g.lookups

def sealedWitnessLayout : WitnessLayout :=
  { algebraicSize := g.nextWitness
    multiplicitiesSize := totalLen g.tables
    challengesSize := g.challengesSize
    tablesDataSize := totalWit g.tables
    lookupsDataSize := totalWidth g.lookups }

def sealedConstraintsLayout : ConstraintsLayout :=
  { algebraicSize := g.constraints.length
    tablesDataSize := totalRows g.tables
    lookupsDataSize := totalWidth g.lookups }

/-- The sealed system in closed form. -/
def sealed : R1CS :=
  { witnessLayout := g.sealedWitnessLayout
    constraintsLayout := g.sealedConstraintsLayout
    constraints :=
      g.constraints ++ tableRows g.alpha g.beta g.sumRhs 0 g.places
        ++ lookupRows g.alpha g.beta g.lookupsStart g.lookups }

/-- What `lookup` keeps true of the lookups: they name tables that exist. -/
def LookupsInRange : Prop := ∀ l ∈ g.lookups, l.tableId < g.tables.length

end R1CGen

/-! ## The passes meet the closed form -/

/-- The `TableInfo` of a place, before and after the second pass. -/
def TablePlace.sealInfo (p : TablePlace) (idx : Nat) : SealTable :=
  { multiplicitiesWitnessOff := p.mult, table := p.table, sumConstraintIdx := idx }

theorem Table.width_eq (t : Table) : t.width = 1 ∨ t.width = 2 := by
  cases t <;> simp [Table.width]

theorem initTables_foldl (d c : Nat) (ts : List Table) (infos : List SealTable) (w : Nat)
    (layout : WitnessLayout) :
    ts.foldl
        (fun st table =>
          let (infos, maxWidth, layout) := st
          (infos ++ [⟨layout.multiplicitiesSize + layout.algebraicSize, table, 0⟩],
            max maxWidth table.width,
            { layout with multiplicitiesSize := layout.multiplicitiesSize + table.len }))
        (infos, w, layout)
      = (infos ++ (placeTables (layout.multiplicitiesSize + layout.algebraicSize) d c ts).map
            fun p => p.sealInfo 0,
          ts.foldl (fun m t => max m t.width) w,
          { layout with
            multiplicitiesSize := layout.multiplicitiesSize + totalLen ts }) := by
  induction ts generalizing d c infos w layout with
  | nil => simp [placeTables, totalLen]
  | cons t ts ih =>
      rw [List.foldl_cons, ih (d + t.witCount) (c + t.rowCount)]
      have hm : layout.multiplicitiesSize + t.len + layout.algebraicSize
          = layout.multiplicitiesSize + layout.algebraicSize + t.len := by omega
      simp only [placeTables, List.map_cons, List.foldl_cons, totalLen, List.sum_cons,
        List.append_assoc, List.singleton_append, TablePlace.sealInfo, hm, Nat.add_assoc]

theorem maxWidth_gt_one_iff (ts : List Table) (w : Nat) :
    1 < ts.foldl (fun m t => max m t.width) w ↔ 1 < w ∨ ts.any fun t => t.width = 2 := by
  induction ts generalizing w with
  | nil => simp
  | cons t ts ih =>
      rw [List.foldl_cons, ih, List.any_cons]
      rcases t.width_eq with h | h <;> simp [h]

section Entries

variable (alpha beta : Nat) (p : TablePlace)

/-- The entry loop after `n` entries: a block of rows, and the left-hand side so far. -/
theorem foldl_tableEntry {layout : WitnessLayout} (hwit : p.wit = layout.tablesDataEnd)
    (result : List R1C) (n : Nat) :
    (List.range n).foldl (tableEntry alpha beta p.mult p.table)
        { layout := layout, result := result, sumLhs := [] }
      = { layout :=
            { layout with
              tablesDataSize := layout.tablesDataSize + p.table.width * n }
          result := result ++ (List.range n).flatMap (p.entryRows alpha beta)
          sumLhs := (List.range n).map fun i => (p.yWit i, 1) } := by
  induction n with
  | zero => simp
  | succ n ih =>
      rw [List.range_succ, List.foldl_append, ih, List.foldl_cons, List.foldl_nil,
        List.flatMap_append, List.map_append, List.flatMap_singleton, ← List.append_assoc]
      have hend : layout.tablesDataSize + layout.tablesDataStart = p.wit := hwit.symm
      rcases p.table.width_eq with hw | hw
      · have hy : p.yWit n = layout.tablesDataSize + n + layout.tablesDataStart := by
          simp only [TablePlace.yWit, hw]; omega
        simp only [tableEntry, hw, if_true, rangeEntry, WitnessLayout.nextTableData,
          TablePlace.entryRows, List.map_singleton, hy, Nat.one_mul,
          WitnessLayout.tablesDataEnd, EntryState.mk.injEq]
        exact ⟨rfl, rfl, rfl⟩
      · have hx : p.xWit n = layout.tablesDataSize + 2 * n + layout.tablesDataStart := by
          simp only [TablePlace.xWit, hw]; omega
        have hy : p.yWit n = layout.tablesDataSize + 2 * n + 1 + layout.tablesDataStart := by
          simp only [TablePlace.yWit, hw]; omega
        simp only [tableEntry, hw, TablePlace.entryRows, List.map_singleton, hx, hy]
        rfl

end Entries

@[simp] theorem TablePlace.length_entryRows (alpha beta : Nat) (p : TablePlace) (i : Nat) :
    (p.entryRows alpha beta i).length = p.table.width := by
  rcases p.table.width_eq with h | h <;> simp [TablePlace.entryRows, h]

theorem TablePlace.length_entries (alpha beta : Nat) (p : TablePlace) (n : Nat) :
    ((List.range n).flatMap (p.entryRows alpha beta)).length = p.table.width * n := by
  induction n with
  | zero => rfl
  | succ n ih => simp [List.range_succ, List.flatMap_append, ih, Nat.mul_succ]

@[simp] theorem TablePlace.length_rows (alpha beta : Nat) (p : TablePlace) (rhs : LC) :
    (p.rows alpha beta rhs).length = p.table.rowCount := by
  simp [TablePlace.rows, p.length_entries, Table.rowCount]

/-- The second pass over one table appends its block, its sum row still empty. -/
theorem sealTable_eq (alpha beta idx : Nat) (p : TablePlace) {layout : WitnessLayout}
    {result : List R1C} (hwit : p.wit = layout.tablesDataEnd)
    (hcnst : p.cnst = result.length) :
    sealTable alpha beta (layout, result) (p.sealInfo idx)
      = (({ layout with tablesDataSize := layout.tablesDataSize + p.table.witCount },
          result ++ p.rows alpha beta []), p.sealInfo p.sumIdx) := by
  have hlen : (result ++ p.rows alpha beta []).length - 1 = p.sumIdx := by
    rw [List.length_append, p.length_rows, ← hcnst, TablePlace.sumIdx, Table.rowCount]
    omega
  have hloop := foldl_tableEntry alpha beta p hwit result p.table.len
  simp only [sealTable, TablePlace.sealInfo, hloop, List.append_assoc] at hlen ⊢
  simp only [TablePlace.rows, TablePlace.sumLhs, Table.witCount] at hlen ⊢
  rw [hlen]

theorem sealTables_eq (alpha beta idx k : Nat) (ts : List Table) {m d c : Nat}
    {layout : WitnessLayout} {result : List R1C} (hwit : d = layout.tablesDataEnd)
    (hcnst : c = result.length) :
    sealTables alpha beta (layout, result)
        ((placeTables m d c ts).map fun p => p.sealInfo idx)
      = (({ layout with tablesDataSize := layout.tablesDataSize + totalWit ts },
          result ++ tableRows alpha beta (fun _ => []) k (placeTables m d c ts)),
        (placeTables m d c ts).map fun p => p.sealInfo p.sumIdx) := by
  induction ts generalizing m d c k layout result with
  | nil => simp [placeTables, sealTables, tableRows, totalWit]
  | cons t ts ih =>
      let layout' := { layout with
        tablesDataSize := layout.tablesDataSize + t.witCount }
      have hwit' : d + t.witCount = layout'.tablesDataEnd := by
        rw [hwit]
        exact Nat.add_right_comm _ _ _
      have hcnst' : c + t.rowCount
          = (result ++ (TablePlace.mk t m d c).rows alpha beta []).length := by
        rw [hcnst, List.length_append, TablePlace.length_rows]
      have hhead := sealTable_eq alpha beta idx ⟨t, m, d, c⟩ hwit hcnst
      have htail := ih (k + 1) (m := m + t.len) hwit' hcnst'
      simp only [layout'] at htail
      simp only [placeTables, List.map_cons, sealTables, hhead, htail, tableRows, totalWit,
        List.sum_cons, Nat.add_assoc, List.append_assoc]

/-! ## Filling the sum rows

A modification at a position is one within a block.
-/

theorem modify_append_cons {α : Type} (f : α → α) (xs ys : List α) (a : α) :
    (xs ++ a :: ys).modify xs.length f = xs ++ f a :: ys := by
  induction xs with
  | nil => rfl
  | cons x xs ih => simpa using ih

theorem tableRows_congr (alpha beta : Nat) {rhs rhs' : Nat → LC} {k : Nat}
    (ps : List TablePlace) (h : ∀ i, k ≤ i → rhs i = rhs' i) :
    tableRows alpha beta rhs k ps = tableRows alpha beta rhs' k ps := by
  induction ps generalizing k with
  | nil => rfl
  | cons p ps ih =>
      rw [tableRows, tableRows, h k le_rfl, ih fun i hi => h i (by omega)]

/-- A push at the sum row of the `j`-th place changes that block's right-hand side
and nothing else. -/
theorem modify_tableRows (alpha beta y : Nat) (rhs : Nat → LC) {m d c j k : Nat}
    (ts : List Table) (pre post : List R1C) {p : TablePlace} (hc : c = pre.length)
    (hp : (placeTables m d c ts)[j]? = some p) :
    (pre ++ tableRows alpha beta rhs k (placeTables m d c ts) ++ post).modify p.sumIdx
        (fun r => { r with c := r.c ++ [(y, 1)] })
      = pre ++ tableRows alpha beta
          (Function.update rhs (k + j) (rhs (k + j) ++ [(y, 1)])) k (placeTables m d c ts)
        ++ post := by
  induction ts generalizing m d c j k pre with
  | nil => simp [placeTables] at hp
  | cons t ts ih =>
      simp only [placeTables, tableRows] at hp ⊢
      cases j with
      | zero =>
          obtain rfl : TablePlace.mk t m d c = p := by simpa using hp
          let q := TablePlace.mk t m d c
          let entries := (List.range t.len).flatMap (q.entryRows alpha beta)
          have hidx : q.sumIdx = (pre ++ entries).length := by
            rw [List.length_append, q.length_entries, ← hc]
            rfl
          have htail : tableRows alpha beta (Function.update rhs k (rhs k ++ [(y, 1)])) (k + 1)
              (placeTables (m + t.len) (d + t.witCount) (c + t.rowCount) ts)
              = tableRows alpha beta rhs (k + 1)
                  (placeTables (m + t.len) (d + t.witCount) (c + t.rowCount) ts) :=
            tableRows_congr alpha beta _ fun i hi =>
              Function.update_of_ne (by omega) _ _
          have happ := modify_append_cons
            (fun r : R1C => { r with c := r.c ++ [(y, 1)] }) (pre ++ entries)
            (tableRows alpha beta rhs (k + 1)
              (placeTables (m + t.len) (d + t.witCount) (c + t.rowCount) ts) ++ post)
            (sumRow q.sumLhs (rhs k))
          rw [← hidx] at happ
          simp only [Nat.add_zero, htail]
          simpa only [q, entries, sumRow, TablePlace.rows, Function.update_self, List.append_assoc,
            List.singleton_append, List.cons_append, List.nil_append] using happ
      | succ j =>
          have hp' : (placeTables (m + t.len) (d + t.witCount) (c + t.rowCount) ts)[j]?
              = some p := by simpa using hp
          have hlen : c + t.rowCount
              = (pre ++ (TablePlace.mk t m d c).rows alpha beta (rhs k)).length := by
            rw [List.length_append, TablePlace.length_rows, hc]
          have htail := ih (k := k + 1) (pre ++ TablePlace.rows ⟨t, m, d, c⟩ alpha beta (rhs k))
            hlen hp'
          have hk : k + 1 + j = k + (j + 1) := by omega
          rw [hk] at htail
          rw [Function.update_of_ne (a := k) (by omega)]
          simpa only [List.append_assoc] using htail

/-! ## The lookups -/

theorem LookupConstraint.length_rows {l : LookupConstraint} (hl : l.Sealable)
    (alpha beta d : Nat) : (l.rows alpha beta d).length = l.width := by
  obtain ⟨_, _ | ⟨_, _ | ⟨_, _ | _⟩⟩, _⟩ := l <;>
    simp_all [LookupConstraint.Sealable, LookupConstraint.width, LookupConstraint.rows]

section Lookups

variable (alpha beta : Nat) (rhs : Nat → LC) {m d c : Nat} (ts : List Table)
  (pre post : List R1C)

/-- One lookup: its rows go at the end, its inverse into the sum row of its table. -/
theorem sealLookup_eq (hc : c = pre.length) {l : LookupConstraint} (hseal : l.Sealable)
    (hid : l.tableId < ts.length) {layout : WitnessLayout} {e : Nat}
    (he : e = layout.lookupsDataEnd) :
    sealLookup alpha beta ((placeTables m d c ts).map fun p => p.sealInfo p.sumIdx)
        (layout, pre ++ tableRows alpha beta rhs 0 (placeTables m d c ts) ++ post) l
      = some
        ({ layout with lookupsDataSize := layout.lookupsDataSize + l.width },
          pre ++ tableRows alpha beta
              (Function.update rhs l.tableId (rhs l.tableId ++ [(l.yWit e, 1)])) 0
              (placeTables m d c ts)
            ++ (post ++ l.rows alpha beta e)) := by
  have hid' : l.tableId < (placeTables m d c ts).length := by simpa using hid
  have hp : (placeTables m d c ts)[l.tableId]? = some (placeTables m d c ts)[l.tableId] :=
    List.getElem?_eq_getElem hid'
  have hinfo : ((placeTables m d c ts).map fun p => p.sealInfo p.sumIdx)[l.tableId]?
      = some ((placeTables m d c ts)[l.tableId].sealInfo
          (placeTables m d c ts)[l.tableId].sumIdx) := by
    rw [List.getElem?_map, hp]
    rfl
  have hpush := modify_tableRows alpha beta (l.yWit e) rhs (k := 0) ts pre
    (post ++ l.rows alpha beta e) hc hp
  rw [Nat.zero_add] at hpush
  obtain ⟨tableId, elements, flag⟩ := l
  rcases hseal with hw | hw
  · obtain ⟨key, rfl⟩ := List.length_eq_one_iff.mp hw
    simp only [sealLookup, WitnessLayout.nextLookupsData, Option.bind_eq_bind,
      Option.bind_some, Option.pure_def, ← he]
    simp only [LookupConstraint.rows, LookupConstraint.yWit, hw, Nat.sub_self,
      Nat.add_zero] at hpush ⊢
    rw [hinfo, Option.bind_some, List.append_assoc _ post, ← hpush]
    rfl
  · obtain ⟨key, value, rfl⟩ := List.length_eq_two.mp hw
    have hy : WitnessLayout.lookupsDataEnd
        { layout with lookupsDataSize := layout.lookupsDataSize + 1 } = e + 1 := by
      rw [he]
      exact Nat.add_right_comm _ _ _
    simp only [sealLookup, WitnessLayout.nextLookupsData, Option.bind_eq_bind,
      Option.bind_some, Option.pure_def, ← he, hy]
    simp only [LookupConstraint.rows, LookupConstraint.yWit, hw] at hpush ⊢
    rw [hinfo, Option.bind_some, List.append_assoc _ post, ← hpush]
    rfl

/-- The third pass: the rows of the lookups are appended, and their inverses are
spread over the sum rows. -/
theorem foldlM_sealLookup (hc : c = pre.length) (ls : List LookupConstraint)
    (hseal : ∀ l ∈ ls, l.Sealable) (hids : ∀ l ∈ ls, l.tableId < ts.length)
    {layout : WitnessLayout} {e : Nat} (he : e = layout.lookupsDataEnd) :
    ls.foldlM
        (sealLookup alpha beta ((placeTables m d c ts).map fun p => p.sealInfo p.sumIdx))
        (layout, pre ++ tableRows alpha beta rhs 0 (placeTables m d c ts) ++ post)
      = some
        ({ layout with lookupsDataSize := layout.lookupsDataSize + totalWidth ls },
          pre ++ tableRows alpha beta (fun k => rhs k ++ sumRhs k e ls) 0
              (placeTables m d c ts)
            ++ (post ++ lookupRows alpha beta e ls)) := by
  induction ls generalizing rhs post layout e with
  | nil => simp [totalWidth, sumRhs, lookupRows]
  | cons l ls ih =>
      have hl := hseal l List.mem_cons_self
      have hid := hids l List.mem_cons_self
      have he' : e + l.width = WitnessLayout.lookupsDataEnd
          { layout with lookupsDataSize := layout.lookupsDataSize + l.width } := by
        rw [he]
        exact Nat.add_right_comm _ _ _
      have hrhs : (fun k =>
            Function.update rhs l.tableId (rhs l.tableId ++ [(l.yWit e, 1)]) k
              ++ sumRhs k (e + l.width) ls)
          = fun k => rhs k ++ sumRhs k e (l :: ls) := by
        funext k
        by_cases hk : l.tableId = k
        · subst hk
          simp [sumRhs]
        · rw [Function.update_of_ne (Ne.symm hk)]
          simp [sumRhs, hk]
      rw [List.foldlM_cons, sealLookup_eq alpha beta rhs ts pre post hc hl hid he,
        Option.bind_eq_bind, Option.bind_some,
        ih _ _ (fun l' h => hseal l' (List.mem_cons_of_mem _ h))
          (fun l' h => hids l' (List.mem_cons_of_mem _ h)) he', hrhs]
      simp only [totalWidth, List.map_cons, List.sum_cons, lookupRows, Nat.add_assoc,
        List.append_assoc]

end Lookups

/-! ## `seal` itself

The three together; with no table there is nothing to do.
-/

theorem wide_iff (g : R1CGen) :
    g.tables.foldl (fun m t => max m t.width) 0 > 1 ↔ g.wide = true := by
  rw [gt_iff_lt, maxWidth_gt_one_iff]
  simp [R1CGen.wide]

/-- With no table there is nothing to seal. -/
theorem R1CGen.seal_nil (g : R1CGen) (hnil : g.tables = []) :
    g.seal = some
      { witnessLayout :=
          { algebraicSize := g.nextWitness, multiplicitiesSize := 0, challengesSize := 0,
            tablesDataSize := 0, lookupsDataSize := 0 }
        constraintsLayout :=
          { algebraicSize := g.constraints.length, tablesDataSize := 0,
            lookupsDataSize := 0 }
        constraints := g.constraints } := by
  simp [R1CGen.seal, hnil, initTables]

@[simp] theorem length_tableRows (alpha beta : Nat) (rhs : Nat → LC) :
    ∀ (k : Nat) (ps : List TablePlace),
      (tableRows alpha beta rhs k ps).length = totalRows (ps.map TablePlace.table)
  | _, [] => rfl
  | k, p :: ps => by
      simp [tableRows, totalRows, length_tableRows alpha beta rhs (k + 1) ps]

theorem length_lookupRows (alpha beta : Nat) :
    ∀ (d : Nat) (ls : List LookupConstraint), (∀ l ∈ ls, l.Sealable) →
      (lookupRows alpha beta d ls).length = totalWidth ls
  | _, [], _ => rfl
  | d, l :: ls, h => by
      have hl := LookupConstraint.length_rows (h l List.mem_cons_self) alpha beta d
      have hls := length_lookupRows alpha beta (d + l.width) ls
        fun l' hl' => h l' (List.mem_cons_of_mem _ hl')
      simp [lookupRows, totalWidth, hl, hls]

/-- The layout `seal` starts from. -/
def WitnessLayout.ofAlgebraic (n : Nat) : WitnessLayout :=
  { algebraicSize := n, multiplicitiesSize := 0, challengesSize := 0, tablesDataSize := 0,
    lookupsDataSize := 0 }

theorem initTables_eq (g : R1CGen) :
    initTables g.tables (.ofAlgebraic g.nextWitness)
      = (g.places.map fun p => p.sealInfo 0,
          g.tables.foldl (fun m t => max m t.width) 0,
          { WitnessLayout.ofAlgebraic g.nextWitness with
            multiplicitiesSize := totalLen g.tables }) := by
  have h := initTables_foldl g.tablesStart g.constraints.length g.tables [] 0
    (.ofAlgebraic g.nextWitness)
  simp only [WitnessLayout.ofAlgebraic, Nat.zero_add, List.nil_append] at h
  exact h

/-- The layout once the challenges are allotted. -/
def R1CGen.challengedLayout (g : R1CGen) : WitnessLayout :=
  { algebraicSize := g.nextWitness, multiplicitiesSize := totalLen g.tables,
    challengesSize := g.challengesSize, tablesDataSize := 0, lookupsDataSize := 0 }

theorem R1CGen.sealRows_eq (g : R1CGen) (hseal : ∀ l ∈ g.lookups, l.Sealable)
    (hids : g.LookupsInRange) :
    g.sealRows g.alpha g.beta g.challengedLayout (g.places.map fun p => p.sealInfo 0)
      = some g.sealed := by
  have hwit : g.tablesStart = g.challengedLayout.tablesDataEnd := (Nat.zero_add _).symm
  have hlook : g.lookupsStart = WitnessLayout.lookupsDataEnd
      { g.challengedLayout with tablesDataSize := totalWit g.tables } := by
    show g.tablesStart + totalWit g.tables
      = 0 + (totalWit g.tables + g.challengedLayout.challengesEnd)
    have : g.tablesStart = g.challengedLayout.challengesEnd := rfl
    omega
  have htables := sealTables_eq g.alpha g.beta 0 0 g.tables (m := g.nextWitness) hwit
    (rfl : g.constraints.length = g.constraints.length)
  have hlookups := foldlM_sealLookup g.alpha g.beta (fun _ => []) (m := g.nextWitness)
    (d := g.tablesStart) g.tables g.constraints [] rfl g.lookups hseal hids hlook
  have hzero : g.challengedLayout.tablesDataSize + totalWit g.tables = totalWit g.tables :=
    Nat.zero_add _
  rw [hzero] at htables
  simp only [List.append_nil, List.nil_append] at hlookups
  have hlen : ∀ rhs, (tableRows g.alpha g.beta rhs 0
      (placeTables g.nextWitness g.tablesStart g.constraints.length g.tables)).length
      = totalRows g.tables := by
    intro rhs
    rw [length_tableRows, placeTables_table]
  simp only [sealRows, places, htables, hlookups, Option.bind_eq_bind, Option.bind_some,
    Option.pure_def, List.length_append, hlen, length_lookupRows _ _ _ _ hseal]
  have hsub : g.constraints.length + totalRows g.tables - g.constraints.length
      = totalRows g.tables := Nat.add_sub_cancel_left ..
  have hsub' : g.constraints.length + totalRows g.tables + totalWidth g.lookups
      - g.constraints.length - totalRows g.tables = totalWidth g.lookups := by omega
  have hlayout : g.challengedLayout.lookupsDataSize + totalWidth g.lookups
      = totalWidth g.lookups := Nat.zero_add _
  rw [hsub, hsub', hlayout]
  rfl

/-- `seal` builds the system in closed form. -/
theorem R1CGen.seal_eq (g : R1CGen) (hne : g.tables ≠ [])
    (hseal : ∀ l ∈ g.lookups, l.Sealable) (hids : g.LookupsInRange) :
    g.seal = some g.sealed := by
  have hnil : (g.places.map fun p => p.sealInfo 0).isEmpty = false := by
    rw [List.isEmpty_eq_false_iff, ← List.length_pos_iff, List.length_map, places,
      length_placeTables]
    exact List.length_pos_iff.mpr hne
  have hinit := initTables_eq g
  simp only [WitnessLayout.ofAlgebraic] at hinit
  rw [← R1CGen.sealRows_eq g hseal hids]
  by_cases hw : g.wide = true
  · have hmax := (wide_iff g).mpr hw
    simp only [R1CGen.seal, hinit, hnil, if_pos hmax, R1CGen.beta, R1CGen.challengedLayout,
      R1CGen.challengesSize, hw, if_true]
    rfl
  · have hmax := fun h => hw ((wide_iff g).mp h)
    simp only [R1CGen.seal, hinit, hnil, if_neg hmax, R1CGen.beta, R1CGen.challengedLayout,
      R1CGen.challengesSize, if_neg hw]
    rfl

end Mavros
