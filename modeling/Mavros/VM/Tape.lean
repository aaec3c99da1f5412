/-
# `Mavros.VM.Tape` — the vectors of phase 1 while it runs

What the vectors hold after part of a program, in terms of the generator's state
after the same part and of its final state: the algebraic rows, the dumped tables
and the lookup tape in `out_a`, `out_b`, `out_c`; the witnesses and the counters of
the keys in the witness; and a `TableInfo` for each table, at its place in the
sealed system.  `VmRel` says it; each opcode has a lemma that keeps it.

## What is proved

* `VmRel.r1c`, `VmRel.writeWitness`: a row, and a witness.
* `VmRel.rngchk8Table`, `VmRel.spreadTable`, `VmRel.arrayTable`: a table of each kind, with its
  values dumped.
* `VmRel.lookupKey`, `VmRel.lookupKeyValue`: a lookup of either width, counted and put on the tape.

## How it goes

Tables and lookups of the machine are appended, like those of the generator, so each vector is a
list followed by zeros (`Mavros.Lib.Sections`) and a write at the end of a section is an append.  A
lookup is written in parts, and in between the tape and the counters are ahead of the generator's
lookups; therefore `VmRel` has them as parameters of their own, and `Synced` is the relation
with the generator's lookups on the tape.

A counter goes up by one for each key that is counted (`bumpMultiplicity`).  That it lies in the
witness is asked of the lookup (`LookupConstraint.Countable`).
-/
import Mavros.Lib.Sections
import Mavros.R1CGen.ExecSpec
import Mavros.VM.Forward

namespace Mavros

open Lib

/-! ## What is written for a table and for a lookup -/

/-- The `TableInfo` of a place in the sealed system. -/
def TablePlace.info (p : TablePlace) : TableInfo :=
  { multiplicitiesWit := p.mult
    numIndices := 1
    numValues := p.table.width - 1
    length := p.table.len
    elemInversesWitnessSectionOffset := p.wit
    elemInversesConstraintSectionOffset := p.cnst }

/-- A table in `out_a`: its values in the `x` slots. -/
def Table.dump (w : Nat → Fr) (t : Table) : List Cell :=
  if t.width = 1 then List.replicate t.rowCount 0
  else (List.range t.len).flatMap (fun i => [Cell.ofFr ((t.value i).eval w), 0]) ++ [0]

/-- An entry of the lookup tape, spread over `out_a`, `out_b` and `out_c`. -/
structure TapeEntry where
  table : Cell
  elem : Cell
  flag : Cell
deriving DecidableEq, Repr

/-- The entry of a key: as a number when it is counted. -/
def keyEntry (w : Nat → Fr) (k : Nat) (key flag : LC) : TapeEntry :=
  { table := k
    elem := if flag.eval w = 1 then lowU64 (key.eval w) else Cell.ofFr (key.eval w)
    flag := if flag.eval w = 1 then 1 else 0 }

/-- The entry of a looked-up value. -/
def valueEntry (w : Nat → Fr) (k : Nat) (value : LC) : TapeEntry :=
  { table := k, elem := Cell.ofFr (value.eval w), flag := 0 }

/-- The entries of a lookup, one for each of its rows. -/
def LookupConstraint.tape (w : Nat → Fr) (l : LookupConstraint) : List TapeEntry :=
  match l.elements with
  | [key] => [keyEntry w l.tableId key l.flag]
  | [key, value] => [valueEntry w l.tableId value, keyEntry w l.tableId key l.flag]
  | _ => []

/-- The key column of a lookup. -/
def LookupConstraint.key (l : LookupConstraint) : LC := l.elements.headD []

/-- The value column, where there is one. -/
def LookupConstraint.value (l : LookupConstraint) : LC := l.elements.getD 1 []

/-- Where in the witness a key that is looked up in table `k` is counted. -/
def counterOf (w : Nat → Fr) (G : R1CGen) (k : Nat) (key : LC) : Nat :=
  G.nextWitness + totalLen (G.tables.take k) + lowU64 (key.eval w)

/-- The counter of a lookup. -/
def LookupConstraint.counter (w : Nat → Fr) (G : R1CGen) (l : LookupConstraint) : Nat :=
  counterOf w G l.tableId l.key

/-- How often the counter at `i` was bumped. -/
def counted (w : Nat → Fr) (G : R1CGen) (ls : List LookupConstraint) (i : Nat) : Nat :=
  ls.countP fun l => l.flag.eval w = 1 ∧ l.counter w G = i

/-- A lookup the machine can make: its flag is a bit, and a key that is counted has
its counter in the witness. -/
def LookupConstraint.Countable (w : Nat → Fr) (G : R1CGen) (l : LookupConstraint) : Prop :=
  l.flag.eval w = 0 ∨
    l.flag.eval w = 1 ∧ l.counter w G < G.nextWitness + totalLen G.tables

instance (w : Nat → Fr) (G : R1CGen) : DecidablePred (LookupConstraint.Countable w G) :=
  fun _ => inferInstanceAs (Decidable (_ ∨ _ ∧ _))

theorem LookupConstraint.length_tape (w : Nat → Fr) {l : LookupConstraint} (h : l.Sealable) :
    (l.tape w).length = l.width := by
  obtain ⟨tableId, elements, flag⟩ := l
  rcases h with h | h
  · obtain ⟨key, rfl⟩ := List.length_eq_one_iff.mp h
    rfl
  · obtain ⟨key, value, rfl⟩ := List.length_eq_two.mp h
    rfl

theorem length_flatMap_tape (w : Nat → Fr) {ls : List LookupConstraint}
    (h : ∀ l ∈ ls, l.Sealable) :
    (ls.flatMap (LookupConstraint.tape w)).length = totalWidth ls := by
  induction ls with
  | nil => rfl
  | cons l ls ih =>
      rw [List.flatMap_cons, List.length_append, ih fun l' h' => h l' (List.mem_cons_of_mem _ h'),
        l.length_tape w (h l List.mem_cons_self)]
      rfl

theorem Table.length_dump (w : Nat → Fr) (t : Table) : (t.dump w).length = t.rowCount := by
  rcases t.width_eq with h | h
  · simp [dump, h]
  · simp [dump, h, rowCount, List.length_flatMap, Nat.mul_comm]

theorem length_flatMap_dump (w : Nat → Fr) (ts : List Table) :
    (ts.flatMap (Table.dump w)).length = totalRows ts := by
  simp only [List.length_flatMap, Table.length_dump, totalRows]

theorem lowU64_lt (x : Fr) : lowU64 x < 2 ^ 64 := Nat.mod_lt _ (by norm_num)

@[simp] theorem lowU64_zero : lowU64 0 = 0 := by simp [lowU64]

@[simp] theorem lowU64_one : lowU64 1 = 1 := by
  simp [lowU64, ZMod.val_one'' (n := modulus) (by decide)]

/-! ## The relation -/

/-- The vectors of the machine, with `tape` on the lookup tape and `count` in the
counters, against the state `g` on the way to `G`; the data witnesses of the tables
start `cs` behind the challenges. -/
structure VmRel (w : Nat → Fr) (G : R1CGen) (cs : Nat) (g : R1CGen) (tape : List TapeEntry)
    (count : Nat → Nat) (v : FwdVm) : Prop where
  outA : v.outA = sections G.constraints.length (totalRows G.tables)
    (g.constraints.map fun r => Cell.ofFr (r.a.eval w)) (g.tables.flatMap (Table.dump w))
    (tape.map TapeEntry.table)
  outB : v.outB = sections G.constraints.length (totalRows G.tables)
    (g.constraints.map fun r => Cell.ofFr (r.b.eval w)) [] (tape.map TapeEntry.elem)
  outC : v.outC = sections G.constraints.length (totalRows G.tables)
    (g.constraints.map fun r => Cell.ofFr (r.c.eval w)) [] (tape.map TapeEntry.flag)
  witness : ∀ i < G.nextWitness,
    v.witPreComm i = if i < g.nextWitness then Cell.ofFr (w i) else 0
  counters : ∀ i, G.nextWitness ≤ i → v.witPreComm i = count i
  witPreCommSize : v.witPreCommSize = G.nextWitness + totalLen G.tables
  outOff : v.outOff = g.constraints.length
  algebraicWitness : v.algebraicWitness = g.nextWitness
  multiplicitiesWitness : v.multiplicitiesWitness = G.nextWitness + totalLen g.tables
  lookupsOff : v.lookupsOff = G.constraints.length + totalRows G.tables + tape.length
  cnst : v.elemInversesConstraintSectionOffset = G.constraints.length + totalRows g.tables
  wit : v.elemInversesWitnessSectionOffset = cs + totalWit g.tables
  tables : v.tables =
    (placeTables G.nextWitness cs G.constraints.length g.tables).map TablePlace.info
  rgchk8 : v.rgchk8 = g.tables.findIdx? (· == .range 8)
  spreadTables : ∀ bits, v.spreadTables[bits]? =
    if bits < 17 then some (g.tables.findIdx? (· == .spread bits)) else none

namespace VmRel

variable {w : Nat → Fr} {G g g' : R1CGen} {cs : Nat} {tape : List TapeEntry}
  {count : Nat → Nat} {v : FwdVm}

/-- `run_phase1` starts with the state `R1CGen::new`. -/
theorem newWitgen (w : Nat → Fr) {wl : WitnessLayout} {cl : ConstraintsLayout}
    (halg : wl.algebraicSize = G.nextWitness) (hmult : wl.multiplicitiesSize = totalLen G.tables)
    (hcnst : cl.algebraicSize = G.constraints.length)
    (hrows : cl.tablesDataSize = totalRows G.tables) :
    VmRel w G wl.challengesSize .new [] (fun _ => 0) (.newWitgen wl cl) where
  outA := sections_nil.symm
  outB := sections_nil.symm
  outC := sections_nil.symm
  witness := fun _ _ => rfl
  counters := fun _ _ => rfl
  witPreCommSize := by rw [← halg, ← hmult]; rfl
  outOff := rfl
  algebraicWitness := rfl
  multiplicitiesWitness := halg
  lookupsOff := by rw [← hcnst, ← hrows]; rfl
  cnst := hcnst
  wit := Nat.add_sub_cancel_left ..
  tables := rfl
  rgchk8 := rfl
  spreadTables := fun _ => List.getElem?_replicate

/-- The cells of the arrays and the lookups are kept elsewhere. -/
theorem gen_congr (h : VmRel w G cs g tape count v) (hc : g'.constraints = g.constraints)
    (ht : g'.tables = g.tables) (hn : g'.nextWitness = g.nextWitness) :
    VmRel w G cs g' tape count v := by
  obtain ⟨cs, ts, ls, n, ids, rc⟩ := g
  obtain ⟨cs', ts', ls', n', ids', rc'⟩ := g'
  subst hc ht hn
  exact { h with }

/-! ## Rows and witnesses -/

theorem r1c (h : VmRel w G cs g tape count v) (row : R1C)
    (hlt : g.constraints.length < G.constraints.length) :
    VmRel w G cs { g with constraints := g.constraints ++ [row] } tape count
      (v.r1c (row.a.eval w) (row.b.eval w) (row.c.eval w)) := by
  have hwrite : ∀ (f : R1C → LC) (y z : List Cell),
      writeFr (sections G.constraints.length (totalRows G.tables)
          (g.constraints.map fun r => Cell.ofFr ((f r).eval w)) y z) g.constraints.length
          ((f row).eval w)
        = sections G.constraints.length (totalRows G.tables)
          ((g.constraints ++ [row]).map fun r => Cell.ofFr ((f r).eval w)) y z := by
    intro f y z
    have hup := update_sections_first (t := totalRows G.tables) (y := y) (z := z)
      (x := g.constraints.map fun r => Cell.ofFr ((f r).eval w)) (s := G.constraints.length)
      (Cell.ofFr ((f row).eval w)) (by simpa using hlt)
    simpa only [writeFr, List.length_map, List.map_append, List.map_cons, List.map_nil] using hup
  exact { h with
    outA := by simp only [FwdVm.r1c, h.outA, h.outOff]; exact hwrite R1C.a _ _
    outB := by simp only [FwdVm.r1c, h.outB, h.outOff]; exact hwrite R1C.b _ _
    outC := by simp only [FwdVm.r1c, h.outC, h.outOff]; exact hwrite R1C.c _ _
    outOff := by simp [FwdVm.r1c, h.outOff] }

theorem writeWitness (h : VmRel w G cs g tape count v) (hlt : g.nextWitness < G.nextWitness) :
    VmRel w G cs g.freshWitness.2 tape count (v.writeWitness (w g.nextWitness)) :=
  { h with
    witness := fun i hi => by
      show Function.update v.witPreComm v.algebraicWitness (Cell.ofFr (w g.nextWitness)) i
        = if i < g.nextWitness + 1 then Cell.ofFr (w i) else 0
      rw [h.algebraicWitness]
      by_cases heq : i = g.nextWitness
      · subst heq
        rw [Function.update_self, if_pos (Nat.lt_succ_self _)]
      · rw [Function.update_of_ne heq, h.witness i hi]
        exact if_congr (by omega) rfl rfl
    counters := fun i hi => by
      have hne : i ≠ v.algebraicWitness := by
        rw [h.algebraicWitness]
        omega
      exact (Function.update_of_ne hne _ _).trans (h.counters i hi)
    algebraicWitness := congrArg (· + 1) h.algebraicWitness }

/-! ## New tables

The dump fills every other slot of a table of two columns.
-/

/-- A dump fills every other slot. -/
theorem foldl_dump {s t o : Nat} {x z : List Cell} (values : List Fr) :
    ∀ {n : Nat} {y : List Cell}, o + 2 * n = s + y.length → y.length + 2 * values.length ≤ t →
    (values.zipIdx n).foldl (fun out vi => writeFr out (o + 2 * vi.2) vi.1)
        (sections s t x y z)
      = sections s t x (y ++ values.flatMap fun a => [Cell.ofFr a, 0]) z := by
  induction values with
  | nil => intro n y _ _; simp
  | cons a values ih =>
      intro n y ho ht
      rw [List.length_cons] at ht
      have hwrite : writeFr (sections s t x y z) (o + 2 * n) a
          = sections s t x (y ++ [Cell.ofFr a, 0]) z := by
        rw [ho, writeFr, update_sections_second _ (by omega), ← sections_skip 1, List.append_assoc]
        rfl
      rw [List.zipIdx_cons, List.foldl_cons, hwrite,
        ih (by simp; omega) (by simp; omega), List.flatMap_cons, List.append_assoc]

/-- The values the machine dumps for a table of two columns. -/
def Dumps (w : Nat → Fr) (t : Table) (values : List Fr) : Prop :=
  t.width = 2 ∧ values = (List.range t.len).map fun i => (t.value i).eval w

theorem Dumps.dump_eq {t : Table} {values : List Fr} (h : Dumps w t values) :
    t.dump w = (values.flatMap fun a => [Cell.ofFr a, 0]) ++ [0] := by
  rw [h.2, Table.dump, if_neg (by rw [h.1]; decide), List.flatMap_map]

theorem totalRows_le_of_prefix {ts us : List Table} (h : ts <+: us) :
    totalRows ts ≤ totalRows us := by
  obtain ⟨vs, rfl⟩ := h
  simp [totalRows]

theorem totalLen_le_of_prefix {ts us : List Table} (h : ts <+: us) :
    totalLen ts ≤ totalLen us := by
  obtain ⟨vs, rfl⟩ := h
  simp [totalLen]

theorem totalRows_snoc (ts : List Table) (t : Table) :
    totalRows (ts ++ [t]) = totalRows ts + t.rowCount := by
  simp [totalRows]

/-- `out_a` after the dump of a two-column table. -/
theorem dumpValues (h : VmRel w G cs g tape count v) {t : Table} {values : List Fr}
    (hd : Dumps w t values) (hpre : g.tables ++ [t] <+: G.tables) :
    (v.dumpValues values).outA = sections G.constraints.length (totalRows G.tables)
      (g.constraints.map fun r => Cell.ofFr (r.a.eval w))
      ((g.tables ++ [t]).flatMap (Table.dump w)) (tape.map TapeEntry.table) := by
  have hrows := totalRows_le_of_prefix hpre
  have hlen : values.length = t.len := by rw [hd.2]; simp
  rw [totalRows_snoc, Table.rowCount, hd.1] at hrows
  have hfold := foldl_dump (s := G.constraints.length) (t := totalRows G.tables)
    (o := v.elemInversesConstraintSectionOffset)
    (x := g.constraints.map fun r => Cell.ofFr (r.a.eval w)) (z := tape.map TapeEntry.table)
    values (n := 0) (y := g.tables.flatMap (Table.dump w))
    (by rw [h.cnst, length_flatMap_dump]; rfl) (by rw [length_flatMap_dump, hlen]; omega)
  have hskip := sections_skip (s := G.constraints.length) (t := totalRows G.tables)
    (x := g.constraints.map fun r => Cell.ofFr (r.a.eval w)) (z := tape.map TapeEntry.table)
    (y := g.tables.flatMap (Table.dump w) ++ values.flatMap fun a => [Cell.ofFr a, 0]) 1
  rw [FwdVm.dumpValues, h.outA]
  refine hfold.trans (hskip.symm.trans ?_)
  rw [List.flatMap_append, List.flatMap_singleton, hd.dump_eq, List.append_assoc]
  rfl

/-- A one-column table leaves its block empty. -/
theorem skipTable (h : VmRel w G cs g tape count v) {t : Table} (ht : t.width = 1) :
    v.outA = sections G.constraints.length (totalRows G.tables)
      (g.constraints.map fun r => Cell.ofFr (r.a.eval w))
      ((g.tables ++ [t]).flatMap (Table.dump w)) (tape.map TapeEntry.table) := by
  rw [List.flatMap_append, List.flatMap_singleton, Table.dump, if_pos ht, sections_skip]
  exact h.outA

/-- A new table, its values being dumped. -/
theorem pushTable (h : VmRel w G cs g tape count v) (t : Table)
    (rg : Option Nat) (sp : List (Option Nat)) {out : Nat → Cell}
    (hout : out = sections G.constraints.length (totalRows G.tables)
      (g.constraints.map fun r => Cell.ofFr (r.a.eval w))
      ((g.tables ++ [t]).flatMap (Table.dump w)) (tape.map TapeEntry.table))
    (hrg : rg = (g.tables ++ [t]).findIdx? (· == .range 8))
    (hsp : ∀ bits, sp[bits]? =
      if bits < 17 then some ((g.tables ++ [t]).findIdx? (· == .spread bits)) else none) :
    VmRel w G cs { g with tables := g.tables ++ [t] } tape count
      { v.pushTable (t.width - 1) t.len with
        outA := out, rgchk8 := rg, spreadTables := sp } := by
  have hwidth : t.width - 1 + 1 = t.width := by
    rcases t.width_eq with h | h <;> rw [h]
  exact { h with
    outA := hout
    rgchk8 := hrg
    spreadTables := hsp
    multiplicitiesWitness := by
      show v.multiplicitiesWitness + t.len = _
      rw [h.multiplicitiesWitness, Nat.add_assoc]
      simp [totalLen]
    cnst := by
      show v.elemInversesConstraintSectionOffset + ((t.width - 1 + 1) * t.len + 1) = _
      rw [h.cnst, totalRows_snoc, hwidth, Nat.add_assoc]
      rfl
    wit := by
      show v.elemInversesWitnessSectionOffset + (t.width - 1 + 1) * t.len = _
      rw [h.wit, hwidth, Nat.add_assoc]
      simp [totalWit, Table.witCount]
    tables := by
      show v.tables ++ [_] = _
      rw [h.tables, placeTables_append, List.map_append, h.multiplicitiesWitness, h.cnst, h.wit]
      rfl }

theorem length_tables (h : VmRel w G cs g tape count v) : v.tables.length = g.tables.length := by
  rw [h.tables]
  simp

theorem findIdx?_snoc (p : Table → Bool) (ts : List Table) (t : Table) :
    (ts ++ [t]).findIdx? p
      = (ts.findIdx? p).or (if p t then some ts.length else none) := by
  rw [List.findIdx?_append]
  cases h : p t <;> simp [List.findIdx?_cons, h]

/-- The range table of the machine is the generator's. -/
theorem rngchk8Table (h : VmRel w G cs g tape count v) {g₁ : R1CGen}
    (hres : g.rangeTable = some g₁) :
    v.rngchk8Table.1 = 0 ∧ VmRel w G cs g₁ tape count v.rngchk8Table.2 := by
  obtain ⟨hnil, rfl⟩ | ⟨rfl, ts, hts⟩ := R1CGen.rangeTable_cases hres
  · have hrg : v.rgchk8 = none := by rw [h.rgchk8, hnil]; rfl
    have hlen : v.tables.length = 0 := by rw [h.length_tables, hnil]; rfl
    have hpush := h.pushTable (.range 8) (some 0) v.spreadTables
      (h.skipTable rfl) (by rw [hnil]; rfl) fun bits => by
        rw [h.spreadTables, findIdx?_snoc]
        simp
    simp only [FwdVm.rngchk8Table, hrg, hlen, true_and]
    rw [hnil] at hpush
    exact hpush
  · have hrg : v.rgchk8 = some 0 := by rw [h.rgchk8, hts]; rfl
    simp only [FwdVm.rngchk8Table, hrg, true_and]
    exact h

theorem dumps_spread (hw : w 0 = 1) {bits : Nat} (hbits : bits < 17) :
    Dumps w (.spread bits) ((List.range (2 ^ bits)).map fun i => (vmSpreadBits i : Fr)) := by
  refine ⟨rfl, List.map_congr_left fun i hi => ?_⟩
  have hpow : 2 ^ bits ≤ 2 ^ 32 := Nat.pow_le_pow_right (by norm_num) (by omega)
  have hi : i < 2 ^ 32 := Nat.lt_of_lt_of_le (List.mem_range.mp hi) hpow
  simp [Table.value, hw, spreadBits_eq_vmSpreadBits hi]

/-- The spread table of the machine is the generator's, for the widths it has room for. -/
theorem spreadTable (h : VmRel w G cs g tape count v) (hw : w 0 = 1) {bits : Nat}
    (hbits : bits < 17) (hpre : (g.spreadTable bits).2.tables <+: G.tables) :
    ∃ v₁, v.spreadTable bits = some ((g.spreadTable bits).1, v₁) ∧
      VmRel w G cs (g.spreadTable bits).2 tape count v₁ := by
  have hslot : v.spreadTables[bits]? = some (g.tables.findIdx? (· == .spread bits)) := by
    rw [h.spreadTables, if_pos hbits]
  cases hidx : g.tables.findIdx? (· == .spread bits) with
  | some idx =>
      have hgen : g.spreadTable bits = (idx, g) := by simp [R1CGen.spreadTable, hidx]
      rw [hgen]
      exact ⟨v, by simp [FwdVm.spreadTable, hslot, hidx], h⟩
  | none =>
      have hgen : g.spreadTable bits
          = (g.tables.length, { g with tables := g.tables ++ [.spread bits] }) := by
        simp [R1CGen.spreadTable, hidx]
      rw [hgen] at hpre ⊢
      have hlt : bits < v.spreadTables.length := (List.getElem?_eq_some_iff.mp hslot).1
      have hpush := h.pushTable (.spread bits) v.rgchk8
        (v.spreadTables.set bits (some g.tables.length))
        (h.dumpValues (dumps_spread hw hbits) hpre)
        (by rw [h.rgchk8, findIdx?_snoc]; simp) fun b => by
          rw [List.getElem?_set, h.spreadTables, findIdx?_snoc]
          by_cases hb : bits = b
          · subst hb
            simp [hlt, hbits, hidx]
          · simp [hb]
      refine ⟨_, ?_, hpush⟩
      simp only [FwdVm.spreadTable, hslot, hidx, Option.bind_eq_bind, Option.bind_some,
        h.length_tables]
      rfl

/-- The table of an array: its leaves are dumped. -/
theorem arrayTable (h : VmRel w G cs g tape count v) {els : List LC} {values : List Fr}
    (hvalues : List.Forall₂ (fun lc x => lc.eval w = x) els values)
    (hpre : g.tables ++ [.ofElems els] <+: G.tables) :
    VmRel w G cs { g with tables := g.tables ++ [.ofElems els] } tape count
      ((v.dumpValues values).pushTable 1 values.length) := by
  have hlen : values.length = els.length := hvalues.length_eq.symm
  have hd : Dumps w (.ofElems els) values := by
    refine ⟨rfl, List.ext_getElem (by simp [hlen, Table.len]) fun i hi _ => ?_⟩
    have hi' : i < els.length := hlen ▸ hi
    have hrel := (List.forall₂_iff_get.mp hvalues).2 i hi' hi
    simp only [List.getElem_map, List.getElem_range, Table.value]
    rw [List.getD_eq_getElem?_getD, List.getElem?_eq_getElem hi']
    exact hrel.symm
  have hpush := h.pushTable (.ofElems els) v.rgchk8 v.spreadTables
    (h.dumpValues hd hpre) (by rw [h.rgchk8, findIdx?_snoc]; simp) fun b => by
      rw [h.spreadTables, findIdx?_snoc]
      simp
  rw [hlen]
  exact hpush

/-! ## The lookup tape -/

theorem writeU64_next {s t : Nat} {x y z : List Cell} {n : Nat} (hn : n < 2 ^ 64) :
    writeU64 (sections s t x y z) (s + t + z.length) n = sections s t x y (z ++ [n]) := by
  rw [writeU64, sections_third_length, Cell.setLimb0_zero, Nat.mod_eq_of_lt hn,
    update_sections_third]

theorem writeFr_next {s t : Nat} {x y z : List Cell} (a : Fr) :
    writeFr (sections s t x y z) (s + t + z.length) a
      = sections s t x y (z ++ [Cell.ofFr a]) := by
  rw [writeFr, update_sections_third]

theorem emitValue (h : VmRel w G cs g tape count v) {k : Nat} (hk : k < 2 ^ 64) (value : LC) :
    VmRel w G cs g (tape ++ [valueEntry w k value]) count (v.emitValue k (value.eval w)) := by
  have hoff := h.lookupsOff
  exact { h with
    outA := by
      have hnext := writeU64_next (s := G.constraints.length) (t := totalRows G.tables)
        (x := g.constraints.map fun r => Cell.ofFr (r.a.eval w))
        (y := g.tables.flatMap (Table.dump w)) (z := tape.map TapeEntry.table) hk
      simpa [FwdVm.emitValue, h.outA, hoff, valueEntry] using hnext
    outB := by
      have hnext := writeFr_next (s := G.constraints.length) (t := totalRows G.tables)
        (x := g.constraints.map fun r => Cell.ofFr (r.b.eval w)) (y := [])
        (z := tape.map TapeEntry.elem) (value.eval w)
      simpa [FwdVm.emitValue, h.outB, hoff, valueEntry] using hnext
    outC := by
      have hnext := writeU64_next (s := G.constraints.length) (t := totalRows G.tables)
        (x := g.constraints.map fun r => Cell.ofFr (r.c.eval w)) (y := [])
        (z := tape.map TapeEntry.flag) (n := 0) (by norm_num)
      simpa [FwdVm.emitValue, h.outC, hoff, valueEntry] using hnext
    lookupsOff := by simp [FwdVm.emitValue, hoff, Nat.add_assoc] }

/-- The counter of a key that is counted goes up by one. -/
theorem bumpMultiplicity (h : VmRel w G cs g tape count v) (table : TableInfo) (key : Nat)
    (hlo : G.nextWitness ≤ table.multiplicitiesWit)
    (hhi : table.multiplicitiesWit + key < G.nextWitness + totalLen G.tables)
    (hcount : count (table.multiplicitiesWit + key) + 1 < 2 ^ 64) :
    ∃ v', v.bumpMultiplicity table key 1 = some v' ∧
      VmRel w G cs g tape
        (fun j => count j + if table.multiplicitiesWit + key = j then 1 else 0) v' ∧
      v'.tables = v.tables := by
  have hsize : table.multiplicitiesWit + key < v.witPreCommSize := h.witPreCommSize ▸ hhi
  refine ⟨_, if_pos hsize, ?_, rfl⟩
  have hat := h.counters (table.multiplicitiesWit + key) (by omega)
  exact { h with
    witness := fun i hi => by
      have hne : i ≠ table.multiplicitiesWit + key := by omega
      exact (Function.update_of_ne hne _ _).trans (h.witness i hi)
    counters := fun i hi => by
      by_cases heq : i = table.multiplicitiesWit + key
      · subst heq
        rw [if_pos rfl]
        refine (Function.update_self _ _ _).trans ?_
        rw [hat, Cell.limb0, Cell.setLimb0, Nat.mod_eq_of_lt (Nat.lt_of_succ_lt hcount),
          Nat.mod_eq_of_lt hcount, Nat.sub_self, Nat.zero_add]
      · rw [if_neg (Ne.symm heq), Nat.add_zero]
        exact (Function.update_of_ne heq _ _).trans (h.counters i hi) }

/-- A table the generator has made has its section at its place. -/
theorem getElem?_tables (h : VmRel w G cs g tape count v) (hpre : g.tables <+: G.tables)
    {k : Nat} (hk : k < g.tables.length) :
    ∃ table, v.tables[k]? = some table ∧
      table.multiplicitiesWit = G.nextWitness + totalLen (G.tables.take k) := by
  have hget := getElem?_placeTables (m := G.nextWitness) (d := cs)
    (c := G.constraints.length) (List.getElem?_eq_getElem hk)
  obtain ⟨rest, hrest⟩ := hpre
  refine ⟨_, by rw [h.tables, List.getElem?_map, hget]; rfl, ?_⟩
  rw [← hrest, List.take_append_of_le_length (Nat.le_of_lt hk)]
  rfl

theorem emitKey (h : VmRel w G cs g tape count v) (hpre : g.tables <+: G.tables) {k : Nat}
    (hk : k < g.tables.length) (hk64 : k < 2 ^ 64) {key flag : LC}
    (hflag : flag.eval w = 0 ∨ flag.eval w = 1 ∧
      counterOf w G k key < G.nextWitness + totalLen G.tables)
    (hcount : ∀ i, count i + 1 < 2 ^ 64) :
    ∃ v', v.emitKey k (key.eval w) (lowU64 (flag.eval w)) = some v' ∧
      VmRel w G cs g (tape ++ [keyEntry w k key flag])
        (fun j => count j + if flag.eval w = 1 ∧ counterOf w G k key = j then 1 else 0) v' := by
  obtain ⟨table, htable, hmult⟩ := h.getElem?_tables hpre hk
  -- the three writes, once the key is counted or not
  have hwrite : ∀ {v₁ : FwdVm} {count₁}, VmRel w G cs g tape count₁ v₁ →
      VmRel w G cs g (tape ++ [keyEntry w k key flag]) count₁
        { v₁ with
          outA := writeU64 v₁.outA v₁.lookupsOff k
          outB := if lowU64 (flag.eval w) ≠ 0
            then writeU64 v₁.outB v₁.lookupsOff (lowU64 (key.eval w))
            else writeFr v₁.outB v₁.lookupsOff (key.eval w)
          outC := writeU64 v₁.outC v₁.lookupsOff (lowU64 (flag.eval w))
          lookupsOff := v₁.lookupsOff + 1 } := by
    intro v₁ count₁ h₁
    have hoff := h₁.lookupsOff
    exact { h₁ with
      outA := by
        have hnext := writeU64_next (s := G.constraints.length) (t := totalRows G.tables)
          (x := g.constraints.map fun r => Cell.ofFr (r.a.eval w))
          (y := g.tables.flatMap (Table.dump w)) (z := tape.map TapeEntry.table) hk64
        simpa [h₁.outA, hoff, keyEntry] using hnext
      outB := by
        have hnum := writeU64_next (s := G.constraints.length) (t := totalRows G.tables)
          (x := g.constraints.map fun r => Cell.ofFr (r.b.eval w)) (y := [])
          (z := tape.map TapeEntry.elem) (lowU64_lt (key.eval w))
        have hfield := writeFr_next (s := G.constraints.length) (t := totalRows G.tables)
          (x := g.constraints.map fun r => Cell.ofFr (r.b.eval w)) (y := [])
          (z := tape.map TapeEntry.elem) (key.eval w)
        rcases hflag with hf | ⟨hf, -⟩
        · simpa [h₁.outB, hoff, keyEntry, hf] using hfield
        · simpa [h₁.outB, hoff, keyEntry, hf] using hnum
      outC := by
        have hnext := writeU64_next (s := G.constraints.length) (t := totalRows G.tables)
          (x := g.constraints.map fun r => Cell.ofFr (r.c.eval w)) (y := [])
          (z := tape.map TapeEntry.flag) (lowU64_lt (flag.eval w))
        rcases hflag with hf | ⟨hf, -⟩
        · simpa [h₁.outC, hoff, keyEntry, hf] using hnext
        · simpa [h₁.outC, hoff, keyEntry, hf] using hnext
      lookupsOff := by simp [hoff, Nat.add_assoc] }
  rcases hflag with hf | ⟨hf, hlt⟩
  · have hcong : (fun j => count j + if flag.eval w = 1 ∧ counterOf w G k key = j then 1 else 0)
        = count := by
      funext j
      rw [if_neg (by rw [hf]; exact fun h => absurd h.1 (by decide)), Nat.add_zero]
    refine ⟨_, ?_, hcong.symm ▸ hwrite h⟩
    simp only [FwdVm.emitKey, htable, hf, lowU64_zero, ne_eq, not_true_eq_false, if_false,
      Option.bind_eq_bind, Option.bind_some, Option.pure_def]
  · have hsum : table.multiplicitiesWit + lowU64 (key.eval w) = counterOf w G k key := by
      rw [hmult]
      rfl
    obtain ⟨v₁, hbump, hrel, -⟩ := h.bumpMultiplicity table
      (lowU64 (key.eval w)) (by rw [hmult]; exact Nat.le_add_right _ _)
      (hsum ▸ hlt) (hcount _)
    have hcong : (fun j => count j + if flag.eval w = 1 ∧ counterOf w G k key = j then 1 else 0)
        = fun j => count j
          + if table.multiplicitiesWit + lowU64 (key.eval w) = j then 1 else 0 := by
      funext j
      rw [hsum]
      simp [hf]
    refine ⟨_, ?_, hcong.symm ▸ hwrite hrel⟩
    simp only [FwdVm.emitKey, htable, hf, lowU64_one, ne_eq, one_ne_zero, not_false_eq_true,
      if_true, Option.bind_eq_bind, Option.bind_some, Option.pure_def, hbump]

/-! ## A whole lookup

The parts of one lookup, and the vectors are in step again.
-/

theorem counted_snoc (w : Nat → Fr) (G : R1CGen) (ls : List LookupConstraint)
    (l : LookupConstraint) (i : Nat) :
    counted w G (ls ++ [l]) i
      = counted w G ls i + if l.flag.eval w = 1 ∧ l.counter w G = i then 1 else 0 := by
  simp only [counted, List.countP_append, List.countP_singleton, decide_eq_true_eq]

theorem counted_le (w : Nat → Fr) (G : R1CGen) (ls : List LookupConstraint) (i : Nat) :
    counted w G ls i ≤ ls.length := List.countP_le_length

/-- The vectors in step with the generator, its lookups on the tape. -/
abbrev Synced (w : Nat → Fr) (G : R1CGen) (cs : Nat) (g : R1CGen) (v : FwdVm) : Prop :=
  VmRel w G cs g (g.lookups.flatMap (LookupConstraint.tape w)) (counted w G g.lookups) v

theorem tape_snoc (ls : List LookupConstraint) (l : LookupConstraint) :
    (ls ++ [l]).flatMap (LookupConstraint.tape w)
      = ls.flatMap (LookupConstraint.tape w) ++ l.tape w := by
  rw [List.flatMap_append, List.flatMap_singleton]

/-- A key alone. -/
theorem lookupKey (h : Synced w G cs g v) (hpre : g.tables <+: G.tables) {k : Nat}
    (hk : k < g.tables.length) (hk64 : k < 2 ^ 64) (hlen : g.lookups.length + 1 < 2 ^ 64)
    {key flag : LC} (hl : LookupConstraint.Countable w G ⟨k, [key], flag⟩) :
    ∃ v', v.emitKey k (key.eval w) (lowU64 (flag.eval w)) = some v' ∧
      Synced w G cs { g with lookups := g.lookups ++ [⟨k, [key], flag⟩] } v' := by
  obtain ⟨v', hrun, hrel⟩ := h.emitKey hpre hk hk64 hl fun i => by
    have := counted_le w G g.lookups i
    omega
  refine ⟨v', hrun, ?_⟩
  have hcount := funext (counted_snoc w G g.lookups ⟨k, [key], flag⟩)
  show VmRel w G cs _ ((g.lookups ++ _).flatMap _) (counted w G (g.lookups ++ _)) v'
  rw [hcount, tape_snoc]
  exact hrel.gen_congr rfl rfl rfl

/-- A key with its value. -/
theorem lookupKeyValue (h : Synced w G cs g v) (hpre : g.tables <+: G.tables) {k : Nat}
    (hk : k < g.tables.length) (hk64 : k < 2 ^ 64) (hlen : g.lookups.length + 1 < 2 ^ 64)
    {key value flag : LC} (hl : LookupConstraint.Countable w G ⟨k, [key, value], flag⟩) :
    ∃ v', v.forwardKvLookupEmit k (key.eval w) (value.eval w) (lowU64 (flag.eval w)) = some v' ∧
      Synced w G cs { g with lookups := g.lookups ++ [⟨k, [key, value], flag⟩] } v' := by
  obtain ⟨v', hrun, hrel⟩ := (h.emitValue hk64 value).emitKey hpre hk hk64 hl fun i => by
    have := counted_le w G g.lookups i
    omega
  refine ⟨v', hrun, ?_⟩
  have hcount := funext (counted_snoc w G g.lookups ⟨k, [key, value], flag⟩)
  show VmRel w G cs _ ((g.lookups ++ _).flatMap _) (counted w G (g.lookups ++ _)) v'
  rw [hcount, tape_snoc]
  rw [List.append_assoc] at hrel
  exact hrel.gen_congr rfl rfl rfl

end VmRel

end Mavros
