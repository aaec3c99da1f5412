/-
# `Mavros.VM.Tables` — the machine makes the generator's tables

The tables the forward program makes, in order, with their lengths, widths and
places, are those of the sealed system; their dumped values are the values of the
generator's entries; and every entry of the lookup tape names the table the
generator gave its lookup.

The two sides part where one of them gives up: the generator wants the range table
to be table 0, and the machine has no spread tables past width 16.

## What is proved

* `Program.tablesAgree`: for every program that the generator takes to its end and can seal, whose
  spread tables have at most 16 bits, whose counters lie in the witness, and which overwrites no
  array with a table in place, the machine goes through and the tables match (`TablesMatch`).
* `tables_disagree`: two programs on which one of the sides gives up.

## How it goes

`Program.forward_sim` is the simulation over a whole run, and `VmRel.tablesMatch` reads the
statement off the relation it ends in.  The layouts are those of the sealed system, so their sizes
have to be known first (`sealedSizes`), with no table or with some.
-/
import Mavros.VM.ForwardSpec

namespace Mavros

open Lib

/-- The witness as the program writes it. -/
def Program.assignment (prog : Program) (i : Nat) : Fr := prog.witnessValues.getD i 0

/-- The tables of the machine, after a run, and those of the generator. -/
structure TablesMatch (w : Nat → Fr) (g : R1CGen) (r : R1CS) (v : FwdVm) : Prop where
  /-- The same tables in the same order, of the same lengths and widths, where `seal` puts them. -/
  tables : v.tables = (placeTables g.nextWitness r.witnessLayout.challengesSize
    g.constraints.length g.tables).map TablePlace.info
  /-- The values of the two-column tables. -/
  contents : ∀ k t, g.tables[k]? = some t → t.width = 2 → ∀ i < t.len,
    (v.outA (g.constraints.length + totalRows (g.tables.take k) + 2 * i)).toFr
      = (t.value i).eval w
  /-- The table of each lookup, on every row of it. -/
  lookups : ∀ j l, g.lookups[j]? = some l → ∀ e < l.width,
    (v.outA (r.constraintsLayout.lookupsDataStart + totalWidth (g.lookups.take j) + e)).limb0
      = l.tableId

/-- What `seal` says of the sizes, with tables or without. -/
structure SealedSizes (g : R1CGen) (r : R1CS) : Prop where
  algebraic : r.witnessLayout.algebraicSize = g.nextWitness
  multiplicities : r.witnessLayout.multiplicitiesSize = totalLen g.tables
  constraints : r.constraintsLayout.algebraicSize = g.constraints.length
  tables : r.constraintsLayout.tablesDataSize = totalRows g.tables
  tableWits : r.witnessLayout.tablesDataSize = totalWit g.tables
  lookups : r.constraintsLayout.lookupsDataSize = totalWidth g.lookups
  challenges : g.tables ≠ [] → r.witnessLayout.challengesSize = g.challengesSize
  rows : r.constraints = g.constraints ++ tableRows g.alpha g.beta g.sumRhs 0 g.places
    ++ lookupRows g.alpha g.beta g.lookupsStart g.lookups
  length : r.constraints.length
    = g.constraints.length + totalRows g.tables + totalWidth g.lookups

theorem R1CGen.WellFormed.lookups_nil {g : R1CGen} (hwf : g.WellFormed) (hnil : g.tables = []) :
    g.lookups = [] := by
  rw [List.eq_nil_iff_forall_not_mem]
  intro l hl
  have hlt := hwf.inRange l hl
  rw [hnil] at hlt
  exact Nat.not_lt_zero _ hlt

theorem sealedSizes {g : R1CGen} (hwf : g.WellFormed) {r : R1CS} (hseal : g.seal = some r) :
    SealedSizes g r := by
  by_cases hne : g.tables = []
  · rw [g.seal_nil hne] at hseal
    obtain rfl := Option.some.inj hseal
    have hlookups := hwf.lookups_nil hne
    refine ⟨rfl, by rw [hne]; rfl, rfl, by rw [hne]; rfl, by rw [hne]; rfl,
      by rw [hlookups]; rfl, fun h => absurd hne h, ?_, by rw [hne, hlookups]; rfl⟩
    simp [R1CGen.places, hne, hlookups, placeTables, tableRows, lookupRows]
  · rw [g.seal_eq hne hwf.sealable hwf.inRange] at hseal
    obtain rfl := Option.some.inj hseal
    refine ⟨rfl, rfl, rfl, rfl, rfl, rfl, fun _ => rfl, rfl, ?_⟩
    simp [R1CGen.sealed, R1CGen.places, placeTables_table, length_lookupRows _ _ _ _ hwf.sealable,
      Nat.add_assoc]

/-- Every table has a row and every lookup has one. -/
theorem length_le_totalRows (ts : List Table) : ts.length ≤ totalRows ts := by
  induction ts with
  | nil => exact Nat.le_refl _
  | cons t ts ih =>
      simp only [totalRows, List.map_cons, List.sum_cons, List.length_cons, Table.rowCount] at ih ⊢
      omega

theorem length_le_totalWidth {ls : List LookupConstraint} (h : ∀ l ∈ ls, l.Sealable) :
    ls.length ≤ totalWidth ls := by
  induction ls with
  | nil => exact Nat.le_refl _
  | cons l ls ih =>
      have hl := h l List.mem_cons_self
      have := ih fun l' h' => h l' (List.mem_cons_of_mem _ h')
      simp only [totalWidth, List.map_cons, List.sum_cons, List.length_cons,
        LookupConstraint.Sealable] at this hl ⊢
      omega

/-- The first entry of a value's slot in a dump. -/
theorem Table.getElem?_dump (w : Nat → Fr) {t : Table} (ht : t.width = 2) {i : Nat}
    (hi : i < t.len) : (t.dump w)[2 * i]? = some (Cell.ofFr ((t.value i).eval w)) := by
  have hget := Lib.getElem?_flatMap_range (m := 2)
    (f := fun i => [Cell.ofFr ((t.value i).eval w), 0]) (fun _ => rfl) hi (i := 0) (by omega)
  rw [Nat.add_zero] at hget
  have hlt := (List.getElem?_eq_some_iff.mp hget).1
  rw [dump, if_neg (by rw [ht]; decide), List.getElem?_append_left hlt, hget]
  rfl

theorem LookupConstraint.table_of_mem_tape (w : Nat → Fr) {l : LookupConstraint} {e : TapeEntry}
    (h : e ∈ l.tape w) : e.table = l.tableId := by
  obtain ⟨tableId, elements, flag⟩ := l
  match elements with
  | [] => simp [tape] at h
  | [key] =>
      simp only [tape, List.mem_singleton] at h
      rw [h]
      rfl
  | [key, value] =>
      simp only [tape, List.mem_cons, List.not_mem_nil, or_false] at h
      rcases h with rfl | rfl <;> rfl
  | _ :: _ :: _ :: _ => simp [tape] at h

/-- What the vectors say of the tables once they are in step. -/
theorem VmRel.tablesMatch {w : Nat → Fr} {g : R1CGen} {r : R1CS} {v : FwdVm}
    (hwf : g.WellFormed) (hsizes : SealedSizes g r)
    (h : VmRel.Synced w g r.witnessLayout.challengesSize g v) (hlt : g.tables.length < 2 ^ 64) :
    TablesMatch w g r v where
  tables := h.tables
  contents := fun k t hk ht i hi => by
    have hget := Lib.getElem?_flatMap (f := Table.dump w) hk (i := 2 * i) (by
      rw [t.length_dump, Table.rowCount, ht]
      omega)
    rw [length_flatMap_dump, t.getElem?_dump w ht hi] at hget
    have hbound := (List.getElem?_eq_some_iff.mp hget).1
    rw [length_flatMap_dump] at hbound
    rw [h.outA, Nat.add_assoc, sections_second hbound, List.getD_eq_getElem?_getD, hget,
      Option.getD_some, Cell.toFr_ofFr]
  lookups := fun j l hj e he => by
    have hseal := hwf.sealable l (List.mem_of_getElem? hj)
    have hlen := l.length_tape w hseal
    have he' : e < (l.tape w).length := hlen.symm ▸ he
    have hget := Lib.getElem?_flatMap (f := LookupConstraint.tape w) hj he'
    rw [length_flatMap_tape w fun l' h' => hwf.sealable l' (List.mem_of_mem_take h'),
      List.getElem?_eq_getElem he'] at hget
    have hstart : r.constraintsLayout.lookupsDataStart
        = g.constraints.length + totalRows g.tables := by
      rw [← hsizes.constraints, ← hsizes.tables]
      rfl
    have hid := hwf.inRange l (List.mem_of_getElem? hj)
    rw [h.outA, hstart, Nat.add_assoc (g.constraints.length + totalRows g.tables),
      sections_third, List.getD_eq_getElem?_getD, List.getElem?_map, hget, Option.map_some,
      Option.getD_some, LookupConstraint.table_of_mem_tape w (List.getElem_mem _), Cell.limb0,
      Nat.mod_eq_of_lt (Nat.lt_trans hid hlt)]

/-- The two sides take a program to the end, the machine in the layout the generator
seals, and make the same tables. -/
def Program.TablesAgree (prog : Program) : Prop :=
  ∃ s, prog.symbolic .new = some s ∧ ∀ r, s.gen.seal = some r →
    ∃ v, prog.forward (.newWitgen r.witnessLayout r.constraintsLayout) = some v ∧
      TablesMatch prog.assignment s.gen r v.vm

/-- A part of a run, from the start. -/
theorem Program.forward_prefix {prog pre : Program} {s : SymState} {r : R1CS} {w : Nat → Fr}
    (hpre : pre <+: prog.entry)
    (hw : ∀ i val, prog.entry.witnessValues[i]? = some val → w i = val)
    (hsym : prog.entry.symbolic .new = some s) (hseal : s.gen.seal = some r)
    (hcount : ∀ l ∈ s.gen.lookups, l.Countable w s.gen)
    (hsize : r.constraints.length < 2 ^ 64) (hspread : ∀ instr ∈ prog, instr.SpreadFits)
    (hreuse : prog.entry.ReusesUntabled (.newWitgen r.witnessLayout r.constraintsLayout)) :
    ∃ s₁ v ghost rank, pre.symbolic .new = some s₁ ∧
      pre.forward (.newWitgen r.witnessLayout r.constraintsLayout) = some v ∧
        Sim w s.gen r.witnessLayout.challengesSize s₁ v ghost rank := by
  have hwf := Program.symbolic_wellFormed hsym
  have hsizes := sealedSizes hwf hseal
  have hlength := hsizes.length
  have htables := length_le_totalRows s.gen.tables
  have hlookups := length_le_totalWidth hwf.sealable
  have hok : Runnable w s.gen := ⟨hw 0 1 rfl, hcount, by omega, by omega⟩
  have hvm := VmRel.newWitgen (G := s.gen) w hsizes.algebraic hsizes.multiplicities
    hsizes.constraints hsizes.tables
  have hstart : Sim w s.gen r.witnessLayout.challengesSize .new
      (.newWitgen r.witnessLayout r.constraintsLayout) (fun _ => (.scalar, .const 0))
      (fun _ => 0) := ⟨.nil, .empty _ _ _ _, hvm⟩
  obtain ⟨post, hpost⟩ := hpre
  rw [← hpost] at hsym hreuse
  rw [Program.symbolic_append, Option.bind_eq_some_iff] at hsym
  obtain ⟨s₁, hs₁, hrest⟩ := hsym
  obtain ⟨v, ghost, rank, hrun, hsim⟩ := hstart.run hok .new hs₁ (Program.symbolic_gen hrest).1
    (fun i val hi => by
      rw [SymState.new, R1CGen.new, Nat.zero_add]
      refine hw i val ?_
      rw [← hpost, witnessValues, List.filterMap_append]
      rw [witnessValues] at hi
      rw [List.getElem?_append_left (List.getElem?_eq_some_iff.mp hi).1, hi])
    (fun instr hinstr => by
      have hmem : instr ∈ prog.entry := hpost ▸ List.mem_append_left _ hinstr
      rcases List.mem_cons.mp hmem with rfl | hinstr
      · trivial
      · exact hspread instr hinstr) hreuse.left
  exact ⟨s₁, v, ghost, rank, hs₁, hrun, hsim⟩

/-- A whole run. -/
theorem Program.forward_sim {prog : Program} {s : SymState} {r : R1CS} {w : Nat → Fr}
    (hw : ∀ i val, prog.entry.witnessValues[i]? = some val → w i = val)
    (hsym : prog.entry.symbolic .new = some s) (hseal : s.gen.seal = some r)
    (hcount : ∀ l ∈ s.gen.lookups, l.Countable w s.gen)
    (hsize : r.constraints.length < 2 ^ 64) (hspread : ∀ instr ∈ prog, instr.SpreadFits)
    (hreuse : prog.entry.ReusesUntabled (.newWitgen r.witnessLayout r.constraintsLayout)) :
    ∃ v ghost rank,
      prog.entry.forward (.newWitgen r.witnessLayout r.constraintsLayout) = some v ∧
        Sim w s.gen r.witnessLayout.challengesSize s v ghost rank := by
  obtain ⟨s₁, v, ghost, rank, hs₁, hrun, hsim⟩ :=
    forward_prefix List.prefix_rfl hw hsym hseal hcount hsize hspread hreuse
  obtain rfl := Option.some.inj (hs₁.symm.trans hsym)
  exact ⟨v, ghost, rank, hrun, hsim⟩

/-- Where the generator goes through, spread tables have at most 16 bits, the counters
of the keys lie in the witness, and no array that has a table is overwritten in
place, the machine makes the generator's tables. -/
theorem Program.tablesAgree {prog : Program} {s : SymState} {r : R1CS}
    (hsym : prog.entry.symbolic .new = some s) (hseal : s.gen.seal = some r)
    (hcount : ∀ l ∈ s.gen.lookups, l.Countable prog.entry.assignment s.gen)
    (hsize : r.constraints.length < 2 ^ 64) (hspread : ∀ instr ∈ prog, instr.SpreadFits)
    (hreuse : prog.entry.ReusesUntabled (.newWitgen r.witnessLayout r.constraintsLayout)) :
    prog.entry.TablesAgree := by
  have hw : ∀ i val, prog.entry.witnessValues[i]? = some val →
      prog.entry.assignment i = val := by
    intro i val hi
    rw [assignment, List.getD_eq_getElem?_getD, hi, Option.getD_some]
  obtain ⟨v, ghost, rank, hrun, hsim⟩ :=
    Program.forward_sim hw hsym hseal hcount hsize hspread hreuse
  have hwf := Program.symbolic_wellFormed hsym
  have hsizes := sealedSizes hwf hseal
  have hlength := hsizes.length
  have htables := length_le_totalRows s.gen.tables
  refine ⟨s, hsym, fun r' hseal' => ?_⟩
  obtain rfl := Option.some.inj (hseal.symm.trans hseal')
  exact ⟨v, hrun, hsim.vm.tablesMatch hwf hsizes (by omega)⟩

/-- An array is looked up, shared, and overwritten: the copy gets a table of its own. -/
def sharedArray : Program :=
  [.mkPure .word [.word 5], .const 0, .const 5, .const 1, .arrayLookup .word 1 2 3 4, .dup 1,
    .arraySetPure .word 1 0 (.word 6), .const 6, .arrayLookup .word 6 2 7 4,
    .spreadLookup 1 2 2 4]

theorem tablesAgree_sharedArray : sharedArray.entry.TablesAgree :=
  @Program.tablesAgree sharedArray _ _ rfl rfl (by decide +kernel) (by decide +kernel)
    (by decide +kernel) (by decide +kernel)

/-! ## Where one side stops

Both are guards: a `panic!` of the generator, and a bound of the machine.
-/

/-- A spread lookup of width 17. -/
def wideSpread : Program := [.const 0, .spreadLookup 17 1 1 1]

/-- A rangecheck after the first lookup of an array. -/
def lateRangecheck : Program :=
  [.mkPure .word [.word 5], .const 0, .arrayLookup .word 1 2 2 2, .rangecheck 2 2]

/-- The generator makes a table the machine has no room for; and the machine makes a
range table behind another one, where the generator stops. -/
theorem tables_disagree :
    ¬ wideSpread.entry.TablesAgree ∧ ¬ lateRangecheck.entry.TablesAgree ∧
      ((lateRangecheck.entry.forward (.newWitgen ⟨1, 257, 2, 514, 3⟩ ⟨0, 516, 3⟩)).map
        fun v => v.vm.tables.length) = some 2 := by
  refine ⟨?_, ?_, by decide +kernel⟩
  · rintro ⟨s, hsym, hagree⟩
    have hwf := Program.symbolic_wellFormed hsym
    have hne : s.gen.tables ≠ [] := by
      obtain rfl := Option.some.inj (hsym.symm.trans rfl)
      exact List.cons_ne_nil _ _
    obtain ⟨v, hrun, -⟩ := hagree _ (s.gen.seal_eq hne hwf.sealable hwf.inRange)
    exact absurd (hrun.symm.trans rfl) (Option.some_ne_none v)
  · rintro ⟨s, hsym, -⟩
    have hnone : lateRangecheck.entry.symbolic .new = none := rfl
    exact absurd (hsym.symm.trans hnone) (Option.some_ne_none s)

end Mavros
