/-
# `Mavros.VM.DerivativeRel` — additions, tables and lookups of the derivative pass

Two things are kept in step with the generator: the offsets of the machine, and the
total of each side — what is in the outputs plus what waits on nodes of the heap — which
is `R1CGen.partialGrad` of the generator's state.  Each opcode that makes a table or a
lookup adds exactly the functional of the rows the generator adds.

## What is proved

* `bumps_spec`: additions go through where their nodes are live, and put their functional
  (`Bump.grad`) into the total.
* `AdOn.drngchk8Table`, `AdOn.dspreadTable`, `AdOn.darrayTable`: a table made by the machine is the
  generator's, at the place the sealed system has for it.
* `AdOn.adKvLookupEmit`, `AdOn.drngchk8Emit`: a lookup adds the functional of its rows and of its
  term in the sum row.

## How it goes

A total is a sum over a list of additions, a row of the sealed system a functional, and the two are
compared entry by entry (`rngchk8Row_grad`, `keyValueRows_grad`) and then for the block
(`block_grad`).  The machine adds the sum row's part with each entry and its middle at some
point in between, which makes no difference to a sum.
-/
import Mavros.VM.ArrayRel
import Mavros.VM.DerivativeRows
import Mavros.VM.Tape

namespace Mavros

open Lib Lib.Store

/-! ## Additions -/

/-- What an addition puts into the total of a side. -/
def Bump.grad (g : Ptr → Nat → Fr) (s : Side) : Bump → Nat → Fr
  | .out side i x => if s = side then x • unitAt i else 0
  | .node side p x => if s = side then x • g p else 0

@[simp] theorem Bump.grad_out (g : Ptr → Nat → Fr) (s side : Side) (i : Nat) (x : Fr) :
    (Bump.out side i x).grad g s = if s = side then x • unitAt i else 0 := rfl

@[simp] theorem Bump.grad_node (g : Ptr → Nat → Fr) (s side : Side) (p : Ptr) (x : Fr) :
    (Bump.node side p x).grad g s = if s = side then x • g p else 0 := rfl

/-- The same for some additions. -/
def bumpsGrad (g : Ptr → Nat → Fr) (s : Side) (bs : List Bump) : Nat → Fr :=
  (bs.map (Bump.grad g s)).sum

/-- A node that is bumped is there. -/
def Bump.Live (h : Heap) : Bump → Prop
  | .out _ _ _ => True
  | .node _ p _ => ∃ c, Store.get? h p = some c ∧ c.val.payload.IsNode

section BumpsGrad

variable (g : Ptr → Nat → Fr) (s : Side)

theorem bumpsGrad_cons (b : Bump) (bs : List Bump) :
    bumpsGrad g s (b :: bs) = b.grad g s + bumpsGrad g s bs := by
  rw [bumpsGrad, List.map_cons, List.sum_cons, bumpsGrad]

@[simp] theorem bumpsGrad_nil : bumpsGrad g s [] = 0 := rfl

theorem bumpsGrad_append (bs bs' : List Bump) :
    bumpsGrad g s (bs ++ bs') = bumpsGrad g s bs + bumpsGrad g s bs' := by
  rw [bumpsGrad, List.map_append, List.sum_append, bumpsGrad, bumpsGrad]

theorem bumpsGrad_range (f : Nat → List Bump) (n : Nat) :
    bumpsGrad g s ((List.range n).flatMap f) = ∑ i ∈ Finset.range n, bumpsGrad g s (f i) := by
  induction n with
  | zero => rfl
  | succ n ih =>
      rw [List.range_succ, List.flatMap_append, List.flatMap_singleton, bumpsGrad_append, ih,
        Finset.sum_range_succ]

end BumpsGrad

namespace Mem

variable {g : Ptr → Nat → Fr} {m m' : Mem}

theorem run_total (hg : GradOf g m.heap) {b : Bump} (h : b.run m = some m') (s : Side) (i : Nat) :
    m'.total g s i = m.total g s i + b.grad g s i := by
  cases b with
  | out side j x =>
      obtain rfl := Option.some.inj h
      rw [total_addOut, Bump.grad, single_eq_smul_unitAt]
      split_ifs <;> rfl
  | node side p x =>
      rw [bump_total hg h, Bump.grad]
      split_ifs <;> rfl

/-- Additions go through where the nodes are, and add their functional to the total. -/
theorem bumps_spec (bs : List Bump) (hg : GradOf g m.heap) (hlive : ∀ b ∈ bs, b.Live m.heap) :
    ∃ m', m.bumps bs = some m' ∧ ∀ s i, m'.total g s i = m.total g s i + bumpsGrad g s bs i := by
  induction bs generalizing m with
  | nil => exact ⟨m, rfl, fun _ _ => (add_zero _).symm⟩
  | cons b bs ih =>
      have hrun : ∃ m₁, b.run m = some m₁ := by
        cases b with
        | out side i x => exact ⟨_, rfl⟩
        | node side p x =>
            obtain ⟨c, hc, hn⟩ := hlive _ List.mem_cons_self
            exact bump_isSome hc hn side x
      obtain ⟨m₁, h₁⟩ := hrun
      have hs := Bump.run_sameShape h₁
      have hlive₁ : ∀ b ∈ bs, b.Live m₁.heap := by
        intro b hb
        have hb := hlive b (List.mem_cons_of_mem _ hb)
        cases b with
        | out side i x => trivial
        | node side p x =>
            obtain ⟨c, hc, hn⟩ := hb
            exact hs.isNode hc hn
      obtain ⟨m', h', ht'⟩ := ih (hg.of_sameShape hs) hlive₁
      refine ⟨m', ?_, fun s i => ?_⟩
      · rw [bumps_cons, h₁]
        exact h'
      · rw [ht', run_total hg h₁, bumpsGrad_cons, Pi.add_apply, add_assoc]

end Mem

theorem HeapRel.bumps {mode : Mode} {g : R1CGen} {held : Ptr → Nat} {m : Mem} {ghost : Ghost}
    {rank : Ptr → Nat} (hrel : HeapRel mode g held m.heap ghost rank) (bs : List Bump)
    (hlive : ∀ b ∈ bs, b.Live m.heap) :
    ∃ m', m.bumps bs = some m' ∧ HeapRel mode g held m'.heap ghost rank ∧
      SameShape m'.heap m.heap ∧
      ∀ s i, m'.total (Mavros.gradOf ghost) s i
        = m.total (Mavros.gradOf ghost) s i + bumpsGrad (Mavros.gradOf ghost) s bs i := by
  obtain ⟨m', h, ht⟩ := Mem.bumps_spec bs hrel.gradOf hlive
  have hs := Mem.bumps_sameShape bs h
  exact ⟨m', h, hrel.shrinks (Shrinks.of_sameShape hs) (Balanced.of_sameShape hrel.balanced hs)
    (Positive.of_sameShape hrel.positive hs), hs, ht⟩

/-! ## The rows of a table

The entries of a block, with what each adds to the sum row.
-/

/-- Where the machine puts its next table. -/
def AdVm.nextPlace (v : AdVm) (t : Table) : TablePlace :=
  ⟨t, v.currentWitMultiplicitiesOff, v.currentWitTablesOff, v.currentCnstTablesOff⟩

/-- The sum row has the inverses on the left and one in the middle. -/
theorem sumRow_coeffs (s : Side) (p : TablePlace) (x : Fr) :
    x • ((sumRow p.sumLhs []).side s).coeffs
      = (∑ i ∈ Finset.range p.table.len, if s = .a then x • unitAt (p.yWit i) else 0)
        + if s = .b then x • unitAt 0 else 0 := by
  cases s with
  | a =>
      have hsum : LC.coeffs ((sumRow p.sumLhs []).side .a)
          = ∑ i ∈ Finset.range p.table.len, unitAt (p.yWit i) :=
        LC.coeffs_range p.yWit p.table.len
      simp [hsum, Finset.smul_sum]
  | b => simp [sumRow, R1C.side, single_eq_smul_unitAt]
  | c => simp [sumRow, R1C.side]

section Rows

variable (g : Ptr → Nat → Fr) (s : Side) (v : AdVm)

/-- The additions of a key of the range table, and its term of the sum. -/
theorem rngchk8Row_grad (x : Fr) (i : Nat) :
    bumpsGrad g s (v.rngchk8Row x i)
      = rowsGrad v.adCoeffs s (v.currentCnstTablesOff + 1 * i)
          ((v.nextPlace (.range 8)).entryRows v.logupWitChallengeOff
            (v.logupWitChallengeOff + 1) i)
        + if s = .a then x • unitAt ((v.nextPlace (.range 8)).yWit i) else 0 := by
  have hy : (v.nextPlace (.range 8)).yWit i = v.currentWitTablesOff + i := by
    simp [TablePlace.yWit, AdVm.nextPlace, Table.width]
  have hrows : (v.nextPlace (.range 8)).entryRows v.logupWitChallengeOff
      (v.logupWitChallengeOff + 1) i
      = [rangeRow v.logupWitChallengeOff ((v.nextPlace (.range 8)).yWit i)
          (v.currentWitMultiplicitiesOff + i) i] := rfl
  rw [hrows, rowsGrad_singleton, hy, Nat.one_mul]
  cases s <;>
    simp only [AdVm.rngchk8Row, bumpsGrad_cons, bumpsGrad_nil, Bump.grad_out, R1C.side, rangeRow,
      LC.coeffs_cons_unitAt, LC.coeffs_nil, reduceCtorEq, if_true, if_false] <;>
    module

/-- The additions of a key and its value. -/
theorem keyValueRows_grad {t : Table} (hw : t.width = 2) {value : Fr → Bump} {i : Nat}
    (hvalue : ∀ x, (value x).grad g s = if s = .b then x • (t.value i).coeffs else 0) :
    bumpsGrad g s (v.keyValueRows value i)
      = rowsGrad v.adCoeffs s (v.currentCnstTablesOff + 2 * i)
          ((v.nextPlace t).entryRows v.logupWitChallengeOff (v.logupWitChallengeOff + 1) i) := by
  have hx : (v.nextPlace t).xWit i = v.currentWitTablesOff + 2 * i := by
    simp [TablePlace.xWit, AdVm.nextPlace, hw]
  have hy : (v.nextPlace t).yWit i = v.currentWitTablesOff + 2 * i + 1 := by
    simp [TablePlace.yWit, AdVm.nextPlace, hw]
  have hne : ¬ t.width = 1 := by omega
  have hrows : (v.nextPlace t).entryRows v.logupWitChallengeOff (v.logupWitChallengeOff + 1) i
      = [xRow (v.logupWitChallengeOff + 1) (v.currentWitTablesOff + 2 * i) (t.value i),
          yRow v.logupWitChallengeOff (v.currentWitTablesOff + 2 * i)
            (v.currentWitTablesOff + 2 * i + 1) (v.currentWitMultiplicitiesOff + i) i] := by
    rw [TablePlace.entryRows, hx, hy]
    exact if_neg hne
  rw [hrows]
  cases s <;>
    simp only [AdVm.keyValueRows, bumpsGrad_cons, bumpsGrad_nil, Bump.grad_out, rowsGrad,
      R1C.side, xRow, yRow, hvalue, LC.coeffs_cons_unitAt, LC.coeffs_nil, reduceCtorEq, if_true,
      if_false] <;>
    module

/-- Entries with their terms of the sum, and the one in the middle of it, are the block. -/
theorem block_grad {t : Table} {alpha beta : Nat} {f : Nat → Nat → Fr}
    (hf : ∀ i < t.len, f i = rowsGrad v.adCoeffs s (v.currentCnstTablesOff + t.width * i)
          ((v.nextPlace t).entryRows alpha beta i)
        + if s = .a then v.adCoeffs (v.nextPlace t).sumIdx • unitAt ((v.nextPlace t).yWit i)
          else 0) :
    (∑ i ∈ Finset.range t.len, f i)
        + (if s = .b then v.adCoeffs (v.nextPlace t).sumIdx • unitAt 0 else 0)
      = placeGrad v.adCoeffs s alpha beta (v.nextPlace t) := by
  have hsum : ∑ i ∈ Finset.range t.len, f i
      = ∑ i ∈ Finset.range t.len,
          (rowsGrad v.adCoeffs s (v.currentCnstTablesOff + t.width * i)
              ((v.nextPlace t).entryRows alpha beta i)
            + if s = .a then v.adCoeffs (v.nextPlace t).sumIdx • unitAt ((v.nextPlace t).yWit i)
              else 0) :=
    Finset.sum_congr rfl fun i hi => hf i (Finset.mem_range.mp hi)
  rw [hsum, Finset.sum_add_distrib, placeGrad_eq, sumRow_coeffs, add_assoc]
  rfl

end Rows

/-! ## The relation

Offsets on the one hand, totals and the heap on the other.
-/

/-- `TableInfo` of a table of the derivative pass, which counts nothing. -/
def TablePlace.adInfo (p : TablePlace) : TableInfo := { p.info with multiplicitiesWit := 0 }

/-- The tables of a state, where the sealed system has them. -/
def adPlaces (wl : WitnessLayout) (cl : ConstraintsLayout) (ts : List Table) : List TablePlace :=
  placeTables wl.multiplicitiesStart wl.tablesDataStart cl.tablesDataStart ts

/-- The offsets and tables of the machine after a part of a program. -/
structure AdRel (coeffs : Nat → Fr) (wl : WitnessLayout) (cl : ConstraintsLayout) (g : R1CGen)
    (v : AdVm) : Prop where
  adCoeffs : v.adCoeffs = coeffs
  witness : v.currentWitOff = g.nextWitness
  challenge : v.logupWitChallengeOff = wl.challengesStart
  mults : v.currentWitMultiplicitiesOff = wl.multiplicitiesStart + totalLen g.tables
  tableWits : v.currentWitTablesOff = wl.tablesDataStart + totalWit g.tables
  lookupWits : v.currentWitLookupsOff = wl.lookupsDataStart + totalWidth g.lookups
  tableCnsts : v.currentCnstTablesOff = cl.tablesDataStart + totalRows g.tables
  lookupCnsts : v.currentCnstLookupsOff = cl.lookupsDataStart + totalWidth g.lookups
  tables : v.tables = (adPlaces wl cl g.tables).map TablePlace.adInfo
  rgchk8 : v.rgchk8 = g.tables.findIdx? (· == .range 8)
  spreadTables : ∀ bits, v.spreadTables[bits]? =
    if bits < 17 then some (g.tables.findIdx? (· == .spread bits)) else none

/-- The machine after a part of a program that ends in `G`: `held` says which references
variables hold. -/
structure AdOn (coeffs : Nat → Fr) (wl : WitnessLayout) (cl : ConstraintsLayout) (G g : R1CGen)
    (held : Ptr → Nat) (v : AdVm) (ghost : Ghost) (rank : Ptr → Nat) : Prop where
  heap : HeapRel .ad g held v.mem.heap ghost rank
  vm : AdRel coeffs wl cl g v
  total : ∀ s i, v.mem.total (gradOf ghost) s i
    = g.partialGrad coeffs (adPlaces wl cl G.tables) wl cl s i

variable {coeffs : Nat → Fr} {wl : WitnessLayout} {cl : ConstraintsLayout} {G g : R1CGen}
  {held : Ptr → Nat} {v : AdVm} {ghost : Ghost} {rank : Ptr → Nat}

theorem AdRel.length_tables (h : AdRel coeffs wl cl g v) : v.tables.length = g.tables.length := by
  rw [h.tables, List.length_map, adPlaces, length_placeTables]

/-- The next table goes where the sealed system will have it. -/
theorem AdRel.nextPlace (h : AdRel coeffs wl cl g v) (t : Table) :
    adPlaces wl cl (g.tables ++ [t]) = adPlaces wl cl g.tables ++ [v.nextPlace t] := by
  rw [adPlaces, placeTables_append, AdVm.nextPlace, h.mults, h.tableWits, h.tableCnsts]
  rfl

/-- A table that is found is the one of the sealed system. -/
theorem AdRel.getElem?_tables (h : AdRel coeffs wl cl g v) (hpre : g.tables <+: G.tables) {k : Nat}
    {t : Table} (hk : g.tables[k]? = some t) :
    ∃ p, v.tables[k]? = some (TablePlace.adInfo p) ∧ p.table = t ∧
      (adPlaces wl cl G.tables)[k]? = some p := by
  obtain ⟨rest, hrest⟩ := hpre
  have hp := getElem?_placeTables (m := wl.multiplicitiesStart) (d := wl.tablesDataStart)
    (c := cl.tablesDataStart) hk
  refine ⟨_, by rw [h.tables, List.getElem?_map, adPlaces, hp, Option.map_some], rfl, ?_⟩
  rw [← hrest, adPlaces, placeTables_append,
    List.getElem?_append_left (List.getElem?_eq_some_iff.mp hp).1, hp]

/-! ## Tables

A new table has the places behind those there are.
-/

/-- The functional of a state with one more table. -/
theorem AdRel.partialGrad_table (h : AdRel coeffs wl cl g v) (t : Table)
    (tableIds : Nat → Option Nat) (ps : List TablePlace) (s : Side) :
    R1CGen.partialGrad coeffs ps wl cl { g with tables := g.tables ++ [t], tableIds := tableIds } s
      = g.partialGrad coeffs ps wl cl s
        + placeGrad v.adCoeffs s v.logupWitChallengeOff (v.logupWitChallengeOff + 1)
            (v.nextPlace t) := by
  have hplaces : placeTables wl.multiplicitiesStart wl.tablesDataStart cl.tablesDataStart
      (g.tables ++ [t]) = _ := h.nextPlace t
  rw [R1CGen.partialGrad, R1CGen.partialGrad, hplaces, h.adCoeffs, h.challenge, tablesGrad,
    List.map_append, List.sum_append, List.map_singleton, List.sum_singleton, ← tablesGrad,
    adPlaces]
  module

/-- A table is made: its rows are added, its offsets are taken. -/
theorem AdOn.pushTable (h : AdOn coeffs wl cl G g held v ghost rank) (t : Table)
    (rgchk8 : Option Nat) (spreadTables : List (Option Nat)) {bs : List Bump}
    (hlive : ∀ b ∈ bs, b.Live v.mem.heap)
    (hgrad : ∀ s, bumpsGrad (gradOf ghost) s bs
      = placeGrad v.adCoeffs s v.logupWitChallengeOff (v.logupWitChallengeOff + 1)
          (v.nextPlace t))
    (hrg : rgchk8 = (g.tables ++ [t]).findIdx? (· == .range 8))
    (hsp : ∀ bits, spreadTables[bits]? =
      if bits < 17 then some ((g.tables ++ [t]).findIdx? (· == .spread bits)) else none) :
    ∃ mem, v.mem.bumps bs = some mem ∧ SameShape mem.heap v.mem.heap ∧
      AdOn coeffs wl cl G { g with tables := g.tables ++ [t] } held
        { v.pushTable (t.width - 1) t.len with
          mem := mem, rgchk8 := rgchk8, spreadTables := spreadTables } ghost rank := by
  obtain ⟨mem, hmem, hheap, hshape, htotal⟩ := h.heap.bumps bs hlive
  have hwidth : t.width - 1 + 1 = t.width := by
    rcases t.width_eq with hw | hw <;> rw [hw]
  refine ⟨mem, hmem, hshape, hheap.gen_congr (Nat.le_refl _) fun _ _ => rfl, ?_, fun s i => ?_⟩
  · refine ⟨h.vm.adCoeffs, h.vm.witness, h.vm.challenge, ?_, ?_, h.vm.lookupWits, ?_,
      h.vm.lookupCnsts, ?_, hrg, hsp⟩
    · simp only [AdVm.pushTable, h.vm.mults, totalLen, List.map_append, List.sum_append,
        List.map_singleton, List.sum_singleton, Nat.add_assoc]
    · simp only [AdVm.pushTable, h.vm.tableWits, totalWit, List.map_append, List.sum_append,
        List.map_singleton, List.sum_singleton, Nat.add_assoc, Table.witCount, hwidth]
    · simp only [AdVm.pushTable, h.vm.tableCnsts, totalRows, List.map_append, List.sum_append,
        List.map_singleton, List.sum_singleton, Nat.add_assoc, Table.rowCount, hwidth]
    · have hplace := h.vm.nextPlace t
      simp only [AdVm.pushTable, h.vm.tables, hplace, List.map_append, List.map_singleton]
      rfl
  · have hpart := congrFun (h.vm.partialGrad_table t g.tableIds (adPlaces wl cl G.tables) s) i
    have hold := h.total s i
    rw [htotal, hold, hgrad]
    exact hpart.symm

/-- The range table is the generator's. -/
theorem AdOn.drngchk8Table (h : AdOn coeffs wl cl G g held v ghost rank) {g₁ : R1CGen}
    (hres : g.rangeTable = some g₁) :
    ∃ v₁, v.drngchk8Table = some (0, v₁) ∧ AdOn coeffs wl cl G g₁ held v₁ ghost rank := by
  obtain ⟨hnil, rfl⟩ | ⟨rfl, ts, hts⟩ := R1CGen.rangeTable_cases hres
  · have hrg : v.rgchk8 = none := by rw [h.vm.rgchk8, hnil]; rfl
    have hlen : v.tables.length = 0 := by rw [h.vm.length_tables, hnil]; rfl
    have hgrad : ∀ s, bumpsGrad (gradOf ghost) s
        ((List.range 256).flatMap (v.rngchk8Row (v.adCoeffs (v.currentCnstTablesOff + 256)))
          ++ [.out .b 0 (v.adCoeffs (v.currentCnstTablesOff + 256))])
        = placeGrad v.adCoeffs s v.logupWitChallengeOff (v.logupWitChallengeOff + 1)
            (v.nextPlace (.range 8)) := by
      intro s
      have hidx : v.currentCnstTablesOff + 256 = (v.nextPlace (.range 8)).sumIdx := by
        simp [TablePlace.sumIdx, AdVm.nextPlace, Table.width, Table.len]
      have hlen : 256 = (Table.range 8).len := by simp [Table.len]
      rw [bumpsGrad_append, bumpsGrad_range, bumpsGrad_cons, bumpsGrad_nil, add_zero, hidx, hlen]
      exact block_grad s v fun i _ => rngchk8Row_grad (gradOf ghost) s v _ i
    obtain ⟨mem, hmem, -, hon⟩ := h.pushTable (.range 8) (some 0) v.spreadTables
      (by
        intro b hb
        rcases List.mem_append.mp hb with hb | hb
        · obtain ⟨i, -, hb⟩ := List.mem_flatMap.mp hb
          simp only [AdVm.rngchk8Row, List.mem_cons, List.not_mem_nil, or_false] at hb
          rcases hb with rfl | rfl | rfl | rfl | rfl <;> trivial
        · rw [List.mem_singleton.mp hb]
          trivial)
      hgrad (by rw [hnil]; rfl) fun bits => by
        rw [h.vm.spreadTables, VmRel.findIdx?_snoc]
        simp
    rw [hnil] at hon
    refine ⟨_, ?_, hon⟩
    simp only [AdVm.drngchk8Table, hrg, hmem, hlen, Option.bind_eq_bind, Option.bind_some,
      Option.pure_def]
    rfl
  · have hrg : v.rgchk8 = some 0 := by rw [h.vm.rgchk8, hts]; rfl
    exact ⟨v, by simp only [AdVm.drngchk8Table, hrg], h⟩

/-- The additions of keys and values concern nodes only where the values do. -/
theorem live_keyValueRows {v : AdVm} {value : Fr → Bump} {i : Nat} {h : Heap}
    (hvalue : ∀ x, (value x).Live h) : ∀ b ∈ v.keyValueRows value i, b.Live h := by
  intro b hb
  simp only [AdVm.keyValueRows, List.mem_cons, List.not_mem_nil, or_false] at hb
  rcases hb with rfl | rfl | rfl | rfl | rfl | rfl | rfl | rfl
  · trivial
  · exact hvalue _
  all_goals trivial

/-- The spread table of a width is the generator's, for the widths there is room for. -/
theorem AdOn.dspreadTable (h : AdOn coeffs wl cl G g held v ghost rank) {bits : Nat}
    (hbits : bits < 17) :
    ∃ v₁, v.dspreadTable bits = some ((g.spreadTable bits).1, v₁) ∧
      AdOn coeffs wl cl G (g.spreadTable bits).2 held v₁ ghost rank := by
  have hslot : v.spreadTables[bits]? = some (g.tables.findIdx? (· == .spread bits)) := by
    rw [h.vm.spreadTables, if_pos hbits]
  cases hidx : g.tables.findIdx? (· == .spread bits) with
  | some idx =>
      have hgen : g.spreadTable bits = (idx, g) := by simp [R1CGen.spreadTable, hidx]
      rw [hgen]
      exact ⟨v, by simp [AdVm.dspreadTable, hslot, hidx], h⟩
  | none =>
      have hgen : g.spreadTable bits
          = (g.tables.length, { g with tables := g.tables ++ [.spread bits] }) := by
        simp [R1CGen.spreadTable, hidx]
      rw [hgen]
      have hlt : bits < v.spreadTables.length := (List.getElem?_eq_some_iff.mp hslot).1
      have hpow : 2 ^ bits ≤ 2 ^ 32 := Nat.pow_le_pow_right (by norm_num) (by omega)
      have hentry : ∀ s, ∀ i < 2 ^ bits,
          bumpsGrad (gradOf ghost) s
            (v.keyValueRows (fun xCoeff => .out .b 0 (xCoeff * vmSpreadBits i)) i
              ++ [.out .a (v.currentWitTablesOff + 2 * i + 1)
                (v.adCoeffs (v.currentCnstTablesOff + 2 * 2 ^ bits))])
          = rowsGrad v.adCoeffs s (v.currentCnstTablesOff + 2 * i)
              ((v.nextPlace (.spread bits)).entryRows v.logupWitChallengeOff
                (v.logupWitChallengeOff + 1) i)
            + if s = .a then v.adCoeffs (v.nextPlace (.spread bits)).sumIdx
                • unitAt ((v.nextPlace (.spread bits)).yWit i) else 0 := by
        intro s i hi
        rw [bumpsGrad_append, bumpsGrad_cons, bumpsGrad_nil, add_zero,
          keyValueRows_grad (gradOf ghost) s v (t := .spread bits) rfl]
        · rfl
        · intro x
          rw [Bump.grad_out, Table.value, LC.coeffs_cons_unitAt, LC.coeffs_nil, add_zero,
            mul_smul, spreadBits_eq_vmSpreadBits (Nat.lt_of_lt_of_le hi hpow)]
      have hlive : ∀ b ∈ (List.range (2 ^ bits)).flatMap (fun i =>
            v.keyValueRows (fun xCoeff => .out .b 0 (xCoeff * vmSpreadBits i)) i
              ++ [.out .a (v.currentWitTablesOff + 2 * i + 1)
                (v.adCoeffs (v.currentCnstTablesOff + 2 * 2 ^ bits))])
          ++ [.out .b 0 (v.adCoeffs (v.currentCnstTablesOff + 2 * 2 ^ bits))],
          b.Live v.mem.heap := by
        intro b hb
        rcases List.mem_append.mp hb with hb | hb
        · obtain ⟨i, -, hb⟩ := List.mem_flatMap.mp hb
          rcases List.mem_append.mp hb with hb | hb
          · exact live_keyValueRows (fun x => show Bump.Live _ (.out _ _ _) from trivial) b hb
          · rw [List.mem_singleton.mp hb]
            trivial
        · rw [List.mem_singleton.mp hb]
          trivial
      obtain ⟨mem, hmem, -, hon⟩ := h.pushTable (.spread bits) v.rgchk8
        (v.spreadTables.set bits (some g.tables.length)) hlive
        (by
          intro s
          rw [bumpsGrad_append, bumpsGrad_range, bumpsGrad_cons, bumpsGrad_nil, add_zero]
          exact block_grad (t := .spread bits) s v (hentry s))
        (by rw [h.vm.rgchk8, VmRel.findIdx?_snoc]; simp) fun b => by
          rw [List.getElem?_set, h.vm.spreadTables, VmRel.findIdx?_snoc]
          by_cases hb : bits = b
          · subst hb
            simp [hlt, hbits, hidx]
          · simp [hb]
      refine ⟨_, ?_, hon⟩
      simp only [AdVm.dspreadTable, hslot, hidx, Option.bind_eq_bind, Option.bind_some, hmem,
        h.vm.length_tables, Option.pure_def]
      rfl

/-! ## The table of an array

Its entries are nodes, which are bumped and not written.
-/

/-- The pointers that are handed over are live. -/
theorem forEachArrayLeaf_live {h : Heap} : ∀ {fuel : Nat} {p : Ptr} {ls : List (PrimElem ⊕ Ptr)},
    forEachArrayLeaf h fuel p = some ls → ∀ q, .inr q ∈ ls → ∃ c, Store.get? h q = some c := by
  intro fuel
  induction fuel with
  | zero =>
      intro p ls hls
      cases hls
  | succ fuel ih =>
      intro p ls hls q hq
      simp only [forEachArrayLeaf, Option.bind_eq_bind, Option.bind_eq_some_iff] at hls
      obtain ⟨c, -, hls⟩ := hls
      cases hpay : c.val.payload with
      | primArray xs =>
          rw [hpay] at hls
          obtain rfl := Option.some.inj hls
          obtain ⟨x, -, hx⟩ := List.mem_map.mp hq
          exact absurd hx (by simp)
      | boxedArray ps =>
          rw [hpay] at hls
          simp only [Option.bind_eq_some_iff, Option.pure_def, Option.some.injEq] at hls
          obtain ⟨parts, hparts, rfl⟩ := hls
          obtain ⟨part, hpart, hq⟩ := List.mem_flatten.mp hq
          obtain ⟨r, -, hr⟩ := exists_right_of_forall₂ (mapM_eq_some.mp hparts).flip hpart
          obtain ⟨d, hd, hr⟩ := Option.bind_eq_some_iff.mp hr
          split at hr
          · exact ih hr q hq
          · obtain rfl := Option.some.inj hr
            obtain rfl := Sum.inr.inj (List.mem_singleton.mp hq)
            exact ⟨d, hd⟩
      | _ => rw [hpay] at hls; cases hls

/-- The value of a leaf, as an addition. -/
theorem lookupElemBumpDb_grad {leaf : PrimElem ⊕ Ptr} {lc : LC}
    (hleaf : HeapRel.LeafRel .ad ghost leaf lc) (s : Side) (x : Fr) :
    (AdVm.lookupElemBumpDb leaf x).grad (gradOf ghost) s
      = if s = .b then x • lc.coeffs else 0 := by
  cases leaf with
  | inl el =>
      obtain rfl | ⟨w, hw, -⟩ := hleaf
      · cases el with
        | word n =>
            rw [AdVm.lookupElemBumpDb, Bump.grad_out, LC.coeffs_cons_unitAt, LC.coeffs_nil,
              add_zero, mul_smul]
            rfl
        | field y =>
            rw [AdVm.lookupElemBumpDb, Bump.grad_out, LC.coeffs_cons_unitAt, LC.coeffs_nil,
              add_zero, mul_smul]
            rfl
      · cases hw
  | inr q =>
      obtain ⟨-, u, hq, hu⟩ := hleaf
      rw [AdVm.lookupElemBumpDb, Bump.grad_node, gradOf, hq, Value.coeffs, hu]
      rfl

theorem zipIdx_eq_map_range {α : Type} (xs : List α) (d : α) :
    xs.zipIdx = (List.range xs.length).map fun i => (xs.getD i d, i) := by
  refine List.ext_getElem (by simp) fun i hi _ => ?_
  have hi' : i < xs.length := by simpa using hi
  simp [List.getElem?_eq_getElem hi']

/-- What the table of an array adds: the leaves with their keys, the inverses into the sum,
and the one in the middle of it. -/
theorem darrayRows_grad (v : AdVm) {leaves : List (PrimElem ⊕ Ptr)} {els : List LC}
    (hleaves : List.Forall₂ (HeapRel.LeafRel .ad ghost) leaves els) (s : Side) :
    bumpsGrad (gradOf ghost) s
        ((leaves.zipIdx.flatMap fun leaf => v.keyValueRows (AdVm.lookupElemBumpDb leaf.1) leaf.2)
          ++ ((List.range leaves.length).map fun i =>
            .out .a (v.currentWitTablesOff + 2 * i + 1)
              (v.adCoeffs (v.currentCnstTablesOff + 2 * leaves.length)))
          ++ [.out .b 0 (v.adCoeffs (v.currentCnstTablesOff + 2 * leaves.length))])
      = placeGrad v.adCoeffs s v.logupWitChallengeOff (v.logupWitChallengeOff + 1)
          (v.nextPlace (.ofElems els)) := by
  have hlen : leaves.length = (Table.ofElems els).len := hleaves.length_eq
  have hrows : leaves.zipIdx.flatMap
        (fun leaf => v.keyValueRows (AdVm.lookupElemBumpDb leaf.1) leaf.2)
      = (List.range leaves.length).flatMap fun i =>
          v.keyValueRows (AdVm.lookupElemBumpDb (leaves.getD i (.inr 0))) i := by
    rw [zipIdx_eq_map_range leaves (.inr 0), List.flatMap_map]
  have hsums : (List.range leaves.length).map (fun i =>
        Bump.out .a (v.currentWitTablesOff + 2 * i + 1)
          (v.adCoeffs (v.currentCnstTablesOff + 2 * leaves.length)))
      = (List.range leaves.length).flatMap fun i =>
          [.out .a (v.currentWitTablesOff + 2 * i + 1)
            (v.adCoeffs (v.currentCnstTablesOff + 2 * leaves.length))] :=
    List.map_eq_flatMap
  rw [hrows, hsums, bumpsGrad_append, bumpsGrad_append, bumpsGrad_range, bumpsGrad_range,
    ← Finset.sum_add_distrib, bumpsGrad_cons, bumpsGrad_nil, add_zero, hlen]
  refine block_grad s v fun i hi => ?_
  have hi' : i < leaves.length := hlen ▸ hi
  have hvalue : ∀ x, (AdVm.lookupElemBumpDb (leaves.getD i (.inr 0)) x).grad (gradOf ghost) s
      = if s = .b then x • ((Table.ofElems els).value i).coeffs else 0 := by
    intro x
    rw [Table.value, List.getD_eq_getElem?_getD, List.getElem?_eq_getElem hi', Option.getD_some,
      List.getD_eq_getElem?_getD, List.getElem?_eq_getElem hi, Option.getD_some]
    exact lookupElemBumpDb_grad ((List.forall₂_iff_get.mp hleaves).2 i hi' hi) s x
  rw [keyValueRows_grad (gradOf ghost) s v (t := .ofElems els) rfl hvalue, bumpsGrad_cons,
    bumpsGrad_nil, add_zero]
  rfl

/-- The nodes among the leaves are there to be bumped. -/
theorem live_darrayRows (v : AdVm) {g : R1CGen} {h : Heap}
    (hrel : HeapRel .ad g held h ghost rank) {fuel : Nat} {arr : Ptr}
    {leaves : List (PrimElem ⊕ Ptr)} {els : List LC} {sums : List Bump}
    (hls : forEachArrayLeaf h fuel arr = some leaves)
    (hleaves : List.Forall₂ (HeapRel.LeafRel .ad ghost) leaves els)
    (hsums : ∀ b ∈ sums, b.Live h) :
    ∀ b ∈ (leaves.zipIdx.flatMap fun leaf =>
        v.keyValueRows (AdVm.lookupElemBumpDb leaf.1) leaf.2) ++ sums, b.Live h := by
  intro b hb
  rcases List.mem_append.mp hb with hb | hb
  · obtain ⟨⟨leaf, i⟩, hleaf, hb⟩ := List.mem_flatMap.mp hb
    have hmem := List.fst_mem_of_mem_zipIdx hleaf
    refine live_keyValueRows (fun x => ?_) b hb
    cases leaf with
    | inl el => cases el <;> trivial
    | inr q =>
        obtain ⟨c, hc⟩ := forEachArrayLeaf_live hls q hmem
        obtain ⟨lc, -, -, u, hq, -⟩ := exists_right_of_forall₂ hleaves hmem
        have hblock := hrel.blocks q c hc
        rw [hq] at hblock
        exact ⟨c, hc, hblock.isNode_of_scalar rfl⟩
  · exact hsums b hb

theorem AdRel.setMem (h : AdRel coeffs wl cl g v) (mem : Mem) (tableIds : Nat → Option Nat) :
    AdRel coeffs wl cl { g with tableIds := tableIds } { v with mem := mem } :=
  ⟨h.adCoeffs, h.witness, h.challenge, h.mults, h.tableWits, h.lookupWits, h.tableCnsts,
    h.lookupCnsts, h.tables, h.rgchk8, h.spreadTables⟩

/-- The table of an array is the generator's. -/
theorem AdOn.darrayTable (h : AdOn coeffs wl cl G g held v ghost rank) {e : Elem} {rc : Nat}
    {data : List Value} {arr : Ptr} (harr : ghost arr = (.array e, .array rc data))
    (hpos : 0 < held arr) :
    ∃ v₁, v.darrayTable arr = some ((g.arrayTable rc data).1, v₁) ∧
      AdOn coeffs wl cl G (g.arrayTable rc data).2 held v₁ ghost rank := by
  obtain ⟨c, hc⟩ := h.heap.balanced.get?_of_held (p := arr) hpos
  have hcell : v.mem.heap.get? arr = some c := hc
  have hl : label (ghost arr) = some rc := by rw [harr]; rfl
  have hid := (h.heap.labels arr c rc hc hl).2
  obtain ⟨k, hk, heq⟩ | ⟨hnone, heq⟩ := R1CGen.arrayTable_cases rc data g
  · rw [heq]
    exact ⟨v, by simp [AdVm.darrayTable, hcell, ← hid, hk], h⟩
  · rw [heq]
    obtain ⟨ls, hls, hleaves⟩ := h.heap.leaves harr hc
      (Store.below_lt_length rank (Store.lt_length_of_get? hc))
    obtain ⟨mem, hmem, -, hon⟩ := h.pushTable (.ofElems (flattenArrayIntoTable data))
      v.rgchk8 v.spreadTables
      (by
        rw [List.append_assoc]
        refine live_darrayRows v h.heap hls hleaves fun b hb => ?_
        rcases List.mem_append.mp hb with hb | hb
        · obtain ⟨i, -, rfl⟩ := List.mem_map.mp hb
          trivial
        · rw [List.mem_singleton.mp hb]
          trivial)
      (darrayRows_grad v hleaves) (by rw [h.vm.rgchk8, VmRel.findIdx?_snoc]; simp) fun b => by
        rw [h.vm.spreadTables, VmRel.findIdx?_snoc]
        simp
    have hpos' : 0 < Store.rcOf mem.heap arr := by
      rw [hon.heap.balanced arr]
      exact Nat.add_pos_right _ hpos
    obtain ⟨c', hc'⟩ := Store.Positive.get?_of_rcOf hpos'
    obtain ⟨mem', hset, hheap, htotal⟩ := HeapRel.setTableId
      { g with
        tables := g.tables ++ [.ofElems (flattenArrayIntoTable data)]
        tableIds := Function.update g.tableIds rc (some g.tables.length) }
      hon.heap hc' hl g.tables.length rfl rfl
    refine ⟨_, ?_, hheap, hon.vm.setMem mem' _, fun s i => (htotal s i).trans (hon.total s i)⟩
    rw [hleaves.length_eq] at hmem
    simp only [AdVm.darrayTable, hcell, ← hid, hnone, hls, hleaves.length_eq, hmem,
      h.vm.length_tables, hset, Option.bind_eq_bind, Option.bind_some, Option.pure_def]
    rfl

/-! ## Lookups

The operands are nodes as well, and have to be live.
-/

/-- A variable that holds a scalar with the combination `lc`. -/
def AdScalar (held : Ptr → Nat) (ghost : Ghost) (p : Ptr) (lc : LC) : Prop :=
  0 < held p ∧ ∃ u, ghost p = (.scalar, u) ∧ u.expectLinearCombination = some lc

theorem AdScalar.grad {p : Ptr} {lc : LC} (h : AdScalar held ghost p lc) :
    gradOf ghost p = lc.coeffs := by
  obtain ⟨-, u, hp, hu⟩ := h
  rw [gradOf, hp, Value.coeffs, hu]
  rfl

theorem AdScalar.live {h : Heap} {p : Ptr} {lc : LC} (hs : AdScalar held ghost p lc)
    (hrel : HeapRel .ad g held h ghost rank) (side : Side) (x : Fr) :
    (Bump.node side p x).Live h := by
  obtain ⟨hpos, u, hp, -⟩ := hs
  obtain ⟨c, hc⟩ := hrel.balanced.get?_of_held hpos
  have hblock := hrel.blocks p c hc
  rw [hp] at hblock
  exact ⟨c, hc, hblock.isNode_of_scalar rfl⟩

/-- The functional of a state with one more lookup. -/
theorem R1CGen.partialGrad_lookup (g : R1CGen) (l : LookupConstraint) (ps : List TablePlace)
    (s : Side) :
    R1CGen.partialGrad coeffs ps wl cl { g with lookups := g.lookups ++ [l] } s
      = g.partialGrad coeffs ps wl cl s
        + lookupGrad coeffs s wl.challengesStart (wl.challengesStart + 1)
            (wl.lookupsDataStart + totalWidth g.lookups)
            (cl.lookupsDataStart + totalWidth g.lookups) (sumCoeff coeffs ps l.tableId) l := by
  rw [R1CGen.partialGrad, lookupsGrad_snoc, ← add_assoc]
  rfl

/-- A lookup is made: its rows are added, its offsets are taken. -/
theorem AdOn.pushLookup (h : AdOn coeffs wl cl G g held v ghost rank) (l : LookupConstraint)
    {bs : List Bump} (hlive : ∀ b ∈ bs, b.Live v.mem.heap)
    (hgrad : ∀ s, bumpsGrad (gradOf ghost) s bs
      = lookupGrad v.adCoeffs s v.logupWitChallengeOff (v.logupWitChallengeOff + 1)
          v.currentWitLookupsOff v.currentCnstLookupsOff
          (sumCoeff coeffs (adPlaces wl cl G.tables) l.tableId) l) :
    ∃ mem, v.mem.bumps bs = some mem ∧
      AdOn coeffs wl cl G { g with lookups := g.lookups ++ [l] } held
        { v with
          mem := mem
          currentWitLookupsOff := v.currentWitLookupsOff + l.width
          currentCnstLookupsOff := v.currentCnstLookupsOff + l.width } ghost rank := by
  obtain ⟨mem, hmem, hheap, -, htotal⟩ := h.heap.bumps bs hlive
  have hwidth : totalWidth (g.lookups ++ [l]) = totalWidth g.lookups + l.width := by
    simp [totalWidth]
  refine ⟨mem, hmem, hheap.gen_congr (Nat.le_refl _) fun _ _ => rfl, ?_, fun s i => ?_⟩
  · refine ⟨h.vm.adCoeffs, h.vm.witness, h.vm.challenge, h.vm.mults, h.vm.tableWits, ?_,
      h.vm.tableCnsts, ?_, h.vm.tables, h.vm.rgchk8, h.vm.spreadTables⟩
    · simp only [hwidth, h.vm.lookupWits, Nat.add_assoc]
    · simp only [hwidth, h.vm.lookupCnsts, Nat.add_assoc]
  · rw [htotal, h.total, hgrad, h.vm.adCoeffs, h.vm.challenge, h.vm.lookupWits, h.vm.lookupCnsts,
      g.partialGrad_lookup l]
    rfl

/-- `ad_kv_lookup_emit`. -/
theorem AdOn.adKvLookupEmit (h : AdOn coeffs wl cl G g held v ghost rank)
    (hpre : g.tables <+: G.tables) {k : Nat} {t : Table} (hk : g.tables[k]? = some t)
    (hw : t.width = 2) {key result flag : Ptr} {keyLc valueLc flagLc : LC}
    (hkey : AdScalar held ghost key keyLc) (hresult : AdScalar held ghost result valueLc)
    (hflag : AdScalar held ghost flag flagLc) :
    ∃ v₁, v.adKvLookupEmit k key result flag = some v₁ ∧
      AdOn coeffs wl cl G { g with lookups := g.lookups ++ [⟨k, [keyLc, valueLc], flagLc⟩] } held
        v₁ ghost rank := by
  obtain ⟨p, hp, rfl, hplace⟩ := h.vm.getElem?_tables hpre hk
  have hsum : sumCoeff coeffs (adPlaces wl cl G.tables) k
      = v.adCoeffs (p.adInfo.elemInversesConstraintSectionOffset + 2 * p.adInfo.length) := by
    rw [sumCoeff, hplace, Option.elim_some, h.vm.adCoeffs, TablePlace.sumIdx, hw]
    rfl
  let bs : List Bump :=
    [.out .a (v.logupWitChallengeOff + 1) (v.adCoeffs v.currentCnstLookupsOff),
      .node .b result (v.adCoeffs v.currentCnstLookupsOff),
      .out .c v.currentWitLookupsOff (-v.adCoeffs v.currentCnstLookupsOff),
      .out .a (v.currentWitLookupsOff + 1) (v.adCoeffs (v.currentCnstLookupsOff + 1)),
      .out .b v.logupWitChallengeOff (v.adCoeffs (v.currentCnstLookupsOff + 1)),
      .out .b v.currentWitLookupsOff (-v.adCoeffs (v.currentCnstLookupsOff + 1)),
      .node .b key (-v.adCoeffs (v.currentCnstLookupsOff + 1)),
      .node .c flag (v.adCoeffs (v.currentCnstLookupsOff + 1)),
      .out .c (v.currentWitLookupsOff + 1) (v.adCoeffs
        (p.adInfo.elemInversesConstraintSectionOffset + 2 * p.adInfo.length))]
  have hlive : ∀ b ∈ bs, b.Live v.mem.heap := by
    intro b hb
    simp only [bs, List.mem_cons, List.not_mem_nil, or_false] at hb
    rcases hb with rfl | rfl | rfl | rfl | rfl | rfl | rfl | rfl | rfl
    · trivial
    · exact hresult.live h.heap _ _
    · trivial
    · trivial
    · trivial
    · trivial
    · exact hkey.live h.heap _ _
    · exact hflag.live h.heap _ _
    · trivial
  have hgrad : ∀ s, bumpsGrad (gradOf ghost) s bs
      = lookupGrad v.adCoeffs s v.logupWitChallengeOff (v.logupWitChallengeOff + 1)
          v.currentWitLookupsOff v.currentCnstLookupsOff
          (sumCoeff coeffs (adPlaces wl cl G.tables) k) ⟨k, [keyLc, valueLc], flagLc⟩ := by
    intro s
    rw [hsum, lookupGrad]
    simp only [bs, bumpsGrad_cons, bumpsGrad_nil, Bump.grad_out, Bump.grad_node, hkey.grad,
      hresult.grad, hflag.grad, LookupConstraint.rows, LookupConstraint.yWit,
      LookupConstraint.width, List.length_cons, List.length_nil, rowsGrad]
    cases s <;>
      simp only [R1C.side, xRow, lookupRow2, LC.coeffs_cons_unitAt, LC.coeffs_nil,
        LC.coeffs_negTerms, reduceCtorEq, if_true, if_false] <;>
      module
  obtain ⟨mem, hmem, hon⟩ := h.pushLookup ⟨k, [keyLc, valueLc], flagLc⟩ hlive hgrad
  refine ⟨_, ?_, hon⟩
  simp only [bs] at hmem
  simp only [AdVm.adKvLookupEmit, hp, hmem, Option.bind_eq_bind, Option.bind_some,
    Option.pure_def]
  rfl

/-- The row of `drngchk_8_field`. -/
theorem AdOn.drngchk8Emit (h : AdOn coeffs wl cl G g held v ghost rank)
    (hpre : g.tables <+: G.tables) {k : Nat} (hk : g.tables[k]? = some (.range 8))
    {val flag : Ptr} {keyLc flagLc : LC} (hval : AdScalar held ghost val keyLc)
    (hflag : AdScalar held ghost flag flagLc) :
    ∃ v₁, v.drngchk8Emit k val flag = some v₁ ∧
      AdOn coeffs wl cl G { g with lookups := g.lookups ++ [⟨k, [keyLc], flagLc⟩] } held v₁
        ghost rank := by
  obtain ⟨p, hp, htable, hplace⟩ := h.vm.getElem?_tables hpre hk
  have hsum : sumCoeff coeffs (adPlaces wl cl G.tables) k
      = v.adCoeffs (p.adInfo.elemInversesConstraintSectionOffset + 256) := by
    rw [sumCoeff, hplace, Option.elim_some, h.vm.adCoeffs, TablePlace.sumIdx, htable]
    simp [Table.width, Table.len, TablePlace.adInfo, TablePlace.info]
  let bs : List Bump :=
    [.out .c v.currentWitLookupsOff
        (v.adCoeffs (p.adInfo.elemInversesConstraintSectionOffset + 256)),
      .out .a v.currentWitLookupsOff (v.adCoeffs v.currentCnstLookupsOff),
      .out .b v.logupWitChallengeOff (v.adCoeffs v.currentCnstLookupsOff),
      .node .b val (-v.adCoeffs v.currentCnstLookupsOff),
      .node .c flag (v.adCoeffs v.currentCnstLookupsOff)]
  have hlive : ∀ b ∈ bs, b.Live v.mem.heap := by
    intro b hb
    simp only [bs, List.mem_cons, List.not_mem_nil, or_false] at hb
    rcases hb with rfl | rfl | rfl | rfl | rfl
    · trivial
    · trivial
    · trivial
    · exact hval.live h.heap _ _
    · exact hflag.live h.heap _ _
  have hgrad : ∀ s, bumpsGrad (gradOf ghost) s bs
      = lookupGrad v.adCoeffs s v.logupWitChallengeOff (v.logupWitChallengeOff + 1)
          v.currentWitLookupsOff v.currentCnstLookupsOff
          (sumCoeff coeffs (adPlaces wl cl G.tables) k) ⟨k, [keyLc], flagLc⟩ := by
    intro s
    rw [hsum, lookupGrad]
    simp only [bs, bumpsGrad_cons, bumpsGrad_nil, Bump.grad_out, Bump.grad_node, hval.grad,
      hflag.grad, LookupConstraint.rows, LookupConstraint.yWit, LookupConstraint.width,
      List.length_cons, List.length_nil, rowsGrad]
    cases s <;>
      simp only [R1C.side, lookupRow1, LC.coeffs_cons_unitAt, LC.coeffs_nil, LC.coeffs_negTerms,
        reduceCtorEq, if_true, if_false] <;>
      module
  obtain ⟨mem, hmem, hon⟩ := h.pushLookup ⟨k, [keyLc], flagLc⟩ hlive hgrad
  refine ⟨_, ?_, hon⟩
  simp only [bs] at hmem
  simp only [AdVm.drngchk8Emit, hp, hmem, Option.bind_eq_bind, Option.bind_some,
    Option.pure_def]
  rfl

end Mavros
