/-
# `Mavros.VM.WitgenRun` — the loops of phase 2, one after the other

After phase 1 the rows of the tables are empty but for the dumped values, so each
loop finds what its specification asks for: the inversion loops an entry's value and
multiplicity, the playback an inverse where a lookup hits, the last loop an entry
that is inverted.  What is left of the four is `Phase2Done`.

## What is proved

`Phase1Done.run`: from the end of phase 1, with no denominator zero, the four loops run to the end
and leave every section complete.

## How it goes

One lemma for each loop, in their order: `invert`, `play` and `ready` give what the next one asks
for.  Between two loops it has to be seen that what the second reads was not written by the first
in the meantime, which comes down to the places: the tape lies behind the tables, a row of an entry
is no sum row, and sum rows of different tables are different.
-/
import Mavros.VM.Witgen

namespace Mavros

open Lib

/-! ## What phase 1 leaves empty -/

section Dump

variable (w : Nat → Fr) {t : Table}

/-- The slot of an inverse in a dump is empty. -/
theorem Table.dump_inverse {i : Nat} (hi : i < t.len) :
    (t.dump w)[t.width * i + (t.width - 1)]? = some 0 := by
  rcases t.width_eq with ht | ht
  · rw [dump, if_pos ht, List.getElem?_replicate, rowCount, ht, if_pos (by omega)]
  · have hget := Lib.getElem?_flatMap_range (m := 2)
      (f := fun i => [Cell.ofFr ((t.value i).eval w), 0]) (fun _ => rfl) hi (i := 1) (by omega)
    have hlt := (List.getElem?_eq_some_iff.mp hget).1
    rw [dump, if_neg (by rw [ht]; decide), ht, List.getElem?_append_left hlt, hget]
    rfl

/-- And so is that of the sum. -/
theorem Table.dump_sum : (t.dump w)[t.width * t.len]? = some 0 := by
  rcases t.width_eq with ht | ht
  · rw [dump, if_pos ht, List.getElem?_replicate, rowCount, ht, if_pos (by omega)]
  · have hlen : t.width * t.len
        = ((List.range t.len).flatMap fun i => [Cell.ofFr ((t.value i).eval w), 0]).length := by
      rw [List.length_flatMap, ht]
      simp [Nat.mul_comm]
    rw [dump, if_neg (by rw [ht]; decide), hlen, List.getElem?_append_right (Nat.le_refl _),
      Nat.sub_self]
    rfl

end Dump

/-- Sum rows of different tables are different. -/
theorem Ordered.sumIdx_inj {ps : List TablePlace} (h : Ordered ps) {k k' : Nat}
    {p p' : TablePlace} (hk : ps[k]? = some p) (hk' : ps[k']? = some p')
    (heq : p.sumIdx = p'.sumIdx) : k = k' := by
  have hlt : ∀ {j j' : Nat} {q q' : TablePlace}, ps[j]? = some q → ps[j']? = some q' → j < j' →
      q.sumIdx < q'.sumIdx := by
    intro j j' q q' hq hq' hjj'
    obtain ⟨hj, rfl⟩ := List.getElem?_eq_some_iff.mp hq
    obtain ⟨hj', rfl⟩ := List.getElem?_eq_some_iff.mp hq'
    have hrows := (List.pairwise_iff_getElem.mp h j j' hj hj' hjj').1
    rw [Table.rowCount] at hrows
    rw [TablePlace.sumIdx, TablePlace.sumIdx]
    omega
  rcases Nat.lt_trichotomy k k' with hkk' | rfl | hkk'
  · exact absurd heq (Nat.ne_of_lt (hlt hk hk' hkk'))
  · rfl
  · exact absurd heq (Nat.ne_of_gt (hlt hk' hk hkk'))

/-- No row of an entry is the sum row of a table. -/
theorem Ordered.row_ne_sumIdx {ps : List TablePlace} (h : Ordered ps) {p q : TablePlace}
    (hp : p ∈ ps) (hq : q ∈ ps) {i j : Nat} (hi : i < p.table.len)
    (hj : j ∈ entryRows (p, i)) : j ≠ q.sumIdx := by
  obtain ⟨k, hk, rfl⟩ := List.getElem_of_mem hp
  obtain ⟨k', hk', rfl⟩ := List.getElem_of_mem hq
  have hsection := Phase2.entryRows_subset hi hj
  have hsum := Phase2.sumIdx_mem ps[k']
  rw [Set.mem_Ico] at hsection hsum
  rcases Nat.lt_trichotomy k k' with hkk' | rfl | hkk'
  · have hrows := (List.pairwise_iff_getElem.mp h k k' hk hk' hkk').1
    omega
  · have hmul : ps[k].table.width * (i + 1) ≤ ps[k].table.width * ps[k].table.len :=
      Nat.mul_le_mul_left _ hi
    rw [Nat.mul_succ] at hmul
    simp only [entryRows, TablePlace.xRow, Set.mem_Ico] at hj
    rw [TablePlace.sumIdx]
    omega
  · have hrows := (List.pairwise_iff_getElem.mp h k' k hk' hk hkk').1
    omega

namespace Phase1Done

variable {w : Nat → Fr} {G : R1CGen} {r : R1CS} {v : FwdVm} (h : Phase1Done w G r v)
  (challenges : List Fr)

include h

/-- A cell of a table in `out_a`. -/
theorem outA_dump {k o : Nat} {t : Table} {c : Cell} (hk : G.tables[k]? = some t)
    (ho : (t.dump w)[o]? = some c) :
    v.outA ((G.vmPlace r.witnessLayout.challengesSize k t).cnst + o) = c := by
  have hget := Lib.getElem?_flatMap (f := Table.dump w) hk (i := o)
    (List.getElem?_eq_some_iff.mp ho).1
  rw [length_flatMap_dump, ho] at hget
  have hbound := (List.getElem?_eq_some_iff.mp hget).1
  rw [length_flatMap_dump] at hbound
  show v.outA (G.constraints.length + totalRows (G.tables.take k) + o) = c
  rw [h.vm.outA, Nat.add_assoc, sections_second hbound, List.getD_eq_getElem?_getD, hget,
    Option.getD_some]

/-- The rows of the tables in `out_c` are empty. -/
theorem outC_zero {i : Nat} (hlo : G.constraints.length ≤ i)
    (hhi : i < r.constraintsLayout.lookupsDataStart) : v.outC i = 0 := by
  rw [h.lookupsDataStart_eq] at hhi
  obtain ⟨j, rfl⟩ := Nat.exists_eq_add_of_le hlo
  rw [h.vm.outC, sections_second (by omega)]
  rfl

/-- The tape stands behind the tables. -/
theorem tapeAt : Phase2.TapeAt w G.lookups r.constraintsLayout.lookupsDataStart
    (Phase2.start v challenges) := by
  intro j e he
  have hA : v.outA (r.constraintsLayout.lookupsDataStart + j) = e.table := by
    rw [h.vm.outA, h.lookupsDataStart_eq, sections_third, List.getD_eq_getElem?_getD,
      List.getElem?_map, he]
    rfl
  have hB : v.outB (r.constraintsLayout.lookupsDataStart + j) = e.elem := by
    rw [h.vm.outB, h.lookupsDataStart_eq, sections_third, List.getD_eq_getElem?_getD,
      List.getElem?_map, he]
    rfl
  have hC : v.outC (r.constraintsLayout.lookupsDataStart + j) = e.flag := by
    rw [h.vm.outC, h.lookupsDataStart_eq, sections_third, List.getD_eq_getElem?_getD,
      List.getElem?_map, he]
    rfl
  exact ⟨hA, hB, hC⟩

/-- The rows of an entry lie in the section of the tables. -/
theorem row_of_mem {p : TablePlace} {i j : Nat}
    (hp : p ∈ G.vmPlaces r.witnessLayout.challengesSize) (hi : i < p.table.len)
    (hj : j ∈ entryRows (p, i)) :
    G.constraints.length ≤ j ∧ j < r.constraintsLayout.lookupsDataStart := by
  have hsection := h.place_section hp
  have hj := Phase2.entryRows_subset hi hj
  rw [Set.mem_Ico] at hj
  omega

/-- And so do those of all of them. -/
theorem row_of_mem_allRows {j : Nat}
    (hj : j ∈ Phase2.allRows (tableEntries (G.vmPlaces r.witnessLayout.challengesSize))) :
    G.constraints.length ≤ j ∧ j < r.constraintsLayout.lookupsDataStart := by
  obtain ⟨⟨p, i⟩, he, hj⟩ := hj
  obtain ⟨hp, hi⟩ := mem_tableEntries.mp he
  exact h.row_of_mem hp hi hj

/-- A table of two columns is behind two challenges. -/
theorem challengesSize_pos {l : LookupConstraint} (hl : l ∈ G.lookups) :
    1 ≤ r.witnessLayout.challengesSize ∧
      (l.width = 2 → r.witnessLayout.challengesSize = 2) := by
  obtain ⟨t, ht, hwidth⟩ := h.wellFormed.widths l hl
  have hmem := List.mem_of_getElem? ht
  rw [h.sizes.challenges (List.ne_nil_of_mem hmem), R1CGen.challengesSize]
  refine ⟨by split_ifs <;> omega, fun hl => if_pos ?_⟩
  rw [R1CGen.wide, List.any_eq_true]
  exact ⟨t, hmem, by rw [hwidth, hl]; rfl⟩

/-- The witnesses of the lookups start behind those of the tables. -/
theorem lookupsDataStart_sub :
    r.witnessLayout.lookupsDataStart - r.witnessLayout.challengesStart
      = r.witnessLayout.challengesSize + totalWit G.tables := by
  have hwits := h.sizes.tableWits
  simp only [WitnessLayout.lookupsDataStart, WitnessLayout.tablesDataEnd,
    WitnessLayout.tablesDataStart, WitnessLayout.challengesEnd]
  omega

/-! ## The loops

The specification of each at the state the one before it has left.
-/

/-- The first two loops: the denominators of the entries are inverted. -/
theorem invert (hden : ∀ p ∈ G.vmPlaces r.witnessLayout.challengesSize, ∀ i < p.table.len,
      (G.tableData w challenges).denom p i ≠ 0) :
    ∃ prod st₁ st₂,
      (Phase2.start v challenges).fillTables
          (fixMultiplicitiesSection v.witPreComm r.witnessLayout) v.tables = (prod, st₁) ∧
        prod ≠ 0 ∧ (st₁.invertTables v.tables prod⁻¹).2 = st₂ ∧
        (∀ p ∈ G.vmPlaces r.witnessLayout.challengesSize, ∀ i < p.table.len,
          Phase2.Inverted (G.tableData w challenges) p i (Phase2.start v challenges) st₂) ∧
        Phase2.EqOff (Phase2.allRows (tableEntries (G.vmPlaces r.witnessLayout.challengesSize)))
          (Phase2.start v challenges) st₂ ∧
        st₂.witPostComm = (Phase2.start v challenges).witPostComm := by
  have htables : v.tables = (G.vmPlaces r.witnessLayout.challengesSize).map TablePlace.info :=
    h.vm.tables
  obtain ⟨prod, st₁, st₂, hfill, hprod, hinvert, hinv, hoff, -, -, hpost⟩ :=
    @Phase2.fill_invert (G.tableData w challenges) _ _ (Phase2.start v challenges) 1
      (entriesApart (placeTables_ordered G.tables _ _ _)) one_ne_zero rfl rfl
      (fun e he => h.reads challenges (mem_tableEntries.mp he).1 (mem_tableEntries.mp he).2)
      (fun e he _ => hden e.1 (mem_tableEntries.mp he).1 e.2 (mem_tableEntries.mp he).2)
  refine ⟨prod, st₁, st₂, ?_, hprod, ?_,
    fun p hp i hi => hinv (p, i) (mem_tableEntries.mpr ⟨hp, hi⟩), hoff, hpost⟩
  · rw [htables, Phase2.fillTables_eq]
    exact hfill
  · rw [htables, Phase2.invertTables_eq]
    exact congrArg Prod.snd hinvert

variable {challenges}

/-- A lookup finds the inverse of the entry it hits. -/
theorem hit {st : Phase2} {l : LookupConstraint} (hl : l ∈ G.lookups)
    (hinv : ∀ p ∈ G.vmPlaces r.witnessLayout.challengesSize, ∀ i < p.table.len,
      Phase2.Inverted (G.tableData w challenges) p i (Phase2.start v challenges) st) :
    Phase2.Playable (G.tableData w challenges) w (G.vmPlaces r.witnessLayout.challengesSize)
      r.constraintsLayout.lookupsDataStart l st := by
  obtain ⟨t, ht, hwidth⟩ := h.wellFormed.widths l hl
  have hplace := G.getElem?_vmPlaces r.witnessLayout.challengesSize ht
  have hmem := List.mem_of_getElem? hplace
  have hid := h.wellFormed.inRange l hl
  have hlen := h.length_tables_lt
  have hsum := (h.place_section hmem).2.1
  have hsum' := Phase2.sumIdx_mem (G.vmPlace r.witnessLayout.challengesSize l.tableId t)
  rw [Set.mem_Ico] at hsum'
  refine ⟨by omega, _, hplace, hwidth, by omega, ?_, fun hf => ?_⟩
  · refine (h.hits l hl).imp_right fun ⟨hf, t', ht', i, hi, hkey, hvalue⟩ => ⟨hf, ?_⟩
    obtain rfl := Option.some.inj (ht.symm.trans ht')
    have hlt := totalLen_take_add_lt ht hi
    have htotal := h.totalLen_lt
    have hcounter := counter_eq (G := G) hkey (by omega)
    have hentry := hinv _ hmem i hi
    -- the lookup itself is counted at the entry
    have hcount : (G.tableData w challenges).mult
        (G.vmPlace r.witnessLayout.challengesSize l.tableId t) i ≠ 0 := by
      refine natCast_ne_zero (List.countP_pos_iff.mpr ⟨l, hl, ?_⟩) (h.counted_lt _)
      simpa using ⟨hf, hcounter⟩
    rw [hkey, lowU64_natCast (by omega), denomOf_eq challenges r.witnessLayout.challengesSize
      hwidth hkey hvalue]
    exact ⟨hentry.counted hcount, hentry.b⟩
  · rcases h.hits l hl with hf' | ⟨-, t', ht', i, hi, hkey, -⟩
    · rw [hf'] at hf
      exact absurd hf (by decide)
    · obtain rfl := Option.some.inj (ht.symm.trans ht')
      have hlt := totalLen_take_add_lt ht hi
      have htotal := h.totalLen_lt
      rw [hkey, lowU64_natCast (by omega)]
      exact (h.row_of_mem hmem hi (yRow_mem _ i)).2

/-- The third loop plays the tape to its end. -/
theorem play {st : Phase2}
    (hinv : ∀ p ∈ G.vmPlaces r.witnessLayout.challengesSize, ∀ i < p.table.len,
      Phase2.Inverted (G.tableData w challenges) p i (Phase2.start v challenges) st)
    (hoff : Phase2.EqOff
      (Phase2.allRows (tableEntries (G.vmPlaces r.witnessLayout.challengesSize)))
      (Phase2.start v challenges) st)
    (hpost : st.witPostComm = (Phase2.start v challenges).witPostComm) :
    ∃ st', Phase2.playLookups v.tables r.constraintsLayout.lookupsDataStart
          (r.witnessLayout.lookupsDataStart - r.witnessLayout.challengesStart)
          r.constraintsLayout.lookupsDataSize r.constraintsLayout.lookupsDataSize 0 st
        = some st' ∧
      Phase2.LookupsPlayed (G.tableData w challenges) w
        (G.vmPlaces r.witnessLayout.challengesSize) G.lookups
        r.constraintsLayout.lookupsDataStart
        (r.witnessLayout.lookupsDataStart - r.witnessLayout.challengesStart) st st' := by
  have htables : v.tables = (G.vmPlaces r.witnessLayout.challengesSize).map TablePlace.info :=
    h.vm.tables
  have hstart := h.lookupsDataStart_sub
  have hord : Ordered (G.vmPlaces r.witnessLayout.challengesSize) :=
    placeTables_ordered G.tables _ _ _
  have htape : Phase2.TapeAt w G.lookups (r.constraintsLayout.lookupsDataStart + 0) st := by
    intro j e he
    obtain ⟨hA, hB, hC⟩ := h.tapeAt challenges j e he
    have hrow : r.constraintsLayout.lookupsDataStart + j ∉ Phase2.allRows
        (tableEntries (G.vmPlaces r.witnessLayout.challengesSize)) := by
      intro hmem
      have := (h.row_of_mem_allRows hmem).2
      omega
    exact ⟨(hoff.outA _ hrow).trans hA, (hoff.outB _ hrow).trans hB, (hoff.outC _ hrow).trans hC⟩
  have hsums : ∀ p ∈ G.vmPlaces r.witnessLayout.challengesSize,
      p.sumIdx < r.constraintsLayout.lookupsDataStart := by
    intro p hp
    have hsection := (h.place_section hp).2.1
    have hsum := Phase2.sumIdx_mem p
    rw [Set.mem_Ico] at hsum
    omega
  obtain ⟨st', hrun, hplayed⟩ := @Phase2.playLookups_spec (G.tableData w challenges) w _ _
    (r.witnessLayout.lookupsDataStart - r.witnessLayout.challengesStart)
    (fun k k' p p' hk hk' => hord.sumIdx_inj hk hk') hsums G.lookups 0
    r.constraintsLayout.lookupsDataSize st (Nat.le_of_eq h.sizes.lookups.symm) (congrFun hpost 0)
    (fun l hl => by
      have := (h.challengesSize_pos hl).1
      omega)
    (fun l hl hw => ⟨congrFun hpost 1, by
      have := (h.challengesSize_pos hl).2 hw
      omega⟩)
    h.wellFormed.sealable (fun l hl => h.hit hl hinv) htape
  rw [Nat.zero_add, ← htables, ← h.sizes.lookups] at hrun
  exact ⟨st', hrun, hplayed⟩

/-- An entry that was inverted and that no lookup wrote to is ready to be finished. -/
theorem ready {st st' : Phase2} {p : TablePlace} {i : Nat}
    (hlen : challenges.length = r.witnessLayout.challengesSize)
    (hp : p ∈ G.vmPlaces r.witnessLayout.challengesSize) (hi : i < p.table.len)
    (hinv : Phase2.Inverted (G.tableData w challenges) p i (Phase2.start v challenges) st)
    (hpost : st.witPostComm = (Phase2.start v challenges).witPostComm)
    (hplayed : Phase2.LookupsPlayed (G.tableData w challenges) w
      (G.vmPlaces r.witnessLayout.challengesSize) G.lookups
      r.constraintsLayout.lookupsDataStart
      (r.witnessLayout.lookupsDataStart - r.witnessLayout.challengesStart) st st') :
    Phase2.Ready (G.tableData w challenges) p i st' := by
  have hord : Ordered (G.vmPlaces r.witnessLayout.challengesSize) :=
    placeTables_ordered G.tables _ _ _
  have hx := xRow_mem p i
  have hy := yRow_mem p i
  have hxlt := (h.row_of_mem hp hi hx).2
  have hylt := (h.row_of_mem hp hi hy).2
  have hC : ∀ {j}, j ∈ entryRows (p, i) → st'.outC j = st.outC j := fun hj =>
    hplayed.outC _ (h.row_of_mem hp hi hj).2 fun q hq => hord.row_ne_sumIdx hp hq hi hj
  obtain ⟨k, t, hk, rfl⟩ := G.mem_vmPlaces hp
  have hempty : (Phase2.start v challenges).a
      ((G.vmPlace r.witnessLayout.challengesSize k t).yRow i) = 0 := by
    have hdump := h.outA_dump hk (t.dump_inverse w hi)
    rw [Nat.add_comm (t.width * i), Nat.add_comm (t.width - 1), ← Nat.add_assoc] at hdump
    exact (congrArg Cell.toFr hdump).trans Cell.toFr_zero
  have hwit := Phase2.entryWits_subset hi
    (Phase2.yWit_mem (G.vmPlace r.witnessLayout.challengesSize k t) i)
  rw [Set.mem_Ico] at hwit
  have hsection := h.place_section hp
  have hstart := h.lookupsDataStart_sub
  exact
    { b := (congrArg Cell.toFr (hplayed.outB _ hylt)).trans hinv.b
      c := (congrArg Cell.toFr (hC hy)).trans hinv.c
      counted := fun hm => (congrArg Cell.toFr (hplayed.outA _ hylt)).trans (hinv.counted hm)
      uncounted := fun hm =>
        ((congrArg Cell.toFr (hplayed.outA _ hylt)).trans (hinv.uncounted hm)).trans hempty
      post := by
        rw [hplayed.post _ (by omega), hpost]
        exact List.getD_eq_default _ _ (by omega)
      xa := fun hw => (congrArg Cell.toFr (hplayed.outA _ hxlt)).trans (hinv.xa hw)
      xb := fun hw => (congrArg Cell.toFr (hplayed.outB _ hxlt)).trans (hinv.xb hw)
      xc := fun hw => (congrArg Cell.toFr (hC hx)).trans (hinv.xc hw) }

end Phase1Done

/-- What phase 2 leaves behind. -/
structure Phase2Done (d : Phase2.TableData) (w : Nat → Fr) (G : R1CGen) (r : R1CS) (v : FwdVm)
    (challenges : List Fr) (st : Phase2) : Prop where
  outA : ∀ i < G.constraints.length, st.outA i = v.outA i
  outB : ∀ i < G.constraints.length, st.outB i = v.outB i
  outC : ∀ i < G.constraints.length, st.outC i = v.outC i
  tables : ∀ p ∈ G.vmPlaces r.witnessLayout.challengesSize, Phase2.TableDone d p st
  sums : ∀ k p, (G.vmPlaces r.witnessLayout.challengesSize)[k]? = some p →
    st.c p.sumIdx = ((G.lookups.filter fun l => l.tableId = k).map (d.quot w)).sum
  lookups : ∀ k l, G.lookups[k]? = some l →
    Phase2.Played d w l
      (r.constraintsLayout.lookupsDataStart + totalWidth (G.lookups.take k))
      (r.witnessLayout.lookupsDataStart - r.witnessLayout.challengesStart
        + totalWidth (G.lookups.take k)) st
  challenges : ∀ i < r.witnessLayout.challengesSize, st.witPostComm i = challenges.getD i 0

/-- `Phase1Result` of a run. -/
def FwdVm.phase1 (v : FwdVm) (wl : WitnessLayout) : Phase1Result :=
  { witPreComm := fixMultiplicitiesSection v.witPreComm wl
    outA := v.outA
    outB := v.outB
    outC := v.outC
    tables := v.tables }

/-- The four loops run to the end and leave every section complete. -/
theorem Phase1Done.run {w : Nat → Fr} {G : R1CGen} {r : R1CS} {v : FwdVm}
    (h : Phase1Done w G r v) {challenges : List Fr}
    (hlen : challenges.length = r.witnessLayout.challengesSize)
    (hden : ∀ p ∈ G.vmPlaces r.witnessLayout.challengesSize, ∀ i < p.table.len,
      (G.tableData w challenges).denom p i ≠ 0) :
    ∃ st, runPhase2 (v.phase1 r.witnessLayout) challenges r.witnessLayout r.constraintsLayout
        = some st ∧
      Phase2Done (G.tableData w challenges) w G r v challenges st := by
  have htables : v.tables = (G.vmPlaces r.witnessLayout.challengesSize).map TablePlace.info :=
    h.vm.tables
  have hord : Ordered (G.vmPlaces r.witnessLayout.challengesSize) :=
    placeTables_ordered G.tables _ _ _
  have hwidths : ∀ tbl ∈ v.tables, tbl.numValues = 0 ∨ tbl.numValues = 1 := by
    rw [htables]
    intro tbl htbl
    obtain ⟨p, -, rfl⟩ := List.mem_map.mp htbl
    rcases p.table.width_eq with hw | hw <;> simp [TablePlace.info, hw]
  obtain ⟨prod, st₁, st₂, hfill, hprod, rfl, hinv, hoff, hpost⟩ := h.invert challenges hden
  obtain ⟨st₃, hplay, hplayed⟩ := h.play hinv hoff hpost
  have hsum : ∀ p ∈ G.vmPlaces r.witnessLayout.challengesSize,
      p.sumIdx < r.constraintsLayout.lookupsDataStart ∧
        p.sumIdx ∉ Phase2.allRows (tableEntries (G.vmPlaces r.witnessLayout.challengesSize)) := by
    intro p hp
    have hsection := (h.place_section hp).2.1
    have hmem := Phase2.sumIdx_mem p
    rw [Set.mem_Ico] at hmem
    refine ⟨by omega, ?_⟩
    rintro ⟨⟨q, i⟩, he, hrow⟩
    obtain ⟨hq, hi⟩ := mem_tableEntries.mp he
    exact hord.row_ne_sumIdx hq hp hi hrow rfl
  have hready : ∀ p ∈ G.vmPlaces r.witnessLayout.challengesSize,
      (∀ i < p.table.len, Phase2.Ready (G.tableData w challenges) p i st₃) ∧
        st₃.a p.sumIdx = 0 := by
    intro p hp
    refine ⟨fun i hi => h.ready hlen hp hi (hinv p hp i hi) hpost hplayed, ?_⟩
    rw [Phase2.a, hplayed.outA _ (hsum p hp).1, hoff.outA _ (hsum p hp).2]
    obtain ⟨k, t, hk, rfl⟩ := G.mem_vmPlaces hp
    exact (congrArg Cell.toFr (h.outA_dump hk (t.dump_sum w))).trans Cell.toFr_zero
  obtain ⟨hdone, hab, hc, hpost'⟩ := Phase2.finishTables_spec hord hready
  rw [← htables] at hdone hab hc hpost'
  have hstart := h.lookupsDataStart_sub
  -- the algebraic rows, the tape and the challenges are outside the sections of the tables
  have houter : ∀ {j}, j < G.constraints.length ∨ r.constraintsLayout.lookupsDataStart ≤ j →
      ∀ p ∈ G.vmPlaces r.witnessLayout.challengesSize,
        j ∉ Set.Ico p.cnst (p.cnst + p.table.rowCount) := by
    intro j hj p hp hmem
    have hsection := h.place_section hp
    rw [Set.mem_Ico] at hmem
    omega
  have houter' : ∀ {j}, j < r.witnessLayout.challengesSize ∨
      r.witnessLayout.lookupsDataStart - r.witnessLayout.challengesStart ≤ j →
      ∀ p ∈ G.vmPlaces r.witnessLayout.challengesSize,
        j ∉ Set.Ico p.wit (p.wit + p.table.witCount) := by
    intro j hj p hp hmem
    have hsection := h.place_section hp
    rw [Set.mem_Ico] at hmem
    omega
  have hbefore : ∀ {j}, j < G.constraints.length → j < r.constraintsLayout.lookupsDataStart ∧
      j ∉ Phase2.allRows (tableEntries (G.vmPlaces r.witnessLayout.challengesSize)) := by
    intro j hj
    refine ⟨?_, fun hmem => ?_⟩
    · rw [h.lookupsDataStart_eq]
      omega
    · have := (h.row_of_mem_allRows hmem).1
      omega
  refine ⟨v.tables.foldl Phase2.finishTable st₃, ?_, fun j hj => ?_, fun j hj => ?_,
    fun j hj => ?_, hdone, fun k p hk => ?_, fun k l hk => ?_, fun j hj => ?_⟩
  · have hstate : Phase2.mk v.outA v.outB v.outC (fun i => challenges.getD i 0)
        = Phase2.start v challenges := rfl
    rw [runPhase2, FwdVm.phase1, if_pos hwidths]
    simp only [hstate, hfill, if_neg hprod, hplay, Option.map_some]
  · exact ((hab j (houter (.inl hj))).1.trans (hplayed.outA j (hbefore hj).1)).trans
      (hoff.outA j (hbefore hj).2)
  · exact ((hab j (houter (.inl hj))).2.trans (hplayed.outB j (hbefore hj).1)).trans
      (hoff.outB j (hbefore hj).2)
  · rw [hc, hplayed.outC j (hbefore hj).1, hoff.outC j (hbefore hj).2]
    · rfl
    · intro p hp heq
      have hsection := (h.place_section hp).1
      have hmem := Phase2.sumIdx_mem p
      rw [Set.mem_Ico] at hmem
      omega
  · have hp := List.mem_of_getElem? hk
    have hmem := Phase2.sumIdx_mem p
    rw [Set.mem_Ico] at hmem
    have hempty : (Phase2.start v challenges).outC p.sumIdx = 0 :=
      h.outC_zero (Nat.le_trans (h.place_section hp).1 hmem.1) (hsum p hp).1
    rw [Phase2.c, hc, ← Phase2.c, hplayed.sum k p hk, Phase2.c, hoff.outC _ (hsum p hp).2,
      hempty, Cell.toFr_zero, zero_add]
  · exact (hplayed.played k l hk).congr (h.wellFormed.sealable l (List.mem_of_getElem? hk))
      (fun j hj _ => (hab j (houter (.inr (Nat.le_trans (Nat.le_add_right _ _) hj)))).1)
      (fun j hj _ => (hab j (houter (.inr (Nat.le_trans (Nat.le_add_right _ _) hj)))).2)
      (fun j _ _ => congrFun hc j)
      (fun j hj _ => hpost' j (houter' (.inr (Nat.le_trans (Nat.le_add_right _ _) hj))))
  · rw [hpost' j (houter' (.inl hj)), hplayed.post j (by omega), hpost]
    rfl

end Mavros
