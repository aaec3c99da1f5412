/-
# `Mavros.VM.WitgenRows` — every row of the sealed system passes

The sealed system is three lists of blocks: the algebraic rows, a block for each
table and a block for each lookup.  Phase 2 left the vectors and the witness of each
block complete (`Phase2Done`), so each block is checked by itself; only the sum rows
look at two kinds of blocks at once, and there `sum_quot` is the whole argument.

## What is proved

`Program.generatesWitness`: for every program that the generator takes to its end and can seal, both
phases of the machine end in the layouts of the sealed system, and `check_witgen_output` accepts
what they leave, on these conditions:

* the algebraic rows hold of what the program writes, and every active lookup hits an entry of its
  table; without these there is no witness;
* the two sides make the same tables, which is asked of the program as in `Mavros.VM.Tables`;
* the system has fewer than `2 ^ 64` rows, there are as many challenges as it asks for, and no
  denominator is zero under them.

## How it goes

A row is accepted if its three values are those of its combinations under the whole witness, and
their product is right (`R1C.rowOk_of_eq`).  The values of the vectors are known from the loops,
those of the combinations from the witness (`Completed`), and the two are compared row by row: for
an entry (`entry_ok`), a sum row (`sum_ok`), a lookup (`lookup_ok`) and an algebraic row
(`algebraic_ok`).
-/
import Mavros.VM.WitgenRun

namespace Mavros

open Lib

/-! ## Blocks of rows

Rows that stand at an offset, and how blocks are put together.
-/

/-- A list of rows that stands at `o` passes. -/
def RowsOk (w a b c : Nat → Fr) (o : Nat) (rows : List R1C) : Prop :=
  ∀ (i : Nat) (row : R1C), rows[i]? = some row → row.RowOk w a b c (o + i)

/-- The three values are right, and so is their product. -/
theorem R1C.rowOk_of_eq {w a b c : Nat → Fr} {i : Nat} {row : R1C} (ha : row.a.eval w = a i)
    (hb : row.b.eval w = b i) (hc : row.c.eval w = c i) (h : a i * b i = c i) :
    row.RowOk w a b c i :=
  ⟨by rw [R1C.Holds, ha, hb, hc, h], ha, hb, hc⟩

section Blocks

variable {w a b c : Nat → Fr} {o : Nat}

theorem RowsOk.append {xs ys : List R1C} (hx : RowsOk w a b c o xs)
    (hy : RowsOk w a b c (o + xs.length) ys) : RowsOk w a b c o (xs ++ ys) := by
  intro i row hi
  by_cases hlt : i < xs.length
  · rw [List.getElem?_append_left hlt] at hi
    exact hx i row hi
  · rw [List.getElem?_append_right (Nat.le_of_not_lt hlt)] at hi
    have hrow := hy _ row hi
    rwa [Nat.add_assoc, Nat.add_sub_cancel' (Nat.le_of_not_lt hlt)] at hrow

theorem rowsOk_singleton {row : R1C} (h : row.RowOk w a b c o) : RowsOk w a b c o [row] := by
  intro i row' hi
  obtain ⟨hlt, rfl⟩ := List.getElem?_eq_some_iff.mp hi
  obtain rfl := Nat.lt_one_iff.mp hlt
  exact h

theorem rowsOk_flatMap_range {f : Nat → List R1C} {m n : Nat} (hf : ∀ k, (f k).length = m)
    (h : ∀ k < n, RowsOk w a b c (o + m * k) (f k)) :
    RowsOk w a b c o ((List.range n).flatMap f) := by
  intro j row hj
  obtain ⟨k, i, hk, hi, rfl⟩ := exists_of_getElem?_flatMap_range hf hj
  rw [← Nat.add_assoc]
  exact h k hk i row hi

/-- The blocks of the tables, each where it is placed. -/
theorem rowsOk_tableRows {alpha beta : Nat} {rhs : Nat → LC} : ∀ {ts : List Table} {m d o k : Nat},
    (∀ (j : Nat) (p : TablePlace), (placeTables m d o ts)[j]? = some p →
      RowsOk w a b c p.cnst (p.rows alpha beta (rhs (k + j)))) →
    RowsOk w a b c o (tableRows alpha beta rhs k (placeTables m d o ts)) := by
  intro ts
  induction ts with
  | nil =>
      intro m d o k _ i row hi
      simp [placeTables, tableRows] at hi
  | cons t ts ih =>
      intro m d o k h
      rw [placeTables, tableRows]
      refine RowsOk.append (h 0 _ rfl) ?_
      rw [TablePlace.length_rows]
      refine ih fun j p hp => ?_
      have hrows := h (j + 1) p hp
      rwa [Nat.add_comm j, ← Nat.add_assoc] at hrows

/-- The blocks of the lookups, one behind the other. -/
theorem rowsOk_lookupRows {alpha beta : Nat} : ∀ {ls : List LookupConstraint} {d o : Nat},
    (∀ l ∈ ls, l.Sealable) →
    (∀ (j : Nat) (l : LookupConstraint), ls[j]? = some l →
      RowsOk w a b c (o + totalWidth (ls.take j))
        (l.rows alpha beta (d + totalWidth (ls.take j)))) →
    RowsOk w a b c o (lookupRows alpha beta d ls) := by
  intro ls
  induction ls with
  | nil =>
      intro d o _ _ i row hi
      simp [lookupRows] at hi
  | cons l ls ih =>
      intro d o hseal h
      rw [lookupRows]
      refine RowsOk.append (h 0 l rfl) ?_
      rw [LookupConstraint.length_rows (hseal l List.mem_cons_self)]
      refine ih (fun l' hl' => hseal l' (List.mem_cons_of_mem _ hl')) fun j l' hj => ?_
      have hrows := h (j + 1) l' hj
      have htake : totalWidth ((l :: ls).take (j + 1)) = l.width + totalWidth (ls.take j) := rfl
      rwa [htake, ← Nat.add_assoc, ← Nat.add_assoc] at hrows

/-- The right-hand side of a sum row, when every lookup has its inverse. -/
theorem eval_sumRhs_of_inverse {quot : LookupConstraint → Fr} (k : Nat) :
    ∀ {ls : List LookupConstraint} {d : Nat},
      (∀ (j : Nat) (l : LookupConstraint), ls[j]? = some l →
        w (l.yWit (d + totalWidth (ls.take j))) = quot l) →
      (sumRhs k d ls).eval w = ((ls.filter fun l => l.tableId = k).map quot).sum := by
  intro ls
  induction ls with
  | nil => intro d _; rfl
  | cons l ls ih =>
      intro d h
      have hl : w (l.yWit d) = quot l := h 0 l rfl
      have hrest := @ih (d + l.width) fun j l' hj => by
        have hj' := h (j + 1) l' hj
        have htake : totalWidth ((l :: ls).take (j + 1)) = l.width + totalWidth (ls.take j) := rfl
        rwa [htake, ← Nat.add_assoc] at hj'
      rw [sumRhs, LC.eval_append, hrest]
      by_cases hk : l.tableId = k
      · simp [hk, hl]
      · simp [hk]

end Blocks

/-! ## The whole witness

Both parts in one vector, the challenges between them.
-/

/-- `out_wit_pre_comm` and `out_wit_post_comm`, one behind the other. -/
def Phase2.witness (wl : WitnessLayout) (phase1 : Phase1Result) (st : Phase2) (i : Nat) : Fr :=
  if i < wl.preCommitmentSize then (phase1.witPreComm i).toFr
  else st.witPostComm (i - wl.preCommitmentSize)

/-- What the rows find in the witness. -/
structure Completed (w : Nat → Fr) (G : R1CGen) (d : Phase2.TableData) (cs : Nat) (st : Phase2)
    (W : Nat → Fr) : Prop where
  algebraic : ∀ i < G.nextWitness, W i = w i
  mult : ∀ k t, G.tables[k]? = some t → ∀ i < t.len,
    W ((G.vmPlace cs k t).mult + i) = d.mult (G.vmPlace cs k t) i
  post : ∀ i, W (G.alpha + i) = st.witPostComm i

theorem Phase1Done.completed {w : Nat → Fr} {G : R1CGen} {r : R1CS} {v : FwdVm}
    (h : Phase1Done w G r v) (challenges : List Fr) (st : Phase2) :
    Completed w G (G.tableData w challenges) r.witnessLayout.challengesSize st
      (st.witness r.witnessLayout (v.phase1 r.witnessLayout)) := by
  have hsize : r.witnessLayout.preCommitmentSize = G.alpha := by
    rw [WitnessLayout.preCommitmentSize, h.sizes.algebraic, h.sizes.multiplicities, R1CGen.alpha]
  refine ⟨fun i hi => ?_, fun k t hk i hi => ?_, fun i => ?_⟩
  · have hlt : i < r.witnessLayout.preCommitmentSize := by
      rw [hsize, R1CGen.alpha]
      omega
    have hstart : r.witnessLayout.multiplicitiesStart = G.nextWitness := h.sizes.algebraic
    have hcell : (v.phase1 r.witnessLayout).witPreComm i = v.witPreComm i := by
      show fixMultiplicitiesSection v.witPreComm r.witnessLayout i = _
      rw [fixMultiplicitiesSection, hstart, if_neg (by omega)]
    rw [Phase2.witness, if_pos hlt, hcell, h.vm.witness i hi, if_pos hi, Cell.toFr_ofFr]
  · have hlt := totalLen_take_add_lt hk hi
    have hmult : (G.vmPlace r.witnessLayout.challengesSize k t).mult
        = G.nextWitness + totalLen (G.tables.take k) := rfl
    have hpre : (G.vmPlace r.witnessLayout.challengesSize k t).mult + i
        < r.witnessLayout.preCommitmentSize := by
      rw [hsize, R1CGen.alpha, hmult]
      omega
    rw [Phase2.witness, if_pos hpre]
    exact h.multiplicity challenges hk hi
  · rw [Phase2.witness, hsize, if_neg (by omega), Nat.add_sub_cancel_left]

/-! ## The blocks of the sealed system -/

/-- Both phases are done, and `W` is the witness they leave. -/
structure WitgenDone (w : Nat → Fr) (G : R1CGen) (r : R1CS) (v : FwdVm) (challenges : List Fr)
    (st : Phase2) (W : Nat → Fr) : Prop where
  phase1 : Phase1Done w G r v
  phase2 : Phase2Done (G.tableData w challenges) w G r v challenges st
  witness : Completed w G (G.tableData w challenges) r.witnessLayout.challengesSize st W
  below : G.Scoped
  one : w 0 = 1

/-- The inverse of an entry, in the sealed witness. -/
theorem R1CGen.yWit_place (G : R1CGen) (k : Nat) (t : Table) (i : Nat) :
    (G.place k t).yWit i = G.alpha + (G.vmPlace G.challengesSize k t).yWit i := by
  show G.tablesStart + totalWit (G.tables.take k) + t.width * i + (t.width - 1)
    = G.alpha + (G.challengesSize + totalWit (G.tables.take k) + t.width * i + (t.width - 1))
  rw [R1CGen.tablesStart]
  omega

theorem R1CGen.xWit_place (G : R1CGen) (k : Nat) (t : Table) (i : Nat) :
    (G.place k t).xWit i = G.alpha + (G.vmPlace G.challengesSize k t).xWit i := by
  show G.tablesStart + totalWit (G.tables.take k) + t.width * i
    = G.alpha + (G.challengesSize + totalWit (G.tables.take k) + t.width * i)
  rw [R1CGen.tablesStart]
  omega

theorem Phase2.TableData.entryQuot_mul {d : TableData} {p : TablePlace} {i : Nat}
    (h : d.denom p i ≠ 0) : d.entryQuot p i * d.denom p i = d.mult p i :=
  inv_mul_cancel_right₀ h _

namespace WitgenDone

variable {w W : Nat → Fr} {G : R1CGen} {r : R1CS} {v : FwdVm} {challenges : List Fr}
  {st : Phase2} (h : WitgenDone w G r v challenges st W)

include h

theorem eval_eq {lc : LC} (hlc : lc.Below G.nextWitness) : lc.eval W = lc.eval w :=
  LC.eval_congr hlc h.witness.algebraic

theorem witness_zero : W 0 = 1 := (h.witness.algebraic 0 h.below.one).trans h.one

theorem challengesSize_eq {k : Nat} {t : Table} (hk : G.tables[k]? = some t) :
    r.witnessLayout.challengesSize = G.challengesSize :=
  h.phase1.sizes.challenges (List.ne_nil_of_mem (List.mem_of_getElem? hk))

theorem witness_alpha {k : Nat} {t : Table} (hk : G.tables[k]? = some t) :
    W G.alpha = (G.tableData w challenges).alpha := by
  refine (h.witness.post 0).trans (h.phase2.challenges 0 ?_)
  rw [h.challengesSize_eq hk, R1CGen.challengesSize]
  split_ifs <;> decide

theorem witness_beta {k : Nat} {t : Table} (hk : G.tables[k]? = some t) (ht : t.width = 2) :
    W G.beta = (G.tableData w challenges).beta := by
  have hwide : G.wide = true := by
    rw [R1CGen.wide, List.any_eq_true]
    exact ⟨t, List.mem_of_getElem? hk, by rw [ht]; rfl⟩
  rw [R1CGen.beta, if_pos hwide]
  refine (h.witness.post 1).trans (h.phase2.challenges 1 ?_)
  rw [h.challengesSize_eq hk, R1CGen.challengesSize, if_pos hwide]
  decide

/-- The rows of an entry. -/
theorem entry_ok {k i : Nat} {t : Table} (hk : G.tables[k]? = some t) (hi : i < t.len)
    (hden : (G.tableData w challenges).denom
      (G.vmPlace r.witnessLayout.challengesSize k t) i ≠ 0) :
    RowsOk W st.a st.b st.c ((G.place k t).cnst + t.width * i)
      ((G.place k t).entryRows G.alpha G.beta i) := by
  have hcs := h.challengesSize_eq hk
  have hmem := List.mem_of_getElem? (G.getElem?_vmPlaces r.witnessLayout.challengesSize hk)
  have hfin := (h.phase2.tables _ hmem).entries i hi
  have hquot := Phase2.TableData.entryQuot_mul hden
  have hone := h.witness_zero
  have hα := h.witness_alpha hk
  have hm : W ((G.place k t).mult + i) = (G.tableData w challenges).mult
      (G.vmPlace r.witnessLayout.challengesSize k t) i := h.witness.mult k t hk i hi
  have hy : W ((G.place k t).yWit i) = (G.tableData w challenges).entryQuot
      (G.vmPlace r.witnessLayout.challengesSize k t) i := by
    rw [G.yWit_place, h.witness.post, ← hcs]
    exact hfin.post
  have hfirst : (G.place k t).cnst + t.width * i
      = (G.vmPlace r.witnessLayout.challengesSize k t).xRow i := rfl
  have hlast : (G.vmPlace r.witnessLayout.challengesSize k t).yRow i
      = (G.vmPlace r.witnessLayout.challengesSize k t).xRow i + (t.width - 1) := rfl
  have htable : (G.place k t).table = t := rfl
  rw [hfirst, TablePlace.entryRows, htable]
  rcases t.width_eq with ht | ht
  · have hdenom : (G.tableData w challenges).denom
        (G.vmPlace r.witnessLayout.challengesSize k t) i
        = (G.tableData w challenges).alpha - i := if_pos ht
    rw [ht, Nat.sub_self, Nat.add_zero] at hlast
    rw [if_pos ht, ← hlast]
    refine rowsOk_singleton (R1C.rowOk_of_eq ?_ ?_ ?_ ?_)
    · simp [rangeRow, hy, hfin.a]
    · simp only [rangeRow, LC.eval_cons, LC.eval_nil, hα, hone, hfin.b, hdenom]
      ring
    · simp [rangeRow, hm, hfin.c]
    · rw [hfin.a, hfin.b, hfin.c, hquot]
  · have hwide : ¬t.width = 1 := by rw [ht]; decide
    have hdenom : (G.tableData w challenges).denom
        (G.vmPlace r.witnessLayout.challengesSize k t) i
        = (G.tableData w challenges).alpha - i
          + (G.tableData w challenges).beta * (t.value i).eval w := if_neg hwide
    have hx : W ((G.place k t).xWit i)
        = -((G.tableData w challenges).beta * (t.value i).eval w) := by
      rw [G.xWit_place, h.witness.post, ← hcs]
      exact hfin.xpost ht
    have hval : (G.tableData w challenges).value
        (G.vmPlace r.witnessLayout.challengesSize k t) i = (t.value i).eval w := rfl
    have hvalue : (t.value i).eval W = (t.value i).eval w :=
      h.eval_eq (h.below.tables t (List.mem_of_getElem? hk) i)
    have hβ := h.witness_beta hk ht
    rw [ht] at hlast
    rw [if_neg hwide, ← List.singleton_append]
    refine RowsOk.append (rowsOk_singleton (R1C.rowOk_of_eq ?_ ?_ ?_ ?_))
      (rowsOk_singleton (R1C.rowOk_of_eq ?_ ?_ ?_ ?_))
    · simp [xRow, hβ, hfin.xa ht]
    · rw [hfin.xb ht, hval]
      exact hvalue
    · rw [hfin.xc ht, hval]
      simp [xRow, hx]
    · rw [hfin.xa ht, hfin.xb ht, hfin.xc ht]
    · rw [List.length_singleton, ← hlast]
      simp [yRow, hy, hfin.a]
    · rw [List.length_singleton, ← hlast]
      simp only [yRow, LC.eval_cons, LC.eval_nil, hα, hone, hx, hfin.b, hdenom]
      ring
    · rw [List.length_singleton, ← hlast]
      simp [yRow, hm, hfin.c]
    · rw [List.length_singleton, ← hlast, hfin.a, hfin.b, hfin.c, hquot]

/-- The inverse of a lookup, in the sealed witness. -/
theorem witness_lookup (j e : Nat) {l : LookupConstraint} (hl : l ∈ G.lookups) :
    W (G.lookupsStart + totalWidth (G.lookups.take j) + e)
      = st.witPostComm (r.witnessLayout.lookupsDataStart - r.witnessLayout.challengesStart
          + totalWidth (G.lookups.take j) + e) := by
  obtain ⟨t, ht, -⟩ := h.phase1.wellFormed.widths l hl
  rw [h.phase1.lookupsDataStart_sub, h.challengesSize_eq ht, ← h.witness.post,
    R1CGen.lookupsStart, R1CGen.tablesStart]
  refine congrArg W ?_
  omega

/-- A lookup whose denominator is not zero is given the inverse times its flag. -/
theorem quot_mul {l : LookupConstraint} (hl : l ∈ G.lookups)
    (hden : l.flag.eval w = 1 → (G.tableData w challenges).denomOf w l ≠ 0) :
    (G.tableData w challenges).quot w l * (G.tableData w challenges).denomOf w l
      = l.flag.eval w := by
  rw [Phase2.TableData.quot]
  rcases h.phase1.hits l hl with hf | ⟨hf, -⟩
  · rw [if_neg (by rw [hf]; decide), zero_mul, hf]
  · rw [if_pos hf, inv_mul_cancel₀ (hden hf), hf]

/-- A lookup that is active has the denominator of the entry it hits. -/
theorem denomOf_ne_zero {l : LookupConstraint} (hl : l ∈ G.lookups)
    (hden : ∀ p ∈ G.vmPlaces r.witnessLayout.challengesSize, ∀ i < p.table.len,
      (G.tableData w challenges).denom p i ≠ 0) (hf : l.flag.eval w = 1) :
    (G.tableData w challenges).denomOf w l ≠ 0 := by
  rcases h.phase1.hits l hl with hf' | ⟨-, t, ht, i, hi, hkey, hvalue⟩
  · rw [hf'] at hf
    exact absurd hf (by decide)
  · obtain ⟨t', ht', hwidth⟩ := h.phase1.wellFormed.widths l hl
    obtain rfl := Option.some.inj (ht'.symm.trans ht)
    rw [denomOf_eq challenges r.witnessLayout.challengesSize hwidth hkey hvalue]
    exact hden _ (List.mem_of_getElem? (G.getElem?_vmPlaces _ ht)) i hi

/-- The sum row of a table: its entries and its lookups have the same sum. -/
theorem sum_ok {k : Nat} {t : Table} (hk : G.tables[k]? = some t) :
    (sumRow (G.place k t).sumLhs (G.sumRhs k)).RowOk W st.a st.b st.c (G.place k t).sumIdx := by
  have hcs := h.challengesSize_eq hk
  have hplace := G.getElem?_vmPlaces r.witnessLayout.challengesSize hk
  have hdone := h.phase2.tables _ (List.mem_of_getElem? hplace)
  have hsum := h.phase2.sums k _ hplace
  have hidx : (G.place k t).sumIdx
      = (G.vmPlace r.witnessLayout.challengesSize k t).sumIdx := rfl
  have hlhs : (G.place k t).sumLhs.eval W = ((List.range t.len).map
      ((G.tableData w challenges).entryQuot
        (G.vmPlace r.witnessLayout.challengesSize k t))).sum := by
    rw [TablePlace.sumLhs, LC.eval, List.map_map]
    refine congrArg List.sum (List.map_congr_left fun i hi => ?_)
    show 1 * W ((G.place k t).yWit i) = _
    rw [one_mul, G.yWit_place, h.witness.post, ← hcs]
    exact (hdone.entries i (List.mem_range.mp hi)).post
  have hrhs : (G.sumRhs k).eval W = ((G.lookups.filter fun l => l.tableId = k).map
      ((G.tableData w challenges).quot w)).sum := by
    refine eval_sumRhs_of_inverse k fun j l hj => ?_
    rw [LookupConstraint.yWit, h.witness_lookup _ _ (List.mem_of_getElem? hj)]
    exact (h.phase2.lookups j l hj).post
  rw [hidx]
  refine R1C.rowOk_of_eq (hlhs.trans hdone.sumA.symm) ?_ (hrhs.trans hsum.symm) ?_
  · simp [sumRow, h.witness_zero, hdone.sumB]
  · rw [hdone.sumA, hdone.sumB, mul_one, hsum]
    exact (sum_quot hk h.phase1.totalLen_lt h.phase1.hits fun l hl t ht => by
      obtain ⟨t', ht', hwidth⟩ := h.phase1.wellFormed.widths l hl
      rw [Option.some.inj (ht.symm.trans ht'), hwidth]).symm

/-- The whole block of a table. -/
theorem table_ok {k : Nat} {t : Table} (hk : G.tables[k]? = some t)
    (hden : ∀ i < t.len, (G.tableData w challenges).denom
      (G.vmPlace r.witnessLayout.challengesSize k t) i ≠ 0) :
    RowsOk W st.a st.b st.c (G.place k t).cnst
      ((G.place k t).rows G.alpha G.beta (G.sumRhs k)) := by
  rw [TablePlace.rows]
  refine RowsOk.append (rowsOk_flatMap_range ((G.place k t).length_entryRows _ _)
    fun i hi => h.entry_ok hk hi (hden i hi)) ?_
  rw [(G.place k t).length_entries]
  exact rowsOk_singleton (h.sum_ok hk)

/-- The block of a lookup. -/
theorem lookup_ok {j : Nat} {l : LookupConstraint} (hj : G.lookups[j]? = some l)
    (hden : l.flag.eval w = 1 → (G.tableData w challenges).denomOf w l ≠ 0) :
    RowsOk W st.a st.b st.c
      (r.constraintsLayout.lookupsDataStart + totalWidth (G.lookups.take j))
      (l.rows G.alpha G.beta (G.lookupsStart + totalWidth (G.lookups.take j))) := by
  have hl := List.mem_of_getElem? hj
  have hplayed := h.phase2.lookups j l hj
  have hquot := h.quot_mul hl hden
  obtain ⟨t, ht, hwidth⟩ := h.phase1.wellFormed.widths l hl
  have hα := h.witness_alpha ht
  obtain ⟨hflag, hels⟩ := h.below.lookups l hl
  have hfirst := h.witness_lookup j 0 hl
  have hsecond := h.witness_lookup j 1 hl
  obtain ⟨tableId, elements, flag⟩ := l
  have hflagW := h.eval_eq hflag
  rcases h.phase1.wellFormed.sealable _ hl with hw | hw
  · obtain ⟨key, rfl⟩ := List.length_eq_one_iff.mp hw
    have hkey := h.eval_eq (hels key List.mem_cons_self)
    have hy := hfirst.trans hplayed.post
    have hdenom : (G.tableData w challenges).denomOf w ⟨tableId, [key], flag⟩
        = (G.tableData w challenges).alpha - key.eval w := rfl
    refine rowsOk_singleton (R1C.rowOk_of_eq ?_ ?_ ?_ ?_)
    · simp only [lookupRow1, LC.eval_cons, LC.eval_nil, one_mul, add_zero]
      exact hy.trans hplayed.a.symm
    · simp only [lookupRow1, LC.eval_cons, eval_negTerms, hα, hkey, one_mul]
      rw [← sub_eq_add_neg, ← hdenom]
      exact hplayed.b.symm
    · exact hflagW.trans hplayed.c.symm
    · exact (congrArg₂ _ hplayed.a hplayed.b).trans (hquot.trans hplayed.c.symm)
  · obtain ⟨key, value, rfl⟩ := List.length_eq_two.mp hw
    have hkey := h.eval_eq (hels key List.mem_cons_self)
    have hvalue := h.eval_eq (hels value (List.mem_cons_of_mem _ List.mem_cons_self))
    have hβ := h.witness_beta ht (hwidth.trans hw)
    have hx := hfirst.trans (hplayed.xpost rfl)
    have hy := hsecond.trans hplayed.post
    have hdenom : (G.tableData w challenges).denomOf w ⟨tableId, [key, value], flag⟩
        = (G.tableData w challenges).alpha - key.eval w
          + (G.tableData w challenges).beta * value.eval w := rfl
    have hval : LookupConstraint.value ⟨tableId, [key, value], flag⟩ = value := rfl
    rw [hval] at hx
    refine RowsOk.append (rowsOk_singleton (R1C.rowOk_of_eq ?_ ?_ ?_ ?_))
      (rowsOk_singleton (R1C.rowOk_of_eq ?_ ?_ ?_ ?_))
    · simp only [xRow, LC.eval_cons, LC.eval_nil, one_mul, add_zero, hβ]
      exact (hplayed.xa rfl).symm
    · exact hvalue.trans (hplayed.xb rfl).symm
    · rw [hplayed.xc rfl, hval]
      simp only [xRow, LC.eval_cons, LC.eval_nil, add_zero] at hx ⊢
      rw [hx]
      ring
    · rw [hplayed.xa rfl, hplayed.xb rfl, hplayed.xc rfl]
    · simp only [lookupRow2, LC.eval_cons, LC.eval_nil, one_mul, add_zero]
      exact hy.trans hplayed.a.symm
    · simp only [lookupRow2, LC.eval_cons, eval_negTerms, hα, hkey, one_mul]
      rw [add_zero] at hx
      rw [hx]
      refine Eq.trans ?_ hplayed.b.symm
      rw [hdenom]
      ring
    · exact hflagW.trans hplayed.c.symm
    · exact (congrArg₂ _ hplayed.a hplayed.b).trans (hquot.trans hplayed.c.symm)

/-- The algebraic rows are those the program computed. -/
theorem algebraic_ok (hrows : ∀ row ∈ G.constraints, row.Holds w) :
    RowsOk W st.a st.b st.c 0 G.constraints := by
  intro i row hi
  have hmem := List.mem_of_getElem? hi
  have hlt := (List.getElem?_eq_some_iff.mp hi).1
  obtain ⟨ha, hb, hc⟩ := h.below.constraints row hmem
  have hcell : ∀ f : R1C → LC,
      (G.constraints.map fun r => Cell.ofFr ((f r).eval w)).getD i 0
        = Cell.ofFr ((f row).eval w) := by
    intro f
    rw [List.getD_eq_getElem?_getD, List.getElem?_map, hi, Option.map_some, Option.getD_some]
  have hA : st.a i = row.a.eval w := by
    rw [Phase2.a, h.phase2.outA i hlt, h.phase1.vm.outA, sections_first hlt, hcell R1C.a,
      Cell.toFr_ofFr]
  have hB : st.b i = row.b.eval w := by
    rw [Phase2.b, h.phase2.outB i hlt, h.phase1.vm.outB, sections_first hlt, hcell R1C.b,
      Cell.toFr_ofFr]
  have hC : st.c i = row.c.eval w := by
    rw [Phase2.c, h.phase2.outC i hlt, h.phase1.vm.outC, sections_first hlt, hcell R1C.c,
      Cell.toFr_ofFr]
  rw [Nat.zero_add]
  refine R1C.rowOk_of_eq ((h.eval_eq ha).trans hA.symm) ((h.eval_eq hb).trans hB.symm)
    ((h.eval_eq hc).trans hC.symm) ?_
  rw [hA, hB, hC]
  exact hrows row hmem

/-- Every row passes. -/
theorem checkWitgenOutput (hrows : ∀ row ∈ G.constraints, row.Holds w)
    (hden : ∀ p ∈ G.vmPlaces r.witnessLayout.challengesSize, ∀ i < p.table.len,
      (G.tableData w challenges).denom p i ≠ 0) :
    r.CheckWitgenOutput W st.a st.b st.c := by
  have htables : RowsOk W st.a st.b st.c G.constraints.length
      (tableRows G.alpha G.beta G.sumRhs 0 G.places) := by
    refine rowsOk_tableRows fun j p hp => ?_
    have hlt : j < G.tables.length := by
      have hj := (List.getElem?_eq_some_iff.mp hp).1
      rwa [length_placeTables] at hj
    have hk := List.getElem?_eq_getElem hlt
    obtain rfl := Option.some.inj ((G.getElem?_places hk).symm.trans hp)
    rw [Nat.zero_add]
    exact h.table_ok hk (hden _ (List.mem_of_getElem? (G.getElem?_vmPlaces _ hk)))
  have hlookups : RowsOk W st.a st.b st.c r.constraintsLayout.lookupsDataStart
      (lookupRows G.alpha G.beta G.lookupsStart G.lookups) :=
    rowsOk_lookupRows h.phase1.wellFormed.sealable fun j l hj =>
      h.lookup_ok hj (h.denomOf_ne_zero (List.mem_of_getElem? hj) hden)
  have hlen : G.constraints.length + (tableRows G.alpha G.beta G.sumRhs 0 G.places).length
      = r.constraintsLayout.lookupsDataStart := by
    rw [length_tableRows, R1CGen.places, placeTables_table, h.phase1.lookupsDataStart_eq]
  have hall := ((h.algebraic_ok hrows).append (by rwa [Nat.zero_add])).append
    (by rwa [Nat.zero_add, List.length_append, hlen])
  intro i row hi
  rw [h.phase1.sizes.rows] at hi
  have hrow := hall i row hi
  rwa [Nat.zero_add] at hrow

end WitgenDone

/-! ## Programs -/

/-- The denominator of entry `i` of a table. -/
def Table.denominator (w : Nat → Fr) (alpha beta : Fr) (t : Table) (i : Nat) : Fr :=
  if t.width = 1 then alpha - i else alpha - i + beta * (t.value i).eval w

/-- The two phases, in the layout of the sealed system, end with a witness and vectors
that `check_witgen_output` accepts. -/
def Program.GeneratesWitness (prog : Program) (challenges : List Fr) : Prop :=
  ∃ s r p₁ p₂, prog.symbolic .new = some s ∧ s.gen.seal = some r ∧
    runPhase1 prog r.witnessLayout r.constraintsLayout = some p₁ ∧
    runPhase2 p₁ challenges r.witnessLayout r.constraintsLayout = some p₂ ∧
    r.CheckWitgenOutput (p₂.witness r.witnessLayout p₁) p₂.a p₂.b p₂.c

/-- LogUp completeness.  Where the generator and the machine make the same tables, the
algebraic rows hold of what the program writes, every active lookup hits an entry of its
table and no denominator is zero, the generated witness satisfies the sealed system. -/
theorem Program.generatesWitness {prog : Program} {s : SymState} {r : R1CS}
    {challenges : List Fr} (hsym : prog.entry.symbolic .new = some s)
    (hseal : s.gen.seal = some r)
    (hrows : ∀ row ∈ s.gen.constraints, row.Holds prog.entry.assignment)
    (hhits : ∀ l ∈ s.gen.lookups, l.Hits prog.entry.assignment s.gen.tables)
    (hsize : r.constraints.length < 2 ^ 64) (hspread : ∀ instr ∈ prog, instr.SpreadFits)
    (hreuse : prog.entry.ReusesUntabled (.newWitgen r.witnessLayout r.constraintsLayout))
    (hlen : challenges.length = r.witnessLayout.challengesSize)
    (hden : ∀ t ∈ s.gen.tables, ∀ i < t.len,
      t.denominator prog.entry.assignment (challenges.getD 0 0) (challenges.getD 1 0) i ≠ 0) :
    prog.entry.GeneratesWitness challenges := by
  have hw : ∀ i val, prog.entry.witnessValues[i]? = some val →
      prog.entry.assignment i = val := by
    intro i val hi
    rw [assignment, List.getD_eq_getElem?_getD, hi, Option.getD_some]
  have hwf := Program.symbolic_wellFormed hsym
  have hsizes := sealedSizes hwf hseal
  have htotal : totalLen s.gen.tables < 2 ^ 64 := by
    have hlength := hsizes.length
    have hle := totalLen_le_totalRows s.gen.tables
    omega
  obtain ⟨v, ghost, rank, hrun, hsim⟩ := Program.forward_sim hw hsym hseal
    (fun l hl => (hhits l hl).countable htotal) hsize hspread hreuse
  have hdone : Phase1Done prog.entry.assignment s.gen r v.vm :=
    ⟨hsim.vm, hwf, hsizes, hsize, hhits⟩
  have hdenom : ∀ p ∈ s.gen.vmPlaces r.witnessLayout.challengesSize, ∀ i < p.table.len,
      (s.gen.tableData prog.entry.assignment challenges).denom p i ≠ 0 := by
    intro p hp i hi
    obtain ⟨k, t, hk, rfl⟩ := s.gen.mem_vmPlaces hp
    exact hden t (List.mem_of_getElem? hk) i hi
  obtain ⟨st, hphase2, hst⟩ := hdone.run hlen hdenom
  have hwitgen : WitgenDone prog.entry.assignment s.gen r v.vm challenges st
      (st.witness r.witnessLayout (v.vm.phase1 r.witnessLayout)) :=
    ⟨hdone, hst, hdone.completed challenges st, (Program.entry_scoped hsym).gen, hw 0 1 rfl⟩
  refine ⟨s, r, v.vm.phase1 r.witnessLayout, st, hsym, hseal, ?_, hphase2,
    hwitgen.checkWitgenOutput hrows hdenom⟩
  rw [runPhase1, hrun]
  rfl

/-- An algebraic row, an array that is looked up with and without its flag, and a
spread lookup. -/
def lookedUp : Program :=
  [.mkPure .word [.word 5], .const 0, .const 5, .const 1, .constrain 4 3 3,
    .arrayLookup .word 1 2 3 4, .arrayLookup .word 1 3 3 2, .spreadLookup 1 4 4 4]

theorem generatesWitness_lookedUp : lookedUp.entry.GeneratesWitness [7, 11] :=
  @Program.generatesWitness lookedUp _ _ [7, 11] rfl rfl (by decide +kernel) (by decide +kernel)
    (by decide +kernel) (by decide +kernel) (by decide +kernel) (by decide +kernel)
    (by decide +kernel)

end Mavros
