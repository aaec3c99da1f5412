/-
# `Mavros.VM.DerivativeRows` — the rows of a sealed system as functionals

A row of the system adds its coefficient times each of its combinations to the
derivatives.  So the derivatives of the whole system are a sum over its rows, and the
additions of the derivative program are compared with it part by part: the algebraic
rows, the block of a table, the rows of a lookup together with the term they put into
the sum row of their table.

## What is proved

* `computeDerivatives_eq`: `compute_derivatives` is the sum of its rows' functionals.
* `checkAdOutput_of_eq`: `check_ad_output` accepts outputs equal to these.
* `SealedSizes.rowsGrad_eq`: the functional of the sealed system is `R1CGen.partialGrad` of the
  state it was sealed from.

## How it goes

The sealed system is read in its closed form, block after block.  A sum row belongs to its table on
the left and to the lookups on the right, and the machine meets the two at different times; so
the right-hand sides are taken out (`rowsGrad_rows`) and given to the lookups they come from
(`rowsGrad_lookupRows`), after which each part belongs to one operation of the program.

`R1CGen.partialGrad` is the same sum for a state in the middle of a run, in the layout of the system
it leads to.
-/
import Mavros.VM.DerivativeRun
import Mavros.VM.DerivativeSpec
import Mavros.VM.HeapRel
import Mavros.VM.Tables

namespace Mavros

open Lib

/-! ## Functionals

Coefficients of a combination, as a functional on witnesses.
-/

/-- The functional that reads one witness. -/
def unitAt (i : Nat) : Nat → Fr := Pi.single i 1

theorem single_eq_smul_unitAt (i : Nat) (x : Fr) : (Pi.single i x : Nat → Fr) = x • unitAt i := by
  rw [unitAt, ← Pi.single_smul, smul_eq_mul, mul_one]

theorem LC.coeffs_cons_unitAt (t : Nat × Fr) (lc : LC) :
    LC.coeffs (t :: lc) = t.2 • unitAt t.1 + LC.coeffs lc := by
  rw [LC.coeffs_cons, single_eq_smul_unitAt]

theorem LC.coeffs_append (lc lc' : LC) : LC.coeffs (lc ++ lc') = LC.coeffs lc + LC.coeffs lc' := by
  simp only [LC.coeffs, List.map_append, List.sum_append]

theorem LC.coeffs_negTerms (lc : LC) : LC.coeffs (negTerms lc) = -LC.coeffs lc := by
  induction lc with
  | nil => simp [negTerms]
  | cons t lc ih =>
      have hcons : negTerms (t :: lc) = (t.1, -t.2) :: negTerms lc := rfl
      rw [hcons, LC.coeffs_cons_unitAt, LC.coeffs_cons_unitAt, ih]
      module

/-- Terms of coefficient one. -/
theorem LC.coeffs_range (f : Nat → Nat) (n : Nat) :
    LC.coeffs ((List.range n).map fun i => (f i, 1)) = ∑ i ∈ Finset.range n, unitAt (f i) := by
  induction n with
  | zero => simp
  | succ n ih =>
      rw [List.range_succ, List.map_append, LC.coeffs_append, ih, Finset.sum_range_succ,
        List.map_singleton, LC.coeffs_cons_unitAt, LC.coeffs_nil, one_smul, add_zero]

/-! ## Rows

A row has a number, which selects its coefficient.
-/

/-- What rows add to the derivatives of a side, the first being constraint `k`. -/
def rowsGrad (coeffs : Nat → Fr) (s : Side) : (k : Nat) → List R1C → Nat → Fr
  | _, [] => 0
  | k, r :: rs => coeffs k • (r.side s).coeffs + rowsGrad coeffs s (k + 1) rs

section RowsGrad

variable (coeffs : Nat → Fr) (s : Side)

theorem rowsGrad_append (k : Nat) (rs rs' : List R1C) :
    rowsGrad coeffs s k (rs ++ rs')
      = rowsGrad coeffs s k rs + rowsGrad coeffs s (k + rs.length) rs' := by
  induction rs generalizing k with
  | nil => simp [rowsGrad]
  | cons r rs ih =>
      rw [List.cons_append, rowsGrad, ih, rowsGrad, List.length_cons, Nat.add_assoc,
        Nat.add_comm 1, add_assoc]

theorem rowsGrad_singleton (k : Nat) (r : R1C) :
    rowsGrad coeffs s k [r] = coeffs k • (r.side s).coeffs := by
  rw [rowsGrad, rowsGrad, add_zero]

/-- Blocks of one height. -/
theorem rowsGrad_flatMap (k w : Nat) (f : Nat → List R1C) (hf : ∀ i, (f i).length = w) (n : Nat) :
    rowsGrad coeffs s k ((List.range n).flatMap f)
      = ∑ i ∈ Finset.range n, rowsGrad coeffs s (k + w * i) (f i) := by
  induction n with
  | zero => rfl
  | succ n ih =>
      have hlen : ((List.range n).flatMap f).length = w * n := by
        simp [List.length_flatMap, hf, Nat.mul_comm]
      rw [List.range_succ, List.flatMap_append, List.flatMap_singleton, rowsGrad_append, ih, hlen,
        Finset.sum_range_succ]

end RowsGrad

/-! ## `compute_derivatives` and `check_ad_output` -/

theorem LC.scatter_eq (f : Fr → Fr) {x : Fr} (hf : ∀ c, f c = c * x) :
    ∀ (lc : LC) (res : Nat → Fr), lc.scatter f res = res + x • lc.coeffs := by
  intro lc
  induction lc with
  | nil =>
      intro res
      simp [scatter]
  | cons t lc ih =>
      intro res
      have hadd : addAt res t.1 (f t.2) = res + x • (t.2 • unitAt t.1) := by
        funext j
        rw [addAt_apply, hf, mul_comm, single_eq_smul_unitAt, mul_smul]
        rfl
      have hcons : LC.scatter f (t :: lc) res = LC.scatter f lc (addAt res t.1 (f t.2)) := rfl
      rw [hcons, ih, hadd, LC.coeffs_cons_unitAt]
      module

/-- A loop over the rows that scatters every side. -/
theorem foldl_scatter (coeffs : Nat → Fr) (f : Nat → Fr → Fr) (hf : ∀ j c, f j c = c * coeffs j)
    (s : Side) : ∀ (rows : List R1C) (k : Nat) (res : Side → Nat → Fr),
      (rows.zipIdx k).foldl
          (fun res row side => (row.1.side side).scatter (f row.2) (res side)) res s
        = res s + rowsGrad coeffs s k rows := by
  intro rows
  induction rows with
  | nil =>
      intro k res
      simp [rowsGrad]
  | cons row rows ih =>
      intro k res
      rw [List.zipIdx_cons, List.foldl_cons, ih, rowsGrad,
        LC.scatter_eq (f k) (hf k) (row.side s) (res s), add_assoc]

namespace R1CS

variable (r : R1CS) (coeffs : Nat → Fr)

theorem computeDerivatives_eq (res : Side → Nat → Fr) (s : Side) :
    r.computeDerivatives coeffs res s = res s + rowsGrad coeffs s 0 r.constraints :=
  foldl_scatter coeffs (fun j c => c * coeffs j) (fun _ _ => rfl) s r.constraints 0 res

theorem adRemainder_eq (out : Side → Nat → Fr) (s : Side) :
    r.adRemainder coeffs out s = out s - rowsGrad coeffs s 0 r.constraints := by
  have hneg : ∀ (k : Nat) (rows : List R1C),
      rowsGrad (fun j => -coeffs j) s k rows = -rowsGrad coeffs s k rows := by
    intro k rows
    induction rows generalizing k with
    | nil => simp [rowsGrad]
    | cons row rows ih =>
        rw [rowsGrad, rowsGrad, ih]
        module
  have hfold := foldl_scatter (fun j => -coeffs j) (fun j c => -(c * coeffs j))
    (fun j c => (mul_neg c (coeffs j)).symm) s r.constraints 0 out
  rw [adRemainder, hfold, hneg, sub_eq_add_neg]

/-- `check_ad_output` accepts the outputs that `compute_derivatives` would have made. -/
theorem checkAdOutput_of_eq {out : Side → Nat → Fr}
    (h : ∀ s, out s = r.computeDerivatives coeffs (fun _ _ => 0) s) :
    r.checkAdOutput coeffs out = true := by
  have hzero : ∀ s i, r.adRemainder coeffs out s i = 0 := by
    intro s i
    rw [adRemainder_eq, h s, computeDerivatives_eq]
    simp
  simp [checkAdOutput, hzero]

end R1CS

/-! ## Tables

A block without the right-hand side of its sum row.
-/

/-- The block of a table, whose sum row has no right-hand side yet. -/
def placeGrad (coeffs : Nat → Fr) (s : Side) (alpha beta : Nat) (p : TablePlace) : Nat → Fr :=
  rowsGrad coeffs s p.cnst (p.rows alpha beta [])

/-- A block is its entries and the sum row. -/
theorem placeGrad_eq (coeffs : Nat → Fr) (s : Side) (alpha beta : Nat) (p : TablePlace) :
    placeGrad coeffs s alpha beta p
      = ∑ i ∈ Finset.range p.table.len,
          rowsGrad coeffs s (p.cnst + p.table.width * i) (p.entryRows alpha beta i)
        + coeffs p.sumIdx • ((sumRow p.sumLhs []).side s).coeffs := by
  rw [placeGrad, TablePlace.rows, rowsGrad_append,
    rowsGrad_flatMap coeffs s _ p.table.width _ (p.length_entryRows alpha beta),
    p.length_entries, rowsGrad_singleton]
  rfl

/-- The blocks of some tables. -/
def tablesGrad (coeffs : Nat → Fr) (s : Side) (alpha beta : Nat) (ps : List TablePlace) :
    Nat → Fr :=
  (ps.map (placeGrad coeffs s alpha beta)).sum

/-- Right-hand sides of sum rows come on top. -/
theorem rowsGrad_rows (coeffs : Nat → Fr) (s : Side) (alpha beta : Nat) (p : TablePlace)
    (rhs : LC) :
    rowsGrad coeffs s p.cnst (p.rows alpha beta rhs)
      = placeGrad coeffs s alpha beta p
        + if s = .c then coeffs p.sumIdx • rhs.coeffs else 0 := by
  rw [placeGrad, TablePlace.rows, TablePlace.rows, rowsGrad_append, rowsGrad_append,
    rowsGrad_singleton, rowsGrad_singleton, p.length_entries]
  have hidx : p.cnst + p.table.width * p.table.len = p.sumIdx := rfl
  rw [hidx]
  cases s with
  | a => simp [R1C.side, sumRow]
  | b => simp [R1C.side, sumRow]
  | c => simp [R1C.side, sumRow]

/-! ## Lookups

The rows of a lookup, and its term in the sum row of its table.
-/

/-- The rows of a lookup at constraint `k` with witnesses from `d` on, and its term in the
sum row, whose coefficient is `sumCoeff`. -/
def lookupGrad (coeffs : Nat → Fr) (s : Side) (alpha beta d k : Nat) (sumCoeff : Fr)
    (l : LookupConstraint) : Nat → Fr :=
  rowsGrad coeffs s k (l.rows alpha beta d)
    + if s = .c then sumCoeff • unitAt (l.yWit d) else 0

/-- Some lookups, each starting where the one before it ends. -/
def lookupsGrad (coeffs : Nat → Fr) (s : Side) (alpha beta : Nat) (sumCoeff : Nat → Fr) :
    (d k : Nat) → List LookupConstraint → Nat → Fr
  | _, _, [] => 0
  | d, k, l :: ls =>
      lookupGrad coeffs s alpha beta d k (sumCoeff l.tableId) l
        + lookupsGrad coeffs s alpha beta sumCoeff (d + l.width) (k + l.width) ls

theorem lookupsGrad_snoc (coeffs : Nat → Fr) (s : Side) (alpha beta : Nat) (sumCoeff : Nat → Fr)
    (d k : Nat) (ls : List LookupConstraint) (l : LookupConstraint) :
    lookupsGrad coeffs s alpha beta sumCoeff d k (ls ++ [l])
      = lookupsGrad coeffs s alpha beta sumCoeff d k ls
        + lookupGrad coeffs s alpha beta (d + totalWidth ls) (k + totalWidth ls)
            (sumCoeff l.tableId) l := by
  induction ls generalizing d k with
  | nil => simp [lookupsGrad, totalWidth]
  | cons l' ls ih =>
      rw [List.cons_append, lookupsGrad, ih, lookupsGrad]
      simp only [totalWidth, List.map_cons, List.sum_cons, add_assoc]

/-! ## The sealed system -/

/-- The coefficient of the sum row of a table. -/
def sumCoeff (coeffs : Nat → Fr) (ps : List TablePlace) (k : Nat) : Fr :=
  ps[k]?.elim 0 fun p => coeffs p.sumIdx

theorem sumCoeff_cons_zero (coeffs : Nat → Fr) (p : TablePlace) (ps : List TablePlace) :
    sumCoeff coeffs (p :: ps) 0 = coeffs p.sumIdx := rfl

theorem sumCoeff_cons_succ (coeffs : Nat → Fr) (p : TablePlace) (ps : List TablePlace) (k : Nat) :
    sumCoeff coeffs (p :: ps) (k + 1) = sumCoeff coeffs ps k := rfl

/-- What the state of a run stands for, in the layout of the sealed system it leads to. -/
def R1CGen.partialGrad (coeffs : Nat → Fr) (ps : List TablePlace) (wl : WitnessLayout)
    (cl : ConstraintsLayout) (g : R1CGen) (s : Side) : Nat → Fr :=
  rowsGrad coeffs s 0 g.constraints
    + tablesGrad coeffs s wl.challengesStart (wl.challengesStart + 1)
        (placeTables wl.multiplicitiesStart wl.tablesDataStart cl.tablesDataStart g.tables)
    + lookupsGrad coeffs s wl.challengesStart (wl.challengesStart + 1) (sumCoeff coeffs ps)
        wl.lookupsDataStart cl.lookupsDataStart g.lookups

section Sealed

variable (coeffs : Nat → Fr) (s : Side) (alpha beta : Nat)

/-- The blocks of the tables, whatever their sum rows have on the right. -/
theorem rowsGrad_tableRows (rhs : Nat → LC) (ts : List Table) (m d c k : Nat) :
    rowsGrad coeffs s c (tableRows alpha beta rhs k (placeTables m d c ts))
      = tablesGrad coeffs s alpha beta (placeTables m d c ts)
        + if s = .c then ∑ j ∈ Finset.range ts.length,
            sumCoeff coeffs (placeTables m d c ts) j • (rhs (k + j)).coeffs else 0 := by
  induction ts generalizing m d c k with
  | nil => simp [placeTables, tableRows, rowsGrad, tablesGrad]
  | cons t ts ih =>
      let p : TablePlace := ⟨t, m, d, c⟩
      have hhead := rowsGrad_rows coeffs s alpha beta p (rhs k)
      have hshift : ∀ j, k + 1 + j = k + (j + 1) := fun j => by omega
      rw [placeTables, tableRows, rowsGrad_append, TablePlace.length_rows, ih, hhead]
      simp only [hshift]
      rw [List.length_cons, Finset.sum_range_succ', tablesGrad, tablesGrad, List.map_cons,
        List.sum_cons]
      simp only [sumCoeff_cons_zero, sumCoeff_cons_succ, Nat.add_zero]
      split_ifs
      · module
      · module

/-- One lookup puts its inverse into the sum row of its table, and no other. -/
theorem sum_tableId (w : Nat → Fr) {n i : Nat} (hi : i < n) (y : Nat) :
    ∑ j ∈ Finset.range n, w j • LC.coeffs (if i = j then [(y, 1)] else []) = w i • unitAt y := by
  rw [Finset.sum_eq_single_of_mem i (Finset.mem_range.mpr hi)]
  · rw [if_pos rfl, LC.coeffs_cons_unitAt, LC.coeffs_nil, one_smul, add_zero]
  · intro j _ hj
    rw [if_neg (Ne.symm hj), LC.coeffs_nil, smul_zero]

/-- The rows of the lookups, and what they put into the sum rows. -/
theorem rowsGrad_lookupRows (w : Nat → Fr) (n : Nat) (ls : List LookupConstraint)
    (hseal : ∀ l ∈ ls, l.Sealable) (hids : ∀ l ∈ ls, l.tableId < n) (d k : Nat) :
    rowsGrad coeffs s k (lookupRows alpha beta d ls)
        + (if s = .c then ∑ j ∈ Finset.range n, w j • (sumRhs j d ls).coeffs else 0)
      = lookupsGrad coeffs s alpha beta w d k ls := by
  induction ls generalizing d k with
  | nil => simp [lookupRows, rowsGrad, sumRhs, lookupsGrad]
  | cons l ls ih =>
      have ih := ih (fun l' h => hseal l' (List.mem_cons_of_mem _ h))
        (fun l' h => hids l' (List.mem_cons_of_mem _ h)) (d + l.width) (k + l.width)
      have hone := sum_tableId w (hids l List.mem_cons_self) (l.yWit d)
      rw [lookupRows, rowsGrad_append, l.length_rows (hseal l List.mem_cons_self), lookupsGrad,
        lookupGrad, ← ih]
      simp only [sumRhs, LC.coeffs_append, smul_add, Finset.sum_add_distrib, hone]
      split_ifs
      · module
      · module

end Sealed

/-- One column has no use for the second challenge. -/
theorem TablePlace.entryRows_congr {p : TablePlace} (h : p.table.width = 1)
    (alpha beta beta' : Nat) : p.entryRows alpha beta = p.entryRows alpha beta' := by
  funext i
  rw [TablePlace.entryRows, TablePlace.entryRows, if_pos h, if_pos h]

theorem LookupConstraint.rows_congr {l : LookupConstraint} (h : l.width = 1)
    (alpha beta beta' d : Nat) : l.rows alpha beta d = l.rows alpha beta' d := by
  obtain ⟨tableId, elements, flag⟩ := l
  obtain ⟨key, rfl⟩ := List.length_eq_one_iff.mp h
  rfl

theorem lookupsGrad_congr {coeffs : Nat → Fr} {s : Side} {alpha beta beta' : Nat} {w : Nat → Fr}
    {ls : List LookupConstraint} (h : ∀ l ∈ ls, l.width = 1) (d k : Nat) :
    lookupsGrad coeffs s alpha beta w d k ls = lookupsGrad coeffs s alpha beta' w d k ls := by
  induction ls generalizing d k with
  | nil => rfl
  | cons l ls ih =>
      rw [lookupsGrad, lookupsGrad, ih fun l' h' => h l' (List.mem_cons_of_mem _ h'), lookupGrad,
        lookupGrad, l.rows_congr (h l List.mem_cons_self) alpha beta beta']

/-- Without a table of two columns nothing has a use for it. -/
theorem R1CGen.WellFormed.narrow {G : R1CGen} (hwf : G.WellFormed) (hw : G.wide = false) :
    (∀ t ∈ G.tables, t.width = 1) ∧ ∀ l ∈ G.lookups, l.width = 1 := by
  have hall : ∀ t ∈ G.tables, t.width = 1 := by
    intro t ht
    rcases t.width_eq with h | h
    · exact h
    · rw [R1CGen.wide, List.any_eq_false] at hw
      exact absurd h (by simpa using hw t ht)
  refine ⟨hall, fun l hl => ?_⟩
  obtain ⟨t, ht, hwidth⟩ := hwf.widths l hl
  exact hwidth.symm.trans (hall t (List.mem_of_getElem? ht))

/-- The derivatives of the sealed system are those the whole run stands for. -/
theorem SealedSizes.rowsGrad_eq {G : R1CGen} {r : R1CS} (hsizes : SealedSizes G r)
    (hwf : G.WellFormed) (coeffs : Nat → Fr) (s : Side) :
    rowsGrad coeffs s 0 r.constraints
      = G.partialGrad coeffs
          (placeTables r.witnessLayout.multiplicitiesStart r.witnessLayout.tablesDataStart
            r.constraintsLayout.tablesDataStart G.tables)
          r.witnessLayout r.constraintsLayout s := by
  have hcnst : r.constraintsLayout.tablesDataStart = G.constraints.length := hsizes.constraints
  have hlook : r.constraintsLayout.lookupsDataStart
      = G.constraints.length + totalRows G.tables := by
    rw [ConstraintsLayout.lookupsDataStart, hsizes.constraints, hsizes.tables]
  rw [hsizes.rows, R1CGen.partialGrad, hcnst, hlook]
  by_cases hne : G.tables = []
  · -- no table, hence no lookup either
    rw [R1CGen.places, hne, hwf.lookups_nil hne]
    simp [placeTables, tableRows, lookupRows, tablesGrad, lookupsGrad]
  · have hmult : r.witnessLayout.multiplicitiesStart = G.nextWitness := hsizes.algebraic
    have halpha : r.witnessLayout.challengesStart = G.alpha := by
      show r.witnessLayout.algebraicSize + r.witnessLayout.multiplicitiesSize = _
      rw [hsizes.algebraic, hsizes.multiplicities, R1CGen.alpha]
    have hwit : r.witnessLayout.tablesDataStart = G.tablesStart := by
      show r.witnessLayout.challengesStart + r.witnessLayout.challengesSize = _
      rw [halpha, hsizes.challenges hne, R1CGen.tablesStart]
    have hlookups : r.witnessLayout.lookupsDataStart = G.lookupsStart := by
      show r.witnessLayout.tablesDataSize + r.witnessLayout.tablesDataStart = _
      rw [hwit, hsizes.tableWits, R1CGen.lookupsStart, Nat.add_comm]
    rw [hmult, halpha, hwit, hlookups]
    have htables : rowsGrad coeffs s G.constraints.length
          (tableRows G.alpha G.beta G.sumRhs 0 G.places)
        = tablesGrad coeffs s G.alpha G.beta G.places
          + if s = .c then ∑ j ∈ Finset.range G.tables.length,
              sumCoeff coeffs G.places j • (sumRhs j G.lookupsStart G.lookups).coeffs else 0 := by
      have h := rowsGrad_tableRows coeffs s G.alpha G.beta G.sumRhs G.tables G.nextWitness
        G.tablesStart G.constraints.length 0
      simp only [Nat.zero_add] at h
      exact h
    have hrows := rowsGrad_lookupRows coeffs s G.alpha G.beta (sumCoeff coeffs G.places)
      G.tables.length G.lookups hwf.sealable hwf.inRange G.lookupsStart
      (G.constraints.length + totalRows G.tables)
    have hlen : (tableRows G.alpha G.beta G.sumRhs 0 G.places).length = totalRows G.tables := by
      rw [length_tableRows, R1CGen.places, placeTables_table]
    -- the second challenge is where the machine has it
    have hbeta : tablesGrad coeffs s G.alpha G.beta G.places
          = tablesGrad coeffs s G.alpha (G.alpha + 1) G.places ∧
        lookupsGrad coeffs s G.alpha G.beta (sumCoeff coeffs G.places) G.lookupsStart
            (G.constraints.length + totalRows G.tables) G.lookups
          = lookupsGrad coeffs s G.alpha (G.alpha + 1) (sumCoeff coeffs G.places)
            G.lookupsStart (G.constraints.length + totalRows G.tables) G.lookups := by
      cases hw : G.wide with
      | true => rw [R1CGen.beta, if_pos hw]; exact ⟨rfl, rfl⟩
      | false =>
          obtain ⟨hts, hls⟩ := hwf.narrow hw
          refine ⟨?_, lookupsGrad_congr hls _ _⟩
          refine congrArg List.sum (List.map_congr_left fun p hp => ?_)
          have hwidth : p.table.width = 1 := by
            refine hts p.table ?_
            rw [← placeTables_table G.nextWitness G.tablesStart G.constraints.length G.tables]
            exact List.mem_map_of_mem hp
          rw [placeGrad, placeGrad, TablePlace.rows, TablePlace.rows,
            p.entryRows_congr hwidth G.alpha G.beta (G.alpha + 1)]
    have hplaces : placeTables G.nextWitness G.tablesStart G.constraints.length G.tables
        = G.places := rfl
    rw [hplaces, ← hbeta.1, ← hbeta.2, ← hrows, rowsGrad_append, rowsGrad_append,
      List.length_append, hlen, Nat.zero_add, Nat.zero_add, htables]
    module

end Mavros
