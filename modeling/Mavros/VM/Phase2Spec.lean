/-
# `Mavros.VM.Phase2Spec` — what the loops of phase 2 compute

Each loop works on the rows of one entry at a time, and the rows of different
entries do not meet.  So each loop is described by what it leaves in the rows of an
entry and by the rows it leaves alone.

The two inversion loops are read as one: going in over an entry and coming out
again brackets the entries behind it, and the running product that was set down on
the way in is what turns the running inverse into the entry's own on the way out.

## What is proved

* `fill_invert`: after the first two loops every counted entry has its inverse, and nothing outside
  the rows of the entries has changed.
* `playLookups_spec`: after the third every lookup has the inverse of the entry it hits, and every
  sum row the sum of the inverses of its lookups.
* `finishTables_spec`: after the fourth every table is done.

## How it goes

`Ordered` says that tables lie one behind the other, in the constraints and in the witness, and
`EntriesApart` that entries do.  The rest is a frame argument: `EqOff` compares two states off a set
of rows, each body of a loop changes the rows of one entry and agrees off them, and what was
known of another entry is still known.  For each loop there is a structure for an entry before it
and one for an entry after it (`Reads` and `Inverted`, `Ready` and `Finished`).

## What it is not

The loops are specified for any data (`TableData`) and any tables in order.  That phase 1 leaves
such data is in `Mavros.VM.Witgen`, and that the rows so completed are those of the system in
`Mavros.VM.WitgenRows`.
-/
import Mathlib
import Mavros.VM.Phase2
import Mavros.VM.Tables

namespace Mavros

open Lib

/-! ## Rows of a table

Which rows belong to an entry, and that no row belongs to two.
-/

namespace TablePlace

variable (p : TablePlace)

/-- The first row of entry `i`: that of the value column where there is one. -/
def xRow (i : Nat) : Nat := p.cnst + p.table.width * i

/-- The row of the inverse at entry `i`. -/
def yRow (i : Nat) : Nat := p.xRow i + (p.table.width - 1)

theorem info_yRow (i : Nat) : p.info.yRow i = p.yRow i := by
  rcases p.table.width_eq with h | h <;> simp [TableInfo.yRow, info, yRow, xRow, h]

theorem info_sumRow : p.info.sumRow = p.sumIdx := by
  rcases p.table.width_eq with h | h <;> simp [TableInfo.sumRow, info, sumIdx, h]

end TablePlace

/-- The entries of the tables, in the order of the loops. -/
def tableEntries (ps : List TablePlace) : List (TablePlace × Nat) :=
  ps.flatMap fun p => (List.range p.table.len).map fun i => (p, i)

theorem mem_tableEntries {ps : List TablePlace} {p : TablePlace} {i : Nat} :
    (p, i) ∈ tableEntries ps ↔ p ∈ ps ∧ i < p.table.len := by
  simp only [tableEntries, List.mem_flatMap, List.mem_map, List.mem_range, Prod.mk.injEq]
  constructor
  · rintro ⟨q, hq, j, hj, rfl, rfl⟩
    exact ⟨hq, hj⟩
  · rintro ⟨hp, hi⟩
    exact ⟨p, hp, i, hi, rfl, rfl⟩

/-- The rows of an entry. -/
def entryRows (e : TablePlace × Nat) : Set Nat :=
  Set.Ico (e.1.xRow e.2) (e.1.xRow e.2 + e.1.table.width)

theorem xRow_mem (p : TablePlace) (i : Nat) : p.xRow i ∈ entryRows (p, i) := by
  rcases p.table.width_eq with h | h <;> simp [entryRows, h]

theorem yRow_mem (p : TablePlace) (i : Nat) : p.yRow i ∈ entryRows (p, i) := by
  rcases p.table.width_eq with h | h <;> simp [entryRows, TablePlace.yRow, h]

/-- Tables one behind the other, in the constraints and in the witness. -/
def Ordered (ps : List TablePlace) : Prop :=
  ps.Pairwise fun p q =>
    p.cnst + p.table.rowCount ≤ q.cnst ∧ p.wit + p.table.witCount ≤ q.wit

theorem le_of_mem_placeTables {q : TablePlace} : ∀ {ts : List Table} {m d c : Nat},
    q ∈ placeTables m d c ts → c ≤ q.cnst ∧ d ≤ q.wit := by
  intro ts
  induction ts with
  | nil => intro m d c h; exact absurd h List.not_mem_nil
  | cons t ts ih =>
      intro m d c h
      rcases List.mem_cons.mp h with rfl | h
      · exact ⟨Nat.le_refl _, Nat.le_refl _⟩
      · have := ih h
        omega

theorem placeTables_ordered :
    ∀ (ts : List Table) (m d c : Nat), Ordered (placeTables m d c ts) := by
  intro ts
  induction ts with
  | nil => intro m d c; exact .nil
  | cons t ts ih =>
      intro m d c
      exact .cons (fun q hq => le_of_mem_placeTables hq) (ih _ _ _)

/-- Entries one behind the other. -/
def EntriesApart (es : List (TablePlace × Nat)) : Prop :=
  es.Pairwise fun e e' => Disjoint (entryRows e) (entryRows e')

theorem entriesApart {ps : List TablePlace} (h : Ordered ps) : EntriesApart (tableEntries ps) := by
  rw [EntriesApart, tableEntries, List.pairwise_flatMap]
  refine ⟨fun p _ => ?_, h.imp fun {p q} hpq e he e' he' => ?_⟩
  · rw [List.pairwise_map]
    refine List.pairwise_lt_range.imp fun {i j} hij => ?_
    rw [Set.disjoint_left]
    intro r hr hr'
    have hmul : p.table.width * (i + 1) ≤ p.table.width * j := Nat.mul_le_mul_left _ hij
    rw [Nat.mul_succ] at hmul
    simp only [entryRows, TablePlace.xRow, Set.mem_Ico] at hr hr'
    omega
  · obtain ⟨i, hi, rfl⟩ := List.mem_map.mp he
    obtain ⟨j, hj, rfl⟩ := List.mem_map.mp he'
    have hmul : p.table.width * (i + 1) ≤ p.table.width * p.table.len :=
      Nat.mul_le_mul_left _ (List.mem_range.mp hi)
    rw [Nat.mul_succ] at hmul
    rw [Set.disjoint_left]
    intro r hr hr'
    have := hpq.1
    simp only [entryRows, TablePlace.xRow, Set.mem_Ico, Table.rowCount] at hr hr' this
    omega

namespace Phase2

/-! ## Reads and writes -/

section Access

variable (st : Phase2) (i j : Nat) (x : Fr)

@[simp] theorem outA_setA : (st.setA i x).outA = writeFr st.outA i x := rfl
@[simp] theorem outB_setA : (st.setA i x).outB = st.outB := rfl
@[simp] theorem outC_setA : (st.setA i x).outC = st.outC := rfl
@[simp] theorem post_setA : (st.setA i x).witPostComm = st.witPostComm := rfl
@[simp] theorem outA_setB : (st.setB i x).outA = st.outA := rfl
@[simp] theorem outB_setB : (st.setB i x).outB = writeFr st.outB i x := rfl
@[simp] theorem outC_setB : (st.setB i x).outC = st.outC := rfl
@[simp] theorem post_setB : (st.setB i x).witPostComm = st.witPostComm := rfl
@[simp] theorem outA_setC : (st.setC i x).outA = st.outA := rfl
@[simp] theorem outB_setC : (st.setC i x).outB = st.outB := rfl
@[simp] theorem outC_setC : (st.setC i x).outC = writeFr st.outC i x := rfl
@[simp] theorem post_setC : (st.setC i x).witPostComm = st.witPostComm := rfl
@[simp] theorem outA_setPost : (st.setPost i x).outA = st.outA := rfl
@[simp] theorem outB_setPost : (st.setPost i x).outB = st.outB := rfl
@[simp] theorem outC_setPost : (st.setPost i x).outC = st.outC := rfl
@[simp] theorem post_setPost :
    (st.setPost i x).witPostComm = Function.update st.witPostComm i x := rfl

end Access

theorem toFr_writeFr (v : Nat → Cell) (i j : Nat) (x : Fr) :
    (writeFr v i x j).toFr = if j = i then x else (v j).toFr := by
  by_cases h : j = i
  · subst h
    rw [writeFr, Function.update_self, if_pos rfl, Cell.toFr_ofFr]
  · rw [writeFr, Function.update_of_ne h, if_neg h]

section Read

variable (st : Phase2) (i j : Nat) (x : Fr)

@[simp] theorem a_setA : (st.setA i x).a j = if j = i then x else st.a j := toFr_writeFr _ _ _ _
@[simp] theorem b_setA : (st.setA i x).b j = st.b j := by
  rw [b, b, outB_setA]
@[simp] theorem c_setA : (st.setA i x).c j = st.c j := by
  rw [c, c, outC_setA]
@[simp] theorem a_setB : (st.setB i x).a j = st.a j := by
  rw [a, a, outA_setB]
@[simp] theorem b_setB : (st.setB i x).b j = if j = i then x else st.b j := toFr_writeFr _ _ _ _
@[simp] theorem c_setB : (st.setB i x).c j = st.c j := by
  rw [c, c, outC_setB]
@[simp] theorem a_setC : (st.setC i x).a j = st.a j := by
  rw [a, a, outA_setC]
@[simp] theorem b_setC : (st.setC i x).b j = st.b j := by
  rw [b, b, outB_setC]
@[simp] theorem c_setC : (st.setC i x).c j = if j = i then x else st.c j := toFr_writeFr _ _ _ _
@[simp] theorem a_setPost : (st.setPost i x).a j = st.a j := by
  rw [a, a, outA_setPost]
@[simp] theorem b_setPost : (st.setPost i x).b j = st.b j := by
  rw [b, b, outB_setPost]
@[simp] theorem c_setPost : (st.setPost i x).c j = st.c j := by
  rw [c, c, outC_setPost]

end Read

theorem writeFr_of_ne {v : Nat → Cell} {i j : Nat} (h : j ≠ i) (x : Fr) :
    writeFr v i x j = v j := Function.update_of_ne h _ _

/-- The two states have the same rows off a set. -/
structure EqOff (s : Set Nat) (st st' : Phase2) : Prop where
  outA : ∀ i, i ∉ s → st'.outA i = st.outA i
  outB : ∀ i, i ∉ s → st'.outB i = st.outB i
  outC : ∀ i, i ∉ s → st'.outC i = st.outC i

namespace EqOff

variable {s s' : Set Nat} {st st' st'' : Phase2}

theorem refl (s : Set Nat) (st : Phase2) : EqOff s st st :=
  ⟨fun _ _ => rfl, fun _ _ => rfl, fun _ _ => rfl⟩

theorem mono (h : EqOff s st st') (hs : s ⊆ s') : EqOff s' st st' :=
  ⟨fun i hi => h.outA i fun h => hi (hs h), fun i hi => h.outB i fun h => hi (hs h),
    fun i hi => h.outC i fun h => hi (hs h)⟩

theorem trans (h : EqOff s st st') (h' : EqOff s st' st'') : EqOff s st st'' :=
  ⟨fun i hi => (h'.outA i hi).trans (h.outA i hi), fun i hi => (h'.outB i hi).trans (h.outB i hi),
    fun i hi => (h'.outC i hi).trans (h.outC i hi)⟩

theorem a (h : EqOff s st st') {i : Nat} (hi : i ∉ s) : st'.a i = st.a i :=
  congrArg Cell.toFr (h.outA i hi)
theorem b (h : EqOff s st st') {i : Nat} (hi : i ∉ s) : st'.b i = st.b i :=
  congrArg Cell.toFr (h.outB i hi)
theorem c (h : EqOff s st st') {i : Nat} (hi : i ∉ s) : st'.c i = st.c i :=
  congrArg Cell.toFr (h.outC i hi)

end EqOff

/-! ## Inverting the denominators

One entry in, the entries behind it, and the entry again on the way out.
-/

/-- What phase 2 finds: the challenges, and a multiplicity and a value for each entry. -/
structure TableData where
  alpha : Fr
  beta : Fr
  mult : TablePlace → Nat → Fr
  value : TablePlace → Nat → Fr

/-- The denominator of an entry. -/
def TableData.denom (d : TableData) (p : TablePlace) (i : Nat) : Fr :=
  if p.table.width = 1 then d.alpha - i else d.alpha - i + d.beta * d.value p i

/-- The rows of an entry once its denominator is inverted: the inverse stands where the
entry is counted. -/
structure Inverted (d : TableData) (p : TablePlace) (i : Nat) (st st' : Phase2) : Prop where
  b : st'.b (p.yRow i) = d.denom p i
  c : st'.c (p.yRow i) = d.mult p i
  counted : d.mult p i ≠ 0 → st'.a (p.yRow i) = (d.denom p i)⁻¹
  uncounted : d.mult p i = 0 → st'.a (p.yRow i) = st.a (p.yRow i)
  xa : p.table.width = 2 → st'.a (p.xRow i) = d.beta
  xb : p.table.width = 2 → st'.b (p.xRow i) = d.value p i
  xc : p.table.width = 2 → st'.c (p.xRow i) = d.beta * d.value p i

/-- The rows of an entry as the first loop leaves them: a running product stands where
the inverse will be. -/
structure Filled (d : TableData) (p : TablePlace) (i : Nat) (r : Fr) (st st' : Phase2) : Prop where
  b : st'.b (p.yRow i) = d.denom p i
  c : st'.c (p.yRow i) = d.mult p i
  counted : d.mult p i ≠ 0 → st'.a (p.yRow i) = r
  uncounted : d.mult p i = 0 → st'.a (p.yRow i) = st.a (p.yRow i)
  xa : p.table.width = 2 → st'.a (p.xRow i) = d.beta
  xb : p.table.width = 2 → st'.b (p.xRow i) = d.value p i
  xc : p.table.width = 2 → st'.c (p.xRow i) = d.beta * d.value p i
  off : EqOff (entryRows (p, i)) st st'
  post : st'.witPostComm = st.witPostComm

/-- The state at the start of the entry agrees with the data. -/
structure Reads (d : TableData) (wit : Nat → Cell) (p : TablePlace) (i : Nat) (st : Phase2) :
    Prop where
  mult : (wit (p.mult + i)).toFr = d.mult p i
  value : p.table.width = 2 → st.a (p.xRow i) = d.value p i

theorem eqOff_writes (st : Phase2) {i : Nat} {s : Set Nat} (hi : i ∈ s) (x : Fr) :
    EqOff s st (st.setA i x) ∧ EqOff s st (st.setB i x) ∧ EqOff s st (st.setC i x) := by
  have hne : ∀ j, j ∉ s → j ≠ i := fun j hj h => hj (h ▸ hi)
  exact ⟨⟨fun j hj => writeFr_of_ne (hne j hj) x, fun _ _ => rfl, fun _ _ => rfl⟩,
    ⟨fun _ _ => rfl, fun j hj => writeFr_of_ne (hne j hj) x, fun _ _ => rfl⟩,
    ⟨fun _ _ => rfl, fun _ _ => rfl, fun j hj => writeFr_of_ne (hne j hj) x⟩⟩

/-- The product after an entry: its denominator goes in when it is counted. -/
def TableData.next (d : TableData) (p : TablePlace) (i : Nat) (r : Fr) : Fr :=
  if d.mult p i ≠ 0 then r * d.denom p i else r

section Entry

variable {d : TableData} {wit : Nat → Cell} {p : TablePlace} {i : Nat} {st : Phase2} {r : Fr}

/-- The row of the value column. -/
def fillX (d : TableData) (p : TablePlace) (i : Nat) (st : Phase2) : Phase2 :=
  if p.table.width = 1 then st
  else ((st.setA (p.xRow i) d.beta).setB (p.xRow i) (d.value p i)).setC (p.xRow i)
    (d.beta * d.value p i)

/-- The two kinds of entries are filled alike. -/
theorem fillEntry_eq (hα : st.alpha = d.alpha) (hβ : st.beta = d.beta)
    (hreads : Reads d wit p i st) :
    fillEntry wit p.info (r, st) i
      = fillY (p.yRow i) (d.denom p i) (d.mult p i) (r, fillX d p i st) := by
  have hbase : p.info.elemInversesConstraintSectionOffset = p.cnst := rfl
  have hmult : (wit (p.info.multiplicitiesWit + i)).toFr = d.mult p i := hreads.mult
  rcases p.table.width_eq with hw | hw
  · have hnum : p.info.numValues = 0 := by simp [TablePlace.info, hw]
    have hrow : p.cnst + i = p.yRow i := by simp [TablePlace.yRow, TablePlace.xRow, hw]
    have hdenom : st.alpha - (i : Fr) = d.denom p i := by rw [TableData.denom, if_pos hw, hα]
    simp only [fillEntry, hnum, if_true, hmult, hbase, hrow, hdenom, fillX, if_pos hw]
  · have hnum : p.info.numValues ≠ 0 := by simp [TablePlace.info, hw]
    have hw' : p.table.width ≠ 1 := by rw [hw]; decide
    have hxrow : p.cnst + 2 * i = p.xRow i := by rw [TablePlace.xRow, hw]
    have hrow : p.xRow i + 1 = p.yRow i := by rw [TablePlace.yRow, hw]
    have hdenom : d.alpha - (i : Fr) - -d.beta * d.value p i = d.denom p i := by
      rw [TableData.denom, if_neg hw']
      ring
    have hneg : -(-d.beta * d.value p i) = d.beta * d.value p i := by ring
    simp only [fillEntry, if_neg hnum, hmult, hbase, hxrow, hrow, hreads.value hw, hα, hβ, hdenom,
      hneg, fillX, if_neg hw']

theorem fillY_eq (row : Nat) (denom mult : Fr) :
    fillY row denom mult (r, st)
      = (if mult ≠ 0 then r * denom else r,
          if mult ≠ 0 then ((st.setB row denom).setC row mult).setA row r
          else (st.setB row denom).setC row mult) := by
  simp only [fillY]
  split_ifs <;> rfl

theorem fillX_off : EqOff (entryRows (p, i)) st (fillX d p i st) := by
  rw [fillX]
  split_ifs with hw
  · exact .refl _ _
  · have hx := xRow_mem p i
    exact ((eqOff_writes st hx _).1.trans (eqOff_writes _ hx _).2.1).trans
      (eqOff_writes _ hx _).2.2

theorem fillX_post : (fillX d p i st).witPostComm = st.witPostComm := by
  rw [fillX]
  split_ifs <;> rfl

/-- One entry of the first loop. -/
theorem fillEntry_spec (hα : st.alpha = d.alpha) (hβ : st.beta = d.beta)
    (hreads : Reads d wit p i st) :
    ∃ st', fillEntry wit p.info (r, st) i = (d.next p i r, st') ∧ Filled d p i r st st' := by
  have hy := yRow_mem p i
  have hne : p.table.width = 2 → p.xRow i ≠ p.yRow i := by
    intro hw
    rw [TablePlace.yRow, hw]
    omega
  have hya : (fillX d p i st).a (p.yRow i) = st.a (p.yRow i) := by
    rw [fillX]
    split_ifs with hw
    · rfl
    · simp [(hne (p.table.width_eq.resolve_left hw)).symm]
  have hbc : ∀ st₀ : Phase2, EqOff (entryRows (p, i)) st₀
      ((st₀.setB (p.yRow i) (d.denom p i)).setC (p.yRow i) (d.mult p i)) :=
    fun st₀ => (eqOff_writes st₀ hy _).2.1.trans (eqOff_writes _ hy _).2.2
  rw [fillEntry_eq hα hβ hreads, fillY_eq, TableData.next]
  refine ⟨_, rfl, ?_⟩
  by_cases hm : d.mult p i = 0
  · rw [if_neg (not_not.mpr hm)]
    exact
      { b := by simp
        c := by simp
        counted := fun h => absurd hm h
        uncounted := fun _ => by simp [hya]
        xa := fun hw => by simp [fillX, hw]
        xb := fun hw => by simp [hne hw, fillX, hw]
        xc := fun hw => by simp [hne hw, fillX, hw]
        off := fillX_off.trans (hbc _)
        post := fillX_post }
  · rw [if_pos hm]
    exact
      { b := by simp
        c := by simp
        counted := fun _ => by simp
        uncounted := fun h => absurd h hm
        xa := fun hw => by simp [hne hw, fillX, hw]
        xb := fun hw => by simp [hne hw, fillX, hw]
        xc := fun hw => by simp [hne hw, fillX, hw]
        off := (fillX_off.trans (hbc _)).trans (eqOff_writes _ hy _).1
        post := fillX_post }

/-- One entry of the second loop, coming out of the entries behind it. -/
theorem invertEntry_spec {st₁ st₂ : Phase2} {s : Set Nat} (hr : r ≠ 0)
    (hden : d.mult p i ≠ 0 → d.denom p i ≠ 0) (hfill : Filled d p i r st st₁)
    (hoff : EqOff s st₁ st₂) (hs : Disjoint (entryRows (p, i)) s) :
    ∃ st₃, invertEntry p.info ((d.next p i r)⁻¹, st₂) i = (r⁻¹, st₃) ∧ Inverted d p i st st₃ ∧
      EqOff (entryRows (p, i)) st₂ st₃ ∧ st₃.witPostComm = st₂.witPostComm := by
  have hy : p.yRow i ∉ s := Set.disjoint_left.mp hs (yRow_mem p i)
  have hx : p.xRow i ∉ s := Set.disjoint_left.mp hs (xRow_mem p i)
  have hne : p.table.width = 2 → p.xRow i ≠ p.yRow i := by
    intro hw
    rw [TablePlace.yRow, hw]
    omega
  have hb := (hoff.b hy).trans hfill.b
  have hc := (hoff.c hy).trans hfill.c
  simp only [invertEntry, p.info_yRow, hc, TableData.next]
  by_cases hm : d.mult p i = 0
  · rw [if_neg (not_not.mpr hm), if_neg (not_not.mpr hm)]
    exact ⟨st₂, rfl, ⟨hb, hc, fun h => absurd hm h,
      fun h => (hoff.a hy).trans (hfill.uncounted h), fun hw => (hoff.a hx).trans (hfill.xa hw),
      fun hw => (hoff.b hx).trans (hfill.xb hw), fun hw => (hoff.c hx).trans (hfill.xc hw)⟩,
      .refl _ _, rfl⟩
  · have ha := (hoff.a hy).trans (hfill.counted hm)
    have hd := hden hm
    have hinv : (r * d.denom p i)⁻¹ * st₂.b (p.yRow i) = r⁻¹ := by
      rw [hb]
      field_simp
    rw [if_pos hm, if_pos hm, hinv]
    refine ⟨_, rfl, ⟨hb, hc, fun _ => ?_, fun h => absurd h hm, fun hw => ?_,
      fun hw => (hoff.b hx).trans (hfill.xb hw), fun hw => (hoff.c hx).trans (hfill.xc hw)⟩,
      (eqOff_writes _ (yRow_mem p i) _).1, rfl⟩
    · rw [a_setA, if_pos rfl, ha]
      field_simp
    · rw [a_setA, if_neg (hne hw)]
      exact (hoff.a hx).trans (hfill.xa hw)

end Entry

theorem Reads.congr {d : TableData} {wit : Nat → Cell} {p : TablePlace} {i : Nat}
    {st st' : Phase2} {s : Set Nat} (h : Reads d wit p i st) (hoff : EqOff s st st')
    (hs : Disjoint (entryRows (p, i)) s) : Reads d wit p i st' :=
  ⟨h.mult, fun hw => (hoff.a (Set.disjoint_left.mp hs (xRow_mem p i))).trans (h.value hw)⟩

theorem Inverted.congr {d : TableData} {p : TablePlace} {i : Nat} {st₀ st st' : Phase2}
    {s : Set Nat} (h : Inverted d p i st₀ st) (hoff : EqOff s st st')
    (hs : Disjoint (entryRows (p, i)) s) : Inverted d p i st₀ st' := by
  have hx := Set.disjoint_left.mp hs (xRow_mem p i)
  have hy := Set.disjoint_left.mp hs (yRow_mem p i)
  exact
    { b := (hoff.b hy).trans h.b
      c := (hoff.c hy).trans h.c
      counted := fun hm => (hoff.a hy).trans (h.counted hm)
      uncounted := fun hm => (hoff.a hy).trans (h.uncounted hm)
      xa := fun hw => (hoff.a hx).trans (h.xa hw)
      xb := fun hw => (hoff.b hx).trans (h.xb hw)
      xc := fun hw => (hoff.c hx).trans (h.xc hw) }

theorem Inverted.congr_start {d : TableData} {p : TablePlace} {i : Nat} {st₀ st₁ st : Phase2}
    {s : Set Nat} (h : Inverted d p i st₁ st) (hoff : EqOff s st₀ st₁)
    (hs : Disjoint (entryRows (p, i)) s) : Inverted d p i st₀ st :=
  { h with
    uncounted := fun hm =>
      (h.uncounted hm).trans (hoff.a (Set.disjoint_left.mp hs (yRow_mem p i))) }

/-- The rows of several entries. -/
def allRows (es : List (TablePlace × Nat)) : Set Nat := {r | ∃ e ∈ es, r ∈ entryRows e}

theorem allRows_cons (e : TablePlace × Nat) (es : List (TablePlace × Nat)) :
    allRows (e :: es) = entryRows e ∪ allRows es := by
  ext r
  simp [allRows]

/-- In over all the entries and out again: the denominators are inverted and the
running product is back where it was. -/
theorem fill_invert {d : TableData} {wit : Nat → Cell} :
    ∀ {es : List (TablePlace × Nat)} {st : Phase2} {r : Fr}, EntriesApart es → r ≠ 0 →
      st.alpha = d.alpha → st.beta = d.beta → (∀ e ∈ es, Reads d wit e.1 e.2 st) →
      (∀ e ∈ es, d.mult e.1 e.2 ≠ 0 → d.denom e.1 e.2 ≠ 0) →
      ∃ r' st₁ st₂,
        es.foldl (fun acc e => fillEntry wit e.1.info acc e.2) (r, st) = (r', st₁) ∧ r' ≠ 0 ∧
        es.foldr (fun e acc => invertEntry e.1.info acc e.2) (r'⁻¹, st₁) = (r⁻¹, st₂) ∧
        (∀ e ∈ es, Inverted d e.1 e.2 st st₂) ∧ EqOff (allRows es) st st₂ ∧
        EqOff (allRows es) st st₁ ∧ st₁.witPostComm = st.witPostComm ∧
        st₂.witPostComm = st.witPostComm := by
  intro es
  induction es with
  | nil =>
      intro st r _ hr _ _ _ _
      exact ⟨r, st, st, rfl, hr, rfl, fun e he => absurd he List.not_mem_nil, .refl _ _,
        .refl _ _, rfl, rfl⟩
  | cons e es ih =>
      intro st r hapart hr hα hβ hreads hden
      obtain ⟨p, i⟩ := e
      obtain ⟨hhead, htail⟩ := List.pairwise_cons.mp hapart
      have hs : Disjoint (entryRows (p, i)) (allRows es) := by
        rw [Set.disjoint_left]
        rintro row hrow ⟨e, he, hrow'⟩
        exact Set.disjoint_left.mp (hhead e he) hrow hrow'
      have hden₀ := hden (p, i) List.mem_cons_self
      obtain ⟨st₁, hfill, hfilled⟩ :=
        fillEntry_spec (r := r) hα hβ (hreads (p, i) List.mem_cons_self)
      have hnext : d.next p i r ≠ 0 := by
        rw [TableData.next]
        split_ifs with hm
        · exact mul_ne_zero hr (hden₀ hm)
        · exact hr
      obtain ⟨r', st₂, st₃, hfwd, hr', hbwd, hinv, hoff, hoff', hpost', hpost⟩ :=
        @ih st₁ _ htail hnext
          (by rw [← hα, Phase2.alpha, Phase2.alpha, hfilled.post])
          (by rw [← hβ, Phase2.beta, Phase2.beta, hfilled.post])
          (fun e he => (hreads e (List.mem_cons_of_mem _ he)).congr hfilled.off
            (hhead e he).symm)
          (fun e he => hden e (List.mem_cons_of_mem _ he))
      obtain ⟨st₄, hinvert, hinverted, hoff₄, hpost₄⟩ :=
        invertEntry_spec hr hden₀ hfilled hoff hs
      refine ⟨r', st₂, st₄, ?_, hr', ?_, fun e he => ?_, ?_, ?_, hpost'.trans hfilled.post,
        hpost₄.trans (hpost.trans hfilled.post)⟩
      · rw [List.foldl_cons, hfill]
        exact hfwd
      · rw [List.foldr_cons, hbwd]
        exact hinvert
      · rcases List.mem_cons.mp he with rfl | he
        · exact hinverted
        · exact ((hinv e he).congr_start hfilled.off (hhead e he).symm).congr hoff₄
            (hhead e he).symm
      · rw [allRows_cons]
        exact ((hfilled.off.mono Set.subset_union_left).trans
          (hoff.mono Set.subset_union_right)).trans (hoff₄.mono Set.subset_union_left)
      · rw [allRows_cons]
        exact (hfilled.off.mono Set.subset_union_left).trans (hoff'.mono Set.subset_union_right)

/-- The first loop goes over the entries one by one. -/
theorem fillTables_eq (wit : Nat → Cell) (ps : List TablePlace) (st : Phase2) :
    st.fillTables wit (ps.map TablePlace.info)
      = (tableEntries ps).foldl (fun acc e => fillEntry wit e.1.info acc e.2) (1, st) := by
  rw [fillTables, tableEntries, List.foldl_map, List.foldl_flatMap]
  simp only [List.foldl_map]
  rfl

/-- The second loop goes over them the other way. -/
theorem invertTables_eq (ps : List TablePlace) (inv : Fr) (st : Phase2) :
    st.invertTables (ps.map TablePlace.info) inv
      = (tableEntries ps).foldr (fun e acc => invertEntry e.1.info acc e.2) (inv, st) := by
  rw [invertTables, List.foldl_reverse, List.foldr_map, tableEntries, List.foldr_flatMap]
  simp only [List.foldl_reverse, List.foldr_map]
  rfl

/-! ## Playing the tape

What a lookup reads is complete by now, and what it writes nobody reads but the sum row.
-/

/-- The denominator of a lookup. -/
def TableData.denomOf (d : TableData) (w : Nat → Fr) (l : LookupConstraint) : Fr :=
  if l.width = 1 then d.alpha - l.key.eval w
  else d.alpha - l.key.eval w + d.beta * l.value.eval w

/-- The inverse a lookup is given: none when it is not active. -/
def TableData.quot (d : TableData) (w : Nat → Fr) (l : LookupConstraint) : Fr :=
  if l.flag.eval w = 1 then (d.denomOf w l)⁻¹ else 0

/-- What `playKey` does to a row whose tape entry is that of `k` with flag `f`. -/
structure KeyPlayed (row wit sum : Nat) (y denom f : Fr) (st st' : Phase2) : Prop where
  a : st'.a row = y
  b : st'.b row = denom
  c : st'.c row = f
  post : st'.witPostComm = Function.update st.witPostComm wit y
  outA : ∀ i, i ≠ row → st'.outA i = st.outA i
  outB : ∀ i, i ≠ row → st'.outB i = st.outB i
  outC : ∀ i, i ≠ row → i ≠ sum → st'.outC i = st.outC i
  sum : st'.c sum = st.c sum + y

theorem playKey_spec {p : TablePlace} {st : Phase2} {row : Nat} (wit : Nat) {k f x denom : Fr}
    (hB : st.outB row = if f = 1 then lowU64 k else Cell.ofFr k)
    (hC : st.outC row = if f = 1 then 1 else 0)
    (hdenom : st.alpha - k - x = denom)
    (hcase : f = 0 ∨ f = 1 ∧ st.a (p.yRow (lowU64 k)) = denom⁻¹ ∧
      st.b (p.yRow (lowU64 k)) = denom)
    (hsum : p.sumIdx ≠ row) :
    KeyPlayed row wit p.sumIdx (if f = 1 then denom⁻¹ else 0) denom f st
      (st.playKey p.info row wit x) := by
  rcases hcase with rfl | ⟨rfl, ha, hb⟩
  · have hf : ¬(0 : Fr) = 1 := by decide
    rw [if_neg hf] at hB hC
    have hflag : (st.outC row).limb0 = 0 := by rw [hC]; rfl
    have hkey : st.b row = k := by rw [Phase2.b, hB, Cell.toFr_ofFr]
    have hc : ∀ i, st.c i = (st.outC i).toFr := fun _ => rfl
    rw [playKey, if_pos hflag, if_neg hf]
    simp only [hkey, hdenom]
    exact
      { a := by simp
        b := by simp
        c := by simp
        post := rfl
        outA := fun i hi => writeFr_of_ne hi _
        outB := fun i hi => writeFr_of_ne hi _
        outC := fun i hi _ => writeFr_of_ne hi _
        sum := by simp [hsum] }
  · rw [if_pos rfl] at hB hC
    have hflag : (st.outC row).limb0 = 1 := by rw [hC]; rfl
    have hix : (st.outB row).limb0 = lowU64 k := by
      rw [hB, Cell.limb0, Nat.mod_eq_of_lt (lowU64_lt k)]
    have hflag' : (st.outC row).limb0 ≠ 0 := by
      rw [hflag]
      decide
    rw [if_pos rfl, playKey, if_neg hflag']
    simp only [hflag, hix, p.info_yRow, p.info_sumRow, ha, hb]
    exact
      { a := by simp
        b := by simp
        c := by simp [hsum.symm]
        post := rfl
        outA := fun i hi => writeFr_of_ne hi _
        outB := fun i hi => writeFr_of_ne hi _
        outC := fun i hi hi' => (writeFr_of_ne hi' _).trans (writeFr_of_ne hi _)
        sum := by simp [hsum] }

/-- The rows and witnesses of a lookup that was played. -/
structure Played (d : TableData) (w : Nat → Fr) (l : LookupConstraint) (row wit : Nat)
    (st : Phase2) : Prop where
  a : st.a (row + (l.width - 1)) = d.quot w l
  b : st.b (row + (l.width - 1)) = d.denomOf w l
  c : st.c (row + (l.width - 1)) = l.flag.eval w
  post : st.witPostComm (wit + (l.width - 1)) = d.quot w l
  xa : l.width = 2 → st.a row = d.beta
  xb : l.width = 2 → st.b row = l.value.eval w
  xc : l.width = 2 → st.c row = d.beta * l.value.eval w
  xpost : l.width = 2 → st.witPostComm wit = -d.beta * l.value.eval w

/-- What playing a lookup leaves alone, and what it adds to the sum row of its table. -/
structure LookupFrame (l : LookupConstraint) (row wit sum : Nat) (y : Fr) (st st' : Phase2) :
    Prop where
  outA : ∀ i, i ∉ Set.Ico row (row + l.width) → st'.outA i = st.outA i
  outB : ∀ i, i ∉ Set.Ico row (row + l.width) → st'.outB i = st.outB i
  outC : ∀ i, i ∉ Set.Ico row (row + l.width) → i ≠ sum → st'.outC i = st.outC i
  post : ∀ i, i ∉ Set.Ico wit (wit + l.width) → st'.witPostComm i = st.witPostComm i
  sum : st'.c sum = st.c sum + y

/-- The tape as phase 1 left it, from a row on. -/
def TapeAt (w : Nat → Fr) (ls : List LookupConstraint) (row : Nat) (st : Phase2) : Prop :=
  ∀ j e, (ls.flatMap (LookupConstraint.tape w))[j]? = some e →
    st.outA (row + j) = e.table ∧ st.outB (row + j) = e.elem ∧ st.outC (row + j) = e.flag

/-- A lookup hits an entry of its table that was counted. -/
def Hit (d : TableData) (w : Nat → Fr) (p : TablePlace) (l : LookupConstraint) (st : Phase2) :
    Prop :=
  l.flag.eval w = 0 ∨ l.flag.eval w = 1 ∧
    st.a (p.yRow (lowU64 (l.key.eval w))) = (d.denomOf w l)⁻¹ ∧
    st.b (p.yRow (lowU64 (l.key.eval w))) = d.denomOf w l

theorem playLookup_one {d : TableData} {w : Nat → Fr} {ps : List TablePlace} {p : TablePlace}
    {tableId : Nat} {key flag : LC} {row : Nat} (wit : Nat) {st : Phase2} (hα : st.alpha = d.alpha)
    (hps : ps[tableId]? = some p) (hid : tableId < 2 ^ 64) (hw : p.table.width = 1)
    (htape : TapeAt w [⟨tableId, [key], flag⟩] row st)
    (hhit : Hit d w p ⟨tableId, [key], flag⟩ st) (hsum : p.sumIdx < row) :
    ∃ st', st.playLookup (ps.map TablePlace.info) row wit = some (st', 1) ∧
      Played d w ⟨tableId, [key], flag⟩ row wit st' ∧
      LookupFrame ⟨tableId, [key], flag⟩ row wit p.sumIdx (d.quot w ⟨tableId, [key], flag⟩)
        st st' := by
  obtain ⟨hA, hB, hC⟩ := htape 0 _ rfl
  rw [Nat.add_zero] at hA hB hC
  have hget : (ps.map TablePlace.info)[(st.outA row).limb0]? = some p.info := by
    have hlimb : (st.outA row).limb0 = tableId := by
      rw [hA]
      exact Nat.mod_eq_of_lt hid
    rw [hlimb, List.getElem?_map, hps]
    rfl
  have hnum : p.info.numValues = 0 := by rw [TablePlace.info, hw]
  have hdenom : st.alpha - key.eval w - 0 = d.denomOf w ⟨tableId, [key], flag⟩ := by
    rw [sub_zero, hα]
    rfl
  have hk := playKey_spec (p := p) wit hB hC hdenom hhit
    (Nat.ne_of_lt hsum)
  have hne : ∀ {i}, i ∉ Set.Ico row (row + 1) → i ≠ row := by
    rintro i hi rfl
    exact hi ⟨Nat.le_refl _, Nat.lt_succ_self _⟩
  refine ⟨_, ?_, ⟨hk.a, hk.b, hk.c, ?_, ?_, ?_, ?_, ?_⟩,
    ⟨fun i hi => hk.outA i (hne hi), fun i hi => hk.outB i (hne hi),
      fun i hi => hk.outC i (hne hi), fun i hi => ?_, hk.sum⟩⟩
  · simp only [playLookup, hget, hnum, if_true, Option.bind_eq_bind, Option.bind_some,
      Option.pure_def]
  · rw [hk.post]
    exact Function.update_self _ _ _
  · exact fun h => absurd h (by decide : (1 : Nat) ≠ 2)
  · exact fun h => absurd h (by decide : (1 : Nat) ≠ 2)
  · exact fun h => absurd h (by decide : (1 : Nat) ≠ 2)
  · exact fun h => absurd h (by decide : (1 : Nat) ≠ 2)
  · rw [hk.post]
    refine Function.update_of_ne ?_ _ _
    rintro rfl
    exact hi ⟨Nat.le_refl _, Nat.lt_succ_self _⟩

theorem playLookup_two {d : TableData} {w : Nat → Fr} {ps : List TablePlace} {p : TablePlace}
    {tableId : Nat} {key value flag : LC} {row wit : Nat} {st : Phase2}
    (hα : st.alpha = d.alpha) (hβ : st.beta = d.beta) (hwit : 1 ≤ wit)
    (hps : ps[tableId]? = some p) (hid : tableId < 2 ^ 64) (hw : p.table.width = 2)
    (htape : TapeAt w [⟨tableId, [key, value], flag⟩] row st)
    (hhit : Hit d w p ⟨tableId, [key, value], flag⟩ st) (hsum : p.sumIdx < row)
    (hy : flag.eval w = 1 → p.yRow (lowU64 (key.eval w)) ≠ row) :
    ∃ st', st.playLookup (ps.map TablePlace.info) row wit = some (st', 2) ∧
      Played d w ⟨tableId, [key, value], flag⟩ row wit st' ∧
      LookupFrame ⟨tableId, [key, value], flag⟩ row wit p.sumIdx
        (d.quot w ⟨tableId, [key, value], flag⟩) st st' := by
  obtain ⟨hA, hB, hC⟩ := htape 0 (valueEntry w tableId value) rfl
  obtain ⟨-, hB', hC'⟩ := htape 1 (keyEntry w tableId key flag) rfl
  rw [Nat.add_zero] at hA hB hC
  have hget : (ps.map TablePlace.info)[(st.outA row).limb0]? = some p.info := by
    have hlimb : (st.outA row).limb0 = tableId := by
      rw [hA]
      exact Nat.mod_eq_of_lt hid
    rw [hlimb, List.getElem?_map, hps]
    rfl
  have hnum : p.info.numValues ≠ 0 := by simp [TablePlace.info, hw]
  have hvalue : st.b row = value.eval w := by
    simp only [valueEntry] at hB
    rw [Phase2.b, hB, Cell.toFr_ofFr]
  -- the value column first
  let x := -d.beta * value.eval w
  let st₁ := (((st.setA row d.beta).setB row (value.eval w)).setC row (-x)).setPost wit x
  have hα₁ : st₁.alpha = d.alpha := by
    rw [← hα]
    exact Function.update_of_ne (by omega) _ _
  have hoff₁ : ∀ i, i ≠ row → st₁.outA i = st.outA i ∧ st₁.outB i = st.outB i ∧
      st₁.outC i = st.outC i :=
    fun i hi => ⟨writeFr_of_ne hi _, writeFr_of_ne hi _, writeFr_of_ne hi _⟩
  have hsucc : row + 1 ≠ row := Nat.succ_ne_self row
  have hdenom : d.denomOf w ⟨tableId, [key, value], flag⟩ = d.alpha - key.eval w - x := by
    show d.alpha - key.eval w + d.beta * value.eval w = d.alpha - key.eval w - x
    simp only [x]
    ring
  have hhit₁ : flag.eval w = 0 ∨ flag.eval w = 1 ∧
      st₁.a (p.yRow (lowU64 (key.eval w)))
        = (d.denomOf w ⟨tableId, [key, value], flag⟩)⁻¹ ∧
      st₁.b (p.yRow (lowU64 (key.eval w))) = d.denomOf w ⟨tableId, [key, value], flag⟩ := by
    refine hhit.imp_right fun h => ⟨h.1, ?_, ?_⟩
    · rw [Phase2.a, (hoff₁ _ (hy h.1)).1]
      exact h.2.1
    · rw [Phase2.b, (hoff₁ _ (hy h.1)).2.1]
      exact h.2.2
  have hk := playKey_spec (p := p) (x := x) (wit + 1)
    ((hoff₁ _ hsucc).2.1.trans hB') ((hoff₁ _ hsucc).2.2.trans hC') (by rw [hα₁, hdenom]) hhit₁
    (Nat.ne_of_lt (Nat.lt_succ_of_lt hsum))
  have hne : ∀ {i}, i ∉ Set.Ico row (row + 2) → i ≠ row ∧ i ≠ row + 1 := by
    intro i hi
    simp only [Set.mem_Ico, not_and, not_lt] at hi
    omega
  have hsum₁ : st₁.c p.sumIdx = st.c p.sumIdx :=
    congrArg Cell.toFr (hoff₁ _ (Nat.ne_of_lt hsum)).2.2
  have hrow : row ≠ row + 1 := hsucc.symm
  refine ⟨_, ?_, ⟨hk.a, hk.b, hk.c, ?_, fun _ => ?_, fun _ => ?_, fun _ => ?_, fun _ => ?_⟩,
    ⟨fun i hi => ?_, fun i hi => ?_, fun i hi hi' => ?_, fun i hi => ?_, ?_⟩⟩
  · simp only [playLookup, hget, if_neg hnum, hβ, hvalue, Option.bind_eq_bind, Option.bind_some,
      Option.pure_def]
    rfl
  · rw [hk.post]
    exact Function.update_self _ _ _
  · rw [Phase2.a, hk.outA row hrow, ← Phase2.a]
    simp [st₁]
  · rw [Phase2.b, hk.outB row hrow, ← Phase2.b]
    simp [st₁, LookupConstraint.value]
  · rw [Phase2.c, hk.outC row hrow (Nat.ne_of_gt hsum), ← Phase2.c]
    simp [st₁, x, LookupConstraint.value]
  · rw [hk.post, Function.update_of_ne (Nat.succ_ne_self wit).symm]
    exact Function.update_self _ _ _
  · exact (hk.outA i (hne hi).2).trans (hoff₁ i (hne hi).1).1
  · exact (hk.outB i (hne hi).2).trans (hoff₁ i (hne hi).1).2.1
  · exact (hk.outC i (hne hi).2 hi').trans (hoff₁ i (hne hi).1).2.2
  · have hi : i ≠ wit ∧ i ≠ wit + 1 := by
      have hi : i ∉ Set.Ico wit (wit + 2) := hi
      simp only [Set.mem_Ico, not_and, not_lt] at hi
      omega
    rw [hk.post, Function.update_of_ne hi.2]
    exact Function.update_of_ne hi.1 _ _
  · rw [hk.sum, hsum₁]
    rfl

/-- A lookup the tape can play: its table, of its width, and the entry it hits. -/
structure Playable (d : TableData) (w : Nat → Fr) (ps : List TablePlace) (s : Nat)
    (l : LookupConstraint) (st : Phase2) : Prop where
  id_lt : l.tableId < 2 ^ 64
  table : ∃ p, ps[l.tableId]? = some p ∧ p.table.width = l.width ∧ p.sumIdx < s ∧
    Hit d w p l st ∧ (l.flag.eval w = 1 → p.yRow (lowU64 (l.key.eval w)) < s)

theorem Playable.play {d : TableData} {w : Nat → Fr} {ps : List TablePlace} {s : Nat}
    {l : LookupConstraint} {row wit : Nat} {st : Phase2} (h : Playable d w ps s l st)
    (hα : st.alpha = d.alpha) (hβ : l.width = 2 → st.beta = d.beta) (hwit : 1 ≤ wit)
    (hrow : s ≤ row) (htape : TapeAt w [l] row st) :
    ∃ p st', ps[l.tableId]? = some p ∧ p.sumIdx < s ∧
      st.playLookup (ps.map TablePlace.info) row wit = some (st', l.width) ∧
      Played d w l row wit st' ∧ LookupFrame l row wit p.sumIdx (d.quot w l) st st' := by
  obtain ⟨p, hps, hw, hsum, hhit, hy⟩ := h.table
  have hsum' := Nat.lt_of_lt_of_le hsum hrow
  obtain ⟨tableId, elements, flag⟩ := l
  rcases p.table.width_eq with hw1 | hw2
  · obtain ⟨key, rfl⟩ := List.length_eq_one_iff.mp (hw.symm.trans hw1)
    obtain ⟨st', hrun, hplayed, hframe⟩ := playLookup_one _ hα hps h.id_lt hw1 htape
      hhit hsum'
    exact ⟨p, st', hps, hsum, hrun, hplayed, hframe⟩
  · obtain ⟨key, value, rfl⟩ := List.length_eq_two.mp (hw.symm.trans hw2)
    obtain ⟨st', hrun, hplayed, hframe⟩ := playLookup_two hα (hβ rfl) hwit hps h.id_lt hw2 htape
      hhit hsum' fun hf => Nat.ne_of_lt (Nat.lt_of_lt_of_le (hy hf) hrow)
    exact ⟨p, st', hps, hsum, hrun, hplayed, hframe⟩

theorem Playable.congr {d : TableData} {w : Nat → Fr} {ps : List TablePlace} {s : Nat}
    {l : LookupConstraint} {st st' : Phase2} (h : Playable d w ps s l st)
    (hA : ∀ i < s, st'.outA i = st.outA i) (hB : ∀ i < s, st'.outB i = st.outB i) :
    Playable d w ps s l st' := by
  obtain ⟨p, hps, hw, hsum, hhit, hy⟩ := h.table
  refine ⟨h.id_lt, p, hps, hw, hsum, hhit.imp_right fun hf => ⟨hf.1, ?_, ?_⟩, hy⟩
  · rw [Phase2.a, hA _ (hy hf.1)]
    exact hf.2.1
  · rw [Phase2.b, hB _ (hy hf.1)]
    exact hf.2.2

/-- What the third loop leaves from `row` and `wit` on, and before them. -/
structure LookupsPlayed (d : TableData) (w : Nat → Fr) (ps : List TablePlace)
    (ls : List LookupConstraint) (row wit : Nat) (st st' : Phase2) : Prop where
  played : ∀ k l, ls[k]? = some l →
    Played d w l (row + totalWidth (ls.take k)) (wit + totalWidth (ls.take k)) st'
  outA : ∀ i < row, st'.outA i = st.outA i
  outB : ∀ i < row, st'.outB i = st.outB i
  outC : ∀ i < row, (∀ p ∈ ps, i ≠ p.sumIdx) → st'.outC i = st.outC i
  sum : ∀ k p, ps[k]? = some p → st'.c p.sumIdx
    = st.c p.sumIdx + ((ls.filter fun l => l.tableId = k).map (d.quot w)).sum
  post : ∀ i < wit, st'.witPostComm i = st.witPostComm i

theorem Played.congr {d : TableData} {w : Nat → Fr} {l : LookupConstraint} {row wit : Nat}
    {st st' : Phase2} (h : Played d w l row wit st) (hl : l.Sealable)
    (hA : ∀ i, row ≤ i → i < row + l.width → st'.outA i = st.outA i)
    (hB : ∀ i, row ≤ i → i < row + l.width → st'.outB i = st.outB i)
    (hC : ∀ i, row ≤ i → i < row + l.width → st'.outC i = st.outC i)
    (hpost : ∀ i, wit ≤ i → i < wit + l.width → st'.witPostComm i = st.witPostComm i) :
    Played d w l row wit st' := by
  have hy : l.width - 1 < l.width := by
    rcases hl with hl | hl <;> omega
  have hx : 0 < l.width := by omega
  exact
    { a := (congrArg Cell.toFr (hA _ (by omega) (by omega))).trans h.a
      b := (congrArg Cell.toFr (hB _ (by omega) (by omega))).trans h.b
      c := (congrArg Cell.toFr (hC _ (by omega) (by omega))).trans h.c
      post := (hpost _ (by omega) (by omega)).trans h.post
      xa := fun hw => (congrArg Cell.toFr (hA _ (by omega) (by omega))).trans (h.xa hw)
      xb := fun hw => (congrArg Cell.toFr (hB _ (by omega) (by omega))).trans (h.xb hw)
      xc := fun hw => (congrArg Cell.toFr (hC _ (by omega) (by omega))).trans (h.xc hw)
      xpost := fun hw => (hpost _ (by omega) (by omega)).trans (h.xpost hw) }

theorem playLookups_done {tables : List TableInfo} {s ws size fuel off : Nat} {st : Phase2}
    (h : ¬off < size) : playLookups tables s ws size fuel off st = some st := by
  rw [playLookups.eq_def]
  exact if_neg h

theorem playLookups_step {tables : List TableInfo} {s ws size fuel off : Nat} {st : Phase2}
    (h : off < size) :
    playLookups tables s ws size (fuel + 1) off st
      = (st.playLookup tables (s + off) (ws + off)).bind fun r =>
          playLookups tables s ws size fuel (off + r.2) r.1 := by
  rw [playLookups.eq_def]
  exact if_pos h

theorem playLookups_spec {d : TableData} {w : Nat → Fr} {ps : List TablePlace} {s ws : Nat}
    (hinj : ∀ (k k' : Nat) (p p' : TablePlace), ps[k]? = some p → ps[k']? = some p' →
      p.sumIdx = p'.sumIdx → k = k')
    (hsums : ∀ p ∈ ps, p.sumIdx < s) :
    ∀ {ls : List LookupConstraint} {off fuel : Nat} {st : Phase2}, totalWidth ls ≤ fuel →
      st.alpha = d.alpha → (∀ l ∈ ls, 1 ≤ ws + off) →
      (∀ l ∈ ls, l.width = 2 → st.beta = d.beta ∧ 2 ≤ ws + off) → (∀ l ∈ ls, l.Sealable) →
      (∀ l ∈ ls, Playable d w ps s l st) → TapeAt w ls (s + off) st →
      ∃ st', playLookups (ps.map TablePlace.info) s ws (off + totalWidth ls) fuel off st
          = some st' ∧ LookupsPlayed d w ps ls (s + off) (ws + off) st st' := by
  intro ls
  induction ls with
  | nil =>
      intro off fuel st _ _ _ _ _ _ _
      refine ⟨st, ?_, ?_, fun _ _ => rfl, fun _ _ => rfl, fun _ _ _ => rfl,
        fun k p hk => by simp, fun _ _ => rfl⟩
      · exact playLookups_done (Nat.lt_irrefl _)
      · intro k l hl
        simp at hl
  | cons l ls ih =>
      intro off fuel st hfuel hα hwit hβ hseal hplay htape
      have hwit := hwit l List.mem_cons_self
      have htotal : totalWidth (l :: ls) = l.width + totalWidth ls := rfl
      have hl := hseal l List.mem_cons_self
      have hpos : 0 < l.width := by
        rcases hl with hl | hl <;> omega
      have hhead : TapeAt w [l] (s + off) st := by
        intro j e he
        rw [List.flatMap_singleton] at he
        refine htape j e ?_
        rw [List.flatMap_cons, List.getElem?_append_left (List.getElem?_eq_some_iff.mp he).1]
        exact he
      obtain ⟨p, st₁, hps, hsum, hrun, hplayed, hframe⟩ :=
        (hplay l List.mem_cons_self).play hα (fun hw => (hβ l List.mem_cons_self hw).1) hwit
          (Nat.le_add_right _ _) hhead
      have hbefore : ∀ {i}, i < s + off → i ∉ Set.Ico (s + off) (s + off + l.width) :=
        fun hi h => absurd h.1 (Nat.not_le.mpr hi)
      have hafter : ∀ j, s + off + l.width + j ∉ Set.Ico (s + off) (s + off + l.width) := by
        rintro j ⟨-, h⟩
        omega
      have hposted : ∀ i < ws + off, st₁.witPostComm i = st.witPostComm i :=
        fun i hi => hframe.post i fun h => absurd h.1 (Nat.not_le.mpr hi)
      cases fuel with
      | zero => omega
      | succ fuel =>
          obtain ⟨st', hrun', hrest⟩ := @ih (off + l.width) fuel st₁
            (by omega) ((hposted 0 (by omega)).trans hα) (fun _ _ => by omega)
            (fun l' hl' hw => by
              obtain ⟨hβ', htwo⟩ := hβ l' (List.mem_cons_of_mem _ hl') hw
              exact ⟨(hposted 1 (by omega)).trans hβ', by omega⟩)
            (fun l' hl' => hseal l' (List.mem_cons_of_mem _ hl'))
            (fun l' hl' => (hplay l' (List.mem_cons_of_mem _ hl')).congr
              (fun i hi => hframe.outA i (hbefore (by omega)))
              (fun i hi => hframe.outB i (hbefore (by omega))))
            (fun j e he => by
              have hj := htape (l.width + j) e (by
                rw [List.flatMap_cons, ← l.length_tape w hl,
                  List.getElem?_append_right (Nat.le_add_right _ _), Nat.add_sub_cancel_left]
                exact he)
              rw [← Nat.add_assoc] at hj
              rw [← Nat.add_assoc s, hframe.outA _ (hafter j), hframe.outB _ (hafter j),
                hframe.outC _ (hafter j) (by omega)]
              exact hj)
          rw [← Nat.add_assoc, ← Nat.add_assoc] at hrest
          refine ⟨st', ?_, ?_, ?_, ?_, ?_, ?_, ?_⟩
          · rw [htotal, playLookups_step (by omega), hrun, Option.bind_some, ← Nat.add_assoc]
            exact hrun'
          · intro k l' hk
            cases k with
            | zero =>
                obtain rfl : l = l' := by simpa using hk
                exact hplayed.congr hl (fun i _ hi => hrest.outA i hi)
                  (fun i _ hi => hrest.outB i hi)
                  (fun i hi' hi => hrest.outC i hi fun q hq => by
                    have := hsums q hq
                    have hi' : s + off ≤ i := hi'
                    omega) (fun i _ hi => hrest.post i hi)
            | succ k =>
                have hk' : ls[k]? = some l' := by simpa using hk
                have hshift : totalWidth ((l :: ls).take (k + 1))
                    = l.width + totalWidth (ls.take k) := rfl
                rw [hshift, ← Nat.add_assoc, ← Nat.add_assoc]
                exact hrest.played k l' hk'
          · exact fun i hi => (hrest.outA i (by omega)).trans (hframe.outA i (hbefore hi))
          · exact fun i hi => (hrest.outB i (by omega)).trans (hframe.outB i (hbefore hi))
          · exact fun i hi hne => (hrest.outC i (by omega) hne).trans
              (hframe.outC i (hbefore hi) (hne p (List.mem_of_getElem? hps)))
          · intro k q hq
            rw [hrest.sum k q hq]
            by_cases hk : l.tableId = k
            · subst hk
              obtain rfl := Option.some.inj (hps.symm.trans hq)
              rw [hframe.sum, List.filter_cons_of_pos (by simp), List.map_cons, List.sum_cons,
                add_assoc]
            · have hne : q.sumIdx ≠ p.sumIdx := fun h => hk (hinj _ _ _ _ hps hq h.symm)
              have hlt := hsums q (List.mem_of_getElem? hq)
              rw [List.filter_cons_of_neg (by simpa using hk), Phase2.c,
                hframe.outC _ (hbefore (by omega)) hne, ← Phase2.c]
          · exact fun i hi => (hrest.post i (by omega)).trans (hposted i hi)

/-! ## Finishing the tables -/

/-- The quotient an entry contributes. -/
def TableData.entryQuot (d : TableData) (p : TablePlace) (i : Nat) : Fr :=
  d.mult p i * (d.denom p i)⁻¹

/-- An entry before the last loop. -/
structure Ready (d : TableData) (p : TablePlace) (i : Nat) (st : Phase2) : Prop where
  b : st.b (p.yRow i) = d.denom p i
  c : st.c (p.yRow i) = d.mult p i
  counted : d.mult p i ≠ 0 → st.a (p.yRow i) = (d.denom p i)⁻¹
  uncounted : d.mult p i = 0 → st.a (p.yRow i) = 0
  post : st.witPostComm (p.yWit i) = 0
  xa : p.table.width = 2 → st.a (p.xRow i) = d.beta
  xb : p.table.width = 2 → st.b (p.xRow i) = d.value p i
  xc : p.table.width = 2 → st.c (p.xRow i) = d.beta * d.value p i

/-- An entry after it. -/
structure Finished (d : TableData) (p : TablePlace) (i : Nat) (st : Phase2) : Prop where
  a : st.a (p.yRow i) = d.entryQuot p i
  b : st.b (p.yRow i) = d.denom p i
  c : st.c (p.yRow i) = d.mult p i
  post : st.witPostComm (p.yWit i) = d.entryQuot p i
  xa : p.table.width = 2 → st.a (p.xRow i) = d.beta
  xb : p.table.width = 2 → st.b (p.xRow i) = d.value p i
  xc : p.table.width = 2 → st.c (p.xRow i) = d.beta * d.value p i
  xpost : p.table.width = 2 → st.witPostComm (p.xWit i) = -(d.beta * d.value p i)

/-- The witnesses of an entry. -/
def entryWits (p : TablePlace) (i : Nat) : Set Nat := Set.Ico (p.xWit i) (p.xWit i + p.table.width)

theorem yWit_mem (p : TablePlace) (i : Nat) : p.yWit i ∈ entryWits p i := by
  rcases p.table.width_eq with h | h <;>
    simp [entryWits, TablePlace.yWit, TablePlace.xWit, h]

theorem xWit_mem (p : TablePlace) (i : Nat) : p.xWit i ∈ entryWits p i := by
  rcases p.table.width_eq with h | h <;> simp [entryWits, h]

/-- The row of the inverse, in the last loop. -/
def finishY (d : TableData) (p : TablePlace) (i : Nat) (st : Phase2) : Phase2 :=
  if d.mult p i ≠ 0 then
    ((st.setA (p.yRow i) (d.entryQuot p i)).setPost (p.yWit i) (d.entryQuot p i)).setA
      p.sumIdx ((st.setA (p.yRow i) (d.entryQuot p i)).a p.sumIdx + d.entryQuot p i)
  else st

/-- The two kinds of entries are finished alike. -/
theorem finishEntry_eq {d : TableData} {p : TablePlace} {i : Nat} {st : Phase2}
    (h : Ready d p i st) :
    finishEntry p.info st i =
      if p.table.width = 1 then finishY d p i st
      else (finishY d p i st).setPost (p.xWit i) (-(d.beta * d.value p i)) := by
  have hsum := p.info_sumRow
  have hrow := p.info_yRow i
  have helem : d.mult p i ≠ 0 → st.a (p.yRow i) * d.mult p i = d.entryQuot p i := by
    intro hm
    rw [h.counted hm, TableData.entryQuot, mul_comm]
  have hwit : p.info.elemInversesWitnessSectionOffset = p.wit := rfl
  have hcnst : p.info.elemInversesConstraintSectionOffset = p.cnst := rfl
  rcases p.table.width_eq with hw | hw
  · have hnum : p.info.numValues = 0 := by rw [TablePlace.info, hw]
    have hy : p.wit + i = p.yWit i := by simp [TablePlace.yWit, hw]
    simp only [finishEntry, hnum, if_true, hrow, hsum, h.c, hwit, hy, if_pos hw, finishY]
    split_ifs with hm
    · rw [helem hm]
      rfl
    · rfl
  · have hnum : p.info.numValues ≠ 0 := by simp [TablePlace.info, hw]
    have hw' : p.table.width ≠ 1 := by rw [hw]; decide
    have hx : p.wit + 2 * i = p.xWit i := by rw [TablePlace.xWit, hw]
    have hy : p.xWit i + 1 = p.yWit i := by rw [TablePlace.yWit, TablePlace.xWit, hw]
    have hxrow : p.cnst + 2 * i = p.xRow i := by rw [TablePlace.xRow, hw]
    have hxc := h.xc hw
    simp only [finishEntry, if_neg hnum, hrow, hsum, h.c, hwit, hcnst, hx, hy, hxrow, if_neg hw',
      finishY]
    split_ifs with hm
    · rw [helem hm]
      simp only [c_setA, c_setPost, hxc]
      rfl
    · rw [hxc]

/-- What an entry leaves alone, and what it adds to the sum row. -/
structure EntryFrame (d : TableData) (p : TablePlace) (i : Nat) (st st' : Phase2) : Prop where
  outA : ∀ j, j ≠ p.yRow i → j ≠ p.sumIdx → st'.outA j = st.outA j
  outB : st'.outB = st.outB
  outC : st'.outC = st.outC
  post : ∀ j, j ∉ entryWits p i → st'.witPostComm j = st.witPostComm j
  sum : st'.a p.sumIdx = st.a p.sumIdx + d.entryQuot p i

theorem finishY_spec {d : TableData} {p : TablePlace} {i : Nat} {st : Phase2}
    (h : Ready d p i st) (hne : p.yRow i ≠ p.sumIdx) :
    (finishY d p i st).a (p.yRow i) = d.entryQuot p i ∧
      (finishY d p i st).witPostComm (p.yWit i) = d.entryQuot p i ∧
      (∀ j, j ≠ p.yWit i → (finishY d p i st).witPostComm j = st.witPostComm j) ∧
      EntryFrame d p i st (finishY d p i st) := by
  by_cases hm : d.mult p i = 0
  · have hquot : d.entryQuot p i = 0 := by rw [TableData.entryQuot, hm, zero_mul]
    rw [finishY, if_neg (not_not.mpr hm), hquot]
    exact ⟨h.uncounted hm, h.post, fun _ _ => rfl,
      ⟨fun _ _ _ => rfl, rfl, rfl, fun _ _ => rfl, by rw [hquot, add_zero]⟩⟩
  · rw [finishY, if_pos hm]
    refine ⟨by simp [hne], Function.update_self _ _ _, fun j hj => Function.update_of_ne hj _ _,
      ⟨fun j hj hj' => (writeFr_of_ne hj' _).trans (writeFr_of_ne hj _), rfl, rfl,
        fun j hj => Function.update_of_ne (fun heq : j = _ => hj (heq ▸ yWit_mem p i)) _ _,
        by simp [hne.symm]⟩⟩

theorem finishEntry_spec {d : TableData} {p : TablePlace} {i : Nat} {st : Phase2}
    (h : Ready d p i st) (hi : i < p.table.len) :
    Finished d p i (finishEntry p.info st i) ∧ EntryFrame d p i st (finishEntry p.info st i) := by
  have hmul : p.table.width * (i + 1) ≤ p.table.width * p.table.len := Nat.mul_le_mul_left _ hi
  rw [Nat.mul_succ] at hmul
  have hpos : 0 < p.table.width := by rcases p.table.width_eq with h | h <;> omega
  have hysum : p.yRow i ≠ p.sumIdx := by
    rw [TablePlace.yRow, TablePlace.xRow, TablePlace.sumIdx]
    omega
  obtain ⟨ha, hpost, hoff, hframe⟩ := finishY_spec h hysum
  have hb : (finishY d p i st).b = st.b := by
    funext j
    rw [Phase2.b, Phase2.b, hframe.outB]
  have hc : (finishY d p i st).c = st.c := by
    funext j
    rw [Phase2.c, Phase2.c, hframe.outC]
  rw [finishEntry_eq h]
  rcases p.table.width_eq with hw | hw
  · have hno : ∀ {q : Prop}, p.table.width = 2 → q := by
      intro q h2
      rw [hw] at h2
      exact absurd h2 (by decide)
    rw [if_pos hw]
    exact ⟨⟨ha, hb ▸ h.b, hc ▸ h.c, hpost, hno, hno, hno, hno⟩, hframe⟩
  · have hw' : p.table.width ≠ 1 := by rw [hw]; decide
    have hxy : p.xRow i ≠ p.yRow i := by
      rw [TablePlace.yRow, hw]
      omega
    have hxsum : p.xRow i ≠ p.sumIdx := by
      rw [TablePlace.xRow, TablePlace.sumIdx]
      omega
    have hwits : p.yWit i ≠ p.xWit i := by
      rw [TablePlace.yWit, TablePlace.xWit, hw]
      omega
    rw [if_neg hw']
    refine ⟨⟨?_, ?_, ?_, ?_, fun _ => ?_, fun _ => ?_, fun _ => ?_, fun _ => ?_⟩,
      ⟨hframe.outA, hframe.outB, hframe.outC, fun j hj => ?_, ?_⟩⟩
    · rw [a_setPost, ha]
    · rw [b_setPost, hb, h.b]
    · rw [c_setPost, hc, h.c]
    · rw [post_setPost, Function.update_of_ne hwits, hpost]
    · rw [a_setPost, Phase2.a, hframe.outA _ hxy hxsum, ← Phase2.a, h.xa hw]
    · rw [b_setPost, hb, h.xb hw]
    · rw [c_setPost, hc, h.xc hw]
    · rw [post_setPost, Function.update_self]
    · rw [post_setPost, Function.update_of_ne fun heq : j = _ => hj (heq ▸ xWit_mem p i)]
      exact hframe.post j hj
    · rw [a_setPost, hframe.sum]

/-- The state agrees with another on the rows and witnesses of an entry. -/
structure SameEntry (p : TablePlace) (i : Nat) (st st' : Phase2) : Prop where
  outA : ∀ j ∈ entryRows (p, i), st'.outA j = st.outA j
  outB : ∀ j ∈ entryRows (p, i), st'.outB j = st.outB j
  outC : ∀ j ∈ entryRows (p, i), st'.outC j = st.outC j
  post : ∀ j ∈ entryWits p i, st'.witPostComm j = st.witPostComm j

theorem Ready.congr {d : TableData} {p : TablePlace} {i : Nat} {st st' : Phase2}
    (h : Ready d p i st) (hs : SameEntry p i st st') : Ready d p i st' := by
  have hx := xRow_mem p i
  have hy := yRow_mem p i
  exact
    { b := (congrArg Cell.toFr (hs.outB _ hy)).trans h.b
      c := (congrArg Cell.toFr (hs.outC _ hy)).trans h.c
      counted := fun hm => (congrArg Cell.toFr (hs.outA _ hy)).trans (h.counted hm)
      uncounted := fun hm => (congrArg Cell.toFr (hs.outA _ hy)).trans (h.uncounted hm)
      post := (hs.post _ (yWit_mem p i)).trans h.post
      xa := fun hw => (congrArg Cell.toFr (hs.outA _ hx)).trans (h.xa hw)
      xb := fun hw => (congrArg Cell.toFr (hs.outB _ hx)).trans (h.xb hw)
      xc := fun hw => (congrArg Cell.toFr (hs.outC _ hx)).trans (h.xc hw) }

theorem Finished.congr {d : TableData} {p : TablePlace} {i : Nat} {st st' : Phase2}
    (h : Finished d p i st) (hs : SameEntry p i st st') : Finished d p i st' := by
  have hx := xRow_mem p i
  have hy := yRow_mem p i
  exact
    { a := (congrArg Cell.toFr (hs.outA _ hy)).trans h.a
      b := (congrArg Cell.toFr (hs.outB _ hy)).trans h.b
      c := (congrArg Cell.toFr (hs.outC _ hy)).trans h.c
      post := (hs.post _ (yWit_mem p i)).trans h.post
      xa := fun hw => (congrArg Cell.toFr (hs.outA _ hx)).trans (h.xa hw)
      xb := fun hw => (congrArg Cell.toFr (hs.outB _ hx)).trans (h.xb hw)
      xc := fun hw => (congrArg Cell.toFr (hs.outC _ hx)).trans (h.xc hw)
      xpost := fun hw => (hs.post _ (xWit_mem p i)).trans (h.xpost hw) }

/-- Another entry of the table is not touched. -/
theorem EntryFrame.sameEntry {d : TableData} {p : TablePlace} {i j : Nat} {st st' : Phase2}
    (h : EntryFrame d p i st st') (hij : i ≠ j) (hj : j < p.table.len) :
    SameEntry p j st st' := by
  have hmul : p.table.width * (j + 1) ≤ p.table.width * p.table.len := Nat.mul_le_mul_left _ hj
  have hpos : 0 < p.table.width := by rcases p.table.width_eq with h | h <;> omega
  have hsep : p.table.width * (i + 1) ≤ p.table.width * j ∨
      p.table.width * (j + 1) ≤ p.table.width * i := by
    rcases Nat.lt_or_gt_of_ne hij with hlt | hlt
    · exact .inl (Nat.mul_le_mul_left _ hlt)
    · exact .inr (Nat.mul_le_mul_left _ hlt)
  simp only [Nat.mul_succ] at hmul hsep
  refine ⟨fun r hr => h.outA r ?_ ?_, fun r _ => by rw [h.outB], fun r _ => by rw [h.outC],
    fun r hr => h.post r ?_⟩
  · simp only [entryRows, TablePlace.xRow, Set.mem_Ico] at hr
    rw [TablePlace.yRow, TablePlace.xRow]
    omega
  · simp only [entryRows, TablePlace.xRow, Set.mem_Ico] at hr
    rw [TablePlace.sumIdx]
    omega
  · simp only [entryWits, TablePlace.xWit, Set.mem_Ico, not_and, not_lt] at hr ⊢
    omega

/-- What finishing some entries of a table leaves alone. -/
structure TableFrame (p : TablePlace) (n : Nat) (st st' : Phase2) : Prop where
  outA : ∀ j, j ∉ Set.Ico p.cnst (p.cnst + p.table.width * n) → j ≠ p.sumIdx →
    st'.outA j = st.outA j
  outB : st'.outB = st.outB
  outC : st'.outC = st.outC
  post : ∀ j, j ∉ Set.Ico p.wit (p.wit + p.table.width * n) →
    st'.witPostComm j = st.witPostComm j

theorem finishEntries_spec {d : TableData} {p : TablePlace} {st : Phase2} :
    ∀ {n : Nat}, n ≤ p.table.len → (∀ i < p.table.len, Ready d p i st) →
      (∀ i < n, Finished d p i ((List.range n).foldl (finishEntry p.info) st)) ∧
      (∀ i < p.table.len, n ≤ i → Ready d p i ((List.range n).foldl (finishEntry p.info) st)) ∧
      ((List.range n).foldl (finishEntry p.info) st).a p.sumIdx
        = st.a p.sumIdx + ((List.range n).map (d.entryQuot p)).sum ∧
      TableFrame p n st ((List.range n).foldl (finishEntry p.info) st) := by
  intro n
  induction n with
  | zero =>
      intro _ hready
      exact ⟨fun i hi => absurd hi (Nat.not_lt_zero i), fun i hi _ => hready i hi, by simp,
        ⟨fun _ _ _ => rfl, rfl, rfl, fun _ _ => rfl⟩⟩
  | succ n ih =>
      intro hn hready
      obtain ⟨hdone, hrest, hsum, hframe⟩ := ih (Nat.le_of_succ_le hn) hready
      obtain ⟨hfin, hent⟩ := finishEntry_spec (hrest n hn (Nat.le_refl n)) hn
      have hpos : 0 < p.table.width := by rcases p.table.width_eq with h | h <;> omega
      rw [List.range_succ, List.foldl_append, List.foldl_cons, List.foldl_nil]
      refine ⟨fun i hi => ?_, fun i hi hni => ?_, ?_, ?_⟩
      · rcases Nat.lt_succ_iff_lt_or_eq.mp hi with hlt | rfl
        · exact (hdone i hlt).congr
            (hent.sameEntry (Nat.ne_of_gt hlt) (Nat.lt_of_lt_of_le hlt (Nat.le_of_succ_le hn)))
        · exact hfin
      · exact (hrest i hi (Nat.le_of_succ_le hni)).congr
          (hent.sameEntry (Nat.ne_of_lt hni) hi)
      · rw [hent.sum, hsum, List.map_append, List.sum_append, add_assoc]
        simp
      · refine ⟨fun j hj hj' => ?_, hent.outB.trans hframe.outB, hent.outC.trans hframe.outC,
          fun j hj => ?_⟩
        · rw [Nat.mul_succ, Set.mem_Ico, not_and, not_lt] at hj
          refine (hent.outA j ?_ hj').trans (hframe.outA j ?_ hj')
          · rw [TablePlace.yRow, TablePlace.xRow]
            omega
          · rw [Set.mem_Ico, not_and, not_lt]
            omega
        · rw [Nat.mul_succ, Set.mem_Ico, not_and, not_lt] at hj
          refine (hent.post j ?_).trans (hframe.post j ?_)
          · rw [entryWits, Set.mem_Ico, not_and, not_lt, TablePlace.xWit]
            omega
          · rw [Set.mem_Ico, not_and, not_lt]
            omega

/-- A table that is done: its entries, and its sum row but for the right-hand side. -/
structure TableDone (d : TableData) (p : TablePlace) (st : Phase2) : Prop where
  entries : ∀ i < p.table.len, Finished d p i st
  sumA : st.a p.sumIdx = ((List.range p.table.len).map (d.entryQuot p)).sum
  sumB : st.b p.sumIdx = 1

/-- Nothing outside the sections of a table changes, and `out_c` not at all. -/
structure SectionFrame (p : TablePlace) (st st' : Phase2) : Prop where
  outA : ∀ j, j ∉ Set.Ico p.cnst (p.cnst + p.table.rowCount) → st'.outA j = st.outA j
  outB : ∀ j, j ∉ Set.Ico p.cnst (p.cnst + p.table.rowCount) → st'.outB j = st.outB j
  outC : st'.outC = st.outC
  post : ∀ j, j ∉ Set.Ico p.wit (p.wit + p.table.witCount) →
    st'.witPostComm j = st.witPostComm j

theorem finishTable_spec {d : TableData} {p : TablePlace} {st : Phase2}
    (hready : ∀ i < p.table.len, Ready d p i st) (hsum : st.a p.sumIdx = 0) :
    TableDone d p (finishTable st p.info) ∧ SectionFrame p st (finishTable st p.info) := by
  obtain ⟨hdone, -, hsumA, hframe⟩ := finishEntries_spec (Nat.le_refl _) hready
  have hrow := p.info_sumRow
  have hlen : p.info.length = p.table.len := rfl
  rw [finishTable, hlen, hrow]
  refine ⟨⟨fun i hi => (hdone i hi).congr ⟨fun _ _ => rfl, fun j hj => ?_, fun _ _ => rfl,
      fun _ _ => rfl⟩, ?_, ?_⟩,
    ⟨fun j hj => ?_, fun j hj => ?_, hframe.outC, hframe.post⟩⟩
  · have hmul : p.table.width * (i + 1) ≤ p.table.width * p.table.len := Nat.mul_le_mul_left _ hi
    rw [Nat.mul_succ] at hmul
    simp only [entryRows, TablePlace.xRow, Set.mem_Ico] at hj
    refine writeFr_of_ne ?_ _
    rw [TablePlace.sumIdx]
    omega
  · rw [a_setB, hsumA, hsum, zero_add]
  · rw [b_setB, if_pos rfl]
  · rw [Table.rowCount, Set.mem_Ico, not_and, not_lt] at hj
    refine hframe.outA j ?_ ?_
    · rw [Set.mem_Ico, not_and, not_lt]
      omega
    · rw [TablePlace.sumIdx]
      omega
  · rw [Table.rowCount, Set.mem_Ico, not_and, not_lt] at hj
    refine (writeFr_of_ne ?_ _).trans (congrFun hframe.outB j)
    rw [TablePlace.sumIdx]
    omega

theorem entryRows_subset {p : TablePlace} {i : Nat} (hi : i < p.table.len) {j : Nat}
    (hj : j ∈ entryRows (p, i)) : j ∈ Set.Ico p.cnst (p.cnst + p.table.rowCount) := by
  have hmul : p.table.width * (i + 1) ≤ p.table.width * p.table.len := Nat.mul_le_mul_left _ hi
  rw [Nat.mul_succ] at hmul
  simp only [entryRows, TablePlace.xRow, Set.mem_Ico, Table.rowCount] at hj ⊢
  omega

theorem entryWits_subset {p : TablePlace} {i : Nat} (hi : i < p.table.len) {j : Nat}
    (hj : j ∈ entryWits p i) : j ∈ Set.Ico p.wit (p.wit + p.table.witCount) := by
  have hmul : p.table.width * (i + 1) ≤ p.table.width * p.table.len := Nat.mul_le_mul_left _ hi
  rw [Nat.mul_succ] at hmul
  simp only [entryWits, TablePlace.xWit, Set.mem_Ico, Table.witCount] at hj ⊢
  omega

theorem sumIdx_mem (p : TablePlace) : p.sumIdx ∈ Set.Ico p.cnst (p.cnst + p.table.rowCount) := by
  simp [TablePlace.sumIdx, Table.rowCount]

/-- Two tables one behind the other have nothing in common. -/
theorem SectionFrame.sameEntry {p q : TablePlace} {st st' : Phase2} (h : SectionFrame p st st')
    (hrows : Disjoint (Set.Ico p.cnst (p.cnst + p.table.rowCount))
      (Set.Ico q.cnst (q.cnst + q.table.rowCount)))
    (hwits : Disjoint (Set.Ico p.wit (p.wit + p.table.witCount))
      (Set.Ico q.wit (q.wit + q.table.witCount)))
    {i : Nat} (hi : i < q.table.len) : SameEntry q i st st' where
  outA := fun j hj => h.outA j fun hp => Set.disjoint_left.mp hrows hp (entryRows_subset hi hj)
  outB := fun j hj => h.outB j fun hp => Set.disjoint_left.mp hrows hp (entryRows_subset hi hj)
  outC := fun j _ => by rw [h.outC]
  post := fun j hj => h.post j fun hp => Set.disjoint_left.mp hwits hp (entryWits_subset hi hj)

theorem finishTables_spec {d : TableData} :
    ∀ {ps : List TablePlace} {st : Phase2}, Ordered ps →
      (∀ p ∈ ps, (∀ i < p.table.len, Ready d p i st) ∧ st.a p.sumIdx = 0) →
      (∀ p ∈ ps, TableDone d p ((ps.map TablePlace.info).foldl finishTable st)) ∧
      (∀ j, (∀ p ∈ ps, j ∉ Set.Ico p.cnst (p.cnst + p.table.rowCount)) →
        ((ps.map TablePlace.info).foldl finishTable st).outA j = st.outA j ∧
          ((ps.map TablePlace.info).foldl finishTable st).outB j = st.outB j) ∧
      ((ps.map TablePlace.info).foldl finishTable st).outC = st.outC ∧
      (∀ j, (∀ p ∈ ps, j ∉ Set.Ico p.wit (p.wit + p.table.witCount)) →
        ((ps.map TablePlace.info).foldl finishTable st).witPostComm j = st.witPostComm j) := by
  intro ps
  induction ps with
  | nil =>
      intro st _ _
      exact ⟨fun p hp => absurd hp List.not_mem_nil, fun _ _ => ⟨rfl, rfl⟩, rfl, fun _ _ => rfl⟩
  | cons p ps ih =>
      intro st hord hready
      obtain ⟨hhead, htail⟩ := List.pairwise_cons.mp hord
      obtain ⟨hp, hpsum⟩ := hready p List.mem_cons_self
      obtain ⟨hdone, hframe⟩ := finishTable_spec hp hpsum
      have hrows : ∀ q ∈ ps, Disjoint (Set.Ico p.cnst (p.cnst + p.table.rowCount))
          (Set.Ico q.cnst (q.cnst + q.table.rowCount)) := by
        intro q hq
        rw [Set.disjoint_left]
        rintro j ⟨-, hj⟩ ⟨hj', -⟩
        have := (hhead q hq).1
        omega
      have hwits : ∀ q ∈ ps, Disjoint (Set.Ico p.wit (p.wit + p.table.witCount))
          (Set.Ico q.wit (q.wit + q.table.witCount)) := by
        intro q hq
        rw [Set.disjoint_left]
        rintro j ⟨-, hj⟩ ⟨hj', -⟩
        have := (hhead q hq).2
        omega
      obtain ⟨hdone', hab, hc, hpost⟩ := @ih (finishTable st p.info) htail fun q hq => by
        obtain ⟨hq', hqsum⟩ := hready q (List.mem_cons_of_mem _ hq)
        refine ⟨fun i hi => (hq' i hi).congr (hframe.sameEntry (hrows q hq) (hwits q hq) hi), ?_⟩
        rw [Phase2.a, hframe.outA _ fun h => Set.disjoint_left.mp (hrows q hq) h (sumIdx_mem q)]
        exact hqsum
      simp only [List.map_cons, List.foldl_cons]
      have hkeep : ∀ j ∈ Set.Ico p.cnst (p.cnst + p.table.rowCount), ∀ q ∈ ps,
          j ∉ Set.Ico q.cnst (q.cnst + q.table.rowCount) :=
        fun j hj q hq h => Set.disjoint_left.mp (hrows q hq) hj h
      refine ⟨fun q hq => ?_, fun j hj => ?_, hc.trans hframe.outC, fun j hj => ?_⟩
      · rcases List.mem_cons.mp hq with rfl | hq
        · refine ⟨fun i hi => (hdone.entries i hi).congr ⟨fun j hj => ?_, fun j hj => ?_,
            fun j _ => by rw [hc], fun j hj => ?_⟩, ?_, ?_⟩
          · exact (hab j (hkeep j (entryRows_subset hi hj))).1
          · exact (hab j (hkeep j (entryRows_subset hi hj))).2
          · exact hpost j fun r hr h => Set.disjoint_left.mp (hwits r hr) (entryWits_subset hi hj) h
          · rw [Phase2.a, (hab _ (hkeep _ (sumIdx_mem q))).1]
            exact hdone.sumA
          · rw [Phase2.b, (hab _ (hkeep _ (sumIdx_mem q))).2]
            exact hdone.sumB
        · exact hdone' q hq
      · have hq : ∀ q ∈ ps, j ∉ Set.Ico q.cnst (q.cnst + q.table.rowCount) :=
          fun q hq => hj q (List.mem_cons_of_mem _ hq)
        have hp := hj p List.mem_cons_self
        exact ⟨(hab j hq).1.trans (hframe.outA j hp), (hab j hq).2.trans (hframe.outB j hp)⟩
      · exact (hpost j fun q hq => hj q (List.mem_cons_of_mem _ hq)).trans
          (hframe.post j (hj p List.mem_cons_self))

end Phase2

end Mavros
