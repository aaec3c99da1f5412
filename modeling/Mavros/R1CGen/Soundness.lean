/-
# `Mavros.R1CGen.Soundness` — what a satisfied system says about its lookups

From the closed form of the sealed system and the rows of one table: in every
satisfying assignment the inverses are the quotients they stand for, and the sum
row equates two sums of quotients.  Together with what the generator's runs keep
(`R1CGen.Run.inv`) that is the LogUp identity of every table, over exactly the
lookups asked for.

## What is proved

`seal_sound`: after any run of the generator, in any assignment that satisfies the system `seal`
returns and makes no denominator zero, and for every table `t` with index `k`,

    ∑ flag / (α - key)  over the lookups that name `k`
      = ∑ m i / (α - entry i)  over the entries of `t`

and the recorded lookups are those that were asked for, in order, each with its own key, value and
flag and under a table with the contents its target names.  `m i` is the multiplicity witness of
the entry, and keys and entries of two columns are combined under `β` (`LookupConstraint.encode`,
`Table.encode`).

`challenges_sealed` says where the challenges stand in the sealed layout.
`seal_sound_twoTables` is the theorem at two tables of different widths with three lookups, two
in the first and one in the second.

## What it is not

The step from this identity to membership of every key in its table is probabilistic in `α` and
`β`, and is not taken.  Here the challenges are given, and the identity is what the rows say under
them.

The condition on denominators (`Unexceptional`) cannot be dropped: where `α` equals an entry, the
row of that entry says nothing about its inverse.

## How it goes

A row is read as an equation between elements (`rangeRow_holds`, `lookupRow1_holds` and the like).
With a denominator that is not zero an inverse is a quotient (`TablePlace.yWit_eq`,
`LookupConstraint.yWit_eq`), the two sides of a sum row are then sums of quotients
(`TablePlace.sum_entries`, `eval_sumRhs`), and the blocks of the closed form say that all these
rows are in the system.
-/
import Mavros.R1CGen.SealSpec
import Mavros.R1CGen.Run

namespace Mavros

/-! ## The encodings

Under one challenge for keys, and a second one for values where there are any.
-/

/-- The field element a lookup stands for: its key, combined with its value under the
challenge `β`. -/
def LookupConstraint.encode (w : Nat → Fr) (beta : Nat) (l : LookupConstraint) : Fr :=
  match l.elements with
  | [key, value] => key.eval w - w beta * value.eval w
  | key :: _ => key.eval w
  | [] => 0

/-- The field element entry `i` of a table stands for. -/
def Table.encode (w : Nat → Fr) (beta : Nat) (t : Table) (i : Nat) : Fr :=
  if t.width = 1 then (i : Fr) else i - w beta * (t.value i).eval w

/-! ## One row after the other -/

section Rows

variable {w : Nat → Fr} {alpha beta x y m i : Nat} {v key flag : LC}

theorem rangeRow_holds (hw : w 0 = 1) (h : (rangeRow alpha y m i).Holds w) :
    w y * (w alpha - i) = w m := by
  simp only [R1C.Holds, rangeRow, LC.eval_cons, LC.eval_nil, hw] at h
  linear_combination h

theorem xRow_holds (h : (xRow beta x v).Holds w) : w x = -(w beta * v.eval w) := by
  simp only [R1C.Holds, xRow, LC.eval_cons, LC.eval_nil] at h
  have hneg : w beta * v.eval w = -w x := by linear_combination h
  rw [hneg, neg_neg]

theorem yRow_holds (hw : w 0 = 1) (h : (yRow alpha x y m i).Holds w) :
    w y * (w alpha - i - w x) = w m := by
  simp only [R1C.Holds, yRow, LC.eval_cons, LC.eval_nil, hw] at h
  linear_combination h

theorem eval_negTerms (w : Nat → Fr) (key : LC) : LC.eval w (negTerms key) = -key.eval w := by
  induction key with
  | nil => simp [negTerms]
  | cons t key ih =>
      have hcons : negTerms (t :: key) = (t.1, -t.2) :: negTerms key := rfl
      rw [hcons, LC.eval_cons, ih, LC.eval_cons]
      ring

theorem lookupRow1_holds (h : (lookupRow1 alpha y key flag).Holds w) :
    w y * (w alpha - key.eval w) = flag.eval w := by
  simp only [R1C.Holds, lookupRow1, LC.eval_cons, LC.eval_nil, eval_negTerms] at h
  linear_combination h

theorem lookupRow2_holds (h : (lookupRow2 alpha x y key flag).Holds w) :
    w y * (w alpha - w x - key.eval w) = flag.eval w := by
  simp only [R1C.Holds, lookupRow2, LC.eval_cons, LC.eval_nil, eval_negTerms] at h
  linear_combination h

theorem sumRow_holds {sumLhs rhs : LC} (hw : w 0 = 1) (h : (sumRow sumLhs rhs).Holds w) :
    sumLhs.eval w = rhs.eval w := by
  simp only [R1C.Holds, sumRow, LC.eval_cons, LC.eval_nil, hw] at h
  linear_combination h

end Rows

/-! ## One table, and the lookups of one table -/

section Blocks

variable {w : Nat → Fr} {alpha beta : Nat}

/-- The inverse at an entry is `m / (α - encode)`. -/
theorem TablePlace.yWit_eq (p : TablePlace) (hw : w 0 = 1) {i : Nat}
    (hrows : ∀ row ∈ p.entryRows alpha beta i, row.Holds w)
    (hden : w alpha - p.table.encode w beta i ≠ 0) :
    w (p.yWit i) = w (p.mult + i) / (w alpha - p.table.encode w beta i) := by
  rw [eq_div_iff hden]
  rcases p.table.width_eq with hwid | hwid
  · have hrow : rangeRow alpha (p.yWit i) (p.mult + i) i ∈ p.entryRows alpha beta i := by
      simp [TablePlace.entryRows, hwid]
    simpa only [Table.encode, hwid, if_true] using rangeRow_holds hw (hrows _ hrow)
  · have hx : xRow beta (p.xWit i) (p.table.value i) ∈ p.entryRows alpha beta i := by
      simp [TablePlace.entryRows, hwid]
    have hy : yRow alpha (p.xWit i) (p.yWit i) (p.mult + i) i ∈ p.entryRows alpha beta i := by
      simp [TablePlace.entryRows, hwid]
    have hxw := xRow_holds (hrows _ hx)
    have hyw := yRow_holds hw (hrows _ hy)
    rw [hxw] at hyw
    rw [Table.encode, hwid, if_neg (by decide)]
    linear_combination hyw

/-- The sum row of a table sums the quotients of its entries. -/
theorem TablePlace.sum_entries (p : TablePlace) {rhs : LC} (hw : w 0 = 1)
    (hrows : ∀ row ∈ p.rows alpha beta rhs, row.Holds w)
    (hden : ∀ i < p.table.len, w alpha - p.table.encode w beta i ≠ 0) :
    rhs.eval w
      = ((List.range p.table.len).map fun i =>
          w (p.mult + i) / (w alpha - p.table.encode w beta i)).sum := by
  have hsum : sumRow p.sumLhs rhs ∈ p.rows alpha beta rhs := by simp [TablePlace.rows]
  rw [← sumRow_holds hw (hrows _ hsum), TablePlace.sumLhs, LC.eval, List.map_map]
  refine congrArg List.sum (List.map_congr_left fun i hi => ?_)
  have hentry : ∀ row ∈ p.entryRows alpha beta i, row.Holds w := by
    intro row hrow
    exact hrows row (List.mem_append_left _ (List.mem_flatMap.mpr ⟨i, hi, hrow⟩))
  show 1 * w (p.yWit i) = _
  rw [one_mul, p.yWit_eq hw hentry (hden i (List.mem_range.mp hi))]

/-- The inverse of a lookup is `flag / (α - encode)`. -/
theorem LookupConstraint.yWit_eq {l : LookupConstraint} {d : Nat} (hseal : l.Sealable)
    (hrows : ∀ row ∈ l.rows alpha beta d, row.Holds w)
    (hden : w alpha - l.encode w beta ≠ 0) :
    w (l.yWit d) = l.flag.eval w / (w alpha - l.encode w beta) := by
  rw [eq_div_iff hden]
  obtain ⟨tableId, elements, flag⟩ := l
  rcases hseal with hwid | hwid
  · obtain ⟨key, rfl⟩ := List.length_eq_one_iff.mp hwid
    exact lookupRow1_holds (hrows _ List.mem_cons_self)
  · obtain ⟨key, value, rfl⟩ := List.length_eq_two.mp hwid
    have hx := xRow_holds (hrows _ List.mem_cons_self)
    have hy := lookupRow2_holds (hrows _ (List.mem_cons_of_mem _ List.mem_cons_self))
    rw [hx] at hy
    show w (d + 1) * (w alpha - (key.eval w - w beta * value.eval w)) = flag.eval w
    linear_combination hy

/-- The right-hand side of the sum row of table `k` sums the quotients of its lookups. -/
theorem eval_sumRhs (k : Nat) : ∀ {d : Nat} {ls : List LookupConstraint},
    (∀ l ∈ ls, l.Sealable) → (∀ row ∈ lookupRows alpha beta d ls, row.Holds w) →
    (∀ l ∈ ls, w alpha - l.encode w beta ≠ 0) →
    (sumRhs k d ls).eval w
      = ((ls.filter fun l => l.tableId = k).map fun l =>
          l.flag.eval w / (w alpha - l.encode w beta)).sum := by
  intro d ls
  induction ls generalizing d with
  | nil => intro _ _ _; rfl
  | cons l ls ih =>
      intro hseal hrows hden
      have hl : w (l.yWit d) = l.flag.eval w / (w alpha - l.encode w beta) :=
        LookupConstraint.yWit_eq (hseal l List.mem_cons_self)
          (fun row hrow => hrows row (List.mem_append_left _ hrow))
          (hden l List.mem_cons_self)
      have hrest := ih (d := d + l.width) (fun l' hl' => hseal l' (List.mem_cons_of_mem _ hl'))
        (fun row hrow => hrows row (List.mem_append_right _ hrow))
        (fun l' hl' => hden l' (List.mem_cons_of_mem _ hl'))
      rw [sumRhs, LC.eval_append, hrest]
      by_cases hk : l.tableId = k
      · simp [hk, hl]
      · simp [hk]

end Blocks

/-! ## Blocks of the sealed system -/

theorem mem_tableRows {alpha beta : Nat} {rhs : Nat → LC} {row : R1C} {p : TablePlace} :
    ∀ {ps : List TablePlace} {k j : Nat}, ps[j]? = some p → row ∈ p.rows alpha beta (rhs (k + j)) →
      row ∈ tableRows alpha beta rhs k ps := by
  intro ps
  induction ps with
  | nil => intro k j h; simp at h
  | cons q ps ih =>
      intro k j hj hrow
      cases j with
      | zero =>
          obtain rfl : q = p := by simpa using hj
          exact List.mem_append_left _ hrow
      | succ j =>
          have hj' : ps[j]? = some p := by simpa using hj
          have hk : k + (j + 1) = k + 1 + j := by omega
          exact List.mem_append_right _ (ih hj' (hk ▸ hrow))

/-! ## What `seal` accepts

That `seal` returned shows that every lookup has a width it knows.
-/

theorem sealLookup_sealable {alpha beta : Nat} {infos : List SealTable}
    {st st' : WitnessLayout × List R1C} {l : LookupConstraint}
    (h : sealLookup alpha beta infos st l = some st') : l.Sealable := by
  obtain ⟨tableId, elements, flag⟩ := l
  match elements with
  | [] => simp [sealLookup] at h
  | [key] => exact .inl rfl
  | [key, value] => exact .inr rfl
  | _ :: _ :: _ :: _ => simp [sealLookup] at h

theorem foldlM_sealLookup_sealable {alpha beta : Nat} {infos : List SealTable}
    {st' : WitnessLayout × List R1C} : ∀ {ls : List LookupConstraint}
    {st : WitnessLayout × List R1C}, ls.foldlM (sealLookup alpha beta infos) st = some st' →
    ∀ l ∈ ls, l.Sealable := by
  intro ls
  induction ls with
  | nil => intro st _ l hl; simp at hl
  | cons l₀ ls ih =>
      intro st h l hl
      rw [List.foldlM_cons, Option.bind_eq_bind, Option.bind_eq_some_iff] at h
      obtain ⟨st₁, h₁, h⟩ := h
      rcases List.mem_cons.mp hl with rfl | hl
      · exact sealLookup_sealable h₁
      · exact ih h l hl

theorem R1CGen.sealRows_sealable {g : R1CGen} {alpha beta : Nat} {layout : WitnessLayout}
    {infos : List SealTable} {r : R1CS} (h : g.sealRows alpha beta layout infos = some r) :
    ∀ l ∈ g.lookups, l.Sealable := by
  simp only [R1CGen.sealRows, Option.bind_eq_bind, Option.bind_eq_some_iff] at h
  obtain ⟨⟨layout', result'⟩, h, -⟩ := h
  exact foldlM_sealLookup_sealable h

/-- `seal` panics on a lookup of a width it does not know. -/
theorem R1CGen.sealable_of_seal {g : R1CGen} {r : R1CS} (hne : g.tables ≠ [])
    (h : g.seal = some r) : ∀ l ∈ g.lookups, l.Sealable := by
  have hnil : (initTables g.tables (.ofAlgebraic g.nextWitness)).1.isEmpty = false := by
    rw [initTables_eq, List.isEmpty_eq_false_iff, ← List.length_pos_iff, List.length_map,
      places, length_placeTables]
    exact List.length_pos_iff.mpr hne
  simp only [WitnessLayout.ofAlgebraic] at hnil
  simp only [R1CGen.seal, hnil, Bool.false_eq_true, if_false] at h
  split at h
  · exact sealRows_sealable h
  · exact sealRows_sealable h

/-- A sealed state with a table is the closed form. -/
theorem R1CGen.eq_sealed {g : R1CGen} {r : R1CS} (hne : g.tables ≠ [])
    (hids : g.LookupsInRange) (h : g.seal = some r) : r = g.sealed := by
  rw [g.seal_eq hne (sealable_of_seal hne h) hids] at h
  exact (Option.some.inj h).symm

/-- An assignment of a system: witness 0 is the constant one, and every row holds. -/
structure R1CS.Satisfied (r : R1CS) (w : Nat → Fr) : Prop where
  one : w 0 = 1
  rows : ∀ row ∈ r.constraints, row.Holds w

namespace R1CGen

/-- The denominators of the lookups and of the table entries are not zero. -/
structure Unexceptional (g : R1CGen) (w : Nat → Fr) : Prop where
  lookups : ∀ l ∈ g.lookups, w g.alpha - l.encode w g.beta ≠ 0
  entries : ∀ t ∈ g.tables, ∀ i < t.len, w g.alpha - t.encode w g.beta i ≠ 0

/-- The challenge section of the sealed system starts with `α`, and `β` follows where
there is a second challenge. -/
theorem challenges_sealed (g : R1CGen) :
    g.sealed.witnessLayout.challengesStart = g.alpha ∧
      (g.sealed.witnessLayout.challengesSize = 2 → g.beta = g.alpha + 1) := by
  refine ⟨by simp [sealed, sealedWitnessLayout, alpha, WitnessLayout.challengesStart,
    WitnessLayout.multiplicitiesEnd, WitnessLayout.multiplicitiesStart,
    WitnessLayout.algebraicEnd], fun h => ?_⟩
  have hwide : g.wide = true := by
    by_contra hw
    have hone : g.challengesSize = 1 := if_neg hw
    exact absurd (hone.symm.trans h) (by decide)
  rw [beta, hwide, if_pos rfl]

/-- The multiplicity witness of entry `i` of table `k`. -/
def multWit (g : R1CGen) (k i : Nat) : Nat := g.nextWitness + totalLen (g.tables.take k) + i

/-- The identity of table `k`. -/
theorem logup_table {g : R1CGen} {w : Nat → Fr} (hseal : ∀ l ∈ g.lookups, l.Sealable)
    (hsat : g.sealed.Satisfied w) (hden : g.Unexceptional w) {k : Nat} {t : Table}
    (hk : g.tables[k]? = some t) :
    ((g.lookups.filter fun l => l.tableId = k).map fun l =>
        l.flag.eval w / (w g.alpha - l.encode w g.beta)).sum
      = ((List.range t.len).map fun i =>
          w (g.multWit k i) / (w g.alpha - t.encode w g.beta i)).sum := by
  have htable : ∀ row ∈ (g.place k t).rows g.alpha g.beta (g.sumRhs k), row.Holds w := by
    intro row hrow
    have hmem := mem_tableRows (k := 0) (g.getElem?_places hk) (by rwa [Nat.zero_add])
    exact hsat.rows row (List.mem_append_left _ (List.mem_append_right _ hmem))
  have hlookups : ∀ row ∈ lookupRows g.alpha g.beta g.lookupsStart g.lookups, row.Holds w :=
    fun row hrow => hsat.rows row (List.mem_append_right _ hrow)
  have hentries := (g.place k t).sum_entries hsat.one htable
    (hden.entries t (List.mem_of_getElem? hk))
  rw [R1CGen.sumRhs, eval_sumRhs k hseal hlookups hden.lookups] at hentries
  exact hentries

theorem RunInv.lookupsInRange {calls : List LookupCall} {made : List (List Value)}
    {g : R1CGen} (h : RunInv calls made g) : g.LookupsInRange := by
  intro l hl
  obtain ⟨n, hn, rfl⟩ := List.getElem_of_mem hl
  have hn' : n < calls.length := h.answers.length_eq ▸ hn
  exact ((List.forall₂_iff_get.mp h.answers).2 n hn' hn).table.lt

/-- LogUp soundness of the sealed system.  After any run of the generator, in any
assignment that satisfies what `seal` returns and makes no denominator zero, the
lookups of every table and the entries of that table have the same sum of
quotients; and the lookups are those that were asked for, in order, each with its
own key, value and flag and under the one table its target names. -/
theorem seal_sound {calls : List LookupCall} {made : List (List Value)} {g : R1CGen}
    {r : R1CS} {w : Nat → Fr} (hrun : Run calls made g) (hseal : g.seal = some r)
    (hsat : r.Satisfied w) (hden : g.Unexceptional w) :
    (∀ k t, g.tables[k]? = some t →
      ((g.lookups.filter fun l => l.tableId = k).map fun l =>
          l.flag.eval w / (w g.alpha - l.encode w g.beta)).sum
        = ((List.range t.len).map fun i =>
            w (g.multWit k i) / (w g.alpha - t.encode w g.beta i)).sum) ∧
      List.Forall₂ g.Answers calls g.lookups := by
  refine ⟨fun k t hk => ?_, hrun.inv.answers⟩
  have hne : g.tables ≠ [] := by
    rintro hnil
    simp [hnil] at hk
  have hids := hrun.inv.lookupsInRange
  have hsat' : g.sealed.Satisfied w := eq_sealed hne hids hseal ▸ hsat
  exact logup_table (sealable_of_seal hne hseal) hsat' hden hk

/-- One witness, a range table and an array of one element: a byte is looked up before and after
the element. -/
def twoTables : R1CGen :=
  { constraints := [], tables := [.range 8, .ofElems [[(0, 2)]]],
    lookups := [⟨0, [[(0, 0)]], [(0, 1)]⟩, ⟨1, [[(0, 0)], [(0, 2)]], [(0, 1)]⟩,
      ⟨0, [[(0, 0)]], [(0, 1)]⟩],
    nextWitness := 1,
    tableIds := Function.update (Function.update (fun _ => none) 0 none) 0 (some 1),
    nextRc := 1 }

/-- The byte is zero, twice, and `α` is minus one. -/
def twoTablesAssignment : Nat → Fr
  | 0 => 1
  | 1 => 2
  | 257 => 1
  | 258 => -1
  | 259 => 1
  | 260 => -2
  | 516 => -2
  | 517 => 1
  | 518 => -1
  | 519 => -2
  | 520 => 1
  | 521 => -1
  | _ => 0

def twoTablesCalls : List LookupCall :=
  [⟨.rangecheck 8, [.const 0], .const 1⟩,
    ⟨.array (.array 0 [.const 2]), [.const 0, .const 2], .const 1⟩,
    ⟨.rangecheck 8, [.const 0], .const 1⟩]

theorem run_twoTables : Run twoTablesCalls [[.const 2]] twoTables := by
  have harray := Run.mkArray [.const 2] (Run.freshWitness Run.new)
  have hbyte := Run.lookup (.rangecheck 8) [.const 0] (.const 1) harray trivial rfl
  have helem := Run.lookup (.array (.array 0 [.const 2])) [.const 0, .const 2] (.const 1) hbyte
    rfl rfl
  exact Run.lookup (.rangecheck 8) [.const 0] (.const 1) helem trivial rfl

/-- The byte is counted in the first table, which has one column, and the element in the second,
which has two. -/
theorem seal_sound_twoTables :
    (∀ k t, twoTables.tables[k]? = some t →
      ((twoTables.lookups.filter fun l => l.tableId = k).map fun l =>
          l.flag.eval twoTablesAssignment
            / (twoTablesAssignment twoTables.alpha
                - l.encode twoTablesAssignment twoTables.beta)).sum
        = ((List.range t.len).map fun i =>
            twoTablesAssignment (twoTables.multWit k i)
              / (twoTablesAssignment twoTables.alpha
                  - t.encode twoTablesAssignment twoTables.beta i)).sum) ∧
      List.Forall₂ twoTables.Answers twoTablesCalls twoTables.lookups :=
  seal_sound run_twoTables
    (twoTables.seal_eq (by simp [twoTables])
      (by simp [twoTables, LookupConstraint.Sealable, LookupConstraint.width])
      (by simp [LookupsInRange, twoTables]))
    ⟨rfl, by decide +kernel⟩
    ⟨by decide +kernel, by decide +kernel⟩

end R1CGen

end Mavros
