/-
# `Mavros.VM.Witgen` — what phase 2 finds after phase 1

The vectors of phase 1 (`VmRel`) in the words of the loops of phase 2
(`Mavros.VM.Phase2Spec`): which entry a lookup hits, the multiplicities, and the
values in the rows of the tables.

The one fact about lookups as a whole is `sum_quot`: the inverses the lookups of a
table are given sum to the quotients of its entries, since a lookup that hits an
entry is counted there and nowhere else.

## What is proved

* `Hits.countable`: a lookup that hits an entry of its table can be counted.
* `sum_quot`: by induction over the lookups, each of which adds its inverse on the one side and one
  count, at one entry of one table, on the other.
* `Phase1Done.reads`: at the start of phase 2 each entry has the multiplicity and the value that the
  loops expect.

## How it goes

A counter of the witness belongs to one entry (`entry_of_counter`), since the sections of the tables
are one behind the other.  The machine counts its witnesses from the challenges on, the generator
from the constants; `vmPlace` is the place of a table on the machine's side.
-/
import Mavros.R1CGen.Scope
import Mavros.R1CGen.Soundness
import Mavros.VM.Phase2Spec

namespace Mavros

open Lib

/-! ## Which entry a lookup hits -/

/-- A lookup with a bit for a flag and, when that is one, an entry of its table. -/
def LookupConstraint.Hits (w : Nat → Fr) (tables : List Table) (l : LookupConstraint) : Prop :=
  l.flag.eval w = 0 ∨ l.flag.eval w = 1 ∧ ∃ t ∈ tables[l.tableId]?, ∃ i < t.len,
    l.key.eval w = i ∧ (t.width = 2 → l.value.eval w = (t.value i).eval w)

instance (w : Nat → Fr) (tables : List Table) :
    DecidablePred (LookupConstraint.Hits w tables) := fun _ =>
  inferInstanceAs (Decidable (_ ∨ _ ∧ _))

/-- Tables are one behind the other in the multiplicities too. -/
theorem totalLen_take_add_le {ts : List Table} {k k' : Nat} {t : Table} (hk : ts[k]? = some t)
    (h : k < k') : totalLen (ts.take k) + t.len ≤ totalLen (ts.take k') := by
  have hsucc : totalLen (ts.take (k + 1)) = totalLen (ts.take k) + t.len := by
    rw [List.take_add_one, hk, totalLen, List.map_append, List.sum_append]
    simp [totalLen]
  rw [← hsucc]
  exact VmRel.totalLen_le_of_prefix (List.take_prefix_take_left h)

/-- An entry is known by its counter. -/
theorem entry_of_counter {ts : List Table} {k k' i i' : Nat} {t t' : Table}
    (hk : ts[k]? = some t) (hk' : ts[k']? = some t') (hi : i < t.len) (hi' : i' < t'.len)
    (h : totalLen (ts.take k) + i = totalLen (ts.take k') + i') : k = k' ∧ i = i' := by
  rcases Nat.lt_trichotomy k k' with hlt | rfl | hlt
  · have := totalLen_take_add_le hk hlt
    omega
  · exact ⟨rfl, by omega⟩
  · have := totalLen_take_add_le hk' hlt
    omega

/-- An entry's counter is in the witness. -/
theorem totalLen_take_add_lt {ts : List Table} {k i : Nat} {t : Table} (hk : ts[k]? = some t)
    (hi : i < t.len) : totalLen (ts.take k) + i < totalLen ts := by
  have hlt := (List.getElem?_eq_some_iff.mp hk).1
  have hle := totalLen_take_add_le hk hlt
  rw [List.take_length] at hle
  omega

theorem lowU64_natCast {i : Nat} (hi : i < 2 ^ 64) : lowU64 (i : Fr) = i := by
  have hmod : (2 : Nat) ^ 64 < modulus := by decide
  rw [lowU64, ZMod.val_natCast, Nat.mod_eq_of_lt (Nat.lt_trans hi hmod), Nat.mod_eq_of_lt hi]

theorem natCast_ne_zero {n : Nat} (hn : 0 < n) (h : n < 2 ^ 64) : (n : Fr) ≠ 0 := by
  have hmod : (2 : Nat) ^ 64 < modulus := by decide
  intro hzero
  have hdvd := (ZMod.natCast_eq_zero_iff n modulus).mp hzero
  exact absurd (Nat.le_of_dvd hn hdvd) (by omega)

section Counting

variable {w : Nat → Fr} {G : R1CGen} {l : LookupConstraint}

/-- Where a lookup that hits entry `i` of its table is counted. -/
theorem counter_eq {i : Nat} (hkey : l.key.eval w = i) (hi : i < 2 ^ 64) :
    l.counter w G = G.nextWitness + totalLen (G.tables.take l.tableId) + i := by
  rw [LookupConstraint.counter, counterOf, hkey, lowU64_natCast hi]

/-- What hits can be counted. -/
theorem LookupConstraint.Hits.countable (h : l.Hits w G.tables)
    (hsize : totalLen G.tables < 2 ^ 64) : l.Countable w G := by
  refine h.imp_right fun ⟨hf, t, ht, i, hi, hkey, _⟩ => ⟨hf, ?_⟩
  have hlt := totalLen_take_add_lt ht hi
  rw [counter_eq hkey (by omega)]
  omega

end Counting

/-! ## The data of phase 2 -/

namespace R1CGen

/-- What phase 2 finds after the program ran under `w`. -/
def tableData (G : R1CGen) (w : Nat → Fr) (challenges : List Fr) : Phase2.TableData :=
  { alpha := challenges.getD 0 0
    beta := challenges.getD 1 0
    mult := fun p i => (counted w G G.lookups (p.mult + i) : Fr)
    value := fun p i => (p.table.value i).eval w }

/-- Table `k` where the machine has it: its witnesses are counted from the challenges on. -/
def vmPlace (G : R1CGen) (cs k : Nat) (t : Table) : TablePlace :=
  ⟨t, G.nextWitness + totalLen (G.tables.take k), cs + totalWit (G.tables.take k),
    G.constraints.length + totalRows (G.tables.take k)⟩

def vmPlaces (G : R1CGen) (cs : Nat) : List TablePlace :=
  placeTables G.nextWitness cs G.constraints.length G.tables

theorem getElem?_vmPlaces {G : R1CGen} (cs : Nat) {k : Nat} {t : Table}
    (h : G.tables[k]? = some t) :
    (G.vmPlaces cs)[k]? = some (G.vmPlace cs k t) := getElem?_placeTables h

theorem mem_vmPlaces {G : R1CGen} {cs : Nat} {p : TablePlace} (h : p ∈ G.vmPlaces cs) :
    ∃ k t, G.tables[k]? = some t ∧ p = G.vmPlace cs k t := by
  obtain ⟨k, hk, rfl⟩ := List.getElem_of_mem h
  have hk' : k < G.tables.length := by simpa [vmPlaces] using hk
  have hget := getElem?_vmPlaces cs (List.getElem?_eq_getElem hk')
  rw [List.getElem?_eq_getElem hk] at hget
  exact ⟨k, _, List.getElem?_eq_getElem hk', Option.some.inj hget⟩

end R1CGen

section Sums

variable {w : Nat → Fr} {G : R1CGen} {challenges : List Fr} {cs : Nat}

/-- A lookup that hits an entry has the entry's denominator. -/
theorem denomOf_eq (challenges : List Fr) (cs : Nat) {l : LookupConstraint} {t : Table} {i : Nat}
    (hwidth : t.width = l.width)
    (hkey : l.key.eval w = i) (hvalue : t.width = 2 → l.value.eval w = (t.value i).eval w) :
    (G.tableData w challenges).denomOf w l
      = (G.tableData w challenges).denom (G.vmPlace cs l.tableId t) i := by
  have htable : (G.vmPlace cs l.tableId t).table = t := rfl
  rw [Phase2.TableData.denomOf, Phase2.TableData.denom, htable, hkey, ← hwidth]
  rcases t.width_eq with h | h
  · rw [if_pos h, if_pos h]
  · have h' : ¬t.width = 1 := by rw [h]; decide
    rw [if_neg h', if_neg h', hvalue h]
    rfl

/-- The inverses the lookups of a table are given sum to the quotients of its entries,
each counted as often as it is hit. -/
theorem sum_quot {k : Nat} {t : Table} (hk : G.tables[k]? = some t)
    (hsize : totalLen G.tables < 2 ^ 64) : ∀ {ls : List LookupConstraint},
      (∀ l ∈ ls, l.Hits w G.tables) →
      (∀ l ∈ ls, ∀ t, G.tables[l.tableId]? = some t → t.width = l.width) →
      ((ls.filter fun l => l.tableId = k).map ((G.tableData w challenges).quot w)).sum
        = ((List.range t.len).map fun i =>
            (counted w G ls ((G.vmPlace cs k t).mult + i) : Fr)
              * ((G.tableData w challenges).denom (G.vmPlace cs k t) i)⁻¹).sum := by
  intro ls
  induction ls with
  | nil =>
      intro _ _
      simp [counted]
  | cons l ls ih =>
      intro hhits hwidths
      have hrest := ih (fun l' hl' => hhits l' (List.mem_cons_of_mem _ hl'))
        fun l' hl' => hwidths l' (List.mem_cons_of_mem _ hl')
      have hcons : ∀ i, counted w G (l :: ls) i
          = counted w G ls i + if l.flag.eval w = 1 ∧ l.counter w G = i then 1 else 0 := by
        intro i
        simp only [counted, List.countP_cons, decide_eq_true_eq]
      -- a lookup that is counted at no entry of this table adds nothing on either side
      have hskip : (l.tableId = k → (G.tableData w challenges).quot w l = 0) →
          (∀ i < t.len, ¬(l.flag.eval w = 1 ∧ l.counter w G = (G.vmPlace cs k t).mult + i)) →
          (((l :: ls).filter fun l => l.tableId = k).map
              ((G.tableData w challenges).quot w)).sum
            = ((List.range t.len).map fun i =>
                (counted w G (l :: ls) ((G.vmPlace cs k t).mult + i) : Fr)
                  * ((G.tableData w challenges).denom (G.vmPlace cs k t) i)⁻¹).sum := by
        intro hquot hno
        have hright : (List.range t.len).map (fun i =>
              (counted w G (l :: ls) ((G.vmPlace cs k t).mult + i) : Fr)
                * ((G.tableData w challenges).denom (G.vmPlace cs k t) i)⁻¹)
            = (List.range t.len).map fun i =>
              (counted w G ls ((G.vmPlace cs k t).mult + i) : Fr)
                * ((G.tableData w challenges).denom (G.vmPlace cs k t) i)⁻¹ := by
          refine List.map_congr_left fun i hi => ?_
          rw [hcons, if_neg (hno i (List.mem_range.mp hi)), Nat.add_zero]
        rw [hright, ← hrest]
        by_cases hid : l.tableId = k
        · rw [List.filter_cons_of_pos (by simpa using hid), List.map_cons, List.sum_cons,
            hquot hid, zero_add]
        · rw [List.filter_cons_of_neg (by simpa using hid)]
      rcases hhits l List.mem_cons_self with hf | ⟨hf, t', ht', i₀, hi₀, hkey, hvalue⟩
      · have hne : ¬l.flag.eval w = 1 := by rw [hf]; decide
        exact hskip (fun _ => if_neg hne) fun i _ h => hne h.1
      · have hlt := totalLen_take_add_lt ht' hi₀
        have hcounter := counter_eq (G := G) hkey (by omega)
        by_cases hid : l.tableId = k
        · subst hid
          obtain rfl := Option.some.inj (hk.symm.trans ht')
          have hdenom := denomOf_eq (G := G) challenges cs
            (hwidths l List.mem_cons_self t hk) hkey hvalue
          have hright : (List.range t.len).map (fun i =>
                (counted w G (l :: ls) ((G.vmPlace cs l.tableId t).mult + i) : Fr)
                  * ((G.tableData w challenges).denom (G.vmPlace cs l.tableId t) i)⁻¹)
              = (List.range t.len).map fun i =>
                (counted w G ls ((G.vmPlace cs l.tableId t).mult + i) : Fr)
                    * ((G.tableData w challenges).denom (G.vmPlace cs l.tableId t) i)⁻¹
                  + if i₀ = i then (G.tableData w challenges).quot w l else 0 := by
            refine List.map_congr_left fun i _ => ?_
            have hiff : (l.flag.eval w = 1 ∧
                l.counter w G = (G.vmPlace cs l.tableId t).mult + i) ↔ i₀ = i := by
              rw [hcounter]
              show _ ∧ G.nextWitness + totalLen (G.tables.take l.tableId) + i₀
                = G.nextWitness + totalLen (G.tables.take l.tableId) + i ↔ _
              constructor
              · rintro ⟨-, h⟩
                omega
              · rintro rfl
                exact ⟨hf, rfl⟩
            rw [hcons, if_congr hiff rfl rfl]
            split_ifs with h
            · subst h
              rw [Phase2.TableData.quot, if_pos hf, hdenom]
              push_cast
              ring
            · rw [Nat.add_zero, add_zero]
          rw [hright, sum_map_range_update _ _ hi₀, ← hrest,
            List.filter_cons_of_pos (by simp), List.map_cons, List.sum_cons]
        · refine hskip (fun h => absurd h hid) fun i hi hhit => hid ?_
          have h := hhit.2
          rw [hcounter] at h
          have h' : totalLen (G.tables.take l.tableId) + i₀
              = totalLen (G.tables.take k) + i := by
            have : G.nextWitness + totalLen (G.tables.take l.tableId) + i₀
              = G.nextWitness + totalLen (G.tables.take k) + i := h
            omega
          exact (entry_of_counter ht' hk hi₀ hi h').1

end Sums

/-! ## Phase 2, from the vectors of phase 1

The relation at the end of a run, and what it says row by row.
-/

/-- The state phase 2 starts from. -/
def Phase2.start (v : FwdVm) (challenges : List Fr) : Phase2 :=
  { outA := v.outA, outB := v.outB, outC := v.outC, witPostComm := fun i => challenges.getD i 0 }

/-- Phase 1 is done, in the layout of the sealed system, and every lookup hits. -/
structure Phase1Done (w : Nat → Fr) (G : R1CGen) (r : R1CS) (v : FwdVm) : Prop where
  vm : VmRel.Synced w G r.witnessLayout.challengesSize G v
  wellFormed : G.WellFormed
  sizes : SealedSizes G r
  small : r.constraints.length < 2 ^ 64
  hits : ∀ l ∈ G.lookups, l.Hits w G.tables

theorem totalLen_le_totalRows (ts : List Table) : totalLen ts ≤ totalRows ts := by
  induction ts with
  | nil => exact Nat.le_refl _
  | cons t ts ih =>
      have ht : t.len ≤ t.rowCount := by
        rcases t.width_eq with h | h <;> rw [Table.rowCount, h] <;> omega
      simp only [totalLen, totalRows, List.map_cons, List.sum_cons] at ih ⊢
      omega

namespace Phase1Done

variable {w : Nat → Fr} {G : R1CGen} {r : R1CS} {v : FwdVm} (h : Phase1Done w G r v)
  (challenges : List Fr)

include h

theorem totalLen_lt : totalLen G.tables < 2 ^ 64 := by
  have hlen := h.sizes.length
  have hsmall := h.small
  have := totalLen_le_totalRows G.tables
  omega

theorem length_tables_lt : G.tables.length < 2 ^ 64 := by
  have hlen := h.sizes.length
  have hsmall := h.small
  have := length_le_totalRows G.tables
  omega

theorem length_lookups_lt : G.lookups.length < 2 ^ 64 := by
  have hlen := h.sizes.length
  have hsmall := h.small
  have := length_le_totalWidth h.wellFormed.sealable
  omega

theorem lookupsDataStart_eq :
    r.constraintsLayout.lookupsDataStart = G.constraints.length + totalRows G.tables := by
  rw [← h.sizes.constraints, ← h.sizes.tables]
  rfl

/-- The sections of a table lie in the sections of the tables. -/
theorem place_section {p : TablePlace} (hp : p ∈ G.vmPlaces r.witnessLayout.challengesSize) :
    G.constraints.length ≤ p.cnst ∧
      p.cnst + p.table.rowCount ≤ r.constraintsLayout.lookupsDataStart ∧
      r.witnessLayout.challengesSize ≤ p.wit ∧
      p.wit + p.table.witCount ≤ r.witnessLayout.challengesSize + totalWit G.tables := by
  obtain ⟨k, t, hk, rfl⟩ := G.mem_vmPlaces hp
  have hsplit : G.tables = G.tables.take k ++ t :: G.tables.drop (k + 1) := by
    obtain ⟨hlt, rfl⟩ := List.getElem?_eq_some_iff.mp hk
    rw [List.getElem_cons_drop, List.take_append_drop]
  have hrows : totalRows (G.tables.take k) + t.rowCount ≤ totalRows G.tables := by
    conv_rhs => rw [hsplit]
    simp only [totalRows, List.map_append, List.map_cons, List.sum_append, List.sum_cons]
    omega
  have hwits : totalWit (G.tables.take k) + t.witCount ≤ totalWit G.tables := by
    conv_rhs => rw [hsplit]
    simp only [totalWit, List.map_append, List.map_cons, List.sum_append, List.sum_cons]
    omega
  rw [h.lookupsDataStart_eq]
  refine ⟨Nat.le_add_right _ _, ?_, Nat.le_add_right _ _, ?_⟩
  · show G.constraints.length + totalRows (G.tables.take k) + t.rowCount ≤ _
    omega
  · show r.witnessLayout.challengesSize + totalWit (G.tables.take k) + t.witCount ≤ _
    omega

theorem counted_lt (i : Nat) : counted w G G.lookups i < 2 ^ 64 :=
  Nat.lt_of_le_of_lt (VmRel.counted_le w G G.lookups i) h.length_lookups_lt

/-- The multiplicities, as `fix_multiplicities_section` leaves them. -/
theorem multiplicity {k i : Nat} {t : Table} (hk : G.tables[k]? = some t) (hi : i < t.len) :
    (fixMultiplicitiesSection v.witPreComm r.witnessLayout
        ((G.vmPlace r.witnessLayout.challengesSize k t).mult + i)).toFr
      = (G.tableData w challenges).mult (G.vmPlace r.witnessLayout.challengesSize k t) i := by
  have hlt := totalLen_take_add_lt hk hi
  have hstart : r.witnessLayout.multiplicitiesStart = G.nextWitness := h.sizes.algebraic
  have hend : r.witnessLayout.multiplicitiesEnd = G.nextWitness + totalLen G.tables := by
    rw [← h.sizes.algebraic, ← h.sizes.multiplicities]
    rfl
  have hmult : (G.vmPlace r.witnessLayout.challengesSize k t).mult
      = G.nextWitness + totalLen (G.tables.take k) := rfl
  rw [fixMultiplicitiesSection, hstart, hend, hmult, if_pos (by omega), Cell.toFr_ofFr,
    h.vm.counters _ (by omega), Cell.limb0, Nat.mod_eq_of_lt (h.counted_lt _)]
  rfl

theorem reads {p : TablePlace} {i : Nat} (hp : p ∈ G.vmPlaces r.witnessLayout.challengesSize)
    (hi : i < p.table.len) :
    Phase2.Reads (G.tableData w challenges)
      (fixMultiplicitiesSection v.witPreComm r.witnessLayout) p i
      (Phase2.start v challenges) := by
  obtain ⟨k, t, hk, rfl⟩ := G.mem_vmPlaces hp
  refine ⟨h.multiplicity challenges hk hi, fun hw => ?_⟩
  have hcontents := (h.vm.tablesMatch h.wellFormed h.sizes h.length_tables_lt).contents k t hk hw
    i hi
  have hrow : (G.vmPlace r.witnessLayout.challengesSize k t).xRow i
      = G.constraints.length + totalRows (G.tables.take k) + 2 * i := by
    rw [TablePlace.xRow, hw]
    rfl
  rw [hrow]
  exact hcontents

end Phase1Done

end Mavros
