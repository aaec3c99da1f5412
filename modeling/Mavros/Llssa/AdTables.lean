/-
# `Mavros.Llssa.AdTables` — the tables of the derivative pass

A table adds its rows when it is first used.  The helpers add them in another order and
keep where the table starts; what the outputs and the nodes hold afterwards is the same.

## What is proved

`drngchk8Table_agrees`, `dspreadTable_agrees`, `darrayTable_agrees`: on its first use and later, a
table of each kind leaves states in step, and the first row the helper works with is that of the
machine's table.

For the machine alone: no offset goes back (`Grows`), and what is known of tables stays known.

## How it goes

Both sides add the same multiples of coefficients, row by row.  The helper adds a row's share of the
sum with the row, the machine adds the shares after all rows; `bumps_keyValueRows` says that this
makes no difference, for additions to outputs may change places.  The table of an array is the
longest: the memories of the two sides differ in their `table_id` words while it is made, and the
leaves the machine visits have to be the elements that the helper reads (`leaves_of_holdsElems`).
-/
import Mavros.Llssa.AdRelation

namespace Mavros.Llssa

open Lib

/-! ## Tables of the helpers -/

section Tables

variable {wl : WitnessLayout} {cl : ConstraintsLayout} {v v' : AdVm} {s : AdVmLl}

/-- The additions of some writes. -/
theorem AdVmLl.write_eq {m m' : Mem} {g : Ptr → Option Nat → Option Nat} {ws : List AdWrite}
    {bs : List Bump} (hmem : s.mem = m.retag g) (hfit : IndicesFit m)
    (hws : ws.map AdWrite.toBump = bs) (hrun : m.bumps bs = some m') :
    s.write ws = some { s with mem := m'.retag g } := by
  rw [AdVmLl.write, hmem, adWrites_retag hfit hws, hrun]
  rfl

theorem map_toBump_flatMap {rows : Nat → List AdWrite} {rows' : Nat → List Bump} :
    ∀ (is : List Nat), (∀ i ∈ is, (rows i).map AdWrite.toBump = rows' i) →
      (is.flatMap rows).map AdWrite.toBump = is.flatMap rows' := by
  intro is hrows
  rw [List.map_flatMap]
  exact List.flatMap_congr hrows

/-- The range table, on first use and later. -/
theorem drngchk8Table_agrees {k : Nat} (h : AdAgrees v s) (hknown : AdKnown wl cl v)
    (hchal : v.logupWitChallengeOff + 1 < 2 ^ 32) (hrun : v.drngchk8Table = some (k, v'))
    (hfits : AdFits v') :
    ∃ s' t, s.drngchk8Region wl = some (t.elemInversesConstraintSectionOffset, s') ∧
      v'.tables[k]? = some t ∧ AdAgrees v' s' := by
  cases hid : v.rgchk8 with
  | some id =>
    rw [AdVm.drngchk8Table, hid] at hrun
    obtain ⟨rfl, rfl⟩ := Prod.mk.inj (Option.some.inj hrun)
    obtain ⟨t, ht, -, hglobal, hsub⟩ := sub32_snapshot (hknown.rngchk8 id hid) hfits.cnstTables
    have hload : s.drngchk8InvCnstOff = t.elemInversesConstraintSectionOffset + 1 := by
      rw [h.rngchk8, hid, hglobal]
    refine ⟨s, t, ?_, ht, h⟩
    rw [AdVmLl.drngchk8Region, hload, if_neg (Nat.succ_ne_zero _), hsub]
  | none =>
    rw [AdVm.drngchk8Table, hid] at hrun
    obtain ⟨mem, hmem, hrun⟩ := Option.bind_eq_some_iff.mp hrun
    obtain ⟨rfl, rfl⟩ := Prod.mk.inj (Option.some.inj hrun)
    have hroom : AdRoom .rangecheck8 v :=
      .of_fits .rangecheck8
        ⟨hfits.wit, hfits.mults, hfits.witTables, hfits.witLookups, hfits.cnstTables,
          hfits.cnstLookups⟩ hchal
    have hcnst : v.currentCnstTablesOff + 257 < 2 ^ 32 := hroom.cnstTables
    have hsum : s.coeffs (add32 s.currentCnstTablesOff 256)
        = v.adCoeffs (v.currentCnstTablesOff + 256) := by
      rw [h.coeffs, h.cnstTablesOff, add32, i32_of_lt (by omega)]
    have hws : ((List.range 256).flatMap
          (s.rngchk8AdRow wl (s.coeffs (add32 s.currentCnstTablesOff 256)))
        ++ [AdWrite.const .b 1 (s.coeffs (add32 s.currentCnstTablesOff 256))]).map AdWrite.toBump
          = (List.range 256).flatMap (v.rngchk8Row (v.adCoeffs (v.currentCnstTablesOff + 256)))
            ++ [.out .b 0 (v.adCoeffs (v.currentCnstTablesOff + 256))] := by
      rw [hsum, List.map_append, List.map_singleton, AdWrite.toBump_const, one_mul,
        map_toBump_flatMap _ fun i hi =>
          rngchk8AdRow_eq h hknown.challenge hroom _ (List.mem_range.mp hi)]
    have hpush := h.push .rangecheck8 hknown hroom
    let s' : AdVmLl :=
      { s.claimAdLookupTableRegion .rangecheck8 with
        drngchk8InvCnstOff := add32 s.currentCnstTablesOff 1
        mem := mem.retag fun _ => snapshotOf v.tables }
    have hinit : s.rngchk8AdInit wl = some s' := by
      unfold AdVmLl.rngchk8AdInit
      exact AdVmLl.write_eq (m := v.mem) h.mem (hknown.indicesFit hfits.wit) hws hmem
    have hload : s.drngchk8InvCnstOff = 0 := by
      rw [h.rngchk8, hid]
      rfl
    obtain ⟨t, ht, -, hrow⟩ := getElem?_pushed_last .rangecheck8 v
    refine ⟨s', t, ?_, ht, ?_⟩
    · rw [AdVmLl.drngchk8Region, if_pos hload, hinit, hrow, h.cnstTablesOff]
      rfl
    · exact { hpush with
        mem := retag_pushed .rangecheck8 hknown (Mem.bumps_sameShape _ hmem)
        rngchk8 := by
          show add32 s.currentCnstTablesOff 1 = (snapshotOf (pushed .rangecheck8 v).tables
            (some v.tables.length)).getD 0
          rw [snapshotOf_some ht, hrow, h.cnstTablesOff, add32, i32_of_lt (by omega)]
          rfl }

/-- The rows of a key-value table, and the one of its sum. -/
theorem keyValueTable_writes {emitValueDb : Nat → Fr → AdWrite} {value : Nat → Fr → Bump}
    (spec : LookupTableSpec) (hspec : spec.keyValue = true) (h : AdAgrees v s)
    (hchallenge : v.logupWitChallengeOff = wl.challengesStart) (hroom : AdRoom spec v)
    (hvalue : ∀ i < spec.length, ∀ x, (emitValueDb i x).toBump = value i x) {sumCoeff sum : Fr}
    (hsum : sumCoeff = sum) :
    ((List.range spec.length).flatMap (fun i => s.keyValueAdRow wl sumCoeff (emitValueDb i) i)
        ++ [AdWrite.const .b 1 sumCoeff]).map AdWrite.toBump
      = (List.range spec.length).flatMap (fun i => v.keyValueRows (value i) i
          ++ [.out .a (v.currentWitTablesOff + 2 * i + 1) sum]) ++ [.out .b 0 sum] := by
  subst hsum
  rw [List.map_append, List.map_singleton, AdWrite.toBump_const, one_mul, map_toBump_flatMap]
  intro i hi
  have hlt := List.mem_range.mp hi
  exact keyValueAdRow_eq spec hspec h hchallenge hroom (hvalue i hlt) sumCoeff hlt

/-- Both read the coefficient of a table's sum in the row after its keys. -/
theorem invSumCoeff_eq {off : Nat} (spec : LookupTableSpec) (hspec : spec.keyValue = true)
    (h : AdAgrees v s) (hoff : off + spec.sumConstraintOffset < 2 ^ 32) :
    s.invSumCoeff off spec = v.adCoeffs (off + 2 * spec.length) := by
  have hsum : spec.sumConstraintOffset = 2 * spec.length := if_pos hspec
  rw [hsum] at hoff
  rw [AdVmLl.invSumCoeff, h.coeffs, hsum, i32_of_lt (show 2 * spec.length < 2 ^ 32 by omega), add32,
    i32_of_lt hoff]

/-- The spread table of a width, on first use and later. -/
theorem dspreadTable_agrees {bits k : Nat} (hbits : bits ≤ 16) (h : AdAgrees v s)
    (hknown : AdKnown wl cl v) (hchal : v.logupWitChallengeOff + 1 < 2 ^ 32)
    (hrun : v.dspreadTable bits = some (k, v')) (hfits : AdFits v') :
    ∃ s' t, s.dspreadRegion wl bits = some (t.elemInversesConstraintSectionOffset, s') ∧
      v'.tables[k]? = some t ∧ AdAgrees v' s' := by
  obtain ⟨table, hget, hrun⟩ := Option.bind_eq_some_iff.mp hrun
  have hglobal := h.spread bits table hget
  cases table with
  | some id =>
    obtain ⟨rfl, rfl⟩ := Prod.mk.inj (Option.some.inj hrun)
    obtain ⟨t, ht, -, hsnap, hsub⟩ := sub32_snapshot (hknown.spread bits id hget) hfits.cnstTables
    rw [hsnap] at hglobal
    refine ⟨s, t, ?_, ht, h⟩
    rw [AdVmLl.dspreadRegion, hglobal, if_neg (Nat.succ_ne_zero _), hsub]
  | none =>
    obtain ⟨mem, hmem, hrun⟩ := Option.bind_eq_some_iff.mp hrun
    obtain ⟨rfl, rfl⟩ := Prod.mk.inj (Option.some.inj hrun)
    have hroom : AdRoom (.spread bits) v :=
      .of_fits (.spread bits)
        ⟨hfits.wit, hfits.mults, hfits.witTables, hfits.witLookups, hfits.cnstTables,
          hfits.cnstLookups⟩ hchal
    have hcnst : v.currentCnstTablesOff + (2 * 2 ^ bits + 1) < 2 ^ 32 := hroom.cnstTables
    have hsum : s.invSumCoeff s.currentCnstTablesOff (.spread bits)
        = v.adCoeffs (v.currentCnstTablesOff + 2 * 2 ^ bits) := by
      rw [h.cnstTablesOff]
      refine invSumCoeff_eq (.spread bits) rfl h ?_
      show v.currentCnstTablesOff + 2 * 2 ^ bits < 2 ^ 32
      omega
    have hvalue : ∀ i < 2 ^ bits, ∀ x : Fr,
        (AdWrite.const .b (compileSpreadBits bits (2 * bits) (i % 2 ^ bits) : Nat) x).toBump
          = .out .b 0 (x * vmSpreadBits i) := by
      intro i hi x
      rw [AdWrite.toBump_const, Nat.mod_eq_of_lt hi, compileSpreadBits_eq hbits hi, mul_comm]
    have hws := keyValueTable_writes (.spread bits) rfl h hknown.challenge hroom hvalue hsum
    have hpush := h.push (.spread bits) hknown hroom
    let s' : AdVmLl :=
      { s.claimAdLookupTableRegion (.spread bits) with
        dspreadInvCnstOff :=
          Function.update s.dspreadInvCnstOff bits (add32 s.currentCnstTablesOff 1)
        mem := mem.retag fun _ => snapshotOf v.tables }
    have hinit : s.spreadAdInit wl bits = some s' := by
      unfold AdVmLl.spreadAdInit
      exact AdVmLl.write_eq (m := v.mem) h.mem (hknown.indicesFit hfits.wit) hws hmem
    have hload : s.dspreadInvCnstOff bits = 0 := hglobal
    obtain ⟨t, ht, -, hrow⟩ := getElem?_pushed_last (.spread bits) v
    refine ⟨s', t, ?_, ht, ?_⟩
    · rw [AdVmLl.dspreadRegion, if_pos hload, hinit, hrow, h.cnstTablesOff]
      rfl
    · exact { hpush with
        mem := retag_pushed (.spread bits) hknown (Mem.bumps_sameShape _ hmem)
        spread := by
          intro bits' table' htable'
          change (v.spreadTables.set bits (some v.tables.length))[bits']? = some table' at htable'
          show Function.update s.dspreadInvCnstOff bits (add32 s.currentCnstTablesOff 1) bits'
            = (snapshotOf (pushed (.spread bits) v).tables table').getD 0
          by_cases hb : bits' = bits
          · subst hb
            rw [List.getElem?_set_self (List.getElem?_eq_some_iff.mp hget).1] at htable'
            obtain rfl := Option.some.inj htable'
            rw [Function.update_self, snapshotOf_some ht, hrow, h.cnstTablesOff, add32,
              i32_of_lt (by omega)]
            rfl
          · rw [List.getElem?_set_ne (Ne.symm hb)] at htable'
            rw [Function.update_of_ne hb]
            exact hpush.spread bits' table' htable' }

end Tables

/-! ## The table of an array

Leaves are scalars in place or nodes, by the type of the array.
-/

section Arrays

variable {wl : WitnessLayout} {cl : ConstraintsLayout} {v v' : AdVm} {s : AdVmLl} {heap : Heap}

/-- What a leaf adds: a multiple of a scalar, or a bump of a node. -/
def emitLeafDb (leaf : PrimElem ⊕ Ptr) (coeff : Fr) : AdWrite :=
  match leaf with
  | .inl e => .const .b e.toFr coeff
  | .inr p => .bump .b p coeff

theorem toBump_emitLeafDb (leaf : PrimElem ⊕ Ptr) (x : Fr) :
    (emitLeafDb leaf x).toBump = AdVm.lookupElemBumpDb leaf x := by
  rcases leaf with (n | y) | p
  · exact congrArg (Bump.out .b 0) (mul_comm _ _)
  · exact congrArg (Bump.out .b 0) (mul_comm _ _)
  · rfl

/-- The leaves of an array of scalars. -/
theorem leaves_of_scalars {elemType : ElemType} {arr : Ptr} {c : Counted Obj}
    {elems : List PrimElem}
    (hc : heap.get? arr = some c) (hpayload : c.val.payload = .primArray elems)
    (helems : ∀ e ∈ elems, elemType.Holds e) :
    forEachArrayLeaf heap heap.length arr = some (elems.map .inl) ∧
      ∀ i < (elems.map (Sum.inl (β := Ptr))).length,
        AdVmLl.adBumpLookupElemDb elemType (.primArray elems) i
          = some (emitLeafDb ((elems.map .inl).getD i (.inr 0))) := by
  obtain ⟨fuel, hfuel⟩ := Nat.exists_eq_add_of_lt (Store.lt_length_of_get? hc)
  constructor
  · rw [hfuel, forEachArrayLeaf, hc]
    simp only [Option.bind_eq_bind, Option.bind_some, hpayload]
  · intro i hi
    rw [List.length_map] at hi
    have hleaf : (elems.map (Sum.inl (β := Ptr))).getD i (.inr 0) = .inl elems[i] := by simp [hi]
    have hvalue : (elems.map PrimElem.toFr).getD i 0 = elems[i].toFr := by simp [hi]
    have hload := loadPureLookupElemAsField_eq helems hi
    rw [hvalue] at hload
    rw [hleaf]
    have hread := congrArg (fun value => value.bind fun x => some fun coeff =>
      AdWrite.const .b x coeff) hload
    cases elemType with
    | witness => exact absurd (helems _ (List.getElem_mem hi)) (by cases elems[i] <;> exact id)
    | field => exact hread
    | int bits => exact hread

/-- The leaves of an array of nodes. -/
theorem leaves_of_nodes {arr : Ptr} {c : Counted Obj} {elems : List Ptr}
    (hc : heap.get? arr = some c) (hpayload : c.val.payload = .boxedArray elems)
    (helems : ∀ e ∈ elems, ∃ d, heap.get? e = some d ∧ d.val.payload.isArray = false) :
    forEachArrayLeaf heap heap.length arr = some (elems.map .inr) ∧
      ∀ i < (elems.map (Sum.inr (α := PrimElem))).length,
        AdVmLl.adBumpLookupElemDb .witness (.boxedArray elems) i
          = some (emitLeafDb ((elems.map .inr).getD i (.inr 0))) := by
  obtain ⟨fuel, hfuel⟩ := Nat.exists_eq_add_of_lt (Store.lt_length_of_get? hc)
  constructor
  · rw [hfuel, forEachArrayLeaf, hc]
    have hparts : (elems.mapM fun q => do
        let d ← heap.get? q
        if d.val.payload.isArray then forEachArrayLeaf heap (arr + fuel) q else some [.inr q])
          = some (elems.map fun q => [Sum.inr (α := PrimElem) q]) := by
      rw [mapM_eq_some, List.forall₂_map_right_iff, List.forall₂_same]
      intro q hq
      obtain ⟨d, hd, hnode⟩ := helems q hq
      simp [hd, hnode]
    simp only [Option.bind_eq_bind] at hparts
    simp only [Option.bind_eq_bind, Option.bind_some, hpayload, hparts, Option.pure_def]
    rw [← List.flatMap_def, List.map_eq_flatMap]
  · intro i hi
    rw [List.length_map] at hi
    have hleaf : (elems.map (Sum.inr (α := PrimElem))).getD i (.inr 0) = .inr elems[i] := by
      simp [hi]
    rw [hleaf, AdVmLl.adBumpLookupElemDb, List.getElem?_eq_getElem hi]
    rfl

/-- The leaves that the machine visits are the elements that the helper reads. -/
theorem leaves_of_holdsElems {elemType : ElemType} {arr : Ptr} {c : Counted Obj}
    (hc : heap.get? arr = some c) (helems : HoldsElems heap elemType c.val.payload) :
    ∃ leaves : List (PrimElem ⊕ Ptr), forEachArrayLeaf heap heap.length arr = some leaves ∧
      leaves.length = c.val.payload.arraySize ∧
      ∀ i < leaves.length, AdVmLl.adBumpLookupElemDb elemType c.val.payload i
        = some (emitLeafDb (leaves.getD i (.inr 0))) := by
  cases hpayload : c.val.payload with
  | primArray elems =>
    rw [hpayload] at helems
    have hholds : ∀ e ∈ elems, elemType.Holds e := by
      cases elemType <;> exact helems
    obtain ⟨hleaves, hemit⟩ := leaves_of_scalars hc hpayload hholds
    exact ⟨_, hleaves, List.length_map _, hemit⟩
  | boxedArray elems =>
    rw [hpayload] at helems
    cases elemType with
    | witness =>
      obtain ⟨hleaves, hemit⟩ := leaves_of_nodes hc hpayload helems
      exact ⟨_, hleaves, List.length_map _, hemit⟩
    | field => exact absurd helems id
    | int bits => exact absurd helems id
  | _ =>
    rw [hpayload] at helems
    exact absurd helems (by cases elemType <;> exact id)

theorem adWrites_append (ws ws' : List AdWrite) (m : Mem) :
    adWrites (ws ++ ws') m = (adWrites ws m).bind fun m => adWrites ws' m :=
  List.foldlM_append ..

theorem AdVmLl.write_append (ws ws' : List AdWrite) (s : AdVmLl) :
    (s.write ws).bind (fun s => s.write ws') = s.write (ws ++ ws') := by
  simp only [AdVmLl.write, adWrites_append, Option.bind_eq_bind, Option.bind_assoc]
  cases adWrites ws s.mem with
  | none => rfl
  | some m => rfl

/-- Writes in a row, each found on the way. -/
theorem foldlM_write {emits : Nat → Option (Fr → AdWrite)} {emit : Nat → Fr → AdWrite}
    {row : (Fr → AdWrite) → Nat → List AdWrite} :
    ∀ (is : List Nat) (s : AdVmLl), (∀ i ∈ is, emits i = some (emit i)) →
      is.foldlM (fun s i => do
          let emitValueDb ← emits i
          s.write (row emitValueDb i)) s
        = s.write (is.flatMap fun i => row (emit i) i) := by
  intro is
  induction is with
  | nil =>
    intro s _
    rfl
  | cons i is ih =>
    intro s hemits
    rw [List.foldlM_cons, hemits i List.mem_cons_self, List.flatMap_cons, ← AdVmLl.write_append]
    simp only [Option.bind_eq_bind, Option.bind_some]
    congr 1
    funext s'
    exact ih s' fun j hj => hemits j (List.mem_cons_of_mem i hj)

/-- The helper's rows, with each row's share of the sum, are the machine's rows followed by
the shares. -/
theorem bumps_keyValueRows {leaves : List (PrimElem ⊕ Ptr)} (sum : Fr) (m : Mem) :
    m.bumps ((List.range leaves.length).flatMap (fun i =>
        v.keyValueRows (AdVm.lookupElemBumpDb (leaves.getD i (.inr 0))) i
          ++ [.out .a (v.currentWitTablesOff + 2 * i + 1) sum]) ++ [.out .b 0 sum])
      = m.bumps (leaves.zipIdx.flatMap (fun leaf =>
            v.keyValueRows (AdVm.lookupElemBumpDb leaf.1) leaf.2)
          ++ ((List.range leaves.length).map fun i =>
            .out .a (v.currentWitTablesOff + 2 * i + 1) sum) ++ [.out .b 0 sum]) := by
  rw [Mem.bumps_append, Mem.bumps_rows, ← Mem.bumps_append,
    zipIdx_eq_map_range leaves (.inr 0), List.flatMap_map]

/-- The words after the table of an array is made, by the helper and by the machine. -/
theorem snapshotOf_tableAt {arr p : Ptr} {table : Option Nat} (count : Nat)
    (h : ∀ k, table = some k → k < v.tables.length) :
    Mem.tableAt arr (v.currentCnstTablesOff + 1) p (snapshotOf v.tables table)
      = snapshotOf (pushed (.array count) v).tables (Mem.tableAt arr v.tables.length p table) := by
  obtain ⟨t, ht, -, hrow⟩ := getElem?_pushed_last (.array count) v
  by_cases hp : p = arr
  · rw [Mem.tableAt, Mem.tableAt, if_pos hp, if_pos hp, snapshotOf_some ht, hrow]
  · rw [Mem.tableAt, Mem.tableAt, if_neg hp, if_neg hp, snapshotOf_pushed h]

/-- The table of an array, on its first lookup and later. -/
theorem darrayTable_agrees {elemType : ElemType} {count k : Nat} {arr : Ptr} (h : AdAgrees v s)
    (hknown : AdKnown wl cl v) (hchal : v.logupWitChallengeOff + 1 < 2 ^ 32)
    (harr : IsAdArrayOf elemType count arr v) (hrun : v.darrayTable arr = some (k, v'))
    (hfits : AdFits v') :
    ∃ s' t, s.darrayRegion wl elemType count arr
        = some (t.elemInversesConstraintSectionOffset, s') ∧
      v'.tables[k]? = some t ∧ AdAgrees v' s' := by
  obtain ⟨c, hc, rfl, helems⟩ := harr
  obtain ⟨leaves, hleaves, hcount, hemits⟩ := leaves_of_holdsElems hc helems
  have hread : s.mem.heap.get? arr = some (retagCell (snapshotOf v.tables) c) := by
    rw [h.mem, Mem.get?_retag, hc]
    rfl
  rw [AdVmLl.darrayRegion, hread, Option.bind_eq_bind, Option.bind_some]
  simp only [AdVm.darrayTable, hc, Option.bind_eq_bind, Option.bind_some] at hrun
  cases hid : c.val.tableId with
  | some id =>
    rw [hid] at hrun
    obtain ⟨rfl, rfl⟩ := Prod.mk.inj (Option.some.inj hrun)
    have htable := hknown.array arr c id hc hid
    obtain ⟨t, ht, -, -, hsub⟩ := sub32_snapshot htable hfits.cnstTables
    have hlt := htable.row_lt ht
    have hcnst := hfits.cnstTables
    have htag : (retagCell (snapshotOf v.tables) c).val.tableId
        = some (t.elemInversesConstraintSectionOffset + 1) := by
      show snapshotOf v.tables c.val.tableId = _
      rw [hid, snapshotOf_some ht]
    refine ⟨s, t, ?_, ht, h⟩
    rw [htag]
    show some (sub32 (i32 (t.elemInversesConstraintSectionOffset + 1)) 1, s) = _
    rw [i32_of_lt (by omega), hsub]
  | none =>
    rw [hid] at hrun
    simp only [hleaves, Option.bind_some] at hrun
    obtain ⟨mem, hmem, hrun⟩ := Option.bind_eq_some_iff.mp hrun
    obtain ⟨mem', hset, hrun⟩ := Option.bind_eq_some_iff.mp hrun
    obtain ⟨rfl, rfl⟩ := Prod.mk.inj (Option.some.inj hrun)
    rw [← bumps_keyValueRows] at hmem
    rw [← hcount]
    have hs := Mem.bumps_sameShape _ hmem
    obtain ⟨d, hd, -, -⟩ := cell_of_sameShape (Eq.symm hs) hc
    obtain rfl := Option.some.inj ((Mem.setTableId_eq hd _).symm.trans hset)
    have hroom : AdRoom (.array leaves.length) v :=
      .of_fits (.array leaves.length)
        ⟨hfits.wit, hfits.mults, hfits.witTables, hfits.witLookups, hfits.cnstTables,
          hfits.cnstLookups⟩ hchal
    have hcnst : v.currentCnstTablesOff + (2 * leaves.length + 1) < 2 ^ 32 := hroom.cnstTables
    have hsum : s.invSumCoeff s.currentCnstTablesOff (.array leaves.length)
        = v.adCoeffs (v.currentCnstTablesOff + 2 * leaves.length) := by
      rw [h.cnstTablesOff]
      refine invSumCoeff_eq (.array leaves.length) rfl h ?_
      show v.currentCnstTablesOff + 2 * leaves.length < 2 ^ 32
      omega
    have hws := keyValueTable_writes (.array leaves.length) rfl h hknown.challenge hroom
      (fun i _ => toBump_emitLeafDb (leaves.getD i (.inr 0))) hsum
    -- the words as the helper leaves them before the rows
    let g : Ptr → Option Nat → Option Nat := fun p table =>
      Mem.tableAt arr (v.currentCnstTablesOff + 1) p (snapshotOf v.tables table)
    have hsetLl : s.mem.setTableId arr (add32 s.currentCnstTablesOff 1) = some (v.mem.retag g) := by
      rw [Mem.setTableId_eq hread, h.mem, Mem.retag_retag, h.cnstTablesOff, add32,
        i32_of_lt (by omega)]
    have hreadLl : (v.mem.retag g).heap.get? arr = some (retagCell (g arr) c) := by
      rw [Mem.get?_retag, hc]
      rfl
    let s' : AdVmLl :=
      { s.claimAdLookupTableRegion (.array leaves.length) with mem := mem.retag g }
    have hinit : s.arrayAdInit wl elemType leaves.length arr = some s' := by
      have hfound : ∀ i ∈ List.range leaves.length,
          AdVmLl.adBumpLookupElemDb elemType (retagCell (g arr) c).val.payload i
            = some (emitLeafDb (leaves.getD i (.inr 0))) :=
        fun i hi => hemits i (List.mem_range.mp hi)
      unfold AdVmLl.arrayAdInit
      show (s.mem.setTableId arr (add32 s.currentCnstTablesOff 1)).bind _ = _
      rw [hsetLl, Option.bind_some]
      show ((v.mem.retag g).heap.get? arr).bind _ = _
      rw [hreadLl, Option.bind_some, Option.bind_eq_bind, foldlM_write _ _ hfound,
        AdVmLl.write_append]
      exact AdVmLl.write_eq (m := v.mem) rfl (hknown.indicesFit hfits.wit) hws hmem
    have hpush := h.push (.array leaves.length) hknown hroom
    have hnone : (retagCell (snapshotOf v.tables) c).val.tableId = none := by
      show snapshotOf v.tables c.val.tableId = none
      rw [hid]
      rfl
    obtain ⟨t, ht, -, hrow⟩ := getElem?_pushed_last (.array leaves.length) v
    refine ⟨s', t, ?_, ht, ?_⟩
    · rw [hnone, hinit, hrow, h.cnstTablesOff]
      rfl
    · exact { hpush with
        mem := by
          show mem.retag g = (mem.retag _).retag _
          rw [Mem.retag_retag]
          refine Mem.retag_congr fun p e he => ?_
          obtain ⟨f, hf, hfid, -⟩ := cell_of_sameShape hs he
          exact snapshotOf_tableAt leaves.length fun k hk =>
            (hknown.array p f k hf (hfid.trans hk)).lt }

end Arrays

/-! ## The machine's own steps -/

section Machine

variable {wl : WitnessLayout} {cl : ConstraintsLayout} {v v' v'' : AdVm} {k : Nat}

/-- No offset goes back. -/
structure Grows (v v' : AdVm) : Prop where
  wit : v.currentWitOff ≤ v'.currentWitOff
  mults : v.currentWitMultiplicitiesOff ≤ v'.currentWitMultiplicitiesOff
  witTables : v.currentWitTablesOff ≤ v'.currentWitTablesOff
  witLookups : v.currentWitLookupsOff ≤ v'.currentWitLookupsOff
  cnstTables : v.currentCnstTablesOff ≤ v'.currentCnstTablesOff
  cnstLookups : v.currentCnstLookupsOff ≤ v'.currentCnstLookupsOff

theorem Grows.refl (v : AdVm) : Grows v v where
  wit := Nat.le_refl _
  mults := Nat.le_refl _
  witTables := Nat.le_refl _
  witLookups := Nat.le_refl _
  cnstTables := Nat.le_refl _
  cnstLookups := Nat.le_refl _

theorem Grows.trans (h : Grows v v') (h' : Grows v' v'') : Grows v v'' where
  wit := h.wit.trans h'.wit
  mults := h.mults.trans h'.mults
  witTables := h.witTables.trans h'.witTables
  witLookups := h.witLookups.trans h'.witLookups
  cnstTables := h.cnstTables.trans h'.cnstTables
  cnstLookups := h.cnstLookups.trans h'.cnstLookups

theorem AdFits.of_grows (h : Grows v v') (hfits : AdFits v') : AdFits v where
  wit := h.wit.trans_lt hfits.wit
  mults := h.mults.trans_lt hfits.mults
  witTables := h.witTables.trans_lt hfits.witTables
  witLookups := h.witLookups.trans_lt hfits.witLookups
  cnstTables := h.cnstTables.trans_lt hfits.cnstTables
  cnstLookups := h.cnstLookups.trans_lt hfits.cnstLookups

theorem grows_pushed (spec : LookupTableSpec) (v : AdVm) : Grows v (pushed spec v) :=
  { Grows.refl v with
    mults := Nat.le_add_right _ _
    witTables := Nat.le_add_right _ _
    cnstTables := Nat.le_add_right _ _ }

/-- A table is known, or it is pushed and its rows are added. -/
theorem drngchk8Table_cases (h : v.drngchk8Table = some (k, v')) :
    (v.rgchk8 = some k ∧ v' = v) ∨
      ∃ mem : Mem, SameShape mem.heap v.mem.heap ∧ k = v.tables.length ∧
        v' = { pushed .rangecheck8 v with mem := mem, rgchk8 := some v.tables.length } := by
  cases hid : v.rgchk8 with
  | some id =>
    rw [AdVm.drngchk8Table, hid] at h
    obtain ⟨rfl, rfl⟩ := Prod.mk.inj (Option.some.inj h)
    exact .inl ⟨rfl, rfl⟩
  | none =>
    rw [AdVm.drngchk8Table, hid] at h
    obtain ⟨mem, hmem, h⟩ := Option.bind_eq_some_iff.mp h
    obtain ⟨rfl, rfl⟩ := Prod.mk.inj (Option.some.inj h)
    exact .inr ⟨mem, Mem.bumps_sameShape _ hmem, rfl, rfl⟩

theorem dspreadTable_cases {bits : Nat} (h : v.dspreadTable bits = some (k, v')) :
    bits < v.spreadTables.length ∧ ((v.spreadTables[bits]? = some (some k) ∧ v' = v) ∨
      ∃ mem : Mem, SameShape mem.heap v.mem.heap ∧ k = v.tables.length ∧
        v' = { pushed (.spread bits) v with
          mem := mem
          spreadTables := v.spreadTables.set bits (some v.tables.length) }) := by
  obtain ⟨table, hget, h⟩ := Option.bind_eq_some_iff.mp h
  refine ⟨(List.getElem?_eq_some_iff.mp hget).1, ?_⟩
  cases table with
  | some id =>
    obtain ⟨rfl, rfl⟩ := Prod.mk.inj (Option.some.inj h)
    exact .inl ⟨hget, rfl⟩
  | none =>
    obtain ⟨mem, hmem, h⟩ := Option.bind_eq_some_iff.mp h
    obtain ⟨rfl, rfl⟩ := Prod.mk.inj (Option.some.inj h)
    exact .inr ⟨mem, Mem.bumps_sameShape _ hmem, rfl, rfl⟩

theorem darrayTable_cases {arr : Ptr} (h : v.darrayTable arr = some (k, v')) :
    ∃ c, v.mem.heap.get? arr = some c ∧ ((c.val.tableId = some k ∧ v' = v) ∨
      ∃ (leaves : List (PrimElem ⊕ Ptr)) (mem : Mem),
        forEachArrayLeaf v.mem.heap v.mem.heap.length arr = some leaves ∧
        SameShape mem.heap v.mem.heap ∧ k = v.tables.length ∧
        v' = { pushed (.array leaves.length) v with
          mem := mem.retag (Mem.tableAt arr v.tables.length) }) := by
  obtain ⟨c, hc, h⟩ := Option.bind_eq_some_iff.mp h
  refine ⟨c, hc, ?_⟩
  cases hid : c.val.tableId with
  | some id =>
    rw [hid] at h
    obtain ⟨rfl, rfl⟩ := Prod.mk.inj (Option.some.inj h)
    exact .inl ⟨rfl, rfl⟩
  | none =>
    rw [hid] at h
    obtain ⟨leaves, hleaves, h⟩ := Option.bind_eq_some_iff.mp h
    obtain ⟨mem, hmem, h⟩ := Option.bind_eq_some_iff.mp h
    obtain ⟨mem', hset, h⟩ := Option.bind_eq_some_iff.mp h
    obtain ⟨rfl, rfl⟩ := Prod.mk.inj (Option.some.inj h)
    have hs := Mem.bumps_sameShape _ hmem
    obtain ⟨d, hd, -, -⟩ := cell_of_sameShape (Eq.symm hs) hc
    obtain rfl := Option.some.inj ((Mem.setTableId_eq hd _).symm.trans hset)
    exact .inr ⟨leaves, mem, hleaves, hs, rfl, rfl⟩

theorem drngchk8Table_known (h : AdKnown wl cl v) (hrun : v.drngchk8Table = some (k, v')) :
    AdKnown wl cl v' ∧ IsTable .rangecheck8 v' k := by
  rcases drngchk8Table_cases hrun with ⟨hid, rfl⟩ | ⟨mem, hs, rfl, rfl⟩
  · exact ⟨h, h.rngchk8 k hid⟩
  · have htable := isTable_pushed .rangecheck8 v
    have hpush := (h.push .rangecheck8).of_sameShape hs
    refine ⟨{ hpush with rngchk8 := ?_ }, htable⟩
    intro k hk
    obtain rfl := Option.some.inj hk
    exact htable

theorem dspreadTable_known {bits : Nat} (h : AdKnown wl cl v)
    (hrun : v.dspreadTable bits = some (k, v')) :
    AdKnown wl cl v' ∧ IsTable (.spread bits) v' k := by
  obtain ⟨hwidth, ⟨hid, rfl⟩ | ⟨mem, hs, rfl, rfl⟩⟩ := dspreadTable_cases hrun
  · exact ⟨h, h.spread bits k hid⟩
  · have htable := isTable_pushed (.spread bits) v
    have hpush := (h.push (.spread bits)).of_sameShape hs
    refine ⟨{ hpush with spread := ?_, widths := ?_ }, htable⟩
    · intro bits' k hk
      change (v.spreadTables.set bits (some v.tables.length))[bits']? = some (some k) at hk
      by_cases hb : bits' = bits
      · subst hb
        rw [List.getElem?_set_self hwidth] at hk
        obtain rfl := Option.some.inj (Option.some.inj hk)
        exact htable
      · rw [List.getElem?_set_ne (Ne.symm hb)] at hk
        exact hpush.spread bits' k hk
    · show (v.spreadTables.set bits (some v.tables.length)).length = 17
      rw [List.length_set]
      exact h.widths

theorem darrayTable_known {elemType : ElemType} {count : Nat} {arr : Ptr} (h : AdKnown wl cl v)
    (harr : IsAdArrayOf elemType count arr v) (hrun : v.darrayTable arr = some (k, v')) :
    AdKnown wl cl v' ∧ IsTable (.array count) v' k := by
  obtain ⟨c, hc, hcount, helems⟩ := harr
  obtain ⟨leaves, hleaves, hlen, -⟩ := leaves_of_holdsElems hc helems
  obtain ⟨d, hd, hcases⟩ := darrayTable_cases hrun
  obtain rfl := Option.some.inj (hc.symm.trans hd)
  rcases hcases with ⟨hid, rfl⟩ | ⟨leaves', mem, hleaves', hs, rfl, rfl⟩
  · rw [← hcount]
    exact ⟨h, h.array arr c k hc hid⟩
  · obtain rfl := Option.some.inj (hleaves.symm.trans hleaves')
    rw [← hcount, ← hlen]
    have htable := isTable_pushed (.array leaves.length) v
    have hpush := (h.push (.array leaves.length)).of_sameShape hs
    refine ⟨{ hpush with array := ?_, indices := ?_ }, htable⟩
    · intro p e k he hk
      rw [Mem.get?_retag] at he
      obtain ⟨f, hf, rfl⟩ := Option.map_eq_some_iff.mp he
      change Mem.tableAt arr v.tables.length p f.val.tableId = some k at hk
      show IsTable (.array f.val.payload.arraySize) _ k
      by_cases hp : p = arr
      · subst hp
        obtain ⟨e, he, -, hpayload⟩ := cell_of_sameShape hs hf
        obtain rfl := Option.some.inj (hc.symm.trans he)
        rw [Mem.tableAt, if_pos rfl] at hk
        obtain rfl := Option.some.inj hk
        rw [← arraySize_erase, ← hpayload, arraySize_erase, ← hlen]
        exact htable
      · rw [Mem.tableAt, if_neg hp] at hk
        exact hpush.array p f k hf hk
    · intro p e index he hp
      rw [Mem.get?_retag] at he
      obtain ⟨f, hf, rfl⟩ := Option.map_eq_some_iff.mp he
      exact hpush.indices p f index hf hp

end Machine

end Mavros.Llssa
