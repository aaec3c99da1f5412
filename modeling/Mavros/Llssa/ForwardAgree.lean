/-
# `Mavros.Llssa.ForwardAgree` — the forward helpers follow the machine

Two descriptions of one table layout.  The invariant `ForwardAgrees` says that the
registry, the cursors, the tape and the vectors are the same; each lookup keeps it, as
long as the offsets fit 32 bits and the registry has room.

## What is proved

`LookupOp.agrees`: from states in step, an operation in range that the machine executes is executed
by the helper and leaves states in step.  In range means that a counted key is a row of its table,
which neither side checks; that a spread width has a helper; and that an array has the type its
helper was generated for.

## How it goes

* A tape entry (`emitKey_agrees`): the helper asserts that the upper limbs of a counted key and of a
  flag are zero, and the machine does not look at them.  For keys in range and flags of a word the
  assertions hold.
* A table (`rngchk8Table_agrees`, `spreadTable_agrees`, `arrayTable_agrees`): on its first use a
  slot of the registry is filled and the values are dumped to the rows where the machine puts them;
  later the number that was kept is read back.
* The machine's own steps keep the tables known and the bounds.
-/
import Mavros.Lib.Lists
import Mavros.Lib.Lockstep
import Mavros.Llssa.SpreadBits

namespace Mavros.Llssa

open Lib

/-! ## Operations -/

/-- An operation of the forward pass: a new array, or a lookup. -/
inductive LookupOp where
  | newArray (elems : List PrimElem)
  | rngchk8 (val flag : Fr)
  | spread (bits : Nat) (key result flag : Fr)
  | array (elemType : ElemType) (count : Nat) (arr : Ptr) (key result flag : Fr)

namespace LookupOp

/-- The opcode of the machine. -/
def vm : LookupOp → Fwd → Option Fwd
  | newArray elems, v => some { v with mem := (v.mem.alloc (.primArray elems)).2 }
  | rngchk8 val flag, v => do
      let vm ← v.vm.rngchk8Field val flag
      return { v with vm := vm }
  | spread bits key result flag, v => do
      let vm ← v.vm.spreadLookupField bits key result flag
      return { v with vm := vm }
  | array _ _ arr key result flag, v => v.arrayLookupField arr key result flag

/-- The call of the helper. -/
def llssa : LookupOp → WitgenVm → Option WitgenVm
  | newArray elems, s => some { s with mem := (s.mem.alloc (.primArray elems)).2 }
  | rngchk8 val flag, s => s.rngchk8 val flag
  | spread bits key result flag, s => s.spreadLookup bits key result flag
  | array elemType count arr key result flag, s =>
      s.arrayLookup elemType count arr key result flag

end LookupOp

/-- An element of the type. -/
def ElemType.Holds : ElemType → PrimElem → Prop
  | .field, .field _ => True
  | .int bits, .word n => bits ≤ 64 ∧ n < 2 ^ bits
  | _, _ => False

/-- The array has the type that its lookup is generated for; its length is a `usize`. -/
def IsArrayOf (elemType : ElemType) (count : Nat) (arr : Ptr) (v : Fwd) : Prop :=
  count < 2 ^ 64 ∧ ∃ c elems, v.mem.heap.get? arr = some c ∧ c.val.payload = .primArray elems ∧
    elems.length = count ∧ ∀ e ∈ elems, elemType.Holds e

/-- A key that is counted is a row of its table. -/
def KeyInRange (key flag : Fr) (length : Nat) : Prop := flag ≠ 0 → key.val < length

/-- Keys in range, a width that has a helper, an array of the type. -/
def LookupOp.InRange (op : LookupOp) (v : Fwd) : Prop :=
  match op with
  | newArray _ => True
  | rngchk8 val flag => KeyInRange val flag 256
  | spread bits key _ flag => 1 ≤ bits ∧ KeyInRange key flag (2 ^ bits)
  | array elemType count arr key _ flag =>
      IsArrayOf elemType count arr v ∧ KeyInRange key flag count

/-- The flag fits a machine word. -/
def LookupOp.FlagFits : LookupOp → Prop
  | newArray _ => True
  | rngchk8 _ flag => flag.val < 2 ^ 64
  | spread _ _ _ flag => flag.val < 2 ^ 64
  | array _ _ _ _ _ flag => flag.val < 2 ^ 64

/-! ## The invariant

What the helpers keep in globals is read off the machine's tables.
-/

/-- What a helper's global holds of a table. -/
def globalOf (table : Option Nat) : Nat := (table.map (· + 1)).getD 0

/-- The same vectors, tape, registry, cursors and arrays; the registry has its capacity. -/
structure ForwardAgrees (cap : Nat) (v : Fwd) (s : WitgenVm) : Prop where
  outA : s.outA = v.vm.outA
  outB : s.outB = v.vm.outB
  outC : s.outC = v.vm.outC
  witness : s.witness = v.vm.witPreComm
  multsCursor : s.multsCursor = v.vm.multiplicitiesWitness
  lookupsA : s.lookupsA = v.vm.lookupsOff
  lookupsB : s.lookupsB = v.vm.lookupsOff
  lookupsC : s.lookupsC = v.vm.lookupsOff
  tablesLen : s.tablesLen = v.vm.tables.length
  tables : ∀ i t, v.vm.tables[i]? = some t → s.tables i = t
  cnstOff : s.currentCnstTablesOff = v.vm.elemInversesConstraintSectionOffset
  witOff : s.currentWitTablesOff = v.vm.elemInversesWitnessSectionOffset
  rngchk8 : s.rngchk8TableIdx = globalOf v.vm.rgchk8
  spread : ∀ bits table,
    v.vm.spreadTables[bits]? = some table → s.spreadTableIdx bits = globalOf table
  mem : s.mem = v.mem
  tablesCap : s.tablesCap = cap

/-- Every table that is referred to exists, and every table has a row. -/
structure TablesKnown (start : Nat) (v : Fwd) : Prop where
  rngchk8 : ∀ k, v.vm.rgchk8 = some k → k < v.vm.tables.length
  spread : ∀ (bits k : Nat), v.vm.spreadTables[bits]? = some (some k) → k < v.vm.tables.length
  array : ∀ p c k, v.mem.heap.get? p = some c → c.val.tableId = some k → k < v.vm.tables.length
  rows : start + v.vm.tables.length ≤ v.vm.elemInversesConstraintSectionOffset
  widths : v.vm.spreadTables.length = 17

/-- The offsets fit 32 bits and the registry has room. -/
structure Fits (cap : Nat) (v : Fwd) : Prop where
  tables : v.vm.tables.length ≤ cap
  cnstOff : v.vm.elemInversesConstraintSectionOffset < 2 ^ 32
  witOff : v.vm.elemInversesWitnessSectionOffset < 2 ^ 32

/-! ## Limbs -/

theorem fieldLimb_zero (x : Fr) : fieldLimb x 0 = lowU64 x := by
  simp [fieldLimb, lowU64]

theorem highLimbsZero_of_lt {x : Fr} (h : x.val < 2 ^ 64) : HighLimbsZero x := by
  intro i hi
  have hpos : 1 ≤ i := by
    fin_cases hi <;> norm_num
  have hpow : 2 ^ 64 ≤ 2 ^ (64 * i) := Nat.pow_le_pow_right (by norm_num) (by omega)
  rw [fieldLimb, Nat.div_eq_of_lt (h.trans_le hpow)]
  rfl

theorem trapUnless_of {ok : Prop} [Decidable ok] (h : ok) : trapUnless ok = some () := if_pos h

theorem i32_of_lt {n : Nat} (h : n < 2 ^ 32) : i32 n = n := Nat.mod_eq_of_lt h

theorem writeU64_mod (vec : Nat → Cell) (i n : Nat) :
    writeU64 vec i (n % 2 ^ 64) = writeU64 vec i n := by
  rw [writeU64, writeU64, Cell.setLimb0, Cell.setLimb0, Nat.mod_mod]

/-! ## Tape entries -/

section Tape

variable {cap : Nat} {v : Fwd} {s : WitgenVm} {vm' : FwdVm} {tableIdx flagU64 : Nat}
  {key result : Fr}
  {table : TableInfo} {spec : LookupTableSpec}

/-- A counted key: the assertions hold, the low limb of the counter grows. -/
theorem emitForwardLookupKeyEntry_counted {multsBase : Nat} (hflag : flagU64 ≠ 0)
    (hkey : key.val < spec.length) (hlen : spec.length ≤ 2 ^ 64) :
    s.emitForwardLookupKeyEntry multsBase key flagU64 spec
      = some ((s.addMultiplicity (multsBase + lowU64 key) flagU64).writeTapeB (lowU64 key)) := by
  have hlow : lowU64 key < spec.length := (Nat.mod_le _ _).trans_lt hkey
  unfold WitgenVm.emitForwardLookupKeyEntry
  simp only [if_neg hflag, fieldLimb_zero, trapUnless_of hlow,
    trapUnless_of (highLimbsZero_of_lt (hkey.trans_le hlen)), Option.bind_eq_bind,
    Option.bind_some, Option.pure_def]

/-- A tape entry of a key: written by both, counted by both. -/
theorem emitKey_agrees (spec : LookupTableSpec) (h : ForwardAgrees cap v s)
    (htable : v.vm.tables[tableIdx]? = some table)
    (hkey : flagU64 ≠ 0 → key.val < spec.length) (hlen : spec.length ≤ 2 ^ 64)
    (hrun : v.vm.emitKey tableIdx key flagU64 = some vm') :
    ∃ s', (do
        let s ← (s.writeTapeA tableIdx).emitForwardLookupKeyEntry table.multiplicitiesWit key
          flagU64 spec
        return s.writeTapeC flagU64) = some s' ∧ ForwardAgrees cap { v with vm := vm' } s' := by
  simp only [FwdVm.emitKey, htable, Option.bind_eq_bind, Option.bind_some] at hrun
  by_cases hflag : flagU64 = 0
  · subst hflag
    simp only [ne_eq, not_true_eq_false, if_false, Option.pure_def,
      Option.some.injEq] at hrun
    subst hrun
    refine ⟨_, rfl, ?_⟩
    exact { h with
      outA := by simp only [WitgenVm.writeTapeA, WitgenVm.writeTapeBField, WitgenVm.writeTapeC,
        h.outA, h.lookupsA]
      outB := by simp only [WitgenVm.writeTapeA, WitgenVm.writeTapeBField, WitgenVm.writeTapeC,
        h.outB, h.lookupsB]
      outC := by simp only [WitgenVm.writeTapeA, WitgenVm.writeTapeBField, WitgenVm.writeTapeC,
        h.outC, h.lookupsC]
      lookupsA := congrArg (· + 1) h.lookupsA
      lookupsB := congrArg (· + 1) h.lookupsB
      lookupsC := congrArg (· + 1) h.lookupsC }
  · simp only [ne_eq, hflag, not_false_eq_true, if_true, FwdVm.bumpMultiplicity] at hrun
    split at hrun
    · simp only [Option.bind_some, Option.pure_def, Option.some.injEq] at hrun
      subst hrun
      rw [emitForwardLookupKeyEntry_counted hflag (hkey hflag) hlen]
      refine ⟨_, rfl, ?_⟩
      exact { h with
        outA := by simp only [WitgenVm.writeTapeA, WitgenVm.writeTapeB, WitgenVm.writeTapeC,
          WitgenVm.addMultiplicity, h.outA, h.lookupsA]
        outB := by simp only [WitgenVm.writeTapeA, WitgenVm.writeTapeB, WitgenVm.writeTapeC,
          WitgenVm.addMultiplicity, h.outB, h.lookupsB]
        outC := by simp only [WitgenVm.writeTapeA, WitgenVm.writeTapeB, WitgenVm.writeTapeC,
          WitgenVm.addMultiplicity, h.outC, h.lookupsC]
        witness := by simp only [WitgenVm.writeTapeA, WitgenVm.writeTapeB, WitgenVm.writeTapeC,
          WitgenVm.addMultiplicity, writeU64_mod, h.witness]
        lookupsA := congrArg (· + 1) h.lookupsA
        lookupsB := congrArg (· + 1) h.lookupsB
        lookupsC := congrArg (· + 1) h.lookupsC }
    · simp at hrun

/-- A tape entry of a value. -/
theorem emitValue_agrees (h : ForwardAgrees cap v s) :
    ForwardAgrees cap { v with vm := v.vm.emitValue tableIdx result }
      (((s.writeTapeA tableIdx).writeTapeBField result).writeTapeC 0) :=
  { h with
    outA := by simp only [WitgenVm.writeTapeA, WitgenVm.writeTapeBField, WitgenVm.writeTapeC,
      FwdVm.emitValue, h.outA, h.lookupsA]
    outB := by simp only [WitgenVm.writeTapeA, WitgenVm.writeTapeBField, WitgenVm.writeTapeC,
      FwdVm.emitValue, h.outB, h.lookupsB]
    outC := by simp only [WitgenVm.writeTapeA, WitgenVm.writeTapeBField, WitgenVm.writeTapeC,
      FwdVm.emitValue, h.outC, h.lookupsC]
    lookupsA := congrArg (· + 1) h.lookupsA
    lookupsB := congrArg (· + 1) h.lookupsB
    lookupsC := congrArg (· + 1) h.lookupsC }

/-- `forward_kv_lookup_emit`. -/
theorem forwardKvLookupEmit_agrees (spec : LookupTableSpec) (h : ForwardAgrees cap v s)
    (htable : v.vm.tables[tableIdx]? = some table)
    (hkey : flagU64 ≠ 0 → key.val < spec.length) (hlen : spec.length ≤ 2 ^ 64)
    (hrun : v.vm.forwardKvLookupEmit tableIdx key result flagU64 = some vm') :
    ∃ s', s.emitForwardKeyValueLookup table.multiplicitiesWit tableIdx key result flagU64 spec
      = some s' ∧ ForwardAgrees cap { v with vm := vm' } s' :=
  @emitKey_agrees cap { v with vm := v.vm.emitValue tableIdx result } _ vm' tableIdx flagU64 key
    table
    spec (emitValue_agrees h) htable hkey hlen hrun

end Tape

/-! ## Tables -/

section Table

variable {cap : Nat} {v : Fwd} {s s' : WitgenVm} {state : ForwardLookupTableState}
  {spec : LookupTableSpec} {initTableValues : Nat → WitgenVm → Option WitgenVm}

theorem getOrInit_known {tableIdx : Nat} {table : TableInfo} (h : ForwardAgrees cap v s)
    (hload : state.load s = some (some tableIdx)) (htable : v.vm.tables[tableIdx]? = some table) :
    s.getOrInitForwardLookupTable state spec initTableValues
      = some (table.multiplicitiesWit, tableIdx, s) := by
  simp only [WitgenVm.getOrInitForwardLookupTable, hload, Option.bind_eq_bind, Option.bind_some,
    h.tables _ _ htable]

/-- The state after the slot is filled and the values are dumped. -/
def WitgenVm.withSlot (spec : LookupTableSpec) (outA : Nat → Cell) (s : WitgenVm) : WitgenVm :=
  { s with tables := Function.update s.tables s.tablesLen (s.newSlot spec), outA := outA }

theorem getOrInit_new {outA : Nat → Cell} (hload : state.load s = some none)
    (hcap : s.tablesLen < s.tablesCap)
    (hinit : initTableValues s.currentCnstTablesOff (s.withSlot spec s.outA)
      = some (s.withSlot spec outA))
    (hstore : state.store s.tablesLen (s.withSlot spec outA) = some s') :
    s.getOrInitForwardLookupTable state spec initTableValues
      = some (s.multsCursor, s.tablesLen, s'.advance spec s) := by
  have hslot : { s with tables := Function.update s.tables s.tablesLen (s.newSlot spec) }
      = s.withSlot spec s.outA := rfl
  simp only [WitgenVm.getOrInitForwardLookupTable, hload, Option.bind_eq_bind, Option.bind_some,
    WitgenVm.initTable, trapUnless_of hcap, hslot, hinit, hstore, Option.pure_def]

theorem pushTable_offsets (spec : LookupTableSpec) (v : FwdVm) :
    (v.pushTable spec.numValues spec.length).elemInversesConstraintSectionOffset
        = v.elemInversesConstraintSectionOffset + spec.constraintSlots ∧
      (v.pushTable spec.numValues spec.length).elemInversesWitnessSectionOffset
        = v.elemInversesWitnessSectionOffset + spec.witnessSlots := by
  obtain ⟨length, keyValue⟩ := spec
  cases keyValue
  · simp [FwdVm.pushTable, LookupTableSpec.numValues, LookupTableSpec.constraintSlots,
      LookupTableSpec.witnessSlots]
  · simp [FwdVm.pushTable, LookupTableSpec.numValues, LookupTableSpec.constraintSlots,
      LookupTableSpec.witnessSlots]

theorem length_le_witnessSlots (spec : LookupTableSpec) : spec.length ≤ spec.witnessSlots := by
  unfold LookupTableSpec.witnessSlots
  split
  · omega
  · exact Nat.le_refl _

/-- There is room for one more table. -/
structure HasRoom (cap : Nat) (spec : LookupTableSpec) (v : FwdVm) : Prop where
  tables : v.tables.length < cap
  cnstOff : v.elemInversesConstraintSectionOffset + spec.constraintSlots < 2 ^ 32
  witOff : v.elemInversesWitnessSectionOffset + spec.witnessSlots < 2 ^ 32

/-- A pushed table is the slot that is filled; the offsets go on in step. -/
theorem pushTable_agrees {values : List Fr} (h : ForwardAgrees cap v s) (hcap : cap < 2 ^ 32)
    (hroom : HasRoom cap spec v.vm) :
    ForwardAgrees cap { v with vm := (v.vm.dumpValues values).pushTable spec.numValues spec.length }
      ((s.withSlot spec (v.vm.dumpValues values).outA).advance spec s) := by
  obtain ⟨htables, hcnst, hwit⟩ := hroom
  obtain ⟨hcnstEq, hwitEq⟩ := pushTable_offsets spec (v.vm.dumpValues values)
  have hrows := length_le_witnessSlots spec
  have hslots : spec.constraintSlots = spec.witnessSlots + 1 := rfl
  -- none of the 32-bit values wraps
  have hi32 : ∀ n, n ≤ spec.constraintSlots → i32 n = n := by
    intro n hn
    exact i32_of_lt (by omega)
  have hslot : s.newSlot spec =
      { multiplicitiesWit := v.vm.multiplicitiesWitness
        numIndices := 1
        numValues := spec.numValues
        length := spec.length
        elemInversesWitnessSectionOffset := v.vm.elemInversesWitnessSectionOffset
        elemInversesConstraintSectionOffset := v.vm.elemInversesConstraintSectionOffset } := by
    rw [WitgenVm.newSlot, h.multsCursor, h.witOff, h.cnstOff, hi32 spec.length (by omega)]
  exact { h with
    outA := rfl
    multsCursor := by
      show s.multsCursor + i32 spec.length = v.vm.multiplicitiesWitness + spec.length
      rw [h.multsCursor, hi32 _ (by omega)]
    tablesLen := by
      show add32 s.tablesLen 1 = (v.vm.tables ++ [_]).length
      rw [h.tablesLen, List.length_append, List.length_singleton, add32, i32_of_lt (by omega)]
    tables := by
      intro i t ht
      change (v.vm.tables ++ [_])[i]? = some t at ht
      show Function.update s.tables s.tablesLen (s.newSlot spec) i = t
      rw [h.tablesLen, hslot]
      by_cases hi : i = v.vm.tables.length
      · subst hi
        rw [Function.update_self]
        rw [List.getElem?_concat_length] at ht
        exact Option.some.inj ht
      · rw [Function.update_of_ne hi]
        have hlt := (List.getElem?_eq_some_iff.mp ht).1
        rw [List.length_append, List.length_singleton] at hlt
        rw [List.getElem?_append_left (by omega)] at ht
        exact h.tables i t ht
    cnstOff := by
      show add32 s.currentCnstTablesOff (i32 spec.constraintSlots) = _
      rw [hcnstEq, h.cnstOff, hi32 _ (Nat.le_refl _), add32]
      exact i32_of_lt hcnst
    witOff := by
      show add32 s.currentWitTablesOff (i32 spec.witnessSlots) = _
      rw [hwitEq, h.witOff, hi32 _ (by omega), add32]
      exact i32_of_lt hwit }

theorem HasRoom.of_fits {values : List Fr}
    (h : Fits cap { v with vm := (v.vm.dumpValues values).pushTable spec.numValues spec.length }) :
    HasRoom cap spec v.vm := by
  obtain ⟨hcnst, hwit⟩ := pushTable_offsets spec (v.vm.dumpValues values)
  obtain ⟨htables, hcnstFits, hwitFits⟩ := h
  refine ⟨?_, by rwa [hcnst] at hcnstFits, by rwa [hwit] at hwitFits⟩
  have hlen : (v.vm.tables ++ [_]).length ≤ cap := htables
  rwa [List.length_append, List.length_singleton] at hlen

theorem globalOf_none : globalOf none = 0 := rfl

/-- A global holds a number that is read back. -/
theorem sub32_globalOf {k : Nat} (hk : k < 2 ^ 32) : sub32 (globalOf (some k)) 1 = k := by
  have hglobal : globalOf (some k) = k + 1 := rfl
  rw [hglobal, sub32, i32]
  omega

/-- A first use: the table is the last of the machine's. -/
theorem getOrInit_first (initTableValues : Nat → WitgenVm → Option WitgenVm) (values : List Fr)
    (h : ForwardAgrees cap v s) (hroom : HasRoom cap spec v.vm)
    (hload : state.load s = some none)
    (hinit : initTableValues s.currentCnstTablesOff (s.withSlot spec s.outA)
      = some (s.withSlot spec (v.vm.dumpValues values).outA))
    (hstore : state.store s.tablesLen (s.withSlot spec (v.vm.dumpValues values).outA) = some s') :
    ∃ table : TableInfo, s.getOrInitForwardLookupTable state spec initTableValues
        = some (table.multiplicitiesWit, v.vm.tables.length, s'.advance spec s) ∧
      ((v.vm.dumpValues values).pushTable spec.numValues spec.length).tables[v.vm.tables.length]?
        = some table := by
  have htables := hroom.tables
  rw [← h.tablesLen, ← h.tablesCap] at htables
  refine ⟨_, ?_, List.getElem?_concat_length⟩
  rw [getOrInit_new hload htables hinit hstore, h.multsCursor, h.tablesLen]
  rfl

/-- The range table, on first use and later. -/
theorem rngchk8Table_agrees {start : Nat} (h : ForwardAgrees cap v s) (hknown : TablesKnown start v)
    (hcap : cap < 2 ^ 32) (hfits : Fits cap { v with vm := v.vm.rngchk8Table.2 }) :
    ∃ s' table, s.getOrInitForwardLookupTable .rngchk8 .rangecheck8 (fun _ s => some s)
        = some (table.multiplicitiesWit, v.vm.rngchk8Table.1, s') ∧
      v.vm.rngchk8Table.2.tables[v.vm.rngchk8Table.1]? = some table ∧
      ForwardAgrees cap { v with vm := v.vm.rngchk8Table.2 } s' := by
  cases hid : v.vm.rgchk8 with
  | some k =>
    have htable : v.vm.rngchk8Table = (k, v.vm) := by rw [FwdVm.rngchk8Table, hid]
    rw [htable] at hfits ⊢
    have hlt : k < v.vm.tables.length := hknown.rngchk8 k hid
    have hle : v.vm.tables.length ≤ cap := hfits.tables
    have hglobal : s.rngchk8TableIdx = globalOf (some k) := by rw [h.rngchk8, hid]
    have hne : globalOf (some k) ≠ 0 := Nat.succ_ne_zero k
    have hload : ForwardLookupTableState.rngchk8.load s = some (some k) := by
      rw [ForwardLookupTableState.load, hglobal, if_neg hne, sub32_globalOf (by omega)]
    have hget := List.getElem?_eq_getElem hlt
    exact ⟨s, _, getOrInit_known h hload hget, hget, h⟩
  | none =>
    have htable : v.vm.rngchk8Table = (v.vm.tables.length,
        { (v.vm.dumpValues []).pushTable 0 256 with rgchk8 := some v.vm.tables.length }) := by
      rw [FwdVm.rngchk8Table, hid]
      rfl
    rw [htable] at hfits ⊢
    have hroom : HasRoom cap .rangecheck8 v.vm :=
      @HasRoom.of_fits cap v .rangecheck8 [] ⟨hfits.tables, hfits.cnstOff, hfits.witOff⟩
    have hload : ForwardLookupTableState.rngchk8.load s = some none := by
      rw [ForwardLookupTableState.load, h.rngchk8, hid, globalOf_none, if_pos rfl]
    have hinit : some (s.withSlot .rangecheck8 s.outA)
        = some (s.withSlot .rangecheck8 (v.vm.dumpValues []).outA) := by
      rw [h.outA]
      rfl
    obtain ⟨table, hget, hlast⟩ := getOrInit_first (fun _ s => some s) [] h hroom hload hinit rfl
    have hpush := @pushTable_agrees cap v s .rangecheck8 [] h hcap hroom
    refine ⟨_, table, hget, hlast, ?_⟩
    exact { hpush with
      rngchk8 := by
        have hlt := hroom.tables
        show add32 s.tablesLen 1 = v.vm.tables.length + 1
        rw [h.tablesLen, add32, i32_of_lt (by omega)] }

theorem foldl_storeTableValue (invCnstOff : Nat) (f : Nat → Fr) :
    ∀ (xs : List Nat) (out : Nat → Cell),
      xs.foldl (fun s i => s.storeTableValue invCnstOff i (f i)) (s.withSlot spec out)
        = s.withSlot spec (xs.foldl
            (fun out i => writeFr out (add32 invCnstOff (mul32 (i32 i) 2)) (f i)) out) := by
  intro xs
  induction xs with
  | nil =>
    intro out
    rfl
  | cons i xs ih =>
    intro out
    exact ih _

theorem dumpValues_outA (values : List Fr) (v : FwdVm) : (v.dumpValues values).outA
    = (List.range values.length).foldl (fun out i => writeFr out
        (v.elemInversesConstraintSectionOffset + 2 * i) (values.getD i 0)) v.outA := by
  unfold FwdVm.dumpValues
  rw [zipIdx_eq_map_range values 0, List.foldl_map]

/-- The values of a key-value table go to the rows where the machine puts them. -/
theorem storeValues_eq (values : List Fr) (h : ForwardAgrees cap v s)
    (hroom : HasRoom cap (.array values.length) v.vm) :
    (List.range values.length).foldl
        (fun t i => t.storeTableValue s.currentCnstTablesOff i (values.getD i 0))
        (s.withSlot spec s.outA)
      = s.withSlot spec (v.vm.dumpValues values).outA := by
  have hcnst := hroom.cnstOff
  have hslots : (LookupTableSpec.array values.length).constraintSlots = 2 * values.length + 1 := rfl
  rw [hslots] at hcnst
  rw [foldl_storeTableValue, dumpValues_outA, h.cnstOff]
  have hrows : ∀ (out : Nat → Cell), ∀ i ∈ List.range values.length,
      writeFr out (add32 v.vm.elemInversesConstraintSectionOffset (mul32 (i32 i) 2))
          (values.getD i 0)
        = writeFr out (v.vm.elemInversesConstraintSectionOffset + 2 * i) (values.getD i 0) := by
    intro out i hi
    have hlt := List.mem_range.mp hi
    rw [i32_of_lt (by omega), mul32, i32_of_lt (by omega), add32, i32_of_lt (by omega),
      Nat.mul_comm i 2]
  rw [← h.outA]
  exact congrArg (s.withSlot spec) (List.foldl_ext _ _ s.outA hrows)

/-- The machine's values of a spread table. -/
def spreadValues (bits : Nat) : List Fr := (List.range (2 ^ bits)).map fun i =>
    (vmSpreadBits i : Fr)

theorem initSpreadValues_eq {bits : Nat} (hbits : bits ≤ 16) (h : ForwardAgrees cap v s)
    (hroom : HasRoom cap (.spread bits) v.vm) :
    (s.withSlot spec s.outA).initSpreadValues bits s.currentCnstTablesOff
      = s.withSlot spec (v.vm.dumpValues (spreadValues bits)).outA := by
  have hlen : (spreadValues bits).length = 2 ^ bits := by
    rw [spreadValues, List.length_map, List.length_range]
  have hroom' : HasRoom cap (.array (spreadValues bits).length) v.vm := by
    rw [hlen]
    exact hroom
  rw [← storeValues_eq (spreadValues bits) h hroom', hlen]
  refine List.foldl_ext _ _ _ fun t i hi => ?_
  have hlt := List.mem_range.mp hi
  have hvalue : (spreadValues bits).getD i 0 = (vmSpreadBits i : Fr) := by
    simp [spreadValues, hlt]
  rw [Nat.mod_eq_of_lt hlt, compileSpreadBits_eq hbits hlt, hvalue]

/-- The machine has no spread tables past width 16. -/
theorem spreadTable_width {start bits tableIdx : Nat} {vm' : FwdVm} (hknown : TablesKnown start v)
    (hrun : v.vm.spreadTable bits = some (tableIdx, vm')) : bits ≤ 16 := by
  obtain ⟨known, hget, -⟩ := Option.bind_eq_some_iff.mp hrun
  have hlt := (List.getElem?_eq_some_iff.mp hget).1
  rw [hknown.widths] at hlt
  exact Nat.le_of_lt_succ hlt

/-- The spread table of a width, on first use and later. -/
theorem spreadTable_agrees {start bits tableIdx : Nat} {vm' : FwdVm} (h : ForwardAgrees cap v s)
    (hknown : TablesKnown start v) (hcap : cap < 2 ^ 32)
    (hrun : v.vm.spreadTable bits = some (tableIdx, vm')) (hfits : Fits cap { v with vm := vm' }) :
    ∃ s' table, s.getOrInitForwardLookupTable (.spread bits) (.spread bits)
          (fun invCnstOff s => some (s.initSpreadValues bits invCnstOff))
        = some (table.multiplicitiesWit, tableIdx, s') ∧
      vm'.tables[tableIdx]? = some table ∧ ForwardAgrees cap { v with vm := vm' } s' := by
  have hbits := spreadTable_width hknown hrun
  obtain ⟨known, hget, hrun⟩ := Option.bind_eq_some_iff.mp hrun
  have hglobal := h.spread bits known hget
  cases known with
  | some k =>
    obtain ⟨rfl, rfl⟩ := Prod.mk.inj (Option.some.inj hrun)
    have hlt : k < v.vm.tables.length := hknown.spread bits k hget
    have hle : v.vm.tables.length ≤ cap := hfits.tables
    have hne : globalOf (some k) ≠ 0 := Nat.succ_ne_zero k
    have hload : (ForwardLookupTableState.spread bits).load s = some (some k) := by
      rw [ForwardLookupTableState.load, hglobal, if_neg hne, sub32_globalOf (by omega)]
    have hget := List.getElem?_eq_getElem hlt
    exact ⟨s, _, getOrInit_known h hload hget, hget, h⟩
  | none =>
    obtain ⟨rfl, rfl⟩ := Prod.mk.inj (Option.some.inj hrun)
    have hroom : HasRoom cap (.spread bits) v.vm :=
      @HasRoom.of_fits cap v (.spread bits) (spreadValues bits)
        ⟨hfits.tables, hfits.cnstOff, hfits.witOff⟩
    have hload : (ForwardLookupTableState.spread bits).load s = some none := by
      rw [ForwardLookupTableState.load, hglobal, globalOf_none, if_pos rfl]
    have hinit := @initSpreadValues_eq cap v s (.spread bits) bits hbits h hroom
    obtain ⟨table, hfirst, hlast⟩ := getOrInit_first
      (fun invCnstOff s => some (s.initSpreadValues bits invCnstOff)) (spreadValues bits) h hroom
      hload (congrArg some hinit) rfl
    have hpush := @pushTable_agrees cap v s (.spread bits) (spreadValues bits) h hcap hroom
    refine ⟨_, table, hfirst, hlast, ?_⟩
    exact { hpush with
      spread := by
        intro bits' known' hget'
        have htables := hroom.tables
        show Function.update s.spreadTableIdx bits (add32 s.tablesLen 1) bits' = globalOf known'
        change (v.vm.spreadTables.set bits (some v.vm.tables.length))[bits']? = some known' at hget'
        by_cases hb : bits' = bits
        · subst hb
          have hlt := (List.getElem?_eq_some_iff.mp hget).1
          rw [List.getElem?_set_self hlt] at hget'
          obtain rfl := Option.some.inj hget'
          rw [Function.update_self, h.tablesLen, add32, i32_of_lt (by omega)]
          rfl
        · rw [List.getElem?_set_ne (Ne.symm hb)] at hget'
          rw [Function.update_of_ne hb]
          exact h.spread bits' known' hget' }

/-- The values of an array, as the machine reads them off its leaves. -/
theorem leaves_of_primArray {arr : Ptr} {c : Counted Obj} {elems : List PrimElem}
    (hc : v.mem.heap.get? arr = some c) (hpayload : c.val.payload = .primArray elems) :
    forEachArrayLeaf v.mem.heap v.mem.heap.length arr = some (elems.map .inl) ∧
      Fwd.leafValues (elems.map .inl) = some (elems.map PrimElem.toFr) := by
  obtain ⟨fuel, hfuel⟩ := Nat.exists_eq_add_of_lt (Store.lt_length_of_get? hc)
  constructor
  · rw [hfuel, forEachArrayLeaf, hc]
    simp only [Option.bind_eq_bind, Option.bind_some, hpayload]
  · unfold Fwd.leafValues
    rw [mapM_eq_some, List.forall₂_map_left_iff, List.forall₂_map_right_iff, List.forall₂_same]
    intro e _
    rfl

/-- And as the helper loads them. -/
theorem loadPureLookupElemAsField_eq {elemType : ElemType} {elems : List PrimElem}
    (helems : ∀ e ∈ elems, elemType.Holds e) {i : Nat} (hi : i < elems.length) :
    WitgenVm.loadPureLookupElemAsField elemType (.primArray elems) i
      = some ((elems.map PrimElem.toFr).getD i 0) := by
  have hholds := helems _ (List.getElem_mem hi)
  have hvalue : (elems.map PrimElem.toFr).getD i 0 = elems[i].toFr := by simp [hi]
  have hget := List.getElem?_eq_getElem hi
  rw [hvalue]
  generalize elems[i] = e at hholds hget
  cases elemType with
  | field =>
    cases e with
    | field x => simp [WitgenVm.loadPureLookupElemAsField, hget, PrimElem.toFr]
    | word n => exact absurd hholds id
  | int bits =>
    cases e with
    | field x => exact absurd hholds id
    | word n =>
      obtain ⟨hbits, hn⟩ := hholds
      simp [WitgenVm.loadPureLookupElemAsField, hget, trapUnless_of hbits, Nat.mod_eq_of_lt hn,
        PrimElem.toFr]
  | witness => exact absurd hholds (by cases e <;> exact id)

/-- The table of an array, on its first lookup and later. -/
theorem arrayTable_agrees {start count tableIdx : Nat} {elemType : ElemType} {arr : Ptr} {v' : Fwd}
    (h : ForwardAgrees cap v s) (hknown : TablesKnown start v) (hcap : cap < 2 ^ 32)
    (hprim : IsArrayOf elemType count arr v) (hrun : v.arrayTable arr = some (tableIdx, v'))
    (hfits : Fits cap v') :
    ∃ s' table, s.getOrInitForwardLookupTable (.array arr) (.array count)
          (WitgenVm.initArrayValues elemType count arr)
        = some (table.multiplicitiesWit, tableIdx, s') ∧
      v'.vm.tables[tableIdx]? = some table ∧ ForwardAgrees cap v' s' := by
  obtain ⟨-, c, elems, hc, hpayload, rfl, helems⟩ := hprim
  simp only [Fwd.arrayTable, hc, Option.bind_eq_bind, Option.bind_some] at hrun
  cases hid : c.val.tableId with
  | some k =>
    rw [hid] at hrun
    obtain ⟨rfl, rfl⟩ := Prod.mk.inj (Option.some.inj hrun)
    have hlt : k < v.vm.tables.length := hknown.array arr c k hc hid
    have hle : v.vm.tables.length ≤ cap := hfits.tables
    have hload : (ForwardLookupTableState.array arr).load s = some (some k) := by
      rw [ForwardLookupTableState.load, h.mem, hc]
      simp only [Option.bind_eq_bind, Option.bind_some, hid, Option.map_some, Option.pure_def,
        i32_of_lt (show k < 2 ^ 32 by omega)]
    have hget := List.getElem?_eq_getElem hlt
    exact ⟨s, _, getOrInit_known h hload hget, hget, h⟩
  | none =>
    obtain ⟨hleaves, hvalues⟩ := leaves_of_primArray hc hpayload
    rw [hid] at hrun
    simp only [hleaves, hvalues, Option.bind_some] at hrun
    obtain ⟨mem, hmem, hrun⟩ := Option.bind_eq_some_iff.mp hrun
    obtain ⟨rfl, rfl⟩ := Prod.mk.inj (Option.some.inj hrun)
    have hlen : (elems.map PrimElem.toFr).length = elems.length := List.length_map _
    rw [hlen] at hfits ⊢
    have hroom : HasRoom cap (.array elems.length) v.vm :=
      @HasRoom.of_fits cap v (.array elems.length) (elems.map PrimElem.toFr)
        ⟨hfits.tables, hfits.cnstOff, hfits.witOff⟩
    have hload : (ForwardLookupTableState.array arr).load s = some none := by
      rw [ForwardLookupTableState.load, h.mem, hc]
      simp only [Option.bind_eq_bind, Option.bind_some, hid, Option.map_none, Option.pure_def]
    have hinit : WitgenVm.initArrayValues elemType elems.length arr s.currentCnstTablesOff
        (s.withSlot (.array elems.length) s.outA)
          = some (s.withSlot (.array elems.length)
              (v.vm.dumpValues (elems.map PrimElem.toFr)).outA) := by
      have hread : (s.withSlot (.array elems.length) s.outA).mem.heap.get? arr = some c := by
        show s.mem.heap.get? arr = some c
        rw [h.mem, hc]
      have hroom' : HasRoom cap (.array (elems.map PrimElem.toFr).length) v.vm := by
        rw [hlen]
        exact hroom
      have hstores := @storeValues_eq cap v s (.array elems.length)
        (elems.map PrimElem.toFr) h hroom'
      rw [hlen] at hstores
      unfold WitgenVm.initArrayValues
      rw [hread, Option.bind_eq_bind, Option.bind_some, hpayload, ← hstores]
      exact foldlM_of_some (fun (t : WitgenVm) i x => t.storeTableValue s.currentCnstTablesOff i x)
        _ _ fun i hi => loadPureLookupElemAsField_eq helems (List.mem_range.mp hi)
    have hstore : (ForwardLookupTableState.array arr).store s.tablesLen
        (s.withSlot (.array elems.length) (v.vm.dumpValues (elems.map PrimElem.toFr)).outA)
          = some { s.withSlot (.array elems.length)
              (v.vm.dumpValues (elems.map PrimElem.toFr)).outA with mem := mem } := by
      have hset : (s.withSlot (.array elems.length)
          (v.vm.dumpValues (elems.map PrimElem.toFr)).outA).mem.setTableId arr s.tablesLen
            = some mem := by
        show s.mem.setTableId arr s.tablesLen = some mem
        rw [h.mem, h.tablesLen, hmem]
      rw [ForwardLookupTableState.store, hset]
      rfl
    obtain ⟨table, hfirst, hlast⟩ := getOrInit_first _ (elems.map PrimElem.toFr) h hroom hload hinit
      hstore
    have hpush := @pushTable_agrees cap v s (.array elems.length) (elems.map PrimElem.toFr) h hcap
      hroom
    exact ⟨_, table, hfirst, hlast, { hpush with mem := rfl }⟩

end Table

/-! ## The machine's own steps

What is known of tables, and that offsets only grow.
-/

section Machine

variable {cap start : Nat} {v v' : Fwd} {vm vm' : FwdVm}

/-- The tables and the offsets are the same. -/
structure SameTables (vm vm' : FwdVm) : Prop where
  tables : vm'.tables = vm.tables
  rngchk8 : vm'.rgchk8 = vm.rgchk8
  spread : vm'.spreadTables = vm.spreadTables
  cnstOff : vm'.elemInversesConstraintSectionOffset = vm.elemInversesConstraintSectionOffset
  witOff : vm'.elemInversesWitnessSectionOffset = vm.elemInversesWitnessSectionOffset

theorem emitKey_sameTables {tableIdx flagU64 : Nat} {key : Fr}
    (h : vm.emitKey tableIdx key flagU64 = some vm') : SameTables vm vm' := by
  obtain ⟨table, -, h⟩ := Option.bind_eq_some_iff.mp h
  by_cases hflag : flagU64 = 0
  · simp only [hflag, ne_eq, not_true_eq_false, if_false] at h
    obtain rfl := Option.some.inj h
    exact ⟨rfl, rfl, rfl, rfl, rfl⟩
  · simp only [ne_eq, hflag, not_false_eq_true, if_true, FwdVm.bumpMultiplicity] at h
    split at h
    · obtain rfl := Option.some.inj h
      exact ⟨rfl, rfl, rfl, rfl, rfl⟩
    · simp at h

theorem TablesKnown.same (h : TablesKnown start { v with vm := vm }) (hsame : SameTables vm vm') :
    TablesKnown start { v with vm := vm' } where
  rngchk8 := by
    intro k hk
    rw [hsame.tables]
    exact h.rngchk8 k (hsame.rngchk8 ▸ hk)
  spread := by
    intro bits k hk
    rw [hsame.tables]
    exact h.spread bits k (hsame.spread ▸ hk)
  array := by
    intro p c k hc hk
    rw [hsame.tables]
    exact h.array p c k hc hk
  rows := by
    rw [hsame.tables, hsame.cnstOff]
    exact h.rows
  widths := by
    rw [hsame.spread]
    exact h.widths

theorem Fits.same (h : Fits cap { v with vm := vm' }) (hsame : SameTables vm vm') :
    Fits cap { v with vm := vm } := by
  obtain ⟨htables, hcnst, hwit⟩ := h
  rw [hsame.tables] at htables
  rw [hsame.cnstOff] at hcnst
  rw [hsame.witOff] at hwit
  exact ⟨htables, hcnst, hwit⟩

/-- Another table keeps what is known of the others. -/
theorem TablesKnown.push (h : TablesKnown start v) (values : List Fr) (numValues length : Nat) :
    TablesKnown start { v with vm := (v.vm.dumpValues values).pushTable numValues length } := by
  have hlen : ((v.vm.dumpValues values).pushTable numValues length).tables.length
      = v.vm.tables.length + 1 := by
    show (v.vm.tables ++ [_]).length = _
    rw [List.length_append, List.length_singleton]
  have hgrow : ∀ k, k < v.vm.tables.length →
      k < ((v.vm.dumpValues values).pushTable numValues length).tables.length := by
    intro k hk
    rw [hlen]
    exact Nat.lt_succ_of_lt hk
  have hrows : start + ((v.vm.dumpValues values).pushTable numValues length).tables.length
      ≤ v.vm.elemInversesConstraintSectionOffset + ((numValues + 1) * length + 1) := by
    have := h.rows
    omega
  exact {
    rngchk8 := fun k hk => hgrow k (h.rngchk8 k hk)
    spread := fun bits k hk => hgrow k (h.spread bits k hk)
    array := fun p c k hc hk => hgrow k (h.array p c k hc hk)
    rows := hrows
    widths := h.widths }

theorem Fits.push {values : List Fr} {numValues length : Nat}
    (h : Fits cap { v with vm := (v.vm.dumpValues values).pushTable numValues length }) :
    Fits cap v := by
  obtain ⟨htables, hcnst, hwit⟩ := h
  have hlen : (v.vm.tables ++ [_]).length ≤ cap := htables
  rw [List.length_append, List.length_singleton] at hlen
  have hcnst' :
    v.vm.elemInversesConstraintSectionOffset + ((numValues + 1) * length + 1) < 2 ^ 32 :=
    hcnst
  have hwit' : v.vm.elemInversesWitnessSectionOffset + (numValues + 1) * length < 2 ^ 32 := hwit
  exact ⟨by omega, by omega, by omega⟩

/-- A number that is known after a push is the new one or was known before. -/
theorem lt_length_push (vm : FwdVm) (values : List Fr) (numValues length : Nat) :
    vm.tables.length < ((vm.dumpValues values).pushTable numValues length).tables.length := by
  show vm.tables.length < (vm.tables ++ [_]).length
  rw [List.length_append, List.length_singleton]
  exact Nat.lt_succ_self _

theorem rngchk8Table_known (h : TablesKnown start v) :
    TablesKnown start { v with vm := v.vm.rngchk8Table.2 } := by
  unfold FwdVm.rngchk8Table
  split
  · exact h
  · have hpush := h.push [] 0 256
    refine { hpush with rngchk8 := ?_ }
    intro k hk
    obtain rfl := Option.some.inj hk
    exact lt_length_push v.vm [] 0 256

theorem rngchk8Table_fits (h : Fits cap { v with vm := v.vm.rngchk8Table.2 }) : Fits cap v := by
  unfold FwdVm.rngchk8Table at h
  split at h
  · exact h
  · exact @Fits.push cap v [] 0 256 ⟨h.tables, h.cnstOff, h.witOff⟩

theorem spreadTable_known {bits tableIdx : Nat} (h : TablesKnown start v)
    (hrun : v.vm.spreadTable bits = some (tableIdx, vm')) :
    TablesKnown start { v with vm := vm' } := by
  obtain ⟨known, hget, hrun⟩ := Option.bind_eq_some_iff.mp hrun
  cases known with
  | some k =>
    obtain ⟨rfl, rfl⟩ := Prod.mk.inj (Option.some.inj hrun)
    exact h
  | none =>
    obtain ⟨rfl, rfl⟩ := Prod.mk.inj (Option.some.inj hrun)
    have hpush := h.push (spreadValues bits) 1 (2 ^ bits)
    refine { hpush with spread := ?_, widths := ?_ }
    · intro bits' k hk
      change (v.vm.spreadTables.set bits (some v.vm.tables.length))[bits']? = some (some k) at hk
      by_cases hb : bits' = bits
      · subst hb
        rw [List.getElem?_set_self (List.getElem?_eq_some_iff.mp hget).1] at hk
        obtain rfl := Option.some.inj (Option.some.inj hk)
        exact lt_length_push v.vm (spreadValues bits') 1 (2 ^ bits')
      · rw [List.getElem?_set_ne (Ne.symm hb)] at hk
        exact hpush.spread bits' k hk
    · show (v.vm.spreadTables.set bits (some v.vm.tables.length)).length = 17
      rw [List.length_set, h.widths]

theorem spreadTable_fits {bits tableIdx : Nat}
    (hrun : v.vm.spreadTable bits = some (tableIdx, vm')) (h : Fits cap { v with vm := vm' }) :
    Fits cap v := by
  obtain ⟨known, -, hrun⟩ := Option.bind_eq_some_iff.mp hrun
  cases known with
  | some k =>
    obtain ⟨rfl, rfl⟩ := Prod.mk.inj (Option.some.inj hrun)
    exact h
  | none =>
    obtain ⟨rfl, rfl⟩ := Prod.mk.inj (Option.some.inj hrun)
    exact @Fits.push cap v (spreadValues bits) 1 (2 ^ bits) ⟨h.tables, h.cnstOff, h.witOff⟩

/-- What `arrayTable` does: nothing, or a table whose number goes into the array. -/
theorem arrayTable_cases {arr : Ptr} {tableIdx : Nat} (h : v.arrayTable arr = some (tableIdx, v')) :
    v' = v ∨ ∃ values mem, v.mem.setTableId arr v.vm.tables.length = some mem ∧
      v' = { v with mem := mem, vm := (v.vm.dumpValues values).pushTable 1 values.length } := by
  obtain ⟨c, hc, h⟩ := Option.bind_eq_some_iff.mp h
  cases hid : c.val.tableId with
  | some k =>
    rw [hid] at h
    obtain ⟨rfl, rfl⟩ := Prod.mk.inj (Option.some.inj h)
    exact .inl rfl
  | none =>
    rw [hid] at h
    obtain ⟨leaves, -, h⟩ := Option.bind_eq_some_iff.mp h
    obtain ⟨values, -, h⟩ := Option.bind_eq_some_iff.mp h
    obtain ⟨mem, hmem, h⟩ := Option.bind_eq_some_iff.mp h
    obtain ⟨rfl, rfl⟩ := Prod.mk.inj (Option.some.inj h)
    exact .inr ⟨values, mem, hmem, rfl⟩

/-- The table of an array after `table_id` is written. -/
theorem tableId_of_setTableId {m mem : Mem} {arr id : Nat} (h : m.setTableId arr id = some mem)
    {p : Ptr} {c : Counted Obj} {k : Nat} (hc : mem.heap.get? p = some c)
    (hk : c.val.tableId = some k) :
    k = id ∨ ∃ d, m.heap.get? p = some d ∧ d.val.tableId = some k := by
  obtain ⟨d, hd, h⟩ := Option.bind_eq_some_iff.mp h
  obtain rfl := Option.some.inj h
  by_cases hp : p = arr
  · subst hp
    rw [Store.get?_set_self (Store.lt_length_of_get? hd)] at hc
    obtain rfl := Option.some.inj hc
    exact .inl (Option.some.inj hk).symm
  · rw [Store.get?_set_ne hp] at hc
    exact .inr ⟨c, hc, hk⟩

theorem arrayTable_known {arr : Ptr} {tableIdx : Nat} (h : TablesKnown start v)
    (hrun : v.arrayTable arr = some (tableIdx, v')) : TablesKnown start v' := by
  rcases arrayTable_cases hrun with rfl | ⟨values, mem, hmem, rfl⟩
  · exact h
  · have hpush := h.push values 1 values.length
    refine { hpush with array := ?_ }
    intro p c k hc hk
    rcases tableId_of_setTableId hmem hc hk with rfl | ⟨d, hd, hdk⟩
    · exact lt_length_push v.vm values 1 values.length
    · exact hpush.array p d k hd hdk

theorem arrayTable_fits {arr : Ptr} {tableIdx : Nat}
    (hrun : v.arrayTable arr = some (tableIdx, v')) (h : Fits cap v') : Fits cap v := by
  rcases arrayTable_cases hrun with rfl | ⟨values, mem, -, rfl⟩
  · exact h
  · exact @Fits.push cap v values 1 values.length ⟨h.tables, h.cnstOff, h.witOff⟩

theorem forwardKvLookupEmit_sameTables {tableIdx flagU64 : Nat} {key result : Fr}
    (h : vm.forwardKvLookupEmit tableIdx key result flagU64 = some vm') : SameTables vm vm' := by
  obtain ⟨htables, hrngchk8, hspread, hcnst, hwit⟩ := emitKey_sameTables h
  exact ⟨htables, hrngchk8, hspread, hcnst, hwit⟩

theorem LookupOp.vm_known (op : LookupOp) (hrun : op.vm v = some v') (h : TablesKnown start v) :
    TablesKnown start v' := by
  cases op with
  | newArray elems =>
    obtain rfl := Option.some.inj hrun
    refine { h with array := ?_ }
    intro p c k hc hk
    by_cases hp : p = v.mem.heap.length
    · subst hp
      rw [Mem.alloc, Store.get?_append_length] at hc
      obtain rfl := Option.some.inj hc
      exact absurd hk (by simp)
    · rw [Mem.alloc, Store.get?_append_ne hp] at hc
      exact h.array p c k hc hk
  | rngchk8 val flag =>
    obtain ⟨vm', hvm, hrun⟩ := Option.bind_eq_some_iff.mp hrun
    obtain rfl := Option.some.inj hrun
    exact (rngchk8Table_known h).same (emitKey_sameTables hvm)
  | spread bits key result flag =>
    obtain ⟨vm', hvm, hrun⟩ := Option.bind_eq_some_iff.mp hrun
    obtain rfl := Option.some.inj hrun
    obtain ⟨⟨tableIdx, mid⟩, hmid, hvm⟩ := Option.bind_eq_some_iff.mp hvm
    exact (spreadTable_known h hmid).same (forwardKvLookupEmit_sameTables hvm)
  | array elemType count arr key result flag =>
    obtain ⟨⟨tableIdx, mid⟩, hmid, hrun⟩ := Option.bind_eq_some_iff.mp hrun
    obtain ⟨vm', hvm, hrun⟩ := Option.bind_eq_some_iff.mp hrun
    obtain rfl := Option.some.inj hrun
    exact (arrayTable_known h hmid).same (forwardKvLookupEmit_sameTables hvm)

theorem LookupOp.vm_fits (op : LookupOp) (hrun : op.vm v = some v') (h : Fits cap v') :
    Fits cap v := by
  cases op with
  | newArray elems =>
    obtain rfl := Option.some.inj hrun
    exact ⟨h.tables, h.cnstOff, h.witOff⟩
  | rngchk8 val flag =>
    obtain ⟨vm', hvm, hrun⟩ := Option.bind_eq_some_iff.mp hrun
    obtain rfl := Option.some.inj hrun
    exact rngchk8Table_fits (h.same (emitKey_sameTables hvm))
  | spread bits key result flag =>
    obtain ⟨vm', hvm, hrun⟩ := Option.bind_eq_some_iff.mp hrun
    obtain rfl := Option.some.inj hrun
    obtain ⟨⟨tableIdx, mid⟩, hmid, hvm⟩ := Option.bind_eq_some_iff.mp hvm
    exact spreadTable_fits hmid (h.same (forwardKvLookupEmit_sameTables hvm))
  | array elemType count arr key result flag =>
    obtain ⟨⟨tableIdx, mid⟩, hmid, hrun⟩ := Option.bind_eq_some_iff.mp hrun
    obtain ⟨vm', hvm, hrun⟩ := Option.bind_eq_some_iff.mp hrun
    obtain rfl := Option.some.inj hrun
    exact arrayTable_fits hmid (h.same (forwardKvLookupEmit_sameTables hvm))

end Machine

/-! ## Runs

One operation; the runs are in `Mavros.Llssa.LookupsAgree`.
-/

section Runs

variable {cap start : Nat} {v v' : Fwd} {s : WitgenVm}

theorem KeyInRange.of_flagU64 {key flag : Fr} {length : Nat} (h : KeyInRange key flag length) :
    lowU64 flag ≠ 0 → key.val < length := by
  intro hflag
  refine h fun hzero => hflag ?_
  rw [hzero, lowU64, ZMod.val_zero, Nat.zero_mod]

/-- One operation. -/
theorem LookupOp.agrees (op : LookupOp) (h : ForwardAgrees cap v s) (hknown : TablesKnown start v)
    (hcap : cap < 2 ^ 32) (hrange : op.InRange v) (hflag : op.FlagFits) (hrun : op.vm v = some v')
    (hfits : Fits cap v') : ∃ s', op.llssa s = some s' ∧ ForwardAgrees cap v' s' := by
  cases op with
  | newArray elems =>
    obtain rfl := Option.some.inj hrun
    refine ⟨_, rfl, { h with mem := ?_ }⟩
    show (s.mem.alloc (.primArray elems)).2 = (v.mem.alloc (.primArray elems)).2
    rw [h.mem]
  | rngchk8 val flag =>
    obtain ⟨vm', hvm, hrun⟩ := Option.bind_eq_some_iff.mp hrun
    obtain rfl := Option.some.inj hrun
    obtain ⟨s₁, table, hget, htable, h₁⟩ := rngchk8Table_agrees h hknown hcap
      (hfits.same (emitKey_sameTables hvm))
    obtain ⟨s', hs', h'⟩ := emitKey_agrees .rangecheck8 h₁ htable hrange.of_flagU64
      (by norm_num [LookupTableSpec.rangecheck8]) hvm
    refine ⟨s', ?_, h'⟩
    rw [← hs', LookupOp.llssa, WitgenVm.rngchk8, trapUnless_of (highLimbsZero_of_lt hflag)]
    simp only [Option.bind_eq_bind, Option.bind_some, fieldLimb_zero, hget]
  | spread bits key result flag =>
    obtain ⟨vm', hvm, hrun⟩ := Option.bind_eq_some_iff.mp hrun
    obtain rfl := Option.some.inj hrun
    obtain ⟨⟨tableIdx, mid⟩, hmid, hvm⟩ := Option.bind_eq_some_iff.mp hvm
    obtain ⟨hpos, hkey⟩ := hrange
    have hbits : bits ≤ 16 := spreadTable_width hknown hmid
    have hlen : (LookupTableSpec.spread bits).length ≤ 2 ^ 64 :=
      Nat.pow_le_pow_right (by norm_num) (by omega)
    obtain ⟨s₁, table, hget, htable, h₁⟩ := spreadTable_agrees h hknown hcap hmid
      (hfits.same (forwardKvLookupEmit_sameTables hvm))
    obtain ⟨s', hs', h'⟩ := forwardKvLookupEmit_agrees (.spread bits) h₁ htable hkey.of_flagU64 hlen
      hvm
    refine ⟨s', ?_, h'⟩
    rw [← hs', LookupOp.llssa, WitgenVm.spreadLookup, trapUnless_of (And.intro hpos hbits),
      trapUnless_of (highLimbsZero_of_lt hflag)]
    simp only [Option.bind_eq_bind, Option.bind_some, fieldLimb_zero, hget]
  | array elemType count arr key result flag =>
    obtain ⟨⟨tableIdx, mid⟩, hmid, hrun⟩ := Option.bind_eq_some_iff.mp hrun
    obtain ⟨vm', hvm, hrun⟩ := Option.bind_eq_some_iff.mp hrun
    obtain rfl := Option.some.inj hrun
    obtain ⟨hprim, hkey⟩ := hrange
    have hlen : (LookupTableSpec.array count).length ≤ 2 ^ 64 := hprim.1.le
    obtain ⟨s₁, table, hget, htable, h₁⟩ := arrayTable_agrees h hknown hcap hprim hmid
      (hfits.same (forwardKvLookupEmit_sameTables hvm))
    obtain ⟨s', hs', h'⟩ := forwardKvLookupEmit_agrees (.array count) h₁ htable hkey.of_flagU64 hlen
      hvm
    refine ⟨s', ?_, h'⟩
    rw [← hs', LookupOp.llssa, WitgenVm.arrayLookup, trapUnless_of (highLimbsZero_of_lt hflag)]
    simp only [Option.bind_eq_bind, Option.bind_some, fieldLimb_zero, hget]

end Runs

end Mavros.Llssa
