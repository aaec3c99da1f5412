/-
# `Mavros.Llssa.AdRelation` — two records of the derivative's tables

The machine keeps a registry of tables, the helpers keep where each table starts.  The
invariant `AdAgrees` reads the second off the first: the memory is the machine's, with
each `table_id` word replaced by the first row of the table it names.

## What is modelled

`DLookupOp` is an operation of the derivative pass, with its two readings `vm` and `llssa`.
`DLookupOp.InRange` is what the compiler guarantees: an array has the type its helper was generated
for, and a spread width has a helper.

## What is proved

* `AdWrite.run_eq`, `adWrites_eq`, `adWrites_retag`: a write of the helpers is the addition of the
  machine, also on a memory whose words have been changed.
* `AdAgrees.push`, `AdKnown.push`: a table of the machine, and the cursors of the helpers moved past
  its region, are in step.
* `sub32_snapshot`: the helper reads back what it has kept of a table that is known.

All of it is under `AdFits` and `AdRoom`: the offsets fit 32 bits, before a table and after it.
-/
import Mavros.Llssa.AdHelpers
import Mavros.Llssa.ForwardAgree
import Mavros.VM.DerivativeSpec

namespace Mavros.Llssa

open Lib

/-! ## Operations

One type for both sides, so that a run is a run of both.
-/

/-- An operation of the derivative pass: a new block, a new witness, or a lookup. -/
inductive DLookupOp where
  | alloc (payload : Payload)
  | freshWitness
  | drngchk8 (val flag : Ptr)
  | dspread (bits : Nat) (key result flag : Ptr)
  | darray (elemType : ElemType) (count : Nat) (arr key result flag : Ptr)

namespace DLookupOp

/-- The opcode of the machine. -/
def vm : DLookupOp → AdVm → Option AdVm
  | alloc payload, v => some { v with mem := (v.mem.alloc payload).2 }
  | freshWitness, v => some v.freshWitness.2
  | drngchk8 val flag, v => v.drngchk8Field val flag
  | dspread bits key result flag, v => v.dspreadLookupField bits key result flag
  | darray _ _ arr key result flag, v => v.darrayLookupField arr key result flag

/-- The call of the helper. -/
def llssa (wl : WitnessLayout) (cl : ConstraintsLayout) : DLookupOp → AdVmLl → Option AdVmLl
  | alloc payload, s => some { s with mem := (s.mem.alloc payload).2 }
  | freshWitness, s => some s.freshWitness.2
  | drngchk8 val flag, s => s.drngchk8AdCall wl cl val flag
  | dspread bits key result flag, s => s.dspreadAdCall wl cl bits key result flag
  | darray elemType count arr key result flag, s =>
      s.darrayAdCall wl cl elemType count arr key result flag

end DLookupOp

/-- The elements of an array of the type: scalars in place, or nodes. -/
def HoldsElems (heap : Heap) : ElemType → Payload → Prop
  | .witness, .boxedArray elems =>
      ∀ e ∈ elems, ∃ d, heap.get? e = some d ∧ d.val.payload.isArray = false
  | elemType, .primArray elems => ∀ e ∈ elems, elemType.Holds e
  | _, _ => False

/-- The array has the type that its lookup is generated for. -/
def IsAdArrayOf (elemType : ElemType) (count : Nat) (arr : Ptr) (v : AdVm) : Prop :=
  ∃ c, v.mem.heap.get? arr = some c ∧ c.val.payload.arraySize = count ∧
    HoldsElems v.mem.heap elemType c.val.payload

/-- Witness nodes come from `fresh_witness` alone; a width that has a helper; an array of
the type. -/
def DLookupOp.InRange (op : DLookupOp) (v : AdVm) : Prop :=
  match op with
  | alloc payload => ∀ index, payload ≠ .adWitness index
  | freshWitness => True
  | drngchk8 _ _ => True
  | dspread bits _ _ _ => 1 ≤ bits
  | darray elemType count arr _ _ _ => IsAdArrayOf elemType count arr v

/-! ## The invariant

Numbers of tables on the one side, first rows on the other.
-/

/-- The first row of a table, plus one. -/
def snapshotOf (tables : List TableInfo) (table : Option Nat) : Option Nat :=
  table.map fun k =>
    (tables[k]?.map fun t => t.elemInversesConstraintSectionOffset + 1).getD 0

/-- The same outputs, nodes, coefficients and cursors; a table is kept by its first row. -/
structure AdAgrees (v : AdVm) (s : AdVmLl) : Prop where
  mem : s.mem = v.mem.retag fun _ => snapshotOf v.tables
  coeffs : s.coeffs = v.adCoeffs
  witOff : s.currentWitOff = v.currentWitOff
  lookupWitOff : s.currentLookupWitOff = v.currentWitLookupsOff
  cnstTablesOff : s.currentCnstTablesOff = v.currentCnstTablesOff
  witTablesOff : s.currentWitTablesOff = v.currentWitTablesOff
  witMultiplicitiesOff : s.currentWitMultiplicitiesOff = v.currentWitMultiplicitiesOff
  rngchk8 : s.drngchk8InvCnstOff = (snapshotOf v.tables v.rgchk8).getD 0
  spread : ∀ bits table, v.spreadTables[bits]? = some table →
    s.dspreadInvCnstOff bits = (snapshotOf v.tables table).getD 0

/-- A table of the registry, below the rows that are free. -/
def IsTable (spec : LookupTableSpec) (v : AdVm) (k : Nat) : Prop :=
  ∃ t, v.tables[k]? = some t ∧ t.length = spec.length ∧
    t.elemInversesConstraintSectionOffset + spec.sumConstraintOffset < v.currentCnstTablesOff

/-- Every table that is referred to exists, witness nodes were handed out, and the rows of
the lookups go on in step with their witnesses. -/
structure AdKnown (wl : WitnessLayout) (cl : ConstraintsLayout) (v : AdVm) : Prop where
  challenge : v.logupWitChallengeOff = wl.challengesStart
  lookupsWit : wl.lookupsDataStart ≤ v.currentWitLookupsOff
  lookupsCnst : v.currentCnstLookupsOff
    = cl.lookupsDataStart + (v.currentWitLookupsOff - wl.lookupsDataStart)
  rngchk8 : ∀ k, v.rgchk8 = some k → IsTable .rangecheck8 v k
  spread : ∀ (bits k : Nat), v.spreadTables[bits]? = some (some k) → IsTable (.spread bits) v k
  array : ∀ p c k, v.mem.heap.get? p = some c → c.val.tableId = some k →
    IsTable (.array c.val.payload.arraySize) v k
  indices : ∀ p c index, v.mem.heap.get? p = some c → c.val.payload = .adWitness index →
    index < v.currentWitOff
  widths : v.spreadTables.length = 17

/-- The offsets fit 32 bits. -/
structure AdFits (v : AdVm) : Prop where
  wit : v.currentWitOff < 2 ^ 32
  mults : v.currentWitMultiplicitiesOff < 2 ^ 32
  witTables : v.currentWitTablesOff < 2 ^ 32
  witLookups : v.currentWitLookupsOff < 2 ^ 32
  cnstTables : v.currentCnstTablesOff < 2 ^ 32
  cnstLookups : v.currentCnstLookupsOff < 2 ^ 32

/-! ## Writes -/

/-- The addition that a write makes. -/
def AdWrite.toBump : AdWrite → Bump
  | const matrix value sensitivity => .out matrix 0 (value * sensitivity)
  | witness matrix index sensitivity => .out matrix index sensitivity
  | bump matrix node amount => .node matrix node amount

@[simp] theorem AdWrite.toBump_const (matrix : Side) (value sensitivity : Fr) :
    (const matrix value sensitivity).toBump = .out matrix 0 (value * sensitivity) := rfl

@[simp] theorem AdWrite.toBump_witness (matrix : Side) (index : Nat) (sensitivity : Fr) :
    (witness matrix index sensitivity).toBump = .out matrix index sensitivity := rfl

@[simp] theorem AdWrite.toBump_bump (matrix : Side) (node : Ptr) (amount : Fr) :
    (bump matrix node amount).toBump = .node matrix node amount := rfl

theorem fieldNegViaSub_eq (x : Fr) : fieldNegViaSub x = -x := zero_sub x

/-- The numbers of the witness nodes fit 32 bits. -/
def IndicesFit (m : Mem) : Prop :=
  ∀ p c index, m.heap.get? p = some c → c.val.payload = .adWitness index → index < 2 ^ 32

section Writes

variable {m m' : Mem}

/-- A live cell of one heap is live in the other, the same but for derivatives. -/
theorem cell_of_sameShape {h h' : Heap} (hs : SameShape h h') {p : Ptr} {c : Counted Obj}
    (hc : Store.get? h p = some c) :
    ∃ c', Store.get? h' p = some c' ∧ c'.val.tableId = c.val.tableId ∧
      c'.val.payload.erase = c.val.payload.erase := by
  have hp := congrArg (fun h => Store.get? h p) hs
  simp only [Heap.get?_erase, hc, Option.map_some] at hp
  obtain ⟨c', hc', he⟩ := Option.map_eq_some_iff.mp hp.symm
  exact ⟨c', hc', congrArg (fun c => c.val.tableId) he, congrArg (fun c => c.val.payload) he⟩

theorem adWitness_of_erase {payload : Payload} {index : Nat}
    (h : payload.erase = (Payload.adWitness index).erase) : payload = .adWitness index := by
  cases payload <;> first | exact h | exact absurd h (by simp [Payload.erase])

theorem arraySize_erase (payload : Payload) : payload.erase.arraySize = payload.arraySize := by
  cases payload <;> rfl

theorem IndicesFit.of_sameShape (h : IndicesFit m) (hs : SameShape m'.heap m.heap) :
    IndicesFit m' := by
  intro p c index hc hp
  obtain ⟨d, hd, -, he⟩ := cell_of_sameShape hs hc
  rw [hp] at he
  exact h p d index hd (adWitness_of_erase he)

theorem IndicesFit.retag (h : IndicesFit m) (g : Ptr → Option Nat → Option Nat) :
    IndicesFit (m.retag g) := by
  intro p c index hc hp
  rw [Mem.get?_retag] at hc
  obtain ⟨d, hd, rfl⟩ := Option.map_eq_some_iff.mp hc
  exact h p d index hd hp

theorem adBump_eq (h : IndicesFit m) (side : Side) (p : Ptr) (x : Fr) :
    adBump side p x m = m.bump side p x := by
  unfold adBump Mem.bump
  cases hc : Store.get? m.heap p with
  | none => rfl
  | some c =>
    simp only [Option.bind_eq_bind, Option.bind_some]
    cases hp : c.val.payload with
    | adConst value => simp only [mul_comm value x]
    | adWitness index => simp only [i32_of_lt (h p c index hc hp)]
    | _ => rfl

theorem AdWrite.run_eq (h : IndicesFit m) (w : AdWrite) : w.run m = w.toBump.run m := by
  cases w with
  | const matrix value sensitivity => rfl
  | witness matrix index sensitivity => rfl
  | bump matrix node amount => exact adBump_eq h matrix node amount

/-- Writes are the additions they stand for. -/
theorem adWrites_eq : ∀ (ws : List AdWrite) {m : Mem}, IndicesFit m →
    adWrites ws m = m.bumps (ws.map AdWrite.toBump) := by
  intro ws
  induction ws with
  | nil =>
    intro m _
    rfl
  | cons w ws ih =>
    intro m h
    have hcons : adWrites (w :: ws) m = (w.run m).bind fun m => adWrites ws m := rfl
    rw [hcons, List.map_cons, Mem.bumps_cons, AdWrite.run_eq h]
    cases hb : w.toBump.run m with
    | none => rfl
    | some m' => exact ih (h.of_sameShape (Bump.run_sameShape hb))

/-- On a memory whose words are changed. -/
theorem adWrites_retag {ws : List AdWrite} {bs : List Bump} (h : IndicesFit m)
    (hws : ws.map AdWrite.toBump = bs) (g : Ptr → Option Nat → Option Nat) :
    adWrites ws (m.retag g) = (m.bumps bs).map (Mem.retag g) := by
  rw [adWrites_eq ws (h.retag g), hws, Mem.bumps_retag]

end Writes

/-! ## Rows -/

section Rows

variable {wl : WitnessLayout} {cl : ConstraintsLayout} {v : AdVm} {s : AdVmLl}

/-- A table fits below the ends of the offsets' range, the challenges do too. -/
structure AdRoom (spec : LookupTableSpec) (v : AdVm) : Prop where
  mults : v.currentWitMultiplicitiesOff + spec.length < 2 ^ 32
  witTables : v.currentWitTablesOff + spec.witnessSlots < 2 ^ 32
  cnstTables : v.currentCnstTablesOff + spec.constraintSlots < 2 ^ 32
  challenges : v.logupWitChallengeOff + 1 < 2 ^ 32

theorem rngchk8AdRow_eq (h : AdAgrees v s)
    (hchallenge : v.logupWitChallengeOff = wl.challengesStart)
    (hroom : AdRoom .rangecheck8 v) (sumCoeff : Fr) {i : Nat} (hi : i < 256) :
    (s.rngchk8AdRow wl sumCoeff i).map AdWrite.toBump = v.rngchk8Row sumCoeff i := by
  obtain ⟨hmults, hwit, hcnst, hchal⟩ := hroom
  have hlen : LookupTableSpec.rangecheck8.length = 256 := rfl
  have hslots : LookupTableSpec.rangecheck8.witnessSlots = 256 := rfl
  have hrows : LookupTableSpec.rangecheck8.constraintSlots = 257 := rfl
  rw [hlen] at hmults
  rw [hslots] at hwit
  rw [hrows] at hcnst
  have hneg : ∀ x : Fr, (0 - (i : Fr)) * x = -(x * i) := by
    intro x
    ring
  simp only [AdVmLl.rngchk8AdRow, AdVm.rngchk8Row, List.map_cons, List.map_nil,
    AdWrite.toBump_const, AdWrite.toBump_witness, h.coeffs, h.cnstTablesOff, h.witTablesOff,
      h.witMultiplicitiesOff, ← hchallenge, hneg, add32]
  rw [i32_of_lt (show i < 2 ^ 32 by omega), i32_of_lt (by omega), i32_of_lt (by omega),
    i32_of_lt (by omega), i32_of_lt (by omega)]

theorem keyValueAdRow_eq {emitValueDb : Fr → AdWrite} {value : Fr → Bump} (spec : LookupTableSpec)
    (hspec : spec.keyValue = true) (h : AdAgrees v s)
    (hchallenge : v.logupWitChallengeOff = wl.challengesStart) (hroom : AdRoom spec v)
    (hvalue : ∀ x, (emitValueDb x).toBump = value x) (sumCoeff : Fr) {i : Nat}
    (hi : i < spec.length) :
    (s.keyValueAdRow wl sumCoeff emitValueDb i).map AdWrite.toBump
      = v.keyValueRows value i ++ [.out .a (v.currentWitTablesOff + 2 * i + 1) sumCoeff] := by
  obtain ⟨hmults, hwit, hcnst, hchal⟩ := hroom
  have hslots : spec.witnessSlots = 2 * spec.length := if_pos hspec
  have hrows : spec.constraintSlots = 2 * spec.length + 1 := by
    rw [LookupTableSpec.constraintSlots, hslots]
  rw [hslots] at hwit
  rw [hrows] at hcnst
  have hneg : ∀ x : Fr, -(i : Fr) * x = -(x * i) := by
    intro x
    ring
  have htwice : mul32 (i32 i) 2 = 2 * i := by
    rw [mul32, i32_of_lt (show i < 2 ^ 32 by omega), i32_of_lt (by omega), Nat.mul_comm]
  simp only [AdVmLl.keyValueAdRow, AdVm.keyValueRows, List.map_cons, List.map_nil,
    AdWrite.toBump_const, AdWrite.toBump_witness, List.cons_append, List.nil_append, h.coeffs,
    h.cnstTablesOff, h.witTablesOff, h.witMultiplicitiesOff, ← hchallenge, fieldNegViaSub_eq, hneg,
    hvalue, htwice, add32]
  have hx : i32 (v.currentCnstTablesOff + 2 * i) = v.currentCnstTablesOff + 2 * i :=
    i32_of_lt (by omega)
  have hy : i32 (v.currentCnstTablesOff + 2 * i + 1) = v.currentCnstTablesOff + 2 * i + 1 :=
    i32_of_lt (by omega)
  have hxWit : i32 (v.currentWitTablesOff + 2 * i) = v.currentWitTablesOff + 2 * i :=
    i32_of_lt (by omega)
  have hyWit : i32 (v.currentWitTablesOff + 2 * i + 1) = v.currentWitTablesOff + 2 * i + 1 :=
    i32_of_lt (by omega)
  have hmult : i32 (v.currentWitMultiplicitiesOff + i32 i) = v.currentWitMultiplicitiesOff + i := by
    rw [i32_of_lt (show i < 2 ^ 32 by omega), i32_of_lt (by omega)]
  have halpha : i32 v.logupWitChallengeOff = v.logupWitChallengeOff := i32_of_lt (by omega)
  have hbeta : i32 (v.logupWitChallengeOff + 1) = v.logupWitChallengeOff + 1 := i32_of_lt hchal
  simp only [hx, hy, hxWit, hyWit, hmult, halpha, hbeta]

end Rows

/-! ## Tables -/

section Tables

variable {wl : WitnessLayout} {cl : ConstraintsLayout} {v v' : AdVm} {s : AdVmLl} {mem : Mem}
  {spec spec' : LookupTableSpec}

theorem witnessSlots_eq (spec : LookupTableSpec) :
    (spec.numValues + 1) * spec.length = spec.witnessSlots := by
  obtain ⟨length, keyValue⟩ := spec
  cases keyValue
  · simp [LookupTableSpec.numValues, LookupTableSpec.witnessSlots]
  · simp [LookupTableSpec.numValues, LookupTableSpec.witnessSlots]

/-- The machine with one more table. -/
def pushed (spec : LookupTableSpec) (v : AdVm) : AdVm := v.pushTable spec.numValues spec.length

theorem pushed_cnstTablesOff (spec : LookupTableSpec) (v : AdVm) :
    (pushed spec v).currentCnstTablesOff = v.currentCnstTablesOff + spec.constraintSlots := by
  show v.currentCnstTablesOff + ((spec.numValues + 1) * spec.length + 1) = _
  rw [witnessSlots_eq]
  rfl

theorem pushed_witTablesOff (spec : LookupTableSpec) (v : AdVm) :
    (pushed spec v).currentWitTablesOff = v.currentWitTablesOff + spec.witnessSlots := by
  show v.currentWitTablesOff + (spec.numValues + 1) * spec.length = _
  rw [witnessSlots_eq]

theorem AdRoom.of_fits (spec : LookupTableSpec) (hfits : AdFits (pushed spec v))
    (hchal : v.logupWitChallengeOff + 1 < 2 ^ 32) : AdRoom spec v := by
  have hcnst := hfits.cnstTables
  have hwit := hfits.witTables
  rw [pushed_cnstTablesOff] at hcnst
  rw [pushed_witTablesOff] at hwit
  exact ⟨hfits.mults, hwit, hcnst, hchal⟩

theorem getElem?_pushed {k : Nat} {t : TableInfo} (h : v.tables[k]? = some t) :
    (pushed spec v).tables[k]? = some t := by
  show (v.tables ++ [_])[k]? = some t
  rw [List.getElem?_append_left (List.getElem?_eq_some_iff.mp h).1, h]

theorem IsTable.push {k : Nat} (h : IsTable spec v k) : IsTable spec (pushed spec' v) k := by
  obtain ⟨t, ht, hlen, hrow⟩ := h
  refine ⟨t, getElem?_pushed ht, hlen, ?_⟩
  rw [pushed_cnstTablesOff]
  exact Nat.lt_add_right _ hrow

/-- The table that is pushed starts at the first row that was free. -/
theorem getElem?_pushed_last (spec : LookupTableSpec) (v : AdVm) :
    ∃ t, (pushed spec v).tables[v.tables.length]? = some t ∧ t.length = spec.length ∧
      t.elemInversesConstraintSectionOffset = v.currentCnstTablesOff :=
  ⟨_, List.getElem?_concat_length, rfl, rfl⟩

theorem isTable_pushed (spec : LookupTableSpec) (v : AdVm) :
    IsTable spec (pushed spec v) v.tables.length := by
  obtain ⟨t, ht, hlen, hrow⟩ := getElem?_pushed_last spec v
  refine ⟨t, ht, hlen, ?_⟩
  rw [hrow, pushed_cnstTablesOff]
  exact Nat.add_lt_add_left (Nat.lt_succ_self _) _

theorem IsTable.lt {k : Nat} (h : IsTable spec v k) : k < v.tables.length := by
  obtain ⟨t, ht, -⟩ := h
  exact (List.getElem?_eq_some_iff.mp ht).1

theorem IsTable.row_lt {k : Nat} {t : TableInfo} (h : IsTable spec v k)
    (ht : v.tables[k]? = some t) :
    t.elemInversesConstraintSectionOffset < v.currentCnstTablesOff := by
  obtain ⟨t', ht', -, hrow⟩ := h
  obtain rfl := Option.some.inj (ht'.symm.trans ht)
  exact (Nat.le_add_right _ _).trans_lt hrow

theorem snapshotOf_pushed {table : Option Nat} (h : ∀ k, table = some k → k < v.tables.length) :
    snapshotOf (pushed spec v).tables table = snapshotOf v.tables table := by
  cases table with
  | none => rfl
  | some k =>
    have hlt := h k rfl
    have hget : (pushed spec v).tables[k]? = v.tables[k]? := List.getElem?_append_left hlt
    simp only [snapshotOf, Option.map_some, hget]

theorem snapshotOf_some {k : Nat} {t : TableInfo} (h : v.tables[k]? = some t) :
    snapshotOf v.tables (some k) = some (t.elemInversesConstraintSectionOffset + 1) := by
  simp only [snapshotOf, h, Option.map_some, Option.getD_some]

/-- The words of known tables read the same after a push. -/
theorem retag_pushed (spec : LookupTableSpec) (hknown : AdKnown wl cl v)
    (hs : SameShape mem.heap v.mem.heap) : mem.retag (fun _ => snapshotOf v.tables)
      = mem.retag fun _ => snapshotOf (pushed spec v).tables := by
  refine Mem.retag_congr fun p c hc => ?_
  obtain ⟨d, hd, hid, -⟩ := cell_of_sameShape hs hc
  refine (snapshotOf_pushed fun k hk => ?_).symm
  exact (hknown.array p d k hd (hid.trans hk)).lt

theorem AdAgrees.push (spec : LookupTableSpec) (h : AdAgrees v s) (hknown : AdKnown wl cl v)
    (hroom : AdRoom spec v) :
    AdAgrees (pushed spec v) (s.claimAdLookupTableRegion spec) := by
  obtain ⟨hmults, hwit, hcnst, -⟩ := hroom
  have hlen := length_le_witnessSlots spec
  exact { h with
    mem := by
      show s.mem = v.mem.retag fun _ => snapshotOf (pushed spec v).tables
      rw [← retag_pushed spec hknown rfl]
      exact h.mem
    cnstTablesOff := by
      show add32 s.currentCnstTablesOff (i32 spec.constraintSlots) = _
      rw [pushed_cnstTablesOff, h.cnstTablesOff,
        i32_of_lt (show spec.constraintSlots < 2 ^ 32 by omega),
        add32, i32_of_lt hcnst]
    witTablesOff := by
      show add32 s.currentWitTablesOff (i32 spec.witnessSlots) = _
      rw [pushed_witTablesOff, h.witTablesOff, i32_of_lt (show spec.witnessSlots < 2 ^ 32 by omega),
        add32, i32_of_lt hwit]
    witMultiplicitiesOff := by
      show add32 s.currentWitMultiplicitiesOff (i32 spec.length)
        = v.currentWitMultiplicitiesOff + spec.length
      rw [h.witMultiplicitiesOff, i32_of_lt (show spec.length < 2 ^ 32 by omega), add32,
        i32_of_lt hmults]
    rngchk8 := by
      show s.drngchk8InvCnstOff = (snapshotOf (pushed spec v).tables v.rgchk8).getD 0
      rw [h.rngchk8, snapshotOf_pushed fun k hk => (hknown.rngchk8 k hk).lt]
    spread := by
      intro bits table htable
      change v.spreadTables[bits]? = some table at htable
      show s.dspreadInvCnstOff bits = _
      rw [h.spread bits table htable,
        snapshotOf_pushed fun k hk => (hknown.spread bits k (by rw [htable, hk])).lt] }

theorem AdKnown.of_sameShape (h : AdKnown wl cl v) (hs : SameShape mem.heap v.mem.heap) :
    AdKnown wl cl { v with mem := mem } :=
  { h with
    array := by
      intro p c k hc hk
      obtain ⟨d, hd, hid, hpayload⟩ := cell_of_sameShape hs hc
      have hsize : d.val.payload.arraySize = c.val.payload.arraySize := by
        rw [← arraySize_erase, hpayload, arraySize_erase]
      rw [← hsize]
      exact h.array p d k hd (hid.trans hk)
    indices := by
      intro p c index hc hp
      obtain ⟨d, hd, -, hpayload⟩ := cell_of_sameShape hs hc
      rw [hp] at hpayload
      exact h.indices p d index hd (adWitness_of_erase hpayload) }

theorem AdKnown.push (spec : LookupTableSpec) (h : AdKnown wl cl v) :
    AdKnown wl cl (pushed spec v) :=
  { h with
    rngchk8 := by
      intro k hk
      exact (h.rngchk8 k hk).push
    spread := by
      intro bits k hk
      exact (h.spread bits k hk).push
    array := by
      intro p c k hc hk
      exact (h.array p c k hc hk).push }

theorem AdKnown.indicesFit (h : AdKnown wl cl v) (hfits : v.currentWitOff < 2 ^ 32) :
    IndicesFit v.mem := by
  intro p c index hc hp
  exact (h.indices p c index hc hp).trans hfits

/-- What the helper finds of a table that is known. -/
theorem sub32_snapshot {k : Nat} (h : IsTable spec v k) (hfits : v.currentCnstTablesOff < 2 ^ 32) :
    ∃ t, v.tables[k]? = some t ∧ t.length = spec.length ∧
      (snapshotOf v.tables (some k)).getD 0 = t.elemInversesConstraintSectionOffset + 1 ∧
      sub32 (t.elemInversesConstraintSectionOffset + 1) 1
        = t.elemInversesConstraintSectionOffset := by
  obtain ⟨t, ht, hlen, hrow⟩ := h
  refine ⟨t, ht, hlen, ?_, ?_⟩
  · rw [snapshotOf_some ht]
    rfl
  · rw [sub32, i32]
    omega

end Tables

end Mavros.Llssa
