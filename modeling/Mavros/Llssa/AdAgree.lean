/-
# `Mavros.Llssa.AdAgree` — the derivative helpers follow the machine

A lookup reads the coefficients of its rows, bumps its operands and takes the next
witnesses of its section.  With the tables settled, one operation of the machine is one
call of a helper.

## What is proved

`DLookupOp.agrees`: from states in step, an operation that is in range and that the machine executes
is executed by the helper, and leaves states in step; and `DLookupOp.vm_known`, `DLookupOp.vm_grows`
say of the machine alone that its tables stay known and its offsets only grow.

## How it goes

The helper finds the row of a lookup from the lookup's witness, by a subtraction of two section
starts, and the machine carries it along; `lookupRow_eq` says that the two are one, since a
lookup takes as many rows as witnesses.  The additions are the same in another order, for a
key with its value and for a key alone (`keyValueAdLookupCall_agrees`, `drngchk8Rows_agree`).
-/
import Mavros.Llssa.AdTables

namespace Mavros.Llssa

open Lib

/-! ## Rows of lookups -/

section Lookups

variable {wl : WitnessLayout} {cl : ConstraintsLayout} {v v' : AdVm} {s : AdVmLl} {k : Nat}
  {t : TableInfo}

/-- The machine after the rows of a lookup. -/
def withRows (n : Nat) (mem : Mem) (v : AdVm) : AdVm :=
  { v with
    mem := mem
    currentWitLookupsOff := v.currentWitLookupsOff + n
    currentCnstLookupsOff := v.currentCnstLookupsOff + n }

theorem AdKnown.withRows {mem : Mem} (h : AdKnown wl cl v) (hs : SameShape mem.heap v.mem.heap)
    (n : Nat) : AdKnown wl cl (withRows n mem v) :=
  { h.of_sameShape hs with
    lookupsWit := h.lookupsWit.trans (Nat.le_add_right _ n)
    lookupsCnst := by
      have hwit := h.lookupsWit
      have hcnst := h.lookupsCnst
      show v.currentCnstLookupsOff + n
        = cl.lookupsDataStart + (v.currentWitLookupsOff + n - wl.lookupsDataStart)
      omega }

theorem grows_withRows (n : Nat) (mem : Mem) (v : AdVm) : Grows v (withRows n mem v) :=
  { Grows.refl v with
    witLookups := Nat.le_add_right _ _
    cnstLookups := Nat.le_add_right _ _ }

/-- The row of a witness of the section. -/
theorem lookupRow_eq {i : Nat} (hknown : AdKnown wl cl v)
    (hwit : v.currentWitLookupsOff + i < 2 ^ 32) (hcnst : v.currentCnstLookupsOff + i < 2 ^ 32) :
    AdVmLl.lookupRow wl cl (v.currentWitLookupsOff + i) = v.currentCnstLookupsOff + i := by
  have hstart := hknown.lookupsWit
  have hrow := hknown.lookupsCnst
  rw [AdVmLl.lookupRow, i32_of_lt (show wl.lookupsDataStart < 2 ^ 32 by omega),
    i32_of_lt (show cl.lookupsDataStart < 2 ^ 32 by omega)]
  have hsub : sub32 (v.currentWitLookupsOff + i) wl.lookupsDataStart
      = v.currentWitLookupsOff + i - wl.lookupsDataStart := by
    rw [sub32, i32]
    omega
  rw [hsub, add32, i32]
  omega

theorem adKvLookupEmit_cases {key result flag : Ptr}
    (h : v.adKvLookupEmit k key result flag = some v') :
    ∃ (t : TableInfo) (mem : Mem), v.tables[k]? = some t ∧ v.mem.bumps
        [.out .a (v.logupWitChallengeOff + 1) (v.adCoeffs v.currentCnstLookupsOff),
          .node .b result (v.adCoeffs v.currentCnstLookupsOff),
          .out .c v.currentWitLookupsOff (-v.adCoeffs v.currentCnstLookupsOff),
          .out .a (v.currentWitLookupsOff + 1) (v.adCoeffs (v.currentCnstLookupsOff + 1)),
          .out .b v.logupWitChallengeOff (v.adCoeffs (v.currentCnstLookupsOff + 1)),
          .out .b v.currentWitLookupsOff (-v.adCoeffs (v.currentCnstLookupsOff + 1)),
          .node .b key (-v.adCoeffs (v.currentCnstLookupsOff + 1)),
          .node .c flag (v.adCoeffs (v.currentCnstLookupsOff + 1)),
          .out .c (v.currentWitLookupsOff + 1)
            (v.adCoeffs (t.elemInversesConstraintSectionOffset + 2 * t.length))] = some mem ∧
      v' = withRows 2 mem v := by
  obtain ⟨t, ht, h⟩ := Option.bind_eq_some_iff.mp h
  obtain ⟨mem, hmem, h⟩ := Option.bind_eq_some_iff.mp h
  exact ⟨t, mem, ht, hmem, (Option.some.inj h).symm⟩

theorem drngchk8Emit_cases {val flag : Ptr} (h : v.drngchk8Emit k val flag = some v') :
    ∃ (t : TableInfo) (mem : Mem), v.tables[k]? = some t ∧ v.mem.bumps
        [.out .c v.currentWitLookupsOff
            (v.adCoeffs (t.elemInversesConstraintSectionOffset + 256)),
          .out .a v.currentWitLookupsOff (v.adCoeffs v.currentCnstLookupsOff),
          .out .b v.logupWitChallengeOff (v.adCoeffs v.currentCnstLookupsOff),
          .node .b val (-v.adCoeffs v.currentCnstLookupsOff),
          .node .c flag (v.adCoeffs v.currentCnstLookupsOff)] = some mem ∧
      v' = withRows 1 mem v := by
  obtain ⟨t, ht, h⟩ := Option.bind_eq_some_iff.mp h
  obtain ⟨mem, hmem, h⟩ := Option.bind_eq_some_iff.mp h
  exact ⟨t, mem, ht, hmem, (Option.some.inj h).symm⟩

theorem challengesStart_le (wl : WitnessLayout) : wl.challengesStart ≤ wl.lookupsDataStart := by
  unfold WitnessLayout.lookupsDataStart WitnessLayout.tablesDataEnd WitnessLayout.tablesDataStart
    WitnessLayout.challengesEnd
  omega

/-- The rows of a key and its value. -/
theorem keyValueAdLookupCall_agrees {key result flag : Ptr} (spec : LookupTableSpec)
    (hspec : spec.keyValue = true) (h : AdAgrees v s) (hknown : AdKnown wl cl v)
    (htable : IsTable spec v k) (ht : v.tables[k]? = some t)
    (hrun : v.adKvLookupEmit k key result flag = some v') (hfits : AdFits v') :
    ∃ s', s.keyValueAdLookupCall wl cl t.elemInversesConstraintSectionOffset spec key result flag
      = some s' ∧ AdAgrees v' s' := by
  obtain ⟨t', mem, ht', hmem, rfl⟩ := adKvLookupEmit_cases hrun
  obtain rfl := Option.some.inj (ht'.symm.trans ht)
  obtain ⟨t'', ht'', hlen, hrow⟩ := htable
  obtain rfl := Option.some.inj (ht''.symm.trans ht)
  have hwit : v.currentWitLookupsOff + 2 < 2 ^ 32 := hfits.witLookups
  have hcnst : v.currentCnstLookupsOff + 2 < 2 ^ 32 := hfits.cnstLookups
  have hstart := hknown.lookupsWit
  have hchal := challengesStart_le wl
  have hsum := invSumCoeff_eq spec hspec h (hrow.trans hfits.cnstTables)
  rw [← hlen] at hsum
  have hnext : add32 v.currentWitLookupsOff 1 = v.currentWitLookupsOff + 1 := by
    rw [add32, i32_of_lt (by omega)]
  have hxRow : AdVmLl.lookupRow wl cl v.currentWitLookupsOff = v.currentCnstLookupsOff :=
    lookupRow_eq (i := 0) hknown (by omega) (by omega)
  have hyRow : AdVmLl.lookupRow wl cl (v.currentWitLookupsOff + 1) = v.currentCnstLookupsOff + 1 :=
    lookupRow_eq (i := 1) hknown (by omega) (by omega)
  have halpha : i32 wl.challengesStart = v.logupWitChallengeOff := by
    rw [hknown.challenge, i32_of_lt (by omega)]
  have hbeta : i32 (wl.challengesStart + 1) = v.logupWitChallengeOff + 1 := by
    rw [hknown.challenge, i32_of_lt (by omega)]
  let s' : AdVmLl :=
    { s with
      currentLookupWitOff := add32 (add32 s.currentLookupWitOff 1) 1
      mem := mem.retag fun _ => snapshotOf v.tables }
  have hcall : s.keyValueAdLookupCall wl cl t''.elemInversesConstraintSectionOffset spec key result
      flag = some s' := by
    unfold AdVmLl.keyValueAdLookupCall
    refine AdVmLl.write_eq (m := v.mem) h.mem (hknown.indicesFit hfits.wit) ?_ hmem
    simp only [List.map_cons, List.map_nil, AdWrite.toBump_witness,
      AdWrite.toBump_bump, fieldNegViaSub_eq, h.coeffs, h.lookupWitOff, hnext, hxRow, hyRow, halpha,
      hbeta, hsum]
  refine ⟨s', hcall, { h with mem := rfl, lookupWitOff := ?_ }⟩
  show add32 (add32 s.currentLookupWitOff 1) 1 = v.currentWitLookupsOff + 2
  rw [h.lookupWitOff, hnext, add32, i32_of_lt (by omega)]

/-- The row of a range check. -/
theorem drngchk8Rows_agree {val flag : Ptr} (h : AdAgrees v s) (hknown : AdKnown wl cl v)
    (htable : IsTable .rangecheck8 v k) (ht : v.tables[k]? = some t)
    (hrun : v.drngchk8Emit k val flag = some v') (hfits : AdFits v') :
    ∃ s', ({ s with currentLookupWitOff := add32 s.currentLookupWitOff 1 } : AdVmLl).write
        [.witness .c s.currentLookupWitOff
            (s.coeffs (add32 t.elemInversesConstraintSectionOffset 256)),
          .witness .a s.currentLookupWitOff
            (s.coeffs (AdVmLl.lookupRow wl cl s.currentLookupWitOff)),
          .witness .b (i32 wl.challengesStart)
            (s.coeffs (AdVmLl.lookupRow wl cl s.currentLookupWitOff)),
          .bump .b val (0 - s.coeffs (AdVmLl.lookupRow wl cl s.currentLookupWitOff)),
          .bump .c flag (s.coeffs (AdVmLl.lookupRow wl cl s.currentLookupWitOff))]
      = some s' ∧ AdAgrees v' s' := by
  obtain ⟨t', mem, ht', hmem, rfl⟩ := drngchk8Emit_cases hrun
  obtain rfl := Option.some.inj (ht'.symm.trans ht)
  obtain ⟨t'', ht'', -, hrow⟩ := htable
  obtain rfl := Option.some.inj (ht''.symm.trans ht)
  have hwit : v.currentWitLookupsOff + 1 < 2 ^ 32 := hfits.witLookups
  have hcnst : v.currentCnstLookupsOff + 1 < 2 ^ 32 := hfits.cnstLookups
  have hstart := hknown.lookupsWit
  have hchal := challengesStart_le wl
  have hsum : add32 t''.elemInversesConstraintSectionOffset 256
      = t''.elemInversesConstraintSectionOffset + 256 :=
    i32_of_lt (hrow.trans hfits.cnstTables)
  have hinvRow : AdVmLl.lookupRow wl cl v.currentWitLookupsOff = v.currentCnstLookupsOff :=
    lookupRow_eq (i := 0) hknown (by omega) (by omega)
  have halpha : i32 wl.challengesStart = v.logupWitChallengeOff := by
    rw [hknown.challenge, i32_of_lt (by omega)]
  refine ⟨_, AdVmLl.write_eq (m := v.mem) h.mem (hknown.indicesFit hfits.wit) ?_ hmem,
    { h with mem := rfl, lookupWitOff := ?_ }⟩
  · simp only [List.map_cons, List.map_nil, AdWrite.toBump_witness, AdWrite.toBump_bump, zero_sub,
      h.coeffs, h.lookupWitOff, hsum, hinvRow, halpha]
  · show add32 s.currentLookupWitOff 1 = v.currentWitLookupsOff + 1
    rw [h.lookupWitOff, add32, i32_of_lt hwit]

end Lookups

/-! ## One operation

The cases, and what each leaves of the invariants.
-/

section Steps

variable {wl : WitnessLayout} {cl : ConstraintsLayout} {v v' : AdVm} {s : AdVmLl} {k : Nat}

theorem drngchk8Table_grows (h : v.drngchk8Table = some (k, v')) : Grows v v' := by
  rcases drngchk8Table_cases h with ⟨-, rfl⟩ | ⟨mem, -, -, rfl⟩
  · exact .refl _
  · exact { grows_pushed .rangecheck8 v with }

theorem dspreadTable_grows {bits : Nat} (h : v.dspreadTable bits = some (k, v')) : Grows v v' := by
  obtain ⟨-, ⟨-, rfl⟩ | ⟨mem, -, -, rfl⟩⟩ := dspreadTable_cases h
  · exact .refl _
  · exact { grows_pushed (.spread bits) v with }

theorem darrayTable_grows {arr : Ptr} (h : v.darrayTable arr = some (k, v')) : Grows v v' := by
  obtain ⟨c, -, ⟨-, rfl⟩ | ⟨leaves, mem, -, -, -, rfl⟩⟩ := darrayTable_cases h
  · exact .refl _
  · exact { grows_pushed (.array leaves.length) v with }

theorem adKvLookupEmit_grows {key result flag : Ptr}
    (h : v.adKvLookupEmit k key result flag = some v') : Grows v v' := by
  obtain ⟨t, mem, -, -, rfl⟩ := adKvLookupEmit_cases h
  exact grows_withRows 2 mem v

theorem drngchk8Emit_grows {val flag : Ptr} (h : v.drngchk8Emit k val flag = some v') :
    Grows v v' := by
  obtain ⟨t, mem, -, -, rfl⟩ := drngchk8Emit_cases h
  exact grows_withRows 1 mem v

theorem DLookupOp.vm_grows (op : DLookupOp) (hrun : op.vm v = some v') : Grows v v' := by
  cases op with
  | alloc payload =>
    obtain rfl := Option.some.inj hrun
    exact { Grows.refl v with }
  | freshWitness =>
    obtain rfl := Option.some.inj hrun
    exact { Grows.refl v with wit := Nat.le_succ _ }
  | drngchk8 val flag =>
    obtain ⟨⟨k, mid⟩, hmid, hrun⟩ := Option.bind_eq_some_iff.mp hrun
    exact (drngchk8Table_grows hmid).trans (drngchk8Emit_grows hrun)
  | dspread bits key result flag =>
    obtain ⟨⟨k, mid⟩, hmid, hrun⟩ := Option.bind_eq_some_iff.mp hrun
    exact (dspreadTable_grows hmid).trans (adKvLookupEmit_grows hrun)
  | darray elemType count arr key result flag =>
    obtain ⟨⟨k, mid⟩, hmid, hrun⟩ := Option.bind_eq_some_iff.mp hrun
    exact (darrayTable_grows hmid).trans (adKvLookupEmit_grows hrun)

/-- A new block has no table; a new witness node has the next number. -/
theorem AdKnown.alloc {payload : Payload} {n : Nat} (h : AdKnown wl cl v)
    (hn : v.currentWitOff ≤ n) (hnode : ∀ index, payload = .adWitness index → index < n) :
    AdKnown wl cl { v with mem := (v.mem.alloc payload).2, currentWitOff := n } := by
  have hcell : ∀ p c, Store.get? (v.mem.alloc payload).2.heap p = some c →
      Store.get? v.mem.heap p = some c ∨ c = ⟨1, ⟨payload, none⟩⟩ := by
    intro p c hc
    by_cases hp : p = v.mem.heap.length
    · subst hp
      rw [Mem.alloc, Store.get?_append_length] at hc
      exact .inr (Option.some.inj hc).symm
    · rw [Mem.alloc, Store.get?_append_ne hp] at hc
      exact .inl hc
  refine { h with array := ?_, indices := ?_ }
  · intro p c k hc hk
    rcases hcell p c hc with hold | rfl
    · exact h.array p c k hold hk
    · exact absurd hk (by simp)
  · intro p c index hc hp
    rcases hcell p c hc with hold | rfl
    · exact (h.indices p c index hold hp).trans_le hn
    · exact hnode index hp

theorem adKvLookupEmit_known {key result flag : Ptr} (h : AdKnown wl cl v)
    (hrun : v.adKvLookupEmit k key result flag = some v') : AdKnown wl cl v' := by
  obtain ⟨t, mem, -, hmem, rfl⟩ := adKvLookupEmit_cases hrun
  exact h.withRows (Mem.bumps_sameShape _ hmem) 2

theorem DLookupOp.vm_known (op : DLookupOp) (hrange : op.InRange v) (hrun : op.vm v = some v')
    (h : AdKnown wl cl v) : AdKnown wl cl v' := by
  cases op with
  | alloc payload =>
    obtain rfl := Option.some.inj hrun
    exact h.alloc (Nat.le_refl _) fun index hp => absurd hp (hrange index)
  | freshWitness =>
    obtain rfl := Option.some.inj hrun
    refine h.alloc (Nat.le_succ _) fun index hp => ?_
    obtain rfl := Payload.adWitness.inj hp
    exact Nat.lt_succ_self _
  | drngchk8 val flag =>
    obtain ⟨⟨k, mid⟩, hmid, hrun⟩ := Option.bind_eq_some_iff.mp hrun
    obtain ⟨t, mem, -, hmem, rfl⟩ := drngchk8Emit_cases hrun
    exact (drngchk8Table_known h hmid).1.withRows (Mem.bumps_sameShape _ hmem) 1
  | dspread bits key result flag =>
    obtain ⟨⟨k, mid⟩, hmid, hrun⟩ := Option.bind_eq_some_iff.mp hrun
    exact adKvLookupEmit_known (dspreadTable_known h hmid).1 hrun
  | darray elemType count arr key result flag =>
    obtain ⟨⟨k, mid⟩, hmid, hrun⟩ := Option.bind_eq_some_iff.mp hrun
    exact adKvLookupEmit_known (darrayTable_known h hrange hmid).1 hrun

theorem adKvLookupEmit_takes {key result flag : Ptr}
    (h : v.adKvLookupEmit k key result flag = some v') :
    v.currentWitLookupsOff < v'.currentWitLookupsOff := by
  obtain ⟨t, mem, -, -, rfl⟩ := adKvLookupEmit_cases h
  exact Nat.lt_add_of_pos_right (by norm_num)

theorem drngchk8Emit_takes {val flag : Ptr} (h : v.drngchk8Emit k val flag = some v') :
    v.currentWitLookupsOff < v'.currentWitLookupsOff := by
  obtain ⟨t, mem, -, -, rfl⟩ := drngchk8Emit_cases h
  exact Nat.lt_succ_self _

/-- The challenges lie below the witness that a lookup takes. -/
theorem AdKnown.challenge_lt {mid : AdVm} (h : AdKnown wl cl v) (hmid : Grows v mid)
    (htakes : mid.currentWitLookupsOff < v'.currentWitLookupsOff) (hfits : AdFits v') :
    v.logupWitChallengeOff + 1 < 2 ^ 32 := by
  have hchal := challengesStart_le wl
  have hstart := h.lookupsWit
  have hgrows := hmid.witLookups
  have hlast := hfits.witLookups
  rw [h.challenge]
  omega

/-- One operation. -/
theorem DLookupOp.agrees (op : DLookupOp) (h : AdAgrees v s) (hknown : AdKnown wl cl v)
    (hrange : op.InRange v) (hrun : op.vm v = some v') (hfits : AdFits v') :
    ∃ s', op.llssa wl cl s = some s' ∧ AdAgrees v' s' := by
  cases op with
  | alloc payload =>
    obtain rfl := Option.some.inj hrun
    refine ⟨_, rfl, { h with mem := ?_ }⟩
    show (s.mem.alloc payload).2 = (v.mem.alloc payload).2.retag _
    rw [h.mem, Mem.retag_alloc payload fun _ => rfl]
  | freshWitness =>
    obtain rfl := Option.some.inj hrun
    refine ⟨_, rfl, { h with mem := ?_, witOff := ?_ }⟩
    · show (s.mem.alloc (.adWitness s.currentWitOff)).2
        = (v.mem.alloc (.adWitness v.currentWitOff)).2.retag _
      rw [h.mem, h.witOff, Mem.retag_alloc _ fun _ => rfl]
      rfl
    · show add32 s.currentWitOff 1 = v.currentWitOff + 1
      rw [h.witOff, add32]
      exact i32_of_lt hfits.wit
  | drngchk8 val flag =>
    obtain ⟨⟨k, mid⟩, hmid, hrun⟩ := Option.bind_eq_some_iff.mp hrun
    have hfitsMid := AdFits.of_grows (drngchk8Emit_grows hrun) hfits
    have hchal := hknown.challenge_lt (drngchk8Table_grows hmid) (drngchk8Emit_takes hrun) hfits
    obtain ⟨hknownMid, htable⟩ := drngchk8Table_known hknown hmid
    obtain ⟨sMid, t, hinit, ht, hMid⟩ := drngchk8Table_agrees h hknown hchal hmid hfitsMid
    obtain ⟨s', hs', h'⟩ := drngchk8Rows_agree hMid hknownMid htable ht hrun hfits
    refine ⟨s', ?_, h'⟩
    rw [DLookupOp.llssa, AdVmLl.drngchk8AdCall, hinit]
    exact hs'
  | dspread bits key result flag =>
    obtain ⟨⟨k, mid⟩, hmid, hrun⟩ := Option.bind_eq_some_iff.mp hrun
    have hfitsMid := AdFits.of_grows (adKvLookupEmit_grows hrun) hfits
    have hchal := hknown.challenge_lt (dspreadTable_grows hmid) (adKvLookupEmit_takes hrun) hfits
    have hbits : bits ≤ 16 := by
      have hwidth := (dspreadTable_cases hmid).1
      rw [hknown.widths] at hwidth
      omega
    obtain ⟨hknownMid, htable⟩ := dspreadTable_known hknown hmid
    obtain ⟨sMid, t, hinit, ht, hMid⟩ := dspreadTable_agrees hbits h hknown hchal hmid hfitsMid
    obtain ⟨s', hs', h'⟩ := keyValueAdLookupCall_agrees (.spread bits) rfl hMid hknownMid htable ht
      hrun hfits
    refine ⟨s', ?_, h'⟩
    have hwidth : 1 ≤ bits ∧ bits ≤ 16 := ⟨hrange, hbits⟩
    rw [DLookupOp.llssa, AdVmLl.dspreadAdCall, trapUnless_of hwidth, hinit]
    exact hs'
  | darray elemType count arr key result flag =>
    obtain ⟨⟨k, mid⟩, hmid, hrun⟩ := Option.bind_eq_some_iff.mp hrun
    have hfitsMid := AdFits.of_grows (adKvLookupEmit_grows hrun) hfits
    have hchal := hknown.challenge_lt (darrayTable_grows hmid) (adKvLookupEmit_takes hrun) hfits
    obtain ⟨hknownMid, htable⟩ := darrayTable_known hknown hrange hmid
    obtain ⟨sMid, t, hinit, ht, hMid⟩ := darrayTable_agrees h hknown hchal hrange hmid hfitsMid
    obtain ⟨s', hs', h'⟩ := keyValueAdLookupCall_agrees (.array count) rfl hMid hknownMid htable ht
      hrun hfits
    refine ⟨s', ?_, h'⟩
    rw [DLookupOp.llssa, AdVmLl.darrayAdCall, hinit]
    exact hs'

end Steps

end Mavros.Llssa
