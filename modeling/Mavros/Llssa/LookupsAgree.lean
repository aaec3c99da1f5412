/-
# `Mavros.Llssa.LookupsAgree` — whole runs of lookups on both backends

The one-step theorems of the two passes, carried along a run.  A run starts where the
layouts put the sections and ends inside them; offsets never go back, so they were inside
all along.

## What is proved

`lookup_helpers_agree`: for layouts that 32 bits can number, on every run of the forward pass with
keys in range and flags of a word, and every run of the derivative pass, that end inside their
sections, the helpers go through.  The forward pass leaves the same tables, counters, tape and
offsets, the derivative pass the same outputs.

`lookup_helpers_disagree` has what is left out: a flag of `2 ^ 64`, which the machine takes for zero
and at which the helper traps, and rows from `2 ^ 32` on, which the helper numbers from zero again.

## How it goes

`ForwardRun` and `AdRun` are runs together with the bounds on their last state.  A bound on an
offset that only grows holds all along if it holds at the end (`runAll_of_end`), and with the
one-step theorem in the place of the relation the rest is `Mavros.Lib.Lockstep`.
-/
import Mavros.Llssa.AdAgree

namespace Mavros.Llssa

open Lib

/-! ## The forward pass -/

section Forward

variable {wl : WitnessLayout} {cl : ConstraintsLayout}

/-- Lookups with keys in range and flags of a machine word, whose tables fill no more than
their sections. -/
structure ForwardRun (wl : WitnessLayout) (cl : ConstraintsLayout) where
  ops : List LookupOp
  final : Fwd
  run_eq : runAll LookupOp.vm ops (Fwd.newWitgen wl cl) = some final
  in_order : Along LookupOp.vm (fun op v => op.InRange v ∧ op.FlagFits) ops (Fwd.newWitgen wl cl)
  cnst_le : final.vm.elemInversesConstraintSectionOffset ≤ cl.lookupsDataStart
  wit_le : final.vm.elemInversesWitnessSectionOffset ≤ wl.tablesDataEnd - wl.challengesStart

theorem forwardAgrees_init (hwl : wl.size < 2 ^ 32) (hcl : cl.size < 2 ^ 32) :
    ForwardAgrees cl.tablesDataSize (Fwd.newWitgen wl cl) (.init wl cl) where
  outA := rfl
  outB := rfl
  outC := rfl
  witness := rfl
  multsCursor := rfl
  lookupsA := rfl
  lookupsB := rfl
  lookupsC := rfl
  tablesLen := rfl
  tables := by
    intro i t ht
    exact absurd ht (by simp [Fwd.newWitgen, FwdVm.newWitgen])
  cnstOff := by
    have hsize : cl.algebraicSize + cl.tablesDataSize + cl.lookupsDataSize < 2 ^ 32 := hcl
    exact i32_of_lt (show cl.algebraicSize < 2 ^ 32 by omega)
  witOff := by
    refine i32_of_lt ?_
    unfold WitnessLayout.size at hwl
    unfold WitnessLayout.tablesDataStart WitnessLayout.challengesEnd
    omega
  rngchk8 := rfl
  spread := by
    intro bits table htable
    obtain rfl := List.eq_of_mem_replicate (List.mem_of_getElem? htable)
    rfl
  mem := rfl
  tablesCap := by
    have hsize : cl.algebraicSize + cl.tablesDataSize + cl.lookupsDataSize < 2 ^ 32 := hcl
    exact i32_of_lt (show cl.tablesDataSize < 2 ^ 32 by omega)

theorem tablesKnown_init : TablesKnown cl.tablesDataStart (Fwd.newWitgen wl cl) where
  rngchk8 := by
    intro k hk
    exact absurd hk (by simp [Fwd.newWitgen, FwdVm.newWitgen])
  spread := by
    intro bits k hk
    exact absurd (List.eq_of_mem_replicate (List.mem_of_getElem? hk)) (by simp)
  array := by
    intro p c k hc
    exact absurd hc (by simp [Fwd.newWitgen, Store.get?])
  rows := Nat.le_refl _
  widths := rfl

/-- The helpers follow a run of the machine. -/
theorem ForwardRun.agrees (run : ForwardRun wl cl) (hwl : wl.size < 2 ^ 32)
    (hcl : cl.size < 2 ^ 32) :
    ∃ s, runAll LookupOp.llssa run.ops (.init wl cl) = some s ∧
      ForwardAgrees cl.tablesDataSize run.final s := by
  have hknown := runAll_keeps (I := TablesKnown cl.tablesDataStart)
    (fun op v v' hrun => op.vm_known hrun)
    run.ops _ _ run.run_eq tablesKnown_init
  have hcl' : cl.algebraicSize + cl.tablesDataSize + cl.lookupsDataSize < 2 ^ 32 := hcl
  have hcnst : run.final.vm.elemInversesConstraintSectionOffset
      ≤ cl.algebraicSize + cl.tablesDataSize := run.cnst_le
  have hrows : cl.algebraicSize + run.final.vm.tables.length
      ≤ run.final.vm.elemInversesConstraintSectionOffset := hknown.rows
  have hwit := run.wit_le
  have hfits : Fits cl.tablesDataSize run.final := by
    refine ⟨by omega, by omega, hwit.trans_lt ?_⟩
    unfold WitnessLayout.size at hwl
    unfold WitnessLayout.tablesDataEnd WitnessLayout.tablesDataStart WitnessLayout.challengesEnd
    omega
  obtain ⟨s, hs, hagrees, -⟩ := lockstep
    (R := fun v s => ForwardAgrees cl.tablesDataSize v s ∧ TablesKnown cl.tablesDataStart v)
    (fun op v v' => LookupOp.vm_fits op)
    (by
      intro op v s v' hrel hop hrun hfits
      obtain ⟨h, hknown⟩ := hrel
      obtain ⟨s', hs', h'⟩ := op.agrees h hknown (by omega) hop.1 hop.2 hrun hfits
      exact ⟨s', hs', h', op.vm_known hrun hknown⟩)
    run.ops _ _ _ ⟨forwardAgrees_init hwl hcl, tablesKnown_init⟩ run.in_order run.run_eq hfits
  exact ⟨s, hs, hagrees⟩

end Forward

/-! ## The derivative pass -/

section Derivative

variable {wl : WitnessLayout} {cl : ConstraintsLayout} {coeffs : Nat → Fr}

/-- Lookups of the derivative pass that end inside the sections. -/
structure AdRun (coeffs : Nat → Fr) (wl : WitnessLayout) (cl : ConstraintsLayout) where
  ops : List DLookupOp
  final : AdVm
  run_eq : runAll DLookupOp.vm ops (AdVm.newAd coeffs wl cl) = some final
  in_order : Along DLookupOp.vm (fun op v => op.InRange v) ops (AdVm.newAd coeffs wl cl)
  wit_le : final.currentWitOff ≤ wl.algebraicSize
  mults_le : final.currentWitMultiplicitiesOff ≤ wl.multiplicitiesEnd
  witTables_le : final.currentWitTablesOff ≤ wl.tablesDataEnd
  witLookups_le : final.currentWitLookupsOff ≤ wl.lookupsDataEnd
  cnstTables_le : final.currentCnstTablesOff ≤ cl.lookupsDataStart
  cnstLookups_le : final.currentCnstLookupsOff ≤ cl.size

theorem adKnown_init : AdKnown wl cl (AdVm.newAd coeffs wl cl) where
  challenge := rfl
  lookupsWit := Nat.le_refl _
  lookupsCnst := by
    show cl.lookupsDataStart = cl.lookupsDataStart + (wl.lookupsDataStart - wl.lookupsDataStart)
    rw [Nat.sub_self, Nat.add_zero]
  rngchk8 := by
    intro k hk
    exact absurd hk (by simp [AdVm.newAd])
  spread := by
    intro bits k hk
    exact absurd (List.eq_of_mem_replicate (List.mem_of_getElem? hk)) (by simp)
  array := by
    intro p c k hc
    exact absurd hc (by simp [AdVm.newAd, Store.get?])
  indices := by
    intro p c index hc
    exact absurd hc (by simp [AdVm.newAd, Store.get?])
  widths := rfl

theorem AdRun.fits (run : AdRun coeffs wl cl) (hwl : wl.size < 2 ^ 32) (hcl : cl.size < 2 ^ 32) :
    AdFits run.final := by
  have hwl' : wl.algebraicSize + wl.multiplicitiesSize + wl.challengesSize + wl.tablesDataSize
      + wl.lookupsDataSize < 2 ^ 32 := hwl
  have hcl' : cl.algebraicSize + cl.tablesDataSize + cl.lookupsDataSize < 2 ^ 32 := hcl
  have hmults : run.final.currentWitMultiplicitiesOff ≤ wl.algebraicSize + wl.multiplicitiesSize :=
    run.mults_le
  have hwitTables : run.final.currentWitTablesOff ≤ wl.tablesDataSize
      + (wl.algebraicSize + wl.multiplicitiesSize + wl.challengesSize) := run.witTables_le
  have hwitLookups : run.final.currentWitLookupsOff ≤ wl.lookupsDataSize + (wl.tablesDataSize
      + (wl.algebraicSize + wl.multiplicitiesSize + wl.challengesSize)) := run.witLookups_le
  have hcnstTables : run.final.currentCnstTablesOff ≤ cl.algebraicSize + cl.tablesDataSize :=
    run.cnstTables_le
  have hwit := run.wit_le
  have hcnstLookups := run.cnstLookups_le
  exact ⟨by omega, by omega, by omega, by omega, by omega, by omega⟩

theorem adAgrees_init (hwl : wl.size < 2 ^ 32) (hcl : cl.size < 2 ^ 32) :
    AdAgrees (AdVm.newAd coeffs wl cl) (.init coeffs wl cl) := by
  have hwl' : wl.algebraicSize + wl.multiplicitiesSize + wl.challengesSize + wl.tablesDataSize
      + wl.lookupsDataSize < 2 ^ 32 := hwl
  have hcl' : cl.algebraicSize + cl.tablesDataSize + cl.lookupsDataSize < 2 ^ 32 := hcl
  refine
    { mem := rfl
      coeffs := rfl
      witOff := rfl
      lookupWitOff := i32_of_lt ?_
      cnstTablesOff := i32_of_lt (show cl.algebraicSize < 2 ^ 32 by omega)
      witTablesOff := i32_of_lt ?_
      witMultiplicitiesOff := i32_of_lt (show wl.algebraicSize < 2 ^ 32 by omega)
      rngchk8 := rfl
      spread := ?_ }
  · show wl.tablesDataSize + (wl.algebraicSize + wl.multiplicitiesSize + wl.challengesSize) < 2 ^ 32
    omega
  · show wl.algebraicSize + wl.multiplicitiesSize + wl.challengesSize < 2 ^ 32
    omega
  · intro bits table htable
    obtain rfl := List.eq_of_mem_replicate (List.mem_of_getElem? htable)
    rfl

/-- The helpers follow a run of the machine. -/
theorem AdRun.agrees (run : AdRun coeffs wl cl) (hwl : wl.size < 2 ^ 32) (hcl : cl.size < 2 ^ 32) :
    ∃ s, runAll (DLookupOp.llssa wl cl) run.ops (.init coeffs wl cl) = some s ∧
      AdAgrees run.final s := by
  obtain ⟨s, hs, hagrees, -⟩ := lockstep
    (R := fun v s => AdAgrees v s ∧ AdKnown wl cl v) (Q := AdFits)
    (fun op v v' hrun => AdFits.of_grows (op.vm_grows hrun))
    (by
      intro op v s v' hrel hop hrun hfits
      obtain ⟨h, hknown⟩ := hrel
      obtain ⟨s', hs', h'⟩ := op.agrees h hknown hop hrun hfits
      exact ⟨s', hs', h', op.vm_known hop hrun hknown⟩)
    run.ops _ _ _ ⟨adAgrees_init hwl hcl, adKnown_init⟩ run.in_order run.run_eq (run.fits hwl hcl)
  exact ⟨s, hs, hagrees⟩

end Derivative

/-! ## Both passes -/

/-- The helpers and the machine agree on every run of a layout that 32 bits can number: the
forward pass leaves the same tables, counters, tape and offsets, the derivative pass the same
outputs. -/
theorem lookup_helpers_agree {wl : WitnessLayout} {cl : ConstraintsLayout} {coeffs : Nat → Fr}
    (hwl : wl.size < 2 ^ 32) (hcl : cl.size < 2 ^ 32) (forward : ForwardRun wl cl)
    (derivative : AdRun coeffs wl cl) :
    (∃ s, runAll LookupOp.llssa forward.ops (.init wl cl) = some s ∧
      ForwardAgrees cl.tablesDataSize forward.final s) ∧
    ∃ s, runAll (DLookupOp.llssa wl cl) derivative.ops (.init coeffs wl cl) = some s ∧
      s.mem.out = derivative.final.mem.out := by
  obtain ⟨s, hs, hagrees⟩ := derivative.agrees hwl hcl
  refine ⟨forward.agrees hwl hcl, s, hs, ?_⟩
  rw [hagrees.mem]
  rfl

/-- One table of two elements and a range table, one lookup in each. -/
def sampleWitness : WitnessLayout := ⟨3, 258, 2, 260, 3⟩

def sampleConstraints : ConstraintsLayout := ⟨0, 262, 3⟩

def sampleForwardOps : List LookupOp :=
  [.newArray [.field 7, .field 9], .array .field 2 0 1 9 1, .rngchk8 5 1]

def sampleForward : ForwardRun sampleWitness sampleConstraints where
  ops := sampleForwardOps
  final := (runAll LookupOp.vm sampleForwardOps
    (Fwd.newWitgen sampleWitness sampleConstraints)).get (by decide +kernel)
  run_eq := (Option.some_get _).symm
  in_order := by
    refine ⟨⟨trivial, trivial⟩, fun v₁ h₁ => ?_⟩
    obtain rfl := Option.some.inj h₁
    have hflag : (1 : Fr).val < 2 ^ 64 := by decide +kernel
    refine ⟨⟨⟨?_, fun _ => by decide +kernel⟩, hflag⟩,
      fun v₂ _ => ⟨⟨fun _ => by decide +kernel, hflag⟩, fun _ _ => trivial⟩⟩
    refine ⟨by norm_num, _, [.field 7, .field 9], rfl, rfl, rfl, ?_⟩
    intro e he
    fin_cases he
    · trivial
    · trivial
  cnst_le := by decide +kernel
  wit_le := by decide +kernel

def sampleAdOps : List DLookupOp :=
  [.freshWitness, .freshWitness, .freshWitness, .alloc (.boxedArray [0, 1]),
    .darray .witness 2 3 0 1 2]

def sampleAd : AdRun (fun i => (i : Fr)) sampleWitness sampleConstraints where
  ops := sampleAdOps
  final := (runAll DLookupOp.vm sampleAdOps
    (AdVm.newAd (fun i => (i : Fr)) sampleWitness sampleConstraints)).get (by decide +kernel)
  run_eq := (Option.some_get _).symm
  in_order := by
    refine ⟨trivial, fun v₁ h₁ => ?_⟩
    obtain rfl := Option.some.inj h₁
    refine ⟨trivial, fun v₂ h₂ => ?_⟩
    obtain rfl := Option.some.inj h₂
    refine ⟨trivial, fun v₃ h₃ => ?_⟩
    obtain rfl := Option.some.inj h₃
    refine ⟨fun index h => Payload.noConfusion h, fun v₄ h₄ => ?_⟩
    obtain rfl := Option.some.inj h₄
    refine ⟨⟨_, rfl, rfl, ?_⟩, fun _ _ => trivial⟩
    intro e he
    fin_cases he
    · exact ⟨_, rfl, rfl⟩
    · exact ⟨_, rfl, rfl⟩
  wit_le := by decide +kernel
  mults_le := by decide +kernel
  witTables_le := by decide +kernel
  witLookups_le := by decide +kernel
  cnstTables_le := by decide +kernel
  cnstLookups_le := by decide +kernel

theorem lookup_helpers_agree_on_sample :
    (∃ s, runAll LookupOp.llssa sampleForwardOps (.init sampleWitness sampleConstraints) = some s ∧
      ForwardAgrees 262 sampleForward.final s) ∧
    ∃ s, runAll (DLookupOp.llssa sampleWitness sampleConstraints) sampleAdOps
        (.init (fun i => (i : Fr)) sampleWitness sampleConstraints) = some s ∧
      s.mem.out = sampleAd.final.mem.out :=
  lookup_helpers_agree (by decide) (by decide) sampleForward sampleAd

/-- A range check of five under a flag of `2 ^ 64`, which the machine takes for zero, traps
in the helper; and the rows of a table that starts at `2 ^ 32 - 1` are numbered from zero
again. -/
theorem lookup_helpers_disagree :
    (((LookupOp.rngchk8 5 (2 ^ 64 : Nat)).vm (Fwd.newWitgen sampleWitness sampleConstraints)).isSome
        = true ∧
      ((LookupOp.rngchk8 5 (2 ^ 64 : Nat)).llssa (.init sampleWitness sampleConstraints)).isSome
        = false) ∧
    (((LookupOp.rngchk8 5 1).vm (Fwd.newWitgen sampleWitness ⟨2 ^ 32 - 1, 262, 3⟩)).map
        fun v => v.vm.elemInversesConstraintSectionOffset) = some (2 ^ 32 + 256) ∧
      (((LookupOp.rngchk8 5 1).llssa (.init sampleWitness ⟨2 ^ 32 - 1, 262, 3⟩)).map
        fun s => s.currentCnstTablesOff) = some 256 := by
  decide +kernel

end Mavros.Llssa
