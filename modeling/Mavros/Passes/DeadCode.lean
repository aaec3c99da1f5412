/-
# `Mavros.Passes.DeadCode` — dead code elimination on a block

`DCE` marks the instructions that are live by themselves and whatever defines a value that
a live instruction reads, and sweeps the rest.  In a block without calls, where a value is
defined before it is read, one walk from the end of the block marks them all.

## What is modelled

`is_initially_live` opcode by opcode, with the flag of the pass that keeps the shape of the
witness, and the marking and sweeping of one block.  The pass is modelled for the blocks that
the lowering of an assignment emits: one block, in order, no calls.

## What is proved

`live_of_mem_deadCode`: what is left of a block is live by itself, or what is left reads it, or
it is read after the block.  An instruction that is none of these is gone, which is the
direction that matters for a read whose bound was to be checked.

## What it is not

That sweeping keeps the meaning is not claimed: an instruction that can fail and whose result
nobody reads is swept like any other, and the failure is gone with it.
-/
import Mavros.Hlssa.Syntax

namespace Mavros.Hlssa

/-- `is_initially_live`, where `frozen` is `witness_shape_frozen`. -/
def OpCode.isInitiallyLive (frozen : Bool) : OpCode → Bool
  | .call _ _ _ unconstrained => !unconstrained
  | .store _ _ | .assert _ | .assertCmp _ _ _ | .assertR1C _ _ _ | .constrain _ _ _
  | .lookup _ _ _ | .dlookup _ _ _ | .nextDCoeff _ | .bumpD _ _ _ | .memOp _ _ | .rangecheck _ _
  | .todo _ _ | .initGlobal _ _ | .dropGlobal _ => true
  | .writeWitness _ _ pinned => frozen || pinned
  | .freshWitness _ _ => frozen
  | .toBits _ _ _ _ | .toRadix _ _ _ _ _ => !frozen
  | .load _ _ | .binaryArithOp _ _ _ _ | .cmp _ _ _ _ | .alloc _ _ | .select _ _ _ _
  | .arrayGet _ _ _ | .arraySet _ _ _ _ | .tupleProj _ _ _ | .slicePush _ _ _ _ | .sliceLen _ _
  | .mkSeq _ _ _ _ | .mkRepeated _ _ _ _ _ | .cast _ _ _ | .sext _ _ _ _ | .bitRange _ _ _ _
  | .not _ _ | .mulConst _ _ _ | .readGlobal _ _ _ | .mkTuple _ _ _ | .valueOf _ _
  | .spread _ _ _ | .unspread _ _ _ _ => false
  | .guard _ inner => inner.isInitiallyLive frozen

/-- An instruction stays when it is live by itself or one of these values is its result. -/
def OpCode.isLive (frozen : Bool) (read : List ValueId) (op : OpCode) : Bool :=
  op.isInitiallyLive frozen || op.results.any read.contains

/-- `DCE` on the instructions of a block after which the values `used` are read. -/
def deadCode (frozen : Bool) (used : List ValueId) : List OpCode → List OpCode
  | [] => []
  | op :: ops =>
    let kept := deadCode frozen used ops
    if op.isLive frozen (kept.flatMap OpCode.inputs ++ used) then op :: kept else kept

section Sweep

variable {frozen : Bool} {used : List ValueId} {op : OpCode} {ops : List OpCode}

theorem OpCode.isLive_iff {read : List ValueId} :
    op.isLive frozen read = true ↔
      op.isInitiallyLive frozen = true ∨ ∃ r ∈ op.results, r ∈ read := by
  simp [isLive]

theorem deadCode_sublist : (deadCode frozen used ops).Sublist ops := by
  induction ops with
  | nil => exact .slnil
  | cons op ops ih =>
    rw [deadCode]
    split
    · exact ih.cons_cons op
    · exact ih.cons op

/-- What stays is live by itself, or what stays reads it, or it is read after the block. -/
theorem live_of_mem_deadCode (h : op ∈ deadCode frozen used ops) :
    op.isInitiallyLive frozen = true ∨
      ∃ r ∈ op.results, r ∈ used ∨ ∃ op' ∈ deadCode frozen used ops, r ∈ op'.inputs := by
  induction ops with
  | nil => simp [deadCode] at h
  | cons op' ops ih =>
    rw [deadCode] at h ⊢
    split at h
    · next hlive =>
      rw [if_pos hlive]
      rcases List.mem_cons.mp h with rfl | h
      · rcases OpCode.isLive_iff.mp hlive with hinit | ⟨r, hr, hread⟩
        · exact .inl hinit
        · refine .inr ⟨r, hr, ?_⟩
          rcases List.mem_append.mp hread with hread | hused
          · obtain ⟨reader, hmem, hin⟩ := List.mem_flatMap.mp hread
            exact .inr ⟨reader, List.mem_cons_of_mem op hmem, hin⟩
          · exact .inl hused
      · rcases ih h with hinit | ⟨r, hr, hused | ⟨reader, hmem, hin⟩⟩
        · exact .inl hinit
        · exact .inr ⟨r, hr, .inl hused⟩
        · exact .inr ⟨r, hr, .inr ⟨reader, List.mem_cons_of_mem op' hmem, hin⟩⟩
    · next hdead =>
      rw [if_neg hdead]
      exact ih h

end Sweep

end Mavros.Hlssa
