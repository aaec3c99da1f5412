/-
# `Mavros.Hlssa.WellFormed` — functions the passes keep equivalent

A function is well formed when control stays inside it and its values are assigned once
and read where they are available.  Two functions run alike when, block by block, they
meet again and again in the same world, or stop with the same values; a recording meaning
has in its world every instruction executed, with its operands.

## What is modelled

* `Function.WellFormed`: block names occur once and lie below the next one, every block has a
  terminator and is reachable, every target is there and takes as many arguments as it is
  given, and the function is in strict single-assignment form.  It is what the passes on
  blocks expect and keep.
* `SameRuns`: the runs of two functions rejoin for ever, in the sense of
  `Mavros.Lib.Rejoin`.  Worlds are equal when they meet; environments and blocks need not be.
* `Sem.recording`: a meaning whose world also lists the instructions executed, without names.
  `SameRuns` under it says that the two functions execute the same instructions on the same
  values, and not only that they have the same effects.
-/
import Mavros.Hlssa.Available
import Mavros.Lib.Rejoin

namespace Mavros.Hlssa

open Lib (Reachable iterate Rejoined)

/-- The arguments a jump passes to its target. -/
def Terminator.arguments : Terminator → List ValueId
  | jmp _ args => args
  | jmpIf .. | .return _ => []

structure Function.WellFormed (f : Function) (constants : List (ValueId × Constant)) : Prop where
  keys : (f.blocks.map Prod.fst).Nodup
  fresh : ∀ b block, f.block b = some block → b < f.nextBlock
  entry : ∃ block, f.block f.entryBlock = some block
  terminated : ∀ b block, f.block b = some block → ∃ t, block.terminator = some t
  targets : ∀ b block t, f.block b = some block → block.terminator = some t →
    ∀ b' ∈ t.targets, ∃ block', f.block b' = some block' ∧
      t.arguments.length = block'.parameters.length
  reachable : ∀ b block, f.block b = some block → Reachable f.entryBlock f.Edge b
  ssa : f.SingleAssignment constants
  strict : f.Strict constants

section Runs

variable {V W : Type}

/-- How a function stops: in a world, and with what it returns unless it failed. -/
abbrev Ending (V W : Type) := W × Option (List V)

def Outcome.toSum : Outcome V W → Ending V W ⊕ State V W
  | .failed w => .inl (w, none)
  | .jumped s => .inr s
  | .returned xs w => .inl (w, some xs)

/-- The world holds, besides the world of `S`, the instructions executed so far, each with
the values of its operands. -/
def Sem.recording (S : Sem V W) : Sem V (W × List (OpCode × List V)) where
  const := S.const
  op shape xs w := (((S.op shape xs w.1).1, w.2 ++ [(shape, xs)]), (S.op shape xs w.1).2)

/-- A state in which a function is entered with an argument for each parameter. -/
def Function.Called (f : Function) (s : State V W) : Prop :=
  s.block = f.entryBlock ∧
    ∃ b args, f.block f.entryBlock = some b ∧ args.length = b.parameters.length ∧
      s.env = Env.bindAll (fun _ => none) (b.parameters.map Prod.fst) args

variable [DecidableEq V] (S : Sem V W) (K : Env V)

def blockStep (f : Function) (s : State V W) : Ending V W ⊕ State V W :=
  (stepBlock S K f s).toSum

/-- Arbitrarily late in their runs the functions are in the same world, or both have
stopped with the same result. -/
def SameRuns (f f' : Function) (s s' : State V W) : Prop :=
  ∀ k, ∃ m n, k ≤ m ∧ k ≤ n ∧
    Rejoined (fun t t' : State V W => t.world = t'.world) (iterate (blockStep S K f) m s)
      (iterate (blockStep S K f') n s')

end Runs

end Mavros.Hlssa
