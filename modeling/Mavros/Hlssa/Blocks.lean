/-
# `Mavros.Hlssa.Blocks` — the blocks of a function as a map

Lookups after the operations of `Function` on its map of blocks.  A missing block is a
panic, here `none`.

## What is modelled

`add_block`, `take_block`, `terminate_block_with_jmp` and a change through `get_block_mut`, on
the list of entries that stands for the hash map.  `add_block` overwrites the entry of a key
that is there and `take_block` takes the entry out, so that a pass which moves a block has two
panics to avoid: a lookup of what was taken, and a name that is not there.

## What is proved

One lemma for each operation says what every lookup gives afterwards (`block_modifyBlock`,
`block_addBlock`, `takeBlock_eq_some`).  A pass over blocks is then followed through these, and
its order of operations on the map does not show.
-/
import Mavros.Hlssa.WellFormed
import Mavros.Lib.Lists

namespace Mavros.Hlssa

/-- The function has the block. -/
def Function.hasBlock (f : Function) (b : BlockId) : Bool := (f.block b).isSome

theorem Function.hasBlock_of_eq {f : Function} {b : BlockId} {block : Block}
    (h : f.block b = some block) : f.hasBlock b = true := by
  rw [hasBlock, h]
  rfl

theorem Function.hasBlock_eq_false {f : Function} {b : BlockId} :
    ¬f.hasBlock b = true ↔ f.block b = none := by
  rw [hasBlock, Bool.not_eq_true, Option.isSome_eq_false_iff, Option.isNone_iff_eq_none]

/-- A change through `get_block_mut`. -/
def Function.modifyBlock (f : Function) (b : BlockId) (change : Block → Block) : Function :=
  { f with blocks := f.blocks.map fun p => if p.1 = b then (p.1, change p.2) else p }

/-- `add_block`. -/
def Function.addBlock (f : Function) : BlockId × Function :=
  (f.nextBlock, { f with
    blocks := (f.nextBlock, {}) :: f.blocks.filter (·.1 ≠ f.nextBlock)
    nextBlock := f.nextBlock + 1 })

/-- `take_block`. -/
def Function.takeBlock (f : Function) (b : BlockId) : Option (Block × Function) := do
  let block ← f.block b
  return (block, { f with blocks := f.blocks.filter (·.1 ≠ b) })

/-- `terminate_block_with_jmp`. -/
def Function.terminateBlockWithJmp (f : Function) (b destination : BlockId)
    (arguments : List ValueId) : Option Function := do
  let _ ← f.block b
  return f.modifyBlock b fun block => { block with terminator := some (.jmp destination arguments) }

section Lookup

variable (f : Function) (b : BlockId)

theorem block_modifyBlock (change : Block → Block) (b' : BlockId) :
    (f.modifyBlock b change).block b' =
      if b' = b then (f.block b').map change else f.block b' := by
  unfold Function.modifyBlock Function.block
  induction f.blocks with
  | nil => simp
  | cons p blocks ih =>
    obtain ⟨a, block⟩ := p
    by_cases ha : b' = a
    · subst ha
      by_cases hb : b' = b <;> simp [hb]
    · have hne : (b' == a) = false := beq_false_of_ne ha
      rw [List.lookup_cons, hne, List.map_cons]
      by_cases hab : a = b
      · rw [if_pos hab, List.lookup_cons, hne]
        exact ih
      · rw [if_neg hab, List.lookup_cons, hne]
        exact ih

theorem keys_modifyBlock (change : Block → Block) :
    (f.modifyBlock b change).blocks.map Prod.fst = f.blocks.map Prod.fst := by
  rw [Function.modifyBlock, List.map_map]
  refine List.map_congr_left fun p _ => ?_
  rw [Function.comp_apply]
  split <;> rfl

theorem lookup_filter_key (blocks : List (BlockId × Block)) (b' : BlockId) :
    (blocks.filter (·.1 ≠ b)).lookup b' = if b' = b then none else blocks.lookup b' := by
  induction blocks with
  | nil => simp
  | cons p blocks ih =>
    obtain ⟨a, block⟩ := p
    by_cases hab : a = b
    · subst hab
      rw [List.filter_cons_of_neg (by simp), ih]
      split
      · rfl
      · next hne => rw [List.lookup_cons, beq_false_of_ne hne]
    · rw [List.filter_cons_of_pos (by simpa using hab), List.lookup_cons, List.lookup_cons, ih]
      by_cases ha : b' = a
      · subst ha
        simp [hab]
      · simp [beq_false_of_ne ha]

theorem block_addBlock (b' : BlockId) :
    f.addBlock.2.block b' = if b' = f.nextBlock then some {} else f.block b' := by
  unfold Function.addBlock Function.block
  rw [List.lookup_cons, lookup_filter_key]
  by_cases hb : b' = f.nextBlock
  · simp [hb]
  · simp [hb, beq_false_of_ne hb]

theorem takeBlock_eq_some {block : Block} (h : f.block b = some block) :
    f.takeBlock b = some (block, { f with blocks := f.blocks.filter (·.1 ≠ b) }) := by
  rw [Function.takeBlock, h]
  rfl

end Lookup

end Mavros.Hlssa
