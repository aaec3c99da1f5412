/-
# `Mavros.Hlssa.Live` — the values a block still needs

A value is live in a block when some path from the block's entrance reads it before
defining it.  What is live at the start, before the parameters are bound, leaves them out;
it obeys the equations a backward analysis solves (`Function.liveAtStart_iff`).

## What is proved

* `Function.LiveIn.dominated`: in strict form a live value that is no parameter is defined in
  a dominator of the block.  A pass that cuts a block in two passes the live values on, and
  they are bound there.
* `Function.LiveIn.mem_uses`: what is live is read somewhere.
* `Function.liveAtStart_iff`: the equations, read off paths.

`LiveIn` and `LiveAtStart` are inductive over paths and not the result of any analysis; what an
analysis returns is compared with them.
-/
import Mavros.Hlssa.Available

namespace Mavros.Hlssa

open Lib (Reachable Dominates)

/-- From the entrance of the block on, parameters bound, some path reads the value before
defining it. -/
inductive Function.LiveIn (f : Function) : BlockId → ValueId → Prop
  | instruction {b : BlockId} {block : Block} {pre post : List OpCode} {op : OpCode} {v : ValueId}
      (hblock : f.block b = some block) (hsplit : block.instructions = pre ++ op :: post)
      (hv : v ∈ op.inputs) (hpre : v ∉ pre.flatMap OpCode.results) : f.LiveIn b v
  | terminator {b : BlockId} {block : Block} {t : Terminator} {v : ValueId}
      (hblock : f.block b = some block) (ht : block.terminator = some t) (hv : v ∈ t.inputs)
      (hops : v ∉ block.instructions.flatMap OpCode.results) : f.LiveIn b v
  | edge {b c : BlockId} {block cblock : Block} {v : ValueId} (hblock : f.block b = some block)
      (hops : v ∉ block.instructions.flatMap OpCode.results) (hedge : f.Edge b c)
      (hc : f.block c = some cblock) (hparam : v ∉ cblock.parameters.map Prod.fst)
      (h : f.LiveIn c v) : f.LiveIn b v

variable {f : Function} {constants : List (ValueId × Constant)} {b : BlockId} {v : ValueId}

/-- A live value that is no parameter was defined in a dominator. -/
theorem Function.LiveIn.dominated (h : f.LiveIn b v) (hstrict : f.Strict constants)
    (hb : Reachable f.entryBlock f.Edge b) {block : Block} (hblock : f.block b = some block)
    (hparam : v ∉ block.parameters.map Prod.fst) :
    (constants.lookup v).isSome ∨
      ∃ d, d ≠ b ∧ Dominates f.entryBlock f.Edge d b ∧ f.DefinedIn d v := by
  have havailable : ∀ {b pre} {block : Block}, f.block b = some block →
      v ∉ block.parameters.map Prod.fst → v ∉ pre.flatMap OpCode.results →
        f.Available constants b pre v → (constants.lookup v).isSome ∨
          ∃ d, d ≠ b ∧ Dominates f.entryBlock f.Edge d b ∧ f.DefinedIn d v := by
    intro b pre block hblock hparam hpre h
    cases h with
    | constant h => exact .inl h
    | param h hv =>
      obtain rfl := Option.some.inj (hblock.symm.trans h)
      exact absurd hv hparam
    | result hv => exact absurd hv hpre
    | dominated hne hdom hdef => exact .inr ⟨_, hne, hdom, hdef⟩
  induction h generalizing block with
  | instruction hb' hsplit hv hpre =>
    obtain rfl := Option.some.inj (hblock.symm.trans hb')
    exact havailable hblock hparam hpre (hstrict.instruction _ _ _ _ _ hb hblock hsplit _ hv)
  | terminator hb' ht hv hops =>
    obtain rfl := Option.some.inj (hblock.symm.trans hb')
    exact havailable hblock hparam hops (hstrict.terminator _ _ _ hb hblock ht _ hv)
  | @edge b c block' cblock v hb' hops hedge hc hparamc _ ih =>
    obtain rfl := Option.some.inj (hblock.symm.trans hb')
    obtain ⟨hist, hwalk⟩ := hb
    rcases ih ⟨_, hwalk.step hedge⟩ hc hparamc havailable with h | ⟨d, hne, hdom, hdef⟩
    · exact .inl h
    · refine .inr ⟨d, ?_, fun hist' hwalk' => ?_, hdef⟩
      · rintro rfl
        obtain ⟨dblock, hd, hv⟩ := hdef
        obtain rfl := Option.some.inj (hblock.symm.trans hd)
        rcases List.mem_append.mp hv with hv | hv
        · exact hparam hv
        · exact hops hv
      · exact (List.mem_cons.mp (hdom _ (hwalk'.step hedge))).resolve_left hne

theorem Block.mem_uses_of_instruction {block : Block} {pre post : List OpCode} {op : OpCode}
    (hsplit : block.instructions = pre ++ op :: post) (hv : v ∈ op.inputs) : v ∈ block.uses := by
  refine List.mem_append_left _ (List.mem_flatMap.mpr ⟨op, ?_, hv⟩)
  rw [hsplit]
  exact List.mem_append_right _ List.mem_cons_self

theorem Block.mem_uses_of_terminator {block : Block} {t : Terminator}
    (ht : block.terminator = some t) (hv : v ∈ t.inputs) : v ∈ block.uses := by
  refine List.mem_append_right _ ?_
  rw [ht]
  exact hv

/-- What is live is read somewhere. -/
theorem Function.LiveIn.mem_uses (h : f.LiveIn b v) :
    ∃ d dblock, f.block d = some dblock ∧ v ∈ dblock.uses := by
  induction h with
  | instruction hblock hsplit hv => exact ⟨_, _, hblock, Block.mem_uses_of_instruction hsplit hv⟩
  | terminator hblock ht hv => exact ⟨_, _, hblock, Block.mem_uses_of_terminator ht hv⟩
  | edge _ _ _ _ _ _ ih => exact ih

/-! ## The equations

Parameters are defined by the block that has them, so at its start they are not live.
-/

/-- From the start of the block on, parameters unbound, some path reads the value before
defining it. -/
def Function.LiveAtStart (f : Function) (b : BlockId) (v : ValueId) : Prop :=
  ∃ block, f.block b = some block ∧ v ∉ block.parameters.map Prod.fst ∧ f.LiveIn b v

/-- The instructions of a block do not define what is live in it. -/
theorem Function.LiveIn.notMem_results (h : f.LiveIn b v) (hssa : f.SingleAssignment constants)
    (hstrict : f.Strict constants) (hb : Reachable f.entryBlock f.Edge b) {block : Block}
    (hblock : f.block b = some block) : v ∉ block.instructions.flatMap OpCode.results := by
  cases h with
  | @instruction _ _ pre post op _ hb' hsplit hv hpre =>
    obtain rfl := Option.some.inj (hblock.symm.trans hb')
    have havailable := hstrict.instruction b block pre op post hb hblock hsplit v hv
    have hlater := havailable.notMem_later hssa hblock hsplit
    rw [hsplit, List.flatMap_append, List.mem_append, not_or]
    exact ⟨hpre, hlater⟩
  | terminator hb' _ _ hops | edge hb' hops =>
    obtain rfl := Option.some.inj (hblock.symm.trans hb')
    exact hops

/-- Live at the start is what the block does not define, and reads or leaves to a successor. -/
theorem Function.liveAtStart_iff (hssa : f.SingleAssignment constants)
    (hstrict : f.Strict constants) (hb : Reachable f.entryBlock f.Edge b) {block : Block}
    (hblock : f.block b = some block) : f.LiveAtStart b v ↔
      v ∉ block.definitions ∧ (v ∈ block.uses ∨ ∃ c, f.Edge b c ∧ f.LiveAtStart c v) := by
  rw [Block.definitions, List.mem_append, not_or]
  constructor
  · rintro ⟨block', hb', hparam, hlive⟩
    obtain rfl := Option.some.inj (hblock.symm.trans hb')
    refine ⟨⟨hparam, hlive.notMem_results hssa hstrict hb hblock⟩, ?_⟩
    cases hlive with
    | instruction hb' hsplit hv =>
      obtain rfl := Option.some.inj (hblock.symm.trans hb')
      exact .inl (Block.mem_uses_of_instruction hsplit hv)
    | terminator hb' ht hv =>
      obtain rfl := Option.some.inj (hblock.symm.trans hb')
      exact .inl (Block.mem_uses_of_terminator ht hv)
    | edge _ _ hedge hc hparam hlive => exact .inr ⟨_, hedge, _, hc, hparam, hlive⟩
  · rintro ⟨⟨hparam, hops⟩, huse | ⟨c, hedge, cblock, hc, hparamc, hlive⟩⟩
    · refine ⟨block, hblock, hparam, ?_⟩
      rcases List.mem_append.mp huse with huse | huse
      · obtain ⟨op, hop, hv⟩ := List.mem_flatMap.mp huse
        obtain ⟨pre, post, hsplit⟩ := List.append_of_mem hop
        refine .instruction hblock hsplit hv fun hpre => hops ?_
        rw [hsplit, List.flatMap_append]
        exact List.mem_append_left _ hpre
      · cases ht : block.terminator with
        | none => rw [ht] at huse; cases huse
        | some t =>
          rw [ht] at huse
          exact .terminator hblock ht huse hops
    · exact ⟨block, hblock, hparam, .edge hblock hops hedge hc hparamc hlive⟩

end Mavros.Hlssa
