/-
# `Mavros.Codegen.JumpMoves` — the arguments of a jump are passed all at once

The moves of a jump run one after the other, but leave in every parameter what its
argument held before the jump (`runFunction_jump`).  On a forward edge no argument lies in
a parameter of the target: it would have to be such a parameter, or go back to one through
casts, and would be available in the target's dominion only.  On a back-edge it may, and
the moves make a detour.  No other value that is live in the target shares a word with a
parameter: it would be defined there, below the target.

## What is proved

`runFunction_jump`: for every jump of a compiled function, from the end of its block the code goes
to the entrance of the target; there every parameter holds, word for word, what its argument held
before, every other value that is live in the target holds what it held, and nothing outside the
frame has changed, nor has the heap.

`runFunction_jump_swap` is a loop that goes on with its parameters swapped.

## How it goes

* The moves are a list of copies (`copies_forall₂`), and the machine runs them in order
  (`steps_moves`).
* On a forward edge they are a parallel copy, since sources and targets are apart; on a back-edge
  they are staged through the scratch area, which has room for the parameters of every loop entry
  (`scratch_room`).  Both are `Mavros.Lib.ParallelCopy`.
* Which places may meet is `Placed`, and that those which meet do not matter here is dominance.
-/
import Mavros.Codegen.FunctionLayout
import Mavros.Hlssa.Live
import Mavros.Lib.Lists

namespace Mavros.Codegen

open Hlssa Lib
open ConditionPropagation (CFG)
open Relation (ReflTransGen)

/-! ## What shares the place of a parameter

Values that go back to it, and where these are available.
-/

section Dominion

variable {signatures : FunctionId → Option (List TypeExpr × List TypeExpr)}
  {types : ValueId → Option TypeExpr} {cfg : CFG} {f : Function}
  {constants : List (ValueId × Constant)} {target : BlockId} {targetBlock : Block} {param : ValueId}

variable (hok : FunctionOk signatures types cfg f constants)
  (htarget : f.block target = some targetBlock)
  (hparam : param ∈ targetBlock.parameters.map Prod.fst)

include hok htarget hparam

/-- What goes back to a parameter is available in the dominion of its block only. -/
theorem dominates_of_shares {v : ValueId} (h : ReflTransGen (Shares f types) v param)
    {b : BlockId} {pre : List Hlssa.OpCode} (hv : f.Available constants b pre v)
    (hpre : ∃ block post, f.block b = some block ∧ block.instructions = pre ++ post) :
    Dominates f.entryBlock f.Edge target b := by
  have hdef : f.DefinedIn target param := ⟨targetBlock, htarget, List.mem_append_left _ hparam⟩
  induction h using ReflTransGen.head_induction_on generalizing b pre with
  | refl =>
    obtain ⟨block, post, hblock, hsplit⟩ := hpre
    cases hv with
    | constant h =>
      rw [hok.ssa.noConstant _ _ hdef] at h
      simp at h
    | param hb hv =>
      obtain rfl := hok.ssa.block _ _ _ hdef ⟨_, hb, List.mem_append_left _ hv⟩
      exact .refl _
    | result hv =>
      refine absurd ?_ (hok.not_result htarget hparam hblock)
      rw [hsplit, List.flatMap_append]
      exact List.mem_append_left _ hv
    | dominated hne hdom hdef' =>
      obtain rfl := hok.ssa.block _ _ _ hdef hdef'
      exact hdom
  | @head v w hstep _ ih =>
    obtain ⟨d, dblock, op, hd, hdblock, hop, hs⟩ := hstep
    obtain ⟨dpre, dpost, hdsplit⟩ := List.append_of_mem hop
    have hres : v ∈ op.results := by
      rw [hs.results.1]
      exact List.mem_cons_self
    have hin : w ∈ op.inputs := by
      rw [hs.results.2]
      exact List.mem_cons_self
    have hvdef : f.DefinedIn d v :=
      ⟨dblock, hdblock, List.mem_append_right _ (List.mem_flatMap.mpr ⟨op, hop, hres⟩)⟩
    have hdom : Dominates f.entryBlock f.Edge target d :=
      ih (hok.strict.instruction d dblock dpre op dpost hd hdblock hdsplit w hin)
        ⟨dblock, op :: dpost, hdblock, hdsplit⟩
    obtain ⟨block, post, hblock, hsplit⟩ := hpre
    cases hv with
    | constant h =>
      rw [hok.ssa.noConstant _ _ hvdef] at h
      simp at h
    | param hb hv =>
      refine absurd ?_ (hok.not_result hb hv hdblock)
      exact List.mem_flatMap.mpr ⟨op, hop, hres⟩
    | result hv =>
      have hvdef' : f.DefinedIn b v := by
        refine ⟨block, hblock, List.mem_append_right _ ?_⟩
        rw [hsplit, List.flatMap_append]
        exact List.mem_append_left _ hv
      obtain rfl := hok.ssa.block _ _ _ hvdef hvdef'
      exact hdom
    | dominated hne hdom' hvdef' =>
      obtain rfl := hok.ssa.block _ _ _ hvdef hvdef'
      exact hdom.trans hdom'

/-- No other live value goes back to a parameter. -/
theorem live_not_shares {v : ValueId} (hreach : Reachable f.entryBlock f.Edge target)
    (hlive : f.LiveIn target v) (hv : v ∉ targetBlock.parameters.map Prod.fst) :
    ¬ReflTransGen (Shares f types) v param := by
  intro h
  rcases h.cases_head with rfl | ⟨w, ⟨d, dblock, op, hd, hdblock, hop, hs⟩, hrest⟩
  · exact hv hparam
  · obtain ⟨dpre, dpost, hdsplit⟩ := List.append_of_mem hop
    have hvdef : f.DefinedIn d v := by
      refine ⟨dblock, hdblock, List.mem_append_right _ (List.mem_flatMap.mpr ⟨op, hop, ?_⟩)⟩
      rw [hs.results.1]
      exact List.mem_cons_self
    have hin : w ∈ op.inputs := by
      rw [hs.results.2]
      exact List.mem_cons_self
    have hdom := dominates_of_shares hok htarget hparam hrest
      (hok.strict.instruction d dblock dpre op dpost hd hdblock hdsplit w hin)
      ⟨dblock, op :: dpost, hdblock, hdsplit⟩
    rcases hlive.dominated hok.strict hreach htarget hv with hc | ⟨d', hne, hdom', hdef'⟩
    · rw [hok.ssa.noConstant _ _ hvdef] at hc
      simp at hc
    · obtain rfl := hok.ssa.block _ _ _ hvdef hdef'
      exact hne (Dominates.antisymm hreach hdom' hdom)

end Dominion

/-! ## Running the moves -/

section Moves

variable {B : Type} {code : List (Instr B)}

/-- The machine runs the opcode at its counter. -/
inductive Step (code : List (Instr B)) : Nat × Bytecode.Machine → Nat × Bytecode.Machine → Prop
  | scalar {pc : Nat} {m m' : Bytecode.Machine} {op : Bytecode.OpCode}
      (h : code[pc]? = some (.scalar op)) (hm : m.step op = some m') : Step code (pc, m)
        (pc + 1, m')
  | nop {pc : Nat} {m : Bytecode.Machine} (h : code[pc]? = some .nop) :
      Step code (pc, m) (pc + 1, m)
  | jmp {pc target : Nat} {m : Bytecode.Machine} (h : code[pc]? = some (.jmp target)) :
      Step code (pc, m) (target, m)
  | jmpIf {pc cond ifT ifF : Nat} {m : Bytecode.Machine}
      (h : code[pc]? = some (.jmpIf cond ifT ifF)) :
      Step code (pc, m) (if m.frame cond ≠ 0 then ifT else ifF, m)

/-- A copy between ranges that do not meet, word by word. -/
theorem move_eq {target source size : Nat} (h : Apart source size target size)
    (m : Bytecode.Machine) :
    Bytecode.Machine.move target source size m
      = { m with frame := BlockCopy.run ⟨size, target, source⟩ m.frame } := by
  induction size with
  | zero =>
    have hframe : BlockCopy.run ⟨0, target, source⟩ m.frame = m.frame := by
      funext p
      exact BlockCopy.run_of_not_writes (by simp [BlockCopy.Writes]) m.frame
    rw [hframe]
    rfl
  | succ size ih =>
    have hshort : Apart source size target size := by
      unfold Apart at h ⊢
      omega
    rw [Bytecode.Machine.move, ih hshort, Bytecode.Machine.setWord]
    congr 1
    funext p
    have hread : BlockCopy.run ⟨size, target, source⟩ m.frame (source + size)
        = m.frame (source + size) := by
      refine BlockCopy.run_of_not_writes (fun hw => ?_) m.frame
      simp only [BlockCopy.Writes] at hw
      unfold Apart at h
      omega
    by_cases hp : p = target + size
    · subst hp
      rw [Function.update_self]
      exact hread.trans (BlockCopy.run_target (c := ⟨size + 1, target, source⟩)
        (Nat.lt_succ_self size) m.frame).symm
    · rw [Function.update_of_ne hp]
      simp only [BlockCopy.run]
      split
      · rw [if_pos (by omega)]
      · rw [if_neg (by omega)]

theorem steps_moves {cs : List BlockCopy} (hcs : ∀ c ∈ cs, Apart c.source c.size c.target c.size)
    {pc : Nat} (hcode : ∀ i < cs.length, code[pc + i]? = (cs[i]?).map fun c => .scalar (moveOp c))
    (m : Bytecode.Machine) : ReflTransGen (Step code) (pc, m)
      (pc + cs.length, { m with frame := runCopies cs m.frame }) := by
  induction cs generalizing pc m with
  | nil => exact .refl
  | cons c cs ih =>
    rw [List.forall_mem_cons] at hcs
    have hfirst : Step code (pc, m) (pc + 1, { m with frame := c.run m.frame }) := by
      have hmove : code[pc]? = some (.scalar (moveOp c)) := hcode 0 (Nat.succ_pos _)
      refine .scalar hmove ?_
      rw [← move_eq hcs.1 m]
      rfl
    have htail : ∀ i < cs.length,
        code[pc + 1 + i]? = (cs[i]?).map fun c => .scalar (moveOp c) := by
      intro i hi
      rw [Nat.add_assoc, Nat.add_comm 1 i]
      exact hcode (i + 1) (Nat.succ_lt_succ hi)
    have hrest := ih hcs.2 htail { m with frame := c.run m.frame }
    rw [List.length_cons, Nat.add_comm cs.length 1, ← Nat.add_assoc]
    exact .head hfirst hrest

end Moves

/-! ## Jumps

Sources, targets and scratch area, and the theorem.
-/

section Jump

variable {B : Type} {emit : FrameLayouter → Hlssa.OpCode → Option (List (Instr B))}
  {signatures : FunctionId → Option (List TypeExpr × List TypeExpr)}
  {types : ValueId → Option TypeExpr} {cfg : CFG} {f : Function}
  {constants : List (ValueId × Constant)} {l : FrameLayouter}

/-- The copy for an argument and its parameter. -/
structure IsCopy (l : FrameLayouter) (pair : ValueId × ValueId × TypeExpr) (c : BlockCopy) :
    Prop where
  size : FrameLayouter.typeSize pair.2.2 = some c.size
  target : l.getValue pair.2.1 = some c.target
  source : l.getValue pair.1 = some c.source

theorem copies_forall₂ {pairs : List (ValueId × ValueId × TypeExpr)} {cs : List BlockCopy}
    (h : copies l pairs = some cs) : List.Forall₂ (IsCopy l) pairs cs := by
  induction pairs generalizing cs with
  | nil =>
    obtain rfl := Option.some.inj h
    exact .nil
  | cons p pairs ih =>
    obtain ⟨arg, param, tp⟩ := p
    simp only [copies, Option.bind_eq_bind, Option.bind_eq_some_iff, Option.pure_def,
      Option.some.injEq] at h
    obtain ⟨size, hsize, target, htarget, source, hsource, rest, hrest, rfl⟩ := h
    exact .cons ⟨hsize, htarget, hsource⟩ (ih hrest)

/-- The scratch area of a loop entry is as large as its parameters. -/
theorem stagedSize_eq {pairs : List (ValueId × ValueId × TypeExpr)} {cs : List BlockCopy}
    (h : List.Forall₂ (IsCopy l) pairs cs) {sizes : List Nat}
    (hsizes : (pairs.map Prod.snd).mapM (fun p => FrameLayouter.typeSize p.2) = some sizes) :
    stagedSize cs = sizes.sum := by
  induction h generalizing sizes with
  | nil =>
    obtain rfl := Option.some.inj hsizes
    rfl
  | cons hc _ ih =>
    simp only [List.map_cons, List.mapM_cons, Option.bind_eq_bind, Option.bind_eq_some_iff,
      Option.pure_def, Option.some.injEq] at hsizes
    obtain ⟨size, hsize, rest, hrest, rfl⟩ := hsizes
    obtain rfl := Option.some.inj (hsize.symm.trans hc.size)
    rw [stagedSize_cons, List.sum_cons, ih hrest]

theorem le_foldl_max {xs : List Nat} {a x : Nat} (h : x ≤ a ∨ x ∈ xs) : x ≤ xs.foldl max a := by
  induction xs generalizing a with
  | nil => simpa using h
  | cons y xs ih =>
    refine ih ?_
    rcases h with h | h
    · exact .inl (h.trans (Nat.le_max_left _ _))
    · rcases List.mem_cons.mp h with rfl | h
      · exact .inl (Nat.le_max_right _ _)
      · exact .inr h

/-- The scratch area has room for the parameters of every loop entry. -/
theorem scratch_room {target : BlockId} {targetBlock : Block} {room : Nat}
    (htarget : f.block target = some targetBlock) (hloop : isLoopEntry cfg f target = true)
    (hroom : maxLoopScratch cfg f = some room) :
    ∃ sizes, targetBlock.parameters.mapM (fun p => FrameLayouter.typeSize p.2) = some sizes ∧
      sizes.sum ≤ room := by
  obtain ⟨sizes, hsizes, hroom⟩ := Option.bind_eq_some_iff.mp hroom
  obtain rfl := Option.some.inj hroom
  have hmem : (target, targetBlock) ∈ f.blocks.filter fun p => isLoopEntry cfg f p.1 :=
    List.mem_filter.mpr ⟨mem_of_lookup_eq_some htarget, hloop⟩
  obtain ⟨size, hsize, hparams⟩ := exists_mem_of_mapM hsizes hmem
  obtain ⟨sizes', hsizes', hsum⟩ := Option.bind_eq_some_iff.mp hparams
  obtain rfl := Option.some.inj hsum
  exact ⟨sizes', hsizes', le_foldl_max (.inr hsize)⟩

/-- The target of a back-edge is a loop entry. -/
theorem isLoopEntry_of_dominates {b target : BlockId} {block : Block} {args : List ValueId}
    (hblock : f.block b = some block) (ht : block.terminator = some (.jmp target args))
    (hdom : cfg.dominates target b = true) : isLoopEntry cfg f target = true := by
  refine List.any_eq_true.mpr ⟨(b, block), mem_of_lookup_eq_some hblock, ?_⟩
  simp [ht, Terminator.targets, hdom]

/-- An argument with its parameter. -/
structure Passed (types : ValueId → Option TypeExpr) (targetBlock : Block)
    (pair : ValueId × ValueId × TypeExpr) : Prop where
  param : pair.2.1 ∈ targetBlock.parameters.map Prod.fst
  typed : types pair.2.1 = some pair.2.2
  arg_typed : types pair.1 = some pair.2.2

theorem IsCopy.valueSize {pair : ValueId × ValueId × TypeExpr} {c : BlockCopy}
    (hc : IsCopy l pair c) {targetBlock : Block} (hp : Passed types targetBlock pair) :
    valueSize types pair.2.1 = some c.size := by
  rw [Codegen.valueSize, hp.typed]
  exact hc.size

theorem IsCopy.argSize {pair : ValueId × ValueId × TypeExpr} {c : BlockCopy}
    (hc : IsCopy l pair c) {targetBlock : Block} (hp : Passed types targetBlock pair) :
    Codegen.valueSize types pair.1 = some c.size := by
  rw [Codegen.valueSize, hp.arg_typed]
  exact hc.size

variable (hok : FunctionOk signatures types cfg f constants)

include hok

theorem passed {b target : BlockId} {block targetBlock : Block} {args : List ValueId}
    (hb : Reachable f.entryBlock f.Edge b) (hblock : f.block b = some block)
    (ht : block.terminator = some (.jmp target args))
    (htarget : f.block target = some targetBlock) :
    args.length = targetBlock.parameters.length ∧
      ∀ pair ∈ args.zip targetBlock.parameters, Passed types targetBlock pair := by
  have htypes := hok.jumps b block target args hb hblock ht targetBlock htarget
  have hlen : args.length = targetBlock.parameters.length := by
    simpa using congrArg List.length htypes
  have hreach : Reachable f.entryBlock f.Edge target := by
    obtain ⟨hist, hwalk⟩ := hb
    exact ⟨_, hwalk.step ⟨block, _, hblock, ht, List.mem_singleton.mpr rfl⟩⟩
  refine ⟨hlen, fun pair hpair => ?_⟩
  obtain ⟨i, hi, rfl⟩ := List.getElem_of_mem hpair
  rw [List.length_zip] at hi
  have hi₁ : i < args.length := by omega
  have hi₂ : i < targetBlock.parameters.length := by omega
  have hmem := List.getElem_mem hi₂
  rw [List.getElem_zip]
  refine ⟨List.mem_map_of_mem hmem, hok.typing.param target targetBlock hreach htarget _ hmem, ?_⟩
  have hget := congrArg (·[i]?) htypes
  simpa [hi₁, hi₂] using hget

/-- What shares a word with a parameter goes back to it. -/
theorem meet_param {vs : List ValueId} {l : FrameLayouter}
    (hplaced : Placed types (Shares f types) l vs) {target : BlockId} {targetBlock : Block}
    (htarget : f.block target = some targetBlock) {v param : ValueId}
    (hparam : param ∈ targetBlock.parameters.map Prod.fst) {p q m n : Nat}
    (hp : l.getValue v = some p) (hq : l.getValue param = some q)
    (hm : valueSize types v = some m) (hn : valueSize types param = some n) :
    Apart p m q n ∨ ReflTransGen (Shares f types) v param := by
  rcases hplaced.meet (fun v u => hok.valueSize_eq) hp hq hm hn with h | ⟨u, hv, hu⟩
  · exact .inl h
  · rcases hu.cases_head with rfl | ⟨w, hw, -⟩
    · exact .inr hv
    · exact absurd hw (hok.param_not_shares htarget hparam w)

/-- No argument of a forward edge goes back to a parameter. -/
theorem argument_not_shares {b target : BlockId} {block targetBlock : Block}
    {args : List ValueId} (hb : Reachable f.entryBlock f.Edge b) (hblock : f.block b = some block)
    (ht : block.terminator = some (.jmp target args)) (htarget : f.block target = some targetBlock)
    (hdom : cfg.dominates target b = false) {arg param : ValueId} (harg : arg ∈ args)
    (hparam : param ∈ targetBlock.parameters.map Prod.fst) :
    ¬ReflTransGen (Shares f types) arg param := by
  intro h
  have hdom' := dominates_of_shares hok htarget hparam h
    (hok.strict.terminator b block _ hb hblock ht arg harg) ⟨block, [], hblock, by simp⟩
  rw [(hok.cfg.dominates_iff target b).mpr ⟨hb, hdom'⟩] at hdom
  exact absurd hdom (by decide)

/-- The parameters of a block have places of their own. -/
theorem targets_apart {vs : List ValueId} (hplaced : Placed types (Shares f types) l vs)
    {target : BlockId} {targetBlock : Block} (htarget : f.block target = some targetBlock)
    {pairs : List (ValueId × ValueId × TypeExpr)} {cs : List BlockCopy}
    (hcs : List.Forall₂ (IsCopy l) pairs cs) (hpairs : ∀ p ∈ pairs, Passed types targetBlock p)
    (hnodup : (pairs.map fun p => p.2.1).Nodup) :
    cs.Pairwise fun c d => Apart c.target c.size d.target d.size := by
  induction hcs with
  | nil => exact .nil
  | @cons p c pairs cs hc hcs ih =>
    rw [List.map_cons, List.nodup_cons] at hnodup
    obtain ⟨hp, hpairs⟩ := List.forall_mem_cons.mp hpairs
    refine .cons (fun d hd => ?_) (ih hpairs hnodup.2)
    obtain ⟨q, hq, hd⟩ := exists_left_of_forall₂ hcs hd
    have hpassed := hpairs q hq
    refine hplaced.apart p.2.1 q.2.1 _ _ _ _ (fun heq => hnodup.1 ?_)
      (hok.param_not_shares htarget hp.param) (hok.param_not_shares htarget hpassed.param)
      hc.target hd.target (hc.valueSize hp) (hd.valueSize hpassed)
    rw [heq]
    exact List.mem_map.mpr ⟨q, hq, rfl⟩

/-- The copies of a jump: each parameter gets its argument, and nothing else in the frame
changes but the scratch area. -/
theorem jumpCopies_spec {vs : List ValueId} (hplaced : Placed types (Shares f types) l vs)
    {b target : BlockId} {block targetBlock : Block} {args : List ValueId} {room : Nat}
    (hb : Reachable f.entryBlock f.Edge b) (hblock : f.block b = some block)
    (ht : block.terminator = some (.jmp target args)) (htarget : f.block target = some targetBlock)
    (hroom : maxLoopScratch cfg f = some room) {cs : List BlockCopy}
    (hcs : List.Forall₂ (IsCopy l) (args.zip targetBlock.parameters) cs) (mem : Nat → Nat) :
    (∀ c ∈ jumpCopies cfg l.nextFree b target cs, Apart c.source c.size c.target c.size) ∧
      (∀ c ∈ cs, ∀ i < c.size,
        runCopies (jumpCopies cfg l.nextFree b target cs) mem (c.target + i)
          = mem (c.source + i)) ∧
      ∀ q, (∀ c ∈ cs, ¬c.Writes q) → q < l.nextFree ∨ l.nextFree + room ≤ q →
        runCopies (jumpCopies cfg l.nextFree b target cs) mem q = mem q := by
  obtain ⟨hlen, hpassed⟩ := passed hok hb hblock ht htarget
  have hsize := fun v u => @FunctionOk.valueSize_eq _ _ _ _ _ hok v u
  have hnodup : ((args.zip targetBlock.parameters).map fun p => p.2.1).Nodup := by
    have hsnd : (args.zip targetBlock.parameters).map Prod.snd = targetBlock.parameters :=
      List.map_snd_zip hlen.ge
    have hfst := congrArg (List.map Prod.fst) hsnd
    rw [List.map_map] at hfst
    exact hfst ▸ (List.nodup_append.mp (hok.ssa.once target targetBlock htarget)).1
  have htargets := targets_apart hok hplaced htarget hcs hpassed hnodup
  by_cases hdom : cfg.dominates target b = true
  · -- a back-edge: everything in the frame lies below the scratch area
    have hstaged : jumpCopies cfg l.nextFree b target cs
        = stage l.nextFree cs ++ unstage l.nextFree cs := if_pos hdom
    have hscratch : ∀ c ∈ cs, Apart c.target c.size l.nextFree (stagedSize cs) ∧
        Apart c.source c.size l.nextFree (stagedSize cs) := by
      intro c hc
      obtain ⟨p, hp, hcopy⟩ := exists_left_of_forall₂ hcs hc
      have hparam := hplaced.bounds hsize hcopy.target (hcopy.valueSize (hpassed p hp))
      have harg := hplaced.bounds hsize hcopy.source (hcopy.argSize (hpassed p hp))
      exact ⟨.inl hparam.2, .inl harg.2⟩
    obtain ⟨sizes, hsizes, hfits⟩ :=
      scratch_room htarget (isLoopEntry_of_dominates hblock ht hdom) hroom
    rw [← stagedSize_eq hcs (by rw [List.map_snd_zip hlen.ge]; exact hsizes)] at hfits
    rw [hstaged]
    obtain ⟨hmove, hkeep⟩ := runCopies_staged htargets hscratch mem
    refine ⟨fun c hc => staged_apart hscratch hc, hmove, fun q hq hout => hkeep q hq ?_⟩
    omega
  · have hforward : jumpCopies cfg l.nextFree b target cs = cs := if_neg hdom
    have hdom' : cfg.dominates target b = false := Bool.eq_false_iff.mpr hdom
    have hparallel : ParallelCopy cs := by
      refine ⟨htargets, fun c hc d hd => ?_⟩
      obtain ⟨p, hp, hcopy⟩ := exists_left_of_forall₂ hcs hc
      obtain ⟨q, hq, hcopy'⟩ := exists_left_of_forall₂ hcs hd
      refine (meet_param hok hplaced htarget (hpassed q hq).param hcopy.source hcopy'.target
        (hcopy.argSize (hpassed p hp)) (hcopy'.valueSize (hpassed q hq))).resolve_right ?_
      exact argument_not_shares hok hb hblock ht htarget hdom' (List.of_mem_zip hp).1
        (hpassed q hq).param
    rw [hforward]
    exact ⟨fun c hc => hparallel.sources c hc c hc,
      fun c hc i hi => hparallel.run_target hc hi mem,
      fun q hq _ => runCopies_frame hq mem⟩

/-- A jump is a parallel copy: from the end of its block the code goes to the entrance of the
target, where every parameter holds what its argument held, every other live value what it
held before, and nothing outside the frame has changed. -/
theorem runFunction_jump {c : Compiled B} (hrun : runFunction emit types cfg f constants = some c)
    {b target : BlockId} {block : Block} {args : List ValueId} (hblock : f.block b = some block)
    (ht : block.terminator = some (.jmp target args)) (m : Bytecode.Machine) :
    ∃ targetBlock exit entrance m', f.block target = some targetBlock ∧
      args.length = targetBlock.parameters.length ∧
      c.state.emitter.blockExits.lookup b = some exit ∧
      c.state.emitter.blockEntrances.lookup target = some entrance ∧
      ReflTransGen (Step c.code) (exit, m) (entrance, m') ∧ m'.heap = m.heap ∧
      (∀ pair ∈ args.zip targetBlock.parameters, ∃ source place size,
        c.state.layouter.getValue pair.1 = some source ∧
        c.state.layouter.getValue pair.2.1 = some place ∧
        valueSize types pair.2.1 = some size ∧
        ∀ i < size, m'.frame (place + i) = m.frame (source + i)) ∧
      (∀ v, f.LiveIn target v → v ∉ targetBlock.parameters.map Prod.fst → ∃ place size,
        c.state.layouter.getValue v = some place ∧ valueSize types v = some size ∧
        ∀ i < size, m'.frame (place + i) = m.frame (place + i)) ∧
      ∀ q, q < 2 ∨ c.frameSize ≤ q → m'.frame q = m.frame q := by
  obtain ⟨s, hs, hrun⟩ := Option.bind_eq_some_iff.mp hrun
  obtain ⟨room, hroom, hrun⟩ := Option.bind_eq_some_iff.mp hrun
  obtain ⟨code, hcode, hrun⟩ := Option.bind_eq_some_iff.mp hrun
  obtain rfl := Option.some.inj hrun
  -- the code at the end of the block
  obtain ⟨bs, hres, hbs⟩ := runBlocks_reserves hok.cfg hs
  obtain ⟨hpatched, -⟩ := patchBlocks_spec hres hok.keys
    (fun p hp => lookup_of_mem hok.keys hp) hcode
  obtain ⟨exit, t, ops, hexit, ht', hops, hat⟩ := hpatched _ (mem_of_lookup_eq_some hblock)
  obtain rfl := Option.some.inj (ht.symm.trans ht')
  have hb := hbs b (hres.mem b exit hexit)
  simp only [terminatorCode, Option.bind_eq_bind, Option.bind_eq_some_iff, Option.pure_def,
    Option.some.injEq] at hops
  obtain ⟨targetBlock, htarget, moves, hmoves, entrance, hentrance, rfl⟩ := hops
  obtain ⟨cs, hcopies, rfl⟩ := jumpMoves_eq hmoves
  have hcs := copies_forall₂ hcopies
  obtain ⟨hlen, hpassed⟩ := passed hok hb hblock ht htarget
  obtain ⟨vs, hplaced, hdefined, hconstant, hlow⟩ := runBlocks_placed hok hs
  have hsize := fun v u => @FunctionOk.valueSize_eq _ _ _ _ _ hok v u
  obtain ⟨hself, hmove, hkeep⟩ :=
    jumpCopies_spec hok hplaced hb hblock ht htarget hroom hcs m.frame
  have hreach : Reachable f.entryBlock f.Edge target := by
    obtain ⟨hist, hwalk⟩ := hb
    exact ⟨_, hwalk.step ⟨block, _, hblock, ht, List.mem_singleton.mpr rfl⟩⟩
  -- the moves run, then the jump
  set js := jumpCopies cfg s.layouter.nextFree b target cs
  have hcode : ∀ i < js.length,
      code[exit + i]? = (js[i]?).map fun c => .scalar (moveOp c) := by
    intro i hi
    rw [hat i (by simp; omega), List.getElem?_append_left (by simpa using hi)]
    simp [Function.comp_def]
  have hsteps := steps_moves hself hcode m
  have hjump : Step code (exit + js.length, { m with frame := runCopies js m.frame })
      (entrance, { m with frame := runCopies js m.frame }) := by
    refine .jmp ?_
    rw [hat js.length (by simp), List.getElem?_append_right (by simp)]
    simp
  refine ⟨targetBlock, exit, entrance, _, htarget, hlen, hexit, hentrance, hsteps.tail hjump, rfl,
    fun pair hpair => ?_, fun v hlive hv => ?_, fun q hq => ?_⟩
  · obtain ⟨c, hc, hcopy⟩ := exists_right_of_forall₂ hcs hpair
    exact ⟨c.source, c.target, c.size, hcopy.source, hcopy.target,
      hcopy.valueSize (hpassed pair hpair), hmove c hc⟩
  · have hmem : v ∈ vs := by
      rcases hlive.dominated hok.strict hreach htarget hv with hc | ⟨d, -, hdom, hdef⟩
      · obtain ⟨d, dblock, hd, huse⟩ := hlive.mem_uses
        exact hconstant v (List.mem_flatMap.mpr ⟨_, mem_of_lookup_eq_some hd, huse⟩) hc
      · exact hdefined d v (hdom.reachable hreach) hdef
    obtain ⟨place, size, hplace, hvsize⟩ := hplaced.place v hmem
    refine ⟨place, size, hplace, hvsize, fun i hi => hkeep _ (fun c hc => ?_) (.inl ?_)⟩
    · obtain ⟨pair, hpair, hcopy⟩ := exists_left_of_forall₂ hcs hc
      have hparam := (hpassed pair hpair).param
      exact not_writes_of_apart ((meet_param hok hplaced htarget hparam hplace hcopy.target hvsize
        (hcopy.valueSize (hpassed pair hpair))).resolve_right
          (live_not_shares hok htarget hparam hreach hlive hv)) hi
    · have hbounds := hplaced.bounds hsize hplace hvsize
      omega
  · have hq : q < 2 ∨ s.layouter.nextFree + room ≤ q := hq
    refine hkeep q (fun c hc hwrites => ?_) (hq.imp_left fun h => h.trans_le hlow)
    · obtain ⟨pair, hpair, hcopy⟩ := exists_left_of_forall₂ hcs hc
      have hbounds := hplaced.bounds hsize hcopy.target (hcopy.valueSize (hpassed pair hpair))
      unfold BlockCopy.Writes at hwrites
      omega

end Jump

/-! ### A loop that swaps its parameters -/

section Swap

def swapEntry : Block where
  parameters := [(0, .u 32), (1, .u 32)]
  terminator := some (.jmp 1 [0, 1])

/-- The loop goes on with its parameters swapped, one of them through a cast. -/
def swapBody : Block where
  parameters := [(2, .u 32), (3, .u 32)]
  instructions := [.cast 4 2 .nop]
  terminator := some (.jmp 1 [3, 4])

def swapLoop : Function where
  blocks := [(0, swapEntry), (1, swapBody)]

def swapTypes (v : ValueId) : Option TypeExpr := if v < 5 then some (.u 32) else none

def swapCfg : CFG where
  dominates a b := decide (b < 2 ∧ (a = 0 ∨ a = b))
  dominationPreOrder := [0, 1]

theorem swapLoop_block {b : BlockId} {block : Block} (h : swapLoop.block b = some block) :
    b = 0 ∧ block = swapEntry ∨ b = 1 ∧ block = swapBody := by
  have hmem := mem_of_lookup_eq_some h
  simpa [swapLoop] using hmem

theorem swapLoop_edge {a b : BlockId} : swapLoop.Edge a b ↔ a < 2 ∧ b = 1 := by
  constructor
  · rintro ⟨block, t, hblock, ht, hb⟩
    rcases swapLoop_block hblock with ⟨rfl, rfl⟩ | ⟨rfl, rfl⟩ <;>
      obtain rfl := Option.some.inj ht <;> simpa [Terminator.targets] using hb
  · rintro ⟨ha, rfl⟩
    interval_cases a
    · exact ⟨_, _, rfl, rfl, by decide⟩
    · exact ⟨_, _, rfl, rfl, by decide⟩

theorem swapLoop_walk {hist : List BlockId}
    (h : Walk swapLoop.entryBlock swapLoop.Edge hist) : 0 ∈ hist ∧ ∀ b ∈ hist, b < 2 := by
  induction h with
  | start => exact ⟨List.mem_cons_self, by simp [swapLoop]⟩
  | step _ hedge ih =>
    obtain ⟨-, rfl⟩ := swapLoop_edge.mp hedge
    exact ⟨List.mem_cons_of_mem _ ih.1, List.forall_mem_cons.mpr ⟨by decide, ih.2⟩⟩

theorem swapLoop_reachable {b : BlockId} :
    Reachable swapLoop.entryBlock swapLoop.Edge b ↔ b < 2 := by
  constructor
  · rintro ⟨hist, h⟩
    exact (swapLoop_walk h).2 b List.mem_cons_self
  · intro hb
    interval_cases b
    · exact ⟨[], .start⟩
    · exact ⟨[0], Walk.start.step (swapLoop_edge.mpr ⟨by decide, rfl⟩)⟩

theorem swapCfg_correct : swapCfg.Correct swapLoop := by
  refine ⟨fun a b => ?_, fun b => ?_, by decide⟩
  · rw [swapCfg, decide_eq_true_iff, swapLoop_reachable]
    refine and_congr_right fun hb => ⟨?_, fun hdom => ?_⟩
    · rintro (rfl | rfl) hist h
      · exact (swapLoop_walk h).1
      · exact List.mem_cons_self
    · interval_cases b
      · exact .inl (List.mem_singleton.mp (hdom [] .start))
      · have hmem := hdom [0] (Walk.start.step (swapLoop_edge.mpr ⟨by decide, rfl⟩))
        simpa [or_comm] using hmem
  · rw [swapLoop_reachable, swapCfg]
    constructor
    · intro hb
      have hb : b = 0 ∨ b = 1 := by simpa using hb
      rcases hb with rfl | rfl <;> decide
    · intro hb
      interval_cases b <;> simp

theorem swapLoop_ssa : swapLoop.SingleAssignment [] := by
  refine ⟨fun b block h => ?_, fun v b b' h h' => ?_, fun _ _ _ => rfl⟩
  · rcases swapLoop_block h with ⟨rfl, rfl⟩ | ⟨rfl, rfl⟩ <;> decide
  · have hdef : ∀ {b}, swapLoop.DefinedIn b v → b = if v < 2 then 0 else 1 := by
      rintro b ⟨block, hblock, hv⟩
      rcases swapLoop_block hblock with ⟨rfl, rfl⟩ | ⟨rfl, rfl⟩
      · have hv : v = 0 ∨ v = 1 := by
          simpa [Block.definitions, swapEntry] using hv
        rcases hv with rfl | rfl <;> rfl
      · have hv : v = 2 ∨ v = 3 ∨ v = 4 := by
          simpa [Block.definitions, swapBody, OpCode.results] using hv
        rcases hv with rfl | rfl | rfl <;> rfl
    rw [hdef h, hdef h']

theorem swapLoop_strict : swapLoop.Strict [] := by
  refine ⟨fun b block pre op post _ hblock hsplit v hv => ?_,
    fun b block t _ hblock ht v hv => ?_⟩
  · rcases swapLoop_block hblock with ⟨rfl, rfl⟩ | ⟨rfl, rfl⟩
    · simp [swapEntry] at hsplit
    · have hop : op = .cast 4 2 .nop := by
        have hmem : op ∈ swapBody.instructions := by
          rw [hsplit]
          exact List.mem_append_right _ List.mem_cons_self
        simpa [swapBody] using hmem
      subst hop
      obtain rfl := List.mem_singleton.mp hv
      exact .param hblock (by decide)
  · rcases swapLoop_block hblock with ⟨rfl, rfl⟩ | ⟨rfl, rfl⟩
    · obtain rfl := Option.some.inj ht
      exact .param hblock hv
    · obtain rfl := Option.some.inj ht
      have hv : v = 3 ∨ v = 4 := by simpa [Terminator.inputs] using hv
      rcases hv with rfl | rfl
      · exact .param hblock (by decide)
      · exact .result (by decide)

theorem swapLoop_typing : swapLoop.Typing (fun _ => none) [] swapTypes := by
  refine ⟨nofun, fun b block _ hblock => ?_, fun b block _ hblock => ?_, fun v t hv => ?_⟩
  · rcases swapLoop_block hblock with ⟨rfl, rfl⟩ | ⟨rfl, rfl⟩ <;> decide
  · rcases swapLoop_block hblock with ⟨rfl, rfl⟩ | ⟨rfl, rfl⟩
    · exact nofun
    · intro op hop
      obtain rfl := List.mem_singleton.mp hop
      exact ⟨[(4, .u 32)], rfl, by decide⟩
  · have hlt : v < 5 := by
      by_contra hge
      rw [swapTypes, if_neg hge] at hv
      simp at hv
    refine .inr ?_
    interval_cases v
    · exact ⟨0, _, rfl, by decide⟩
    · exact ⟨0, _, rfl, by decide⟩
    · exact ⟨1, _, rfl, by decide⟩
    · exact ⟨1, _, rfl, by decide⟩
    · exact ⟨1, _, rfl, by decide⟩

theorem swapLoop_ok : FunctionOk (fun _ => none) swapTypes swapCfg swapLoop [] := by
  refine ⟨by decide, swapCfg_correct, swapLoop_ssa, swapLoop_strict, swapLoop_typing,
    fun b block target args _ hblock ht block' hblock' => ?_, fun b block r c v hblock hop => ?_⟩
  · rcases swapLoop_block hblock with ⟨rfl, rfl⟩ | ⟨rfl, rfl⟩ <;>
      obtain ⟨rfl, rfl⟩ := Terminator.jmp.inj (Option.some.inj ht) <;>
        obtain rfl := Option.some.inj hblock' <;> decide
  · rcases swapLoop_block hblock with ⟨rfl, rfl⟩ | ⟨rfl, rfl⟩ <;> simp [swapEntry, swapBody] at hop

theorem runFunction_jump_swap : ∃ c,
    runFunction (B := Unit) (fun _ _ => some []) swapTypes swapCfg swapLoop [] = some c ∧
      ∀ m, ∃ m', ReflTransGen (Step c.code) (3, m) (3, m') ∧
        m'.frame 4 = m.frame 5 ∧ m'.frame 5 = m.frame 4 := by
  obtain ⟨c, hc⟩ := Option.isSome_iff_exists.mp (show (runFunction (B := Unit) (fun _ _ => some [])
    swapTypes swapCfg swapLoop []).isSome by decide)
  have hplaces : (runFunction (B := Unit) (fun _ _ => some []) swapTypes swapCfg swapLoop []).map
      (fun c => (c.state.emitter.blockExits.lookup 1, c.state.emitter.blockEntrances.lookup 1,
        [2, 3, 4].map c.state.layouter.getValue)) = some (some 3, some 3,
          [some 4, some 5, some 4]) :=
    by decide
  rw [hc, Option.map_some] at hplaces
  obtain ⟨hexit, hplaces⟩ := Prod.mk.inj (Option.some.inj hplaces)
  obtain ⟨hentrance, hplaces⟩ := Prod.mk.inj hplaces
  simp only [List.map_cons, List.map_nil, List.cons.injEq, and_true] at hplaces
  obtain ⟨h2, h3, h4⟩ := hplaces
  have hbody : swapLoop.blocks.lookup 1 = some swapBody := rfl
  refine ⟨c, hc, fun m => ?_⟩
  obtain ⟨target, exit, entrance, m', htarget, -, hexit', hentrance', hsteps, -, hparams, -⟩ :=
    runFunction_jump swapLoop_ok hc hbody rfl m
  obtain rfl := Option.some.inj (hexit.symm.trans hexit')
  obtain rfl := Option.some.inj (hentrance.symm.trans hentrance')
  obtain rfl := Option.some.inj htarget
  refine ⟨m', hsteps, ?_, ?_⟩
  · obtain ⟨source, place, size, hsource, hplace, hsize, hmove⟩ :=
      hparams (3, 2, .u 32) (by decide)
    obtain rfl := Option.some.inj (h3.symm.trans hsource)
    obtain rfl := Option.some.inj (h2.symm.trans hplace)
    obtain rfl : 1 = size := Option.some.inj hsize
    exact hmove 0 (by decide)
  · obtain ⟨source, place, size, hsource, hplace, hsize, hmove⟩ :=
      hparams (4, 3, .u 32) (by decide)
    obtain rfl := Option.some.inj (h4.symm.trans hsource)
    obtain rfl := Option.some.inj (h3.symm.trans hplace)
    obtain rfl : 1 = size := Option.some.inj hsize
    exact hmove 0 (by decide)

end Swap

end Mavros.Codegen
