/-
# `Mavros.Passes.JumpThreading` — the two passes over jumps keep runs

The jumps `find_redundant_jumps` lists are the only ways into their targets, so the merges
of `FixDoubleJumps` keep every run; the detours of `DeduplicatePhis` do too.

## What is proved

`passes_keep`: on a well-formed function either pass succeeds and leaves a well-formed function,
which executes the same instructions on the same values and ends alike, from every state in
which it is entered.  For `DeduplicatePhis` it is so in whatever order the groups come, for
`FixDoubleJumps` with whatever the analysis has for dominators.  What is left is well formed, so
that the passes may follow one another.

`passes_keep_diamond` is the theorem at a diamond whose two arms jump to the join with one
argument and which ends in a chain of two jumps: the one pass puts a block in front of the
join, the other takes the chain in.

## How it goes

`findRedundantJumps_spec` connects the analysis with the passes: a node with one incoming edge,
and that an unconditional jump, is a block with one predecessor.  From there on the two
passes are `mergeJumps_spec` and `detours_deduplicatePhis`.
-/
import Mavros.Analysis.DominanceQueries
import Mavros.Passes.DeduplicatePhis
import Mavros.Passes.ThreadedJumps

namespace Mavros.JumpThreading

open Hlssa FlowAnalysis
open FixDoubleJumps (RedundantJump Redundant fixDoubleJumps mergeJumps_spec)
open DeduplicatePhis (unifications deduplicatePhis detours_deduplicatePhis)

/-! ## The redundant jumps of the analysis

Read off the edges of the graph, where a jump is an edge with its kind.
-/

/-- The edges of the graph: one into the entry block, and those of the terminators. -/
theorem edges_graphOf {f : Function} {g : Graph} (hentry : f.entryBlock ∈ f.blocks.map Prod.fst)
    (h : graphOf f = some g) : g.WellFormed ∧ ∀ e, e ∈ g.edges ↔
      e = ⟨.entry, .block f.entryBlock, .entry⟩ ∨
        ∃ b ∈ f.blocks, e ∈ terminatorEdges b.1 b.2.terminator := by
  have hnew : newGraph.WellFormed := ⟨by simp [newGraph], by simp [newGraph],
    by simp [newGraph], by simp [newGraph]⟩
  obtain ⟨hwf, hedges, hnodes⟩ := foldl_addBlock f.blocks hnew
  have hblock : .block f.entryBlock ∈
      (f.blocks.foldl (fun g b => g.addBlock b.1) newGraph).nodes := by
    obtain ⟨b, hb, heq⟩ := List.mem_map.mp hentry
    exact (hnodes _).mpr (.inr ⟨b, hb, by rw [heq]⟩)
  have hset := hwf.addEdge (e := ⟨.entry, .block f.entryBlock, .entry⟩)
    ((hnodes _).mpr (.inl (by simp [newGraph]))) hblock
  obtain ⟨hwf', hedges', -⟩ := foldl_addTerminator f.blocks hset
  simp only [graphOf, Graph.setEntry, hblock, if_pos, Option.bind_eq_bind, Option.bind_some,
    Option.pure_def, Option.some.injEq] at h
  subst h
  refine ⟨hwf', fun e => ?_⟩
  rw [hedges', Graph.addEdge, hedges]
  simp [newGraph]

/-- An edge of the kind `Jmp` is an unconditional jump. -/
theorem jump_of_weight {b : BlockId} {t : Option Terminator} {e : FlowAnalysis.Edge}
    (he : e ∈ terminatorEdges b t) (hw : e.weight = .jmp) :
    ∃ target args, t = some (.jmp target args) ∧ e = ⟨.block b, .block target, .jmp⟩ := by
  match t with
  | some (.jmp target args) => exact ⟨target, args, rfl, List.mem_singleton.mp he⟩
  | some (.jmpIf _ t1 t2) =>
    rw [terminatorEdges, List.mem_cons, List.mem_singleton] at he
    rcases he with rfl | rfl <;> exact absurd hw (by simp)
  | some (.return _) =>
    obtain rfl := List.mem_singleton.mp he
    exact absurd hw (by simp)
  | none => exact absurd he List.not_mem_nil

theorem block_of_toBlock? {n : Node} {b : BlockId} (h : n.toBlock? = some b) : n = .block b := by
  cases n with
  | block b' => rw [Option.some.inj h]
  | entry | «return» => exact absurd h (by simp [Node.toBlock?])

/-- A node with one edge into it, an unconditional jump. -/
def redundantInto (g : Graph) (node : Node) : Option (Node × Node) :=
  match g.incoming node with
  | [e] => if e.weight = .jmp then some (e.source, node) else none
  | _ => none

theorem redundantInto_eq_some {g : Graph} {node : Node} {x : Node × Node}
    (h : redundantInto g node = some x) :
    ∃ e, g.incoming node = [e] ∧ e.weight = .jmp ∧ x = (e.source, node) := by
  unfold redundantInto at h
  split at h
  · next e he =>
    split at h
    · next hw => exact ⟨e, he, hw, (Option.some.inj h).symm⟩
    · exact absurd h (by simp)
  · exact absurd h (by simp)

/-- The one edge into the target of a redundant jump. -/
theorem redundantJump_of_incoming {f : Function} {constants : List (ValueId × Constant)}
    (hf : f.WellFormed constants) {g : Graph}
    (hedges : ∀ e, e ∈ g.edges ↔ e = ⟨.entry, .block f.entryBlock, .entry⟩ ∨
      ∃ b ∈ f.blocks, e ∈ terminatorEdges b.1 b.2.terminator)
    {node : Node} {e : FlowAnalysis.Edge} (he : g.incoming node = [e]) (hw : e.weight = .jmp) :
    ∃ r t rblock tblock args, e.source = .block r ∧ node = .block t ∧
      RedundantJump f r t rblock tblock args := by
  have hmem : e ∈ g.incoming node := by rw [he]; exact List.mem_cons_self
  obtain ⟨hedge, htarget⟩ := List.mem_filter.mp hmem
  have htarget : e.target = node := of_decide_eq_true htarget
  have honly (e' : FlowAnalysis.Edge) (he' : e' ∈ g.edges) (ht' : e'.target = node) : e' = e := by
    have hin : e' ∈ g.incoming node := List.mem_filter.mpr ⟨he', decide_eq_true ht'⟩
    rw [he] at hin
    exact List.mem_singleton.mp hin
  rcases (hedges e).mp hedge with rfl | ⟨⟨r, rblock⟩, hr, he'⟩
  · exact absurd hw (by simp)
  · obtain ⟨t, args, hjmp, rfl⟩ := jump_of_weight he' hw
    obtain rfl : Node.block t = node := htarget
    have hsource : f.block r = some rblock := Lib.lookup_of_mem hf.keys hr
    obtain ⟨tblock, ht, -⟩ := hf.targets r rblock _ hsource hjmp t (List.mem_singleton_self t)
    refine ⟨r, t, rblock, tblock, args, rfl, rfl, hsource, ht, hjmp, ?_, ?_⟩
    · intro a ha
      obtain ⟨e', hflow, hs, ht'⟩ := mem_of_flows (.edge ha)
      have hin : e' ∈ g.edges := (hedges e').mpr (hflow.imp_right fun ⟨b, block, hb, hb'⟩ =>
        ⟨(b, block), Lib.mem_of_lookup_eq_some hb, hb'⟩)
      obtain rfl := honly e' hin ht'
      exact (Node.block.inj hs).symm
    · rintro rfl
      have heq := honly _ ((hedges _).mpr (.inl rfl)) rfl
      exact absurd (congrArg FlowAnalysis.Edge.weight heq) (by simp)

/-- `find_redundant_jumps` finds jumps that are the only way into their target, each target
once. -/
theorem findRedundantJumps_spec {f : Function} {constants : List (ValueId × Constant)}
    (hf : f.WellFormed constants) {c : CFG} (hc : graphOf f = some c.cfg.cfg) :
    ∃ jumps, c.findRedundantJumps = some jumps ∧ Redundant f jumps := by
  have hentry : f.entryBlock ∈ f.blocks.map Prod.fst := by
    obtain ⟨block, hblock⟩ := hf.entry
    exact List.mem_map_of_mem (f := Prod.fst) (Lib.mem_of_lookup_eq_some hblock)
  obtain ⟨hwf, hedges⟩ := edges_graphOf hentry hc
  let found := c.cfg.cfg.nodes.filterMap (redundantInto c.cfg.cfg)
  let blocks (e : Node × Node) : Option (BlockId × BlockId) := do
    return (← e.1.toBlock?, ← e.2.toBlock?)
  have hfound : c.findRedundantJumps = found.mapM blocks := rfl
  have hjump (x : Node × Node) (hx : x ∈ found) : ∃ r t rblock tblock args,
      x = (.block r, .block t) ∧ RedundantJump f r t rblock tblock args := by
    obtain ⟨node, -, hnode⟩ := List.mem_filterMap.mp hx
    obtain ⟨e, he, hw, rfl⟩ := redundantInto_eq_some hnode
    obtain ⟨r, t, rblock, tblock, args, hr, ht, hj⟩ := redundantJump_of_incoming hf hedges he hw
    exact ⟨r, t, rblock, tblock, args, by rw [hr, ht], hj⟩
  obtain ⟨jumps, hjumps⟩ := @Lib.exists_mapM _ _ blocks found fun x hx => by
    obtain ⟨r, t, _, _, _, rfl, -⟩ := hjump x hx
    exact ⟨(r, t), rfl⟩
  have hrel := Lib.mapM_eq_some.mp hjumps
  refine ⟨jumps, hfound.trans hjumps, ?_, ?_⟩
  · -- the targets are different nodes of the graph
    have hnodup : (found.map Prod.snd).Nodup := by
      rw [List.map_filterMap]
      refine hwf.nodup.filterMap fun n n' b hb hb' => ?_
      obtain ⟨x, hx, rfl⟩ := Option.map_eq_some_iff.mp hb
      obtain ⟨x', hx', heq⟩ := Option.map_eq_some_iff.mp hb'
      obtain ⟨_, _, _, rfl⟩ := redundantInto_eq_some hx
      obtain ⟨_, _, _, rfl⟩ := redundantInto_eq_some hx'
      exact heq.symm
    have hsame : (jumps.map Prod.snd).map Node.block = found.map Prod.snd := by
      rw [List.map_map]
      refine List.forall₂_eq_eq_eq.le _ _ ?_
      rw [List.forall₂_map_left_iff, List.forall₂_map_right_iff]
      refine hrel.flip.imp fun j x hx => ?_
      obtain ⟨r, -, hx⟩ := Option.bind_eq_some_iff.mp hx
      obtain ⟨t, ht, hx⟩ := Option.bind_eq_some_iff.mp hx
      obtain rfl := Option.some.inj hx
      exact (block_of_toBlock? ht).symm
    exact List.Nodup.of_map Node.block (hsame ▸ hnodup)
  · intro j hj
    obtain ⟨x, hx, hxj⟩ := Lib.exists_left_of_forall₂ hrel hj
    obtain ⟨r, t, rblock, tblock, args, rfl, hred⟩ := hjump x hx
    obtain rfl := Option.some.inj hxj
    exact ⟨rblock, tblock, args, hred⟩

/-! ## Both passes

`Keeps` is what either pass is asked for, so that passes can be put one after the other.
-/

/-- The pass succeeded, its function is well formed, and entered in the same state it
executes the same instructions on the same values and returns the same. -/
def Keeps (constants : List (ValueId × Constant)) (f : Function) (result : Option Function) :
    Prop :=
  ∃ g, result = some g ∧ g.WellFormed constants ∧
    ∀ (V W : Type) [DecidableEq V] (S : Sem V W) (s : State V (W × List (OpCode × List V))),
      f.Called s → SameRuns S.recording (S.recording.table constants) f g s s

/-- On a well-formed function both passes keep what it does: `DeduplicatePhis` in whatever
order it goes over the groups of blocks, and `FixDoubleJumps` on any control-flow graph. -/
theorem passes_keep {f : Function} {constants : List (ValueId × Constant)}
    (hf : f.WellFormed constants) :
    (∀ order, order.Perm (unifications f) → Keeps constants f (deduplicatePhis f order)) ∧
      ∀ simpleFast cfg, build simpleFast f = some cfg →
        Keeps constants f (fixDoubleJumps cfg f) := by
  constructor
  · intro order horder
    obtain ⟨g, hg, hdetours⟩ := detours_deduplicatePhis hf horder
    refine ⟨g, hg, hdetours.wellFormed hf, ?_⟩
    intro V W _ S s hs
    obtain ⟨hblock, block, args, hb, -, henv⟩ := hs
    exact hdetours.sameRuns hf ⟨hblock, block, args, hb, henv⟩
  · intro simpleFast cfg hcfg
    obtain ⟨jumps, hjumps, hred⟩ := findRedundantJumps_spec hf (graph_of_build hcfg)
    obtain ⟨g, hg, hwf, hruns⟩ := mergeJumps_spec hf hred
    refine ⟨g, ?_, hwf, ?_⟩
    · rw [fixDoubleJumps, hjumps]
      exact hg
    · intro V W _ S s hs
      exact hruns.sameRuns S.recording hs

/-- The branches of a diamond jump to the join with the same argument, and a chain of two jumps
follows it. -/
def diamond : Function where
  entryBlock := 0
  blocks := [(0, { parameters := [(6, .u 1), (3, .u 32)], terminator := some (.jmpIf 6 1 2) }),
    (1, { terminator := some (.jmp 3 [3]) }), (2, { terminator := some (.jmp 3 [3]) }),
    (3, { parameters := [(4, .u 32)], instructions := [.binaryArithOp .add 5 4 4],
          terminator := some (.jmp 4 [5]) }),
    (4, { parameters := [(7, .u 32)], terminator := some (.jmp 5 [7]) }),
    (5, { parameters := [(8, .u 32)], terminator := some (.return [8]) })]
  nextBlock := 6

theorem mem_diamond {b : BlockId} {block : Block} (h : diamond.block b = some block) :
    (b, block) ∈ diamond.blocks := Lib.mem_of_lookup_eq_some h

theorem diamond_edge {b b' : BlockId} {block : Block} {t : Terminator}
    (h : diamond.block b = some block) (ht : block.terminator = some t) (hb : b' ∈ t.targets) :
    diamond.Edge b b' := ⟨_, _, h, ht, hb⟩

open Lib (Walk Reachable Dominates) in
theorem diamond_reachable :
    ∀ p ∈ diamond.blocks, Reachable diamond.entryBlock diamond.Edge p.1 := by
  have h0 : Walk diamond.entryBlock diamond.Edge [0] := .start
  have h1 := h0.step (b := 1) (diamond_edge rfl rfl (by decide))
  have h2 := h0.step (b := 2) (diamond_edge rfl rfl (by decide))
  have h3 := h1.step (b := 3) (diamond_edge rfl rfl (by decide))
  have h4 := h3.step (b := 4) (diamond_edge rfl rfl (by decide))
  have h5 := h4.step (b := 5) (diamond_edge rfl rfl (by decide))
  simp only [diamond, List.forall_mem_cons, List.not_mem_nil, false_imp_iff, implies_true, and_true]
  exact ⟨⟨_, h0⟩, ⟨_, h1⟩, ⟨_, h2⟩, ⟨_, h3⟩, ⟨_, h4⟩, ⟨_, h5⟩⟩

/-- A terminator reads what its block defines, or the second parameter of the entry block. -/
theorem diamond_reads : ∀ p ∈ diamond.blocks, ∀ v ∈ p.2.terminator.elim [] Terminator.inputs,
    v ∈ p.2.parameters.map Prod.fst ∨ v ∈ p.2.instructions.flatMap OpCode.results ∨
      p.1 ≠ 0 ∧ v = 3 := by
  decide

theorem diamond_wellFormed : diamond.WellFormed [] where
  keys := by decide
  fresh b block h := (by decide : ∀ p ∈ diamond.blocks, p.1 < 6) _ (mem_diamond h)
  entry := ⟨_, rfl⟩
  terminated b block h := Option.isSome_iff_exists.mp
    ((by decide : ∀ p ∈ diamond.blocks, p.2.terminator.isSome) _ (mem_diamond h))
  targets b block t h ht b' hb' := by
    have hall : ∀ p ∈ diamond.blocks, ∀ t ∈ p.2.terminator.toList, ∀ b' ∈ t.targets,
        ((diamond.block b').map fun block => block.parameters.length)
          = some t.arguments.length := by
      decide
    obtain ⟨block', hblock', hlen⟩ :=
      Option.map_eq_some_iff.mp (hall _ (mem_diamond h) t (by simp [ht]) b' hb')
    exact ⟨block', hblock', hlen.symm⟩
  reachable b block h := diamond_reachable _ (mem_diamond h)
  ssa := by
    have honce : ∀ p ∈ diamond.blocks, p.2.definitions.Nodup := by decide
    have hblock : ∀ p ∈ diamond.blocks, ∀ p' ∈ diamond.blocks, ∀ v ∈ p.2.definitions,
        v ∈ p'.2.definitions → p.1 = p'.1 := by decide
    refine ⟨fun b block h => honce _ (mem_diamond h), ?_, fun _ _ _ => rfl⟩
    rintro v b b' ⟨block, h, hv⟩ ⟨block', h', hv'⟩
    exact hblock _ (mem_diamond h) _ (mem_diamond h') v hv hv'
  strict := by
    have hinputs : ∀ p ∈ diamond.blocks, ∀ op ∈ p.2.instructions, ∀ v ∈ op.inputs,
        v ∈ p.2.parameters.map Prod.fst := by decide
    constructor
    · intro b block pre op post _ h hsplit v hv
      have hop : op ∈ block.instructions := by simp [hsplit]
      exact .param h (hinputs _ (mem_diamond h) op hop v hv)
    · intro b block t _ h ht v hv
      rcases diamond_reads _ (mem_diamond h) v (by simpa [ht] using hv) with hp | hr | ⟨hne, rfl⟩
      · exact .param h hp
      · exact .result hr
      · exact .dominated hne.symm (.of_entry b) ⟨_, rfl, by decide⟩

/-- The blocks of a function and where they go. -/
def terminators (f : Function) : List (BlockId × Option Terminator) :=
  f.blocks.map fun b => (b.1, b.2.terminator)

/-- `DeduplicatePhis` puts a block in front of the join, and `FixDoubleJumps` takes the two
blocks of the chain into it. -/
theorem passes_keep_diamond :
    (deduplicatePhis diamond (unifications diamond)).map terminators
        = some [(6, some (.jmp 3 [3])), (0, some (.jmpIf 6 1 2)), (1, some (.jmp 6 [])),
          (2, some (.jmp 6 [])), (3, some (.jmp 4 [5])), (4, some (.jmp 5 [7])),
          (5, some (.return [8]))] ∧
      Keeps [] diamond (deduplicatePhis diamond (unifications diamond)) ∧
      ∃ cfg, build searchDominators diamond = some cfg ∧
        (fixDoubleJumps cfg diamond).map terminators
          = some [(0, some (.jmpIf 6 1 2)), (1, some (.jmp 3 [3])), (2, some (.jmp 3 [3])),
            (3, some (.return [5]))] ∧
        Keeps [] diamond (fixDoubleJumps cfg diamond) := by
  obtain ⟨hdedup, hfix⟩ := passes_keep diamond_wellFormed
  obtain ⟨cfg, hcfg, -⟩ := @build_answers searchDominators diamond (by decide) (by decide)
    (searchDominators_correct_of_graphOf (by decide) (by decide))
  have hmerged : ((build searchDominators diamond).bind (fixDoubleJumps · diamond)).map terminators
      = some [(0, some (.jmpIf 6 1 2)), (1, some (.jmp 3 [3])), (2, some (.jmp 3 [3])),
        (3, some (.return [5]))] := by decide +kernel
  rw [hcfg] at hmerged
  exact ⟨by decide +kernel, hdedup _ (.refl _), cfg, hcfg, hmerged, hfix _ cfg hcfg⟩

end Mavros.JumpThreading
