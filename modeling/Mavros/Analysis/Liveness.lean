/-
# `Mavros.Analysis.Liveness` — live values of a function

The analysis solves the equations of liveness by a worklist that starts from the blocks
that return.  It always stops, and what it says of a block is exact; but a block from which
no return is reached is never visited and gets no entry, so the analysis is exact just for
the functions all of whose blocks reach a return (`exact_iff`).

A set of the source is a finite set.  petgraph lists the edges of a node the latest first.

## What is proved

* `runFunction_unique`, `exists_solved`: the analysis stops, with one result.  The blocks that
  reach a return have entries, these solve the equations, and every value found live is live on
  some path.
* `exact_iff`: every block has its entry and every entry is what the paths say, exactly if every
  block reaches a return.
* `not_exact_spin_jmp`: a branch one of whose sides runs for ever, and the entry that is missing.

## How it goes

The loop is the general one of `Mavros.Lib.Worklist` with sets of values for entries
(`loop_eq`, `runFunction_eq`), so that termination and the equations come from there.  What
paths read before defining it is `Mavros.Hlssa.Live`, whose equations are the same.  The two
inclusions are separate: what is found is live by the invariant, and what is live is found along
its path, where the entries of all blocks on the path are needed (`Solved.complete`).
-/
import Mavros.Analysis.DominanceQueries
import Mavros.Hlssa.Live
import Mavros.Hlssa.WellFormed
import Mavros.Lib.Worklist

namespace Mavros.FlowAnalysis.CFG

open Hlssa

variable (c : CFG)

def getSuccessors (b : BlockId) : Option (List BlockId) := do
  let node ← c.node b
  return (c.cfg.cfg.edges.filter (·.source = node)).reverse.filterMap (·.target.toBlock?)

def getPredecessors (b : BlockId) : Option (List BlockId) := do
  let node ← c.node b
  return (c.cfg.cfg.incoming node).reverse.filterMap (·.source.toBlock?)

def getReturnBlocks : List BlockId :=
  (c.cfg.cfg.incoming .return).reverse.filterMap (·.source.toBlock?)

end Mavros.FlowAnalysis.CFG

namespace Mavros.Liveness

open Hlssa FlowAnalysis
open Lib.Worklist (Problem Entries before)
open Relation (ReflTransGen)

/-- `BlockLiveness`: `live_in` and `live_out`. -/
abbrev BlockLiveness := Finset ValueId × Finset ValueId

abbrev FunctionLiveness := AList fun _ : BlockId => BlockLiveness

/-- The maps `gens` and `kills`, which have the same keys. -/
abbrev GenKill := List (BlockId × Finset ValueId × Finset ValueId)

/-! ## The source -/

/-- An instruction inserts its inputs into `g`, and its results pass from there to `k`. -/
def genKillInstruction (s : Finset ValueId × Finset ValueId) (op : OpCode) :
    Finset ValueId × Finset ValueId :=
  ((s.1 ∪ op.inputs.toFinset) \ op.results.toFinset, s.2 ∪ op.results.toFinset)

/-- What goes into `gens` and `kills` for a block. -/
def genKill (block : Block) : Option (Finset ValueId × Finset ValueId) := do
  let t ← block.terminator
  let (g, k) := block.instructions.reverse.foldl genKillInstruction (t.inputs.toFinset, ∅)
  return (g, k ∪ (block.parameters.map Prod.fst).toFinset)

/-- `result.entry(b).or_insert` of an empty entry. -/
def orInsert (result : FunctionLiveness) (b : BlockId) : FunctionLiveness :=
  if (result.lookup b).isSome then result else result.insert b (∅, ∅)

/-- One turn of the loop: what it queues, and the result. -/
def visit (c : CFG) (sets : GenKill) (b : BlockId) (result : FunctionLiveness) :
    Option (List BlockId × FunctionLiveness) := do
  let visited := (result.lookup b).isSome
  let result := orInsert result b
  let original ← result.lookup b
  let successors ← c.getSuccessors b
  let newLiveOut := successors.foldl (fun out s => out ∪ ((result.lookup s).getD (∅, ∅)).1) ∅
  let newLiveIn := newLiveOut ∪ ((sets.lookup b).map Prod.fst).getD ∅
  let kills ← (sets.lookup b).map Prod.snd
  let newLiveIn := newLiveIn \ kills
  let queued ← if visited = false ∨ original.1 ≠ newLiveIn then c.getPredecessors b else some []
  return (queued, result.insert b (newLiveIn, newLiveOut))

def loop (c : CFG) (sets : GenKill) : Nat → List BlockId → FunctionLiveness →
    Option FunctionLiveness
  | 0, _, _ => none
  | _ + 1, [], result => some result
  | fuel + 1, b :: queue, result => do
    let (queued, result) ← visit c sets b result
    loop c sets fuel (queue ++ queued) result

/-- `LivenessAnalysis::run_function`, for so many turns of its loop. -/
def runFunction (fuel : Nat) (f : Function) (c : CFG) : Option FunctionLiveness := do
  let sets ← f.blocks.mapM fun b => do return (b.1, ← genKill b.2)
  loop c sets fuel c.getReturnBlocks ∅

/-! ## The sets of a block

One pass over the instructions; a value that is read after it is defined is not generated.
-/

section Sets

variable {block : Block} {t : Terminator} {v : ValueId}

theorem genKill_fold (ops : List OpCode) (s : Finset ValueId) :
    (ops.reverse.foldl genKillInstruction (s, ∅)).2 = (ops.flatMap OpCode.results).toFinset ∧
      ∀ v, v ∉ ops.flatMap OpCode.results →
        (v ∈ (ops.reverse.foldl genKillInstruction (s, ∅)).1 ↔
          v ∈ ops.flatMap OpCode.inputs ∨ v ∈ s) := by
  rw [List.foldl_reverse]
  induction ops with
  | nil => simp
  | cons op ops ih =>
    obtain ⟨hkills, hgens⟩ := ih
    rw [List.foldr_cons, genKillInstruction]
    constructor
    · rw [hkills, List.flatMap_cons, List.toFinset_append]
      exact Finset.union_comm _ _
    · intro v hv
      rw [List.flatMap_cons, List.mem_append, not_or] at hv
      rw [Finset.mem_sdiff, Finset.mem_union, hgens v hv.2, List.mem_toFinset,
        List.mem_toFinset, List.flatMap_cons, List.mem_append]
      tauto

/-- A block kills what it defines, and apart from that generates what it reads. -/
theorem genKill_spec (ht : block.terminator = some t) :
    ∃ g, genKill block = some (g, block.definitions.toFinset) ∧
      ∀ v, v ∉ block.definitions → (v ∈ g ↔ v ∈ block.uses) := by
  obtain ⟨hkills, hgens⟩ := genKill_fold block.instructions t.inputs.toFinset
  refine ⟨(block.instructions.reverse.foldl genKillInstruction (t.inputs.toFinset, ∅)).1, ?_, ?_⟩
  · rw [genKill, ht, Block.definitions, List.toFinset_append, ← hkills, Finset.union_comm]
    rfl
  · intro v hv
    rw [Block.definitions, List.mem_append, not_or] at hv
    rw [hgens v hv.2, Block.uses, ht, List.mem_append, List.mem_toFinset]
    rfl

end Sets

/-! ## The loop is the general one

The map of the source has entries for the visited blocks, and so have those of the general loop.
-/

/-- The equations of liveness. -/
def problem (c : CFG) (sets : GenKill) : Problem BlockId (Finset ValueId) where
  successors b := (c.getSuccessors b).getD []
  predecessors b := (c.getPredecessors b).getD []
  transfer b out :=
    (out ∪ ((sets.lookup b).map Prod.fst).getD ∅) \ ((sets.lookup b).map Prod.snd).getD ∅

section Visit

variable {c : CFG} {sets : GenKill} {b : BlockId} {result : FunctionLiveness}

theorem orInsert_spec (result : FunctionLiveness) (b : BlockId) :
    (orInsert result b).lookup b = some ((result.lookup b).getD (∅, ∅)) ∧
      before (orInsert result b) = before result ∧
        ∀ x, (orInsert result b).insert b x = result.insert b x := by
  cases hx : result.lookup b with
  | some x =>
    have heq : orInsert result b = result := by rw [orInsert, hx]; rfl
    rw [heq]
    exact ⟨hx, rfl, fun _ => rfl⟩
  | none =>
    have heq : orInsert result b = result.insert b (∅, ∅) := by rw [orInsert, hx]; rfl
    rw [heq]
    refine ⟨AList.lookup_insert result, ?_, fun _ => AList.insert_insert result⟩
    -- a block without an entry counts as one with an empty entry
    funext s
    by_cases hs : s = b
    · subst hs
      rw [Lib.Worklist.before_insert_self, before, hx]
      rfl
    · exact Lib.Worklist.before_insert_ne hs _

theorem getD_fst (result : FunctionLiveness) (s : BlockId) :
    ((result.lookup s).getD (∅, ∅)).1 = before result s := by
  rw [before]
  cases result.lookup s <;> rfl

/-- A visit makes the entry of the block anew, and queues what the general loop queues. -/
theorem visit_eq (hnode : c.node b = some (.block b)) (hsets : (sets.lookup b).isSome) :
    visit c sets b result = some ((problem c sets).wake result b,
      result.insert b ((problem c sets).entry result b)) := by
  obtain ⟨x, hx⟩ := Option.isSome_iff_exists.mp hsets
  obtain ⟨successors, hsuccessors⟩ : ∃ l, c.getSuccessors b = some l :=
    ⟨_, by rw [CFG.getSuccessors, hnode]; rfl⟩
  obtain ⟨predecessors, hpredecessors⟩ : ∃ l, c.getPredecessors b = some l :=
    ⟨_, by rw [CFG.getPredecessors, hnode]; rfl⟩
  obtain ⟨hlookup, hbefore, hinsert⟩ := orInsert_spec result b
  have hentry : (problem c sets).entry result b =
      ((successors.foldl (fun out s => out ∪ before result s) ∅ ∪ x.1) \ x.2,
        successors.foldl (fun out s => out ∪ before result s) ∅) := by
    simp only [Problem.entry, Problem.after, Problem.join, problem, hsuccessors, hx]
    rfl
  have hwake : (problem c sets).wake result b = if result.lookup b = none ∨
      before result b ≠ ((problem c sets).entry result b).1 then predecessors else [] := by
    simp only [Problem.wake, problem, hpredecessors]
    rfl
  have hvisited : (result.lookup b).isSome = false ↔ result.lookup b = none := by simp
  simp only [visit, hlookup, hsuccessors, hpredecessors, hx, getD_fst, hbefore, hinsert, hwake,
    hentry, hvisited, Option.map_some, Option.getD_some, Option.bind_eq_bind,
    Option.bind_some, Option.pure_def]
  split <;> rfl

/-- Among nodes that have their sets the loop never fails. -/
theorem loop_eq {nodes : Set BlockId} (hnodes : ∀ b ∈ nodes, c.node b = some (.block b) ∧
      (sets.lookup b).isSome ∧ ∀ a ∈ (problem c sets).predecessors b, a ∈ nodes) :
    ∀ (fuel : Nat) (queue : List BlockId) (result : FunctionLiveness), (∀ b ∈ queue, b ∈ nodes) →
      loop c sets fuel queue result = (problem c sets).run fuel queue result
  | 0, _, _, _ => rfl
  | _ + 1, [], _, _ => rfl
  | fuel + 1, b :: queue, result, hqueue => by
    obtain ⟨hnode, hsets, hpredecessors⟩ := hnodes b (hqueue b List.mem_cons_self)
    rw [loop, visit_eq hnode hsets, Problem.run]
    refine loop_eq hnodes fuel _ _ fun a ha => ?_
    rcases List.mem_append.mp ha with ha | ha
    · exact hqueue a (List.mem_cons_of_mem b ha)
    · rw [Problem.wake] at ha
      split at ha
      · exact hpredecessors a ha
      · cases ha

end Visit

/-! ## The graph of a function

Successors and predecessors, as the queries of the control-flow graph give them.
-/

section Graph

variable {c : CFG} {sets : GenKill} {a b : BlockId}

theorem mem_filterMap_reverse {l : List FlowAnalysis.Edge} {key : FlowAnalysis.Edge → Node} :
    b ∈ l.reverse.filterMap (fun e => (key e).toBlock?) ↔ ∃ e ∈ l, key e = .block b := by
  have hmap : l.reverse.filterMap (fun e => (key e).toBlock?) =
      (l.reverse.map key).filterMap Node.toBlock? := by
    rw [List.filterMap_map]
    rfl
  rw [hmap, mem_filterMap_toBlock, List.mem_map]
  simp only [List.mem_reverse]

theorem mem_successors (hc : c.cfg.cfg.WellFormed) :
    b ∈ (problem c sets).successors a ↔ c.cfg.cfg.Flow (.block a) (.block b) := by
  change b ∈ (c.getSuccessors a).getD [] ↔ _
  rw [CFG.getSuccessors, CFG.node]
  split
  · simp only [Option.bind_eq_bind, Option.bind_some, Option.pure_def, Option.getD_some,
      mem_filterMap_reverse, List.mem_filter, decide_eq_true_eq, and_assoc]
    rfl
  · next ha =>
    refine ⟨fun h => absurd h List.not_mem_nil, ?_⟩
    rintro ⟨e, he, hs, -⟩
    exact absurd (hs ▸ (hc.edge_mem e he).1) ha

theorem mem_predecessors (hc : c.cfg.cfg.WellFormed) :
    a ∈ (problem c sets).predecessors b ↔ c.cfg.cfg.Flow (.block a) (.block b) := by
  change a ∈ (c.getPredecessors b).getD [] ↔ _
  rw [CFG.getPredecessors, CFG.node]
  split
  · simp only [Option.bind_eq_bind, Option.bind_some, Option.pure_def, Option.getD_some,
      mem_filterMap_reverse]
    exact incoming_iff _ _ _
  · next hb =>
    refine ⟨fun h => absurd h List.not_mem_nil, ?_⟩
    rintro ⟨e, he, -, ht⟩
    exact absurd (ht ▸ (hc.edge_mem e he).2) hb

theorem mem_getReturnBlocks :
    b ∈ c.getReturnBlocks ↔ c.cfg.cfg.Flow (.block b) .return := by
  rw [CFG.getReturnBlocks, mem_filterMap_reverse]
  exact incoming_iff _ _ _

theorem edge_iff {f : Function} : Flows f (.block a) (.block b) ↔ f.Edge a b := by
  constructor
  · intro h
    cases h with
    | edge h => exact h
  · exact .edge

/-- The block returns. -/
def Returns (f : Function) (b : BlockId) : Prop :=
  ∃ block vals, f.block b = some block ∧ block.terminator = some (.return vals)

theorem returns_iff {f : Function} : Flows f (.block b) .return ↔ Returns f b := by
  constructor
  · intro h
    cases h with
    | «return» hb ht => exact ⟨_, _, hb, ht⟩
  · rintro ⟨block, vals, hb, ht⟩
    exact .return hb ht

end Graph

/-! ## The equations

`gens` and `kills` are read back as the two parts of the equations.
-/

/-- From the block a block that returns is reached. -/
def ReachesReturn (f : Function) (b : BlockId) : Prop :=
  ∃ r, Returns f r ∧ ReflTransGen f.Edge b r

/-- Each block has its sets: it kills what it defines, and apart from that generates what
it reads. -/
structure SetsOf (f : Function) (sets : GenKill) : Prop where
  block : ∀ b block, f.block b = some block →
    ∃ g, sets.lookup b = some (g, block.definitions.toFinset) ∧
      ∀ v, v ∉ block.definitions → (v ∈ g ↔ v ∈ block.uses)
  absent : ∀ b, f.block b = none → sets.lookup b = none

section Equations

variable {f : Function} {constants : List (ValueId × Constant)} {c : CFG} {sets : GenKill}

theorem exists_setsOf (hf : f.WellFormed constants) :
    ∃ sets : GenKill, f.blocks.mapM (fun b => do return (b.1, ← genKill b.2)) = some sets ∧
      SetsOf f sets := by
  obtain ⟨sets, hsets⟩ := @Lib.exists_mapM _ _
    (fun b : BlockId × Block => do return (b.1, ← genKill b.2)) f.blocks fun b hb => by
      obtain ⟨t, ht⟩ := hf.terminated b.1 b.2 (Lib.lookup_of_mem hf.keys hb)
      obtain ⟨g, hg, -⟩ := genKill_spec ht
      exact ⟨_, by rw [hg]; rfl⟩
  have hkeys : List.Forall₂ (fun b s => s.1 = b.1 ∧ genKill b.2 = some s.2) f.blocks sets := by
    refine (Lib.mapM_eq_some.mp hsets).imp fun b s h => ?_
    simp only [Option.bind_eq_bind, Option.bind_eq_some_iff, Option.pure_def,
      Option.some.injEq] at h
    obtain ⟨x, hx, rfl⟩ := h
    exact ⟨rfl, hx⟩
  refine ⟨sets, hsets, fun b block hblock => ?_, fun b hnone => ?_⟩
  · obtain ⟨t, ht⟩ := hf.terminated b block hblock
    obtain ⟨g, hg, hmem⟩ := genKill_spec ht
    rcases Lib.lookup_forall₂ hkeys b with ⟨hnone, -⟩ | ⟨x, y, hx, hy, hxy⟩
    · exact absurd (hblock.symm.trans hnone) (Option.some_ne_none block)
    · obtain rfl := Option.some.inj (hblock.symm.trans hx)
      exact ⟨g, hy.trans (hxy.symm.trans hg), hmem⟩
  · rcases Lib.lookup_forall₂ hkeys b with ⟨-, h⟩ | ⟨x, y, hx, -, -⟩
    · exact h
    · exact absurd (hx.symm.trans hnone) (Option.some_ne_none x)

theorem SetsOf.mem_transfer (h : SetsOf f sets) {b : BlockId} {block : Block}
    (hblock : f.block b = some block) {out : Finset ValueId} {v : ValueId} :
    v ∈ (problem c sets).transfer b out ↔ v ∉ block.definitions ∧ (v ∈ block.uses ∨ v ∈ out) := by
  obtain ⟨g, hg, hmem⟩ := h.block b block hblock
  simp only [problem, hg, Option.map_some, Option.getD_some, Finset.mem_sdiff, Finset.mem_union,
    List.mem_toFinset]
  constructor
  · rintro ⟨h, hv⟩
    exact ⟨hv, h.symm.imp_left (hmem v hv).mp⟩
  · rintro ⟨hv, h⟩
    exact ⟨h.symm.imp_right (hmem v hv).mpr, hv⟩

theorem SetsOf.transfer_none (h : SetsOf f sets) {b : BlockId} (hnone : f.block b = none)
    (out : Finset ValueId) : (problem c sets).transfer b out = out := by
  simp [problem, h.absent b hnone]

theorem mem_foldl_union {x : BlockId → Finset ValueId} {v : ValueId} :
    ∀ {l : List BlockId} {s : Finset ValueId},
      v ∈ l.foldl (fun out b => out ⊔ x b) s ↔ v ∈ s ∨ ∃ b ∈ l, v ∈ x b
  | [], s => by simp
  | b :: l, s => by
    rw [List.foldl_cons, mem_foldl_union, Finset.sup_eq_union, Finset.mem_union, or_assoc,
      List.exists_mem_cons_iff]

/-- What holds after a block holds before one of its successors. -/
theorem mem_join {p : Problem BlockId (Finset ValueId)} {x : BlockId → Finset ValueId}
    {b : BlockId} {v : ValueId} : v ∈ p.join x b ↔ ∃ s ∈ p.successors b, v ∈ x s := by
  rw [Problem.join, mem_foldl_union, Finset.bot_eq_empty]
  simp only [Finset.notMem_empty, false_or]

/-- The graph of the analysis, read back. -/
theorem flow_of_graph (hf : f.WellFormed constants) (hc : graphOf f = some c.cfg.cfg) :
    c.cfg.cfg.WellFormed ∧ c.cfg.cfg.Flow = Flows f ∧
      ∀ b block, f.block b = some block → c.node b = some (.block b) := by
  obtain ⟨entry, hentry⟩ := hf.entry
  obtain ⟨g, hg, hwf, hflow, hnodes⟩ := graphOf_spec hf.keys
    (List.mem_map_of_mem (f := Prod.fst) (Lib.mem_of_lookup_eq_some hentry))
  obtain rfl := Option.some.inj (hc.symm.trans hg)
  exact ⟨hwf, hflow, fun b block hb =>
    if_pos (hnodes b (List.mem_map_of_mem (f := Prod.fst) (Lib.mem_of_lookup_eq_some hb)))⟩

/-- The analysis runs the general loop. -/
theorem runFunction_eq (hf : f.WellFormed constants) (hc : graphOf f = some c.cfg.cfg) :
    ∃ sets, SetsOf f sets ∧ ∀ fuel, runFunction fuel f c =
      (problem c sets).run fuel c.getReturnBlocks ∅ := by
  obtain ⟨hwf, hflow, hnode⟩ := flow_of_graph hf hc
  obtain ⟨sets, hsets, hspec⟩ := exists_setsOf hf
  refine ⟨sets, hspec, fun fuel => ?_⟩
  rw [runFunction, hsets]
  refine @loop_eq c sets {b | ∃ block, f.block b = some block} ?_ fuel _ _ ?_
  · rintro b ⟨block, hb⟩
    obtain ⟨g, hg, -⟩ := hspec.block b block hb
    refine ⟨hnode b block hb, Option.isSome_iff_exists.mpr ⟨_, hg⟩, fun a ha => ?_⟩
    rw [mem_predecessors hwf, hflow, edge_iff] at ha
    obtain ⟨block', -, ha, -⟩ := ha
    exact ⟨block', ha⟩
  · intro b hb
    rw [mem_getReturnBlocks, hflow, returns_iff] at hb
    obtain ⟨block, -, hb, -⟩ := hb
    exact ⟨block, hb⟩

end Equations

/-! ## What the analysis computes

Soundness holds of every function; completeness asks for the entries.
-/

/-- The blocks that reach a return have entries.  These solve the equations, in which the
other blocks count as needing nothing, and what they hold is live. -/
structure Solved (f : Function) (l : FunctionLiveness) : Prop where
  mem_iff : ∀ b, b ∈ l ↔ ReachesReturn f b
  liveIn : ∀ b block x, f.block b = some block → l.lookup b = some x →
    ∀ v, v ∈ x.1 ↔ v ∉ block.definitions ∧ (v ∈ block.uses ∨ v ∈ x.2)
  liveOut : ∀ b x, l.lookup b = some x → ∀ v, v ∈ x.2 ↔ ∃ c, f.Edge b c ∧ v ∈ before l c
  sound : ∀ b v, v ∈ before l b → f.LiveAtStart b v

section Solved

variable {f : Function} {constants : List (ValueId × Constant)} {c : CFG}
  {l : FunctionLiveness}

theorem finite_reachesReturn (f : Function) : {b | ReachesReturn f b}.Finite := by
  refine (f.blocks.map Prod.fst).toFinset.finite_toSet.subset ?_
  rintro b ⟨r, hr, hreach⟩
  have hblock : ∃ block, f.block b = some block := by
    rcases hreach.cases_head with rfl | ⟨_, ⟨block, _, hb, _⟩, _⟩
    · obtain ⟨block, -, hb, -⟩ := hr
      exact ⟨block, hb⟩
    · exact ⟨block, hb⟩
  obtain ⟨block, hb⟩ := hblock
  rw [Finset.mem_coe, List.mem_toFinset]
  exact List.mem_map_of_mem (f := Prod.fst) (Lib.mem_of_lookup_eq_some hb)

/-- All values that are read. -/
def allUses (f : Function) : Finset ValueId := (f.blocks.flatMap fun b => b.2.uses).toFinset

theorem mem_allUses {b : BlockId} {v : ValueId} (h : f.LiveAtStart b v) : v ∈ allUses f := by
  obtain ⟨_, -, -, hlive⟩ := h
  obtain ⟨d, block, hd, hv⟩ := hlive.mem_uses
  exact List.mem_toFinset.mpr
    (List.mem_flatMap.mpr ⟨(d, block), Lib.mem_of_lookup_eq_some hd, hv⟩)

/-- The analysis stops, at a solution of the equations. -/
theorem exists_solved (hf : f.WellFormed constants) (hc : graphOf f = some c.cfg.cfg) :
    ∃ fuel l, runFunction fuel f c = some l ∧ Solved f l := by
  obtain ⟨hwf, hflow, -⟩ := flow_of_graph hf hc
  obtain ⟨sets, hspec, hrun⟩ := runFunction_eq hf hc
  have hsuccessors : ∀ a b, b ∈ (problem c sets).successors a ↔ f.Edge a b := by
    intro a b
    rw [mem_successors hwf, hflow, edge_iff]
  have hreaches : ∀ b, (problem c sets).Reaches c.getReturnBlocks b ↔ ReachesReturn f b := by
    intro b
    simp only [Problem.Reaches, ReachesReturn, mem_getReturnBlocks, hflow, returns_iff,
      hsuccessors]
  have hposed : (problem c sets).WellPosed := by
    refine ⟨fun a b => ?_, fun a x y hle => ?_⟩
    · rw [mem_predecessors hwf, mem_successors hwf]
    · exact Finset.sdiff_subset_sdiff (Finset.union_subset_union_left hle) subset_rfl
  let good (b : BlockId) (x : Finset ValueId) : Prop := ∀ v ∈ x, f.LiveAtStart b v
  have hgood : ∀ x b, (∀ s, good s (x s)) →
      good b ((problem c sets).transfer b ((problem c sets).join x b)) := by
    intro x b hx v hv
    cases hb : f.block b with
    | none =>
      rw [hspec.transfer_none hb, mem_join] at hv
      obtain ⟨s, hs, -⟩ := hv
      obtain ⟨block, -, hblock, -⟩ := (hsuccessors b s).mp hs
      exact absurd (hblock.symm.trans hb) (Option.some_ne_none block)
    | some block =>
      rw [hspec.mem_transfer hb, mem_join] at hv
      refine (Function.liveAtStart_iff hf.ssa hf.strict (hf.reachable b block hb) hb).mpr
        ⟨hv.1, hv.2.imp_right ?_⟩
      rintro ⟨s, hs, hmem⟩
      exact ⟨s, (hsuccessors b s).mp hs, hx s v hmem⟩
  have hcap : ∀ b x, good b x → x.card ≤ (allUses f).card := fun b x hx =>
    Finset.card_le_card fun v hv => mem_allUses (hx v hv)
  have hfinite : {b | (problem c sets).Reaches c.getReturnBlocks b}.Finite := by
    simpa only [hreaches] using finite_reachesReturn f
  obtain ⟨fuel, l, hl, hmem, hentry, hsound⟩ := Problem.run_spec hposed hfinite
    (fun b v hv => absurd hv (Finset.notMem_empty v)) hgood Finset.card_strictMono hcap
  refine ⟨fuel, l, (hrun fuel).trans hl, fun b => (hmem b).trans (hreaches b), ?_, ?_, hsound⟩
  · intro b block x hb hx v
    rw [hentry b x hx]
    exact hspec.mem_transfer (c := c) hb
  · intro b x hx v
    rw [hentry b x hx]
    simp only [Problem.entry, Problem.after, mem_join, hsuccessors]

/-- The analysis computes one result. -/
theorem runFunction_unique (hf : f.WellFormed constants) (hc : graphOf f = some c.cfg.cfg)
    {fuel fuel' : Nat} {l' : FunctionLiveness} (h : runFunction fuel f c = some l)
    (h' : runFunction fuel' f c = some l') : l = l' := by
  obtain ⟨sets, -, hrun⟩ := runFunction_eq hf hc
  rw [hrun] at h h'
  exact Problem.run_unique h h'

theorem Solved.mem_before (h : Solved f l) {b : BlockId} {block : Block}
    (hblock : f.block b = some block) (hb : b ∈ l) (v : ValueId) : v ∈ before l b ↔
      v ∉ block.definitions ∧ (v ∈ block.uses ∨ ∃ c, f.Edge b c ∧ v ∈ before l c) := by
  obtain ⟨x, hx⟩ := Option.isSome_iff_exists.mp (AList.lookup_isSome.mpr hb)
  rw [Lib.Worklist.before_of_lookup hx, h.liveIn b block x hblock hx, h.liveOut b x hx]

/-- Where all blocks have entries, whatever is live was found. -/
theorem Solved.complete (h : Solved f l) (hf : f.WellFormed constants)
    (htotal : ∀ b block, f.block b = some block → b ∈ l) {b : BlockId} {v : ValueId}
    (hlive : f.LiveAtStart b v) : v ∈ before l b := by
  obtain ⟨block, hblock, hparam, hlive⟩ := hlive
  have hnotDefined : ∀ {b v block}, f.block b = some block → v ∉ block.parameters.map Prod.fst →
      f.LiveIn b v → v ∉ block.definitions := fun hblock hparam hlive =>
    ((Function.liveAtStart_iff hf.ssa hf.strict (hf.reachable _ _ hblock) hblock).mp
      ⟨_, hblock, hparam, hlive⟩).1
  have hdefs := hnotDefined hblock hparam hlive
  refine (h.mem_before hblock (htotal b block hblock) v).mpr ⟨hdefs, ?_⟩
  induction hlive generalizing block with
  | instruction hb hsplit hv =>
    obtain rfl := Option.some.inj (hblock.symm.trans hb)
    exact .inl (Block.mem_uses_of_instruction hsplit hv)
  | terminator hb ht hv =>
    obtain rfl := Option.some.inj (hblock.symm.trans hb)
    exact .inl (Block.mem_uses_of_terminator ht hv)
  | @edge b c _ cblock v _ _ hedge hc hparam' hlive ih =>
    have hdefs' := hnotDefined hc hparam' hlive
    exact .inr ⟨c, hedge, (h.mem_before hc (htotal c cblock hc) v).mpr
      ⟨hdefs', ih cblock hc hparam' hdefs'⟩⟩

end Solved

/-- Every block has an entry; live at its start is what some path from there reads before
defining it, and live at its end what is live at the start of a successor. -/
structure Exact (f : Function) (l : FunctionLiveness) : Prop where
  total : ∀ b block, f.block b = some block → b ∈ l
  liveIn : ∀ b x, l.lookup b = some x → ∀ v, v ∈ x.1 ↔ f.LiveAtStart b v
  liveOut : ∀ b x, l.lookup b = some x →
    ∀ v, v ∈ x.2 ↔ ∃ c y, f.Edge b c ∧ l.lookup c = some y ∧ v ∈ y.1

theorem Solved.exact {f : Function} {constants : List (ValueId × Constant)}
    {l : FunctionLiveness} (h : Solved f l) (hf : f.WellFormed constants)
    (htotal : ∀ b block, f.block b = some block → b ∈ l) : Exact f l where
  total := htotal
  liveIn b x hx v := by
    have hbefore : before l b = x.1 := Lib.Worklist.before_of_lookup hx
    rw [← hbefore]
    exact ⟨h.sound b v, h.complete hf htotal⟩
  liveOut b x hx v := by
    rw [h.liveOut b x hx]
    constructor
    · rintro ⟨c, hedge, hv⟩
      obtain ⟨cblock, hc, -⟩ := h.sound c v hv
      obtain ⟨y, hy⟩ := Option.isSome_iff_exists.mp (AList.lookup_isSome.mpr (htotal c cblock hc))
      exact ⟨c, y, hedge, hy, Lib.Worklist.before_of_lookup hy ▸ hv⟩
    · rintro ⟨c, y, hedge, hy, hv⟩
      exact ⟨c, hedge, (Lib.Worklist.before_of_lookup hy).symm ▸ hv⟩

/-- The analysis is exact for the functions all of whose blocks reach a return. -/
theorem exact_iff {simpleFast : Graph → Node → Dominators} {f : Function}
    {constants : List (ValueId × Constant)} {c : CFG} (hf : f.WellFormed constants)
    (hc : build simpleFast f = some c) :
    (∃ fuel l, runFunction fuel f c = some l ∧ Exact f l) ↔
      ∀ b block, f.block b = some block → ReachesReturn f b := by
  obtain ⟨fuel, l, hl, hsolved⟩ := exists_solved hf (graph_of_build hc)
  constructor
  · rintro ⟨fuel', l', hl', hexact⟩ b block hblock
    obtain rfl := runFunction_unique hf (graph_of_build hc) hl hl'
    exact (hsolved.mem_iff b).mp (hexact.total b block hblock)
  · intro hreaches
    exact ⟨fuel, l, hl, hsolved.exact hf fun b block hblock =>
      (hsolved.mem_iff b).mpr (hreaches b block hblock)⟩

/-- A branch to a block that returns, or to one that asserts the condition and ends by `t`. -/
def spin (t : Terminator) : Function where
  entryBlock := 0
  blocks := [(0, { parameters := [(0, .u 1)], terminator := some (.jmpIf 0 1 2) }),
    (1, { terminator := some (.return []) }),
    (2, { instructions := [.assert 0], terminator := some t })]
  nextBlock := 3

section Spin

variable {t : Terminator} {b : BlockId} {block : Block}

theorem spin_cases (h : (spin t).block b = some block) :
    (b = 0 ∧ block = { parameters := [(0, .u 1)], terminator := some (.jmpIf 0 1 2) }) ∨
      (b = 1 ∧ block = { terminator := some (.return []) }) ∨
        b = 2 ∧ block = { instructions := [.assert 0], terminator := some t } := by
  have hmem := Lib.mem_of_lookup_eq_some h
  simpa [spin] using hmem

theorem spin_edges (t : Terminator) : (spin t).Edge 0 1 ∧ (spin t).Edge 0 2 :=
  ⟨⟨_, _, rfl, rfl, List.mem_cons_self⟩,
    ⟨_, _, rfl, rfl, List.mem_cons_of_mem _ List.mem_cons_self⟩⟩

theorem spin_keys (t : Terminator) : ((spin t).blocks.map Prod.fst).Nodup :=
  show [0, 1, 2].Nodup by decide

theorem spin_wellFormed (ht : t = .return [] ∨ t = .jmp 2 []) : (spin t).WellFormed [] where
  keys := spin_keys t
  fresh b block h := by
    change b < 3
    rcases spin_cases h with ⟨rfl, -⟩ | ⟨rfl, -⟩ | ⟨rfl, -⟩ <;> decide
  entry := ⟨_, rfl⟩
  terminated b block h := by
    rcases spin_cases h with ⟨-, rfl⟩ | ⟨-, rfl⟩ | ⟨-, rfl⟩ <;> exact ⟨_, rfl⟩
  targets b block t' h ht' b' hb' := by
    rcases spin_cases h with ⟨-, rfl⟩ | ⟨-, rfl⟩ | ⟨-, rfl⟩ <;> obtain rfl := Option.some.inj ht'
    · rcases List.mem_pair.mp hb' with rfl | rfl <;> exact ⟨_, rfl, rfl⟩
    · exact absurd hb' List.not_mem_nil
    · rcases ht with rfl | rfl
      · exact absurd hb' List.not_mem_nil
      · obtain rfl := List.mem_singleton.mp hb'
        exact ⟨_, rfl, rfl⟩
  reachable b block h := by
    rcases spin_cases h with ⟨rfl, -⟩ | ⟨rfl, -⟩ | ⟨rfl, -⟩
    · exact ⟨[], .start⟩
    · exact ⟨[0], .step .start (spin_edges t).1⟩
    · exact ⟨[0], .step .start (spin_edges t).2⟩
  ssa := by
    have hdef {b : BlockId} {v : ValueId} (h : (spin t).DefinedIn b v) : b = 0 ∧ v = 0 := by
      obtain ⟨block, hb, hv⟩ := h
      rcases spin_cases hb with ⟨rfl, rfl⟩ | ⟨rfl, rfl⟩ | ⟨rfl, rfl⟩
      · exact ⟨rfl, List.mem_singleton.mp hv⟩
      · exact absurd hv List.not_mem_nil
      · exact absurd hv List.not_mem_nil
    refine ⟨?_, fun v b b' h h' => (hdef h).1.trans (hdef h').1.symm, fun _ _ _ => rfl⟩
    intro b block h
    rcases spin_cases h with ⟨-, rfl⟩ | ⟨-, rfl⟩ | ⟨-, rfl⟩ <;>
      simp [Block.definitions, OpCode.results]
  strict := by
    have hcond (b : BlockId) (pre : List OpCode) : (spin t).Available [] b pre 0 := by
      by_cases hb : b = 0
      · subst hb
        exact .param rfl List.mem_cons_self
      · exact .dominated (Ne.symm hb) (Lib.Dominates.of_entry b) ⟨_, rfl, List.mem_cons_self⟩
    constructor
    · intro b block pre op post _ h hsplit v hv
      rcases spin_cases h with ⟨-, rfl⟩ | ⟨-, rfl⟩ | ⟨rfl, rfl⟩
      · exact absurd hsplit (by simp)
      · exact absurd hsplit (by simp)
      · have hop : op ∈ [OpCode.assert 0] := by
          rw [show [OpCode.assert 0] = pre ++ op :: post from hsplit]
          exact List.mem_append_right _ List.mem_cons_self
        obtain rfl := List.mem_singleton.mp hop
        obtain rfl := List.mem_singleton.mp hv
        exact hcond 2 pre
    · intro b block t' _ h ht' v hv
      rcases spin_cases h with ⟨rfl, rfl⟩ | ⟨-, rfl⟩ | ⟨-, rfl⟩ <;>
        obtain rfl := Option.some.inj ht'
      · obtain rfl := List.mem_singleton.mp hv
        exact hcond 0 _
      · exact absurd hv List.not_mem_nil
      · rcases ht with rfl | rfl <;> exact absurd hv List.not_mem_nil

theorem spin_build (t : Terminator) : ∃ c, build searchDominators (spin t) = some c := by
  have hentry : (spin t).entryBlock ∈ (spin t).blocks.map Prod.fst := List.mem_cons_self
  obtain ⟨c, hc, -⟩ := build_answers (spin_keys t) hentry
    (searchDominators_correct_of_graphOf (spin_keys t) hentry)
  exact ⟨c, hc⟩

end Spin

/-- The analysis is exact for the function whose two branches return. -/
theorem exact_spin_return : ∃ c, build searchDominators (spin (.return [])) = some c ∧
    ∃ fuel l, runFunction fuel (spin (.return [])) c = some l ∧ Exact (spin (.return [])) l := by
  obtain ⟨c, hc⟩ := spin_build (.return [])
  refine ⟨c, hc, (exact_iff (spin_wellFormed (.inl rfl)) hc).mpr fun b block h => ?_⟩
  have hreturn : Returns (spin (.return [])) 1 := ⟨_, _, rfl, rfl⟩
  rcases spin_cases h with ⟨rfl, -⟩ | ⟨rfl, -⟩ | ⟨rfl, -⟩
  · exact ⟨1, hreturn, .single (spin_edges _).1⟩
  · exact ⟨1, hreturn, .refl⟩
  · exact ⟨2, ⟨_, _, rfl, rfl⟩, .refl⟩

/-- The block that runs for ever never returns. -/
theorem not_reachesReturn_spin : ¬ReachesReturn (spin (.jmp 2 [])) 2 := by
  have hstay : ∀ r, ReflTransGen (spin (.jmp 2 [])).Edge 2 r → r = 2 := by
    intro r hreach
    induction hreach with
    | refl => rfl
    | tail _ hedge ih =>
      subst ih
      obtain ⟨block, t, hb, ht, htarget⟩ := hedge
      obtain rfl := Option.some.inj hb
      obtain rfl := Option.some.inj ht
      exact List.mem_singleton.mp htarget
  rintro ⟨r, ⟨block, vals, hr, ht⟩, hreach⟩
  obtain rfl := hstay r hreach
  obtain rfl := Option.some.inj hr
  cases ht

/-- Where one branch runs for ever, the analysis says nothing about it. -/
theorem not_exact_spin_jmp : ∃ c, build searchDominators (spin (.jmp 2 [])) = some c ∧
    (spin (.jmp 2 [])).WellFormed [] ∧
      ¬∃ fuel l, runFunction fuel (spin (.jmp 2 [])) c = some l ∧ Exact (spin (.jmp 2 [])) l := by
  obtain ⟨c, hc⟩ := spin_build (.jmp 2 [])
  have hf : (spin (.jmp 2 [])).WellFormed [] := spin_wellFormed (.inr rfl)
  refine ⟨c, hc, hf, ?_⟩
  rintro ⟨fuel, l, hl, hexact⟩
  obtain ⟨fuel', l', hl', hsolved⟩ := exists_solved hf (graph_of_build hc)
  obtain rfl := runFunction_unique hf (graph_of_build hc) hl hl'
  exact not_reachesReturn_spin ((hsolved.mem_iff 2).mp (hexact.total 2 _ rfl))

end Mavros.Liveness
