/-
# `Mavros.Passes.MergedRuns` — a merged function runs as before

A run of the merged function is a run of the original one that does not stop between the
two blocks, and the merged function is well formed again: dominance is what it was, with
the target in the place of its source.

## What is proved

* `Merged.follows`: each step of the merged function is one step of the original one, or two
  where the source of the jump is executed.  The states in between are related by `Matched`.
* `Merged.wellFormed`: every field of well-formedness for the merged function, so that the next
  merge can start from it.

## How it goes

`part` names the block that a block has become part of, and every statement about paths is about
the images under it: edges (`Merged.edge_iff`), paths in both directions (`Merged.walk_parts`,
`Merged.walk_back`) and dominance (`Merged.dominates`).  A point of the original is then a point of
the part, later by the instructions of the source if it was in the target.
-/
import Mavros.Passes.MergedBlocks

namespace Mavros.FixDoubleJumps

open Hlssa
open Lib (Walk Reachable Dominates Follows Rejoined iterate_one iterate_two)

section Runs

variable {V W : Type} {S : Sem V W} {f f' : Function} {constants : List (ValueId × Constant)}
  (hf : f.WellFormed constants) {r t : BlockId} {rblock tblock : Block} {args : List ValueId}
  (hj : RedundantJump f r t rblock tblock args)
  (hm : Merged f f' r t rblock tblock (newName tblock args))

/-- The states of the two functions between blocks. -/
structure Matched (K : Env V) (f : Function) (constants : List (ValueId × Constant)) (t : BlockId)
    (σ : ValueId → ValueId) (s s' : State V W) : Prop where
  block : s'.block = s.block
  ne : s.block ≠ t
  has : f.hasBlock s.block = true
  world : s.world = s'.world
  env : Agree K f constants σ s.block [] s.env s'.env

include hj hm

/-- A block other than the target keeps its parameters. -/
theorem Merged.exists_block {c : BlockId} {cblock : Block} (hc : f.block c = some cblock)
    (hct : c ≠ t) :
    ∃ block, f'.block c = some block ∧ block.parameters = cblock.parameters := by
  by_cases hcr : c = r
  · subst hcr
    obtain rfl := Option.some.inj (hc.symm.trans hj.source)
    exact ⟨_, hm.source, rfl⟩
  · refine ⟨renamed (newName tblock args) cblock, ?_, rfl⟩
    rw [hm.other c hcr hct, hc]
    rfl

include hf

theorem Merged.rejoined_enter {b c : BlockId} {block cblock : Block} (hb : f.block b = some block)
    (hbc : f.Edge b c) (hc : f.block c = some cblock) (hct : c ≠ t) {env env' : Env V}
    (h : Agree (S.table constants) f constants (newName tblock args) b block.instructions env env')
    {xs : List V} (hxs : xs.length = cblock.parameters.length) (w : W) :
    Rejoined (Matched (S.table constants) f constants t (newName tblock args))
      (enter f c xs env w).toSum (enter f' c xs env' w).toSum := by
  obtain ⟨cblock', hc', hparams⟩ := hm.exists_block hj hc hct
  have hag := hj.agree_enter hf hb hbc hc hct h hxs
  rw [enter, enter, hc, hc']
  simp only [hparams, if_pos hxs]
  exact ⟨rfl, hct, Function.hasBlock_of_eq hc, rfl, hag⟩

variable [DecidableEq V]

theorem Merged.rejoined_terminator {b : BlockId} {block : Block} {term : Terminator}
    (hb : f.block b = some block) (hterm : block.terminator = some term)
    (hnt : ∀ c ∈ term.targets, c ≠ t) {env env' : Env V}
    (h : Agree (S.table constants) f constants (newName tblock args) b block.instructions env env')
    (w : W) :
    Rejoined (Matched (S.table constants) f constants t (newName tblock args))
      (execTerminator S (S.table constants) f env w term).toSum
      (execTerminator S (S.table constants) f' env' w (term.map (newName tblock args))).toSum := by
  have hread : ∀ v ∈ term.inputs, ∃ x, Env.read (S.table constants) env v = some x ∧
      Env.read (S.table constants) env' (newName tblock args v) = some x := fun v hv =>
    h v (hf.strict.terminator b block term (hf.reachable b block hb) hb hterm v hv)
  have hgo (c : BlockId) (hc : c ∈ term.targets) (xs : List V)
      (hxs : xs.length = term.arguments.length) :
      Rejoined (Matched (S.table constants) f constants t (newName tblock args))
        (enter f c xs env w).toSum (enter f' c xs env' w).toSum := by
    obtain ⟨cblock, hcb, hlen⟩ := hf.targets b block term hb hterm c hc
    exact hm.rejoined_enter hf hj hb ⟨block, term, hb, hterm, hc⟩ hcb (hnt c hc) h
      (hxs.trans hlen) w
  cases term with
  | jmp c as =>
    obtain ⟨xs, hxs, hxs'⟩ := mapM_read_of_agree hread
    have hxs₁ : as.mapM (Env.read (S.table constants) env) = some xs := hxs
    have hxs₂ : (as.map (newName tblock args)).mapM (Env.read (S.table constants) env') =
      some xs := hxs'
    rw [Terminator.map, execTerminator, execTerminator, hxs₁, hxs₂]
    exact hgo c (List.mem_singleton_self c) xs (Lib.mapM_length hxs)
  | jmpIf cond ifT ifF =>
    obtain ⟨x, hx, hx'⟩ := hread cond (List.mem_singleton_self cond)
    rw [Terminator.map, execTerminator, execTerminator, hx, hx']
    simp only
    split
    · exact hgo ifT (by simp [Terminator.targets]) [] rfl
    · split
      · exact hgo ifF (by simp [Terminator.targets]) [] rfl
      · exact rfl
  | «return» vals =>
    obtain ⟨xs, hxs, hxs'⟩ := mapM_read_of_agree hread
    have hxs₁ : vals.mapM (Env.read (S.table constants) env) = some xs := hxs
    have hxs₂ : (vals.map (newName tblock args)).mapM (Env.read (S.table constants) env') =
      some xs := hxs'
    rw [Terminator.map, execTerminator, execTerminator, hxs₁, hxs₂]
    exact rfl

/-- A block that is not touched. -/
theorem Merged.follows_other {b : BlockId} {block : Block} (hb : f.block b = some block)
    (hbr : b ≠ r) (hbt : b ≠ t) {env env' : Env V} {w : W}
    (h : Agree (S.table constants) f constants (newName tblock args) b [] env env') :
    Rejoined (Matched (S.table constants) f constants t (newName tblock args))
      (blockStep S (S.table constants) f ⟨b, env, w⟩)
      (blockStep S (S.table constants) f' ⟨b, env', w⟩) := by
  obtain ⟨term, hterm⟩ := hf.terminated b block hb
  have hnt : ∀ c ∈ term.targets, c ≠ t := by
    rintro c hc rfl
    exact hbr (hj.only b ⟨block, term, hb, hterm, hc⟩)
  have hb' : f'.block b = some (renamed (newName tblock args) block) := by
    rw [hm.other b hbr hbt, hb]
    rfl
  have hsplit : block.instructions = [] ++ (block.instructions ++ []) := by simp
  rw [blockStep, blockStep, stepBlock, stepBlock]
  simp only [hb, hb', renamed, hterm, Option.map_some]
  rcases hj.agree_instructions hf hb hsplit h w with ⟨w', hop, hop'⟩ | ⟨w', e, e', hop, hop', hag⟩
  · simp only [hop, hop']
    exact rfl
  · simp only [hop, hop']
    exact hm.rejoined_terminator hf hj hb hterm hnt hag w'

/-- The source of the jump, which now has the instructions of the target. -/
theorem Merged.follows_source {env env' : Env V} {w : W}
    (h : Agree (S.table constants) f constants (newName tblock args) r [] env env') :
    ∃ m, Rejoined (Matched (S.table constants) f constants t (newName tblock args))
      (Lib.iterate (blockStep S (S.table constants) f) (m + 1) ⟨r, env, w⟩)
      (blockStep S (S.table constants) f' ⟨r, env', w⟩) := by
  obtain ⟨term, hterm⟩ := hf.terminated t tblock hj.target
  have hnt : ∀ c ∈ term.targets, c ≠ t := by
    rintro c hc rfl
    exact hj.ne hf (hj.only c ⟨tblock, term, hj.target, hterm, hc⟩).symm
  have hsplit (block : Block) : block.instructions = [] ++ (block.instructions ++ []) := by simp
  have hsource : f'.block r = some
      { parameters := rblock.parameters
        instructions := rblock.instructions.map (OpCode.mapOperands (newName tblock args)) ++
          tblock.instructions.map (OpCode.mapOperands (newName tblock args))
        terminator := some (term.map (newName tblock args)) } := by
    rw [hm.source, renamed, joined, hterm, List.map_append]
    rfl
  rcases hj.agree_instructions hf hj.source (hsplit rblock) h w with
    ⟨w₁, hop, hop'⟩ | ⟨w₁, e, e', hop, hop', hag⟩
  · refine ⟨0, ?_⟩
    rw [iterate_one, blockStep, blockStep, stepBlock, stepBlock]
    simp only [hj.source, hsource, execInstructions_append, hop, hop']
    exact rfl
  · -- the first step of the original function ends with the jump
    obtain ⟨xs, hxs, -⟩ := mapM_read_of_agree fun a ha => hag a (hj.available_args hf ha)
    have hlen : xs.length = tblock.parameters.length := by
      rw [Lib.mapM_length hxs, hj.length_args hf, List.length_map]
    have hfirst : blockStep S (S.table constants) f ⟨r, env, w⟩ =
        .inr ⟨t, e.bindAll (tblock.parameters.map Prod.fst) xs, w₁⟩ := by
      rw [blockStep, stepBlock]
      simp only [hj.source, hop, hj.jump, execTerminator, hxs, enter, hj.target, if_pos hlen]
      rfl
    refine ⟨1, ?_⟩
    rw [iterate_two _ hfirst, blockStep, blockStep, stepBlock, stepBlock]
    simp only [hj.target, hsource, execInstructions_append, hop', hterm]
    rcases hj.agree_instructions hf hj.target (hsplit tblock) (hj.agree_target hf hag hxs) w₁ with
      ⟨w₂, hop₂, hop₂'⟩ | ⟨w₂, e₂, e₂', hop₂, hop₂', hag₂⟩
    · simp only [hop₂, hop₂']
      exact rfl
    · simp only [hop₂, hop₂']
      exact hm.rejoined_terminator hf hj hj.target hterm hnt hag₂ w₂

/-- Each step of the merged function is one step of the original one, or two. -/
theorem Merged.follows : Follows (blockStep S (S.table constants) f)
    (blockStep S (S.table constants) f')
    (Matched (S.table constants) f constants t (newName tblock args)) := by
  intro s s' h
  obtain ⟨b, env, w⟩ := s
  obtain ⟨b', env', w'⟩ := s'
  obtain ⟨hblock, hbt, hhas, hworld, hag⟩ := h
  obtain rfl : b' = b := hblock
  obtain rfl : w = w' := hworld
  obtain ⟨block, hb⟩ := Option.isSome_iff_exists.mp hhas
  by_cases hbr : b' = r
  · subst hbr
    exact hm.follows_source hf hj hag
  · refine ⟨0, ?_⟩
    rw [iterate_one]
    exact hm.follows_other hf hj hb hbr hbt hag

end Runs

/-! ## Paths

A path of one function is turned into one of the other, block by block.
-/

/-- The block that a block has become part of. -/
def part (r t b : BlockId) : BlockId := if b = t then r else b

@[simp] theorem part_target (r t : BlockId) : part r t t = r := if_pos rfl

theorem part_of_ne {r t b : BlockId} (h : b ≠ t) : part r t b = b := if_neg h

section Paths

variable {f f' : Function} {constants : List (ValueId × Constant)} {r t : BlockId}
  {rblock tblock : Block} {args : List ValueId} {σ : ValueId → ValueId}
  (hf : f.WellFormed constants) (hj : RedundantJump f r t rblock tblock args)
  (hm : Merged f f' r t rblock tblock σ)

theorem targets_map (σ : ValueId → ValueId) (term : Terminator) :
    (term.map σ).targets = term.targets := by
  cases term <;> rfl

include hj hm

/-- An edge of the merged function leaves the block itself, or the target appended to it. -/
theorem Merged.edge_iff {a b : BlockId} (hat : a ≠ t) :
    f'.Edge a b ↔ (a ≠ r ∧ f.Edge a b) ∨ (a = r ∧ f.Edge t b) := by
  by_cases har : a = r
  · subst har
    constructor
    · rintro ⟨block, term, hblock, hterm, hmem⟩
      obtain rfl := Option.some.inj (hm.source.symm.trans hblock)
      obtain ⟨term, hterm', rfl⟩ := Option.map_eq_some_iff.mp hterm
      rw [targets_map] at hmem
      exact .inr ⟨rfl, tblock, term, hj.target, hterm', hmem⟩
    · rintro (⟨hne, -⟩ | ⟨-, block, term, hblock, hterm, hmem⟩)
      · exact absurd rfl hne
      · obtain rfl := Option.some.inj (hj.target.symm.trans hblock)
        refine ⟨_, term.map σ, hm.source, ?_, by rwa [targets_map]⟩
        rw [renamed, joined, hterm]
        rfl
  · have hother := hm.other a har hat
    constructor
    · rintro ⟨block, term, hblock, hterm, hmem⟩
      rw [hother] at hblock
      obtain ⟨ablock, ha, rfl⟩ := Option.map_eq_some_iff.mp hblock
      obtain ⟨term, hterm', rfl⟩ := Option.map_eq_some_iff.mp hterm
      rw [targets_map] at hmem
      exact .inl ⟨har, ablock, term, ha, hterm', hmem⟩
    · rintro (⟨-, block, term, hblock, hterm, hmem⟩ | ⟨heq, -⟩)
      · refine ⟨renamed σ block, term.map σ, ?_, ?_, by rwa [targets_map]⟩
        · rw [hother, hblock]
          rfl
        · rw [renamed, hterm]
          rfl
      · exact absurd heq har

/-- A path of the merged function leads, with the targets put back, through the same
parts. -/
theorem Merged.walk_back {hist : List BlockId} (hwalk : Walk f'.entryBlock f'.Edge hist) :
    ∀ b older, hist = b :: older → b ≠ t ∧ ∃ hist', Walk f.entryBlock f.Edge (b :: hist') ∧
      ∀ x ∈ b :: hist', part r t x ∈ hist := by
  induction hwalk with
  | start =>
    intro b older hhist
    obtain ⟨rfl, -⟩ := List.cons.inj hhist
    rw [hm.entryBlock]
    refine ⟨hj.ne_entry.symm, [], .start, fun x hx => ?_⟩
    obtain rfl := List.mem_singleton.mp hx
    rw [part_of_ne hj.ne_entry.symm]
    exact List.mem_cons_self
  | @step a c hist _ hedge ih =>
    intro b older hhist
    obtain ⟨rfl, -⟩ := List.cons.inj hhist
    obtain ⟨hat, older', hwalk, hparts⟩ := ih a hist rfl
    have hct : c ≠ t := by
      rintro rfl
      rcases (hm.edge_iff hj hat).mp hedge with ⟨har, hac⟩ | ⟨rfl, hcc⟩
      · exact har (hj.only a hac)
      · exact hat (hj.only c hcc).symm
    refine ⟨hct, ?_⟩
    have hkeep : ∀ x ∈ a :: older', part r t x ∈ c :: a :: hist := fun x hx =>
      List.mem_cons_of_mem _ (hparts x hx)
    rcases (hm.edge_iff hj hat).mp hedge with ⟨-, hac⟩ | ⟨rfl, htc⟩
    · refine ⟨a :: older', hwalk.step hac, fun x hx => ?_⟩
      rcases List.mem_cons.mp hx with rfl | hx
      · rw [part_of_ne hct]
        exact List.mem_cons_self
      · exact hkeep x hx
    · refine ⟨t :: a :: older', (hwalk.step hj.edge).step htc, fun x hx => ?_⟩
      rcases List.mem_cons.mp hx with rfl | hx
      · rw [part_of_ne hct]
        exact List.mem_cons_self
      · rcases List.mem_cons.mp hx with rfl | hx
        · rw [part_target]
          exact List.mem_cons_of_mem _ List.mem_cons_self
        · exact hkeep x hx

/-- Dominance is that of the parts. -/
theorem Merged.dominates {d b : BlockId} (h : Dominates f.entryBlock f.Edge d b) :
    Dominates f'.entryBlock f'.Edge (part r t d) (part r t b) := by
  intro hist hwalk
  obtain ⟨-, older, hback, hparts⟩ := hm.walk_back hj hwalk _ hist rfl
  by_cases hb : b = t
  · subst hb
    rw [part_target] at hback hparts ⊢
    rcases List.mem_cons.mp (h _ (hback.step hj.edge)) with rfl | hmem
    · rw [part_target]
      exact List.mem_cons_self
    · exact hparts d hmem
  · rw [part_of_ne hb] at hback hparts ⊢
    exact hparts d (h _ hback)

include hf

/-- A path leads through the parts. -/
theorem Merged.walk_parts {hist : List BlockId} (hwalk : Walk f.entryBlock f.Edge hist) :
    ∀ b, hist.head? = some b → Reachable f'.entryBlock f'.Edge (part r t b) := by
  induction hwalk with
  | start =>
    intro b hb
    obtain rfl : f.entryBlock = b := by simpa using hb
    rw [part_of_ne hj.ne_entry.symm, ← hm.entryBlock]
    exact ⟨[], .start⟩
  | @step a c hist _ hedge ih =>
    intro b hb
    obtain rfl : c = b := by simpa using hb
    obtain ⟨older, hwalk⟩ := ih a rfl
    by_cases hct : c = t
    · -- the target is in the block of its source
      subst hct
      obtain rfl := hj.only a hedge
      rw [part_target]
      rw [part_of_ne (hj.ne hf)] at hwalk
      exact ⟨older, hwalk⟩
    · rw [part_of_ne hct]
      by_cases hat : a = t
      · subst hat
        rw [part_target] at hwalk
        exact ⟨_, hwalk.step ((hm.edge_iff hj (hj.ne hf)).mpr (.inr ⟨rfl, hedge⟩))⟩
      · rw [part_of_ne hat] at hwalk
        have har : a ≠ r := by
          rintro rfl
          obtain ⟨block, term, hblock, hterm, hmem⟩ := hedge
          obtain rfl := Option.some.inj (hblock.symm.trans hj.source)
          obtain rfl := Option.some.inj (hterm.symm.trans hj.jump)
          exact hct (List.mem_singleton.mp hmem)
        exact ⟨_, hwalk.step ((hm.edge_iff hj hat).mpr (.inl ⟨har, hedge⟩))⟩

end Paths

/-! ## The merged function is well formed

The parameters of the target are defined no more and are read no more.
-/

section WellFormed

variable {f f' : Function} {constants : List (ValueId × Constant)} {r t : BlockId}
  {rblock tblock : Block} {args : List ValueId} (hf : f.WellFormed constants)
  (hj : RedundantJump f r t rblock tblock args)
  (hm : Merged f f' r t rblock tblock (newName tblock args))

include hf hj hm

omit hf hj in
theorem Merged.cases_block {b : BlockId} {block' : Block} (hb : f'.block b = some block') :
    (b = r ∧ block' = renamed (newName tblock args) (joined rblock tblock)) ∨
      b ≠ r ∧ b ≠ t ∧ ∃ block, f.block b = some block ∧
        block' = renamed (newName tblock args) block := by
  by_cases hbt : b = t
  · subst hbt
    exact absurd (hm.target.symm.trans hb) (by simp)
  · by_cases hbr : b = r
    · subst hbr
      exact .inl ⟨rfl, (Option.some.inj (hm.source.symm.trans hb)).symm⟩
    · rw [hm.other b hbr hbt] at hb
      obtain ⟨block, hblock, rfl⟩ := Option.map_eq_some_iff.mp hb
      exact .inr ⟨hbr, hbt, block, hblock, rfl⟩

/-- The merged function defines what `f` defines but the parameters of the target, each
value in the part of its block. -/
theorem Merged.definedIn {b : BlockId} {v : ValueId} (h : f.DefinedIn b v)
    (hv : v ∉ tblock.parameters.map Prod.fst) : f'.DefinedIn (part r t b) v := by
  obtain ⟨block, hb, hmem⟩ := h
  have hres := hj.results_renamed hf hb fun op (h : op ∈ block.instructions) => h
  by_cases hbt : b = t
  · subst hbt
    obtain rfl := Option.some.inj (hb.symm.trans hj.target)
    rw [part_target]
    refine ⟨_, hm.source, List.mem_append_right _ ?_⟩
    rw [renamed, joined, List.map_append, List.flatMap_append, hres]
    exact List.mem_append_right _ ((List.mem_append.mp hmem).resolve_left hv)
  · rw [part_of_ne hbt]
    by_cases hbr : b = r
    · subst hbr
      obtain rfl := Option.some.inj (hb.symm.trans hj.source)
      refine ⟨_, hm.source, ?_⟩
      rw [Block.definitions, renamed, joined, List.map_append, List.flatMap_append, hres]
      rcases List.mem_append.mp hmem with hmem | hmem
      · exact List.mem_append_left _ hmem
      · exact List.mem_append_right _ (List.mem_append_left _ hmem)
    · refine ⟨renamed (newName tblock args) block, by rw [hm.other b hbr hbt, hb]; rfl, ?_⟩
      rw [Block.definitions, renamed, hres]
      exact hmem

theorem Merged.definedIn_back {b : BlockId} {v : ValueId} (h : f'.DefinedIn b v) :
    ∃ b', f.DefinedIn b' v ∧ part r t b' = b ∧ v ∉ tblock.parameters.map Prod.fst := by
  obtain ⟨block', hb, hmem⟩ := h
  have hnot {b : BlockId} (hdef : f.DefinedIn b v) (hbt : b ≠ t) :
      v ∉ tblock.parameters.map Prod.fst := fun hmem =>
    hbt (hf.ssa.block v b t hdef (hj.definedIn_param hmem))
  rcases hm.cases_block hb with ⟨rfl, rfl⟩ | ⟨hbr, hbt, block, hblock, rfl⟩
  · rw [Block.definitions, renamed, joined, List.map_append, List.flatMap_append,
      hj.results_renamed hf hj.source fun _ h => h,
      hj.results_renamed hf hj.target fun _ h => h] at hmem
    rw [← List.append_assoc] at hmem
    rcases List.mem_append.mp hmem with hmem | hmem
    · have hdef : f.DefinedIn b v := ⟨rblock, hj.source, hmem⟩
      exact ⟨b, hdef, part_of_ne (hj.ne hf), hnot hdef (hj.ne hf)⟩
    · refine ⟨t, ⟨tblock, hj.target, List.mem_append_right _ hmem⟩, part_target b t, ?_⟩
      intro hparam
      exact (List.nodup_append.mp (hf.ssa.once t tblock hj.target)).2.2 v hparam v hmem rfl
  · rw [Block.definitions, renamed, hj.results_renamed hf hblock fun _ h => h] at hmem
    have hdef : f.DefinedIn b v := ⟨block, hblock, hmem⟩
    exact ⟨b, hdef, part_of_ne hbt, hnot hdef hbt⟩

theorem Merged.singleAssignment : f'.SingleAssignment constants where
  once b block' hb := by
    rcases hm.cases_block hb with ⟨rfl, rfl⟩ | ⟨hbr, hbt, block, hblock, rfl⟩
    · rw [Block.definitions, renamed, joined, List.map_append, List.flatMap_append,
        hj.results_renamed hf hj.source fun _ h => h,
        hj.results_renamed hf hj.target fun _ h => h, ← List.append_assoc]
      refine List.nodup_append.mpr ⟨hf.ssa.once b rblock hj.source,
        (List.nodup_append.mp (hf.ssa.once t tblock hj.target)).2.1, ?_⟩
      rintro v hv _ hv' rfl
      exact hj.ne hf (hf.ssa.block v b t ⟨rblock, hj.source, hv⟩
        ⟨tblock, hj.target, List.mem_append_right _ hv'⟩)
    · rw [Block.definitions, renamed, hj.results_renamed hf hblock fun _ h => h]
      exact hf.ssa.once b block hblock
  block v b b' hb hb' := by
    obtain ⟨c, hc, rfl, -⟩ := hm.definedIn_back hf hj hb
    obtain ⟨c', hc', rfl, -⟩ := hm.definedIn_back hf hj hb'
    rw [hf.ssa.block v c c' hc hc']
  noConstant b v hb := by
    obtain ⟨c, hc, -, -⟩ := hm.definedIn_back hf hj hb
    exact hf.ssa.noConstant c v hc

/-- What is available at a point is available at the same point of the part. -/
theorem Merged.available {b : BlockId} {block : Block} {pre post : List OpCode}
    (hb : f.block b = some block) (hsplit : block.instructions = pre ++ post) {v : ValueId}
    (hv : v ∉ tblock.parameters.map Prod.fst) (h : f.Available constants b pre v) :
    f'.Available constants (part r t b)
      (((if b = t then rblock.instructions else []) ++ pre).map
        (OpCode.mapOperands (newName tblock args))) v := by
  have hpre : ∀ op ∈ pre, op ∈ block.instructions := by
    intro op hop
    rw [hsplit]
    exact List.mem_append_left _ hop
  cases h with
  | constant h => exact .constant h
  | param hb' hmem =>
    have hbt : b ≠ t := by
      rintro rfl
      obtain rfl := Option.some.inj (hb'.symm.trans hj.target)
      exact hv hmem
    obtain ⟨block', hblock', hparams⟩ := hm.exists_block hj hb' hbt
    rw [part_of_ne hbt]
    exact .param hblock' (by rwa [hparams])
  | result hmem =>
    refine .result ?_
    rw [List.map_append, List.flatMap_append, hj.results_renamed hf hb hpre]
    exact List.mem_append_right _ hmem
  | @dominated d hne hdom hdef =>
    by_cases hpart : part r t d = part r t b
    · -- the two blocks are the two parts of one
      by_cases hbt : b = t
      · subst hbt
        rw [part_target, part_of_ne hne] at hpart
        subst hpart
        obtain ⟨dblock, hd, hmem⟩ := hdef
        obtain rfl := Option.some.inj (hd.symm.trans hj.source)
        rw [part_target, if_pos rfl]
        rcases List.mem_append.mp hmem with hmem | hmem
        · exact .param hm.source hmem
        · refine .result ?_
          rw [List.map_append, List.flatMap_append, hj.results_renamed hf hd fun _ h => h]
          exact List.mem_append_left _ hmem
      · rw [part_of_ne hbt] at hpart
        by_cases hdt : d = t
        · subst hdt
          rw [part_target] at hpart
          subst hpart
          exact absurd hdom (hj.not_dominates hf)
        · rw [part_of_ne hdt] at hpart
          exact absurd hpart hne
    · exact .dominated hpart (hm.dominates hj hdom) (hm.definedIn hf hj hdef hv)

/-- A terminator, or an instruction, with its values renamed reads available values. -/
theorem Merged.available_input {b : BlockId} {block : Block} {pre post : List OpCode}
    (hb : f.block b = some block) (hsplit : block.instructions = pre ++ post)
    {inputs : List ValueId} (h : ∀ v ∈ inputs, f.Available constants b pre v) {v : ValueId}
    (hv : v ∈ inputs.map (newName tblock args)) :
    f'.Available constants (part r t b)
      (((if b = t then rblock.instructions else []) ++ pre).map
        (OpCode.mapOperands (newName tblock args))) v := by
  obtain ⟨u, hu, rfl⟩ := List.mem_map.mp hv
  exact hm.available hf hj hb hsplit (hj.newName_notMem hf)
    (hj.available_newName hf hb hsplit (h u hu))

theorem Merged.strict : f'.Strict constants where
  instruction b block' pre' op' post' _ hb hsplit v hv := by
    have hread {c : BlockId} {block : Block} {pre post : List OpCode} {op : OpCode}
        (hc : f.block c = some block) (hs : block.instructions = pre ++ op :: post)
        (hop : op' = op.mapOperands (newName tblock args)) : f'.Available constants (part r t c)
          (((if c = t then rblock.instructions else []) ++ pre).map
            (OpCode.mapOperands (newName tblock args))) v := by
      rw [hop, OpCode.inputs_mapOperands] at hv
      exact hm.available_input hf hj hc hs
        (hf.strict.instruction c block pre op post (hf.reachable c block hc) hc hs) hv
    rcases hm.cases_block hb with ⟨rfl, rfl⟩ | ⟨hbr, hbt, block, hblock, rfl⟩
    · obtain ⟨pre, rest, hs, rfl, hrest⟩ := List.map_eq_append_iff.mp hsplit
      obtain ⟨op, post, rfl, hop, rfl⟩ := List.map_eq_cons_iff.mp hrest
      rcases List.append_eq_append_iff.mp hs with ⟨mid, rfl, hmid⟩ | ⟨mid, hmid, hmid'⟩
      · -- the instruction came from the target
        have h := hread hj.target hmid hop.symm
        rwa [part_target, if_pos rfl] at h
      · cases mid with
        | nil =>
          rw [List.append_nil] at hmid
          rw [List.nil_append] at hmid'
          have h := @hread _ _ [] _ _ hj.target hmid'.symm hop.symm
          rwa [part_target, if_pos rfl, List.append_nil, hmid] at h
        | cons op₁ mid =>
          obtain ⟨rfl, -⟩ := List.cons.inj hmid'
          have h := hread hj.source hmid hop.symm
          rwa [part_of_ne (hj.ne hf), if_neg (hj.ne hf), List.nil_append] at h
    · obtain ⟨pre, rest, hs, rfl, hrest⟩ := List.map_eq_append_iff.mp hsplit
      obtain ⟨op, post, rfl, hop, rfl⟩ := List.map_eq_cons_iff.mp hrest
      have h := hread hblock hs hop.symm
      rwa [part_of_ne hbt, if_neg hbt, List.nil_append] at h
  terminator b block' term' _ hb hterm v hv := by
    have hread {c : BlockId} {block : Block} {term : Terminator} (hc : f.block c = some block)
        (ht : block.terminator = some term) (hterm' : term' = term.map (newName tblock args)) :
        f'.Available constants (part r t c)
          (((if c = t then rblock.instructions else []) ++ block.instructions).map
            (OpCode.mapOperands (newName tblock args))) v := by
      rw [hterm', Terminator.inputs_map] at hv
      exact hm.available_input hf hj hc (List.append_nil _).symm
        (hf.strict.terminator c block term (hf.reachable c block hc) hc ht) hv
    rcases hm.cases_block hb with ⟨rfl, rfl⟩ | ⟨hbr, hbt, block, hblock, rfl⟩
    · obtain ⟨term, ht, hterm'⟩ := Option.map_eq_some_iff.mp hterm
      have h := hread hj.target ht hterm'.symm
      rwa [part_target, if_pos rfl] at h
    · obtain ⟨term, ht, hterm'⟩ := Option.map_eq_some_iff.mp hterm
      have h := hread hblock ht hterm'.symm
      rwa [part_of_ne hbt, if_neg hbt, List.nil_append] at h

theorem Merged.wellFormed : f'.WellFormed constants where
  keys := hm.keys
  fresh b block' hb := by
    rw [hm.nextBlock]
    rcases hm.cases_block hb with ⟨rfl, -⟩ | ⟨-, -, block, hblock, -⟩
    · exact hf.fresh b rblock hj.source
    · exact hf.fresh b block hblock
  entry := by
    obtain ⟨block, hblock⟩ := hf.entry
    obtain ⟨block', hblock', -⟩ := hm.exists_block hj hblock hj.ne_entry.symm
    rw [hm.entryBlock]
    exact ⟨block', hblock'⟩
  terminated b block' hb := by
    rcases hm.cases_block hb with ⟨rfl, rfl⟩ | ⟨-, -, block, hblock, rfl⟩
    · obtain ⟨term, hterm⟩ := hf.terminated t tblock hj.target
      exact ⟨_, by rw [renamed, joined, hterm]; rfl⟩
    · obtain ⟨term, hterm⟩ := hf.terminated b block hblock
      exact ⟨_, by rw [renamed, hterm]; rfl⟩
  targets b block' term' hb hterm c hc := by
    have hgo {a : BlockId} {block : Block} {term : Terminator} (ha : f.block a = some block)
        (ht : block.terminator = some term) (hterm' : term' = term.map (newName tblock args))
        (har : a ≠ r) : ∃ cblock, f'.block c = some cblock ∧
          term'.arguments.length = cblock.parameters.length := by
      rw [hterm', targets_map] at hc
      obtain ⟨cblock, hcb, hlen⟩ := hf.targets a block term ha ht c hc
      have hct : c ≠ t := by
        rintro rfl
        exact har (hj.only a ⟨block, term, ha, ht, hc⟩)
      obtain ⟨cblock', hcb', hparams⟩ := hm.exists_block hj hcb hct
      refine ⟨cblock', hcb', ?_⟩
      rw [hparams, ← hlen, hterm']
      cases term with
      | jmp target as => exact List.length_map _
      | jmpIf | «return» => rfl
    rcases hm.cases_block hb with ⟨rfl, rfl⟩ | ⟨hbr, hbt, block, hblock, rfl⟩
    · obtain ⟨term, ht, hterm'⟩ := Option.map_eq_some_iff.mp hterm
      exact hgo hj.target ht hterm'.symm (hj.ne hf).symm
    · obtain ⟨term, ht, hterm'⟩ := Option.map_eq_some_iff.mp hterm
      exact hgo hblock ht hterm'.symm hbr
  reachable b block' hb := by
    have hgo {block : Block} (hblock : f.block b = some block) (hbt : b ≠ t) :
        Reachable f'.entryBlock f'.Edge b := by
      obtain ⟨hist, hwalk⟩ := hf.reachable b block hblock
      have h := hm.walk_parts hf hj hwalk b rfl
      rwa [part_of_ne hbt] at h
    rcases hm.cases_block hb with ⟨rfl, -⟩ | ⟨-, hbt, block, hblock, -⟩
    · exact hgo hj.source (hj.ne hf)
    · exact hgo hblock hbt
  ssa := hm.singleAssignment hf hj
  strict := hm.strict hf hj

end WellFormed

end Mavros.FixDoubleJumps
