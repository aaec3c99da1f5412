/-
# `Mavros.Passes.MergedBlocks` — one merge

A block is appended to its only predecessor, which ended in a jump to it, and the
parameters it had are replaced by the arguments of the jump.  The replaced value and the
replacing one are the same wherever the first is available, and the second is available
there too.

## What is proved

For one redundant jump (`RedundantJump`), between the function and the one with the target
appended to the source (`Merged`):

* `RedundantJump.available_newName`: where a value is available, so is the one it is replaced by.
* `RedundantJump.agree_instruction`, `RedundantJump.agree_enter`, `RedundantJump.agree_target`:
  environments that agree up to the renaming stay so through an instruction, through a jump into
  another block, and through the jump that is merged away.

## How it goes

Everything rests on the one way into the target.  A parameter of the target is available only
behind the target, all of that is behind the source's jump, and single assignment keeps the
argument what it was; so an argument may stand for the parameter wherever the parameter is read.
-/
import Mavros.Passes.FixDoubleJumps

namespace Mavros.FixDoubleJumps

open Hlssa
open Lib (Walk Reachable Dominates)

/-- The jump from `r` is the only way into `t`. -/
structure RedundantJump (f : Function) (r t : BlockId) (rblock tblock : Block)
    (args : List ValueId) : Prop where
  source : f.block r = some rblock
  target : f.block t = some tblock
  jump : rblock.terminator = some (.jmp t args)
  only : ∀ a, f.Edge a t → a = r
  ne_entry : t ≠ f.entryBlock

/-- A block with its values renamed. -/
def renamed (ρ : ValueId → ValueId) (block : Block) : Block :=
  { block with
    instructions := block.instructions.map (OpCode.mapOperands ρ)
    terminator := block.terminator.map (Terminator.map ρ) }

/-- Each parameter is replaced by its argument. -/
def substitution (params args : List ValueId) (v : ValueId) : ValueId :=
  ((params.zip args).lookup v).getD v

/-- The parameters of the target are replaced by the arguments of the jump. -/
def newName (tblock : Block) (args : List ValueId) : ValueId → ValueId :=
  substitution (tblock.parameters.map Prod.fst) args

/-- The block `rblock` with `tblock` in the place of its jump. -/
def joined (rblock tblock : Block) : Block :=
  { parameters := rblock.parameters
    instructions := rblock.instructions ++ tblock.instructions
    terminator := tblock.terminator }

/-- `f'` is `f` with `t` appended to `r`. -/
structure Merged (f f' : Function) (r t : BlockId) (rblock tblock : Block)
    (σ : ValueId → ValueId) : Prop where
  keys : (f'.blocks.map Prod.fst).Nodup
  entryBlock : f'.entryBlock = f.entryBlock
  nextBlock : f'.nextBlock = f.nextBlock
  source : f'.block r = some (renamed σ (joined rblock tblock))
  target : f'.block t = none
  other : ∀ b, b ≠ r → b ≠ t → f'.block b = (f.block b).map (renamed σ)

/-! ## The substitution

A parameter that occurs as an argument of its own jump does not occur, which makes the
renaming idempotent.
-/

section Substitution

theorem substitution_of_notMem {params args : List ValueId} {v : ValueId} (hv : v ∉ params) :
    substitution params args v = v := by
  rw [substitution]
  cases hl : (params.zip args).lookup v with
  | none => rfl
  | some a => exact absurd (List.of_mem_zip (Lib.mem_of_lookup_eq_some hl)).1 hv

theorem substitution_mem {params args : List ValueId} (hlen : args.length = params.length)
    {v : ValueId} (hv : v ∈ params) : substitution params args v ∈ args := by
  induction params generalizing args with
  | nil => exact absurd hv List.not_mem_nil
  | cons p params ih =>
    obtain ⟨a, args, rfl⟩ := List.exists_cons_of_length_eq_add_one hlen
    rw [substitution, List.zip_cons_cons, List.lookup_cons]
    by_cases hp : v = p
    · rw [hp, BEq.rfl]
      exact List.mem_cons_self
    · rw [beq_false_of_ne hp]
      exact List.mem_cons_of_mem _
        (ih (Nat.succ.inj hlen) ((List.mem_cons.mp hv).resolve_left hp))

/-- A bound parameter has the value its argument is read with. -/
theorem read_bindAll {V : Type} {K env₀ env : Env V} {params args : List ValueId} {xs : List V}
    (hnodup : params.Nodup) (hlen : args.length = params.length)
    (hxs : args.mapM (Env.read K env) = some xs) {v : ValueId} (hv : v ∈ params)
    (hK : K v = none) :
    Env.read K (env₀.bindAll params xs) v = Env.read K env (substitution params args v) := by
  induction params generalizing args xs env₀ with
  | nil => exact absurd hv List.not_mem_nil
  | cons p params ih =>
    obtain ⟨a, args, rfl⟩ := List.exists_cons_of_length_eq_add_one hlen
    rw [List.nodup_cons] at hnodup
    obtain ⟨x, xs, rfl, hx, hxs⟩ : ∃ x ys, xs = x :: ys ∧ Env.read K env a = some x ∧
        args.mapM (Env.read K env) = some ys := by
      simp only [List.mapM_cons, Option.bind_eq_bind, Option.bind_eq_some_iff, Option.pure_def,
        Option.some.injEq] at hxs
      obtain ⟨x, hx, ys, hys, rfl⟩ := hxs
      exact ⟨x, ys, rfl, hx, hys⟩
    rw [Env.bindAll, substitution, List.zip_cons_cons, List.lookup_cons]
    by_cases hp : v = p
    · subst hp
      rw [BEq.rfl, Env.read, hK, Env.bindAll_of_notMem hnodup.1, Function.update_self]
      exact hx.symm
    · rw [beq_false_of_ne hp]
      exact ih hnodup.2 (Nat.succ.inj hlen) hxs ((List.mem_cons.mp hv).resolve_left hp)

theorem newName_of_notMem {tblock : Block} {args : List ValueId} {v : ValueId}
    (hv : v ∉ tblock.parameters.map Prod.fst) : newName tblock args v = v :=
  substitution_of_notMem hv

end Substitution

/-! ## The two blocks

Dominance and availability around the merged jump.
-/

section Redundant

variable {f : Function} {constants : List (ValueId × Constant)} (hf : f.WellFormed constants)
  {r t : BlockId} {rblock tblock : Block} {args : List ValueId}
  (hj : RedundantJump f r t rblock tblock args)

include hj

theorem RedundantJump.edge : f.Edge r t :=
  ⟨rblock, _, hj.source, hj.jump, List.mem_singleton_self t⟩

/-- The source comes before the target on every path. -/
theorem RedundantJump.dominates : Dominates f.entryBlock f.Edge r t := by
  intro hist hwalk
  cases hwalk with
  | start => exact absurd rfl hj.ne_entry
  | step _ hedge => exact List.mem_cons_of_mem _ (hj.only _ hedge ▸ List.mem_cons_self)

include hf

theorem RedundantJump.ne : r ≠ t := by
  rintro rfl
  -- no path could enter the block for the first time
  have hnever (hist : List BlockId) (hwalk : Walk f.entryBlock f.Edge hist) : r ∉ hist := by
    induction hwalk with
    | start => exact fun hmem => hj.ne_entry (List.mem_singleton.mp hmem)
    | @step a b hist _ hedge ih =>
      intro hmem
      rcases List.mem_cons.mp hmem with rfl | hmem
      · exact ih (hj.only a hedge ▸ List.mem_cons_self)
      · exact ih hmem
  obtain ⟨hist, hwalk⟩ := hf.reachable r rblock hj.source
  exact hnever _ hwalk List.mem_cons_self

theorem RedundantJump.length_args :
    args.length = (tblock.parameters.map Prod.fst).length := by
  obtain ⟨block, hb, hlen⟩ := hf.targets r rblock _ hj.source hj.jump t (List.mem_singleton_self t)
  obtain rfl := Option.some.inj (hj.target.symm.trans hb)
  rw [List.length_map]
  exact hlen

theorem RedundantJump.newName_mem {v : ValueId} (hv : v ∈ tblock.parameters.map Prod.fst) :
    newName tblock args v ∈ args :=
  substitution_mem (hj.length_args hf) hv

theorem RedundantJump.not_dominates : ¬Dominates f.entryBlock f.Edge t r := by
  intro h
  exact hj.ne hf (Dominates.antisymm (hf.reachable t tblock hj.target) hj.dominates h)

theorem RedundantJump.available_args {a : ValueId} (ha : a ∈ args) :
    f.Available constants r rblock.instructions a :=
  hf.strict.terminator r rblock _ (hf.reachable r rblock hj.source) hj.source hj.jump a ha

omit hf in
theorem RedundantJump.definedIn_param {v : ValueId} (hv : v ∈ tblock.parameters.map Prod.fst) :
    f.DefinedIn t v := ⟨tblock, hj.target, List.mem_append_left _ hv⟩

/-- No argument is a parameter of the target. -/
theorem RedundantJump.arg_notMem {a : ValueId} (ha : a ∈ args) :
    a ∉ tblock.parameters.map Prod.fst := by
  intro hmem
  have hdef := hj.definedIn_param hmem
  cases hj.available_args hf ha with
  | constant h =>
    rw [hf.ssa.noConstant t a hdef] at h
    simp at h
  | param h hv => exact hj.ne hf (hf.ssa.block a r t ⟨_, h, List.mem_append_left _ hv⟩ hdef)
  | result hv =>
    exact hj.ne hf (hf.ssa.block a r t ⟨_, hj.source, List.mem_append_right _ hv⟩ hdef)
  | dominated _ hdom hdef' =>
    obtain rfl := hf.ssa.block a _ _ hdef' hdef
    exact hj.not_dominates hf hdom

/-- A parameter is available in the target and in what the target dominates. -/
theorem RedundantJump.after_of_available {v : ValueId}
    (hv : v ∈ tblock.parameters.map Prod.fst) {b : BlockId} {pre : List OpCode} {block : Block}
    {post : List OpCode} (hb : f.block b = some block) (hsplit : block.instructions = pre ++ post)
    (h : f.Available constants b pre v) : f.After t [] b pre := by
  have hdef := hj.definedIn_param hv
  cases h with
  | constant h =>
    rw [hf.ssa.noConstant t v hdef] at h
    simp at h
  | param hb' hv' =>
    exact .inl ⟨hf.ssa.block v t b hdef ⟨_, hb', List.mem_append_left _ hv'⟩, pre, rfl⟩
  | result hv' =>
    refine .inl ⟨hf.ssa.block v t b hdef ⟨block, hb, List.mem_append_right _ ?_⟩, pre, rfl⟩
    rw [hsplit, List.flatMap_append]
    exact List.mem_append_left _ hv'
  | dominated hne hdom hdef' =>
    obtain rfl := hf.ssa.block v _ _ hdef hdef'
    exact .inr ⟨hne, hdom⟩

/-- Where a value is available, so is the one it is replaced by. -/
theorem RedundantJump.available_newName {v : ValueId} {b : BlockId} {pre : List OpCode}
    {block : Block} {post : List OpCode} (hb : f.block b = some block)
    (hsplit : block.instructions = pre ++ post) (h : f.Available constants b pre v) :
    f.Available constants b pre (newName tblock args v) := by
  by_cases hv : v ∈ tblock.parameters.map Prod.fst
  · have harg := hj.available_args hf (hj.newName_mem hf hv)
    have hreach := hf.reachable b block hb
    have hafter : f.After r rblock.instructions t [] := .inr ⟨hj.ne hf, hj.dominates⟩
    have htarget := harg.of_after (hf.reachable t tblock hj.target) hafter hj.source
      (List.append_nil _).symm
    exact htarget.of_after hreach (hj.after_of_available hf hv hb hsplit h) hj.target rfl
  · rwa [newName_of_notMem hv]

theorem RedundantJump.newName_notMem {v : ValueId} :
    newName tblock args v ∉ tblock.parameters.map Prod.fst := by
  by_cases hv : v ∈ tblock.parameters.map Prod.fst
  · exact hj.arg_notMem hf (hj.newName_mem hf hv)
  · rwa [newName_of_notMem hv]

/-- What a block defines beside the parameters of the target is not renamed. -/
theorem RedundantJump.newName_result {b : BlockId} {block : Block}
    (hb : f.block b = some block) {op : OpCode} (hop : op ∈ block.instructions) {v : ValueId}
    (hv : v ∈ op.results) :
    newName tblock args v = v := by
  refine newName_of_notMem fun hmem => ?_
  have hres : v ∈ block.instructions.flatMap OpCode.results := List.mem_flatMap_of_mem hop hv
  have hdef : f.DefinedIn b v := ⟨block, hb, List.mem_append_right _ hres⟩
  obtain rfl := hf.ssa.block v _ _ hdef (hj.definedIn_param hmem)
  obtain rfl := Option.some.inj (hb.symm.trans hj.target)
  exact (List.nodup_append.mp (hf.ssa.once b block hb)).2.2 v hmem v hres rfl

theorem RedundantJump.results_map {b : BlockId} {block : Block} (hb : f.block b = some block)
    {op : OpCode} (hop : op ∈ block.instructions) :
    (op.mapOperands (newName tblock args)).results = op.results := by
  rw [OpCode.results_mapOperands]
  exact (List.map_congr_left fun v hv => hj.newName_result hf hb hop hv).trans
    (List.map_id _)

/-- The instructions of a block define what they defined. -/
theorem RedundantJump.results_renamed {b : BlockId} {block : Block} (hb : f.block b = some block)
    {ops : List OpCode} (hops : ∀ op ∈ ops, op ∈ block.instructions) :
    (ops.map (OpCode.mapOperands (newName tblock args))).flatMap OpCode.results =
      ops.flatMap OpCode.results := by
  induction ops with
  | nil => rfl
  | cons op ops ih =>
    rw [List.forall_mem_cons] at hops
    rw [List.map_cons, List.flatMap_cons, List.flatMap_cons, hj.results_map hf hb hops.1,
      ih hops.2]

end Redundant

/-! ## Environments

Agreement at a point within a block, and how it is kept.
-/

section Agree

variable {V W : Type} {S : Sem V W} {K : Env V}

/-- At the point of `b` after `pre`, each available value is bound, and the second
environment has it under its new name. -/
def Agree (K : Env V) (f : Function) (constants : List (ValueId × Constant)) (σ : ValueId → ValueId)
    (b : BlockId) (pre : List OpCode) (env env' : Env V) : Prop :=
  ∀ v, f.Available constants b pre v →
    ∃ x, Env.read K env v = some x ∧ Env.read K env' (σ v) = some x

theorem mapM_read_of_agree {env env' : Env V} {σ : ValueId → ValueId} {vs : List ValueId}
    (h : ∀ v ∈ vs, ∃ x, Env.read K env v = some x ∧ Env.read K env' (σ v) = some x) :
    ∃ xs, vs.mapM (Env.read K env) = some xs ∧ (vs.map σ).mapM (Env.read K env') = some xs := by
  induction vs with
  | nil => exact ⟨[], rfl, rfl⟩
  | cons v vs ih =>
    rw [List.forall_mem_cons] at h
    obtain ⟨x, hx, hx'⟩ := h.1
    obtain ⟨xs, hxs, hxs'⟩ := ih h.2
    exact ⟨x :: xs, by simp [hx, hxs], by simp [hx', hxs']⟩

theorem execInstruction_eq {op : OpCode} {env : Env V} {xs : List V}
    (h : op.inputs.mapM (Env.read K env) = some xs) (w : W) : execInstruction S K op env w =
      match S.op op.shape xs w with
      | (w, none) => (w, none)
      | (w, some ys) =>
        if ys.length = op.results.length then (w, some (env.bindAll op.results ys))
        else (w, none) := by
  unfold execInstruction
  exact h ▸ rfl

theorem mapOperands_mapOperands (ρ σ : ValueId → ValueId) (op : OpCode) :
    (op.mapOperands ρ).mapOperands σ = op.mapOperands (σ ∘ ρ) := by
  have hcomm (op : OpCode) : (op.mapResults ρ).mapInputs σ = (op.mapInputs σ).mapResults ρ := by
    induction op with
    | guard condition inner ih => simp [OpCode.mapInputs, OpCode.mapResults, ih]
    | _ => rfl
  have hresults (op : OpCode) : (op.mapResults ρ).mapResults σ = op.mapResults (σ ∘ ρ) := by
    induction op with
    | guard condition inner ih => simp [OpCode.mapResults, ih]
    | _ => simp [OpCode.mapResults]
  rw [OpCode.mapOperands, OpCode.mapOperands, hcomm, OpCode.mapInputs_mapInputs, hresults,
    OpCode.mapOperands]

theorem shape_mapOperands (σ : ValueId → ValueId) (op : OpCode) :
    (op.mapOperands σ).shape = op.shape := by
  rw [OpCode.shape, mapOperands_mapOperands]
  rfl

/-- What is bound to a name of the list does not depend on what was bound before. -/
theorem bindAll_congr {env env' : Env V} {vs : List ValueId} {xs : List V}
    (hlen : xs.length = vs.length) {v : ValueId} (hv : v ∈ vs) :
    ∃ x, env.bindAll vs xs v = some x ∧ env'.bindAll vs xs v = some x := by
  induction vs generalizing env env' xs with
  | nil => exact absurd hv List.not_mem_nil
  | cons u vs ih =>
    obtain ⟨x, xs, rfl⟩ := List.exists_cons_of_length_eq_add_one hlen
    rw [Env.bindAll, Env.bindAll]
    by_cases hmem : v ∈ vs
    · exact ih (Nat.succ.inj hlen) hmem
    · obtain rfl : v = u := (List.mem_cons.mp hv).resolve_right hmem
      rw [Env.bindAll_of_notMem hmem, Env.bindAll_of_notMem hmem, Function.update_self,
        Function.update_self]
      exact ⟨x, rfl, rfl⟩

end Agree

section Simulation

variable {V W : Type} {S : Sem V W} {f : Function} {constants : List (ValueId × Constant)}
  (hf : f.WellFormed constants) {r t : BlockId} {rblock tblock : Block} {args : List ValueId}
  (hj : RedundantJump f r t rblock tblock args)

include hf hj

/-- An instruction keeps the environments in agreement. -/
theorem RedundantJump.agree_instruction {b : BlockId} {block : Block} {pre post : List OpCode}
    {op : OpCode} (hb : f.block b = some block) (hsplit : block.instructions = pre ++ op :: post)
    {env env' : Env V}
    (h : Agree (S.table constants) f constants (newName tblock args)
      b pre env env') (w : W) :
    (∃ w', execInstruction S (S.table constants) op env w = (w', none) ∧
      execInstruction S (S.table constants)
        (op.mapOperands (newName tblock args)) env' w
          = (w', none)) ∨
    ∃ w' env₁ env₁', execInstruction S (S.table constants) op env w = (w', some env₁) ∧
      execInstruction S (S.table constants)
        (op.mapOperands (newName tblock args)) env' w
          = (w', some env₁') ∧
      Agree (S.table constants) f constants (newName tblock args)
        b (pre ++ [op]) env₁ env₁' := by
  have hop : op ∈ block.instructions := by
    rw [hsplit]
    exact List.mem_append_right _ List.mem_cons_self
  obtain ⟨xs, hxs, hxs'⟩ := mapM_read_of_agree fun v hv => h v
    (hf.strict.instruction b block pre op post (hf.reachable b block hb) hb hsplit v hv)
  rw [← OpCode.inputs_mapOperands] at hxs'
  rw [execInstruction_eq hxs, execInstruction_eq hxs', shape_mapOperands, hj.results_map hf hb hop]
  cases hS : S.op op.shape xs w with
  | mk w' ys? =>
    cases ys? with
    | none => exact .inl ⟨w', rfl, rfl⟩
    | some ys =>
      by_cases hlen : ys.length = op.results.length
      case neg => exact .inl ⟨w', if_neg hlen, if_neg hlen⟩
      case pos =>
        refine .inr ⟨w', _, _, if_pos hlen, if_pos hlen, fun v hv => ?_⟩
        by_cases hres : v ∈ op.results
        · -- a value just computed
          have hK : S.table constants v = none := by
            have hdef : f.DefinedIn b v :=
              ⟨block, hb, List.mem_append_right _ (List.mem_flatMap_of_mem hop hres)⟩
            rw [Sem.table, hf.ssa.noConstant b v hdef]
            rfl
          rw [hj.newName_result hf hb hop hres]
          simp only [Env.read, hK, Option.none_or]
          exact bindAll_congr hlen hres
        · -- a value available before, and not overwritten
          have hbefore : f.Available constants b pre v := by
            cases hv with
            | constant h => exact .constant h
            | param h hv => exact .param h hv
            | result hv =>
              refine .result ?_
              rw [List.flatMap_append] at hv
              exact (List.mem_append.mp hv).resolve_right (by simpa using hres)
            | dominated hne hdom hdef => exact .dominated hne hdom hdef
          have hname := (hj.available_newName hf hb hsplit hbefore).notMem_later hf.ssa hb
            hsplit
          simp only [List.flatMap_cons, List.mem_append, not_or] at hname
          simp only [Env.read, Env.bindAll_of_notMem hres, Env.bindAll_of_notMem hname.1]
          exact h v hbefore

/-- Instructions of a block do the same in both functions. -/
theorem RedundantJump.agree_instructions {b : BlockId} {block : Block} (hb : f.block b = some block)
    {mid pre post : List OpCode} (hsplit : block.instructions = pre ++ (mid ++ post))
    {env env' : Env V}
    (h : Agree (S.table constants) f constants (newName tblock args) b pre env env') (w : W) :
    (∃ w', execInstructions S (S.table constants) mid env w = (w', none) ∧
      execInstructions S (S.table constants) (mid.map (OpCode.mapOperands (newName tblock args)))
        env' w = (w', none)) ∨
    ∃ w' env₁ env₁', execInstructions S (S.table constants) mid env w = (w', some env₁) ∧
      execInstructions S (S.table constants) (mid.map (OpCode.mapOperands (newName tblock args)))
        env' w = (w', some env₁') ∧
      Agree (S.table constants) f constants (newName tblock args) b (pre ++ mid) env₁ env₁' := by
  induction mid generalizing pre env env' w with
  | nil => exact .inr ⟨w, env, env', rfl, rfl, by rwa [List.append_nil]⟩
  | cons op mid ih =>
    rw [List.map_cons, execInstructions, execInstructions]
    rcases hj.agree_instruction hf hb hsplit h w with ⟨w', hop, hop'⟩ | ⟨w', e, e', hop, hop', hag⟩
    · rw [hop, hop']
      exact .inl ⟨w', rfl, rfl⟩
    · rw [hop, hop']
      have hrest := ih (by rw [hsplit]; simp) hag w'
      rwa [List.append_assoc] at hrest

omit hf hj in
/-- What is available on entering a block, its parameters apart, was available where control
came from. -/
theorem available_before {b c : BlockId} {block cblock : Block} (hb : f.block b = some block)
    (hbc : f.Edge b c) (hc : f.block c = some cblock) {v : ValueId}
    (hparam : v ∉ cblock.parameters.map Prod.fst) (hv : f.Available constants c [] v) :
    f.Available constants b block.instructions v := by
  cases hv with
  | constant hv => exact .constant hv
  | param hc' hv =>
    obtain rfl := Option.some.inj (hc.symm.trans hc')
    exact absurd hv hparam
  | result hv => exact absurd hv List.not_mem_nil
  | @dominated d hne hdom hdef =>
    have hdomb : Dominates f.entryBlock f.Edge d b := by
      intro hist hwalk
      exact (List.mem_cons.mp (hdom _ (hwalk.step hbc))).resolve_left hne
    by_cases hdb : d = b
    · subst hdb
      obtain ⟨dblock, hd, hmem⟩ := hdef
      obtain rfl := Option.some.inj (hb.symm.trans hd)
      rcases List.mem_append.mp hmem with hmem | hmem
      · exact .param hb hmem
      · exact .result hmem
    · exact .dominated hdb hdomb hdef

/-- Entering a block other than the target binds its parameters alike. -/
theorem RedundantJump.agree_enter {b c : BlockId} {block cblock : Block}
    (hb : f.block b = some block) (hbc : f.Edge b c) (hc : f.block c = some cblock) (hct : c ≠ t)
    {env env' : Env V}
    (h : Agree (S.table constants) f constants (newName tblock args) b block.instructions env env')
    {xs : List V} (hxs : xs.length = cblock.parameters.length) :
    Agree (S.table constants) f constants (newName tblock args) c []
      (env.bindAll (cblock.parameters.map Prod.fst) xs)
      (env'.bindAll (cblock.parameters.map Prod.fst) xs) := by
  intro v hv
  have hdefined {u : ValueId} (hu : u ∈ cblock.parameters.map Prod.fst) : f.DefinedIn c u :=
    ⟨cblock, hc, List.mem_append_left _ hu⟩
  have hK {u : ValueId} (hu : u ∈ cblock.parameters.map Prod.fst) : S.table constants u = none := by
    rw [Sem.table, hf.ssa.noConstant c u (hdefined hu)]
    rfl
  by_cases hparam : v ∈ cblock.parameters.map Prod.fst
  · have hname : newName tblock args v = v := newName_of_notMem fun hmem =>
      hct (hf.ssa.block v c t (hdefined hparam) (hj.definedIn_param hmem))
    rw [hname]
    simp only [Env.read, hK hparam, Option.none_or]
    exact bindAll_congr (by rw [hxs, List.length_map]) hparam
  · -- the value was available at the end of the block before
    have hbefore := available_before hb hbc hc hparam hv
    have hname : newName tblock args v ∉ cblock.parameters.map Prod.fst := by
      by_cases hmem : v ∈ tblock.parameters.map Prod.fst
      · -- the target dominates `c`, so the argument is not defined there
        intro harg
        have hafter := hj.after_of_available hf hmem hc rfl hv
        have htc : Dominates f.entryBlock f.Edge t c := by
          rcases hafter with ⟨rfl, -⟩ | ⟨-, hdom⟩
          · exact absurd rfl hct
          · exact hdom
        have hcr : Dominates f.entryBlock f.Edge c r := by
          cases hj.available_args hf (hj.newName_mem hf hmem) with
          | constant h =>
            rw [hf.ssa.noConstant c _ (hdefined harg)] at h
            simp at h
          | param hr hv' =>
            obtain rfl := hf.ssa.block _ _ _ (hdefined harg) ⟨_, hr, List.mem_append_left _ hv'⟩
            exact .refl c
          | result hv' =>
            obtain rfl := hf.ssa.block _ _ _ (hdefined harg)
              ⟨_, hj.source, List.mem_append_right _ hv'⟩
            exact .refl c
          | dominated _ hdom hdef =>
            obtain rfl := hf.ssa.block _ _ _ (hdefined harg) hdef
            exact hdom
        exact hct (Dominates.antisymm (hf.reachable t tblock hj.target)
          (hcr.trans hj.dominates) htc)
      · rwa [newName_of_notMem hmem]
    simp only [Env.read, Env.bindAll_of_notMem hparam, Env.bindAll_of_notMem hname]
    exact h v hbefore

/-- The jump into the target binds its parameters to the values of the arguments. -/
theorem RedundantJump.agree_target {env env' : Env V}
    (h : Agree (S.table constants) f constants (newName tblock args) r rblock.instructions env env')
    {xs : List V} (hxs : args.mapM (Env.read (S.table constants) env) = some xs) :
    Agree (S.table constants) f constants (newName tblock args) t []
      (env.bindAll (tblock.parameters.map Prod.fst) xs) env' := by
  intro v hv
  by_cases hparam : v ∈ tblock.parameters.map Prod.fst
  · have hK : S.table constants v = none := by
      rw [Sem.table, hf.ssa.noConstant t v (hj.definedIn_param hparam)]
      rfl
    have hnodup : (tblock.parameters.map Prod.fst).Nodup :=
      (List.nodup_append.mp (hf.ssa.once t tblock hj.target)).1
    have hread : Env.read (S.table constants)
        (env.bindAll (tblock.parameters.map Prod.fst) xs) v =
        Env.read (S.table constants) env (newName tblock args v) :=
      read_bindAll hnodup (hj.length_args hf) hxs hparam hK
    obtain ⟨x, hx, hx'⟩ := h _ (hj.available_args hf (hj.newName_mem hf hparam))
    rw [newName_of_notMem (hj.newName_notMem hf)] at hx'
    exact ⟨x, hread.trans hx, hx'⟩
  · have hbefore := available_before hj.source hj.edge hj.target hparam hv
    have hread : Env.read (S.table constants)
        (env.bindAll (tblock.parameters.map Prod.fst) xs) v =
        Env.read (S.table constants) env v := by
      rw [Env.read, Env.read, Env.bindAll_of_notMem hparam]
    rw [hread]
    exact h v hbefore

end Simulation

end Mavros.FixDoubleJumps
