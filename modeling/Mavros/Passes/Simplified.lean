/-
# `Mavros.Passes.Simplified` — simplified functions run like the originals

Every walk gives a rewritten function in the same form, so the iterations compose.  The
condition on every rewriting cannot be left out: a product with a pure zero is replaced by
the zero, also where the product is a witness.

## What is proved

* `doRun_keepsValues`: when every rewriting the pass makes meets `RuleOk`, then for every function
  of the program and under every execution, from arguments of the parameters' types, the
  function and what the pass makes of it run alike: the same blocks in the same order, the same
  values with the same types in everything that remains, the same failures and the same end
  (`KeepsValues`).
* `doRun_mul_zero` is the defect: a witness times zero becomes the pure zero, and what is returned
  has lost its wrapper.
* `doRun_keepsValues_mul_one` is the theorem at a product with one, which is dropped.

## What the condition says

`RuleOk` is about operand types where the rewriting is made: the constant fits the operand beside
it, and an operand that is dropped is no witness.  `IterationsOk` and `FunctionsOk` ask for it at
every rewriting of every iteration over every function, in the state the pass is in when it makes
it; nothing is assumed about the result.

## How it goes

A walk gives a rewritten function in the sense of `Mavros.Hlssa.Rewriting` (`Running.rewritten`),
after the aliases are swept over what the walk has written (`BlockWalked.rewritten`).  The
rewritten function is strict and typed again (`Ready.rewritten`), so the next walk starts from
it, and `RunsAlike` composes.
-/
import Mavros.Passes.SimplifierWalk

namespace Mavros.Simplifier

open Hlssa
open Lib (Reachable mem_of_lookup_eq_some lookup_of_mem mapM_eq_some)

/-! ## The sweep

Writing uses the aliases found so far, sweeping those of the end; a sound alias does not change.
-/

section Sweep

variable {A W : Type} [DecidableEq (Value A)] {C : Completion A W}
  {signatures : FunctionId → Option (List TypeExpr × List TypeExpr)} {f : Function}
  {c c' : Constants} {types : ValueId → Option TypeExpr} {init : State (Value A) W}
  {final : ValueReplacements} {b : BlockId} {block : Block} {pre : List OpCode}

omit [DecidableEq (Value A)] in
theorem sameUse_mapInputs {S : Sem (Value A) W} {K K' env : Env (Value A)} {op op₁ : OpCode}
    {ρ : ValueId → ValueId} (h : SameUse S K K' Swaps op op₁ env)
    (hread : ∀ v ∈ op₁.inputs, Env.read K' env (ρ v) = Env.read K' env v) :
    SameUse S K K' Swaps op (op₁.mapInputs ρ) env := by
  have hmap : (op₁.mapInputs ρ).inputs.mapM (Env.read K' env)
      = op₁.inputs.mapM (Env.read K' env) := by
    rw [OpCode.inputs_mapInputs]
    exact mapM_read_congr hread
  rcases h with ⟨hshape, hin⟩ | ⟨hswaps, xs, ys, hxs, hys, hsame⟩
  · exact .inl ⟨(shape_mapInputs op₁).trans hshape, hmap.trans hin⟩
  · refine .inr ⟨?_, xs, ys, hxs, hmap.trans hys, ?_⟩
    · rwa [shape_mapInputs]
    · rwa [shape_mapInputs]

/-- The aliases applied once more to what the walk has written. -/
theorem Walked.sweep {ops ops₁ ops' : List OpCode}
    (h : Walked C f c c' init final b pre ops ops₁)
    (hr : Running C signatures f c types init) (hlinks : Links C f c c' init final)
    (hblock : f.block b = some block) (hsplit : block.instructions = pre ++ ops)
    (hsweep : ops₁.mapM final.replaceInputs = some ops') :
    InstructionsRewritten (valueSem C) ((valueSem C).table c.table) ((valueSem C).table c'.table) f
      c'.table init (fun v => (final.lookup v).isSome) Swaps b pre ops ops' := by
  induction h generalizing ops' with
  | nil pre =>
    obtain rfl := Option.some.inj hsweep
    exact .nil pre
  | drop hop rest ih => exact .drop hop (ih (by rw [hsplit]; simp) hsweep)
  | @keep pre op op₁ ops ops₁ hop remain rest ih =>
    simp only [List.mapM_cons, Option.bind_eq_bind, Option.bind_eq_some_iff, Option.pure_def,
      Option.some.injEq] at hsweep
    obtain ⟨op', hop', ops', hops', rfl⟩ := hsweep
    obtain ⟨hrep, rfl⟩ := replaceInputs_eq_some.mp hop'
    refine .keep ⟨?_, fun v hv => ?_, fun hb v hv => ?_, ?_⟩ (ih (by rw [hsplit]; simp) hops')
    · rw [OpCode.results_mapInputs, hop.results]
    · rw [remain v hv]
      simp
    · rw [OpCode.inputs_mapInputs] at hv
      obtain ⟨u, hu, rfl⟩ := List.mem_map.mp hv
      obtain ⟨havail, hnone⟩ := hlinks.available hb hblock hsplit (hop.inputs hb u hu) (hrep u hu)
      exact ⟨havail, by simp [hnone]⟩
    · intro s older block' post env w hs hreached
      refine sameUse_mapInputs (hop.exec s older block' post env w hs hreached) fun v hv => ?_
      subst hs
      exact hlinks.reads hr.initial hreached
        (hop.inputs (hreached.reachable hr.initial) v hv) (hrep v hv)

theorem replaceTerminator_eq_some {aliases : ValueReplacements} {t t' : Terminator}
    (h : aliases.replaceTerminator t = some t') :
    (∀ v ∈ t.inputs, aliases.getReplacement v = some (aliases.apply v)) ∧
      t' = t.map aliases.apply := by
  unfold ValueReplacements.replaceTerminator at h
  split at h
  · next hall =>
    refine ⟨fun v hv => ?_, (Option.some.inj h).symm⟩
    obtain ⟨u, hu⟩ := Option.isSome_iff_exists.mp (hall v hv)
    rw [ValueReplacements.apply, hu]
    rfl
  · simp at h

theorem sweepBlock_eq_some {aliases : ValueReplacements} {block' : Block}
    (h : sweepBlock aliases block = some block') :
    ∃ ops' t, block.instructions.mapM aliases.replaceInputs = some ops' ∧
      block.terminator = some t ∧
        (∀ v ∈ t.inputs, aliases.getReplacement v = some (aliases.apply v)) ∧
          block' = { block with
            instructions := ops', terminator := some (t.map aliases.apply) } := by
  unfold sweepBlock at h
  simp only [Option.bind_eq_bind, Option.bind_eq_some_iff, Option.pure_def,
    Option.some.injEq] at h
  obtain ⟨ops', hops, t, ht, t', ht', rfl⟩ := h
  obtain ⟨hrep, rfl⟩ := replaceTerminator_eq_some ht'
  exact ⟨ops', t, hops, ht, hrep, rfl⟩

/-- One block after the walk and the sweep. -/
theorem BlockWalked.rewritten {p q : BlockId × Block} {block' : Block}
    (h : BlockWalked C f c c' init final p q) (hr : Running C signatures f c types init)
    (hext : c.Extends c') (hlinks : Links C f c c' init final) (hblock : f.block p.1 = some p.2)
    (hsweep : sweepBlock final q.2 = some block') :
    BlockRewritten (valueSem C) ((valueSem C).table c.table) ((valueSem C).table c'.table) f
      c'.table init (fun v => (final.lookup v).isSome) Swaps p.1 p.2 block' := by
  obtain ⟨-, ops₁, hq, hwalked⟩ := h
  obtain ⟨ops', t, hops', ht, hrep, rfl⟩ := sweepBlock_eq_some hsweep
  rw [hq] at hops' ht
  refine ⟨by rw [hq], hwalked.sweep hr hlinks hblock rfl hops', t, final.apply, ht, rfl, ?_, ?_⟩
  · intro hb v hv
    have havail := available_extend hr.wf hext (hr.ok.strict.terminator _ _ t hb hblock ht v hv)
    have hall : p.2.instructions = p.2.instructions ++ [] := (List.append_nil _).symm
    obtain ⟨havail', hnone⟩ := hlinks.available hb hblock hall havail (hrep v hv)
    exact ⟨havail', by simp [hnone]⟩
  · intro s older block' env w hs hreached v hv
    obtain rfl := Option.some.inj (hblock.symm.trans (hs ▸ hreached.atBlock))
    have havail := hr.ok.strict.terminator _ _ t (hreached.reachable hr.initial)
      hreached.atBlock ht v hv
    rw [hlinks.reads hr.initial hreached (available_extend hr.wf hext havail) (hrep v hv)]
    exact read_lt hext (available_lt hr.wf hr.ok hreached.atBlock hreached.split havail) env

/-! ## One walk

Blocks are walked in domination pre-order, and put back in the order of the map.
-/

theorem runFunction_eq_some {f' : Function} {changed : Bool}
    (h : runFunction types f c = some (f', c', changed)) :
    ∃ blocks₁ s blocks₂, processBlocks types (definition f) f.blocks ⟨[], c, [], false⟩
        = some (blocks₁, s) ∧
      List.Forall₂ (fun p q => q.1 = p.1 ∧ sweepBlock s.aliases p.2 = some q.2) blocks₁ blocks₂ ∧
        f' = { f with blocks := blocks₂ } ∧ c' = s.constants := by
  unfold runFunction at h
  simp only [Option.bind_eq_bind, Option.bind_eq_some_iff, Option.pure_def,
    Option.some.injEq, Prod.mk.injEq] at h
  obtain ⟨⟨blocks₁, s⟩, h₁, blocks₂, h₂, rfl, rfl, -⟩ := h
  refine ⟨blocks₁, s, blocks₂, h₁, ?_, rfl, rfl⟩
  refine (mapM_eq_some.mp h₂).imp fun p q hq => ?_
  obtain ⟨block, hblock, rfl⟩ := Option.map_eq_some_iff.mp
    (by simpa [Option.map_eq_bind, Function.comp_def] using hq)
  exact ⟨rfl, hblock⟩

omit [DecidableEq (Value A)] in
theorem blockResults_nodup (hok : FunctionOk f c) : (blockResults f.blocks).Nodup := by
  unfold blockResults
  rw [List.nodup_flatMap]
  have hdef : ∀ p ∈ f.blocks, ∀ v ∈ p.2.instructions.flatMap OpCode.results, f.DefinedIn p.1 v :=
    fun p hp v hv => ⟨p.2, lookup_of_mem hok.keys hp, List.mem_append_right _ hv⟩
  constructor
  · intro p hp
    exact (List.nodup_append.mp (hok.ssa.once _ _ (lookup_of_mem hok.keys hp))).2.1
  · have hpair : f.blocks.Pairwise fun p q => p.1 ≠ q.1 := List.pairwise_map.mp hok.keys
    refine hpair.imp_of_mem fun {p q} hp hq hne v hv hv' => hne ?_
    exact hok.ssa.block v _ _ (hdef p hp v hv) (hdef q hq v hv')

theorem forall₂_keys {α β γ : Type} {l : List (α × β)} {l' : List (α × γ)}
    (h : List.Forall₂ (fun p q => q.1 = p.1) l l') : l'.map Prod.fst = l.map Prod.fst := by
  induction h with
  | nil => rfl
  | cons hpq _ ih => rw [List.map_cons, List.map_cons, hpq, ih]

/-- A walk whose rewritings all meet the condition gives a rewritten function. -/
theorem Running.rewritten (hr : Running C signatures f c types init) {f' : Function}
    {changed : Bool} (h : runFunction types f c = some (f', c', changed))
    (hok : BlocksOk types (definition f) f.blocks ⟨[], c, [], false⟩) :
    c'.WF ∧ c.Extends c' ∧ (f'.blocks.map Prod.fst) = f.blocks.map Prod.fst ∧
      (∀ b block', f'.block b = some block' → ∃ t, block'.terminator = some t) ∧
        ∃ dropped, f.Rewritten (valueSem C) ((valueSem C).table c.table)
          ((valueSem C).table c'.table) c'.table init dropped Swaps f' := by
  obtain ⟨blocks₁, s, blocks₂, h₁, h₂, rfl, rfl⟩ := runFunction_eq_some h
  have hgrow := @blocks_grow types (definition f) ⟨[], c, [], false⟩ _ _ _ hr.wf h₁
  have hsites : ∀ p ∈ f.blocks, f.block p.1 = some p.2 := fun p hp => lookup_of_mem hr.ok.keys hp
  have hlinks₀ : Links C f c s.constants init [] := fun r t hrt => by simp at hrt
  have hnone : ∀ v, (([] : ValueReplacements).lookup v).isSome → v ∈ ([] : List ValueId) :=
    fun v hv => by simp at hv
  obtain ⟨hwalked, hlinks⟩ := hr.blocksWalked hgrow.ext hsites h₁ hok hr.wf (.refl _) hlinks₀
    hnone (blockResults_nodup hr.ok) (fun v => Iff.rfl)
  have hboth : List.Forall₂ (fun p q => q.1 = p.1 ∧ (p ∈ f.blocks ∧
      ∃ r, BlockWalked C f c s.constants init s.aliases p r ∧ sweepBlock s.aliases r.2 = some q.2))
      f.blocks blocks₂ := by
    have hmem := (List.forall₂_and_left (p := (· ∈ f.blocks)) f.blocks blocks₁).mpr
      ⟨fun _ hp => hp, hwalked⟩
    exact forall₂_trans (fun p r q hpr hrq =>
      ⟨hrq.1.trans hpr.2.1, hpr.1, r, hpr.2, hrq.2⟩) hmem h₂
  have hlookup := Lib.lookup_forall₂ hboth
  refine ⟨hgrow.wf, hgrow.ext, ?_, fun b block' hblock' => ?_, fun v => (s.aliases.lookup v).isSome,
    rfl, fun b block hblock => ?_, fun b hblock => ?_, fun b block hblock v hv => ?_⟩
  · exact forall₂_keys (hboth.imp fun _ _ h => h.1)
  · rcases hlookup b with ⟨-, hnone⟩ | ⟨block, block₂, -, hb₂, -, r, -, hsweep⟩
    · exact absurd (hblock'.symm.trans hnone) (by simp)
    · obtain rfl := Option.some.inj (hblock'.symm.trans hb₂)
      obtain ⟨ops', t, -, -, -, heq⟩ := sweepBlock_eq_some hsweep
      have heq : block' = _ := heq
      exact ⟨_, by rw [heq]⟩
  · rcases hlookup b with ⟨hnone, -⟩ | ⟨block₁, block₂, hb, hb₂, -, r, hwalked, hsweep⟩
    · exact absurd (hblock.symm.trans hnone) (by simp)
    · obtain rfl := Option.some.inj (hblock.symm.trans hb)
      exact ⟨block₂, hb₂, hwalked.rewritten hr hgrow.ext hlinks hblock hsweep⟩
  · rcases hlookup b with ⟨-, hnone⟩ | ⟨block₁, block₂, hb, -⟩
    · exact hnone
    · exact absurd (hb.symm.trans hblock) (by simp)
  · intro hdropped
    rcases hgrow.fresh v hdropped with hnone | hmem
    · simp at hnone
    · -- a parameter is no result
      obtain ⟨p, hp, hv'⟩ := List.mem_flatMap.mp hmem
      have hdef : f.DefinedIn p.1 v := ⟨p.2, hsites p hp, List.mem_append_right _ hv'⟩
      obtain rfl := hr.ok.ssa.block v _ _ hdef ⟨block, hblock, List.mem_append_left _ hv⟩
      obtain rfl := Option.some.inj ((hsites p hp).symm.trans hblock)
      exact (List.nodup_append.mp (hr.ok.ssa.once _ _ hblock)).2.2 v hv v hv' rfl

end Sweep

/-! ## Iterations

At most as many as the pass allows; with each of them the constants grow.
-/

theorem swaps_chain : ∀ a b c, Swaps a b → ¬Swaps b c := fun _ _ _ => Swaps.not_swaps

section Iterations

variable {A W : Type} [DecidableEq (Value A)] {C : Completion A W}
  {sigs : FunctionId → Option (List TypeExpr × List TypeExpr)} {f g f' : Function}
  {c c' : Constants} {types : ValueId → Option TypeExpr} {init : State (Value A) W}
  {order : List BlockId}

/-- The domination pre-order visits every reachable block once. -/
structure OrderOk (order : List BlockId) (f : Function) : Prop where
  nodup : order.Nodup
  mem_iff : ∀ b, b ∈ order ↔ Reachable f.entryBlock f.Edge b

/-- A function whose runs from `init` enter every block with typed arguments. -/
structure Ready (C : Completion A W)
    (sigs : FunctionId → Option (List TypeExpr × List TypeExpr)) (order : List BlockId)
    (f : Function) (c : Constants) (init : State (Value A) W) : Prop where
  completion : C.Typed sigs
  wf : c.WF
  ok : FunctionOk f c
  order : OrderOk order f
  initial : f.Initial init
  entry : ∀ s older, Run (valueSem C) ((valueSem C).table c.table) f init (s :: older) →
    ParamsTyped f s

theorem Ready.running (h : Ready C sigs order f c init)
    (htypes : f.types sigs c.table order = some types) : Running C sigs f c types init :=
  ⟨h.completion, h.wf, h.ok,
    Function.types_typing h.ok.ssa h.order.nodup h.order.mem_iff htypes, h.initial, h.entry⟩

theorem RunsAlike.entry {K K' : Env (Value A)} (h : RunsAlike (valueSem C) K K' f f' init Swaps)
    (hentry : ∀ s older, Run (valueSem C) K f init (s :: older) → ParamsTyped f s)
    (s' : State (Value A) W) (older' : List (State (Value A) W))
    (hrun' : Run (valueSem C) K' f' init (s' :: older')) : ParamsTyped f' s' := by
  obtain ⟨hist, hrun, hrel⟩ := h.backward _ hrun'
  cases hrel with
  | @cons s _ older _ hvisit _ =>
    obtain ⟨block, block', hblock, hblock', hparams, hkeep⟩ := hvisit.params
    intro block₁ hblock₁ p hp
    rw [hvisit.block, hblock'] at hblock₁
    obtain rfl := Option.some.inj hblock₁
    rw [hparams] at hp
    obtain ⟨x, hx, htype⟩ := hentry s older hrun block hblock p hp
    exact ⟨x, (hkeep p.1 (List.mem_map_of_mem hp)).trans hx, htype⟩

/-- A rewritten function is ready for the next walk. -/
theorem Ready.rewritten (h : Ready C sigs order f c init) (hwf : c'.WF) (hext : c.Extends c')
    {dropped : ValueId → Prop}
    (hrewritten : f.Rewritten (valueSem C) ((valueSem C).table c.table)
      ((valueSem C).table c'.table) c'.table init dropped Swaps f')
    (hkeys : (f'.blocks.map Prod.fst).Nodup)
    (hterm : ∀ b block', f'.block b = some block' → ∃ t, block'.terminator = some t) :
    Ready C sigs order f' c' init ∧
      RunsAlike (valueSem C) ((valueSem C).table c.table) ((valueSem C).table c'.table) f f' init
        Swaps := by
  have halike := hrewritten.runsAlike h.initial
  have hok' := h.ok.extend h.wf hext
  refine ⟨⟨h.completion, hwf, ⟨hkeys, hrewritten.singleAssignment hok'.ssa, hrewritten.strict,
    fun b v hv => hok'.below b v (hrewritten.definedIn_iff.mp hv).1, hterm⟩,
    ⟨h.order.nodup, fun b => (h.order.mem_iff b).trans (hrewritten.reachable_iff b).symm⟩, ?_,
    RunsAlike.entry halike h.entry⟩, halike⟩
  obtain ⟨hb, block, args, hblock, henv⟩ := h.initial
  obtain ⟨block', hblock', hblockRewritten⟩ := hrewritten.block _ block hblock
  refine ⟨hb.trans hrewritten.entry.symm, block', args, ?_, ?_⟩
  · rw [hrewritten.entry, hblock']
  · rw [henv, hblockRewritten.parameters]

/-- The same blocks in another order, with more constants. -/
theorem Ready.sameBlocks (h : Ready C sigs order f c init) (hext : c.Extends c')
    (hentry : g.entryBlock = f.entryBlock) (hblocks : ∀ b, g.block b = f.block b) :
    f.Rewritten (valueSem C) ((valueSem C).table c.table) ((valueSem C).table c'.table) c'.table
      init (fun _ => False) Swaps g where
  entry := hentry
  noBlock b hb := (hblocks b).trans hb
  params _ _ _ _ _ := id
  block b block hblock := by
    obtain ⟨t, ht⟩ := h.ok.terminated b block hblock
    have hread : ∀ s older block' pre post env w, Reached (valueSem C)
        ((valueSem C).table c.table) f init s older block' pre post env w → ∀ v,
          f.Available c.table s.block pre v → Env.read ((valueSem C).table c'.table) env v
            = Env.read ((valueSem C).table c.table) env v :=
      fun s older block' pre post env w hreached v hv =>
        read_lt hext (available_lt h.wf h.ok hreached.atBlock hreached.split hv) env
    have hops : ∀ ops pre, block.instructions = pre ++ ops →
        InstructionsRewritten (valueSem C) ((valueSem C).table c.table)
          ((valueSem C).table c'.table) f c'.table init (fun _ => False) Swaps b pre ops ops := by
      intro ops
      induction ops with
      | nil => exact fun pre _ => .nil pre
      | cons op ops ih =>
        intro pre hsplit
        refine .keep ⟨rfl, fun _ _ => id, fun hb v hv => ⟨?_, id⟩, ?_⟩
          (ih (pre ++ [op]) (by rw [hsplit]; simp))
        · exact available_extend h.wf hext
            (h.ok.strict.instruction b block pre op ops hb hblock hsplit v hv)
        · intro s older block' post env w hs hreached
          refine .inl ⟨rfl, mapM_congr_left fun v hv => ?_⟩
          exact hread s older block' pre _ env w hreached v
            (h.ok.strict.instruction _ block' pre op post (hreached.reachable h.initial)
              hreached.atBlock hreached.split v hv)
    refine ⟨block, (hblocks b).trans hblock, rfl, hops _ [] rfl, t, id, ht, ?_, ?_, ?_⟩
    · rw [ht]
      cases t <;> simp [Terminator.map]
    · intro hb v hv
      exact ⟨available_extend h.wf hext (h.ok.strict.terminator b block t hb hblock ht v hv), id⟩
    · intro s older block' env w hs hreached v hv
      subst hs
      obtain rfl := Option.some.inj (hblock.symm.trans hreached.atBlock)
      exact hread s older block _ [] env w hreached v
        (h.ok.strict.terminator _ block t (hreached.reachable h.initial) hblock ht v hv)

theorem Ready.extend (h : Ready C sigs order f c init) (hwf : c'.WF) (hext : c.Extends c') :
    Ready C sigs order f c' init ∧
      RunsAlike (valueSem C) ((valueSem C).table c.table) ((valueSem C).table c'.table) f f init
        Swaps :=
  h.rewritten hwf hext (h.sameBlocks hext rfl fun _ => rfl) h.ok.keys h.ok.terminated

theorem lookup_perm {α β : Type} [BEq α] [LawfulBEq α] {l l' : List (α × β)} (h : l'.Perm l)
    (hkeys : (l.map Prod.fst).Nodup) (k : α) : l'.lookup k = l.lookup k := by
  have hkeys' : (l'.map Prod.fst).Nodup := (h.map Prod.fst).nodup_iff.mpr hkeys
  cases hl : l.lookup k with
  | some x => exact lookup_of_mem hkeys' (h.mem_iff.mpr (mem_of_lookup_eq_some hl))
  | none =>
    cases hl' : l'.lookup k with
    | none => rfl
    | some x =>
      rw [lookup_of_mem hkeys (h.mem_iff.mp (mem_of_lookup_eq_some hl'))] at hl
      simp at hl

theorem Ready.shuffled (h : Ready C sigs order f c init) {blocks : List (BlockId × Block)}
    (hperm : blocks.Perm f.blocks) :
    Ready C sigs order { f with blocks } c init ∧
      RunsAlike (valueSem C) ((valueSem C).table c.table) ((valueSem C).table c.table) f
        { f with blocks } init Swaps := by
  have hblock : ∀ b, ({ f with blocks } : Function).block b = f.block b :=
    lookup_perm hperm h.ok.keys
  refine h.rewritten h.wf (.refl c) (h.sameBlocks (.refl c) rfl hblock)
    ((hperm.map Prod.fst).nodup_iff.mpr h.ok.keys) fun b block' hblock' => ?_
  exact h.ok.terminated b block' ((hblock b).symm.trans hblock')

/-- The types depend on the blocks, not on the order of the hash map. -/
theorem types_congr (hblocks : ∀ b, g.block b = f.block b)
    (constants : List (ValueId × Constant)) : g.types sigs constants order
      = f.types sigs constants order := by
  have hstep : typeBlock sigs g = typeBlock sigs f := by
    funext types b
    simp only [typeBlock, hblocks]
  rw [Function.types, Function.types, hstep]

/-- Every rewriting of every iteration meets the condition. -/
def IterationsOk (sigs : FunctionId → Option (List TypeExpr × List TypeExpr))
    (order : List BlockId) (shuffle : Nat → List (BlockId × Block) → List (BlockId × Block)) :
    Nat → Function → Constants → Prop
  | 0, _, _ => True
  | n + 1, f, c =>
      ∀ types, f.types sigs c.table order = some types →
        BlocksOk types (definition { f with blocks := shuffle n f.blocks }) (shuffle n f.blocks)
          ⟨[], c, [], false⟩ ∧
        ∀ f' c', runFunction types { f with blocks := shuffle n f.blocks } c = some (f', c', true) →
          IterationsOk sigs order shuffle n f' c'

theorem Ready.iterate {shuffle : Nat → List (BlockId × Block) → List (BlockId × Block)}
    (hshuffle : ∀ n blocks, (shuffle n blocks).Perm blocks) {n : Nat}
    (h : Ready C sigs order f c init) (hok : IterationsOk sigs order shuffle n f c)
    (hrun : iterate sigs order shuffle n f c = some (f', c')) :
    c.Extends c' ∧ Ready C sigs order f' c' init ∧
      RunsAlike (valueSem C) ((valueSem C).table c.table) ((valueSem C).table c'.table) f f' init
        Swaps := by
  induction n generalizing f c with
  | zero =>
    obtain ⟨rfl, rfl⟩ := Prod.mk.inj (Option.some.inj hrun)
    exact ⟨.refl c, h, (h.extend h.wf (.refl c)).2⟩
  | succ n ih =>
    simp only [Simplifier.iterate, Option.bind_eq_bind, Option.bind_eq_some_iff] at hrun
    obtain ⟨types, htypes, ⟨f₁, c₁, changed⟩, hwalk, hrun⟩ := hrun
    obtain ⟨hblocks, hrest⟩ := hok types htypes
    obtain ⟨hready, halike⟩ := h.shuffled (hshuffle n f.blocks)
    have htypes' : ({ f with blocks := shuffle n f.blocks } : Function).types sigs c.table order
        = some types :=
      (types_congr (lookup_perm (hshuffle n f.blocks) h.ok.keys) c.table).trans htypes
    obtain ⟨hwf₁, hext₁, hkeys₁, hterm₁, dropped, hrewritten⟩ :=
      (hready.running htypes').rewritten hwalk hblocks
    obtain ⟨hready₁, halike₁⟩ := hready.rewritten hwf₁ hext₁ hrewritten
      (hkeys₁ ▸ hready.ok.keys) hterm₁
    have halike' := halike.trans swaps_chain halike₁
    cases changed with
    | false =>
      obtain ⟨rfl, rfl⟩ := Prod.mk.inj (Option.some.inj hrun)
      exact ⟨hext₁, hready₁, halike'⟩
    | true =>
      obtain ⟨hext₂, hready₂, halike₂⟩ := ih hready₁ (hrest f₁ c₁ hwalk) hrun
      exact ⟨hext₁.trans hext₂, hready₂, halike'.trans swaps_chain halike₂⟩

end Iterations

/-! ## The pass

Function by function, each with the constants the one before has left.
-/

section Pass

variable {sigs : FunctionId → Option (List TypeExpr × List TypeExpr)}
  {orders : FunctionId → List BlockId}
  {shuffle : FunctionId → Nat → List (BlockId × Block) → List (BlockId × Block)} {n : Nat}

theorem iterate_extends {order : List BlockId}
    {shuffle : Nat → List (BlockId × Block) → List (BlockId × Block)} {f f' : Function}
    {c c' : Constants} (hwf : c.WF) (h : iterate sigs order shuffle n f c = some (f', c')) :
    c'.WF ∧ c.Extends c' := by
  induction n generalizing f c with
  | zero =>
    obtain ⟨-, rfl⟩ := Prod.mk.inj (Option.some.inj h)
    exact ⟨hwf, .refl c⟩
  | succ n ih =>
    simp only [iterate, Option.bind_eq_bind, Option.bind_eq_some_iff] at h
    obtain ⟨types, -, ⟨f₁, c₁, changed⟩, hwalk, h⟩ := h
    obtain ⟨blocks₁, s, blocks₂, h₁, -, -, rfl⟩ := runFunction_eq_some hwalk
    have hgrow := @blocks_grow types _ ⟨[], c, [], false⟩ _ _ _ hwf h₁
    cases changed with
    | false =>
      obtain ⟨-, rfl⟩ := Prod.mk.inj (Option.some.inj h)
      exact ⟨hgrow.wf, hgrow.ext⟩
    | true =>
      obtain ⟨hwf', hext⟩ := ih hgrow.wf h
      exact ⟨hwf', hgrow.ext.trans hext⟩

theorem simplifyFunctions_extends {fs gs : List (FunctionId × Function)} {c c' : Constants}
    (hwf : c.WF) (h : simplifyFunctions sigs orders shuffle n fs c = some (gs, c')) :
    c'.WF ∧ c.Extends c' := by
  induction fs generalizing c gs with
  | nil =>
    obtain ⟨-, rfl⟩ := Prod.mk.inj (Option.some.inj h)
    exact ⟨hwf, .refl c⟩
  | cons p fs ih =>
    obtain ⟨id, f⟩ := p
    simp only [simplifyFunctions, Option.bind_eq_bind, Option.bind_eq_some_iff, Option.pure_def,
      Option.some.injEq, Prod.mk.injEq] at h
    obtain ⟨⟨f', c₁⟩, hiter, ⟨gs', c₂⟩, hrest, -, rfl⟩ := h
    obtain ⟨hwf₁, hext₁⟩ := iterate_extends hwf hiter
    obtain ⟨hwf₂, hext₂⟩ := ih hwf₁ hrest
    exact ⟨hwf₂, hext₁.trans hext₂⟩

variable (sigs orders shuffle n) in
/-- Every rewriting in every function meets the condition. -/
def FunctionsOk : List (FunctionId × Function) → Constants → Prop
  | [], _ => True
  | (id, f) :: fs, c => IterationsOk sigs (orders id) (shuffle id) n f c ∧
      ∀ f' c', iterate sigs (orders id) (shuffle id) n f c = some (f', c') → FunctionsOk fs c'

/-- The form in which the pass gets a function: strict single assignment, and typed. -/
structure WellFormed (sigs : FunctionId → Option (List TypeExpr × List TypeExpr))
    (order : List BlockId) (f : Function) (c : Constants) : Prop where
  ok : FunctionOk f c
  jumps : ∃ types, f.types sigs c.table order = some types ∧ JumpsTyped f types
  order : OrderOk order f

/-- Under every execution, from arguments of the parameters' types, the two functions run
alike: the same blocks in the same worlds, every remaining instruction and terminator reads
the same values, wrappers and types included, and the two fail alike. -/
def KeepsValues (sigs : FunctionId → Option (List TypeExpr × List TypeExpr)) (c c' : Constants)
    (f f' : Function) : Prop :=
  ∀ (A W : Type) [DecidableEq (Value A)] (C : Completion A W) (init : State (Value A) W),
    C.Typed sigs → f.Initial init → ParamsTyped f init →
      RunsAlike (valueSem C) ((valueSem C).table c.table) ((valueSem C).table c'.table) f f' init
        Swaps

theorem WellFormed.ready {A W : Type} [DecidableEq (Value A)] {C : Completion A W}
    {order : List BlockId} {f : Function} {c : Constants} {init : State (Value A) W}
    (h : WellFormed sigs order f c) (hwf : c.WF) (hC : C.Typed sigs) (hinit : f.Initial init)
    (hparams : ParamsTyped f init) : Ready C sigs order f c init := by
  obtain ⟨types, htypes, hjumps⟩ := h.jumps
  have htyping := Function.types_typing h.ok.ssa h.order.nodup h.order.mem_iff htypes
  exact ⟨hC, hwf, h.ok, h.order, hinit, fun s older hrun =>
    (hjumps.entry hC htyping h.ok.ssa hinit hparams hrun).1⟩

theorem simplifyFunctions_keepsValues (hshuffle : ∀ id n blocks, (shuffle id n blocks).Perm blocks)
    {fs gs : List (FunctionId × Function)} {c₀ c c' : Constants} (hwf₀ : c₀.WF)
    (hext : c₀.Extends c) (hwf : c.WF)
    (hform : ∀ p ∈ fs, WellFormed sigs (orders p.1) p.2 c₀)
    (hok : FunctionsOk sigs orders shuffle n fs c)
    (h : simplifyFunctions sigs orders shuffle n fs c = some (gs, c')) :
    List.Forall₂ (fun p q => q.1 = p.1 ∧ KeepsValues sigs c₀ c' p.2 q.2) fs gs := by
  induction fs generalizing c gs with
  | nil =>
    obtain ⟨rfl, -⟩ := Prod.mk.inj (Option.some.inj h)
    exact .nil
  | cons p fs ih =>
    obtain ⟨id, f⟩ := p
    rw [List.forall_mem_cons] at hform
    simp only [simplifyFunctions, Option.bind_eq_bind, Option.bind_eq_some_iff, Option.pure_def,
      Option.some.injEq, Prod.mk.injEq] at h
    obtain ⟨⟨f', c₁⟩, hiter, ⟨gs', c₂⟩, hrest, rfl, rfl⟩ := h
    obtain ⟨hfunction, hfunctions⟩ := hok
    obtain ⟨hwf₁, hext₁⟩ := iterate_extends hwf hiter
    obtain ⟨hwf₂, hext₂⟩ := simplifyFunctions_extends hwf₁ hrest
    refine .cons ⟨rfl, ?_⟩ (ih (hext.trans hext₁) hwf₁ hform.2 (hfunctions f' c₁ hiter) hrest)
    intro A W _ C init hC hinit hparams
    -- with the constants so far, through the iterations, with the constants at the end
    obtain ⟨hready, halike⟩ := (hform.1.ready hwf₀ hC hinit hparams).extend hwf hext
    obtain ⟨-, hready₁, halike₁⟩ := hready.iterate (hshuffle id) hfunction hiter
    obtain ⟨-, halike₂⟩ := hready₁.extend hwf₂ hext₂
    exact (halike.trans swaps_chain halike₁).trans swaps_chain halike₂

/-- The simplifier keeps values and types, and the failures, as long as every rewriting it
makes meets the condition on its operands' types. -/
theorem doRun_keepsValues (ssa ssa' : SSA) (maxIterations : Nat)
    (orders : FunctionId → List BlockId)
    (shuffle : FunctionId → Nat → List (BlockId × Block) → List (BlockId × Block))
    (hshuffle : ∀ id n blocks, (shuffle id n blocks).Perm blocks)
    (hwf : Constants.WF ⟨ssa.constants, ssa.nextValueId⟩)
    (hform : ∀ p ∈ ssa.functions, WellFormed (signatures ssa.functions) (orders p.1) p.2
      ⟨ssa.constants, ssa.nextValueId⟩)
    (hok : FunctionsOk (signatures ssa.functions) orders shuffle maxIterations ssa.functions
      ⟨ssa.constants, ssa.nextValueId⟩)
    (h : doRun maxIterations orders shuffle ssa = some ssa') :
    List.Forall₂ (fun p q => q.1 = p.1 ∧ KeepsValues (signatures ssa.functions)
      ⟨ssa.constants, ssa.nextValueId⟩ ⟨ssa'.constants, ssa'.nextValueId⟩ p.2 q.2)
      ssa.functions ssa'.functions := by
  simp only [doRun, Option.bind_eq_bind, Option.bind_eq_some_iff, Option.pure_def,
    Option.some.injEq] at h
  obtain ⟨⟨gs, c'⟩, hfs, rfl⟩ := h
  exact simplifyFunctions_keepsValues hshuffle hwf (.refl _) hwf hform hok hfs

end Pass

/-! ## A product with a constant

One function with one multiplication, by zero and by one.
-/

section Product

/-- A witness `u8` times a constant. -/
def mulBlock : Block where
  parameters := [(0, .witnessOf (.u 8))]
  instructions := [.binaryArithOp .mul 2 0 1]
  terminator := some (.return [2])

def mulFunction : Function where
  blocks := [(0, mulBlock)]
  returns := [.witnessOf (.u 8)]

def mulProgram (k : Nat) : SSA where
  functions := [(0, mulFunction)]
  mainId := 0
  nextFunctionId := 1
  nextValueId := 3
  constants := [(1, .u 8 k)]

theorem mulFunction_block {b : BlockId} {block : Block} (h : mulFunction.block b = some block) :
    b = 0 ∧ block = mulBlock := by
  have hmem := mem_of_lookup_eq_some (l := mulFunction.blocks) h
  simpa [mulFunction] using hmem

theorem mulFunction_definedIn {b : BlockId} {v : ValueId} (h : mulFunction.DefinedIn b v) :
    b = 0 ∧ (v = 0 ∨ v = 2) := by
  obtain ⟨block, hblock, hv⟩ := h
  obtain ⟨rfl, rfl⟩ := mulFunction_block hblock
  exact ⟨rfl, by simpa [Block.definitions, mulBlock, OpCode.results] using hv⟩

theorem mulProgram_wf (k : Nat) :
    Constants.WF ⟨(mulProgram k).constants, (mulProgram k).nextValueId⟩ where
  named := by simp [mulProgram]
  interned := by simp [mulProgram]
  below := by simp [mulProgram]

theorem mulFunction_ok (k : Nat) :
    FunctionOk mulFunction ⟨(mulProgram k).constants, (mulProgram k).nextValueId⟩ where
  keys := by simp [mulFunction]
  ssa := by
    refine ⟨fun b block h => ?_, fun v b b' h h' => ?_, fun b v h => ?_⟩
    · obtain ⟨-, rfl⟩ := mulFunction_block h
      decide
    · exact (mulFunction_definedIn h).1.trans (mulFunction_definedIn h').1.symm
    · obtain ⟨-, rfl | rfl⟩ := mulFunction_definedIn h <;> rfl
  strict := by
    refine ⟨fun b block pre op post _ h hsplit v hv => ?_, fun b block t _ h hterm v hv => ?_⟩
    · obtain ⟨-, rfl⟩ := mulFunction_block h
      obtain ⟨rfl, rfl, -⟩ : pre = [] ∧ op = .binaryArithOp .mul 2 0 1 ∧ post = [] := by
        simpa [mulBlock, List.cons_eq_append_iff] using hsplit
      obtain rfl | rfl : v = 0 ∨ v = 1 := by simpa [OpCode.inputs] using hv
      · exact .param h (by simp [mulBlock])
      · exact .constant rfl
    · obtain ⟨-, rfl⟩ := mulFunction_block h
      obtain rfl := Option.some.inj hterm
      obtain rfl : v = 2 := by simpa [Terminator.inputs] using hv
      exact .result (by simp [mulBlock, OpCode.results])
  below := fun b v h => by
    obtain ⟨-, rfl | rfl⟩ := mulFunction_definedIn h <;> simp [mulProgram]
  terminated := fun b block h => by
    obtain ⟨-, rfl⟩ := mulFunction_block h
    exact ⟨_, rfl⟩

theorem mulFunction_wellFormed (k : Nat) :
    WellFormed (signatures (mulProgram k).functions) [0] mulFunction
      ⟨(mulProgram k).constants, (mulProgram k).nextValueId⟩ where
  ok := mulFunction_ok k
  jumps := by
    refine ⟨_, rfl, fun b block target args _ h hterm => ?_⟩
    obtain ⟨-, rfl⟩ := mulFunction_block h
    simp [mulBlock] at hterm
  order := by
    refine ⟨by simp, fun b => ⟨fun hb => ?_, fun ⟨hist, hwalk⟩ => ?_⟩⟩
    · rw [List.mem_singleton.mp hb]
      exact ⟨[], .start⟩
    · cases hwalk with
      | start => simp [mulFunction]
      | step _ hedge =>
        obtain ⟨block, t, hblock, hterm, hb⟩ := hedge
        obtain ⟨-, rfl⟩ := mulFunction_block hblock
        obtain rfl := Option.some.inj hterm
        simp [Terminator.targets] at hb

/-- An execution in which overflows and casts to other types fail. -/
def strictCompletion : Completion Unit Unit where
  fnPtr _ := ()
  overflow _ _ _ _ := none
  shift _ _ _ _ _ := none
  cast _ _ := none
  pinnedWrite _ w := w
  op _ _ w := (w, none)

theorem strictCompletion_typed (sigs : FunctionId → Option (List TypeExpr × List TypeExpr)) :
    strictCompletion.Typed sigs where
  cast _ _ _ _ h := by simp [strictCompletion] at h
  op _ _ _ _ _ _ _ _ h := by simp [strictCompletion] at h

deriving instance DecidableEq for Raw, Value

/-- The entry state with a witness `u8`. -/
def mulState (x : BitVec 8) : State (Value Unit) Unit :=
  ⟨0, Env.bindAll (fun _ => none) [0] [⟨true, .int false 8 x⟩], ()⟩

theorem mulState_initial (x : BitVec 8) : mulFunction.Initial (mulState x) :=
  ⟨rfl, mulBlock, _, rfl, rfl⟩

theorem mulState_typed (x : BitVec 8) : ParamsTyped mulFunction (mulState x) := by
  intro block hblock p hp
  obtain ⟨-, rfl⟩ := mulFunction_block hblock
  obtain rfl := List.mem_singleton.mp hp
  exact ⟨_, rfl, rfl⟩

/-- A witness product with zero becomes the pure zero: what is returned has lost its
wrapper. -/
theorem doRun_mul_zero : ∃ ssa' f', doRun 1 (fun _ => [0]) (fun _ _ blocks => blocks)
      (mulProgram 0) = some ssa' ∧ ssa'.functions = [(0, f')] ∧
    (∀ p ∈ (mulProgram 0).functions, WellFormed (signatures (mulProgram 0).functions) [0] p.2
      ⟨(mulProgram 0).constants, (mulProgram 0).nextValueId⟩) ∧
    viewTerminator (valueSem strictCompletion)
      ((valueSem strictCompletion).table (mulProgram 0).constants) mulFunction (mulState 5#8)
        = some [⟨true, .int false 8 0#8⟩] ∧
    viewTerminator (valueSem strictCompletion)
      ((valueSem strictCompletion).table ssa'.constants) f' (mulState 5#8)
        = some [⟨false, .int false 8 0#8⟩] ∧
    ¬KeepsValues (signatures (mulProgram 0).functions)
      ⟨(mulProgram 0).constants, (mulProgram 0).nextValueId⟩
      ⟨ssa'.constants, ssa'.nextValueId⟩ mulFunction f' := by
  refine ⟨_, _, rfl, rfl, ?_, rfl, rfl, fun h => ?_⟩
  · intro p hp
    obtain rfl := List.mem_singleton.mp hp
    exact mulFunction_wellFormed 0
  · obtain ⟨hist', hrun, hrel⟩ := (h Unit Unit strictCompletion (mulState 5#8)
      (strictCompletion_typed _) (mulState_initial _) (mulState_typed _)).forward _ .start
    cases hrel with
    | cons hvisit hrest =>
      cases hrest
      cases hrun with
      | start => exact absurd hvisit.terminator (by decide)

/-- A product with one of the operand's type meets the condition. -/
theorem mulProgram_one_ok : FunctionsOk (signatures (mulProgram 1).functions) (fun _ => [0])
    (fun _ _ blocks => blocks) 1 (mulProgram 1).functions
      ⟨(mulProgram 1).constants, (mulProgram 1).nextValueId⟩ := by
  refine ⟨fun types htypes =>
      ⟨⟨⟨?_, fun _ _ => trivial⟩, fun _ _ => trivial⟩, fun _ _ _ => trivial⟩,
    fun _ _ _ => trivial⟩
  obtain rfl := Option.some.inj htypes
  intro op' hop' rewrite c' h
  obtain rfl : op' = .binaryArithOp .mul 2 0 1 := (Option.some.inj hop').symm
  have hzero : isZero ⟨(mulProgram 1).constants, (mulProgram 1).nextValueId⟩ 0 = false := rfl
  have hzero' : isZero ⟨(mulProgram 1).constants, (mulProgram 1).nextValueId⟩ 1 = false := rfl
  have hone : isOne ⟨(mulProgram 1).constants, (mulProgram 1).nextValueId⟩ 0 = false := rfl
  simp only [RuleOk, ArithOk, hzero, hzero', hone, Bool.false_eq_true, if_false]
  exact ⟨.u 8, .witnessOf (.u 8), rfl, rfl, Nat.le_refl 8, show 1 ≤ 8 by omega⟩

/-- The product with one is dropped, and the runs are the same. -/
theorem doRun_keepsValues_mul_one : ∃ ssa', doRun 1 (fun _ => [0]) (fun _ _ blocks => blocks)
      (mulProgram 1) = some ssa' ∧
    List.Forall₂ (fun p q => q.1 = p.1 ∧ KeepsValues (signatures (mulProgram 1).functions)
      ⟨(mulProgram 1).constants, (mulProgram 1).nextValueId⟩ ⟨ssa'.constants, ssa'.nextValueId⟩
        p.2 q.2) (mulProgram 1).functions ssa'.functions := by
  refine ⟨_, rfl, doRun_keepsValues (mulProgram 1) _ 1 (fun _ => [0]) (fun _ _ blocks => blocks)
    (fun _ _ _ => .refl _) (mulProgram_wf 1) ?_ mulProgram_one_ok rfl⟩
  intro p hp
  obtain rfl := List.mem_singleton.mp hp
  exact mulFunction_wellFormed 1

end Product

end Mavros.Simplifier
