/-
# `Mavros.Codegen.FunctionLayout` — the frame and the code of a whole function

Every value of a reachable block and every constant the function reads has a place, and
the places meet as `Placed` says.  The nops reserved at the end of a block are no other
block's, so the jumps put into them stay (`patchBlocks_spec`).

## What is proved

* `runBlocks_placed`: after all blocks everything a run can hold has a place.
* `runBlocks_reserves`: the reserved nops of the blocks lie in the code and do not meet.
* `patchBlocks_spec`: after the second pass over the blocks the code of every terminator stands
  where its block ends.

## How it goes

`FunctionOk` is what the earlier passes leave: strict single assignment, types, typed jumps, and an
order of the blocks in which dominators come first.  The order matters to the layout, since the
operand of a cast that emits no code must have its place before the result does.

Layout and code are two invariants of one walk, proved apart: one follows the list of values that
have places, the other the list of blocks whose nops are reserved.
-/
import Mavros.Codegen.FrameLayout

namespace Mavros.Codegen

open Hlssa Lib
open ConditionPropagation (CFG)

/-- What code generation expects of a function: it is in strict single-assignment form and
typed, jumps included, and a constant is multiplied with a witness. -/
structure FunctionOk (signatures : FunctionId → Option (List TypeExpr × List TypeExpr))
    (types : ValueId → Option TypeExpr) (cfg : CFG) (f : Function)
    (constants : List (ValueId × Constant)) : Prop where
  keys : (f.blocks.map Prod.fst).Nodup
  cfg : cfg.Correct f
  ssa : f.SingleAssignment constants
  strict : f.Strict constants
  typing : f.Typing signatures constants types
  jumps : JumpsTyped f types
  witness : ∀ b block r c v, f.block b = some block → .mulConst r c v ∈ block.instructions →
    ∃ t, types v = some (.witnessOf t)

section Results

variable {signatures : FunctionId → Option (List TypeExpr × List TypeExpr)}
  {types : ValueId → Option TypeExpr} {cfg : CFG} {f : Function}
  {constants : List (ValueId × Constant)}

theorem SharesPlace.results {op : Hlssa.OpCode} {r v : ValueId} (h : SharesPlace types op r v) :
    op.results = [r] ∧ op.inputs = [v] := by
  cases h with
  | cast => exact ⟨rfl, rfl⟩

theorem typeSize_arrayToSlice {t t' : TypeExpr}
    (h : CastTarget.resultType t .arrayToSlice = some t') :
    FrameLayouter.typeSize t' = FrameLayouter.typeSize t := by
  cases t <;> cases h
  rfl

theorem typeSize_witness {t : TypeExpr} (h : t.isWitnessOf) :
    FrameLayouter.typeSize t = some 1 := by
  cases t with
  | witnessOf t => rfl
  | _ => simp [TypeExpr.isWitnessOf] at h

/-- Of the instructions of a block one defines a value. -/
theorem eq_of_mem_results {ops : List Hlssa.OpCode} (hnodup : (ops.flatMap OpCode.results).Nodup)
    {op op' : Hlssa.OpCode} (hop : op ∈ ops) (hop' : op' ∈ ops) {v : ValueId}
    (hv : v ∈ op.results) (hv' : v ∈ op'.results) : op = op' := by
  induction ops with
  | nil => simp at hop
  | cons o ops ih =>
    rw [List.flatMap_cons, List.nodup_append] at hnodup
    have hlater : ∀ {o'}, o' ∈ ops → v ∈ o'.results → v ∉ o.results := fun ho' hv' hv =>
      hnodup.2.2 v hv v (List.mem_flatMap.mpr ⟨_, ho', hv'⟩) rfl
    rcases List.mem_cons.mp hop with rfl | htail
    · rcases List.mem_cons.mp hop' with rfl | htail'
      · rfl
      · exact absurd hv (hlater htail' hv')
    · rcases List.mem_cons.mp hop' with rfl | htail'
      · exact absurd hv' (hlater htail hv)
      · exact ih hnodup.2.1 htail htail'

namespace FunctionOk

variable (hok : FunctionOk signatures types cfg f constants)

include hok

theorem result_nodup {b : BlockId} {block : Block} (hblock : f.block b = some block) :
    (block.instructions.flatMap OpCode.results).Nodup :=
  (List.nodup_append.mp (hok.ssa.once b block hblock)).2.1

/-- No parameter is a result. -/
theorem not_result {b d : BlockId} {block dblock : Block} {v : ValueId}
    (hblock : f.block b = some block) (hv : v ∈ block.parameters.map Prod.fst)
    (hd : f.block d = some dblock) : v ∉ dblock.instructions.flatMap OpCode.results := by
  intro hres
  obtain rfl := hok.ssa.block v b d ⟨block, hblock, List.mem_append_left _ hv⟩
    ⟨dblock, hd, List.mem_append_right _ hres⟩
  obtain rfl := Option.some.inj (hblock.symm.trans hd)
  exact (List.nodup_append.mp (hok.ssa.once b block hblock)).2.2 v hv v hres rfl

theorem shares_iff {b : BlockId} {block : Block} {op : Hlssa.OpCode}
    (hb : Reachable f.entryBlock f.Edge b) (hblock : f.block b = some block)
    (hop : op ∈ block.instructions) {r : ValueId} (hr : r ∈ op.results) (u : ValueId) :
    Shares f types r u ↔ SharesPlace types op r u := by
  refine ⟨fun ⟨b', block', op', _, hblock', hop', hs⟩ => ?_,
    fun hs => ⟨b, block, op, hb, hblock, hop, hs⟩⟩
  have hr' : r ∈ op'.results := by
    rw [hs.results.1]
    exact List.mem_cons_self
  obtain rfl := hok.ssa.block r b b'
    ⟨block, hblock, List.mem_append_right _ (List.mem_flatMap.mpr ⟨op, hop, hr⟩)⟩
    ⟨block', hblock', List.mem_append_right _ (List.mem_flatMap.mpr ⟨op', hop', hr'⟩)⟩
  obtain rfl := Option.some.inj (hblock.symm.trans hblock')
  rwa [eq_of_mem_results (hok.result_nodup hblock) hop hop' hr hr']

theorem instructionOk {b : BlockId} {block : Block} {op : Hlssa.OpCode}
    (hb : Reachable f.entryBlock f.Edge b) (hblock : f.block b = some block)
    (hop : op ∈ block.instructions) : InstructionOk signatures types (Shares f types) op where
  typed := hok.typing.instruction b block hb hblock op hop
  witness r c v h := hok.witness b block r c v hblock (h ▸ hop)
  shares_iff _ hr u := hok.shares_iff hb hblock hop hr u

theorem param_not_shares {b : BlockId} {block : Block} (hblock : f.block b = some block)
    {v : ValueId} (hv : v ∈ block.parameters.map Prod.fst) (u : ValueId) :
    ¬Shares f types v u := by
  rintro ⟨d, dblock, op, -, hd, hop, hs⟩
  refine hok.not_result hblock hv hd (List.mem_flatMap.mpr ⟨op, hop, ?_⟩)
  rw [hs.results.1]
  exact List.mem_cons_self

theorem constant_not_shares {v : ValueId} (hv : (constants.lookup v).isSome) (u : ValueId) :
    ¬Shares f types v u := by
  rintro ⟨d, dblock, op, -, hd, hop, hs⟩
  have hdef : f.DefinedIn d v := by
    refine ⟨dblock, hd, List.mem_append_right _ (List.mem_flatMap.mpr ⟨op, hop, ?_⟩)⟩
    rw [hs.results.1]
    exact List.mem_cons_self
  rw [hok.ssa.noConstant d v hdef] at hv
  simp at hv

/-- A cast that emits no code keeps the number of words. -/
theorem valueSize_eq {v u : ValueId} (h : Shares f types v u) :
    valueSize types v = valueSize types u := by
  obtain ⟨b, block, op, hb, hblock, hop, hs⟩ := h
  obtain ⟨rs, hrs, htypes⟩ := hok.typing.instruction b block hb hblock op hop
  cases hs with
  | @cast r v target lType rType hv hr hpure hnop =>
    obtain ⟨t, ht, hrs⟩ := Option.bind_eq_some_iff.mp hrs
    obtain ⟨tr, htr, hrs⟩ := Option.bind_eq_some_iff.mp hrs
    obtain rfl := Option.some.inj hrs
    obtain rfl := Option.some.inj (hv.symm.trans ht)
    obtain rfl := Option.some.inj (hr.symm.trans (htypes _ List.mem_cons_self))
    rw [valueSize, valueSize, hv, hr, Option.bind_some, Option.bind_some]
    rcases hnop with rfl | rfl | rfl | ⟨hl, hr⟩
    · exact congrArg _ (Option.some.inj htr).symm
    · exact typeSize_arrayToSlice htr
    · rfl
    · rw [typeSize_witness hl, typeSize_witness hr]

end FunctionOk

end Results

/-! ## The layout of a function

Constants, parameters and results, in the order they are given places.
-/

section Layout

variable {B : Type} {emit : FrameLayouter → Hlssa.OpCode → Option (List (Instr B))}
  {signatures : FunctionId → Option (List TypeExpr × List TypeExpr)}
  {types : ValueId → Option TypeExpr} {cfg : CFG} {f : Function}
  {constants : List (ValueId × Constant)} {s s' : CodegenState B}

theorem runInstruction_layouter {op : Hlssa.OpCode}
    (h : runInstruction emit types s op = some s') :
    layoutInstruction types s.layouter op = some s'.layouter := by
  obtain ⟨l, hl, h⟩ := Option.bind_eq_some_iff.mp h
  obtain ⟨code, -, h⟩ := Option.bind_eq_some_iff.mp h
  obtain rfl := Option.some.inj h
  exact hl

theorem lays_instructions {ops : List Hlssa.OpCode}
    (hops : ∀ op ∈ ops, InstructionOk signatures types (Shares f types) op)
    (h : ops.foldlM (runInstruction emit types) s = some s') :
    Lays types (Shares f types) s.layouter s'.layouter (ops.flatMap OpCode.results) := by
  induction ops generalizing s with
  | nil =>
    obtain rfl := Option.some.inj h
    exact .refl
  | cons op ops ih =>
    rw [List.foldlM_cons, Option.bind_eq_bind, Option.bind_eq_some_iff] at h
    obtain ⟨s₁, h₁, h⟩ := h
    rw [List.forall_mem_cons] at hops
    exact (lays_instruction hops.1 (runInstruction_layouter h₁)).trans (ih hops.2 h)

variable (hok : FunctionOk signatures types cfg f constants)

include hok

theorem lays_blockBody {b : BlockId} {block : Block} (hb : Reachable f.entryBlock f.Edge b)
    (hblock : f.block b = some block) (h : runBlockBody emit types cfg s b block = some s') :
    Lays types (Shares f types) s.layouter s'.layouter
      (block.instructions.flatMap OpCode.results) := by
  obtain ⟨s₁, h₁, h⟩ := Option.bind_eq_some_iff.mp h
  obtain ⟨t, -, h⟩ := Option.bind_eq_some_iff.mp h
  obtain ⟨code, -, h⟩ := Option.bind_eq_some_iff.mp h
  obtain rfl := Option.some.inj h
  have hlays := lays_instructions (fun op hop => hok.instructionOk hb hblock hop) h₁
  exact hlays

theorem lays_parameters {l l' : FrameLayouter} {b : BlockId} {block : Block}
    (hb : Reachable f.entryBlock f.Edge b) (hblock : f.block b = some block)
    (h : allocParameters l block.parameters = some l') :
    Lays types (Shares f types) l l' (block.parameters.map Prod.fst) :=
  lays_allocParameters (hok.typing.param b block hb hblock)
    (fun _ hp => hok.param_not_shares hblock (List.mem_map_of_mem hp)) h

theorem lays_block {b : BlockId} (hb : Reachable f.entryBlock f.Edge b)
    (h : runBlock emit types cfg f s b = some s') :
    ∃ block, f.block b = some block ∧
      Lays types (Shares f types) s.layouter s'.layouter block.definitions := by
  obtain ⟨block, hblock, h⟩ := Option.bind_eq_some_iff.mp h
  obtain ⟨l, hl, h⟩ := Option.bind_eq_some_iff.mp h
  exact ⟨block, hblock, (lays_parameters hok hb hblock hl).trans (lays_blockBody hok hb hblock h)⟩

theorem lays_constants {l l' : FrameLayouter} {cs : List (ValueId × Constant)}
    (hcs : ∀ p ∈ cs, constants.lookup p.1 = some p.2) {code : List Bytecode.OpCode}
    (h : materializeConstants l cs = some (l', code)) :
    Lays types (Shares f types) l l' (cs.map Prod.fst) := by
  induction cs generalizing l code with
  | nil =>
    obtain ⟨rfl, -⟩ := Prod.mk.inj (Option.some.inj h)
    exact .refl
  | cons p cs ih =>
    obtain ⟨v, c⟩ := p
    obtain ⟨hc, hcs⟩ := List.forall_mem_cons.mp hcs
    obtain ⟨⟨l₁, code₁⟩, h₁, h⟩ := Option.bind_eq_some_iff.mp h
    obtain ⟨⟨l₂, code₂⟩, h₂, h⟩ := Option.bind_eq_some_iff.mp h
    obtain ⟨rfl, -⟩ := Prod.mk.inj (Option.some.inj h)
    have htype := hok.typing.constant v c hc
    have hown : ∀ u, ¬Shares f types v u := hok.constant_not_shares (by rw [hc]; rfl)
    suffices hfirst : Lays types (Shares f types) l l₁ [v] from hfirst.trans (ih hcs h₂)
    cases c with
    | u size val =>
      obtain ⟨⟨l₃, p⟩, h₃, h₁⟩ := Option.bind_eq_some_iff.mp h₁
      obtain ⟨rfl, -⟩ := Prod.mk.inj (Option.some.inj h₁)
      exact lays_allocU64 htype (.inl rfl) hown h₃
    | i size val =>
      obtain ⟨⟨l₃, p⟩, h₃, h₁⟩ := Option.bind_eq_some_iff.mp h₁
      obtain ⟨rfl, -⟩ := Prod.mk.inj (Option.some.inj h₁)
      exact lays_allocU64 htype (.inr (.inl rfl)) hown h₃
    | field val =>
      obtain ⟨rfl, -⟩ := Prod.mk.inj (Option.some.inj h₁)
      exact lays_allocField htype rfl hown
    | fnPtr fn => exact nomatch h₁

omit hok in
theorem referencedConstants_mem {p : ValueId × Constant}
    (h : p ∈ referencedConstants f constants) : constants.lookup p.1 = some p.2 := by
  obtain ⟨v, -, hv⟩ := List.mem_filterMap.mp h
  obtain ⟨c, hc, rfl⟩ := Option.map_eq_some_iff.mp hv
  exact hc

omit hok in
/-- Every constant that is read is materialised. -/
theorem mem_referencedConstants {v : ValueId} (hv : v ∈ reads f)
    (hc : (constants.lookup v).isSome) :
    v ∈ (referencedConstants f constants).map Prod.fst := by
  obtain ⟨c, hc⟩ := Option.isSome_iff_exists.mp hc
  refine List.mem_map.mpr ⟨(v, c), List.mem_filterMap.mpr ⟨v, ?_, by rw [hc]; rfl⟩, rfl⟩
  rw [List.mem_insertionSort, List.mem_dedup]
  exact hv

omit hok in
theorem referencedConstants_nodup : ((referencedConstants f constants).map Prod.fst).Nodup := by
  have hsorted : ((reads f).dedup.insertionSort (· ≤ ·)).Nodup :=
    (List.perm_insertionSort _ _).nodup_iff.mpr (List.nodup_dedup _)
  have hsub : ((referencedConstants f constants).map Prod.fst).Sublist
      ((reads f).dedup.insertionSort (· ≤ ·)) := by
    unfold referencedConstants
    generalize (reads f).dedup.insertionSort (· ≤ ·) = vs
    induction vs with
    | nil => exact .slnil
    | cons v vs ih =>
      rw [List.filterMap_cons]
      cases hc : constants.lookup v with
      | none => exact ih.cons v
      | some c => exact ih.cons_cons v
  exact hsub.nodup hsorted

/-- The values of the blocks after the entry, in the order they are given places. -/
theorem lays_blocks {bs : List BlockId} (hbs : ∀ b ∈ bs, Reachable f.entryBlock f.Edge b)
    (h : bs.foldlM (runBlock emit types cfg f) s = some s') :
    ∃ vs, Lays types (Shares f types) s.layouter s'.layouter vs ∧
      (∀ v, v ∈ vs ↔ ∃ b ∈ bs, f.DefinedIn b v) ∧ (bs.Nodup → vs.Nodup) := by
  induction bs generalizing s with
  | nil =>
    obtain rfl := Option.some.inj h
    exact ⟨[], .refl, by simp, fun _ => .nil⟩
  | cons b bs ih =>
    rw [List.foldlM_cons, Option.bind_eq_bind, Option.bind_eq_some_iff] at h
    obtain ⟨s₁, h₁, h⟩ := h
    rw [List.forall_mem_cons] at hbs
    obtain ⟨block, hblock, hl⟩ := lays_block hok hbs.1 h₁
    obtain ⟨vs, hl', hmem, hnodup⟩ := ih hbs.2 h
    have hdefs : ∀ v, v ∈ block.definitions ↔ f.DefinedIn b v := fun v =>
      ⟨fun hv => ⟨block, hblock, hv⟩, fun ⟨block', hblock', hv⟩ => by
        obtain rfl := Option.some.inj (hblock.symm.trans hblock')
        exact hv⟩
    refine ⟨block.definitions ++ vs, hl.trans hl', fun v => ?_, fun hnd => ?_⟩
    · rw [List.mem_append, hmem, hdefs]
      simp
    · rw [List.nodup_cons] at hnd
      refine List.nodup_append.mpr ⟨hok.ssa.once b block hblock, hnodup hnd.2, ?_⟩
      rintro v hv w hw rfl
      obtain ⟨b', hb', hdef⟩ := (hmem v).mp hw
      exact hnd.1 (hok.ssa.block v b b' ((hdefs v).mp hv) hdef ▸ hb')

/-- Everything a run can hold has a place. -/
theorem runBlocks_placed (h : runBlocks emit types cfg f constants = some s) :
    ∃ vs, Placed types (Shares f types) s.layouter vs ∧
      (∀ b v, Reachable f.entryBlock f.Edge b → f.DefinedIn b v → v ∈ vs) ∧
        (∀ v ∈ reads f, (constants.lookup v).isSome → v ∈ vs) ∧ 2 ≤ s.layouter.nextFree := by
  obtain ⟨s₁, h₁, h⟩ := Option.bind_eq_some_iff.mp h
  obtain ⟨entry, hentry, h₁⟩ := Option.bind_eq_some_iff.mp h₁
  obtain ⟨l₁, hl₁, h₁⟩ := Option.bind_eq_some_iff.mp h₁
  obtain ⟨⟨l₂, code⟩, hl₂, h₁⟩ := Option.bind_eq_some_iff.mp h₁
  have hreach : Reachable f.entryBlock f.Edge f.entryBlock := ⟨[], .start⟩
  have hlays := ((lays_parameters hok hreach hentry hl₁).trans
    (lays_constants hok (fun p hp => referencedConstants_mem hp) hl₂)).trans
      (lays_blockBody hok hreach hentry h₁)
  obtain ⟨vs, hlays', hmem, hnodup⟩ := lays_blocks hok (fun b hb =>
    (hok.cfg.mem_preOrder b).mp (List.mem_of_mem_filter hb)) h
  have hvs : vs.Nodup := hnodup (hok.cfg.nodup_preOrder.filter _)
  have hall := hlays.trans hlays'
  set cs := (referencedConstants f constants).map Prod.fst
  have hconst : ∀ v ∈ cs, ∀ b, ¬f.DefinedIn b v := by
    intro v hv b hdef
    obtain ⟨p, hp, rfl⟩ := List.mem_map.mp hv
    have hlookup := referencedConstants_mem hp
    rw [hok.ssa.noConstant b _ hdef] at hlookup
    simp at hlookup
  have hentryDef : ∀ v ∈ entry.definitions, f.DefinedIn f.entryBlock v := fun v hv =>
    ⟨entry, hentry, hv⟩
  have hperm : (entry.parameters.map Prod.fst ++ cs ++
      entry.instructions.flatMap OpCode.results).Perm (cs ++ entry.definitions) := by
    rw [Block.definitions, ← List.append_assoc]
    exact List.perm_append_comm.append_right _
  have hentryNodup : (cs ++ entry.definitions).Nodup := by
    refine List.nodup_append.mpr ⟨referencedConstants_nodup, hok.ssa.once _ _ hentry, ?_⟩
    rintro v hv w hw rfl
    exact hconst v hv _ (hentryDef v hw)
  -- a value of the entry or a constant is not defined in a later block
  have hnd : (entry.parameters.map Prod.fst ++ cs ++
      entry.instructions.flatMap OpCode.results ++ vs).Nodup := by
    refine List.nodup_append.mpr ⟨hperm.nodup_iff.mpr hentryNodup, hvs, ?_⟩
    rintro v hv w hw rfl
    obtain ⟨b, hb, hdef⟩ := (hmem v).mp hw
    rcases List.mem_append.mp (hperm.mem_iff.mp hv) with hv | hv
    · exact hconst v hv b hdef
    · have hne := List.of_mem_filter hb
      simp [hok.ssa.block v b _ hdef (hentryDef v hv)] at hne
  refine ⟨_, placed_nil.lays (fun v u => hok.valueSize_eq) (Nat.le_refl _) hall hnd,
    fun b v hb hdef => ?_, fun v hv hc => ?_, hall.nextFree_le⟩
  · rw [List.nil_append, List.mem_append]
    by_cases hbe : b = f.entryBlock
    · subst hbe
      obtain ⟨block, hblock, hv⟩ := hdef
      obtain rfl := Option.some.inj (hentry.symm.trans hblock)
      exact .inl (hperm.mem_iff.mpr (List.mem_append_right _ hv))
    · refine .inr ((hmem v).mpr ⟨b, List.mem_filter.mpr ⟨(hok.cfg.mem_preOrder b).mpr hb, ?_⟩,
        hdef⟩)
      exact decide_eq_true hbe
  · rw [List.nil_append, List.mem_append]
    exact .inl (hperm.mem_iff.mpr (List.mem_append_left _ (mem_referencedConstants hv hc)))

end Layout

/-! ## The code of a function

Code is appended, so reserved nops stay where they are.
-/

section Code

variable {B : Type} {emit : FrameLayouter → Hlssa.OpCode → Option (List (Instr B))}
  {types : ValueId → Option TypeExpr} {cfg : CFG} {f : Function}
  {constants : List (ValueId × Constant)} {s s' : CodegenState B}

/-- The nops reserved for a terminator. -/
def reserved (cfg : CFG) (b : BlockId) : Terminator → Nat
  | .jmp target params => (if cfg.dominates target b then 2 * params.length else params.length) + 1
  | .jmpIf _ _ _ => 1
  | .return _ => 0

theorem reserved_le_exitCode {l : FrameLayouter} {b : BlockId} {t : Terminator}
    {code : List (Instr B)} (h : exitCode types cfg l b t = some code) :
    reserved cfg b t ≤ code.length := by
  cases t with
  | jmp target params =>
    obtain rfl := Option.some.inj h
    simp [reserved]
  | jmpIf cond ifT ifF =>
    obtain rfl := Option.some.inj h
    exact Nat.le_refl _
  | «return» vals => exact Nat.zero_le _

/-- The reserved nops of the blocks `bs` lie in the code and do not meet. -/
structure Reserves (cfg : CFG) (f : Function) (e : EmitterState B) (bs : List BlockId) : Prop where
  mem : ∀ b c, e.blockExits.lookup b = some c → b ∈ bs
  room : ∀ b block t c, f.block b = some block → block.terminator = some t →
    e.blockExits.lookup b = some c → c + reserved cfg b t ≤ e.code.length
  apart : ∀ b b' block block' t t' c c', b ≠ b' → f.block b = some block →
    f.block b' = some block' → block.terminator = some t → block'.terminator = some t' →
      e.blockExits.lookup b = some c → e.blockExits.lookup b' = some c' →
        Apart c (reserved cfg b t) c' (reserved cfg b' t')

theorem reserves_init (code : List (Instr B)) : Reserves cfg f { code } [] :=
  ⟨nofun, nofun, nofun⟩

/-- Instructions add to the code and do nothing else. -/
theorem runInstructions_emitter {ops : List Hlssa.OpCode}
    (h : ops.foldlM (runInstruction emit types) s = some s') :
    ∃ code, s'.emitter = s.emitter.push code := by
  induction ops generalizing s with
  | nil =>
    obtain rfl := Option.some.inj h
    exact ⟨[], by simp [EmitterState.push]⟩
  | cons op ops ih =>
    rw [List.foldlM_cons, Option.bind_eq_bind, Option.bind_eq_some_iff] at h
    obtain ⟨s₁, h₁, h⟩ := h
    obtain ⟨l, -, h₁⟩ := Option.bind_eq_some_iff.mp h₁
    obtain ⟨code₁, -, h₁⟩ := Option.bind_eq_some_iff.mp h₁
    obtain rfl := Option.some.inj h₁
    obtain ⟨code₂, hcode⟩ := ih h
    exact ⟨code₁ ++ code₂, by rw [hcode]; simp [EmitterState.push]⟩

/-- A block's reserved nops come after all code there was. -/
theorem Reserves.blockBody {bs : List BlockId} (h : Reserves cfg f s.emitter bs) {b : BlockId}
    {block : Block} (hb : b ∉ bs) (hblock : f.block b = some block)
    (hrun : runBlockBody emit types cfg s b block = some s') :
    Reserves cfg f s'.emitter (b :: bs) := by
  obtain ⟨s₁, h₁, hrun⟩ := Option.bind_eq_some_iff.mp hrun
  obtain ⟨t, ht, hrun⟩ := Option.bind_eq_some_iff.mp hrun
  obtain ⟨code, hcode, hrun⟩ := Option.bind_eq_some_iff.mp hrun
  obtain rfl := Option.some.inj hrun
  obtain ⟨body, hbody⟩ := runInstructions_emitter h₁
  have hexits : s₁.emitter.blockExits = s.emitter.blockExits := by rw [hbody]; rfl
  have hlength : s.emitter.code.length ≤ s₁.emitter.code.length := by
    rw [hbody]
    simp [EmitterState.push, EmitterState.enterBlock]
  have hroom := reserved_le_exitCode hcode
  set e := (s₁.emitter.exitBlock b).push code with he
  have hend : e.code.length = s₁.emitter.code.length + code.length := by
    simp [he, EmitterState.push, EmitterState.exitBlock]
  have hself : e.blockExits.lookup b = some s₁.emitter.code.length := by
    simp [he, EmitterState.push, EmitterState.exitBlock]
  have hother : ∀ {b'}, b' ≠ b → e.blockExits.lookup b' = s.emitter.blockExits.lookup b' := by
    intro b' hne
    show List.lookup b' ((b, _) :: s₁.emitter.blockExits) = _
    rw [List.lookup_cons, beq_false_of_ne hne, hexits]
  show Reserves cfg f e (b :: bs)
  refine ⟨fun b' c hc => ?_, fun b' block' t' c hblock' ht' hc => ?_,
    fun b' b'' block' block'' t' t'' c c' hne hblock' hblock'' ht' ht'' hc hc' => ?_⟩
  · by_cases hbb : b' = b
    · exact List.mem_cons.mpr (.inl hbb)
    · exact List.mem_cons_of_mem _ (h.mem b' c ((hother hbb).symm.trans hc))
  · by_cases hbb : b' = b
    · subst hbb
      obtain rfl := Option.some.inj (hblock.symm.trans hblock')
      obtain rfl := Option.some.inj (ht.symm.trans ht')
      obtain rfl := Option.some.inj (hself.symm.trans hc)
      omega
    · have hle := h.room b' block' t' c hblock' ht' ((hother hbb).symm.trans hc)
      omega
  · by_cases hbb : b' = b
    · subst hbb
      have hle := h.room b'' block'' t'' c' hblock'' ht'' ((hother (Ne.symm hne)).symm.trans hc')
      obtain rfl := Option.some.inj (hself.symm.trans hc)
      exact .inr (hle.trans hlength)
    · have hle := h.room b' block' t' c hblock' ht' ((hother hbb).symm.trans hc)
      by_cases hbb' : b'' = b
      · subst hbb'
        obtain rfl := Option.some.inj (hself.symm.trans hc')
        exact .inl (hle.trans hlength)
      · exact h.apart b' b'' block' block'' t' t'' c c' hne hblock' hblock'' ht' ht''
          ((hother hbb).symm.trans hc) ((hother hbb').symm.trans hc')

theorem Reserves.blocks {done bs : List BlockId} (h : Reserves cfg f s.emitter done)
    (hnodup : bs.Nodup) (hdisj : ∀ b ∈ bs, b ∉ done)
    (hrun : bs.foldlM (runBlock emit types cfg f) s = some s') :
    Reserves cfg f s'.emitter (bs.reverse ++ done) := by
  induction bs generalizing s done with
  | nil =>
    obtain rfl := Option.some.inj hrun
    exact h
  | cons b bs ih =>
    rw [List.foldlM_cons, Option.bind_eq_bind, Option.bind_eq_some_iff] at hrun
    obtain ⟨s₁, h₁, hrun⟩ := hrun
    obtain ⟨block, hblock, h₁⟩ := Option.bind_eq_some_iff.mp h₁
    obtain ⟨l, -, h₁⟩ := Option.bind_eq_some_iff.mp h₁
    rw [List.nodup_cons] at hnodup
    rw [List.forall_mem_cons] at hdisj
    have hbody := Reserves.blockBody (s := { s with layouter := l }) h hdisj.1 hblock h₁
    have hrest := ih hbody hnodup.2 (fun b' hb' hmem => ?_) hrun
    · simpa using hrest
    · rcases List.mem_cons.mp hmem with rfl | hmem
      · exact hnodup.1 hb'
      · exact hdisj.2 b' hb' hmem

/-- The blocks that are emitted are the ones of the walk. -/
theorem runBlocks_reserves (hcfg : cfg.Correct f)
    (h : runBlocks emit types cfg f constants = some s) :
    ∃ bs, Reserves cfg f s.emitter bs ∧ ∀ b ∈ bs, Reachable f.entryBlock f.Edge b := by
  obtain ⟨s₁, h₁, h⟩ := Option.bind_eq_some_iff.mp h
  obtain ⟨entry, hentry, h₁⟩ := Option.bind_eq_some_iff.mp h₁
  obtain ⟨l₁, -, h₁⟩ := Option.bind_eq_some_iff.mp h₁
  obtain ⟨⟨l₂, code⟩, -, h₁⟩ := Option.bind_eq_some_iff.mp h₁
  have hinit : Reserves cfg f s₁.emitter [f.entryBlock] :=
    (reserves_init _).blockBody List.not_mem_nil hentry h₁
  refine ⟨_, hinit.blocks (hcfg.nodup_preOrder.filter _) (fun b hb hmem => ?_) h, fun b hb => ?_⟩
  · have hne := List.of_mem_filter hb
    simp [List.mem_singleton.mp hmem] at hne
  · rcases List.mem_append.mp hb with hb | hb
    · exact (hcfg.mem_preOrder b).mp (List.mem_of_mem_filter (List.mem_reverse.mp hb))
    · obtain rfl := List.mem_singleton.mp hb
      exact ⟨[], .start⟩

/-! ### Filling in the jumps -/

/-- What `writeAt` writes can be read back, and the rest is as before. -/
theorem writeAt_spec {α : Type} {code code' : List α} {c : Nat} {xs : List α}
    (h : writeAt code c xs = some code') :
    (∀ i < xs.length, code'[c + i]? = xs[i]?) ∧
      ∀ j, j < c ∨ c + xs.length ≤ j → code'[j]? = code[j]? := by
  induction xs generalizing code c with
  | nil =>
    obtain rfl := Option.some.inj h
    exact ⟨nofun, fun _ _ => rfl⟩
  | cons x xs ih =>
    rw [writeAt] at h
    split at h
    · next hc =>
      obtain ⟨hin, hout⟩ := ih h
      refine ⟨fun i hi => ?_, fun j hj => ?_⟩
      · cases i with
        | zero =>
          rw [hout (c + 0) (.inl (Nat.lt_succ_self c))]
          simp [hc]
        | succ i =>
          have hread := hin i (by simpa using hi)
          rwa [Nat.add_right_comm] at hread
      · rw [List.length_cons] at hj
        rw [hout j (by omega), List.getElem?_set_ne (by omega)]
    · simp at h

/-- The copies a jump asks for. -/
def copies (l : FrameLayouter) : List (ValueId × ValueId × TypeExpr) → Option (List BlockCopy)
  | [] => some []
  | (arg, param, tp) :: rest => do
    let size ← FrameLayouter.typeSize tp
    let target ← l.getValue param
    let source ← l.getValue arg
    return ⟨size, target, source⟩ :: (← copies l rest)

def moveOp (c : BlockCopy) : Bytecode.OpCode := .movFrame c.size c.target c.source

/-- The copies that are made: on a back-edge they are staged. -/
def jumpCopies (cfg : CFG) (scratchBase : Nat) (b target : BlockId) (cs : List BlockCopy) :
    List BlockCopy :=
  if cfg.dominates target b then stage scratchBase cs ++ unstage scratchBase cs else cs

theorem copies_length {l : FrameLayouter} {pairs : List (ValueId × ValueId × TypeExpr)}
    {cs : List BlockCopy} (h : copies l pairs = some cs) : cs.length = pairs.length := by
  induction pairs generalizing cs with
  | nil =>
    obtain rfl := Option.some.inj h
    rfl
  | cons p pairs ih =>
    obtain ⟨arg, param, tp⟩ := p
    simp only [copies, Option.bind_eq_bind, Option.bind_eq_some_iff, Option.pure_def,
      Option.some.injEq] at h
    obtain ⟨size, -, target, -, source, -, rest, hrest, rfl⟩ := h
    rw [List.length_cons, List.length_cons, ih hrest]

theorem forwardMoves_eq {l : FrameLayouter} {pairs : List (ValueId × ValueId × TypeExpr)}
    {moves : List Bytecode.OpCode} (h : forwardMoves l pairs = some moves) :
    ∃ cs, copies l pairs = some cs ∧ moves = cs.map moveOp := by
  induction pairs generalizing moves with
  | nil =>
    obtain rfl := Option.some.inj h
    exact ⟨[], rfl, rfl⟩
  | cons p pairs ih =>
    obtain ⟨arg, param, tp⟩ := p
    simp only [forwardMoves, Option.bind_eq_bind, Option.bind_eq_some_iff, Option.pure_def,
      Option.some.injEq] at h
    obtain ⟨size, hsize, target, htarget, source, hsource, rest, hrest, rfl⟩ := h
    obtain ⟨cs, hcs, rfl⟩ := ih hrest
    exact ⟨⟨size, target, source⟩ :: cs, by simp [copies, hsize, htarget, hsource, hcs], rfl⟩

theorem stagedMoves_eq {l : FrameLayouter} {scratch : Nat}
    {pairs : List (ValueId × ValueId × TypeExpr)} {ins outs : List Bytecode.OpCode}
    (hins : scratchMoves l scratch pairs = some ins)
    (houts : parameterMoves l scratch pairs = some outs) :
    ∃ cs, copies l pairs = some cs ∧ ins = (stage scratch cs).map moveOp ∧
      outs = (unstage scratch cs).map moveOp := by
  induction pairs generalizing scratch ins outs with
  | nil =>
    obtain rfl := Option.some.inj hins
    obtain rfl := Option.some.inj houts
    exact ⟨[], rfl, rfl, rfl⟩
  | cons p pairs ih =>
    obtain ⟨arg, param, tp⟩ := p
    simp only [scratchMoves, parameterMoves, Option.bind_eq_bind, Option.bind_eq_some_iff,
      Option.pure_def, Option.some.injEq] at hins houts
    obtain ⟨size, hsize, source, hsource, restIn, hrestIn, rfl⟩ := hins
    obtain ⟨size', hsize', target, htarget, restOut, hrestOut, rfl⟩ := houts
    obtain rfl := Option.some.inj (hsize.symm.trans hsize')
    obtain ⟨cs, hcs, rfl, rfl⟩ := ih hrestIn hrestOut
    exact ⟨⟨size, target, source⟩ :: cs, by simp [copies, hsize, htarget, hsource, hcs], rfl, rfl⟩

theorem jumpMoves_eq {l : FrameLayouter} {scratchBase : Nat} {b target : BlockId}
    {pairs : List (ValueId × ValueId × TypeExpr)} {moves : List Bytecode.OpCode}
    (h : jumpMoves cfg l scratchBase b target pairs = some moves) :
    ∃ cs, copies l pairs = some cs ∧
      moves = (jumpCopies cfg scratchBase b target cs).map moveOp := by
  unfold jumpMoves at h
  unfold jumpCopies
  split at h
  · next hdom =>
    simp only [Option.bind_eq_bind, Option.bind_eq_some_iff, Option.pure_def,
      Option.some.injEq] at h
    obtain ⟨ins, hins, outs, houts, rfl⟩ := h
    obtain ⟨cs, hcs, rfl, rfl⟩ := stagedMoves_eq hins houts
    exact ⟨cs, hcs, by simp [hdom]⟩
  · next hdom =>
    obtain ⟨cs, hcs, rfl⟩ := forwardMoves_eq h
    exact ⟨cs, hcs, by simp [hdom]⟩

/-- A jump fits into the nops reserved for it. -/
theorem terminatorCode_length {scratchBase : Nat} {b : BlockId} {t : Terminator}
    {code : List (Instr B)} (h : terminatorCode cfg f s scratchBase b t = some code) :
    code.length ≤ reserved cfg b t := by
  cases t with
  | jmp target args =>
    simp only [terminatorCode, Option.bind_eq_bind, Option.bind_eq_some_iff, Option.pure_def,
      Option.some.injEq] at h
    obtain ⟨targetBlock, -, moves, hmoves, entrance, -, rfl⟩ := h
    obtain ⟨cs, hcs, rfl⟩ := jumpMoves_eq hmoves
    have hlen : cs.length ≤ args.length := by
      rw [copies_length hcs, List.length_zip]
      exact Nat.min_le_left _ _
    simp only [reserved, jumpCopies, List.length_append, List.length_map, List.length_singleton]
    split
    · simp only [List.length_append, length_stage, length_unstage]
      omega
    · omega
  | jmpIf cond ifT ifF =>
    simp only [terminatorCode, Option.bind_eq_bind, Option.bind_eq_some_iff, Option.pure_def,
      Option.some.injEq] at h
    obtain ⟨c, -, ct, -, cf, -, rfl⟩ := h
    exact Nat.le_refl _
  | «return» vals =>
    obtain rfl := Option.some.inj h
    exact Nat.zero_le _

theorem patchBlock_spec {scratchBase : Nat} {code code' : List (Instr B)} {p : BlockId × Block}
    (h : patchBlock cfg f s scratchBase code p = some code') :
    ∃ c t ops, s.emitter.blockExits.lookup p.1 = some c ∧ p.2.terminator = some t ∧
      terminatorCode cfg f s scratchBase p.1 t = some ops ∧
        (∀ i < ops.length, code'[c + i]? = ops[i]?) ∧
          ∀ j, j < c ∨ c + reserved cfg p.1 t ≤ j → code'[j]? = code[j]? := by
  obtain ⟨c, hc, h⟩ := Option.bind_eq_some_iff.mp h
  obtain ⟨t, ht, h⟩ := Option.bind_eq_some_iff.mp h
  obtain ⟨ops, hops, h⟩ := Option.bind_eq_some_iff.mp h
  obtain ⟨hin, hout⟩ := writeAt_spec h
  have hle := terminatorCode_length hops
  exact ⟨c, t, ops, hc, ht, hops, hin, fun j hj => hout j (by omega)⟩

/-- The code of every terminator stands where its block ends. -/
theorem patchBlocks_spec {scratchBase : Nat} {bs : List BlockId}
    (hres : Reserves cfg f s.emitter bs) {ps : List (BlockId × Block)}
    (hnodup : (ps.map Prod.fst).Nodup) (hps : ∀ p ∈ ps, f.block p.1 = some p.2)
    {code code' : List (Instr B)}
    (h : ps.foldlM (patchBlock cfg f s scratchBase) code = some code') :
    (∀ p ∈ ps, ∃ c t ops, s.emitter.blockExits.lookup p.1 = some c ∧ p.2.terminator = some t ∧
      terminatorCode cfg f s scratchBase p.1 t = some ops ∧
        ∀ i < ops.length, code'[c + i]? = ops[i]?) ∧
    ∀ j, (∀ p ∈ ps, ∀ c t, s.emitter.blockExits.lookup p.1 = some c → p.2.terminator = some t →
      j < c ∨ c + reserved cfg p.1 t ≤ j) → code'[j]? = code[j]? := by
  induction ps generalizing code with
  | nil =>
    obtain rfl := Option.some.inj h
    exact ⟨nofun, fun _ _ => rfl⟩
  | cons p ps ih =>
    rw [List.foldlM_cons, Option.bind_eq_bind, Option.bind_eq_some_iff] at h
    obtain ⟨code₁, h₁, h⟩ := h
    rw [List.map_cons, List.nodup_cons] at hnodup
    obtain ⟨hp, hps⟩ := List.forall_mem_cons.mp hps
    obtain ⟨c, t, ops, hc, ht, hops, hin, hout⟩ := patchBlock_spec h₁
    obtain ⟨hlater, hrest⟩ := ih hnodup.2 hps h
    refine ⟨List.forall_mem_cons.mpr ⟨⟨c, t, ops, hc, ht, hops, fun i hi => ?_⟩, hlater⟩,
      fun j hj => ?_⟩
    · -- the later jumps are put elsewhere
      rw [hrest (c + i) fun q hq c' t' hc' ht' => ?_, hin i hi]
      have hne : p.1 ≠ q.1 := fun heq => hnodup.1 (heq ▸ List.mem_map_of_mem hq)
      have hapart := hres.apart p.1 q.1 p.2 q.2 t t' c c' hne hp (hps q hq) ht ht' hc hc'
      have hle := terminatorCode_length hops
      unfold Apart at hapart
      omega
    · obtain ⟨hjp, hjps⟩ := List.forall_mem_cons.mp hj
      rw [hrest j hjps]
      exact hout j (hjp c t hc ht)

end Code

end Mavros.Codegen
