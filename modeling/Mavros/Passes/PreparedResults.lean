/-
# `Mavros.Passes.PreparedResults` — which uses see the prepared value

The pass numbers the prepared values of a function in the order of their calls, so
the whole replacement is one renaming, `rename`; what a block sees of it is the part
its own earlier calls have put into the map.  Comparing the two gives the exact
programs on which no use is left on a raw result: those that use it only in the block
of its call.

## What is proved

`resultsBound_iff`: the pass binds every result of an unconstrained call to the witness before it
is used, in every function, exactly when all uses of raw results are local (`LocalUses`).  Local
means behind the call and in its block, and is decidable on the program.

`rawUse_lateUse` is the defect: a result that is asserted behind a jump keeps its raw name in
the assertion, and nothing in the constraint system speaks about it.

## How it goes

The pass in closed form comes first.  `processBlock_spec` says what a block becomes when the
map holds the results of its earlier calls, numbered from some value on, and `processBlocks_spec`
does it for a function; `PreparedBy` is what the result should be, one renaming over all blocks.
The two coincide if each use is renamed by the block's own map, which is what `LocalUses` says;
and if one is not, the raw value is still read (`mem_keys_of_rename_eq`).
-/
import Mathlib.Data.List.Flatten
import Mathlib.Data.List.Nodup
import Mavros.Lib.Lists
import Mavros.Passes.PreparedRanges

namespace Mavros.PrepareEntryPoint

open Hlssa Hlssa.Emit

/-! ## Raw results -/

/-- The results of static unconstrained calls, guarded or not. -/
def rawResults : OpCode → List ValueId
  | .call results (.static _) _ true => results
  | .guard _ inner => rawResults inner
  | _ => []

def blockRawResults (block : Block) : List ValueId := block.instructions.flatMap rawResults

def functionRawResults (f : Function) : List ValueId :=
  f.blocks.flatMap fun b => blockRawResults b.2

/-- The values an instruction list defines. -/
def definitions (instrs : List OpCode) : List ValueId := instrs.flatMap OpCode.results

def functionDefinitions (f : Function) : List ValueId :=
  f.blocks.flatMap fun b => definitions b.2.instructions

section Pass

variable (returnsOf : FunctionId → List TypeExpr) (fns : List PrepareFnEntry)

/-- The results the pass prepares at an instruction. -/
def bound (op : OpCode) : List ValueId := (callResults returnsOf op).map (·.1)

def boundAll (instrs : List OpCode) : List ValueId := instrs.flatMap (bound returnsOf)

def functionBound (f : Function) : List ValueId :=
  f.blocks.flatMap fun b => boundAll returnsOf b.2.instructions

/-- The prepare function of a type; `0` where there is none. -/
def prepareFnOf (t : TypeExpr) : FunctionId := (findPrepareFn t fns).getD 0

/-- The prepare function of a type has been made. -/
def Made (t : TypeExpr) : Prop := ⟨t, prepareFnOf fns t⟩ ∈ fns

/-- An instruction with the prepare calls of its results behind it, the prepared value
of `v` being `ρ v`. -/
def weave (ρ : ValueId → ValueId) (op : OpCode) : List OpCode :=
  op.mapInputs ρ ::
    (callResults returnsOf op).map fun p => prepareCall (prepareFnOf fns p.2) (ρ p.1) p.1

def weaveBlock (ρ : ValueId → ValueId) (block : Block) : Block :=
  { block with
    instructions := block.instructions.flatMap (weave returnsOf fns ρ)
    terminator := block.terminator.map (·.map ρ) }

/-- The function `f'` is `f` with every use of a raw result `v`, in any block, moved to the
prepared value `ρ v`, and the prepare calls inserted behind the unconstrained ones. -/
structure PreparedBy (ρ : ValueId → ValueId) (f f' : Function) : Prop where
  /-- The prepared value of a raw result is not a raw result. -/
  raw : ∀ v ∈ functionRawResults f, ρ v ∉ functionRawResults f
  other : ∀ v, v ∉ functionRawResults f → ρ v = v
  made : ∀ b ∈ f.blocks, ∀ op ∈ b.2.instructions, ∀ p ∈ callResults returnsOf op, Made fns p.2
  blocks : f'.blocks = f.blocks.map fun b => (b.1, weaveBlock returnsOf fns ρ b.2)

/-- The instructions read a value of `raw` only once it is among the bound ones, which are
`keys` at first. -/
def ReadsBound (raw : List ValueId) : List ValueId → List OpCode → Prop
  | _, [] => True
  | keys, op :: ops =>
    (∀ v ∈ op.inputs, v ∈ raw → v ∈ keys) ∧ ReadsBound raw (keys ++ bound returnsOf op) ops

instance decidableReadsBound (raw : List ValueId) : (keys : List ValueId) →
    (ops : List OpCode) → Decidable (ReadsBound returnsOf raw keys ops)
  | _, [] => .isTrue trivial
  | keys, op :: ops =>
    @instDecidableAnd _ _ _ (decidableReadsBound raw (keys ++ bound returnsOf op) ops)

/-- The values a block's terminator reads. -/
def terminatorInputs (block : Block) : List ValueId :=
  (block.terminator.map Terminator.inputs).getD []

/-- Every use of a raw result follows its call in the block of the call. -/
def LocalUses (f : Function) : Prop :=
  ∀ b ∈ f.blocks, ReadsBound returnsOf (functionRawResults f) [] b.2.instructions ∧
    ∀ v ∈ terminatorInputs b.2, v ∈ functionRawResults f →
      v ∈ boundAll returnsOf b.2.instructions

instance (f : Function) : Decidable (LocalUses returnsOf f) :=
  inferInstanceAs (Decidable (∀ b ∈ f.blocks, _ ∧ ∀ v ∈ terminatorInputs b.2, _ → _))

variable {returnsOf fns}

/-- After the pass an instruction reads a raw result only if it is a prepare call. -/
theorem PreparedBy.reads_raw {ρ : ValueId → ValueId} {f f' : Function}
    (h : PreparedBy returnsOf fns ρ f f') {b : BlockId × Block} (hb : b ∈ f'.blocks)
    {op : OpCode} (hop : op ∈ b.2.instructions) {v : ValueId} (hv : v ∈ op.inputs)
    (hraw : v ∈ functionRawResults f) : ∃ g, op = prepareCall g (ρ v) v := by
  have hmapped : ∀ u, ρ u ∉ functionRawResults f := by
    intro u hu
    by_cases hur : u ∈ functionRawResults f
    · exact h.raw u hur hu
    · exact hur (h.other u hur ▸ hu)
  rw [h.blocks] at hb
  obtain ⟨a, -, rfl⟩ := List.mem_map.mp hb
  obtain ⟨source, -, hop⟩ := List.mem_flatMap.mp hop
  rcases List.mem_cons.mp hop with rfl | hop
  · obtain ⟨u, -, rfl⟩ := List.mem_map.mp (by simpa using hv)
    exact absurd hraw (hmapped u)
  · obtain ⟨p, -, rfl⟩ := List.mem_map.mp hop
    obtain rfl : v = p.1 := by simpa [prepareCall, OpCode.inputs, CallTarget.inputs] using hv
    exact ⟨_, rfl⟩

/-! ## Bound, raw and defined values

The results the pass prepares are among the raw ones, and those among the defined ones.
-/

theorem map_fst_zip_sublist {α β : Type} (as : List α) (bs : List β) :
    ((as.zip bs).map (·.1)).Sublist as := by
  induction as generalizing bs with
  | nil => simp
  | cons a as ih =>
    cases bs with
    | nil => simp
    | cons b bs => simpa using ih bs

theorem rawResults_sublist (op : OpCode) : (rawResults op).Sublist op.results := by
  induction op with
  | guard condition inner ih => simpa [rawResults, OpCode.results] using ih
  | call results target args uncon =>
    cases target <;> cases uncon <;> simp [rawResults, OpCode.results]
  | _ => simp [rawResults]

theorem bound_sublist_rawResults (op : OpCode) : (bound returnsOf op).Sublist (rawResults op) := by
  cases op with
  | call results target args uncon =>
    cases target <;> cases uncon <;> simp [bound, callResults, rawResults, map_fst_zip_sublist]
  | _ => simp [bound, callResults]

theorem bound_sublist_results (returnsOf : FunctionId → List TypeExpr) (op : OpCode) :
    (bound returnsOf op).Sublist op.results :=
  (bound_sublist_rawResults op).trans (rawResults_sublist op)

theorem boundAll_sublist (instrs : List OpCode) :
    (boundAll returnsOf instrs).Sublist (definitions instrs) :=
  List.Sublist.flatMap_right instrs fun op _ => bound_sublist_results _ op

theorem functionBound_sublist (f : Function) :
    (functionBound returnsOf f).Sublist (functionDefinitions f) :=
  List.Sublist.flatMap_right f.blocks fun b _ => boundAll_sublist b.2.instructions

theorem mem_raw_of_mem_bound {f : Function} {v : ValueId} (h : v ∈ functionBound returnsOf f) :
    v ∈ functionRawResults f := by
  refine List.Sublist.subset (List.Sublist.flatMap_right f.blocks fun b _ => ?_) h
  exact List.Sublist.flatMap_right b.2.instructions fun op _ => bound_sublist_rawResults op

theorem mem_definitions_of_mem_raw {f : Function} {v : ValueId}
    (h : v ∈ functionRawResults f) : v ∈ functionDefinitions f := by
  refine List.Sublist.subset (List.Sublist.flatMap_right f.blocks fun b _ => ?_) h
  exact List.Sublist.flatMap_right b.2.instructions fun op _ => rawResults_sublist op

/-! ## The renaming of a block

Prepared values are numbered in a row, so a map with so many entries is one renaming.
-/

/-- The renaming that numbers `keys` from `start` on. -/
def rename (start : Nat) (keys : List ValueId) (v : ValueId) : ValueId :=
  if v ∈ keys then start + keys.idxOf v else v

theorem rename_of_mem {start : Nat} {keys more : List ValueId} {v : ValueId} (h : v ∈ keys) :
    rename start (keys ++ more) v = rename start keys v := by
  simp [rename, h, List.idxOf_append_of_mem h]

theorem rename_of_notMem {start : Nat} {keys : List ValueId} {v : ValueId} (h : v ∉ keys) :
    rename start keys v = v := by simp [rename, h]

theorem rename_last {start : Nat} {keys : List ValueId} {v : ValueId} (h : v ∉ keys) :
    rename start (keys ++ [v]) v = start + keys.length := by
  simp [rename, List.idxOf_append_of_notMem h]

/-- The walk has put `keys` into the map, numbered from `start` on. -/
structure Tracks (start : Nat) (keys : List ValueId) (s : BlockState) : Prop where
  next : s.nextValueId = start + keys.length
  lookup : ∀ v, (s.replacements.lookup v).getD v = rename start keys v
  keys : ∀ v, s.replacements.lookup v ≠ none → v ∈ keys
  flat : s.replacements.Flat
  fresh : ∀ p ∈ s.replacements, start ≤ p.2

theorem Tracks.apply {start : Nat} {keys : List ValueId} {s : BlockState}
    (h : Tracks start keys s) : s.replacements.apply = rename start keys := by
  funext v
  rw [ValueReplacements.apply_flat h.flat, h.lookup]

theorem Tracks.init (start : Nat) : Tracks start [] { nextValueId := start } where
  next := rfl
  lookup _ := rfl
  keys _ h := absurd rfl h
  flat _ hp := absurd hp List.not_mem_nil
  fresh _ hp := absurd hp List.not_mem_nil

theorem made_of_findPrepareFn {t : TypeExpr} {g : FunctionId}
    (h : findPrepareFn t fns = some g) : Made fns t := by
  obtain ⟨entry, hentry, rfl⟩ := Option.map_eq_some_iff.mp h
  have htype : entry.hlssaType = t := by simpa using List.find?_some hentry
  have hmem : entry ∈ fns := List.mem_of_find?_eq_some hentry
  have hfn : prepareFnOf fns t = entry.fnId := by simp [prepareFnOf, h]
  subst htype
  rw [Made, hfn]
  exact hmem

/-- Binding one more result extends the numbering by one. -/
theorem processResult_spec {start : Nat} {keys : List ValueId} {s s' : BlockState}
    {p : ValueId × TypeExpr} (hs : Tracks start keys s) (hnew : p.1 ∉ keys)
    (hkeys : ∀ v ∈ keys, v < start) (hlt : p.1 < start)
    (h : processResult fns s p = some s') :
    Tracks start (keys ++ [p.1]) s' ∧
      s'.newInstructions = s.newInstructions ++
        [prepareCall (prepareFnOf fns p.2) (rename start (keys ++ [p.1]) p.1) p.1] ∧
      Made fns p.2 := by
  obtain ⟨g, hg, h⟩ := Option.bind_eq_some_iff.mp h
  obtain rfl := Option.some.inj h
  have hle : start ≤ s.nextValueId := hs.next ▸ Nat.le_add_right _ _
  have hnone : s.replacements.lookup s.nextValueId = none := by
    by_contra hsome
    exact absurd (hkeys _ (hs.keys _ hsome)) (Nat.not_lt.mpr hle)
  refine ⟨⟨?_, ?_, ?_, ?_, ?_⟩, ?_, made_of_findPrepareFn hg⟩
  · rw [List.length_append, List.length_singleton, ← Nat.add_assoc, ← hs.next]
  · intro v
    rw [ValueReplacements.lookup_insert]
    by_cases hv : v = p.1
    · subst hv
      simp [rename_last hnew, hs.next]
    · rw [if_neg hv, hs.lookup v]
      by_cases hmem : v ∈ keys
      · exact (rename_of_mem hmem).symm
      · rw [rename_of_notMem hmem, rename_of_notMem (by simp [hmem, hv])]
  · intro v hv
    rw [ValueReplacements.lookup_insert] at hv
    by_cases hvp : v = p.1
    · simp [hvp]
    · rw [if_neg hvp] at hv
      exact List.mem_append_left _ (hs.keys v hv)
  · refine hs.flat.insert hnone (Nat.ne_of_lt (hlt.trans_le hle)) fun q hq => ?_
    exact Nat.ne_of_gt (hlt.trans_le (hs.fresh q hq))
  · intro q hq
    rcases List.mem_cons.mp hq with rfl | hq
    · exact hle
    · exact hs.fresh q (List.mem_filter.mp hq).1
  · simp [prepareFnOf, hg, rename_last hnew, hs.next]

theorem processResults_spec {start : Nat} {ps : List (ValueId × TypeExpr)}
    {keys : List ValueId} {s s' : BlockState} (hs : Tracks start keys s)
    (hnodup : (ps.map (·.1)).Nodup) (hdisj : ∀ v ∈ keys, v ∉ ps.map (·.1))
    (hkeys : ∀ v ∈ keys, v < start) (hlt : ∀ v ∈ ps.map (·.1), v < start)
    (h : ps.foldlM (processResult fns) s = some s') :
    Tracks start (keys ++ ps.map (·.1)) s' ∧
      s'.newInstructions = s.newInstructions ++ ps.map (fun p =>
        prepareCall (prepareFnOf fns p.2) (rename start (keys ++ ps.map (·.1)) p.1) p.1) ∧
      ∀ p ∈ ps, Made fns p.2 := by
  induction ps generalizing keys s with
  | nil =>
    obtain rfl : s = s' := Option.some.inj h
    simpa using hs
  | cons p ps ih =>
    obtain ⟨s₁, h₁, h₂⟩ := Option.bind_eq_some_iff.mp h
    simp only [List.map_cons, List.nodup_cons, List.forall_mem_cons] at hnodup hdisj hlt
    have hnew : p.1 ∉ keys := fun hp => hdisj _ hp List.mem_cons_self
    obtain ⟨ht, hi, hm⟩ := processResult_spec hs hnew hkeys hlt.1 h₁
    have hkeys' : ∀ v ∈ keys ++ [p.1], v < start := by
      intro v hv
      rcases List.mem_append.mp hv with hv | hv
      · exact hkeys v hv
      · exact List.mem_singleton.mp hv ▸ hlt.1
    have hdisj' : ∀ v ∈ keys ++ [p.1], v ∉ ps.map (·.1) := by
      intro v hv hps
      rcases List.mem_append.mp hv with hv | hv
      · exact hdisj v hv (List.mem_cons_of_mem _ hps)
      · exact hnodup.1 (List.mem_singleton.mp hv ▸ hps)
    obtain ⟨ht', hi', hm'⟩ := ih ht hnodup.2 hdisj' hkeys' hlt.2 h₂
    have hassoc : keys ++ (p :: ps).map (·.1) = keys ++ [p.1] ++ ps.map (·.1) := by simp
    rw [hassoc]
    refine ⟨ht', ?_, List.forall_mem_cons.mpr ⟨hm, hm'⟩⟩
    have hfirst : rename start (keys ++ [p.1] ++ ps.map (·.1)) p.1
        = rename start (keys ++ [p.1]) p.1 := rename_of_mem (by simp)
    rw [hi', hi, List.map_cons, hfirst, List.append_assoc, List.singleton_append]

/-! ## The blocks after the pass -/

variable (returnsOf fns) in
/-- The instructions of a block after the pass, when `keys` are in the map already. -/
def expand (start : Nat) : List ValueId → List OpCode → List OpCode
  | _, [] => []
  | keys, op :: ops =>
    op.mapInputs (rename start keys) ::
      ((callResults returnsOf op).map fun p =>
        prepareCall (prepareFnOf fns p.2) (rename start (keys ++ bound returnsOf op) p.1) p.1) ++
      expand start (keys ++ bound returnsOf op) ops

variable (returnsOf fns) in
def expandBlock (start : Nat) (block : Block) : Block :=
  { block with
    instructions := expand returnsOf fns start [] block.instructions
    terminator := block.terminator.map
      (·.map (rename start (boundAll returnsOf block.instructions))) }

theorem callResults_mapInputs (ρ : ValueId → ValueId) (op : OpCode) :
    callResults returnsOf (op.mapInputs ρ) = callResults returnsOf op := by
  cases op with
  | call results target args uncon => cases target <;> cases uncon <;> rfl
  | _ => rfl

theorem processInstruction_spec {start : Nat} {keys : List ValueId} {s s' : BlockState}
    {op : OpCode} (hs : Tracks start keys s) (hnodup : op.results.Nodup)
    (hdisj : ∀ v ∈ keys, v ∉ op.results) (hkeys : ∀ v ∈ keys, v < start)
    (hlt : ∀ v ∈ op.results, v < start)
    (h : processInstruction returnsOf fns s op = some s') :
    Tracks start (keys ++ bound returnsOf op) s' ∧
      s'.newInstructions = s.newInstructions ++ op.mapInputs (rename start keys) ::
        ((callResults returnsOf op).map fun p =>
          prepareCall (prepareFnOf fns p.2) (rename start (keys ++ bound returnsOf op) p.1) p.1) ∧
      ∀ p ∈ callResults returnsOf op, Made fns p.2 := by
  -- the results of the instruction are not in the map, so only its inputs change
  have hop : op.mapOperands (rename start keys) = op.mapInputs (rename start keys) := by
    refine OpCode.mapResults_eq_self fun v hv => rename_of_notMem fun hk => ?_
    exact hdisj v hk (by simpa using hv)
  rw [processInstruction, ValueReplacements.replaceInstruction_flat hs.flat, hs.apply, hop] at h
  simp only [Option.bind_eq_bind, Option.bind_some, callResults_mapInputs] at h
  have hsub := bound_sublist_results returnsOf op
  have hpush : Tracks start keys { s with
      newInstructions := s.newInstructions ++ [op.mapInputs (rename start keys)] } :=
    ⟨hs.next, hs.lookup, hs.keys, hs.flat, hs.fresh⟩
  obtain ⟨ht, hi, hm⟩ := processResults_spec hpush (hsub.nodup hnodup)
    (fun v hv hb => hdisj v hv (hsub.subset hb)) hkeys (fun v hv => hlt v (hsub.subset hv)) h
  exact ⟨ht, by simpa [bound] using hi, hm⟩

theorem processInstructions_spec {start : Nat} {ops : List OpCode} {keys : List ValueId}
    {s s' : BlockState} (hs : Tracks start keys s) (hnodup : (definitions ops).Nodup)
    (hdisj : ∀ v ∈ keys, v ∉ definitions ops) (hkeys : ∀ v ∈ keys, v < start)
    (hlt : ∀ v ∈ definitions ops, v < start)
    (h : ops.foldlM (processInstruction returnsOf fns) s = some s') :
    Tracks start (keys ++ boundAll returnsOf ops) s' ∧
      s'.newInstructions = s.newInstructions ++ expand returnsOf fns start keys ops ∧
      ∀ op ∈ ops, ∀ p ∈ callResults returnsOf op, Made fns p.2 := by
  induction ops generalizing keys s with
  | nil =>
    obtain rfl : s = s' := Option.some.inj h
    simpa [boundAll, expand] using hs
  | cons op ops ih =>
    obtain ⟨s₁, h₁, h₂⟩ := Option.bind_eq_some_iff.mp h
    simp only [definitions, List.flatMap_cons, List.nodup_append, List.mem_append, not_or,
      or_imp, forall_and] at hnodup hdisj hlt
    obtain ⟨ht, hi, hm⟩ := processInstruction_spec hs hnodup.1 hdisj.1 hkeys hlt.1 h₁
    have hsub := bound_sublist_results returnsOf op
    have hdisj' : ∀ v ∈ keys ++ bound returnsOf op, v ∉ definitions ops := by
      intro v hv hd
      rcases List.mem_append.mp hv with hv | hv
      · exact hdisj.2 v hv hd
      · exact hnodup.2.2 v (hsub.subset hv) v hd rfl
    have hkeys' : ∀ v ∈ keys ++ bound returnsOf op, v < start := by
      intro v hv
      rcases List.mem_append.mp hv with hv | hv
      · exact hkeys v hv
      · exact hlt.1 v (hsub.subset hv)
    obtain ⟨ht', hi', hm'⟩ := ih ht hnodup.2.1 hdisj' hkeys' hlt.2 h₂
    have hassoc : keys ++ boundAll returnsOf (op :: ops)
        = keys ++ bound returnsOf op ++ boundAll returnsOf ops := by simp [boundAll]
    rw [hassoc]
    exact ⟨ht', by rw [hi', hi, expand, List.append_assoc],
      List.forall_mem_cons.mpr ⟨hm, hm'⟩⟩

theorem processBlock_spec {start next : Nat} {block block' : Block}
    (hnodup : (definitions block.instructions).Nodup)
    (hlt : ∀ v ∈ definitions block.instructions, v < start)
    (h : processBlock returnsOf fns start block = some (next, block')) :
    next = start + (boundAll returnsOf block.instructions).length ∧
      block' = expandBlock returnsOf fns start block ∧
      ∀ op ∈ block.instructions, ∀ p ∈ callResults returnsOf op, Made fns p.2 := by
  obtain ⟨s, hs, h⟩ := Option.bind_eq_some_iff.mp h
  obtain ⟨t, ht, h⟩ := Option.bind_eq_some_iff.mp h
  obtain ⟨t', ht', h⟩ := Option.bind_eq_some_iff.mp h
  obtain ⟨rfl, rfl⟩ := Prod.mk.inj (Option.some.inj h)
  obtain ⟨htracks, hinstrs, hmade⟩ := processInstructions_spec (Tracks.init start) hnodup (by simp)
    (by simp) hlt hs
  rw [ValueReplacements.replaceTerminator_flat htracks.flat, htracks.apply] at ht'
  obtain rfl := Option.some.inj ht'
  rw [List.nil_append] at hinstrs
  exact ⟨htracks.next, by simp [expandBlock, hinstrs, ht], hmade⟩

variable (returnsOf fns) in
/-- The blocks of a function after the pass. -/
def expandBlocks : Nat → List (BlockId × Block) → List (BlockId × Block)
  | _, [] => []
  | start, b :: bs =>
    (b.1, expandBlock returnsOf fns start b.2) ::
      expandBlocks (start + (boundAll returnsOf b.2.instructions).length) bs

theorem processBlocks_spec {start next : Nat} {bs bs' : List (BlockId × Block)}
    (hnodup : (bs.flatMap fun b => definitions b.2.instructions).Nodup)
    (hlt : ∀ v ∈ bs.flatMap fun b => definitions b.2.instructions, v < start)
    (h : processBlocks returnsOf fns start bs = some (next, bs')) :
    start ≤ next ∧ bs' = expandBlocks returnsOf fns start bs ∧
      ∀ b ∈ bs, ∀ op ∈ b.2.instructions, ∀ p ∈ callResults returnsOf op, Made fns p.2 := by
  induction bs generalizing start bs' with
  | nil =>
    obtain ⟨rfl, rfl⟩ := Prod.mk.inj (Option.some.inj h)
    exact ⟨le_rfl, rfl, by simp⟩
  | cons b bs ih =>
    obtain ⟨⟨n₁, b₁⟩, h₁, h⟩ := Option.bind_eq_some_iff.mp h
    obtain ⟨⟨n₂, bs₂⟩, h₂, h⟩ := Option.bind_eq_some_iff.mp h
    obtain ⟨rfl, rfl⟩ := Prod.mk.inj (Option.some.inj h)
    simp only [List.flatMap_cons, List.nodup_append, List.mem_append, or_imp, forall_and]
      at hnodup hlt
    obtain ⟨rfl, rfl, hm⟩ := processBlock_spec hnodup.1 hlt.1 h₁
    obtain ⟨hle, rfl, hm'⟩ := ih hnodup.2.1 (fun v hv => Nat.lt_add_right _ (hlt.2 v hv)) h₂
    exact ⟨Nat.le_of_add_right_le hle, rfl, List.forall_mem_cons.mpr ⟨hm, hm'⟩⟩

/-! ## The uses of a function -/

theorem rename_append_right {start : Nat} {front keys : List ValueId} {v : ValueId}
    (h : v ∉ front) : rename start (front ++ keys) v = rename (start + front.length) keys v := by
  by_cases hk : v ∈ keys
  · simp [rename, hk, List.idxOf_append_of_notMem h, Nat.add_assoc]
  · simp [rename, hk, h]

/-- Where every raw value that is read is bound before, the block's own map does what `ρ`
does. -/
theorem expand_eq_flatMap {start : Nat} {ρ : ValueId → ValueId} {raw : List ValueId}
    {ops : List OpCode} {keys : List ValueId} (hother : ∀ v, v ∉ raw → ρ v = v)
    (hraw : ∀ v ∈ keys ++ boundAll returnsOf ops, v ∈ raw)
    (hρ : ∀ v ∈ keys ++ boundAll returnsOf ops,
      ρ v = rename start (keys ++ boundAll returnsOf ops) v)
    (hreads : ReadsBound returnsOf raw keys ops) :
    expand returnsOf fns start keys ops = ops.flatMap (weave returnsOf fns ρ) := by
  induction ops generalizing keys with
  | nil => rfl
  | cons op ops ih =>
    have hassoc : keys ++ boundAll returnsOf (op :: ops)
        = keys ++ bound returnsOf op ++ boundAll returnsOf ops := by simp [boundAll]
    rw [hassoc] at hρ hraw
    have hop : op.mapInputs (rename start keys) = op.mapInputs ρ := by
      refine OpCode.mapInputs_congr fun v hv => ?_
      by_cases hvraw : v ∈ raw
      · have hk : v ∈ keys := hreads.1 v hv hvraw
        rw [hρ v (by simp [hk]), List.append_assoc, rename_of_mem hk]
      · have hk : v ∉ keys := fun hk => hvraw (hraw v (by simp [hk]))
        rw [hother v hvraw, rename_of_notMem hk]
    have hcalls : ∀ p ∈ callResults returnsOf op,
        rename start (keys ++ bound returnsOf op) p.1 = ρ p.1 := by
      intro p hp
      have hb : p.1 ∈ keys ++ bound returnsOf op :=
        List.mem_append_right _ (List.mem_map_of_mem hp)
      rw [hρ _ (List.mem_append_left _ hb), rename_of_mem hb]
    rw [expand, ih hraw hρ hreads.2, hop, List.flatMap_cons, weave]
    simp only [List.cons_append]
    congr 2
    exact List.map_congr_left fun p hp => by rw [hcalls p hp]

/-- A raw value left unbound would be read as itself, and `ρ` never gives a raw value. -/
theorem mem_keys_of_rename_eq {start : Nat} {ρ : ValueId → ValueId} {raw keys : List ValueId}
    (hρ : ∀ v ∈ raw, ρ v ∉ raw) {v : ValueId} (hv : v ∈ raw) (h : rename start keys v = ρ v) :
    v ∈ keys := by
  by_contra hnot
  rw [rename_of_notMem hnot] at h
  exact hρ v hv (h ▸ hv)

theorem readsBound_of_expand {start : Nat} {ρ : ValueId → ValueId} {raw : List ValueId}
    {ops : List OpCode} {keys : List ValueId} (hρ : ∀ v ∈ raw, ρ v ∉ raw)
    (h : expand returnsOf fns start keys ops = ops.flatMap (weave returnsOf fns ρ)) :
    ReadsBound returnsOf raw keys ops := by
  induction ops generalizing keys with
  | nil => trivial
  | cons op ops ih =>
    simp only [expand, List.flatMap_cons, weave, List.cons_append, List.cons.injEq] at h
    constructor
    · intro v hv hvraw
      exact mem_keys_of_rename_eq hρ hvraw (OpCode.mapInputs_inj h.1 v hv)
    · exact ih (List.append_inj_right h.2 (by simp))

/-- A function whose uses are local is renamed by one map, whatever its blocks are. -/
theorem expandBlocks_eq_map {ρ : ValueId → ValueId} {raw : List ValueId}
    {bs : List (BlockId × Block)} {start : Nat} (hother : ∀ v, v ∉ raw → ρ v = v)
    (hnodup : (bs.flatMap fun b => boundAll returnsOf b.2.instructions).Nodup)
    (hraw : ∀ v ∈ bs.flatMap fun b => boundAll returnsOf b.2.instructions, v ∈ raw)
    (hρ : ∀ v ∈ bs.flatMap fun b => boundAll returnsOf b.2.instructions,
      ρ v = rename start (bs.flatMap fun b => boundAll returnsOf b.2.instructions) v)
    (huses : ∀ b ∈ bs, ReadsBound returnsOf raw [] b.2.instructions ∧
      ∀ v ∈ terminatorInputs b.2, v ∈ raw → v ∈ boundAll returnsOf b.2.instructions) :
    expandBlocks returnsOf fns start bs
      = bs.map fun b => (b.1, weaveBlock returnsOf fns ρ b.2) := by
  induction bs generalizing start with
  | nil => rfl
  | cons b bs ih =>
    simp only [List.flatMap_cons, List.nodup_append, List.mem_append, or_imp, forall_and]
      at hnodup hraw hρ
    obtain ⟨⟨hinstrs, hterm⟩, hrest⟩ := List.forall_mem_cons.mp huses
    have hhead : ∀ v ∈ boundAll returnsOf b.2.instructions,
        ρ v = rename start (boundAll returnsOf b.2.instructions) v := by
      intro v hv
      rw [hρ.1 v hv, rename_of_mem hv]
    have htail : ∀ v ∈ bs.flatMap fun b => boundAll returnsOf b.2.instructions,
        ρ v = rename (start + (boundAll returnsOf b.2.instructions).length)
          (bs.flatMap fun b => boundAll returnsOf b.2.instructions) v := by
      intro v hv
      have hnot : v ∉ boundAll returnsOf b.2.instructions :=
        fun hb => hnodup.2.2 v hb v hv rfl
      rw [hρ.2 v hv, rename_append_right hnot]
    have hmap : ∀ v ∈ terminatorInputs b.2,
        rename start (boundAll returnsOf b.2.instructions) v = ρ v := by
      intro v hv
      by_cases hvraw : v ∈ raw
      · exact (hhead v (hterm v hv hvraw)).symm
      · rw [hother v hvraw, rename_of_notMem fun hb => hvraw (hraw.1 v hb)]
    rw [expandBlocks, ih hnodup.2.1 hraw.2 htail hrest, List.map_cons]
    congr 2
    simp only [expandBlock, weaveBlock, Block.mk.injEq, true_and]
    refine ⟨expand_eq_flatMap hother hraw.1 hhead hinstrs, ?_⟩
    cases hbt : b.2.terminator with
    | none => rfl
    | some t =>
      simp only [terminatorInputs, hbt] at hmap
      exact congrArg some (Terminator.map_congr hmap)

theorem mem_expandBlocks {ρ : ValueId → ValueId} {bs : List (BlockId × Block)} {start : Nat}
    (h : expandBlocks returnsOf fns start bs
      = bs.map fun b => (b.1, weaveBlock returnsOf fns ρ b.2)) :
    ∀ b ∈ bs, ∃ n, expandBlock returnsOf fns n b.2 = weaveBlock returnsOf fns ρ b.2 := by
  induction bs generalizing start with
  | nil => simp
  | cons b bs ih =>
    simp only [expandBlocks, List.map_cons, List.cons.injEq, Prod.mk.injEq, true_and] at h
    exact List.forall_mem_cons.mpr ⟨⟨start, h.1⟩, ih h.2⟩

variable (returnsOf) in
/-- The prepared values of a function, numbered from `start` on; a raw result that no call
of the pass binds goes to `start` as well. -/
def preparedName (f : Function) (start : Nat) (v : ValueId) : ValueId :=
  if v ∈ functionRawResults f ∧ v ∉ functionBound returnsOf f then start
  else rename start (functionBound returnsOf f) v

section Function

variable {f : Function} {start : Nat} (hlt : ∀ v ∈ functionDefinitions f, v < start)

include hlt in
theorem preparedName_raw : ∀ v ∈ functionRawResults f,
    preparedName returnsOf f start v ∉ functionRawResults f := by
  intro v hv hmem
  have hsmall := hlt _ (mem_definitions_of_mem_raw hmem)
  by_cases hb : v ∈ functionBound returnsOf f
  · simp only [preparedName, hb, not_true, and_false, if_false, rename, if_true] at hsmall
    exact absurd hsmall (Nat.not_lt.mpr (Nat.le_add_right _ _))
  · simp only [preparedName, hv, hb, not_false_iff, and_self, if_true] at hsmall
    exact Nat.lt_irrefl _ hsmall

include hlt in
/-- The blocks the pass makes are the function with its raw results prepared exactly when
all of their uses are local. -/
theorem preparedBy_iff (hnodup : (functionDefinitions f).Nodup)
    (hmade : ∀ b ∈ f.blocks, ∀ op ∈ b.2.instructions, ∀ p ∈ callResults returnsOf op,
      Made fns p.2) :
    (∃ ρ, PreparedBy returnsOf fns ρ f
      { f with blocks := expandBlocks returnsOf fns start f.blocks }) ↔
      LocalUses returnsOf f := by
  constructor
  · rintro ⟨ρ, hraw, -, -, hblocks⟩ b hb
    obtain ⟨n, hn⟩ := mem_expandBlocks hblocks b hb
    simp only [expandBlock, weaveBlock, Block.mk.injEq, true_and] at hn
    refine ⟨readsBound_of_expand hraw hn.1, fun v hv hvraw => ?_⟩
    cases ht : b.2.terminator with
    | none => simp [terminatorInputs, ht] at hv
    | some t =>
      simp only [terminatorInputs, ht, Option.map_some, Option.getD_some] at hv
      rw [ht] at hn
      exact mem_keys_of_rename_eq hraw hvraw (Terminator.map_inj (Option.some.inj hn.2) v hv)
  · intro hlocal
    have hbound : ∀ v ∈ functionBound returnsOf f,
        preparedName returnsOf f start v = rename start (functionBound returnsOf f) v := by
      intro v hv
      simp [preparedName, hv]
    have hother : ∀ v, v ∉ functionRawResults f → preparedName returnsOf f start v = v := by
      intro v hv
      rw [preparedName, if_neg (fun h => hv h.1),
        rename_of_notMem (fun h => hv (mem_raw_of_mem_bound h))]
    refine ⟨preparedName returnsOf f start, preparedName_raw hlt, hother, hmade, ?_⟩
    exact expandBlocks_eq_map hother ((functionBound_sublist f).nodup hnodup)
      (fun v hv => mem_raw_of_mem_bound hv) hbound hlocal

end Function

end Pass

/-! ## The program

The same for all functions, with the prepare functions made on the way.
-/

/-- In every function each value is defined once, by an id the program has handed out. -/
def SingleAssignment (ssa : SSA) : Prop :=
  ∀ f ∈ ssa.functions, (functionDefinitions f.2).Nodup ∧
    ∀ v ∈ functionDefinitions f.2, v < ssa.nextValueId

instance (ssa : SSA) : Decidable (SingleAssignment ssa) :=
  inferInstanceAs (Decidable (∀ f ∈ ssa.functions, _ ∧ ∀ v ∈ functionDefinitions f.2, _))

theorem processFunctions_spec {returnsOf : FunctionId → List TypeExpr}
    {fns : List PrepareFnEntry} {fs fs' : List (FunctionId × Function)} {start next : Nat}
    (hdefs : ∀ f ∈ fs, (functionDefinitions f.2).Nodup ∧
      ∀ v ∈ functionDefinitions f.2, v < start)
    (h : processFunctions returnsOf fns start fs = some (next, fs')) :
    List.Forall₂ (fun f f' => f'.1 = f.1 ∧
      (∃ ρ, PreparedBy returnsOf fns ρ f.2 f'.2) ↔ LocalUses returnsOf f.2) fs fs' := by
  induction fs generalizing start next fs' with
  | nil =>
    obtain ⟨-, rfl⟩ := Prod.mk.inj (Option.some.inj h)
    exact .nil
  | cons f fs ih =>
    obtain ⟨⟨n₁, bs⟩, h₁, h⟩ := Option.bind_eq_some_iff.mp h
    obtain ⟨⟨n₂, fs₂⟩, h₂, h⟩ := Option.bind_eq_some_iff.mp h
    obtain ⟨-, rfl⟩ := Prod.mk.inj (Option.some.inj h)
    obtain ⟨⟨hnodup, hlt⟩, hrest⟩ := List.forall_mem_cons.mp hdefs
    obtain ⟨hle, rfl, hmade⟩ := processBlocks_spec hnodup hlt h₁
    refine .cons ((and_iff_right rfl).trans (preparedBy_iff hlt hnodup hmade))
      (ih (fun g hg => ?_) h₂)
    exact ⟨(hrest g hg).1, fun v hv => ((hrest g hg).2 v hv).trans_le hle⟩

/-- The return types the pass looks up. -/
def returnsOf (ssa : SSA) (callee : FunctionId) : List TypeExpr :=
  ((ssa.function callee).map (·.returns)).getD []

/-- The entries are numbered in a row, from `start` up to the next function id. -/
def Numbered (start : Nat) (fns : PrepareFns) : Prop :=
  fns.entries.map (·.fnId) = List.range' start fns.entries.length ∧
    fns.nextFunctionId = start + fns.entries.length

theorem Numbered.add {start : Nat} {fns : PrepareFns} (h : Numbered start fns)
    (t : TypeExpr) : Numbered start (fns.add t) := by
  refine ⟨?_, by simp [PrepareFns.add, h.2, Nat.add_assoc]⟩
  simp [PrepareFns.add, h.1, h.2, List.range'_concat]

mutual

theorem Numbered.getOrCreatePrepareFn {start : Nat} : ∀ (t : TypeExpr) {fns : PrepareFns},
    Numbered start fns → Numbered start (getOrCreatePrepareFn t fns)
  | .array inner size, fns, h => by
    rw [PrepareEntryPoint.getOrCreatePrepareFn]
    split
    · exact h
    · exact Numbered.getOrCreatePrepareFn inner (h.add _)
  | .tuple elementTypes, fns, h => by
    rw [PrepareEntryPoint.getOrCreatePrepareFn]
    split
    · exact h
    · exact Numbered.getOrCreatePrepareFns elementTypes (h.add _)
  | .field, _, h | .u _, _, h | .i _, _, h | .witnessOf _, _, h | .slice _, _, h
  | .ref _, _, h | .function, _, h => by
    unfold PrepareEntryPoint.getOrCreatePrepareFn
    split
    · exact h
    · exact h.add _

theorem Numbered.getOrCreatePrepareFns {start : Nat} : ∀ (ts : List TypeExpr)
    {fns : PrepareFns}, Numbered start fns → Numbered start (getOrCreatePrepareFns ts fns)
  | [], _, h => h
  | t :: ts, _, h => Numbered.getOrCreatePrepareFns ts (Numbered.getOrCreatePrepareFn t h)

end

/-- Every unconstrained result is bound to the witness before it is used. -/
structure ResultsBound (ssa out : SSA) (fns : List PrepareFnEntry) : Prop where
  /-- In every function all uses of raw results see the prepared value. -/
  uses : List.Forall₂
    (fun f f' => f'.1 = f.1 ∧ ∃ ρ, PreparedBy (returnsOf ssa) fns ρ f.2 f'.2)
    ssa.functions out.functions
  /-- The function id of a prepare call stands for one body. -/
  bodies : (fns.map (·.fnId)).Nodup
  /-- What a prepare function returns has its integers in range, whatever was written to the
  witness. -/
  ranges : ∀ entry ∈ fns, ∀ (σ : Type) (prover : Prover σ) (raw v : Val) (s t : σ),
    entry.run prover raw s = some (v, t) → InRange entry.hlssaType v

/-- The pass binds every unconstrained result exactly when each of them is only used in the
block of its call. -/
theorem resultsBound_iff {walk : List FunctionId} {bodyValues : Nat} {ssa out : SSA}
    {fns : List PrepareFnEntry} (hssa : SingleAssignment ssa)
    (h : processUnconstrainedCalls walk bodyValues ssa = some (out, fns)) :
    ResultsBound ssa out fns ↔ ∀ f ∈ ssa.functions, LocalUses (returnsOf ssa) f.2 := by
  rw [processUnconstrainedCalls] at h
  split at h
  · exact absurd h (by simp)
  obtain ⟨⟨next, fs⟩, hfs, h⟩ := Option.bind_eq_some_iff.mp h
  obtain ⟨rfl, rfl⟩ := Prod.mk.inj (Option.some.inj h)
  have hnumbered : Numbered ssa.nextFunctionId
      (getOrCreatePrepareFns (walk.flatMap (returnsOf ssa))
        { nextFunctionId := ssa.nextFunctionId }) :=
    Numbered.getOrCreatePrepareFns _ ⟨rfl, rfl⟩
  have huses := processFunctions_spec (fun f hf =>
    ⟨(hssa f hf).1, fun v hv => Nat.lt_add_right bodyValues ((hssa f hf).2 v hv)⟩) hfs
  have hiff := Lib.forall₂_iff_forall_mem huses
  refine ⟨fun hbound => hiff.mp hbound.uses, fun hlocal => ⟨hiff.mpr hlocal, ?_, ?_⟩⟩
  · exact hnumbered.1 ▸ List.nodup_range'
  · exact fun entry _ σ prover raw v s t hrun => entry.run_inRange prover hrun

/-- One unconstrained call whose result is asserted to be zero in the same block. -/
def nearUse : SSA where
  functions := [
    (0, { blocks := [(0, {
            instructions := [.call [0] (.static 1) [] true, .assertCmp .eq 0 1]
            terminator := some (.return []) })] }),
    (1, { blocks := [(0, { terminator := some (.return [1]) })], returns := [.u 8] })]
  mainId := 0
  nextFunctionId := 2
  nextValueId := 2
  constants := [(1, .u 8 0)]

theorem resultsBound_nearUse : ∃ out fns,
    processUnconstrainedCalls [1] 3 nearUse = some (out, fns) ∧ ResultsBound nearUse out fns :=
  ⟨_, _, rfl, (resultsBound_iff (by decide)
    (show processUnconstrainedCalls [1] 3 nearUse = some (_, _) from rfl)).mpr (by decide)⟩

/-- The same call, its result asserted behind a jump. -/
def lateUse : SSA where
  functions := [
    (0, { blocks := [
            (0, { instructions := [.call [0] (.static 1) [] true]
                  terminator := some (.jmp 1 []) }),
            (1, { instructions := [.assertCmp .eq 0 1], terminator := some (.return []) })]
          nextBlock := 2 }),
    (1, { blocks := [(0, { terminator := some (.return [1]) })], returns := [.u 8] })]
  mainId := 0
  nextFunctionId := 2
  nextValueId := 2
  constants := [(1, .u 8 0)]

def lateUsePrepared : SSA :=
  { lateUse with
    functions := [
      (0, { blocks := [
              (0, { instructions := [.call [0] (.static 1) [] true, prepareCall 2 5 0]
                    terminator := some (.jmp 1 []) }),
              (1, { instructions := [.assertCmp .eq 0 1], terminator := some (.return []) })]
            nextBlock := 2 }),
      (1, { blocks := [(0, { terminator := some (.return [1]) })], returns := [.u 8] })]
    nextFunctionId := 3
    nextValueId := 6 }

/-- The pass prepares the result of `lateUse`, and the assertion behind the jump still reads
the raw one. -/
theorem rawUse_lateUse :
    processUnconstrainedCalls [1] 3 lateUse = some (lateUsePrepared, [⟨.u 8, 2⟩]) ∧
      ¬ ResultsBound lateUse lateUsePrepared [⟨.u 8, 2⟩] := by
  refine ⟨by decide, fun h => ?_⟩
  cases h.uses with
  | cons hmain _ =>
    obtain ⟨-, ρ, hprepared⟩ := hmain
    obtain ⟨g, hg⟩ := hprepared.reads_raw (b := (1, _)) (v := 0)
      (List.mem_cons_of_mem _ List.mem_cons_self) List.mem_cons_self List.mem_cons_self
      (by decide)
    cases hg

end Mavros.PrepareEntryPoint
