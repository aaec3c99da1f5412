/-
# `Mavros.Hlssa.Typing` — the types of a function's values, and typed runs

`Types::run_function` walks over the blocks in domination pre-order and gives each value
its type once.  What it gives is consistent: every instruction's results have the types
its operands' types ask for.  It does not look at the arguments of jumps; where these have
the types of the parameters, every value a run binds has its type.

## What is proved

* `Function.types_typing`: the types that the walk gives form a `Function.Typing`.  Constants
  and parameters have their own types, and the results of every reachable instruction have those
  that `OpCode.resultTypes` computes from the types given.
* `Run.hasTypes`: every value a run has bound has its type, from a typing and typed jumps.
* `JumpsTyped.entry`: with typed jumps every block is entered with typed arguments.

## How it goes

An assignment that grows keeps what it gave (`MoreTypes`), and result types depend on the types
of the inputs alone (`OpCode.resultTypes_mono`); so what was computed from an early assignment is
what the last one says.  `Assigns` is what a stretch of the walk does, and stretches compose.

The second half is about the values of `Mavros.Hlssa.Values`.  That an instruction gives results
of the computed types is `valueSem_typed`, as long as the open part of the meaning does.
-/
import Mavros.Hlssa.Available
import Mavros.Hlssa.ValueTypes

namespace Mavros.Hlssa

open Lib (Reachable)

/-! ## Result types

They depend on the instruction's inputs, and on a value only through its type.
-/

section ResultTypes

variable {signatures : FunctionId → Option (List TypeExpr × List TypeExpr)}
  {types types' : ValueId → Option TypeExpr} {op : OpCode} {rs : List (ValueId × TypeExpr)}

/-- Result types depend on the types of the inputs alone. -/
theorem OpCode.resultTypes_mono (h : ∀ v ∈ op.inputs, ∀ t, types v = some t → types' v = some t)
    (hrs : op.resultTypes signatures types = some rs) :
    op.resultTypes signatures types' = some rs := by
  have hone : ∀ {u : ValueId}, u ∈ op.inputs → ∀ {β : Type} {k : TypeExpr → Option β} {y : β},
      (types u).bind k = some y → (types' u).bind k = some y := by
    intro u hu β k y hk
    obtain ⟨t, ht, hk⟩ := Option.bind_eq_some_iff.mp hk
    rw [h u hu t ht]
    exact hk
  have htwo : ∀ {u v : ValueId}, u ∈ op.inputs → v ∈ op.inputs → ∀ {β : Type}
      {k : TypeExpr → TypeExpr → Option β} {y : β},
      ((types u).bind fun t => (types v).bind (k t)) = some y →
        ((types' u).bind fun t => (types' v).bind (k t)) = some y := by
    intro u v hu hv β k y hk
    obtain ⟨t, ht, hk⟩ := Option.bind_eq_some_iff.mp hk
    rw [h u hu t ht]
    exact hone hv hk
  have hfirst : ∀ {u : ValueId} {us : List ValueId}, u ∈ u :: us := List.mem_cons_self
  have hsecond : ∀ {u v : ValueId} {us : List ValueId}, v ∈ u :: v :: us :=
    List.mem_cons_of_mem _ List.mem_cons_self
  induction op with
  | guard condition inner ih =>
    exact ih (fun v hv => h v (List.mem_cons_of_mem _ hv)) hrs
      (fun hu => hone (List.mem_cons_of_mem _ hu))
      fun hu hv => htwo (List.mem_cons_of_mem _ hu) (List.mem_cons_of_mem _ hv)
  | cmp kind r lhs rhs => exact htwo hfirst hsecond hrs
  | binaryArithOp kind r lhs rhs => exact htwo hfirst hsecond hrs
  | arraySet r array index value =>
    exact htwo hfirst (List.mem_cons_of_mem _ hsecond) hrs
  | arrayGet r array index =>
    obtain ⟨t, ht, hrs⟩ := Option.bind_eq_some_iff.mp hrs
    obtain ⟨elem, helem, hrs⟩ := Option.bind_eq_some_iff.mp hrs
    have htail := hone hsecond hrs
    show ((types' array).bind fun t => t.arrayElement.bind _) = _
    rw [h array hfirst t ht, Option.bind_some, helem]
    exact htail
  | select r cond ifT ifF =>
    obtain ⟨t, ht, hrs⟩ := Option.bind_eq_some_iff.mp hrs
    have htail := htwo hsecond (List.mem_cons_of_mem _ hsecond) hrs
    show ((types' cond).bind fun t => _) = _
    rw [h cond hfirst t ht]
    exact htail
  | mulConst r k v => exact hone hsecond hrs
  | writeWitness r v pinned =>
    cases r with
    | none => exact hrs
    | some r => exact hone hfirst hrs
  | _ => first | exact hone hfirst hrs | exact hrs

/-- The named results are the instruction's. -/
theorem OpCode.resultTypes_fst (hrs : op.resultTypes signatures types = some rs) :
    rs.map Prod.fst = op.results := by
  have hbind : ∀ {β : Type} {o : Option β} {k : β → Option (List (ValueId × TypeExpr))},
      o.bind k = some rs → ∃ x, k x = some rs := fun h => by
    obtain ⟨x, -, hx⟩ := Option.bind_eq_some_iff.mp h
    exact ⟨x, hx⟩
  have hone : ∀ {r : ValueId} {t : TypeExpr}, some [(r, t)] = some rs → rs.map Prod.fst = [r] := by
    intro r t h
    obtain rfl := Option.some.inj h
    rfl
  induction op with
  | guard condition inner ih => exact ih hrs
  | call results target args uncon =>
    cases target with
    | static fn =>
      obtain ⟨⟨params, returns⟩, hrs⟩ := hbind hrs
      simp only at hrs
      split at hrs
      · simp at hrs
      · next hlen =>
        obtain rfl := Option.some.inj hrs
        exact List.map_fst_zip (by omega)
    | dynamic v => simp [resultTypes] at hrs
  | todo results ts =>
    simp only [resultTypes] at hrs
    split at hrs
    · simp at hrs
    · next hlen =>
      obtain rfl := Option.some.inj hrs
      exact List.map_fst_zip (by omega)
  | writeWitness r v pinned =>
    cases r with
    | none =>
      obtain rfl := Option.some.inj hrs
      rfl
    | some r =>
      obtain ⟨t, hrs⟩ := hbind hrs
      obtain ⟨t', hrs⟩ := hbind hrs
      exact hone hrs
  | unspread odd even v bits =>
    obtain ⟨t, hrs⟩ := hbind hrs
    obtain ⟨t', hrs⟩ := hbind hrs
    obtain rfl := Option.some.inj hrs
    rfl
  | load r ptr =>
    obtain ⟨t, hrs⟩ := hbind hrs
    cases t <;> first | exact hone hrs | cases hrs
  | valueOf r v =>
    obtain ⟨t, hrs⟩ := hbind hrs
    cases t <;> first | exact hone hrs | cases hrs
  | sext r v m n =>
    obtain ⟨t, hrs⟩ := hbind hrs
    split at hrs <;> first | exact hone hrs | cases hrs
  | bitRange r v offset width =>
    obtain ⟨t, hrs⟩ := hbind hrs
    obtain ⟨bits, hrs⟩ := hbind hrs
    split at hrs <;> first | exact hone hrs | cases hrs
  | rangecheck v bits =>
    obtain ⟨t, hrs⟩ := hbind hrs
    split at hrs <;> first | (obtain rfl := Option.some.inj hrs; rfl) | cases hrs
  | cmp kind r lhs rhs =>
    obtain ⟨t, hrs⟩ := hbind hrs
    obtain ⟨t', hrs⟩ := hbind hrs
    exact hone hrs
  | select r cond ifT ifF =>
    obtain ⟨t, hrs⟩ := hbind hrs
    obtain ⟨t', hrs⟩ := hbind hrs
    obtain ⟨t'', hrs⟩ := hbind hrs
    obtain ⟨alt, hrs⟩ := hbind hrs
    exact hone hrs
  | binaryArithOp kind r lhs rhs =>
    obtain ⟨t, hrs⟩ := hbind hrs
    obtain ⟨t', hrs⟩ := hbind hrs
    obtain ⟨t'', hrs⟩ := hbind hrs
    exact hone hrs
  | arrayGet r array index =>
    obtain ⟨t, hrs⟩ := hbind hrs
    obtain ⟨t', hrs⟩ := hbind hrs
    obtain ⟨t'', hrs⟩ := hbind hrs
    exact hone hrs
  | arraySet r array index value =>
    obtain ⟨t, hrs⟩ := hbind hrs
    obtain ⟨t', hrs⟩ := hbind hrs
    obtain ⟨t'', hrs⟩ := hbind hrs
    exact hone hrs
  | _ =>
    first
      | exact hone hrs
      | (obtain rfl := Option.some.inj hrs; rfl)
      | (obtain ⟨t, hrs⟩ := hbind hrs; exact hone hrs)
      | (obtain ⟨t, hrs⟩ := hbind hrs; obtain ⟨t', hrs⟩ := hbind hrs; exact hone hrs)

theorem OpCode.resultTypes_mapInputs (ρ : ValueId → ValueId) :
    (op.mapInputs ρ).resultTypes signatures types =
      op.resultTypes signatures fun v => types (ρ v) := by
  induction op with
  | guard condition inner ih => exact ih
  | call results target args uncon =>
    cases target <;> simp [mapInputs, resultTypes, CallTarget.map]
  | writeWitness r v pinned => cases r <;> rfl
  | _ => rfl

end ResultTypes

/-! ## `Types::run_function`

Each value is given its type once, in single-assignment form.
-/

def insertTypes (types : ValueId → Option TypeExpr) (rs : List (ValueId × TypeExpr)) :
    ValueId → Option TypeExpr :=
  rs.foldl (fun types p => Function.update types p.1 (some p.2)) types

section Run

variable (signatures : FunctionId → Option (List TypeExpr × List TypeExpr))

def runOpcode (types : ValueId → Option TypeExpr) (op : OpCode) :
    Option (ValueId → Option TypeExpr) := do
  return insertTypes types (← op.resultTypes signatures types)

def typeBlock (f : Function) (types : ValueId → Option TypeExpr) (b : BlockId) :
    Option (ValueId → Option TypeExpr) := do
  let block ← f.block b
  block.instructions.foldlM (runOpcode signatures) (insertTypes types block.parameters)

/-- `Types::run_function`; `order` is the domination pre-order. -/
def Function.types (f : Function) (constants : List (ValueId × Constant)) (order : List BlockId) :
    Option (ValueId → Option TypeExpr) :=
  order.foldlM (typeBlock signatures f) fun v => (constants.lookup v).map Constant.type

/-- What the types of a function's values say. -/
structure Function.Typing (f : Function) (constants : List (ValueId × Constant))
    (types : ValueId → Option TypeExpr) : Prop where
  constant : ∀ v k, constants.lookup v = some k → types v = some k.type
  param : ∀ b block, Reachable f.entryBlock f.Edge b → f.block b = some block →
    ∀ p ∈ block.parameters, types p.1 = some p.2
  instruction : ∀ b block, Reachable f.entryBlock f.Edge b → f.block b = some block →
    ∀ op ∈ block.instructions, ∃ rs, op.resultTypes signatures types = some rs ∧
      ∀ p ∈ rs, types p.1 = some p.2
  named : ∀ v t, types v = some t → (constants.lookup v).isSome ∨ ∃ b, f.DefinedIn b v

end Run

/-- The second assignment gives every type the first gives. -/
def MoreTypes (types types' : ValueId → Option TypeExpr) : Prop :=
  ∀ v t, types v = some t → types' v = some t

section Consistent

variable {signatures : FunctionId → Option (List TypeExpr × List TypeExpr)} {f : Function}
  {types types' : ValueId → Option TypeExpr}

theorem insertTypes_of_notMem {rs : List (ValueId × TypeExpr)} {v : ValueId}
    (h : v ∉ rs.map Prod.fst) : insertTypes types rs v = types v := by
  induction rs generalizing types with
  | nil => rfl
  | cons p rs ih =>
    simp only [List.map_cons, List.mem_cons, not_or] at h
    exact (ih h.2).trans (Function.update_of_ne h.1 ..)

theorem insertTypes_of_mem {rs : List (ValueId × TypeExpr)} (hnodup : (rs.map Prod.fst).Nodup)
    {p : ValueId × TypeExpr} (hp : p ∈ rs) : insertTypes types rs p.1 = some p.2 := by
  induction rs generalizing types with
  | nil => simp at hp
  | cons q rs ih =>
    rw [List.map_cons, List.nodup_cons] at hnodup
    rcases List.mem_cons.mp hp with rfl | hp
    · exact (insertTypes_of_notMem hnodup.1).trans (Function.update_self ..)
    · exact ih hnodup.2 hp

theorem moreTypes_insertTypes {rs : List (ValueId × TypeExpr)}
    (hfresh : ∀ v ∈ rs.map Prod.fst, types v = none) : MoreTypes types (insertTypes types rs) := by
  intro v t hv
  rw [insertTypes_of_notMem, hv]
  intro hmem
  rw [hfresh v hmem] at hv
  simp at hv

/-- What a stretch of the walk does that assigns types to the values `vs`. -/
structure Assigns (types types' : ValueId → Option TypeExpr) (vs : List ValueId) : Prop where
  more : MoreTypes types types'
  named : ∀ v, v ∉ vs → types' v = types v

theorem Assigns.trans {types'' : ValueId → Option TypeExpr} {vs vs' : List ValueId}
    (h : Assigns types types' vs) (h' : Assigns types' types'' vs') :
    Assigns types types'' (vs ++ vs') where
  more v t hv := h'.more v t (h.more v t hv)
  named v hv := by
    rw [List.mem_append, not_or] at hv
    exact (h'.named v hv.2).trans (h.named v hv.1)

theorem assigns_insertTypes {rs : List (ValueId × TypeExpr)}
    (hfresh : ∀ v ∈ rs.map Prod.fst, types v = none) :
    Assigns types (insertTypes types rs) (rs.map Prod.fst) where
  more := moreTypes_insertTypes hfresh
  named _ hv := insertTypes_of_notMem hv

theorem runOpcodes_spec {ops : List OpCode}
    (h : ops.foldlM (runOpcode signatures) types = some types')
    (hnodup : (ops.flatMap OpCode.results).Nodup)
    (hfresh : ∀ v ∈ ops.flatMap OpCode.results, types v = none) :
    Assigns types types' (ops.flatMap OpCode.results) ∧
      ∀ op ∈ ops, ∃ rs, op.resultTypes signatures types' = some rs ∧
        ∀ p ∈ rs, types' p.1 = some p.2 := by
  induction ops generalizing types with
  | nil =>
    obtain rfl := Option.some.inj h
    exact ⟨⟨fun _ _ h => h, fun _ _ => rfl⟩, by simp⟩
  | cons op ops ih =>
    rw [List.foldlM_cons, Option.bind_eq_bind, Option.bind_eq_some_iff] at h
    obtain ⟨types₁, h₁, h⟩ := h
    obtain ⟨rs, hrs, h₁⟩ := Option.bind_eq_some_iff.mp h₁
    obtain rfl := Option.some.inj h₁
    have hfst := OpCode.resultTypes_fst hrs
    rw [List.flatMap_cons] at hnodup hfresh ⊢
    rw [List.nodup_append] at hnodup
    have hop : Assigns types (insertTypes types rs) op.results := by
      rw [← hfst]
      exact assigns_insertTypes fun v hv => hfresh v (List.mem_append_left _ (hfst ▸ hv))
    obtain ⟨htail, hops⟩ := ih h hnodup.2.1 fun v hv => by
      rw [hop.named v fun hmem => hnodup.2.2 v hmem v hv rfl]
      exact hfresh v (List.mem_append_right _ hv)
    refine ⟨hop.trans htail, List.forall_mem_cons.mpr ⟨⟨rs, ?_, fun p hp => ?_⟩, hops⟩⟩
    · exact OpCode.resultTypes_mono (fun v _ t ht => htail.more v t (hop.more v t ht)) hrs
    · exact htail.more _ _ (insertTypes_of_mem (hfst ▸ hnodup.1) hp)

/-- The walk over one block, and over the rest of the order, assigns each type once. -/
theorem typeBlocks_spec {constants : List (ValueId × Constant)}
    (hssa : f.SingleAssignment constants)
    {order : List BlockId} (h : order.foldlM (typeBlock signatures f) types = some types')
    (hnodup : order.Nodup) (hfresh : ∀ b ∈ order, ∀ v, f.DefinedIn b v → types v = none) :
    MoreTypes types types' ∧
      (∀ v, (∀ b ∈ order, ¬f.DefinedIn b v) → types' v = types v) ∧
        ∀ b ∈ order, ∀ block, f.block b = some block →
          (∀ p ∈ block.parameters, types' p.1 = some p.2) ∧
            ∀ op ∈ block.instructions, ∃ rs, op.resultTypes signatures types' = some rs ∧
              ∀ p ∈ rs, types' p.1 = some p.2 := by
  induction order generalizing types with
  | nil =>
    obtain rfl := Option.some.inj h
    exact ⟨fun _ _ h => h, fun _ _ => rfl, by simp⟩
  | cons b order ih =>
    rw [List.foldlM_cons, Option.bind_eq_bind, Option.bind_eq_some_iff] at h
    obtain ⟨types₁, h₁, h⟩ := h
    obtain ⟨block, hblock, h₁⟩ := Option.bind_eq_some_iff.mp h₁
    rw [List.nodup_cons] at hnodup
    have honce := hssa.once b block hblock
    rw [Block.definitions, List.nodup_append] at honce
    have hnone : ∀ v ∈ block.definitions, types v = none := fun v hv =>
      hfresh b List.mem_cons_self v ⟨block, hblock, hv⟩
    have hparams : Assigns types (insertTypes types block.parameters)
        (block.parameters.map Prod.fst) :=
      assigns_insertTypes fun v hv => hnone v (List.mem_append_left _ hv)
    obtain ⟨hops, hinstr⟩ := runOpcodes_spec h₁ honce.2.1 fun v hv => by
      rw [hparams.named v fun hmem => honce.2.2 v hmem v hv rfl]
      exact hnone v (List.mem_append_right _ hv)
    have hhead := hparams.trans hops
    obtain ⟨hmore, hnamed, htail⟩ := ih h hnodup.2 fun b' hb' v hv => by
      rw [hhead.named v fun hmem => ?_]
      · exact hfresh b' (List.mem_cons_of_mem _ hb') v hv
      · exact hnodup.1 (hssa.block v _ _ ⟨block, hblock, hmem⟩ hv ▸ hb')
    refine ⟨fun v t hv => hmore v t (hhead.more v t hv), fun v hv => ?_, ?_⟩
    · rw [hnamed v fun b' hb' => hv b' (List.mem_cons_of_mem _ hb')]
      exact hhead.named v fun hmem => hv b List.mem_cons_self ⟨block, hblock, hmem⟩
    · refine List.forall_mem_cons.mpr ⟨fun block' hblock' => ?_, htail⟩
      obtain rfl := Option.some.inj (hblock.symm.trans hblock')
      refine ⟨fun p hp => hmore _ _ (hops.more _ _ (insertTypes_of_mem honce.1 hp)), ?_⟩
      intro op hop
      obtain ⟨rs, hrs, htypes⟩ := hinstr op hop
      exact ⟨rs, OpCode.resultTypes_mono (fun v _ t ht => hmore v t ht) hrs,
        fun p hp => hmore _ _ (htypes p hp)⟩

/-- The types that `Types::run_function` gives are consistent. -/
theorem Function.types_typing {constants : List (ValueId × Constant)}
    (hssa : f.SingleAssignment constants) {order : List BlockId} (hnodup : order.Nodup)
    (horder : ∀ b, b ∈ order ↔ Reachable f.entryBlock f.Edge b)
    (h : f.types signatures constants order = some types) :
    f.Typing signatures constants types := by
  obtain ⟨hmore, hnamed, hblocks⟩ := typeBlocks_spec hssa h hnodup fun b _ v hv => by
    rw [hssa.noConstant b v hv]
    rfl
  refine ⟨fun v k hk => ?_, fun b block hb hblock => ?_, fun b block hb hblock => ?_,
    fun v t hv => ?_⟩
  · exact hmore v _ (congrArg (Option.map Constant.type) hk)
  · exact (hblocks b ((horder b).mpr hb) block hblock).1
  · exact (hblocks b ((horder b).mpr hb) block hblock).2
  · by_contra hnot
    rw [not_or, not_exists] at hnot
    rw [hnamed v fun b _ => hnot.2 b] at hv
    cases hk : constants.lookup v with
    | none => rw [hk] at hv; simp at hv
    | some k => exact hnot.1 (by rw [hk]; rfl)

end Consistent

/-! ## Typed runs

By induction along the run, with the block's own instructions inside.
-/

section Typed

variable {A W : Type} {C : Completion A W}
  {signatures : FunctionId → Option (List TypeExpr × List TypeExpr)} {f : Function}
  {constants : List (ValueId × Constant)} {types : ValueId → Option TypeExpr}

/-- Bound values have their types. -/
def HasTypes (types : ValueId → Option TypeExpr) (env : Env (Value A)) : Prop :=
  ∀ v x, env v = some x → types v = some x.type

/-- The block was entered with arguments of its parameters' types. -/
def ParamsTyped (f : Function) (s : State (Value A) W) : Prop :=
  ∀ block, f.block s.block = some block → ∀ p ∈ block.parameters,
    ∃ x, s.env p.1 = some x ∧ x.type = p.2

theorem HasTypes.bindAll {env : Env (Value A)} (h : HasTypes types env)
    {rs : List (ValueId × TypeExpr)} {ys : List (Value A)}
    (hrs : ∀ p ∈ rs, types p.1 = some p.2) (hys : rs.map Prod.snd = ys.map Value.type) :
    HasTypes types (env.bindAll (rs.map Prod.fst) ys) := by
  induction rs generalizing env ys with
  | nil => exact h
  | cons p rs ih =>
    cases ys with
    | nil => exact h
    | cons y ys =>
      obtain ⟨hy, hys⟩ := List.cons.inj hys
      refine ih (fun v x hv => ?_) (fun q hq => hrs q (List.mem_cons_of_mem _ hq)) hys
      by_cases hvp : v = p.1
      · subst hvp
        rw [Function.update_self] at hv
        obtain rfl := Option.some.inj hv
        rw [hrs p List.mem_cons_self, hy]
      · rw [Function.update_of_ne hvp] at hv
        exact h v x hv

theorem HasTypes.read {env : Env (Value A)} (h : HasTypes types env)
    (htyping : f.Typing signatures constants types) {v : ValueId} {x : Value A}
    (hx : Env.read ((valueSem C).table constants) env v = some x) : types v = some x.type := by
  rw [Env.read, Sem.table] at hx
  cases hk : constants.lookup v with
  | some k =>
    rw [hk] at hx
    obtain rfl := Option.some.inj hx
    rw [htyping.constant v k hk]
    cases k <;> rfl
  | none =>
    rw [hk] at hx
    exact h v x hx

theorem HasTypes.inputs {env : Env (Value A)} (h : HasTypes types env)
    (htyping : f.Typing signatures constants types) {vs : List ValueId} {xs : List (Value A)}
    (hxs : vs.mapM (Env.read ((valueSem C).table constants) env) = some xs) :
    vs.map types = xs.map fun x => some x.type := by
  induction vs generalizing xs with
  | nil =>
    obtain rfl := Option.some.inj hxs
    rfl
  | cons v vs ih =>
    simp only [List.mapM_cons, Option.bind_eq_bind, Option.bind_eq_some_iff, Option.pure_def,
      Option.some.injEq] at hxs
    obtain ⟨x, hx, xs, hxs, rfl⟩ := hxs
    rw [List.map_cons, List.map_cons, ih hxs, h.read htyping hx]

theorem HasTypes.execInstruction {env env' : Env (Value A)} {w w' : W} (hC : C.Typed signatures)
    (h : HasTypes types env) (htyping : f.Typing signatures constants types) {op : OpCode}
    (hop : ∃ rs, op.resultTypes signatures types = some rs ∧ ∀ p ∈ rs, types p.1 = some p.2)
    (hexec : execInstruction (valueSem C) ((valueSem C).table constants) op env w
      = (w', some env')) : HasTypes types env' := by
  obtain ⟨rs, hrs, htypes⟩ := hop
  unfold Hlssa.execInstruction at hexec
  split at hexec
  · simp at hexec
  · next xs hxs =>
    split at hexec
    · simp at hexec
    · next w'' ys hys =>
      split at hexec
      · obtain rfl := Option.some.inj (Prod.mk.inj hexec).2
        rw [← OpCode.resultTypes_fst hrs]
        exact h.bindAll htypes (valueSem_typed hC (h.inputs htyping hxs) hys hrs)
      · simp at hexec

theorem HasTypes.execInstructions {env env' : Env (Value A)} {w w' : W} (hC : C.Typed signatures)
    (h : HasTypes types env) (htyping : f.Typing signatures constants types) {ops : List OpCode}
    (hops : ∀ op ∈ ops, ∃ rs, op.resultTypes signatures types = some rs ∧
      ∀ p ∈ rs, types p.1 = some p.2)
    (hexec : execInstructions (valueSem C) ((valueSem C).table constants) ops env w
      = (w', some env')) : HasTypes types env' := by
  induction ops generalizing env w with
  | nil =>
    obtain ⟨-, hexec⟩ := Prod.mk.inj hexec
    exact Option.some.inj hexec ▸ h
  | cons op ops ih =>
    rw [List.forall_mem_cons] at hops
    rw [Hlssa.execInstructions] at hexec
    split at hexec
    · simp at hexec
    · next w₁ env₁ h₁ => exact ih (h.execInstruction hC htyping hops.1 h₁) hops.2 hexec

variable [DecidableEq (Value A)] {init s : State (Value A) W} {older : List (State (Value A) W)}

/-- Every value a run has bound has its type. -/
theorem Run.hasTypes (hC : C.Typed signatures) (htyping : f.Typing signatures constants types)
    (hinit : f.Initial init)
    (hentry : ∀ s older, Run (valueSem C) ((valueSem C).table constants) f init (s :: older) →
      ParamsTyped f s)
    (hrun : Run (valueSem C) ((valueSem C).table constants) f init (s :: older)) :
    HasTypes types s.env := by
  generalize hall : s :: older = all at hrun
  induction hrun generalizing s older with
  | start =>
    obtain ⟨rfl, rfl⟩ := List.cons.inj hall
    obtain ⟨hb, block, args, hblock, henv⟩ := hinit
    intro v x hv
    have hv' := hv
    rw [henv] at hv'
    obtain ⟨p, hp, rfl⟩ := List.mem_map.mp (Env.mem_of_bindAll hv' rfl)
    obtain ⟨x', hx', htype⟩ := hentry s [] .start block (hb ▸ hblock) p hp
    obtain rfl := Option.some.inj (hv.symm.trans hx')
    rw [htyping.param _ block ⟨[], .start⟩ hblock p hp, htype]
  | @step t s' rest hrun hstep ih =>
    obtain ⟨rfl, rfl⟩ := List.cons.inj hall
    have htypes := ih rfl
    have hreach : Reachable f.entryBlock f.Edge t.block := ⟨_, hrun.walk hinit.1⟩
    have hnext := hrun.step hstep
    have hreach' : Reachable f.entryBlock f.Edge s.block := ⟨_, hnext.walk hinit.1⟩
    obtain ⟨block, env, w, target, args, block', hblock, hexec, -, hblock', rfl⟩ :=
      stepBlock_eq_jumped hstep
    intro v x hv
    by_cases hparam : v ∈ block'.parameters.map Prod.fst
    · obtain ⟨p, hp, rfl⟩ := List.mem_map.mp hparam
      obtain ⟨x', hx', htype⟩ := hentry _ _ hnext block' hblock' p hp
      obtain rfl := Option.some.inj (hv.symm.trans hx')
      rw [htyping.param _ block' hreach' hblock' p hp, htype]
    · have hv : env v = some x := (Env.bindAll_of_notMem hparam env args).symm.trans hv
      exact htypes.execInstructions hC htyping (htyping.instruction _ block hreach hblock) hexec
        v x hv

/-- The arguments of every jump have the types of the parameters. -/
def JumpsTyped (f : Function) (types : ValueId → Option TypeExpr) : Prop :=
  ∀ b block target args, Reachable f.entryBlock f.Edge b → f.block b = some block →
    block.terminator = some (.jmp target args) → ∀ block', f.block target = some block' →
      args.map types = block'.parameters.map fun p => some p.2

omit [DecidableEq (Value A)] in
theorem bindAll_types {env : Env (Value A)} {ps : List (ValueId × TypeExpr)} {xs : List (Value A)}
    (hnodup : (ps.map Prod.fst).Nodup) (hxs : xs.map Value.type = ps.map Prod.snd)
    {p : ValueId × TypeExpr} (hp : p ∈ ps) :
    ∃ x, env.bindAll (ps.map Prod.fst) xs p.1 = some x ∧ x.type = p.2 := by
  induction ps generalizing env xs with
  | nil => simp at hp
  | cons q ps ih =>
    rw [List.map_cons, List.nodup_cons] at hnodup
    cases xs with
    | nil => simp at hxs
    | cons x xs =>
      obtain ⟨hx, hxs⟩ := List.cons.inj hxs
      rcases List.mem_cons.mp hp with rfl | hp
      · refine ⟨x, ?_, hx⟩
        exact (Env.bindAll_of_notMem hnodup.1 _ _).trans (Function.update_self ..)
      · exact ih hnodup.2 hxs hp

/-- In a function whose jumps are typed, every block is entered with typed arguments. -/
theorem JumpsTyped.entry (hjumps : JumpsTyped f types) (hC : C.Typed signatures)
    (htyping : f.Typing signatures constants types) (hssa : f.SingleAssignment constants)
    (hinit : f.Initial init) (hparams : ParamsTyped f init)
    (hrun : Run (valueSem C) ((valueSem C).table constants) f init (s :: older)) :
    ParamsTyped f s ∧ HasTypes types s.env := by
  have henter : ∀ {s₁ : State (Value A) W}, Reachable f.entryBlock f.Edge s₁.block →
      ParamsTyped f s₁ → (∀ v x, s₁.env v = some x →
        (∃ block, f.block s₁.block = some block ∧ v ∈ block.parameters.map Prod.fst) ∨
          types v = some x.type) → HasTypes types s₁.env := by
    intro s₁ hreach htyped hothers v x hx
    rcases hothers v x hx with ⟨block, hblock, hv⟩ | htype
    · obtain ⟨p, hp, rfl⟩ := List.mem_map.mp hv
      obtain ⟨x', hx', htype⟩ := htyped block hblock p hp
      obtain rfl := Option.some.inj (hx.symm.trans hx')
      rw [htyping.param _ block hreach hblock p hp, htype]
    · exact htype
  generalize hall : s :: older = all at hrun
  induction hrun generalizing s older with
  | start =>
    obtain ⟨rfl, rfl⟩ := List.cons.inj hall
    refine ⟨hparams, henter ⟨[], hinit.1 ▸ .start⟩ hparams fun v x hx => .inl ?_⟩
    obtain ⟨hb, block, args, hblock, henv⟩ := hinit
    rw [henv] at hx
    exact ⟨block, hb ▸ hblock, Env.mem_of_bindAll hx rfl⟩
  | @step t s' rest hrun hstep ih =>
    obtain ⟨rfl, rfl⟩ := List.cons.inj hall
    obtain ⟨-, htypes⟩ := ih rfl
    have hreach : Reachable f.entryBlock f.Edge t.block := ⟨_, hrun.walk hinit.1⟩
    have hreach' : Reachable f.entryBlock f.Edge s.block := ⟨_, (hrun.step hstep).walk hinit.1⟩
    unfold stepBlock at hstep
    split at hstep
    · simp at hstep
    · next block hblock =>
      split at hstep
      · simp at hstep
      · next w env hexec =>
        have htypes' := htypes.execInstructions hC htyping
          (htyping.instruction _ block hreach hblock) hexec
        split at hstep
        · simp at hstep
        · next term hterm =>
          have hparamsTyped : ParamsTyped f s ∧ ∃ block' args, f.block s.block = some block' ∧
              s.env = env.bindAll (block'.parameters.map Prod.fst) args := by
            cases term with
            | jmp target args =>
              simp only [execTerminator] at hstep
              split at hstep
              · next xs hxs =>
                obtain ⟨block', hblock', hlen, rfl⟩ := enter_eq_jumped hstep
                refine ⟨fun block'' hblock'' p hp => ?_, block', xs, hblock', rfl⟩
                obtain rfl := Option.some.inj (hblock'.symm.trans hblock'')
                have hin := htypes'.inputs htyping hxs
                rw [hjumps _ block target args hreach hblock hterm _ hblock'] at hin
                have hxs' : xs.map Value.type = block'.parameters.map Prod.snd := by
                  have := congrArg (List.map fun o : Option TypeExpr => o.getD .field) hin
                  simpa [Function.comp_def] using this.symm
                have honce := hssa.once _ block' hblock'
                rw [Block.definitions, List.nodup_append] at honce
                exact bindAll_types honce.1 hxs' hp
              · simp at hstep
            | jmpIf cond ifT ifF =>
              simp only [execTerminator] at hstep
              have hnone : ∀ {target : BlockId}, enter f target [] env w = .jumped s →
                  ParamsTyped f s ∧ ∃ block' args, f.block s.block = some block' ∧
                    s.env = env.bindAll (block'.parameters.map Prod.fst) args := by
                intro target henter'
                obtain ⟨block', hblock', hlen, rfl⟩ := enter_eq_jumped henter'
                refine ⟨fun block'' hblock'' p hp => ?_, block', [], hblock', rfl⟩
                obtain rfl := Option.some.inj (hblock'.symm.trans hblock'')
                rw [List.length_eq_zero_iff.mp hlen.symm] at hp
                simp at hp
              split at hstep
              · split at hstep
                · exact hnone hstep
                · split at hstep
                  · exact hnone hstep
                  · simp at hstep
              · simp at hstep
            | «return» vals =>
              simp only [execTerminator] at hstep
              split at hstep <;> simp at hstep
          obtain ⟨hs, block', args, hblock', henv⟩ := hparamsTyped
          refine ⟨hs, henter hreach' hs fun v x hx => ?_⟩
          by_cases hv : v ∈ block'.parameters.map Prod.fst
          · exact .inl ⟨block', hblock', hv⟩
          · rw [henv, Env.bindAll_of_notMem hv] at hx
            exact .inr (htypes' v x hx)

theorem Reached.hasTypes (hC : C.Typed signatures) (htyping : f.Typing signatures constants types)
    (hinit : f.Initial init)
    (hentry : ∀ s older, Run (valueSem C) ((valueSem C).table constants) f init (s :: older) →
      ParamsTyped f s)
    {block : Block} {pre post : List OpCode} {env : Env (Value A)} {w : W}
    (h : Reached (valueSem C) ((valueSem C).table constants) f init s older block pre post env w) :
    HasTypes types env := by
  refine (h.run.hasTypes hC htyping hinit hentry).execInstructions hC htyping
    (fun op hop => ?_) h.exec
  refine htyping.instruction _ block (h.reachable hinit) h.atBlock op ?_
  rw [h.split]
  exact List.mem_append_left _ hop

end Typed

end Mavros.Hlssa
