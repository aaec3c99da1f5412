/-
# `Mavros.Hlssa.Rewriting` — functions with instructions dropped and replaced

A pass that drops or replaces single instructions and renames what the others read is
sound when, at every point a run of the original reaches, each instruction does what its
rewriting does on the original's own environment.  Then the two functions run side by
side, and every remaining instruction sees the same values.

## What is proved

`Function.Rewritten.runsAlike` is the main result: if a function is a rewriting of another one
(`Function.Rewritten`), each run of one is a run of the other, block for block, with the same
world, the same end and the same values of everything that remains (`RunsAlike`).
`Function.Rewritten.strict` and `Function.Rewritten.singleAssignment` say that the rewritten
function is in the same form, so that the next pass can be proved the same way, and
`RunsAlike.trans` puts passes together.

## What a pass has to show

Only what concerns single instructions, and only about runs of the original: an instruction that
is left out cannot fail and does nothing but give its results (`Dropped`), and one that stays does
the same with its new operands (`Kept`), in the environment of the original.  A pass therefore
argues about one function and one environment at a time; that the second function's
environment has the same values is proved here, once.

## How it goes

The environments agree on what remains (`Agrees`).  One kept instruction keeps this
(`execInstruction_kept`), a dropped one does (`Agrees.drop`), so do the instructions of a block
(`InstructionsRewritten.exec`), a block (`Function.Rewritten.stepBlock`) and a run.
-/
import Mathlib.Data.List.Forall2
import Mathlib.Order.Defs.Unbundled
import Mavros.Hlssa.Available

namespace Mavros.Hlssa

open Lib (Walk Reachable Dominates)

/-! ## Bound values

In strict single-assignment form a value that is read was bound.
-/

section Bound

variable {V W : Type} {S : Sem V W} {K : Env V} {f : Function}

theorem Env.bindAll_bound {vs : List ValueId} {xs : List V} {env : Env V} {v : ValueId}
    (h : ∃ x, env v = some x) : ∃ x, env.bindAll vs xs v = some x := by
  induction vs generalizing env xs with
  | nil => exact h
  | cons u vs ih =>
    cases xs with
    | nil => exact h
    | cons y xs =>
      refine ih ?_
      by_cases hv : v = u
      · exact ⟨y, by rw [hv, Function.update_self]⟩
      · rw [Function.update_of_ne hv]
        exact h

theorem Env.bindAll_binds {vs : List ValueId} {xs : List V} {env : Env V} {v : ValueId}
    (hlen : xs.length = vs.length) (hv : v ∈ vs) : ∃ x, env.bindAll vs xs v = some x := by
  induction vs generalizing env xs with
  | nil => simp at hv
  | cons u vs ih =>
    cases xs with
    | nil => simp at hlen
    | cons y xs =>
      rcases List.mem_cons.mp hv with rfl | hv
      · have hbound : ∃ x, Function.update env v (some y) v = some x := ⟨y, Function.update_self ..⟩
        show ∃ x, Env.bindAll (Function.update env v (some y)) vs xs v = some x
        exact Env.bindAll_bound hbound
      · exact ih (Nat.succ.inj hlen) hv

theorem execInstruction_eq_some {op : OpCode} {env env' : Env V} {w w' : W}
    (h : execInstruction S K op env w = (w', some env')) :
    ∃ xs ys, op.inputs.mapM (Env.read K env) = some xs ∧ S.op op.shape xs w = (w', some ys) ∧
      ys.length = op.results.length ∧ env' = env.bindAll op.results ys := by
  unfold execInstruction at h
  split at h
  · simp at h
  · next xs hxs =>
    split at h
    · simp at h
    · next w'' ys hys =>
      split at h
      · next hlen =>
        have henv := Option.some.inj (Prod.mk.inj h).2
        obtain rfl := (Prod.mk.inj h).1
        exact ⟨xs, ys, hxs, hys, hlen, henv.symm⟩
      · simp at h

theorem execInstructions_bound {ops : List OpCode} {env env' : Env V} {w w' : W} {v : ValueId}
    (h : execInstructions S K ops env w = (w', some env'))
    (hv : (∃ x, env v = some x) ∨ v ∈ ops.flatMap OpCode.results) : ∃ x, env' v = some x := by
  induction ops generalizing env w with
  | nil =>
    obtain rfl := Option.some.inj (Prod.mk.inj h).2
    simpa using hv
  | cons op ops ih =>
    rw [execInstructions] at h
    split at h
    · simp at h
    · next w₁ env₁ h₁ =>
      obtain ⟨xs, ys, -, -, hlen, rfl⟩ := execInstruction_eq_some h₁
      refine ih h ?_
      rcases hv with hv | hv
      · exact .inl (Env.bindAll_bound hv)
      · rw [List.flatMap_cons, List.mem_append] at hv
        rcases hv with hv | hv
        · exact .inl (Env.bindAll_binds hlen hv)
        · exact .inr hv

variable [DecidableEq V] {init s : State V W} {older : List (State V W)}

variable (f) in
/-- The parameters of the current block are bound. -/
def ParamsBound (s : State V W) : Prop :=
  ∀ block, f.block s.block = some block → ∀ v ∈ block.parameters.map Prod.fst,
    ∃ x, s.env v = some x

theorem stepBlock_eq_jumped_bound {s' : State V W} (h : stepBlock S K f s = .jumped s') :
    ParamsBound f s' := by
  unfold stepBlock at h
  split at h
  · simp at h
  · split at h
    · simp at h
    · split at h
      · simp at h
      · obtain ⟨target, args, -, henter⟩ := execTerminator_eq_jumped h
        obtain ⟨block', hblock', hlen, rfl⟩ := enter_eq_jumped henter
        intro block hblock v hv
        obtain rfl := Option.some.inj (hblock'.symm.trans hblock)
        exact Env.bindAll_binds (by simpa using hlen) hv

theorem Run.paramsBound (h : Run S K f init (s :: older)) (hinit : ParamsBound f init) :
    ParamsBound f s := by
  cases h with
  | start => exact hinit
  | step _ hstep => exact stepBlock_eq_jumped_bound hstep

/-- What an earlier block of the run defines is bound. -/
theorem Run.bound (h : Run S K f init (s :: older)) (hinit : ParamsBound f init)
    {t : State V W} (ht : t ∈ older) {v : ValueId} (hdef : f.DefinedIn t.block v) :
    ∃ x, s.env v = some x := by
  generalize hall : s :: older = all at h
  induction h generalizing s older with
  | start =>
    obtain ⟨-, rfl⟩ := List.cons.inj hall
    simp at ht
  | @step t' s' rest hrun hstep ih =>
    obtain ⟨rfl, rfl⟩ := List.cons.inj hall
    obtain ⟨block, env, w, target, args, block', hblock, hexec, -, -, rfl⟩ :=
      stepBlock_eq_jumped hstep
    refine Env.bindAll_bound (execInstructions_bound hexec ?_)
    rcases List.mem_cons.mp ht with rfl | ht
    · obtain ⟨b, hb, hv⟩ := hdef
      obtain rfl := Option.some.inj (hblock.symm.trans hb)
      rcases List.mem_append.mp hv with hv | hv
      · exact .inl (hrun.paramsBound hinit block hblock v hv)
      · exact .inr hv
    · exact .inl (ih ht rfl)

variable {block : Block} {pre post : List OpCode} {env : Env V} {w : W}
  {constants : List (ValueId × Constant)}

/-- An available value can be read. -/
theorem Reached.bound (h : Reached S K f init s older block pre post env w)
    (hinit : f.Initial init) (hbound : ParamsBound f init) {v : ValueId}
    (hv : f.Available constants s.block pre v) :
    ∃ x, Env.read (S.table constants) env v = some x := by
  cases hK : S.table constants v with
  | some x => exact ⟨x, by rw [Env.read, hK]; rfl⟩
  | none =>
    rw [Env.read, hK, Option.none_or]
    refine execInstructions_bound h.exec ?_
    cases hv with
    | constant hconst =>
      obtain ⟨k, hk⟩ := Option.isSome_iff_exists.mp hconst
      rw [Sem.table, hk] at hK
      simp at hK
    | param hblock hparam => exact .inl (h.run.paramsBound hbound _ hblock v hparam)
    | result hres => exact .inr hres
    | @dominated d hne hdom hdef =>
      left
      have hmem := hdom _ (h.run.walk hinit.1)
      obtain ⟨t, ht, rfl⟩ : ∃ t ∈ older, t.block = d := by
        rcases List.mem_cons.mp hmem with rfl | hmem
        · exact absurd rfl hne
        · exact List.mem_map.mp hmem
      exact h.run.bound hbound ht hdef

theorem Reached.next {op : OpCode} {env' : Env V} {w' : W}
    (h : Reached S K f init s older block pre (op :: post) env w)
    (hop : execInstruction S K op env w = (w', some env')) :
    Reached S K f init s older block (pre ++ [op]) post env' w' := by
  refine ⟨h.run, h.atBlock, by rw [h.split]; simp, ?_⟩
  rw [execInstructions_append, h.exec]
  simp only [execInstructions, hop]

end Bound

/-! ## What a rewriting has to show

The relation between a function and its rewriting, from one instruction up.  Each field that asks
for something asks for it at the points a run of the original reaches.
-/

section Rewriting

variable {V W : Type} (S : Sem V W) (K K' : Env V) (f : Function)
  (constants : List (ValueId × Constant)) (init : State V W) (dropped : ValueId → Prop)
  (swaps : OpCode → OpCode → Prop)

/-- The rewritten instruction reads what the instruction read, or is another that gives
the same. -/
def SameUse (op op' : OpCode) (env : Env V) : Prop :=
  op'.shape = op.shape ∧ op'.inputs.mapM (Env.read K' env) = op.inputs.mapM (Env.read K env) ∨
    swaps op.shape op'.shape ∧ ∃ xs ys, op.inputs.mapM (Env.read K env) = some xs ∧
      op'.inputs.mapM (Env.read K' env) = some ys ∧
        ∀ w, S.op op'.shape ys w = S.op op.shape xs w

variable [DecidableEq V]

/-- The instruction is left out: it cannot fail and does nothing but give its results. -/
structure Dropped (b : BlockId) (pre : List OpCode) (op : OpCode) : Prop where
  results : ∀ v ∈ op.results, dropped v
  exec : ∀ s older block post env w, s.block = b →
    Reached S K f init s older block pre (op :: post) env w →
      ∃ env', execInstruction S K op env w = (w, some env')

/-- The instruction stays, with other operands or in another form. -/
structure Kept (b : BlockId) (pre : List OpCode) (op op' : OpCode) : Prop where
  results : op'.results = op.results
  remain : ∀ v ∈ op.results, ¬dropped v
  inputs : Reachable f.entryBlock f.Edge b → ∀ v ∈ op'.inputs,
    f.Available constants b pre v ∧ ¬dropped v
  exec : ∀ s older block post env w, s.block = b →
    Reached S K f init s older block pre (op :: post) env w → SameUse S K K' swaps op op' env

inductive InstructionsRewritten (b : BlockId) :
    List OpCode → List OpCode → List OpCode → Prop
  | nil (pre : List OpCode) : InstructionsRewritten b pre [] []
  | drop {pre : List OpCode} {op : OpCode} {ops ops' : List OpCode}
      (h : Dropped S K f init dropped b pre op)
      (rest : InstructionsRewritten b (pre ++ [op]) ops ops') :
      InstructionsRewritten b pre (op :: ops) ops'
  | keep {pre : List OpCode} {op op' : OpCode} {ops ops' : List OpCode}
      (h : Kept S K K' f constants init dropped swaps b pre op op')
      (rest : InstructionsRewritten b (pre ++ [op]) ops ops') :
      InstructionsRewritten b pre (op :: ops) (op' :: ops')

structure TerminatorRewritten (b : BlockId) (ops : List OpCode) (σ : ValueId → ValueId)
    (t : Terminator) : Prop where
  inputs : Reachable f.entryBlock f.Edge b → ∀ v ∈ t.inputs,
    f.Available constants b ops (σ v) ∧ ¬dropped (σ v)
  exec : ∀ s older block env w, s.block = b → Reached S K f init s older block ops [] env w →
    ∀ v ∈ t.inputs, Env.read K' env (σ v) = Env.read K env v

structure BlockRewritten (b : BlockId) (block block' : Block) : Prop where
  parameters : block'.parameters = block.parameters
  instructions : InstructionsRewritten S K K' f constants init dropped swaps b []
    block.instructions block'.instructions
  terminator : ∃ t σ, block.terminator = some t ∧ block'.terminator = some (t.map σ) ∧
    TerminatorRewritten S K K' f constants init dropped b block.instructions σ t

/-- The rewritten function, block by block. -/
structure Function.Rewritten (f' : Function) : Prop where
  entry : f'.entryBlock = f.entryBlock
  block : ∀ b block, f.block b = some block → ∃ block', f'.block b = some block' ∧
    BlockRewritten S K K' f constants init dropped swaps b block block'
  noBlock : ∀ b, f.block b = none → f'.block b = none
  params : ∀ b block, f.block b = some block → ∀ v ∈ block.parameters.map Prod.fst, ¬dropped v

end Rewriting

/-! ## What an instruction sees

Views are what two functions are compared by: names are gone and values are left.
-/

section View

variable {V W : Type} (S : Sem V W) (K : Env V)

/-- What an instruction reads and gives. -/
structure View (V : Type) where
  results : List ValueId
  shape : OpCode
  inputs : Option (List V)
  outputs : Option (List V)

/-- A remaining instruction sees what it saw, a replaced one gives what was given. -/
def View.Sees (swaps : OpCode → OpCode → Prop) (e' e : View V) : Prop :=
  e' = e ∨ swaps e.shape e'.shape ∧ e'.results = e.results ∧ e'.outputs = e.outputs

def viewInstruction (op : OpCode) (env : Env V) (w : W) : View V where
  results := op.results
  shape := op.shape
  inputs := op.inputs.mapM (Env.read K env)
  outputs := (execInstruction S K op env w).2.bind fun env => op.results.mapM env

def viewInstructions : List OpCode → Env V → W → List (View V)
  | [], _, _ => []
  | op :: ops, env, w =>
    viewInstruction S K op env w ::
      match execInstruction S K op env w with
      | (_, none) => []
      | (w, some env) => viewInstructions ops env w

/-- What the instructions of the current block see. -/
def viewBlock (f : Function) (s : State V W) : List (View V) :=
  match f.block s.block with
  | none => []
  | some block => viewInstructions S K block.instructions s.env s.world

/-- What the terminator of the current block reads. -/
def viewTerminator (f : Function) (s : State V W) : Option (List V) := do
  let block ← f.block s.block
  let env ← (execInstructions S K block.instructions s.env s.world).2
  let t ← block.terminator
  t.inputs.mapM (Env.read K env)

end View

/-! ## The two functions run side by side

The simulation.  Both directions come at once, since the outcome of a block is decided by what
the two functions agree on.
-/

section Simulation

variable {V W : Type} {S : Sem V W} {K K' : Env V} {f f' : Function}
  {constants : List (ValueId × Constant)} {init : State V W} {dropped : ValueId → Prop}
  {swaps : OpCode → OpCode → Prop}

/-! ### Instructions -/

/-- The environments agree on what remains. -/
def Agrees (dropped : ValueId → Prop) (env env' : Env V) : Prop :=
  ∀ v, ¬dropped v → env' v = env v

theorem Agrees.read {env env' : Env V} (h : Agrees dropped env env') {v : ValueId}
    (hv : ¬dropped v) : Env.read K' env' v = Env.read K' env v := by
  rw [Env.read, Env.read, h v hv]

theorem Agrees.mapM {env env' : Env V} (h : Agrees dropped env env') {vs : List ValueId}
    (hvs : ∀ v ∈ vs, ¬dropped v) : vs.mapM (Env.read K' env') = vs.mapM (Env.read K' env) := by
  induction vs with
  | nil => rfl
  | cons v vs ih =>
    rw [List.forall_mem_cons] at hvs
    rw [List.mapM_cons, List.mapM_cons, h.read hvs.1, ih hvs.2]

theorem Agrees.bindAll {env env' : Env V} (h : Agrees dropped env env') (vs : List ValueId)
    (xs : List V) : Agrees dropped (env.bindAll vs xs) (env'.bindAll vs xs) := by
  induction vs generalizing env env' xs with
  | nil => exact h
  | cons u vs ih =>
    cases xs with
    | nil => exact h
    | cons x xs =>
      refine ih (fun v hv => ?_) xs
      by_cases hvu : v = u
      · rw [hvu, Function.update_self, Function.update_self]
      · rw [Function.update_of_ne hvu, Function.update_of_ne hvu]
        exact h v hv

/-- Results that are all dropped do not matter. -/
theorem Agrees.drop {env env' : Env V} (h : Agrees dropped env env') {op : OpCode} {env₁ : Env V}
    {w w' : W} (hop : execInstruction S K op env w = (w', some env₁))
    (hdrop : ∀ v ∈ op.results, dropped v) : Agrees dropped env₁ env' := by
  intro v hv
  rw [h v hv, execInstruction_frame hop fun hmem => hv (hdrop v hmem)]

variable (S K) in
/-- What the instruction computes, before its results are bound. -/
def operate (op : OpCode) (env : Env V) (w : W) : W × Option (List V) :=
  match op.inputs.mapM (Env.read K env) with
  | none => (w, none)
  | some xs => S.op op.shape xs w

theorem execInstruction_eq (op : OpCode) (env : Env V) (w : W) :
    execInstruction S K op env w =
      match operate S K op env w with
      | (w, none) => (w, none)
      | (w, some ys) =>
        if ys.length = op.results.length then (w, some (env.bindAll op.results ys))
        else (w, none) := by
  unfold execInstruction operate
  cases op.inputs.mapM (Env.read K env) with
  | none => rfl
  | some xs => rfl

theorem SameUse.operate_eq {op op' : OpCode} {env env' : Env V}
    (huse : SameUse S K K' swaps op op' env) (hagree : Agrees dropped env env')
    (hinputs : ∀ v ∈ op'.inputs, ¬dropped v) (w : W) :
    operate S K' op' env' w = operate S K op env w := by
  unfold operate
  rw [hagree.mapM hinputs]
  rcases huse with ⟨hshape, hin⟩ | ⟨-, xs, ys, hxs, hys, hsem⟩
  · rw [hin, hshape]
  · rw [hxs, hys]
    exact hsem w

/-- One kept instruction. -/
theorem execInstruction_kept {op op' : OpCode} {env env' : Env V}
    (hresults : op'.results = op.results) (huse : SameUse S K K' swaps op op' env)
    (hagree : Agrees dropped env env') (hinputs : ∀ v ∈ op'.inputs, ¬dropped v) (w : W) :
    (∃ w', execInstruction S K op env w = (w', none) ∧
      execInstruction S K' op' env' w = (w', none)) ∨
    ∃ w' env₁ env₁', execInstruction S K op env w = (w', some env₁) ∧
      execInstruction S K' op' env' w = (w', some env₁') ∧ Agrees dropped env₁ env₁' := by
  rw [execInstruction_eq, execInstruction_eq, huse.operate_eq hagree hinputs, hresults]
  rcases operate S K op env w with ⟨w', _ | ys⟩
  · exact .inl ⟨w', rfl, rfl⟩
  · by_cases hlen : ys.length = op.results.length
    · simp only [if_pos hlen]
      exact .inr ⟨w', _, _, rfl, rfl, hagree.bindAll op.results ys⟩
    · simp only [if_neg hlen]
      exact .inl ⟨w', rfl, rfl⟩

theorem mapM_agrees {env env' : Env V} {vs : List ValueId} (h : Agrees dropped env env')
    (hvs : ∀ v ∈ vs, ¬dropped v) : vs.mapM env' = vs.mapM env := by
  induction vs with
  | nil => rfl
  | cons v vs ih =>
    rw [List.forall_mem_cons] at hvs
    rw [List.mapM_cons, List.mapM_cons, h v hvs.1, ih hvs.2]

/-- A kept instruction sees what it saw. -/
theorem viewInstruction_kept {op op' : OpCode} {env env' : Env V}
    (hresults : op'.results = op.results) (hremain : ∀ v ∈ op.results, ¬dropped v)
    (huse : SameUse S K K' swaps op op' env) (hagree : Agrees dropped env env')
    (hinputs : ∀ v ∈ op'.inputs, ¬dropped v) (w : W) :
    (viewInstruction S K' op' env' w).Sees swaps (viewInstruction S K op env w) := by
  have hout : (viewInstruction S K' op' env' w).outputs
      = (viewInstruction S K op env w).outputs := by
    unfold viewInstruction
    rcases execInstruction_kept hresults huse hagree hinputs w with
      ⟨w', h, h'⟩ | ⟨w', env₁, env₁', h, h', hagree'⟩
    · rw [h, h']
      rfl
    · rw [h, h', hresults]
      exact mapM_agrees hagree' hremain
  rcases huse with ⟨hshape, hin⟩ | ⟨hswap, -⟩
  · left
    have hread : (viewInstruction S K' op' env' w).inputs = (viewInstruction S K op env w).inputs :=
      (hagree.mapM hinputs).trans hin
    unfold viewInstruction at hout hread ⊢
    simp only at hout hread
    rw [hout, hread, hresults, hshape]
  · exact .inr ⟨hswap, hresults, hout⟩

variable [DecidableEq V]

/-- The instructions of one block. -/
theorem InstructionsRewritten.exec {b : BlockId} {pre ops ops' : List OpCode}
    (h : InstructionsRewritten S K K' f constants init dropped swaps b pre ops ops')
    (hinit : f.Initial init) {s : State V W} {older : List (State V W)} {block : Block}
    {env env' : Env V} {w : W} (hb : s.block = b)
    (hreached : Reached S K f init s older block pre ops env w)
    (hagree : Agrees dropped env env') :
    List.SublistForall₂ (View.Sees swaps) (viewInstructions S K' ops' env' w)
        (viewInstructions S K ops env w) ∧
      ((∃ w', execInstructions S K ops env w = (w', none) ∧
        execInstructions S K' ops' env' w = (w', none)) ∨
      ∃ w' env₁ env₁', execInstructions S K ops env w = (w', some env₁) ∧
        execInstructions S K' ops' env' w = (w', some env₁') ∧ Agrees dropped env₁ env₁' ∧
          Reached S K f init s older block (pre ++ ops) [] env₁ w') := by
  induction h generalizing env env' w with
  | nil pre =>
    exact ⟨.nil, .inr ⟨w, env, env', rfl, rfl, hagree, by rwa [List.append_nil]⟩⟩
  | @drop pre op ops ops' hop rest ih =>
    obtain ⟨env₁, hexec⟩ := hop.exec s older block ops env w hb hreached
    obtain ⟨hviews, hrest⟩ := ih (hreached.next hexec) (hagree.drop hexec hop.results)
    rw [List.append_assoc] at hrest
    simp only [viewInstructions, execInstructions, hexec]
    exact ⟨.cons_right hviews, hrest⟩
  | @keep pre op op' ops ops' hop rest ih =>
    have huse := hop.exec s older block ops env w hb hreached
    have hinputs : ∀ v ∈ op'.inputs, ¬dropped v := fun v hv =>
      (hop.inputs (hb ▸ hreached.reachable hinit) v hv).2
    have hview := viewInstruction_kept hop.results hop.remain huse hagree hinputs w
    rcases execInstruction_kept hop.results huse hagree hinputs w with
      ⟨w', hexec, hexec'⟩ | ⟨w', env₁, env₁', hexec, hexec', hagree'⟩
    · simp only [viewInstructions, execInstructions, hexec, hexec']
      exact ⟨.cons hview .nil, .inl ⟨w', rfl, rfl⟩⟩
    · obtain ⟨hviews, hrest⟩ := ih (hreached.next hexec) hagree'
      rw [List.append_assoc] at hrest
      simp only [viewInstructions, execInstructions, hexec, hexec']
      exact ⟨.cons hview hviews, hrest⟩

/-! ### Blocks -/

/-- The two functions end a block alike. -/
inductive SameOutcome (R : State V W → State V W → Prop) : Outcome V W → Outcome V W → Prop
  | failed (w : W) : SameOutcome R (.failed w) (.failed w)
  | returned (xs : List V) (w : W) : SameOutcome R (.returned xs w) (.returned xs w)
  | jumped {s s' : State V W} (h : R s s') : SameOutcome R (.jumped s) (.jumped s')

omit [DecidableEq V] in
theorem SameOutcome.imp {R R' : State V W → State V W → Prop} {o o' : Outcome V W}
    (h : SameOutcome R o o') (himp : ∀ s s', R s s' → R' s s') : SameOutcome R' o o' := by
  cases h with
  | failed w => exact .failed w
  | returned xs w => exact .returned xs w
  | jumped h => exact .jumped (himp _ _ h)

/-- Where the two functions stand. -/
structure SameState (dropped : ValueId → Prop) (s s' : State V W) : Prop where
  block : s'.block = s.block
  world : s'.world = s.world
  env : Agrees dropped s.env s'.env

theorem Function.Rewritten.enter (h : f.Rewritten S K K' constants init dropped swaps f')
    {target : BlockId} {args : List V} {env env' : Env V} (hagree : Agrees dropped env env')
    (w : W) :
    SameOutcome (SameState dropped) (enter f target args env w) (enter f' target args env' w) := by
  unfold Hlssa.enter
  cases hblock : f.block target with
  | none =>
    rw [h.noBlock target hblock]
    exact .failed w
  | some block =>
    obtain ⟨block', hblock', hrewritten⟩ := h.block target block hblock
    rw [hblock']
    simp only [hrewritten.parameters]
    split
    · exact .jumped ⟨rfl, rfl, hagree.bindAll _ _⟩
    · exact .failed w

omit [DecidableEq V] in
theorem mapM_terminator {σ : ValueId → ValueId} {vs : List ValueId} {env env' : Env V}
    (h : ∀ v ∈ vs, Env.read K' env' (σ v) = Env.read K env v) :
    (vs.map σ).mapM (Env.read K' env') = vs.mapM (Env.read K env) := by
  induction vs with
  | nil => rfl
  | cons v vs ih =>
    rw [List.forall_mem_cons] at h
    rw [List.map_cons, List.mapM_cons, List.mapM_cons, h.1, ih h.2]

theorem Function.Rewritten.execTerminator
    (h : f.Rewritten S K K' constants init dropped swaps f') {σ : ValueId → ValueId}
    {t : Terminator} {env env' : Env V} (hagree : Agrees dropped env env')
    (hread : ∀ v ∈ t.inputs, Env.read K' env' (σ v) = Env.read K env v) (w : W) :
    SameOutcome (SameState dropped) (execTerminator S K f env w t)
      (execTerminator S K' f' env' w (t.map σ)) := by
  cases t with
  | jmp target args =>
    have hargs : (args.map σ).mapM (Env.read K' env') = args.mapM (Env.read K env) :=
      mapM_terminator hread
    simp only [Hlssa.execTerminator, Terminator.map, hargs]
    split
    · exact h.enter hagree w
    · exact .failed w
  | jmpIf cond ifT ifF =>
    have hcond := hread cond List.mem_cons_self
    simp only [Hlssa.execTerminator, Terminator.map, hcond]
    split
    · split
      · exact h.enter hagree w
      · split
        · exact h.enter hagree w
        · exact .failed w
    · exact .failed w
  | «return» vals =>
    have hvals : (vals.map σ).mapM (Env.read K' env') = vals.mapM (Env.read K env) :=
      mapM_terminator hread
    simp only [Hlssa.execTerminator, Terminator.map, hvals]
    split
    · exact .returned _ w
    · exact .failed w

theorem Run.atBlock {s : State V W} {older : List (State V W)} (h : Run S K f init (s :: older))
    (hinit : f.Initial init) : ∃ block, f.block s.block = some block := by
  cases h with
  | start =>
    obtain ⟨hentry, block, args, hblock, -⟩ := hinit
    exact ⟨block, hentry ▸ hblock⟩
  | step _ hstep =>
    obtain ⟨_, _, _, _, _, block', -, -, -, hblock', rfl⟩ := stepBlock_eq_jumped hstep
    exact ⟨block', hblock'⟩

variable (S K K' f f' swaps) in
/-- The two functions visit the same block: entered alike, everything that remains there
sees the same values, and they end it alike. -/
structure SameVisit (s s' : State V W) : Prop where
  block : s'.block = s.block
  world : s'.world = s.world
  params : ∃ block block', f.block s.block = some block ∧ f'.block s.block = some block' ∧
    block'.parameters = block.parameters ∧
      ∀ v ∈ block.parameters.map Prod.fst, s'.env v = s.env v
  views : List.SublistForall₂ (View.Sees swaps) (viewBlock S K' f' s') (viewBlock S K f s)
  terminator : viewTerminator S K' f' s' = viewTerminator S K f s
  outcome : SameOutcome (fun t t' => t'.block = t.block ∧ t'.world = t.world)
    (stepBlock S K f s) (stepBlock S K' f' s')

/-- One block. -/
theorem Function.Rewritten.stepBlock
    (h : f.Rewritten S K K' constants init dropped swaps f') (hinit : f.Initial init)
    {s s' : State V W} {older : List (State V W)} (hrun : Run S K f init (s :: older))
    (hs : SameState dropped s s') :
    SameVisit S K K' f f' swaps s s' ∧
      SameOutcome (SameState dropped) (stepBlock S K f s) (stepBlock S K' f' s') := by
  obtain ⟨block, hblock⟩ := hrun.atBlock hinit
  obtain ⟨block', hblock', hrewritten⟩ := h.block _ _ hblock
  have hatBlock : f'.block s'.block = some block' := hs.block ▸ hblock'
  have hreached : Reached S K f init s older block [] block.instructions s.env s.world :=
    ⟨hrun, hblock, rfl, rfl⟩
  obtain ⟨t, σ, ht, ht', hterm⟩ := hrewritten.terminator
  obtain ⟨hviews, hexec⟩ := hrewritten.instructions.exec hinit rfl hreached hs.env
  rw [← hs.world] at hviews hexec
  have hparams : ∀ v ∈ block.parameters.map Prod.fst, s'.env v = s.env v := fun v hv =>
    hs.env v (h.params _ _ hblock v hv)
  have hviews' : List.SublistForall₂ (View.Sees swaps) (viewBlock S K' f' s')
    (viewBlock S K f s) := by
    simp only [viewBlock, hblock, hatBlock, ← hs.world]
    exact hviews
  suffices hout : viewTerminator S K' f' s' = viewTerminator S K f s ∧
      SameOutcome (SameState dropped) (Hlssa.stepBlock S K f s) (Hlssa.stepBlock S K' f' s') from
    ⟨⟨hs.block, hs.world, ⟨block, block', hblock, hblock', hrewritten.parameters, hparams⟩,
      hviews', hout.1, hout.2.imp fun _ _ h => ⟨h.block, h.world⟩⟩, hout.2⟩
  rcases hexec with ⟨w', hex, hex'⟩ | ⟨w', env₁, env₁', hex, hex', hagree, hend⟩
  · rw [hs.world] at hex
    constructor
    · simp [viewTerminator, hblock, hatBlock, hex, hex']
    · simp only [Hlssa.stepBlock, hblock, hatBlock, hex, hex']
      exact .failed w'
  · rw [hs.world] at hex
    rw [List.nil_append] at hend
    have hread : ∀ v ∈ t.inputs, Env.read K' env₁' (σ v) = Env.read K env₁ v := fun v hv => by
      rw [hagree.read (hterm.inputs (hreached.reachable hinit) v hv).2]
      exact hterm.exec s older block env₁ w' rfl hend v hv
    constructor
    · simp only [viewTerminator, hblock, hatBlock, hex, hex', ht, ht', Option.bind_eq_bind,
        Option.bind_some, Terminator.inputs_map]
      exact mapM_terminator hread
    · simp only [Hlssa.stepBlock, hblock, hatBlock, hex, hex', ht, ht']
      exact h.execTerminator hagree hread w'

/-! ### Runs -/

variable (S K K' f f' init swaps) in
/-- Each run of one function is a run of the other, block for block. -/
structure RunsAlike : Prop where
  forward : ∀ hist, Run S K f init hist → ∃ hist', Run S K' f' init hist' ∧
    List.Forall₂ (SameVisit S K K' f f' swaps) hist hist'
  backward : ∀ hist', Run S K' f' init hist' → ∃ hist, Run S K f init hist ∧
    List.Forall₂ (SameVisit S K K' f f' swaps) hist hist'

/-- A rewritten function runs like the original. -/
theorem Function.Rewritten.runsAlike
    (h : f.Rewritten S K K' constants init dropped swaps f') (hinit : f.Initial init) :
    RunsAlike S K K' f f' init swaps := by
  have hstart : SameState dropped init init := ⟨rfl, rfl, fun _ _ => rfl⟩
  -- runs of both, with the states related by what remains
  have hforward : ∀ hist, Run S K f init hist → ∃ hist', Run S K' f' init hist' ∧
      List.Forall₂ (fun s s' => SameState dropped s s' ∧ SameVisit S K K' f f' swaps s s')
        hist hist' := by
    intro hist hrun
    induction hrun with
    | start =>
      exact ⟨[init], .start, .cons ⟨hstart, (h.stepBlock hinit .start hstart).1⟩ .nil⟩
    | @step s s₁ older hrun hstep ih =>
      obtain ⟨hist', hrun', hrel⟩ := ih
      cases hrel with
      | @cons _ s' _ older' hs hrel =>
        have hout := (h.stepBlock hinit hrun hs.1).2
        rw [hstep] at hout
        generalize ho : Hlssa.stepBlock S K' f' s' = o at hout
        cases hout with
        | @jumped _ s₁' hs₁ =>
          refine ⟨s₁' :: s' :: older', hrun'.step ho, .cons ⟨hs₁, ?_⟩ (.cons hs hrel)⟩
          exact (h.stepBlock hinit (hrun.step hstep) hs₁).1
  have hbackward : ∀ hist', Run S K' f' init hist' → ∃ hist, Run S K f init hist ∧
      List.Forall₂ (fun s s' => SameState dropped s s' ∧ SameVisit S K K' f f' swaps s s')
        hist hist' := by
    intro hist' hrun'
    induction hrun' with
    | start =>
      exact ⟨[init], .start, .cons ⟨hstart, (h.stepBlock hinit .start hstart).1⟩ .nil⟩
    | @step s' s₁' older' hrun' hstep' ih =>
      obtain ⟨hist, hrun, hrel⟩ := ih
      cases hrel with
      | @cons s _ older _ hs hrel =>
        have hout := (h.stepBlock hinit hrun hs.1).2
        rw [hstep'] at hout
        generalize ho : Hlssa.stepBlock S K f s = o at hout
        cases hout with
        | @jumped s₁ _ hs₁ =>
          refine ⟨s₁ :: s :: older, hrun.step ho, .cons ⟨hs₁, ?_⟩ (.cons hs hrel)⟩
          exact (h.stepBlock hinit (hrun.step ho) hs₁).1
  refine ⟨fun hist hrun => ?_, fun hist' hrun' => ?_⟩
  · obtain ⟨hist', hrun', hrel⟩ := hforward hist hrun
    exact ⟨hist', hrun', hrel.imp fun _ _ h => h.2⟩
  · obtain ⟨hist, hrun, hrel⟩ := hbackward hist' hrun'
    exact ⟨hist, hrun, hrel.imp fun _ _ h => h.2⟩

/-! ### The rewritten function is in the same form -/

theorem InstructionsRewritten.results_sublist {b : BlockId} {pre ops ops' : List OpCode}
    (h : InstructionsRewritten S K K' f constants init dropped swaps b pre ops ops') :
    (ops'.flatMap OpCode.results).Sublist (ops.flatMap OpCode.results) := by
  induction h with
  | nil => exact .refl _
  | drop hop rest ih =>
    rw [List.flatMap_cons]
    exact ih.trans (List.sublist_append_right _ _)
  | keep hop rest ih =>
    rw [List.flatMap_cons, List.flatMap_cons, hop.results]
    exact (List.Sublist.refl _).append ih

theorem InstructionsRewritten.mem_results {b : BlockId} {pre ops ops' : List OpCode}
    (h : InstructionsRewritten S K K' f constants init dropped swaps b pre ops ops') {v : ValueId} :
    v ∈ ops'.flatMap OpCode.results ↔ v ∈ ops.flatMap OpCode.results ∧ ¬dropped v := by
  induction h with
  | nil => simp
  | drop hop rest ih =>
    rw [List.flatMap_cons, List.mem_append, ih]
    have := hop.results v
    tauto
  | keep hop rest ih =>
    rw [List.flatMap_cons, List.flatMap_cons, List.mem_append, List.mem_append, ih, hop.results]
    have := hop.remain v
    tauto

/-- A remaining instruction, and what comes before it. -/
theorem InstructionsRewritten.split {b : BlockId} {p ops ops' pre' post' : List OpCode}
    {op' : OpCode} (h : InstructionsRewritten S K K' f constants init dropped swaps b p ops ops')
    (hsplit : ops' = pre' ++ op' :: post') :
    ∃ pre op post, ops = pre ++ op :: post ∧
      InstructionsRewritten S K K' f constants init dropped swaps b p pre pre' ∧
        Kept S K K' f constants init dropped swaps b (p ++ pre) op op' := by
  induction h generalizing pre' with
  | nil => simp at hsplit
  | @drop p op ops ops' hop rest ih =>
    obtain ⟨pre, op₁, post, rfl, hpre, hkept⟩ := ih hsplit
    exact ⟨op :: pre, op₁, post, rfl, .drop hop hpre, by simpa using hkept⟩
  | @keep p op op₁ ops ops' hop rest ih =>
    cases pre' with
    | nil =>
      obtain ⟨rfl, rfl⟩ := List.cons.inj hsplit
      exact ⟨[], op, ops, rfl, .nil p, by simpa using hop⟩
    | cons op₂ pre' =>
      obtain ⟨rfl, htail⟩ := List.cons.inj hsplit
      obtain ⟨pre, op₃, post, rfl, hpre, hkept⟩ := ih htail
      exact ⟨op :: pre, op₃, post, rfl, .keep hop hpre, by simpa using hkept⟩

theorem Terminator.targets_map (σ : ValueId → ValueId) (t : Terminator) :
    (t.map σ).targets = t.targets := by
  cases t <;> rfl

section Form

variable (h : f.Rewritten S K K' constants init dropped swaps f')
include h

theorem Function.Rewritten.block_of {b : BlockId} {block' : Block}
    (hblock' : f'.block b = some block') : ∃ block, f.block b = some block ∧
      BlockRewritten S K K' f constants init dropped swaps b block block' := by
  cases hblock : f.block b with
  | none =>
    rw [h.noBlock b hblock] at hblock'
    simp at hblock'
  | some block =>
    obtain ⟨block'', hb'', hrewritten⟩ := h.block b block hblock
    obtain rfl := Option.some.inj (hb''.symm.trans hblock')
    exact ⟨block, rfl, hrewritten⟩

theorem Function.Rewritten.edge_eq : f'.Edge = f.Edge := by
  funext a b
  refine propext ⟨?_, ?_⟩
  · rintro ⟨block', t', hblock', ht', hb⟩
    obtain ⟨block, hblock, hrewritten⟩ := h.block_of hblock'
    obtain ⟨t, σ, ht, htσ, -⟩ := hrewritten.terminator
    obtain rfl := Option.some.inj (htσ.symm.trans ht')
    exact ⟨block, t, hblock, ht, Terminator.targets_map σ t ▸ hb⟩
  · rintro ⟨block, t, hblock, ht, hb⟩
    obtain ⟨block', hblock', hrewritten⟩ := h.block a block hblock
    obtain ⟨t₁, σ, ht₁, htσ, -⟩ := hrewritten.terminator
    obtain rfl := Option.some.inj (ht₁.symm.trans ht)
    exact ⟨block', _, hblock', htσ, (Terminator.targets_map σ t₁).symm ▸ hb⟩

theorem Function.Rewritten.reachable_iff (b : BlockId) :
    Reachable f'.entryBlock f'.Edge b ↔ Reachable f.entryBlock f.Edge b := by
  rw [h.edge_eq, h.entry]

theorem Function.Rewritten.definedIn_iff {b : BlockId} {v : ValueId} :
    f'.DefinedIn b v ↔ f.DefinedIn b v ∧ ¬dropped v := by
  constructor
  · rintro ⟨block', hblock', hv⟩
    obtain ⟨block, hblock, hrewritten⟩ := h.block_of hblock'
    rcases List.mem_append.mp hv with hv | hv
    · rw [hrewritten.parameters] at hv
      exact ⟨⟨block, hblock, List.mem_append_left _ hv⟩, h.params b block hblock v hv⟩
    · obtain ⟨hv, hnot⟩ := hrewritten.instructions.mem_results.mp hv
      exact ⟨⟨block, hblock, List.mem_append_right _ hv⟩, hnot⟩
  · rintro ⟨⟨block, hblock, hv⟩, hnot⟩
    obtain ⟨block', hblock', hrewritten⟩ := h.block b block hblock
    refine ⟨block', hblock', ?_⟩
    rcases List.mem_append.mp hv with hv | hv
    · exact List.mem_append_left _ (hrewritten.parameters ▸ hv)
    · exact List.mem_append_right _ (hrewritten.instructions.mem_results.mpr ⟨hv, hnot⟩)

theorem Function.Rewritten.singleAssignment (hssa : f.SingleAssignment constants) :
    f'.SingleAssignment constants where
  once b block' hblock' := by
    obtain ⟨block, hblock, hrewritten⟩ := h.block_of hblock'
    refine (hssa.once b block hblock).sublist ?_
    rw [Block.definitions, Block.definitions, hrewritten.parameters]
    exact (List.Sublist.refl _).append hrewritten.instructions.results_sublist
  block v b b' hb hb' := hssa.block v b b' (h.definedIn_iff.mp hb).1 (h.definedIn_iff.mp hb').1
  noConstant b v hb := hssa.noConstant b v (h.definedIn_iff.mp hb).1

/-- What is available and remains is available in the rewritten function. -/
theorem Function.Rewritten.available {b : BlockId} {pre pre' : List OpCode} {v : ValueId}
    (hpre : InstructionsRewritten S K K' f constants init dropped swaps b [] pre pre')
    (hv : f.Available constants b pre v) (hnot : ¬dropped v) : f'.Available constants b pre' v := by
  cases hv with
  | constant hconst => exact .constant hconst
  | @param block hblock hparam =>
    obtain ⟨block', hblock', hrewritten⟩ := h.block b block hblock
    exact .param hblock' (hrewritten.parameters ▸ hparam)
  | result hres => exact .result (hpre.mem_results.mpr ⟨hres, hnot⟩)
  | @dominated d hne hdom hdef =>
    refine .dominated hne ?_ (h.definedIn_iff.mpr ⟨hdef, hnot⟩)
    rw [h.edge_eq, h.entry]
    exact hdom

theorem Function.Rewritten.strict : f'.Strict constants where
  instruction b block' pre' op' post' hb hblock' hsplit v hv := by
    obtain ⟨block, hblock, hrewritten⟩ := h.block_of hblock'
    obtain ⟨pre, op, post, -, hpre, hkept⟩ := hrewritten.instructions.split hsplit
    obtain ⟨havail, hnot⟩ := hkept.inputs ((h.reachable_iff b).mp hb) v hv
    exact h.available hpre havail hnot
  terminator b block' t' hb hblock' ht' v hv := by
    obtain ⟨block, hblock, hrewritten⟩ := h.block_of hblock'
    obtain ⟨t, σ, -, htσ, hterm⟩ := hrewritten.terminator
    obtain rfl := Option.some.inj (htσ.symm.trans ht')
    rw [Terminator.inputs_map] at hv
    obtain ⟨u, hu, rfl⟩ := List.mem_map.mp hv
    obtain ⟨havail, hnot⟩ := hterm.inputs ((h.reachable_iff b).mp hb) u hu
    exact h.available hrewritten.instructions havail hnot

end Form

/-! ### Several rewritings -/

omit [DecidableEq V] in
theorem View.Sees.trans {e e' e'' : View V} (hswaps : ∀ a b c, swaps a b → ¬swaps b c)
    (h : e''.Sees swaps e') (h' : e'.Sees swaps e) : e''.Sees swaps e := by
  rcases h with rfl | ⟨hs, hr, ho⟩
  · exact h'
  · rcases h' with rfl | ⟨hs', hr', ho'⟩
    · exact .inr ⟨hs, hr, ho⟩
    · exact absurd hs (hswaps _ _ _ hs')

omit [DecidableEq V] in
theorem sublistForall₂_trans {R : View V → View V → Prop}
    (hR : ∀ a b c, R a b → R b c → R a c) {l₁ l₂ l₃ : List (View V)}
    (h : List.SublistForall₂ R l₁ l₂) (h' : List.SublistForall₂ R l₂ l₃) :
    List.SublistForall₂ R l₁ l₃ := by
  have : IsTrans (View V) R := ⟨hR⟩
  exact IsTrans.trans l₁ l₂ l₃ h h'

omit [DecidableEq V] in
theorem SameOutcome.trans {R : State V W → State V W → Prop}
    (hR : ∀ a b c, R a b → R b c → R a c) {o o' o'' : Outcome V W} (h : SameOutcome R o o')
    (h' : SameOutcome R o' o'') : SameOutcome R o o'' := by
  cases h with
  | failed w => exact h'
  | returned xs w => exact h'
  | jumped h =>
    cases h' with
    | jumped h' => exact .jumped (hR _ _ _ h h')

theorem SameVisit.trans {K'' : Env V} {f'' : Function} (hswaps : ∀ a b c, swaps a b → ¬swaps b c)
    {s s' s'' : State V W} (h : SameVisit S K K' f f' swaps s s')
    (h' : SameVisit S K' K'' f' f'' swaps s' s'') : SameVisit S K K'' f f'' swaps s s'' := by
  obtain ⟨block, block', hblock, hblock', hparams, hkeep⟩ := h.params
  obtain ⟨block₁, block'', hblock₁, hblock'', hparams', hkeep'⟩ := h'.params
  rw [h.block] at hblock₁ hblock''
  obtain rfl := Option.some.inj (hblock'.symm.trans hblock₁)
  refine ⟨h'.block.trans h.block, h'.world.trans h.world,
    ⟨block, block'', hblock, hblock'', hparams'.trans hparams, fun v hv => ?_⟩,
    sublistForall₂_trans (fun _ _ _ h h' => h.trans hswaps h') h'.views h.views,
    h'.terminator.trans h.terminator, h.outcome.trans (fun _ _ _ h h' =>
      ⟨h'.1.trans h.1, h'.2.trans h.2⟩) h'.outcome⟩
  exact (hkeep' v (hparams ▸ hv)).trans (hkeep v hv)

theorem forall₂_trans {α β γ : Type} {R : α → β → Prop} {R' : β → γ → Prop} {R'' : α → γ → Prop}
    (hR : ∀ a b c, R a b → R' b c → R'' a c) {l : List α} {l' : List β} {l'' : List γ}
    (h : List.Forall₂ R l l') (h' : List.Forall₂ R' l' l'') : List.Forall₂ R'' l l'' := by
  induction h generalizing l'' with
  | nil =>
    cases h'
    exact .nil
  | cons hab _ ih =>
    cases h' with
    | cons hbc h' => exact .cons (hR _ _ _ hab hbc) (ih h')

theorem RunsAlike.trans {K'' : Env V} {f'' : Function} (hswaps : ∀ a b c, swaps a b → ¬swaps b c)
    (h : RunsAlike S K K' f f' init swaps) (h' : RunsAlike S K' K'' f' f'' init swaps) :
    RunsAlike S K K'' f f'' init swaps where
  forward hist hrun := by
    obtain ⟨hist', hrun', hrel⟩ := h.forward hist hrun
    obtain ⟨hist'', hrun'', hrel'⟩ := h'.forward hist' hrun'
    exact ⟨hist'', hrun'', forall₂_trans (fun _ _ _ => SameVisit.trans hswaps) hrel hrel'⟩
  backward hist'' hrun'' := by
    obtain ⟨hist', hrun', hrel'⟩ := h'.backward hist'' hrun''
    obtain ⟨hist, hrun, hrel⟩ := h.backward hist' hrun'
    exact ⟨hist, hrun, forall₂_trans (fun _ _ _ => SameVisit.trans hswaps) hrel hrel'⟩

end Simulation

end Mavros.Hlssa
