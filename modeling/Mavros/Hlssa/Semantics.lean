/-
# `Mavros.Hlssa.Semantics` — running a function block by block

What an instruction computes is a parameter (`Sem`): it sees the instruction without
the names of its values, the values of its inputs and a world, which holds the memory
and the trace of asserts, witness writes, constraints and calls so far.  The world
outlives a failure, so two runs that fail alike have emitted the same trace.

## What is modelled

A function runs block by block.  `stepBlock` executes the instructions of the current block and
its terminator: a jump binds the arguments to the parameters of its target, all of them read
before the first is bound; a branch goes by a bit; a return ends the run with the values
returned.  `Run` is a run as the list of its states.

`Function.DefinedIn`, `Function.SingleAssignment` and `Function.Edge` are what the passes rely on:
where a value is defined, that it is in one place, and where control can go.

## What it is not

Calls are not entered; a call is an instruction, and what it does is the parameter's business.
The passes verified over this meaning treat a call as an opaque effect and keep it in its place.
-/
import Mavros.Hlssa.Syntax

namespace Mavros.Hlssa

/-- The instruction without the names of its values. -/
def OpCode.shape (op : OpCode) : OpCode := op.mapOperands fun _ => 0

/-- The meaning of constants and of instructions over values `V` and worlds `W`. -/
structure Sem (V W : Type) where
  const : Constant → V
  op : OpCode → List V → W → W × Option (List V)

abbrev Env (V : Type) := ValueId → Option V

section Run

variable {V W : Type}

/-- Binds values to names, later ones over earlier ones. -/
def Env.bindAll (env : Env V) : List ValueId → List V → Env V
  | v :: vs, x :: xs => Env.bindAll (Function.update env v (some x)) vs xs
  | _, _ => env

/-- The constants side table as an environment. -/
def Sem.table (S : Sem V W) (constants : List (ValueId × Constant)) : Env V :=
  fun v => (constants.lookup v).map S.const

/-- A constant reads as the table says, any other value as it was bound. -/
def Env.read (K env : Env V) (v : ValueId) : Option V := (K v).or (env v)

structure State (V W : Type) where
  block : BlockId
  env : Env V
  world : W

inductive Outcome (V W : Type) where
  | failed (world : W)
  | jumped (s : State V W)
  | returned (vals : List V) (world : W)

variable (S : Sem V W) (K : Env V)

def execInstruction (op : OpCode) (env : Env V) (w : W) : W × Option (Env V) :=
  match op.inputs.mapM (Env.read K env) with
  | none => (w, none)
  | some xs =>
    match S.op op.shape xs w with
    | (w, none) => (w, none)
    | (w, some ys) =>
      if ys.length = op.results.length then (w, some (env.bindAll op.results ys)) else (w, none)

def execInstructions : List OpCode → Env V → W → W × Option (Env V)
  | [], env, w => (w, some env)
  | op :: ops, env, w =>
    match execInstruction S K op env w with
    | (w, none) => (w, none)
    | (w, some env) => execInstructions ops env w

def enter (f : Function) (target : BlockId) (args : List V) (env : Env V) (w : W) :
    Outcome V W :=
  match f.block target with
  | some b =>
    if args.length = b.parameters.length then
      .jumped ⟨target, env.bindAll (b.parameters.map Prod.fst) args, w⟩
    else .failed w
  | none => .failed w

variable [DecidableEq V]

/-- A branch on anything but a bit is an error. -/
def execTerminator (f : Function) (env : Env V) (w : W) : Terminator → Outcome V W
  | .jmp target args =>
    match args.mapM (Env.read K env) with
    | some xs => enter f target xs env w
    | none => .failed w
  | .jmpIf cond ifT ifF =>
    match Env.read K env cond with
    | some x =>
      if x = S.const (.u 1 1) then enter f ifT [] env w
      else if x = S.const (.u 1 0) then enter f ifF [] env w
      else .failed w
    | none => .failed w
  | .return vals =>
    match vals.mapM (Env.read K env) with
    | some xs => .returned xs w
    | none => .failed w

def stepBlock (f : Function) (s : State V W) : Outcome V W :=
  match f.block s.block with
  | none => .failed s.world
  | some b =>
    match execInstructions S K b.instructions s.env s.world with
    | (w, none) => .failed w
    | (w, some env) =>
      match b.terminator with
      | none => .failed w
      | some t => execTerminator S K f env w t

/-- The states a run goes through, the latest first. -/
inductive Run (f : Function) (init : State V W) : List (State V W) → Prop
  | start : Run f init [init]
  | step {s s' : State V W} {hist : List (State V W)} :
      Run f init (s :: hist) → stepBlock S K f s = .jumped s' → Run f init (s' :: s :: hist)

/-- A state in which a function is entered: its arguments are bound. -/
def Function.Initial (f : Function) (s : State V W) : Prop :=
  s.block = f.entryBlock ∧
    ∃ b args, f.block f.entryBlock = some b ∧
      s.env = Env.bindAll (fun _ => none) (b.parameters.map Prod.fst) args

end Run

/-! ## Definitions and edges -/

/-- The values a block defines. -/
def Block.definitions (b : Block) : List ValueId :=
  b.parameters.map Prod.fst ++ b.instructions.flatMap OpCode.results

/-- The values a block reads. -/
def Block.uses (b : Block) : List ValueId :=
  b.instructions.flatMap OpCode.inputs ++ (b.terminator.elim [] Terminator.inputs)

/-- The values a block defines, with the block. -/
def Function.DefinedIn (f : Function) (b : BlockId) (v : ValueId) : Prop :=
  ∃ block, f.block b = some block ∧ v ∈ block.definitions

/-- Each value is defined in one place, and no constant is defined. -/
structure Function.SingleAssignment (f : Function) (constants : List (ValueId × Constant)) :
    Prop where
  once : ∀ b block, f.block b = some block → block.definitions.Nodup
  block : ∀ v b b', f.DefinedIn b v → f.DefinedIn b' v → b = b'
  noConstant : ∀ b v, f.DefinedIn b v → constants.lookup v = none

def Terminator.targets : Terminator → List BlockId
  | jmp target _ => [target]
  | jmpIf _ ifT ifF => [ifT, ifF]
  | .return _ => []

/-- Control can go from `a` to `b`. -/
def Function.Edge (f : Function) (a b : BlockId) : Prop :=
  ∃ block t, f.block a = some block ∧ block.terminator = some t ∧ b ∈ t.targets

end Mavros.Hlssa
