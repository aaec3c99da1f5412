/-
# `Mavros.Codegen.Evaluators` — bytecode against symbolic interpretation

A piece of straight-line code with its parameters and constants, compiled and run on the
machine on one side, interpreted by the constraint generator on the other.  On every run in
which no step leaves the condition `StepOk`, the frame ends up with the generator's values.

## What is proved

* `evaluators_agree`: for well-formed code and arguments of the parameter types on which neither
  evaluator fails, every value in the generator's scope stands in the frame at its place, if every
  step of the generator's run meets `StepOk`.
* `evaluators_differ`: the complement of a byte, and an equality of two field elements, on which the
  two give different values.

## How it goes

The caller leaves the arguments where the layout has the parameters (`loadArguments_agree`), the
constants are materialised behind them (`materializeConstants_agree`), and the body keeps the
agreement by `Mavros.Codegen.ScalarAgree`.  Each of the three parts starts from what the one before
it leaves.
-/
import Mavros.Codegen.ScalarAgree

namespace Mavros.Codegen

open Hlssa Bytecode
open R1CGen (ScalarValue Scope execScalar constantValue)
open FrameLayouter (typeSize)

/-- Pure scalar code: parameters, the constants it refers to, instructions. -/
structure ScalarCode where
  params : List (ValueId × TypeExpr)
  constants : List (ValueId × Constant) := []
  ops : List Hlssa.OpCode
deriving DecidableEq

/-! ## The two runs

Compiled and run, or interpreted, from the same arguments.
-/

/-- The arguments in the frame, from word `p` on, as the caller leaves them. -/
def loadArguments : Machine → Nat → List (ValueId × TypeExpr) → List Fr → Machine
  | m, p, (_, .field) :: params, x :: args => loadArguments (m.setField p x) (p + 4) params args
  | m, p, (_, _) :: params, x :: args => loadArguments (m.setWord p x.val) (p + 1) params args
  | m, _, _, _ => m

namespace ScalarCode

/-- The bytecode of a function body that is one block. -/
def compile (types : ValueId → Option TypeExpr) (c : ScalarCode) : Option Emitted := do
  let l ← allocParameters {} c.params
  let (l, consts) ← materializeConstants l c.constants
  let (l, code) ← selectAll types l c.ops
  some (l, consts ++ code)

/-- Running the bytecode on a frame that holds the arguments. -/
def runVm (types : ValueId → Option TypeExpr) (c : ScalarCode) (m : Machine) (args : List Fr) :
    Option (FrameLayouter × Machine) := do
  let (l, code) ← c.compile types
  let m ← (loadArguments m 2 c.params args).run code
  some (l, m)

/-- The parameters and constants in the generator's scope. -/
def bindArguments : Scope → List (ValueId × TypeExpr) → List Fr → Scope
  | scope, (v, _) :: params, x :: args => bindArguments ((v, .const x) :: scope) params args
  | scope, _, _ => scope

def bindConstants : Scope → List (ValueId × Constant) → Option Scope
  | scope, [] => some scope
  | scope, (v, c) :: constants => do
    bindConstants ((v, .const (← constantValue c)) :: scope) constants

def initialScope (c : ScalarCode) (args : List Fr) : Option Scope :=
  bindConstants (bindArguments [] c.params args) c.constants

/-- The generator's run. -/
def runR1CGen (types : ValueId → Option TypeExpr) (c : ScalarCode) (args : List Fr) :
    Option Scope := do execAll types (← c.initialScope args) c.ops

end ScalarCode

/-! ## Well-formed code

What the analysis and the earlier passes guarantee.
-/

/-- A value of a scalar type. -/
def InType (x : Fr) : TypeExpr → Prop
  | .field => True
  | .u bits | .i bits => x.val < 2 ^ bits
  | _ => False

instance decidableInType (x : Fr) : (t : TypeExpr) → Decidable (InType x t)
  | .field => isTrue trivial
  | .u bits | .i bits => inferInstanceAs (Decidable (x.val < 2 ^ bits))
  | .witnessOf _ | .array _ _ | .slice _ | .ref _ | .tuple _ | .function => isFalse id

/-- A constant within its width. -/
def ConstantInType : Constant → Prop
  | .u bits v | .i bits v => v < 2 ^ bits
  | .field _ => True
  | .fnPtr _ => False

/-- The types are those of the analysis, and constants are values of their types. -/
structure ScalarCode.WellFormed (types : ValueId → Option TypeExpr) (c : ScalarCode) : Prop where
  params : ∀ p ∈ c.params, types p.1 = some p.2
  constants : ∀ p ∈ c.constants, types p.1 = some p.2.type ∧ ConstantInType p.2
  ops : ∀ op ∈ c.ops, WellTyped types op

section Start

variable {types : ValueId → Option TypeExpr} {l l' : FrameLayouter} {m m' : Machine}
  {scope scope' : Scope}

theorem Agree.empty : Agree types {} m [] := fun _ _ h => absurd h (by simp)

theorem typeSize_word {t : TypeExpr} {n : Nat} {x : Fr} (ht : t ≠ .field) (hx : InType x t)
    (hn : typeSize t = some n) :
    n = 1 ∧ ((∃ bits, t = .u bits) ∨ ∃ bits, t = .i bits) ∧ x.val < 2 ^ 64 := by
  cases t with
  | field => exact absurd rfl ht
  | u bits | i bits =>
    simp only [typeSize] at hn
    split at hn
    · next hle =>
      exact ⟨(Option.some.inj hn).symm, by simp,
        lt_of_lt_of_le hx (Nat.pow_le_pow_right (by norm_num) hle)⟩
    · exact absurd hn (by simp)
  | witnessOf _ | array _ _ | slice _ | ref _ | tuple _ | function => exact hx.elim

/-- The caller's arguments stand where the layout has the parameters. -/
theorem loadArguments_agree {params : List (ValueId × TypeExpr)} {args : List Fr}
    (h : Agree types l m scope) (htypes : ∀ p ∈ params, types p.1 = some p.2)
    (hargs : List.Forall₂ (fun p x => InType x p.2) params args)
    (hl : allocParameters l params = some l') :
    Agree types l' (loadArguments m l.nextFree params args)
      (ScalarCode.bindArguments scope params args) := by
  induction hargs generalizing l m scope with
  | nil =>
    obtain rfl := Option.some.inj hl
    exact h
  | @cons p x params args hx _ ih =>
    obtain ⟨v, t⟩ := p
    obtain ⟨ht, hrest⟩ := List.forall_mem_cons.mp htypes
    obtain ⟨q, hq, hl⟩ := Option.bind_eq_some_iff.mp hl
    obtain ⟨n, hn, rfl⟩ := allocValue_eq hq
    by_cases hfield : t = .field
    · subst hfield
      obtain rfl : 4 = n := Option.some.inj hn
      exact ih (h.define ht rfl (Keeps.setField le_rfl m x) (Holds.setField _ _ _)) hrest hl
    · obtain ⟨rfl, hint, hlt⟩ := typeSize_word hfield hx hn
      have hstep := h.define ht hn (Keeps.setWord le_rfl m x.val) (Holds.setWord _ _ hint hlt)
      have hload : loadArguments m l.nextFree ((v, t) :: params) (x :: args)
          = loadArguments (m.setWord l.nextFree x.val) (l.nextFree + 1) params args := by
        cases t <;> first | rfl | exact absurd rfl hfield
      rw [hload]
      exact ih hstep hrest hl

theorem materializeConstant_agree {v : ValueId} {c : Constant} {x : Fr}
    {code : List Bytecode.OpCode} (h : Agree types l m scope) (ht : types v = some c.type)
    (hc : ConstantInType c) (hl : materializeConstant l v c = some (l', code))
    (hrun : m.run code = some m') (hx : constantValue c = some x) :
    Agree types l' m' ((v, .const x) :: scope) := by
  cases c with
  | u size val | i size val =>
    obtain ⟨q, hq, hl⟩ := Option.bind_eq_some_iff.mp hl
    obtain ⟨hsize, rfl⟩ := allocU64_eq hq
    obtain ⟨rfl, rfl⟩ := Prod.mk.inj (Option.some.inj hl)
    obtain rfl := Option.some.inj hrun
    obtain rfl := Option.some.inj hx
    have hlt : val < 2 ^ 64 := lt_of_lt_of_le hc (Nat.pow_le_pow_right (by norm_num) hsize)
    have hword : val % 2 ^ 64 = ((val : Nat) : Fr).val := by
      rw [Nat.mod_eq_of_lt hlt, val_of_word hlt]
    rw [hword]
    exact h.define ht (by simp [Constant.type, typeSize, hsize]) (Keeps.setWord le_rfl _ _)
      (Holds.setWord _ _ (by simp [Constant.type]) (by rwa [val_of_word hlt]))
  | field val =>
    obtain ⟨rfl, rfl⟩ := Prod.mk.inj (Option.some.inj hl)
    obtain rfl := Option.some.inj hx
    have hset : m.run ((List.range 4).map fun i => .movConst (l.nextFree + i) (limb val i))
        = some (m.setField l.nextFree val) := rfl
    obtain rfl := Option.some.inj (hset.symm.trans hrun)
    exact h.define ht rfl (Keeps.setField le_rfl _ _) (Holds.setField _ _ _)
  | fnPtr f => exact hc.elim

theorem materializeConstants_agree {constants : List (ValueId × Constant)}
    {code : List Bytecode.OpCode} (h : Agree types l m scope)
    (htypes : ∀ p ∈ constants, types p.1 = some p.2.type ∧ ConstantInType p.2)
    (hl : materializeConstants l constants = some (l', code)) (hrun : m.run code = some m')
    (hscope : ScalarCode.bindConstants scope constants = some scope') :
    Agree types l' m' scope' := by
  induction constants generalizing l m scope code with
  | nil =>
    obtain ⟨rfl, rfl⟩ := Prod.mk.inj (Option.some.inj hl)
    obtain rfl := Option.some.inj hrun
    obtain rfl := Option.some.inj hscope
    exact h
  | cons p constants ih =>
    obtain ⟨⟨l₁, code₁⟩, hl₁, hl⟩ := Option.bind_eq_some_iff.mp hl
    obtain ⟨⟨l₂, code₂⟩, hl₂, hl⟩ := Option.bind_eq_some_iff.mp hl
    obtain ⟨rfl, rfl⟩ := Prod.mk.inj (Option.some.inj hl)
    rw [run_append] at hrun
    obtain ⟨m₁, hrun₁, hrun₂⟩ := Option.bind_eq_some_iff.mp hrun
    obtain ⟨x, hx, hscope⟩ := Option.bind_eq_some_iff.mp hscope
    obtain ⟨hp, hrest⟩ := List.forall_mem_cons.mp htypes
    exact ih (materializeConstant_agree h hp.1 hp.2 hl₁ hrun₁ hx) hrest hl₂ hrun₂ hscope

end Start

/-- On every straight-line sequence and every arguments of its parameter types on which
neither evaluator fails, the machine ends up with the values of the generator, if every step
of the run meets the condition. -/
theorem evaluators_agree {types : ValueId → Option TypeExpr} {c : ScalarCode} {m m' : Machine}
    {args : List Fr} {l : FrameLayouter} {scope : Scope} (hc : c.WellFormed types)
    (hargs : List.Forall₂ (fun p x => InType x p.2) c.params args)
    (hvm : c.runVm types m args = some (l, m')) (hgen : c.runR1CGen types args = some scope)
    (hok : ∀ start, c.initialScope args = some start → StepsOk types start c.ops) :
    ∀ v val, scope.lookup v = some val →
      ∃ t p, types v = some t ∧ l.getValue v = some p ∧ Holds m' p t val := by
  obtain ⟨start, hstart, hgen⟩ := Option.bind_eq_some_iff.mp hgen
  obtain ⟨⟨l₃, code⟩, hcompile, hvm⟩ := Option.bind_eq_some_iff.mp hvm
  obtain ⟨m₃, hrun, hvm⟩ := Option.bind_eq_some_iff.mp hvm
  obtain ⟨rfl, rfl⟩ := Prod.mk.inj (Option.some.inj hvm)
  obtain ⟨l₁, hl₁, hcompile⟩ := Option.bind_eq_some_iff.mp hcompile
  obtain ⟨⟨l₂, consts⟩, hl₂, hcompile⟩ := Option.bind_eq_some_iff.mp hcompile
  obtain ⟨⟨l₄, body⟩, hl₄, hcompile⟩ := Option.bind_eq_some_iff.mp hcompile
  obtain ⟨rfl, rfl⟩ := Prod.mk.inj (Option.some.inj hcompile)
  rw [run_append] at hrun
  obtain ⟨m₂, hrun₂, hrun₃⟩ := Option.bind_eq_some_iff.mp hrun
  have hparams := loadArguments_agree (Agree.empty (m := m)) hc.params hargs hl₁
  have hconsts := materializeConstants_agree hparams hc.constants hl₂ hrun₂ hstart
  have hfinal := selectAll_agree hconsts hc.ops (hok start hstart) hl₄ hrun₃ hgen
  intro v val hv
  obtain ⟨t, p, n, ht, -, hp, -, hold⟩ := hfinal v val hv
  exact ⟨t, p, ht, hp, hold⟩

/-- A sum of two bytes, compared with one of them. -/
def byteSum : ScalarCode where
  params := [(0, .u 8), (1, .u 8)]
  ops := [.binaryArithOp .add 2 0 1, .cmp .lt 3 2 0]

def byteSumTypes : ValueId → Option TypeExpr
  | 0 | 1 | 2 => some (.u 8)
  | 3 => some (.u 1)
  | _ => none

theorem evaluators_agree_byteSum :
    ∃ l m scope, byteSum.runVm byteSumTypes ⟨fun _ => 0, []⟩ [200, 100] = some (l, m) ∧
      byteSum.runR1CGen byteSumTypes [200, 100] = some scope ∧
      ∀ v val, scope.lookup v = some val →
        ∃ t p, byteSumTypes v = some t ∧ l.getValue v = some p ∧ Holds m p t val := by
  have hvm : byteSum.runVm byteSumTypes ⟨fun _ => 0, []⟩ [200, 100] = some (_, _) := rfl
  have hgen : byteSum.runR1CGen byteSumTypes [200, 100] = some _ := rfl
  refine ⟨_, _, _, hvm, hgen, evaluators_agree ⟨?_, ?_, ?_⟩ ?_ hvm hgen ?_⟩
  · simp [byteSum, byteSumTypes]
  · simp [byteSum]
  · intro op hop
    simp only [byteSum, List.mem_cons, List.not_mem_nil, or_false] at hop
    rcases hop with rfl | rfl
    · exact ⟨⟨_, rfl, by simp [byteSumTypes]⟩, by decide⟩
    · exact ⟨⟨_, rfl, by simp [byteSumTypes, TypeExpr.isWitnessOf]⟩, by decide⟩
  · exact .cons (by decide) (.cons (by decide) .nil)
  · intro start _
    exact ⟨fun _ _ _ _ => trivial, fun _ _ => ⟨by simp [StepOk, byteSumTypes], fun _ _ => trivial⟩⟩

/-- A complement of a byte and an equality of field elements. -/
def complementAndEquality : ScalarCode where
  params := [(0, .u 8), (1, .field), (2, .field)]
  ops := [.not 3 0, .cmp .eq 4 1 2]

def complementAndEqualityTypes : ValueId → Option TypeExpr
  | 0 | 3 => some (.u 8)
  | 1 | 2 => some .field
  | 4 => some (.u 1)
  | _ => none

def complementAndEqualityArguments : List Fr :=
  [0, 0, 19460348035796462271896288287919407799161393094049025387841668571217901960782]

theorem complementAndEquality_wellFormed :
    complementAndEquality.WellFormed complementAndEqualityTypes := by
  refine ⟨by simp [complementAndEquality, complementAndEqualityTypes],
    by simp [complementAndEquality], fun op hop => ?_⟩
  simp only [complementAndEquality, List.mem_cons, List.not_mem_nil, or_false] at hop
  rcases hop with rfl | rfl
  · exact ⟨⟨_, rfl, by simp [complementAndEqualityTypes]⟩, by decide⟩
  · exact ⟨⟨_, rfl, by simp [complementAndEqualityTypes, TypeExpr.isWitnessOf]⟩, by decide⟩

/-- The complement of the byte 0 is 255 to the generator and fills the machine's word; two
different field elements with the same low limb are equal to the machine. -/
theorem evaluators_differ :
    complementAndEquality.WellFormed complementAndEqualityTypes ∧
    List.Forall₂ (fun p x => InType x p.2) complementAndEquality.params
      complementAndEqualityArguments ∧
    ∃ l m scope,
      complementAndEquality.runVm complementAndEqualityTypes ⟨fun _ => 0, []⟩
        complementAndEqualityArguments = some (l, m) ∧
      complementAndEquality.runR1CGen complementAndEqualityTypes
        complementAndEqualityArguments = some scope ∧
      (scope.lookup 3 = some (.const 255) ∧ l.getValue 3 = some 11 ∧ m.frame 11 = 2 ^ 64 - 1) ∧
      scope.lookup 4 = some (.const 0) ∧ l.getValue 4 = some 12 ∧ m.frame 12 = 1 :=
  ⟨complementAndEquality_wellFormed, .cons (by decide) (.cons trivial (.cons trivial .nil)),
    _, _, _, rfl, rfl, ⟨rfl, rfl, rfl⟩, rfl, rfl, rfl⟩

end Mavros.Codegen
