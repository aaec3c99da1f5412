/-
# `Mavros.Hlssa.Types` — the types of values

Instructions do not carry the types of their results; `Types::run_opcode` computes
them from the types of the operands.  A type error, an `expect` on a missing value
and an ICE are all `none`.

## What is modelled

`OpCode.resultTypes` is `run_opcode`, one case for each opcode, over the operations on types it
calls, each under its own name.  The result of arithmetic is a witness when an operand is
(`arithmeticResult`), a second wrapper is an ICE (`mkWitnessOf`), and a witness stored into an
array of pure elements turns it into an array of witnesses (`arraySetType`).

The types of a callee's results come from its signature, which is a parameter.

## What it is not

Arguments are not compared with parameters, neither at calls nor at jumps, and an instruction
whose operands are of a wrong type mostly has a result type all the same.  What is refused is
what the compiler refuses here; `Mavros.Hlssa.Typing` says what follows from the rest.
-/
import Mavros.Hlssa.Syntax

namespace Mavros.Hlssa

namespace TypeExpr

/-- `Type::witness_of`: double wrapping is an ICE. -/
def mkWitnessOf : TypeExpr → Option TypeExpr
  | witnessOf _ => none
  | t => some (witnessOf t)

def isField : TypeExpr → Bool
  | field => true
  | _ => false

/-- `get_bit_size`. -/
def bitSize : TypeExpr → Option Nat
  | u size | i size => some size
  | field => some 254
  | witnessOf inner => inner.bitSize
  | _ => none

/-- `get_arithmetic_result_type` once the left operand is not a witness. -/
def arithmeticRight (a : TypeExpr) : TypeExpr → Option TypeExpr
  | witnessOf b => do mkWitnessOf (← a.arithmeticRight b)
  | field => some field
  | u n => match a with
    | field => some field
    | u m => some (u (max m n))
    | _ => none
  | i n => match a with
    | field => some field
    | i m => some (i (max m n))
    | _ => none
  | _ => match a with
    | field => some field
    | _ => none

/-- `get_arithmetic_result_type`: a witness on either side makes the result one. -/
def arithmeticResult : TypeExpr → TypeExpr → Option TypeExpr
  | witnessOf a, b => do mkWitnessOf (← a.arithmeticResult b.stripWitness)
  | a, b => a.arithmeticRight b

/-- `get_array_element`. -/
def arrayElement : TypeExpr → Option TypeExpr
  | array inner _ | slice inner => some inner
  | witnessOf inner => do mkWitnessOf (← inner.arrayElement)
  | _ => none

/-- `get_tuple_element`. -/
def tupleElement (idx : Nat) : TypeExpr → Option TypeExpr
  | tuple elements => elements[idx]?
  | witnessOf inner => do mkWitnessOf (← inner.tupleElement idx)
  | _ => none

mutual

/-- `push_witness_of_to_leaves`. -/
def pushWitnessOfToLeaves : TypeExpr → TypeExpr
  | witnessOf inner => witnessOf inner
  | field => witnessOf field
  | u n => witnessOf (u n)
  | i n => witnessOf (i n)
  | array inner n => array inner.pushWitnessOfToLeaves n
  | slice inner => slice inner.pushWitnessOfToLeaves
  | tuple elements => tuple (pushWitnessOfToLeavesList elements)
  | ref inner => witnessOf (ref inner)
  | function => witnessOf function

def pushWitnessOfToLeavesList : List TypeExpr → List TypeExpr
  | [] => []
  | t :: ts => t.pushWitnessOfToLeaves :: pushWitnessOfToLeavesList ts

end

mutual

/-- `strip_all_witness`. -/
def stripAllWitness : TypeExpr → TypeExpr
  | witnessOf inner => inner.stripAllWitness
  | array inner n => array inner.stripAllWitness n
  | slice inner => slice inner.stripAllWitness
  | ref inner => ref inner.stripAllWitness
  | tuple elements => tuple (stripAllWitnessList elements)
  | field => field
  | u n => u n
  | i n => i n
  | function => function

def stripAllWitnessList : List TypeExpr → List TypeExpr
  | [] => []
  | t :: ts => t.stripAllWitness :: stripAllWitnessList ts

end

/-- `spread_result_type`. -/
def spreadResult : TypeExpr → Option TypeExpr
  | witnessOf inner => do mkWitnessOf (← inner.spreadResult)
  | u bits => if bits > 128 then none else some (u (bits * 2))
  | i bits => if bits > 128 then none else some (i (bits * 2))
  | _ => none

/-- `unspread_result_types`. -/
def unspreadResult : TypeExpr → Option TypeExpr
  | witnessOf inner => do mkWitnessOf (← inner.unspreadResult)
  | u bits => if bits % 2 ≠ 0 ∨ bits / 2 > 64 then none else some (u (bits / 2))
  | i bits => if bits % 2 ≠ 0 ∨ bits / 2 > 64 then none else some (i (bits / 2))
  | _ => none

/-- The type `t`, wrapped like `like`. -/
def wrapLike (like t : TypeExpr) : TypeExpr :=
  if like.isWitnessOf then witnessOf t else t

end TypeExpr

open TypeExpr (mkWitnessOf)

/-- `SequenceTargetType::of`. -/
def SequenceTargetType.of (t : TypeExpr) : SequenceTargetType → Option TypeExpr
  | array len => some (.array t len)
  | slice => some (.slice t)
  | tuple => none

/-- `const_value_type`. -/
def Constant.type : Constant → TypeExpr
  | u size _ => .u size
  | i size _ => .i size
  | field _ => .field
  | fnPtr _ => .function

/-- The result type of `Cast`. -/
def CastTarget.resultType (value : TypeExpr) : CastTarget → Option TypeExpr
  | field => some (value.wrapLike .field)
  | u size => some (value.wrapLike (.u size))
  | i size => some (value.wrapLike (.i size))
  | nop => some value
  | arrayToSlice => match value with
      | .array elem _ => some (.slice elem)
      | _ => none
  | witnessOf => mkWitnessOf value

/-- The result type of `ArraySet`: a witness stored into an array of pure elements
turns it into an array of witnesses. -/
def arraySetType (array value : TypeExpr) : Option TypeExpr := do
  let elem ← array.arrayElement
  if value.isWitnessOf && !elem.isWitnessOf then
    match array with
    | .array _ size => some (.array value size)
    | .slice _ => some (.slice value)
    | _ => some array
  else some array

/-- `Types::run_opcode`: the types of the results. -/
def OpCode.resultTypes (signatures : FunctionId → Option (List TypeExpr × List TypeExpr))
    (types : ValueId → Option TypeExpr) : OpCode → Option (List (ValueId × TypeExpr))
  | cmp _ r lhs rhs => do
      let l ← types lhs
      let t ← types rhs
      some [(r, if l.isWitnessOf || t.isWitnessOf then .witnessOf (.u 1) else .u 1)]
  | binaryArithOp _ r lhs rhs => do some [(r, ← (← types lhs).arithmeticResult (← types rhs))]
  | alloc r elemType => some [(r, .ref elemType)]
  | store _ _ | memOp _ _ | assert _ | assertCmp _ _ _ | assertR1C _ _ _ | constrain _ _ _
  | bumpD _ _ _ | dlookup _ _ _ | lookup _ _ _ | initGlobal _ _ | dropGlobal _ => some []
  | load r ptr => do
      match ← types ptr with
      | .ref inner => some [(r, inner)]
      | _ => none
  | call rs target args _ => do
      match target with
      | .static f =>
        let (params, returns) ← signatures f
        if args.length ≠ params.length ∨ rs.length ≠ returns.length then none
        else some (rs.zip returns)
      | .dynamic _ => none
  | arrayGet r array index => do
      let elem ← (← types array).arrayElement
      let idx ← types index
      some [(r, if idx.isWitnessOf then elem.pushWitnessOfToLeaves else elem)]
  | arraySet r array _ value => do some [(r, ← arraySetType (← types array) (← types value))]
  | slicePush _ r slice _ => do some [(r, ← types slice)]
  | sliceLen r _ => some [(r, .u 32)]
  | select r cond ifT ifF => do
      let c ← types cond
      let alt ← (← types ifT).arithmeticResult (← types ifF)
      some [(r, if c.isWitnessOf && !alt.isWitnessOf then .witnessOf alt else alt)]
  | writeWitness none _ _ => some []
  | writeWitness (some r) value _ => do some [(r, ← mkWitnessOf (← types value))]
  | freshWitness r t => do some [(r, ← mkWitnessOf t)]
  | nextDCoeff r => some [(r, .field)]
  | mkSeq r _ seq t => do some [(r, ← seq.of t)]
  | mkRepeated r _ seq _ t => do some [(r, ← seq.of t)]
  | cast r value target => do some [(r, ← target.resultType (← types value))]
  | sext r value _ bits => do
      let t ← types value
      match t.stripWitness with
      | .i _ => some [(r, t.wrapLike (.i bits))]
      | .u _ => some [(r, t.wrapLike (.u bits))]
      | _ => none
  | bitRange r value offset width => do
      let t ← types value
      let bits ← t.bitSize
      if width = 0 ∨ offset + width > bits then none else some [(r, t)]
  | not r value => do some [(r, ← types value)]
  | valueOf r value => do
      match ← types value with
      | .witnessOf inner => some [(r, inner)]
      | _ => none
  | toBits r value _ count => do
      some [(r, .array ((← types value).wrapLike (.u 1)) count)]
  | toRadix r value _ _ count => do
      some [(r, .array ((← types value).wrapLike (.u 8)) count)]
  | mulConst r _ var => do some [(r, ← types var)]
  | rangecheck v _ => do if (← types v).stripWitness.isField then some [] else none
  | readGlobal r _ t => some [(r, t)]
  | tupleProj r tuple idx => do some [(r, ← (← types tuple).tupleElement idx)]
  | mkTuple r _ ts => some [(r, .tuple ts)]
  | todo rs ts => if rs.length ≠ ts.length then none else some (rs.zip ts)
  | spread r value _ => do some [(r, ← (← types value).spreadResult)]
  | unspread odd even value _ => do
      let t ← (← types value).unspreadResult
      some [(odd, t), (even, t)]
  | guard _ inner => inner.resultTypes signatures types

end Mavros.Hlssa
