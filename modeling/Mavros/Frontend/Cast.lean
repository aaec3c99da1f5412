/-
# `Mavros.Frontend.Cast` — casts between scalar types

`convert_cast` narrows with a bit range and widens a signed operand with a sign extension,
and then casts.  A cast never computes: the constraint generator keeps the field element,
and the machine copies a word, takes the low word of an element or makes a word an element.
The sign extension is rewritten to field arithmetic between two casts before either of
them sees it.

## What is modelled

`convertCast` is what `convert_cast` emits for a pair of scalar types, and `execOps` runs it for
either backend.  They differ in the widest integer they have and in a cast of a field element to
an integer, which the generator leaves alone and the machine cuts to a word.

## What is proved

* `convertCast_computes`: on both backends the emitted instructions compute the cast.  The pattern
  is cut to the width of the target, or extended by the sign of a signed source, and it is a value
  of the target type; a signed value that is cast to the field has to be non-negative.
* `convertCast_signed_to_field`: `-1i8 as Field` has no such pattern below the modulus.
* `cast_code`: the code selected for a cast leaves the machine with that value in the place of the
  result.

## How it goes

Three cases by width: narrowing (`narrow_computes`), widening with a sign (`widen_computes`) and
the casts that keep the element (`keep_computes`).  A scalar is the field element of its bit
pattern, so each instruction has one equation on patterns (`Scalar.bitRange_eq`,
`Scalar.sext_eq`), with the bound under which no pattern wraps in the field.
-/
import Mavros.Codegen.ScalarAgree
import Mavros.Hlssa.Semantics
import Mavros.Lowering.BitRange
import Mavros.Lowering.SignedEncoding

namespace Mavros.Frontend

open Hlssa Lowering
open Codegen (FrameLayouter)

/-! ## The conversion

On the types of the source language, as far as they are scalars.
-/

/-- The types of the monomorphized program, as far as a cast looks at them. -/
inductive AstType where
  | field
  | integer (signed : Bool) (bits : Nat)
  | bool
  | other
deriving DecidableEq

namespace AstType

/-- The width of a source, and whether it is signed. -/
def source : AstType → Nat × Bool
  | field => (254, false)
  | integer signed bits => (bits, signed)
  | bool => (1, false)
  | other => (0, false)

/-- The cast to a type and its width; another target is a panic. -/
def target : AstType → Option (CastTarget × Nat)
  | field => some (.field, 254)
  | integer false bits => some (.u bits, bits)
  | integer true bits => some (.i bits, bits)
  | bool => some (.u 1, 1)
  | other => none

/-- `convert_type` on scalars. -/
def type : AstType → Option TypeExpr
  | field => some .field
  | integer false bits => some (.u bits)
  | integer true bits => some (.i bits)
  | bool => some (.u 1)
  | other => none

end AstType

/-- The narrowing of `convert_cast`, its value and the next fresh one. -/
def narrow (value next : ValueId) (srcBits targetBits : Nat) : List OpCode × ValueId × ValueId :=
  if 0 < srcBits ∧ targetBits < srcBits then
    ([.bitRange next value 0 targetBits], next, next + 1)
  else ([], value, next)

/-- The widening of `convert_cast`. -/
def widen (value next : ValueId) (srcBits : Nat) (srcSigned : Bool) (targetBits : Nat) :
    List OpCode × ValueId × ValueId :=
  if srcSigned ∧ 0 < srcBits ∧ srcBits < targetBits then
    ([.sext next value srcBits targetBits], next, next + 1)
  else ([], value, next)

/-- `convert_cast` on a converted operand, with the fresh values from `next` on. -/
def convertCast (lhs type : AstType) (value next : ValueId) : Option (List OpCode × ValueId) := do
  let (target, targetBits) ← type.target
  let (narrowed, value, next) := narrow value next lhs.source.1 targetBits
  let (widened, value, next) := widen value next lhs.source.1 lhs.source.2 targetBits
  some (narrowed ++ widened ++ [.cast next value target], next)

/-! ## What the instructions compute

An integer of a width, or a field element; the backend decides the rest.
-/

/-- A scalar is the field element of its bit pattern. -/
structure Scalar where
  type : TypeExpr
  val : Fr

/-- Who runs the instructions. -/
inductive Backend where
  | generator
  | machine
deriving DecidableEq

/-- The widest integers: `IntegerBitSize` stops at 128 bits, and a place of the frame is one
word. -/
def Backend.maxBits : Backend → Nat
  | generator => 128
  | machine => 64

/-- The opcode of a cast: a copied word, the low word of an element, or a word made one. -/
def machineCast : TypeExpr → TypeExpr → Fr → Option Fr
  | .u _, .u _, x | .u _, .i _, x | .i _, .u _, x | .i _, .i _, x => some x
  | .u _, .field, x | .i _, .field, x => some x
  | .field, .u _, x | .field, .i _, x => some (x.val % 2 ^ 64 : Nat)
  | _, _, _ => none

/-- What a cast between two pure types does to the element; the machine needs a place for the
result, unless it shares that of the operand. -/
def Backend.cast : Backend → TypeExpr → TypeExpr → Fr → Option Fr
  | generator, _, _, x => some x
  | machine, s, t, x =>
    if s = t then some x
    else if (FrameLayouter.typeSize t).isSome then machineCast s t x else none

namespace Scalar

variable (b : Backend)

def castTo (target : CastTarget) (v : Scalar) : Option Scalar := do
  let t ← target.resultType v.type
  some ⟨t, ← b.cast v.type t v.val⟩

/-- The bits of a `BitRange`, in the type of the operand. -/
def bitRange (offset width : Nat) (v : Scalar) : Option Scalar := do
  if width = 0 ∨ (← v.type.bitSize) < offset + width then none
  else some ⟨v.type, R1CGen.bitRange offset width v.val⟩

/-- The sign `lower_integer_sext` reads. -/
def sign (range : IntInterval) (fromBits : Nat) (v : Scalar) : Option Scalar :=
  if range.isNonNegativeInSigned fromBits then some ⟨.field, 0⟩
  else do (← v.bitRange (fromBits - 1) 1).castTo b .field

/-- The result type of `SExt`. -/
def sextType (toBits : Nat) : TypeExpr → Option TypeExpr
  | .i _ => some (.i toBits)
  | .u _ => some (.u toBits)
  | _ => none

/-- `lower_integer_sext`. -/
def sext (range : IntInterval) (fromBits toBits : Nat) (v : Scalar) : Option Scalar := do
  let t ← sextType toBits v.type
  let sign ← v.sign b range fromBits
  let valueField ← v.castTo b .field
  let extended := valueField.val + sign.val * (twoPow toBits - twoPow fromBits)
  some ⟨t, ← b.cast .field t extended⟩

end Scalar

/-- One instruction; the ranges are those of the value-range analysis. -/
def execOp (b : Backend) (ranges : ValueId → IntInterval) (env : Env Scalar) :
    OpCode → Option (Env Scalar)
  | .bitRange r v offset width => do
    some (Function.update env r (some (← (← env v).bitRange offset width)))
  | .sext r v fromBits toBits => do
    some (Function.update env r (some (← (← env v).sext b (ranges v) fromBits toBits)))
  | .cast r v target => do some (Function.update env r (some (← (← env v).castTo b target)))
  | _ => none

def execOps (b : Backend) (ranges : ValueId → IntInterval) (env : Env Scalar)
    (ops : List OpCode) : Option (Env Scalar) :=
  ops.foldlM (execOp b ranges) env

/-! ## What a cast should compute

On bit patterns, with no reference to either backend.
-/

namespace AstType

/-- A scalar type whose integers have at most `maxBits` bits. -/
def Within (maxBits : Nat) : AstType → Prop
  | integer _ bits => 0 < bits ∧ bits ≤ maxBits
  | field | bool => True
  | other => False

/-- A bit pattern of the type. -/
def InType (t : AstType) (x : Fr) : Prop := t ≠ field → x.val < 2 ^ t.source.1

/-- The number a value of the type stands for. -/
def number (t : AstType) (x : Fr) : Int :=
  if t.source.2 then decode t.source.1 x else x.val

end AstType

/-- The bit pattern of a cast value: cut to the width of the target, or extended by the sign
of a signed source and by zeros otherwise. -/
def castBits (lhs : AstType) (targetBits : Nat) (x : Fr) : Nat :=
  let pattern := BitVec.ofNat lhs.source.1 x.val
  (if lhs.source.2 then pattern.signExtend targetBits else pattern.setWidth targetBits).toNat

section Patterns

variable {m n x : Nat}

/-- Extending by the sign adds the bits above, if the top bit is set. -/
theorem signExtend_toNat (hn : 0 < n) (hx : x < 2 ^ n) (h : n ≤ m) :
    ((BitVec.ofNat n x).signExtend m).toNat = x + x / 2 ^ (n - 1) % 2 * (2 ^ m - 2 ^ n) := by
  have hle : 2 ^ n ≤ 2 ^ m := Nat.pow_le_pow_right Nat.two_pos h
  have hhalf : 2 ^ n = 2 * 2 ^ (n - 1) := by
    rw [← Nat.pow_succ']
    congr
    omega
  rw [BitVec.toNat_signExtend, BitVec.msb_eq_decide, BitVec.toNat_setWidth, BitVec.toNat_ofNat,
    Nat.mod_eq_of_lt hx, Nat.mod_eq_of_lt (hx.trans_le hle)]
  by_cases hmsb : 2 ^ (n - 1) ≤ x
  · have hone : x / 2 ^ (n - 1) = 1 := Nat.div_eq_of_lt_le (by omega) (by omega)
    simp [hmsb, hone]
  · have hzero : x / 2 ^ (n - 1) = 0 := Nat.div_eq_of_lt (by omega)
    simp [hmsb, hzero]

theorem castBits_lt (lhs : AstType) (targetBits : Nat) (x : Fr) :
    castBits lhs targetBits x < 2 ^ targetBits := BitVec.isLt _

end Patterns

namespace AstType

variable {t : AstType} {x : Fr} {maxBits : Nat}

theorem InType.lt (hx : t.InType x) : x.val < 2 ^ t.source.1 := by
  by_cases h : t = field
  · subst h
    exact (ZMod.val_lt x).trans (by norm_num [modulus, source])
  · exact hx h

end AstType

section CastBits

variable {lhs : AstType} {targetBits : Nat} {x : Fr}

/-- Narrowing keeps the low bits, whatever the sign. -/
theorem castBits_narrow (hx : lhs.InType x) (h : targetBits ≤ lhs.source.1) :
    castBits lhs targetBits x = x.val % 2 ^ targetBits := by
  have hset : castBits lhs targetBits x
      = ((BitVec.ofNat lhs.source.1 x.val).setWidth targetBits).toNat := by
    rw [castBits]
    split
    · rw [BitVec.signExtend_eq_setWidth_of_le _ h]
    · rfl
  rw [hset, BitVec.toNat_setWidth, BitVec.toNat_ofNat, Nat.mod_eq_of_lt hx.lt]

/-- An unsigned pattern stays as it is. -/
theorem castBits_unsigned (hx : lhs.InType x) (hs : ¬lhs.source.2) (h : lhs.source.1 ≤ targetBits) :
    castBits lhs targetBits x = x.val := by
  rw [castBits, if_neg hs, BitVec.toNat_setWidth, BitVec.toNat_ofNat, Nat.mod_eq_of_lt hx.lt,
    Nat.mod_eq_of_lt (hx.lt.trans_le (Nat.pow_le_pow_right Nat.two_pos h))]

theorem castBits_signed (hx : lhs.InType x) (hs : lhs.source.2) (hpos : 0 < lhs.source.1)
    (h : lhs.source.1 ≤ targetBits) :
    castBits lhs targetBits x
      = x.val + x.val / 2 ^ (lhs.source.1 - 1) % 2 * (2 ^ targetBits - 2 ^ lhs.source.1) := by
  rw [castBits, if_pos hs, signExtend_toNat hpos hx.lt h]

end CastBits

/-! ## The instructions -/

section Instructions

variable {b : Backend} {src dst : AstType} {s t : TypeExpr} {x : Fr}

theorem Backend.maxBits_le (b : Backend) : b.maxBits ≤ 128 := by cases b <;> decide

/-- A scalar type is the field or an integer type of its width. -/
theorem AstType.type_cases (h : src.type = some s) :
    (src = .field ∧ s = .field) ∨
      src ≠ .field ∧ (s = .u src.source.1 ∨ s = .i src.source.1) := by
  cases src with
  | field => exact .inl ⟨rfl, (Option.some.inj h).symm⟩
  | integer signed bits =>
    cases signed with
    | false => exact .inr ⟨nofun, .inl (Option.some.inj h).symm⟩
    | true => exact .inr ⟨nofun, .inr (Option.some.inj h).symm⟩
  | bool => exact .inr ⟨nofun, .inl (Option.some.inj h).symm⟩
  | other => exact nomatch h

theorem AstType.bitSize_eq (h : src.type = some s) : s.bitSize = some src.source.1 := by
  rcases type_cases h with ⟨rfl, rfl⟩ | ⟨-, rfl | rfl⟩
  · rfl
  · rfl
  · rfl

theorem AstType.source_le (hd : dst.Within b.maxBits) (h : dst ≠ .field) :
    0 < dst.source.1 ∧ dst.source.1 ≤ b.maxBits := by
  cases dst with
  | field => exact absurd rfl h
  | integer signed bits => exact hd
  | bool => cases b <;> decide
  | other => exact hd.elim

/-- A cast keeps the element, but for a field element that does not fit. -/
theorem Backend.cast_eq (hs : src.type = some s) (ht : dst.type = some t)
    (hd : dst.Within b.maxBits) (hfit : src = .field → dst ≠ .field → x.val < 2 ^ b.maxBits) :
    b.cast s t x = some x := by
  cases b with
  | generator => rfl
  | machine =>
    have hlow : src = .field → dst ≠ .field → ((x.val % 2 ^ 64 : Nat) : Fr) = x := by
      intro h h'
      have hlt : x.val < 2 ^ 64 := hfit h h'
      rw [Nat.mod_eq_of_lt hlt, natCast_val]
    have hword : dst ≠ .field → dst.source.1 ≤ 64 := fun h => (AstType.source_le hd h).2
    by_cases hst : s = t
    · exact if_pos hst
    have hsize : (FrameLayouter.typeSize t).isSome := by
      rcases AstType.type_cases ht with ⟨-, rfl⟩ | ⟨hdst, rfl | rfl⟩
      · rfl
      · simp [FrameLayouter.typeSize, hword hdst]
      · simp [FrameLayouter.typeSize, hword hdst]
    rw [Backend.cast, if_neg hst, if_pos hsize]
    rcases AstType.type_cases hs with ⟨hsrc, rfl⟩ | ⟨-, rfl | rfl⟩ <;>
      rcases AstType.type_cases ht with ⟨-, rfl⟩ | ⟨hdst, rfl | rfl⟩
    case inl.inl => exact absurd rfl hst
    case inl.inr.inl | inl.inr.inr => exact congrArg some (hlow hsrc hdst)
    all_goals rfl

/-- The target of a cast is the type it is to. -/
theorem AstType.target_eq (ht : dst.type = some t) (hv : s.isWitnessOf = false) :
    ∃ target, dst.target = some (target, dst.source.1) ∧ target.resultType s = some t := by
  have hwrap : ∀ r, s.wrapLike r = r := fun r => by simp [TypeExpr.wrapLike, hv]
  cases dst with
  | field => exact ⟨_, rfl, by rw [← ht]; exact congrArg some (hwrap _)⟩
  | integer signed bits =>
    cases signed with
    | false => exact ⟨_, rfl, by rw [← ht]; exact congrArg some (hwrap _)⟩
    | true => exact ⟨_, rfl, by rw [← ht]; exact congrArg some (hwrap _)⟩
  | bool => exact ⟨_, rfl, by rw [← ht]; exact congrArg some (hwrap _)⟩
  | other => exact nomatch ht

theorem Scalar.bitRange_eq {v : Scalar} {n offset width : Nat} (hv : v.type.bitSize = some n)
    (hwidth : 0 < width) (h : offset + width ≤ n) :
    v.bitRange offset width = some ⟨v.type, (v.val.val / 2 ^ offset % 2 ^ width : Nat)⟩ := by
  rw [Scalar.bitRange, hv]
  simp [hwidth.ne', Nat.not_lt.mpr h, R1CGen.bitRange]

theorem Scalar.castTo_eq {target : CastTarget} (ht : target.resultType s = some t)
    (hcast : b.cast s t x = some x) : (⟨s, x⟩ : Scalar).castTo b target = some ⟨t, x⟩ := by
  simp [Scalar.castTo, ht, hcast]

theorem Scalar.castTo_field (b : Backend) (n : Nat) (x : Fr) :
    (⟨.i n, x⟩ : Scalar).castTo b .field = some ⟨.field, x⟩ :=
  Scalar.castTo_eq rfl (@Backend.cast_eq b (.integer true n) .field _ _ x rfl rfl trivial nofun)

/-- The sign of an operand is its top bit, also where its range shows that it has none. -/
theorem Scalar.sign_eq {range : IntInterval} {n : Nat} (hn : 0 < n)
    (hx : x.val < 2 ^ n) (hrange : range.Contains (decode n x)) :
    (⟨.i n, x⟩ : Scalar).sign b range n = some ⟨.field, (x.val / 2 ^ (n - 1) % 2 : Nat)⟩ := by
  rw [Scalar.sign]
  split
  · next hshort =>
    obtain ⟨hlo, hhi⟩ := hrange.nonNegativeInSigned hshort
    have hlow : x.val < 2 ^ (n - 1) := by
      by_contra h
      have hneg := decode_neg hx h
      omega
    rw [Nat.div_eq_of_lt hlow]
    rfl
  · rw [Scalar.bitRange_eq (n := n) rfl Nat.one_pos (by omega)]
    exact Scalar.castTo_field b n _

/-- The sign extension, if its pattern is below the modulus and the backend can hold it. -/
theorem Scalar.sext_eq {range : IntInterval} {n m : Nat} (hn : 0 < n) (hnm : n ≤ m)
    (hx : x.val < 2 ^ n) (hrange : range.Contains (decode n x))
    (hfinal : ∀ y : Fr, y = (x.val + x.val / 2 ^ (n - 1) % 2 * (2 ^ m - 2 ^ n) : Nat) →
      b.cast .field (.i m) y = some y) :
    (⟨.i n, x⟩ : Scalar).sext b range n m
      = some ⟨.i m, (x.val + x.val / 2 ^ (n - 1) % 2 * (2 ^ m - 2 ^ n) : Nat)⟩ := by
  have hle : 2 ^ n ≤ 2 ^ m := Nat.pow_le_pow_right Nat.two_pos hnm
  have hsum : x + ((x.val / 2 ^ (n - 1) % 2 : Nat) : Fr) * (twoPow m - twoPow n)
      = (x.val + x.val / 2 ^ (n - 1) % 2 * (2 ^ m - 2 ^ n) : Nat) := by
    rw [Nat.cast_add, natCast_val, Nat.cast_mul, Nat.cast_sub hle, twoPow, twoPow]
    push_cast
    rfl
  have hsign := Scalar.sign_eq (b := b) hn hx hrange
  simp [Scalar.sext, Scalar.sextType, hsign, Scalar.castTo_field, hsum, hfinal]

end Instructions

/-! ## The conversion computes the cast -/

section Conversion

variable {b : Backend} {lhs type : AstType} {s t : TypeExpr} {x : Fr}
  {ranges : ValueId → IntInterval} {env : Env Scalar} {value next : ValueId}

/-- A signed source is a signed integer. -/
theorem AstType.signed_eq (h : lhs.source.2) : lhs = .integer true lhs.source.1 := by
  cases lhs with
  | integer signed bits => simpa [source] using h
  | field | bool | other => simp [source] at h

theorem AstType.isWitnessOf_eq (h : lhs.type = some s) : s.isWitnessOf = false := by
  rcases type_cases h with ⟨-, rfl⟩ | ⟨-, rfl | rfl⟩
  · rfl
  · rfl
  · rfl

/-- The cast at the end, on an operand that fits. -/
theorem exec_cast (hs : lhs.type = some s) (ht : type.type = some t)
    (htype : type.Within b.maxBits)
    (hfit : lhs = .field → type ≠ .field → x.val < 2 ^ b.maxBits)
    (henv : env value = some ⟨s, x⟩) :
    ∃ target, type.target = some (target, type.source.1) ∧
      execOp b ranges env (.cast next value target)
        = some (Function.update env next (some ⟨t, x⟩)) := by
  obtain ⟨target, htarget, hresult⟩ := AstType.target_eq ht (AstType.isWitnessOf_eq hs)
  refine ⟨target, htarget, ?_⟩
  have hcast := Scalar.castTo_eq hresult (Backend.cast_eq hs ht htype hfit)
  simp [execOp, henv, hcast]

theorem AstType.source_le_254 (h : lhs.Within b.maxBits) : lhs.source.1 ≤ 254 := by
  by_cases hfield : lhs = field
  · rw [hfield]
    decide
  · have hle := (source_le h hfield).2
    have h128 := b.maxBits_le
    omega

theorem convertCast_eq {target : CastTarget} {narrowed widened : List OpCode}
    {v₁ n₁ v₂ n₂ : ValueId} (htarget : type.target = some (target, type.source.1))
    (hnarrow : narrow value next lhs.source.1 type.source.1 = (narrowed, v₁, n₁))
    (hwiden : widen v₁ n₁ lhs.source.1 lhs.source.2 type.source.1 = (widened, v₂, n₂)) :
    convertCast lhs type value next
      = some (narrowed ++ widened ++ [.cast n₂ v₂ target], n₂) := by
  simp [convertCast, htarget, hnarrow, hwiden]

/-- Narrowing: the low bits. -/
theorem narrow_computes (hs : lhs.type = some s) (ht : type.type = some t)
    (hlhs : lhs.Within b.maxBits) (htype : type.Within b.maxBits) (hx : lhs.InType x)
    (henv : env value = some ⟨s, x⟩) (h : type.source.1 < lhs.source.1) :
    ∃ ops result env' y, convertCast lhs type value next = some (ops, result) ∧
      execOps b ranges env ops = some env' ∧ env' result = some ⟨t, y⟩ ∧
      y.val = castBits lhs type.source.1 x ∧ ∀ v < next, env' v = env v := by
  set m := type.source.1
  have hfield : type ≠ .field := by
    rintro rfl
    have hle := AstType.source_le_254 hlhs
    have hm : m = 254 := rfl
    omega
  have hmpos : 0 < m := (AstType.source_le htype hfield).1
  have hmle : m ≤ b.maxBits := (AstType.source_le htype hfield).2
  have hmod : x.val % 2 ^ m < modulus := (Nat.mod_le _ _).trans_lt (ZMod.val_lt x)
  set y := ((x.val % 2 ^ m : Nat) : Fr) with hydef
  have hy : y.val = x.val % 2 ^ m := ZMod.val_natCast_of_lt hmod
  have hfit : lhs = .field → type ≠ .field → y.val < 2 ^ b.maxBits := by
    intro _ _
    rw [hy]
    exact (Nat.mod_lt _ (Nat.two_pow_pos m)).trans_le (Nat.pow_le_pow_right Nat.two_pos hmle)
  have hrange : (⟨s, x⟩ : Scalar).bitRange 0 m = some ⟨s, y⟩ := by
    rw [Scalar.bitRange_eq (AstType.bitSize_eq hs) hmpos (by omega), pow_zero, Nat.div_one]
  set env₁ := Function.update env next (some ⟨s, y⟩)
  have henv₁ : env₁ next = some ⟨s, y⟩ := Function.update_self ..
  obtain ⟨target, htarget, hcast⟩ : ∃ target, type.target = some (target, type.source.1) ∧
      execOp b ranges env₁ (.cast (next + 1) next target)
        = some (Function.update env₁ (next + 1) (some ⟨t, y⟩)) :=
    exec_cast hs ht htype hfit henv₁
  have hnarrow : narrow value next lhs.source.1 m
      = ([.bitRange next value 0 m], next, next + 1) := if_pos ⟨by omega, h⟩
  have hwiden : widen next (next + 1) lhs.source.1 lhs.source.2 m = ([], next, next + 1) :=
    if_neg fun hw => by omega
  refine ⟨[.bitRange next value 0 m, .cast (next + 1) next target], next + 1,
    Function.update env₁ (next + 1) (some ⟨t, y⟩), y, convertCast_eq htarget hnarrow hwiden, ?_,
    Function.update_self .., ?_, ?_⟩
  · have hfirst : execOp b ranges env (.bitRange next value 0 m) = some env₁ := by
      simp [execOp, henv, hrange, env₁]
    simp [execOps, hfirst, hcast]
  · rw [hy, castBits_narrow hx h.le]
  · intro v hv
    rw [Function.update_of_ne (hv.trans (Nat.lt_succ_self next)).ne]
    exact Function.update_of_ne (Nat.ne_of_lt hv) _ _

/-- Widening a signed operand: its sign extension. -/
theorem widen_computes (hs : lhs.type = some s) (ht : type.type = some t)
    (hlhs : lhs.Within b.maxBits) (htype : type.Within b.maxBits) (hx : lhs.InType x)
    (hfield : type = .field → b = .generator ∧ 0 ≤ lhs.number x)
    (henv : env value = some ⟨s, x⟩) (hrange : (ranges value).Contains (lhs.number x))
    (hsigned : lhs.source.2) (h : lhs.source.1 < type.source.1) :
    ∃ ops result env' y, convertCast lhs type value next = some (ops, result) ∧
      execOps b ranges env ops = some env' ∧ env' result = some ⟨t, y⟩ ∧
      y.val = castBits lhs type.source.1 x ∧ ∀ v < next, env' v = env v := by
  obtain ⟨n, rfl⟩ : ∃ n, lhs = .integer true n := ⟨_, AstType.signed_eq hsigned⟩
  obtain rfl : TypeExpr.i n = s := Option.some.inj hs
  set m := type.source.1
  have hn : 0 < n := hlhs.1
  have hlt : x.val < 2 ^ n := hx nofun
  have hbits : castBits (.integer true n) m x
      = x.val + x.val / 2 ^ (n - 1) % 2 * (2 ^ m - 2 ^ n) := castBits_signed hx hsigned hn h.le
  set z := x.val + x.val / 2 ^ (n - 1) % 2 * (2 ^ m - 2 ^ n)
  -- the pattern is an element that the backend can hold
  have hz : z < modulus ∧ ∀ y : Fr, y = (z : Nat) →
      b.cast .field (.i m) y = some y ∧ b.cast (.i m) t y = some y := by
    by_cases hf : type = .field
    · obtain ⟨rfl, hnum⟩ := hfield hf
      have hlow : x.val < 2 ^ (n - 1) := by
        by_contra hneg
        have hneg := decode_neg hlt hneg
        exact absurd hnum (Int.not_le.mpr hneg)
      have hzx : z = x.val := by simp [z, Nat.div_eq_of_lt hlow]
      exact ⟨hzx ▸ ZMod.val_lt x, fun _ _ => ⟨rfl, rfl⟩⟩
    · obtain ⟨hmpos, hmle⟩ := AstType.source_le htype hf
      have hzlt : z < 2 ^ m := hbits ▸ castBits_lt _ _ _
      have hmod : z < modulus :=
        hzlt.trans (two_pow_lt_modulus (hmle.trans (b.maxBits_le.trans (by decide))))
      refine ⟨hmod, fun y hy => ?_⟩
      have hyval : y.val < 2 ^ b.maxBits := by
        rw [hy, ZMod.val_natCast_of_lt hmod]
        exact hzlt.trans_le (Nat.pow_le_pow_right Nat.two_pos hmle)
      exact ⟨@Backend.cast_eq b .field (.integer true m) _ _ y rfl rfl ⟨hmpos, hmle⟩
        fun _ _ => hyval, @Backend.cast_eq b (.integer true m) type _ _ y rfl ht htype nofun⟩
  have hsext : (⟨.i n, x⟩ : Scalar).sext b (ranges value) n m = some ⟨.i m, (z : Nat)⟩ :=
    Scalar.sext_eq hn h.le hlt hrange fun y hy => (hz.2 y hy).1
  clear_value z
  obtain ⟨target, htarget, hresult⟩ := AstType.target_eq (s := .i m) ht rfl
  have hcast := Scalar.castTo_eq hresult (hz.2 _ rfl).2
  have hnarrow : narrow value next (AstType.integer true n).source.1 m = ([], value, next) :=
    if_neg fun hw => absurd hw.2 (Nat.not_lt.mpr h.le)
  have hwiden : widen value next (AstType.integer true n).source.1
      (AstType.integer true n).source.2 m = ([.sext next value n m], next, next + 1) :=
    if_pos ⟨rfl, hn, h⟩
  refine ⟨[.sext next value n m, .cast (next + 1) next target], next + 1,
    Function.update (Function.update env next (some ⟨.i m, (z : Nat)⟩)) (next + 1)
      (some ⟨t, (z : Nat)⟩), (z : Nat), convertCast_eq htarget hnarrow hwiden, ?_,
    Function.update_self .., ?_, ?_⟩
  · simp [execOps, execOp, henv, hsext, hcast]
  · rw [hbits, ZMod.val_natCast_of_lt hz.1]
  · intro v hv
    rw [Function.update_of_ne (hv.trans (Nat.lt_succ_self next)).ne,
      Function.update_of_ne (Nat.ne_of_lt hv)]

/-- A cast that neither narrows nor widens a signed operand keeps the element. -/
theorem keep_computes (hs : lhs.type = some s) (ht : type.type = some t)
    (htype : type.Within b.maxBits) (hx : lhs.InType x) (henv : env value = some ⟨s, x⟩)
    (hle : lhs.source.1 ≤ type.source.1)
    (h : lhs.source.2 → lhs.source.1 = type.source.1) :
    ∃ ops result env' y, convertCast lhs type value next = some (ops, result) ∧
      execOps b ranges env ops = some env' ∧ env' result = some ⟨t, y⟩ ∧
      y.val = castBits lhs type.source.1 x ∧ ∀ v < next, env' v = env v := by
  have hfit : lhs = .field → type ≠ .field → x.val < 2 ^ b.maxBits := by
    rintro rfl hne
    have hmax := (AstType.source_le htype hne).2
    have h128 := b.maxBits_le
    have h254 : 254 ≤ type.source.1 := hle
    omega
  obtain ⟨target, htarget, hcast⟩ : ∃ target, type.target = some (target, type.source.1) ∧
      execOp b ranges env (.cast next value target)
        = some (Function.update env next (some ⟨t, x⟩)) := exec_cast hs ht htype hfit henv
  have hnarrow : narrow value next lhs.source.1 type.source.1 = ([], value, next) :=
    if_neg fun hw => absurd hw.2 (Nat.not_lt.mpr hle)
  have hwiden : widen value next lhs.source.1 lhs.source.2 type.source.1 = ([], value, next) :=
    if_neg fun hw => absurd (h hw.1) hw.2.2.ne
  refine ⟨[.cast next value target], next, Function.update env next (some ⟨t, x⟩), x, ?_, ?_,
    Function.update_self .., ?_, ?_⟩
  · exact convertCast_eq htarget hnarrow hwiden
  · simpa [execOps] using hcast
  · by_cases hsigned : lhs.source.2
    · rw [castBits_narrow hx (h hsigned).ge, ← h hsigned, Nat.mod_eq_of_lt hx.lt]
    · rw [castBits_unsigned hx hsigned hle]
  · exact fun v hv => Function.update_of_ne (Nat.ne_of_lt hv) _ _

/-- What `convert_cast` emits computes the cast, in the constraint system and on the machine:
the result is the pattern of the value, cut to the width of the target or extended to it.  A
signed value is cast to the field in the constraint system only, and only if it is not
negative. -/
theorem convertCast_computes (hlhs : lhs.Within b.maxBits) (htype : type.Within b.maxBits)
    (hs : lhs.type = some s) (ht : type.type = some t) (hx : lhs.InType x)
    (hfield : lhs.source.2 → type = .field → b = .generator ∧ 0 ≤ lhs.number x)
    (henv : env value = some ⟨s, x⟩) (hrange : (ranges value).Contains (lhs.number x)) :
    ∃ ops result env' y, convertCast lhs type value next = some (ops, result) ∧
      execOps b ranges env ops = some env' ∧ env' result = some ⟨t, y⟩ ∧
      y.val = castBits lhs type.source.1 x ∧ type.InType y ∧ ∀ v < next, env' v = env v := by
  have hcomputes : ∃ ops result env' y, convertCast lhs type value next = some (ops, result) ∧
      execOps b ranges env ops = some env' ∧ env' result = some ⟨t, y⟩ ∧
      y.val = castBits lhs type.source.1 x ∧ ∀ v < next, env' v = env v := by
    rcases Nat.lt_trichotomy type.source.1 lhs.source.1 with h | h | h
    · exact narrow_computes hs ht hlhs htype hx henv h
    · exact keep_computes hs ht htype hx henv h.ge fun _ => h.symm
    · by_cases hsigned : lhs.source.2
      · exact widen_computes hs ht hlhs htype hx (hfield hsigned) henv hrange hsigned h
      · exact keep_computes hs ht htype hx henv h.le fun hw => absurd hw hsigned
  obtain ⟨ops, result, env', y, hops, hrun, hresult, hy, hkeep⟩ := hcomputes
  exact ⟨ops, result, env', y, hops, hrun, hresult, hy, fun _ => hy ▸ castBits_lt _ _ _, hkeep⟩

end Conversion

/-- `-1i8 as u16`, on the machine. -/
theorem convertCast_computes_minusOne :
    ∃ ops result env' y, convertCast (.integer true 8) (.integer false 16) 0 1
        = some (ops, result) ∧
      execOps .machine (fun _ => .top) (fun _ => some ⟨.i 8, 255⟩) ops = some env' ∧
      env' result = some ⟨.u 16, y⟩ ∧ y.val = 65535 := by
  have hx : (AstType.integer true 8).InType 255 := fun _ => by decide
  obtain ⟨ops, result, env', y, hops, hrun, hresult, hy, -⟩ :=
    @convertCast_computes .machine (.integer true 8) (.integer false 16) _ _ 255 (fun _ => .top)
      (fun _ => some ⟨.i 8, 255⟩) 0 1 ⟨by decide, by decide⟩ ⟨by decide, by decide⟩ rfl rfl hx
      nofun rfl IntInterval.contains_top
  exact ⟨ops, result, env', y, hops, hrun, hresult, hy.trans (by decide)⟩

/-- `-1i8 as Field`: no element has the extended pattern, the constraint system takes another
one, and there is no place for a 254-bit integer in a frame. -/
theorem convertCast_signed_to_field :
    (∀ y : Fr, y.val ≠ castBits (.integer true 8) 254 255) ∧
      convertCast (.integer true 8) .field 0 1
        = some ([.sext 1 0 8 254, .cast 2 1 .field], 2) ∧
      (∃ env' y, execOps .generator (fun _ => .top) (fun _ => some ⟨.i 8, 255⟩)
          [.sext 1 0 8 254, .cast 2 1 .field] = some env' ∧ env' 2 = some ⟨.field, y⟩) ∧
      execOps .machine (fun _ => .top) (fun _ => some ⟨.i 8, 255⟩)
        [.sext 1 0 8 254, .cast 2 1 .field] = none := by
  refine ⟨fun y hy => ?_, rfl, ⟨_, _, rfl, rfl⟩, rfl⟩
  have hbits : castBits (.integer true 8) 254 255 = 2 ^ 254 - 1 := by decide
  have hlt := ZMod.val_lt y
  rw [hy, hbits] at hlt
  exact absurd hlt (by norm_num [modulus])

/-! ## The code of a cast -/

section Code

open Bytecode Codegen

variable {types : ValueId → Option TypeExpr} {l : FrameLayouter} {m : Machine}
  {s t : TypeExpr} {x y : Fr} {r v : ValueId} {target : CastTarget}

/-- The opcode of a cast leaves at the result what the cast makes of the element. -/
theorem castOp_run {res p : Nat} (hsize : (FrameLayouter.typeSize s).isSome)
    (hold : Holds m p s (.const x)) (hcast : machineCast s t x = some y) :
    ∃ op m', castOp res p s t = some op ∧ m.run [op] = some m' ∧ Holds m' res t (.const y) ∧
      Keeps res m m' := by
  have hmove : ∀ bits, (FrameLayouter.typeSize (.u bits)).isSome →
      FrameLayouter.typeSize (.u bits) = some 1 ∧ FrameLayouter.typeSize (.i bits) = some 1 := by
    intro bits h
    simpa [FrameLayouter.typeSize] using h
  have hlow : (x.val % 2 ^ 64 : Nat) < 2 ^ 64 := Nat.mod_lt _ (Nat.two_pow_pos 64)
  have hval : ((x.val % 2 ^ 64 : Nat) : Fr).val = x.val % 2 ^ 64 :=
    ZMod.val_natCast_of_lt ((Nat.mod_le _ _).trans_lt (ZMod.val_lt x))
  cases s <;> cases t <;> simp only [machineCast, reduceCtorEq, Option.some.injEq] at hcast
  case u.u bits bits' | u.i bits bits' | i.u bits bits' | i.i bits bits' =>
    subst hcast
    refine ⟨.movFrame 1 res p, m.setWord res x.val, ?_, ?_, Holds.setWord _ _ (by simp) hold.2,
      Keeps.setWord le_rfl _ _⟩
    · simp [castOp, (hmove bits hsize).1, (hmove bits hsize).2]
    · simp [Machine.run, Machine.step, Machine.move, hold.1]
  case field.u bits | field.i bits =>
    subst hcast
    refine ⟨.castFieldToU64 res p, m.setWord res (x.val % 2 ^ 64), rfl, ?_, ?_,
      Keeps.setWord le_rfl _ _⟩
    · simp [Machine.run, Machine.step, hold.field]
    · have hset := Holds.setWord m res (t := .u bits) (by simp) (hval.symm ▸ hlow)
      rw [hval] at hset
      exact hset
  case u.field bits | i.field bits =>
    subst hcast
    refine ⟨.castU64ToField res p, m.setField res x, rfl, ?_, Holds.setField _ _ _,
      Keeps.setField le_rfl _ _⟩
    simp [Machine.run, Machine.step, hold.1]

/-- The code selected for a cast makes the machine hold its value at the place of the result. -/
theorem cast_code (hv : types v = some s) (hr : types r = some t)
    (htarget : target.resultType s = some t) (hscalar : IsScalar t)
    (hvr : v ≠ r) {p : Nat} (hp : l.getValue v = some p)
    (hsize : (FrameLayouter.typeSize s).isSome) (hold : Holds m p s (.const x))
    (hcast : Backend.machine.cast s t x = some y) :
    ∃ l' code m' q, Codegen.cast types l r v target = some (l', code) ∧
      m.run code = some m' ∧ l'.getValue r = some q ∧ Holds m' q t (.const y) ∧
      Keeps l.nextFree m m' := by
  have hwitness : target ≠ .witnessOf := by
    rintro rfl
    cases s <;> simp only [CastTarget.resultType, TypeExpr.mkWitnessOf, Option.some.injEq,
      reduceCtorEq] at htarget <;> subst htarget <;> exact hscalar
  rw [Codegen.cast, hv, hr]
  simp only [Option.bind_eq_bind, Option.bind_some, if_neg hwitness]
  by_cases hst : s = t
  · -- the result shares the place of the operand
    subst hst
    obtain rfl : x = y := Option.some.inj ((if_pos rfl).symm.trans hcast)
    rw [if_pos (.inr (.inr (.inl rfl))), hp]
    exact ⟨_, _, m, p, rfl, rfl, by simp [FrameLayouter.share, FrameLayouter.getValue], hold,
      Keeps.refl _ _⟩
  · have hmoves : ¬(target = .nop ∨ target = .arrayToSlice ∨ s = t ∨ (s.isWitnessOf ∧
        t.isWitnessOf)) := by
      rintro (rfl | rfl | h | ⟨-, h⟩)
      · exact hst (Option.some.inj htarget)
      · cases s <;> simp only [CastTarget.resultType, Option.some.injEq, reduceCtorEq] at htarget
        subst htarget
        exact hscalar
      · exact hst h
      · cases t <;> first | exact hscalar | cases h
    rw [Backend.cast, if_neg hst] at hcast
    split at hcast
    · next hplace =>
      obtain ⟨n, hn⟩ := Option.isSome_iff_exists.mp hplace
      obtain ⟨op, m', hop, hrun, hold', hkeep⟩ :=
        @castOp_run _ _ _ _ _ l.nextFree _ hsize hold hcast
      refine ⟨(l.alloc r n).1, [op], m', l.nextFree, ?_, hrun, ?_, hold', hkeep⟩
      · have hread : (l.alloc r n).1.getValue v = some p := (getValue_alloc hvr n).trans hp
        have halloc : l.allocValue r t = some ((l.alloc r n).1, l.nextFree) := by
          simp [FrameLayouter.allocValue, hn, FrameLayouter.alloc]
        rw [if_neg hmoves, halloc]
        simp [hread, hop]
      · simp [FrameLayouter.alloc, FrameLayouter.getValue]
    · cases hcast

end Code

end Mavros.Frontend
