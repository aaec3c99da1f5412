/-
# `Mavros.AbiHelpers` — from named input values to a list of fields

`ordered_params_from_btreemap` puts the input values into the order of the ABI, and the
interpreter lays their fields out one after the other.  A missing parameter or field, a
value of another shape and a string of another length are panics, `none`.

## What is modelled

Types and values of the ABI as the crate has them: fields, booleans, integers with a sign and a
width, strings, arrays, structs and tuples, nested to any depth.  A struct's fields are looked up by
name in a map, and those of a tuple by their position written as a name.

## What is proved

`Represents` says that an input value stands for a value of the program, one of the type, and
`LaidOut` that an ordered value is laid out as the fields of one.  `orderedParam_represents` and its
two companions for fields and elements say that ordering succeeds on a value that stands for
another, and that the result is laid out as the fields of it.

The three are one induction over the type, with the elements of an array, the fields of a struct and
the elements of a tuple as its lists.
-/
import Mavros.Hlssa.Emitter
import Mavros.Lib.Lists

namespace Mavros.AbiHelpers

open Hlssa
open Lib (mapM_forall₂)

/-- `noirc_abi::AbiType`; lengths are `u32`. -/
inductive AbiType where
  | field
  | boolean
  | integer (signed : Bool) (width : Nat)
  | array (length : BitVec 32) (typ : AbiType)
  | string (length : BitVec 32)
  | tuple (fields : List AbiType)
  | struct (fields : List (String × AbiType))

/-- `noirc_abi::InputValue`; an object is a map from field names. -/
inductive InputValue where
  | field (elem : Fr)
  | string (s : String)
  | vec (elements : List InputValue)
  | struct (object : List (String × InputValue))

inductive InputValueOrdered where
  | field (elem : Fr)
  | string (s : String)
  | vec (elements : List InputValueOrdered)
  | struct (fields : List (String × InputValueOrdered))

structure Abi where
  parameters : List (String × AbiType)
  returnType : Option AbiType := none

def mainReturnName : String := "return"

/-! ## `ordered_params_from_btreemap` -/

def stringBytes (s : String) : List Fr := s.toUTF8.toList.map fun byte => (byte.toNat : Fr)

mutual

def orderedParam : AbiType → InputValue → Option InputValueOrdered
  | _, .field elem => some (.field elem)
  | .array _ typ, .vec elements => (elements.mapM (orderedParam typ)).map .vec
  | .struct fields, .struct object => (orderedFields fields object).map .struct
  | .string length, .string s =>
    if (stringBytes s).length = length.toNat then
      some (.vec ((stringBytes s).map .field))
    else none
  | .tuple fields, .vec elements =>
    if elements.length = fields.length then (orderedElements fields 0 elements).map .struct
    else none
  | _, _ => none

/-- The fields of a struct, each looked up by its name. -/
def orderedFields : List (String × AbiType) → List (String × InputValue) →
    Option (List (String × InputValueOrdered))
  | [], _ => some []
  | (name, typ) :: fields, object =>
    (object.lookup name).bind fun value =>
      (orderedParam typ value).bind fun v => (orderedFields fields object).map ((name, v) :: ·)

/-- The fields of a tuple from `idx` on, named by their positions. -/
def orderedElements : List AbiType → Nat → List InputValue →
    Option (List (String × InputValueOrdered))
  | typ :: fields, idx, value :: elements =>
    (orderedParam typ value).bind fun v =>
      (orderedElements fields (idx + 1) elements).map ((toString idx, v) :: ·)
  | _, _, _ => some []

end

def orderedParamsFromBtreemap (abi : Abi) (unorderedParams : List (String × InputValue)) :
    Option (List InputValueOrdered) := do
  let ordered ← abi.parameters.mapM fun param =>
    (unorderedParams.lookup param.1).bind (orderedParam param.2)
  match abi.returnType, unorderedParams.lookup mainReturnName with
  | some returnType, some returnValue => do
    let v ← orderedParam returnType returnValue
    return ordered ++ [v]
  | _, _ => return ordered

/-! ## `flatten_params` -/

mutual

def flattenParams : InputValueOrdered → Option (List Fr)
  | .field elem => some [elem]
  | .vec elements => flattenParamVec elements
  | .struct fields => flattenStruct fields
  | .string _ => none

def flattenParamVec : List InputValueOrdered → Option (List Fr)
  | [] => some []
  | elem :: vec => (flattenParams elem).bind fun xs => (flattenParamVec vec).map (xs ++ ·)

def flattenStruct : List (String × InputValueOrdered) → Option (List Fr)
  | [] => some []
  | (_, elem) :: fields => (flattenParams elem).bind fun xs => (flattenStruct fields).map (xs ++ ·)

end

/-! ## What is laid out

The fields of a value, as the program counts them.
-/

mutual

/-- The scalars of a value in order. -/
def flatten : Val → List Fr
  | .scalar x => [x]
  | .seq elems => flattenAll elems

def flattenAll : List Val → List Fr
  | [] => []
  | v :: vs => flatten v ++ flattenAll vs

end

mutual

/-- The input value stands for the value, which is one of the type.  A signed integer is
given by its bit pattern. -/
def Represents : AbiType → InputValue → Val → Prop
  | .field, .field elem, .scalar x => elem = x
  | .boolean, .field elem, .scalar x => elem = x ∧ x.val < 2
  | .integer _ width, .field elem, .scalar x => elem = x ∧ x.val < 2 ^ width
  | .array length typ, .vec elements, .seq vs =>
    elements.length = length.toNat ∧ List.Forall₂ (Represents typ) elements vs
  | .string length, .string s, .seq vs =>
    (stringBytes s).length = length.toNat ∧ vs = (stringBytes s).map .scalar
  | .tuple fields, .vec elements, .seq vs => RepresentsElements fields elements vs
  | .struct fields, .struct object, .seq vs => RepresentsFields fields object vs
  | _, _, _ => False

def RepresentsElements : List AbiType → List InputValue → List Val → Prop
  | [], [], [] => True
  | typ :: fields, value :: elements, v :: vs =>
    Represents typ value v ∧ RepresentsElements fields elements vs
  | _, _, _ => False

def RepresentsFields : List (String × AbiType) → List (String × InputValue) → List Val → Prop
  | [], _, [] => True
  | (name, typ) :: fields, object, v :: vs =>
    (∃ value, object.lookup name = some value ∧ Represents typ value v) ∧
      RepresentsFields fields object vs
  | _, _, _ => False

end

/-- The ordered value is laid out as the fields of the value. -/
def LaidOut (o : InputValueOrdered) (v : Val) : Prop := flattenParams o = some (flatten v)

theorem flattenParamVec_laidOut {os : List InputValueOrdered} {vs : List Val}
    (h : List.Forall₂ LaidOut os vs) : flattenParamVec os = some (flattenAll vs) := by
  induction h with
  | nil => rfl
  | cons hov _ ih =>
    have hov : flattenParams _ = some _ := hov
    rw [flattenParamVec, hov, Option.bind_some, ih]
    rfl

theorem flattenStruct_laidOut {os : List (String × InputValueOrdered)} {vs : List Val}
    (h : List.Forall₂ (fun o v => LaidOut o.2 v) os vs) :
    flattenStruct os = some (flattenAll vs) := by
  induction h with
  | nil => rfl
  | cons hov _ ih =>
    have hov : flattenParams _ = some _ := hov
    rw [flattenStruct, hov, Option.bind_some, ih]
    rfl

theorem flattenAll_map_scalar (xs : List Fr) : flattenAll (xs.map .scalar) = xs := by
  induction xs with
  | nil => rfl
  | cons x xs ih =>
    rw [List.map_cons, flattenAll, flatten, ih]
    rfl

theorem RepresentsElements.length {fields : List AbiType} {elements : List InputValue}
    {vs : List Val} (h : RepresentsElements fields elements vs) :
    elements.length = fields.length := by
  induction fields generalizing elements vs with
  | nil =>
    cases elements with
    | nil => rfl
    | cons e es => simp [RepresentsElements] at h
  | cons t ts ih =>
    cases elements with
    | nil => simp [RepresentsElements] at h
    | cons e es =>
      cases vs with
      | nil => simp [RepresentsElements] at h
      | cons v vs => exact congrArg (· + 1) (ih h.2)

mutual

/-- An input value is ordered and laid out as the value it stands for. -/
theorem orderedParam_represents : ∀ (t : AbiType) (value : InputValue) (v : Val),
    Represents t value v → ∃ o, orderedParam t value = some o ∧ LaidOut o v
  | .field, .field elem, .scalar x, h => ⟨.field elem, by simp [orderedParam], by
      obtain rfl : elem = x := h
      rfl⟩
  | .boolean, .field elem, .scalar x, h | .integer _ _, .field elem, .scalar x, h =>
    ⟨.field elem, by simp [orderedParam], by
      obtain rfl : elem = x := h.1
      rfl⟩
  | .array length typ, .vec elements, .seq vs, h => by
    obtain ⟨os, hos, hlaid⟩ := mapM_forall₂ (orderedParam_represents typ) h.2
    exact ⟨.vec os, by rw [orderedParam, hos]; rfl, flattenParamVec_laidOut hlaid⟩
  | .string length, .string s, .seq vs, h => by
    obtain ⟨hlen, rfl⟩ := h
    refine ⟨.vec ((stringBytes s).map .field), by rw [orderedParam, if_pos hlen], ?_⟩
    refine flattenParamVec_laidOut (List.forall₂_map_left_iff.mpr
      (List.forall₂_map_right_iff.mpr (List.forall₂_same.mpr fun x _ => rfl)))
  | .tuple fields, .vec elements, .seq vs, h => by
    obtain ⟨os, hos, hlaid⟩ := orderedElements_represents fields 0 elements vs h
    refine ⟨.struct os, ?_, flattenStruct_laidOut hlaid⟩
    rw [orderedParam, if_pos (RepresentsElements.length h), hos]
    rfl
  | .struct fields, .struct object, .seq vs, h => by
    obtain ⟨os, hos, hlaid⟩ := orderedFields_represents fields object vs h
    exact ⟨.struct os, by rw [orderedParam, hos]; rfl, flattenStruct_laidOut hlaid⟩

theorem orderedElements_represents : ∀ (fields : List AbiType) (idx : Nat)
    (elements : List InputValue) (vs : List Val), RepresentsElements fields elements vs →
      ∃ os, orderedElements fields idx elements = some os ∧
        List.Forall₂ (fun o v => LaidOut o.2 v) os vs
  | [], _, [], [], _ => ⟨[], by simp [orderedElements], .nil⟩
  | t :: fields, idx, value :: elements, v :: vs, h => by
    obtain ⟨o, ho, hov⟩ := orderedParam_represents t value v h.1
    obtain ⟨os, hos, hlaid⟩ := orderedElements_represents fields (idx + 1) elements vs h.2
    exact ⟨(toString idx, o) :: os, by rw [orderedElements, ho, Option.bind_some, hos]; rfl,
      .cons hov hlaid⟩

theorem orderedFields_represents : ∀ (fields : List (String × AbiType))
    (object : List (String × InputValue)) (vs : List Val), RepresentsFields fields object vs →
      ∃ os, orderedFields fields object = some os ∧
        List.Forall₂ (fun o v => LaidOut o.2 v) os vs
  | [], _, [], _ => ⟨[], by simp [orderedFields], .nil⟩
  | (name, t) :: fields, object, v :: vs, h => by
    obtain ⟨⟨value, hvalue, hrep⟩, hrest⟩ := h
    obtain ⟨o, ho, hov⟩ := orderedParam_represents t value v hrep
    obtain ⟨os, hos, hlaid⟩ := orderedFields_represents fields object vs hrest
    refine ⟨(name, o) :: os, ?_, .cons hov hlaid⟩
    rw [orderedFields, hvalue, Option.bind_some, ho, Option.bind_some, hos]
    rfl

end

end Mavros.AbiHelpers
