/-
# `Mavros.Lowering.ArrayWrite` — array writes at a witness index

`gen_witness_array_set` goes through all places of the array and selects, by the equality of
the index with the place, between the new value and the old one.  An index that is no place
selects nothing: the loop has no demand of its own on it.  The read that `convert_assign`
makes at the same index would have had one, but it is swept before it is lowered.

## What is proved

* `lower_exact`: an assignment to an element of an array, taken through `convert_assign`, dead code
  elimination and the lowering, writes as it should (`Writes`) exactly when its index is in range.
* `lower_exact_inRange` and `lower_counterexample`: the second of two places is written; place five
  of two is not rejected, and nothing is written.
* `unswept_inRange`: with the read left in place the assignment demands an index in range.

## How it goes

After the sweep the loop of selections is all there is (`lowerOps_swept`).  A place is selected
where the equality of it with the index is one, so what the loop collects is the old array with the
value at the index, if that is a place (`map_select_eq_set`).  The last result goes back to
`Mavros.Lowering.ArrayRead`: a read of scalars bounds its index.
-/
import Mavros.Frontend.Assign
import Mavros.Lowering.ArrayRead
import Mavros.Lowering.Compare

namespace Mavros.Lowering

open Lib Lib.Circuit
open Hlssa (TypeExpr ValueId OpCode)

/-! ## The gadget

For an index of an integer width, without a guard.
-/

/-- `gen_witness_array_set`, for an index of the width. -/
def genWitnessArraySet {σ : Type} (P : Prover Fr σ) (idxBits : Nat) (arr : List Element) (idx : Fr)
    (value : Element) : Circuit σ (List Element) :=
  (List.range arr.length).mapM fun (i : Nat) => do
    let eq ← lowerEq P (.u idxBits) idx (i : Fr)
    match value.scalarHint, arr[i]?.bind Element.scalarHint with
    | some valueField, some arrI => return .scalar (select eq valueField arrI)
    | _, _ => failure

/-- The width of the index, where `process_array_op` and `gen_witness_array_set` do not panic:
there is no guard, the elements are scalars and the index is an unsigned integer. -/
def arraySetWidth (guard : Option Fr) (elemType idxType : TypeExpr) : Option Nat :=
  match guard, elemType.stripWitness, idxType.stripWitness with
  | none, .field, .u bits | none, .u _, .u bits | none, .i _, .u bits => some bits
  | _, _, _ => none

/-! ## The loop of selections

Sound and complete, with no condition on the index.
-/

section Loop

variable {σ : Type} {P : Prover Fr σ} {idxBits : Nat} {arr : List Element} {idx value : Fr}

theorem select_boolField (p : Prop) [Decidable p] (x y : Fr) :
    select (boolField p) x y = if p then x else y := by
  unfold boolField select
  by_cases h : p <;> simp [h]

/-- The place that is an index. -/
theorem eq_place_iff {i : Nat} (hi : i < arr.length) (hlen : arr.length < 2 ^ 64) :
    idx = (i : Fr) ↔ idx.val = i := by
  have hlt : i < modulus := hi.trans (hlen.trans (by norm_num [modulus]))
  constructor
  · rintro rfl
    exact ZMod.val_natCast_of_lt hlt
  · rintro rfl
    exact (natCast_val idx).symm

/-- What the loop collects: the value at the index, the old elements elsewhere. -/
theorem map_select_eq_set (xs : List Fr) (hlen : xs.length < 2 ^ 64) :
    (List.range xs.length).map (fun (i : Nat) =>
      Element.scalar (if idx = (i : Fr) then value else xs[i]?.getD 0))
      = (xs.set idx.val value).map .scalar := by
  refine List.ext_getElem (by simp) fun i hi hi' => ?_
  have hrange : i < (xs.map Element.scalar).length := by simpa using hi
  have hlen' : (xs.map Element.scalar).length < 2 ^ 64 := by simpa using hlen
  have hplace : idx = (i : Fr) ↔ idx.val = i := eq_place_iff hrange hlen'
  rw [List.length_map] at hrange
  simp only [List.getElem_map, List.getElem_range, List.getElem_set, hplace]
  split
  · rfl
  · rw [List.getElem?_eq_getElem hrange, Option.getD_some]

theorem genWitnessArraySet_ensures (xs : List Fr) (hlen : xs.length < 2 ^ 64) :
    Ensures (genWitnessArraySet P idxBits (xs.map .scalar) idx (.scalar value))
      fun ys => (xs.set idx.val value).map .scalar = ys := by
  rw [genWitnessArraySet, List.length_map]
  refine Ensures.mono (Ensures.mapM (R := fun (i : Nat) y =>
    Element.scalar (if idx = (i : Fr) then value else xs[i]?.getD 0) = y) fun i hi => ?_) ?_
  · have hi : i < xs.length := List.mem_range.mp hi
    refine lowerEq_ensures.bind fun eq heq => ?_
    simp only [Element.scalarHint, List.getElem?_map, List.getElem?_eq_getElem hi, Option.map_some,
      Option.bind_some]
    refine .pure ?_
    rw [heq, select_boolField, Option.getD_some]
  · intro ys hys
    rw [← map_select_eq_set xs hlen]
    exact List.forall₂_eq_eq_eq ▸ List.forall₂_map_left_iff.mpr hys

theorem genWitnessArraySet_completes (xs : List Fr) (hlen : xs.length < 2 ^ 64) :
    Gadget.Completes
      (fun _ P => genWitnessArraySet P idxBits (xs.map .scalar) idx (.scalar value))
      ((xs.set idx.val value).map .scalar) := by
  rw [← map_select_eq_set xs hlen]
  simp only [genWitnessArraySet, List.length_map]
  refine .mapM fun i hi => ?_
  have hi : i < xs.length := List.mem_range.mp hi
  refine (lowerEq_completes rfl).bind ?_
  simp only [Element.scalarHint, List.getElem?_map, List.getElem?_eq_getElem hi, Option.map_some,
    Option.bind_some, Option.getD_some, select_boolField]
  exact .pure

end Loop

/-! ## Assignments

The program around the gadget, as the passes leave it.
-/

/-- The values of a program, and what its references hold. -/
structure Bindings where
  values : ValueId → Option Element
  cells : ValueId → Option Element

namespace Bindings

variable (s : Bindings)

def define (r : ValueId) (e : Option Element) : Bindings :=
  { s with values := Function.update s.values r e }

def write (ptr : ValueId) (e : Option Element) : Bindings :=
  { s with cells := Function.update s.cells ptr e }

end Bindings

/-- An array operation whose index is a witness, as it is lowered; loads and stores. -/
def lowerArrayOp {σ : Type} (P : Prover Fr σ) (idxBits : Nat) (elemType : TypeExpr) (s : Bindings) :
    OpCode → Circuit σ Bindings
  | .load r ptr => return s.define r (s.cells ptr)
  | .store ptr v => return s.write ptr (s.values v)
  | .arrayGet r array index =>
    match s.values array, s.values index with
    | some (.array arr), some (.scalar idx) =>
      match genWitnessArrayGet none arr elemType idx with
      | some c => do return s.define r (← c σ P)
      | none => failure
    | _, _ => failure
  | .arraySet r array index value =>
    match s.values array, s.values index, s.values value with
    | some (.array arr), some (.scalar idx), some v => do
      return s.define r (some (.array (← genWitnessArraySet P idxBits arr idx v)))
    | _, _, _ => failure
  | _ => failure

/-- An assignment to an element of an array of scalars that a variable holds. -/
structure ElementAssignment extends Hlssa.Assignment where
  idx : ValueId
  steps_eq : steps = [.index idx]
  elemType : TypeExpr
  idxType : TypeExpr
  arr : List Fr
  index : Fr
  value : Fr
  length_lt : arr.length < 2 ^ 64
  values : ValueId → Option Element
  values_idx : values idx = some (.scalar index)
  values_newValue : values newValue = some (.scalar value)

namespace ElementAssignment

variable (a : ElementAssignment)

def initial : Bindings :=
  ⟨a.values, Function.update (fun _ => none) a.rootPtr (some (.array (a.arr.map .scalar)))⟩

/-- What the reference holds after a program. -/
def lowerOps (idxBits : Nat) (ops : List OpCode) : Gadget Fr (Option Element) := fun _ P => do
  let s ← ops.foldlM (lowerArrayOp P idxBits a.elemType) a.initial
  return s.cells a.rootPtr

/-- The assignment through dead code elimination and the lowering; `none` where it panics. -/
def lower (guard : Option Fr) : Option (Gadget Fr (Option Element)) :=
  (arraySetWidth guard a.elemType a.idxType).map fun idxBits => a.lowerOps idxBits (a.swept false)

theorem idx_lt : a.idx < a.next :=
  a.operands_lt (.index a.idx)
    (by rw [a.steps_eq]; exact List.mem_cons_self) a.idx List.mem_cons_self

/-- After the sweep the loop of selections is all there is. -/
theorem lowerOps_swept (idxBits : Nat) :
    a.lowerOps idxBits (a.swept false) = fun _ P => do
      let data ← genWitnessArraySet P idxBits (a.arr.map .scalar) a.index (.scalar a.value)
      return some (.array data) := by
  funext σ P
  have hidx : a.idx ≠ a.next := Nat.ne_of_lt a.idx_lt
  have hvalue : a.newValue ≠ a.next := Nat.ne_of_lt a.newValue_lt
  simp [lowerOps, a.swept_index false a.steps_eq, lowerArrayOp, initial, Bindings.define,
    Bindings.write, hidx, hvalue, a.values_idx, a.values_newValue]

/-- The array with the value at the index. -/
def written : Option Element := some (.array ((a.arr.set a.index.val a.value).map .scalar))

theorem lowerOps_swept_ensures (idxBits : Nat) (σ : Type) (P : Prover Fr σ) :
    Ensures (a.lowerOps idxBits (a.swept false) σ P) fun e => e = a.written := by
  rw [lowerOps_swept]
  refine (genWitnessArraySet_ensures a.arr a.length_lt).bind fun data hdata => .pure ?_
  rw [written, hdata]

theorem lowerOps_swept_completes (idxBits : Nat) :
    Gadget.Completes (a.lowerOps idxBits (a.swept false)) a.written := by
  rw [lowerOps_swept]
  exact (genWitnessArraySet_completes a.arr a.length_lt).bind .pure

/-- The write of an element: under an active guard an index out of range is rejected and one
in range is written to, and an inactive guard leaves the array as it is. -/
structure Writes (guard : Option Fr) (c : Gadget Fr (Option Element)) : Prop where
  rejects : Active guard → a.arr.length ≤ a.index.val → ¬ c.Satisfiable
  completes : Active guard → a.index.val < a.arr.length → c.Completes a.written
  writes : Active guard → a.index.val < a.arr.length →
    ∀ (σ : Type) (P : Prover Fr σ), Ensures (c σ P) fun e => e = a.written
  keeps : guard = some 0 → c.Completes (some (.array (a.arr.map .scalar))) ∧
    ∀ (σ : Type) (P : Prover Fr σ), Ensures (c σ P) fun e => e = some (.array (a.arr.map .scalar))

/-- A lowered assignment writes as it should exactly when its index is in range. -/
theorem lower_exact (guard : Option Fr) :
    (∀ c, a.lower guard = some c → a.Writes guard c) ↔
      arraySetWidth guard a.elemType a.idxType = none ∨ a.index.val < a.arr.length := by
  cases hwidth : arraySetWidth guard a.elemType a.idxType with
  | none => simp [lower, hwidth]
  | some idxBits =>
    have hguard : guard = none := by
      cases guard with
      | none => rfl
      | some condition => simp [arraySetWidth] at hwidth
    subst hguard
    simp only [lower, hwidth, Option.map_some, Option.some.injEq, forall_eq', reduceCtorEq,
      false_or]
    constructor
    · intro h
      by_contra hrange
      exact h.rejects (.inl rfl) (Nat.le_of_not_lt hrange)
        (a.lowerOps_swept_completes idxBits).satisfiable
    · intro hrange
      exact {
        rejects := fun _ hout => absurd hrange (Nat.not_lt.mpr hout)
        completes := fun _ _ => a.lowerOps_swept_completes idxBits
        writes := fun _ _ => a.lowerOps_swept_ensures idxBits
        keeps := fun h => by cases h }

end ElementAssignment

/-- `arr[5] = 9` on an array of two elements. -/
def outOfRange : ElementAssignment where
  next := 3
  rootPtr := 0
  steps := [.index 1]
  newValue := 2
  used := []
  rootPtr_lt := by decide
  newValue_lt := by decide
  operands_lt := by simp [Hlssa.AccessStep.operands]
  used_lt := by simp
  idx := 1
  steps_eq := rfl
  elemType := .field
  idxType := .witnessOf (.u 32)
  arr := [7, 8]
  index := 5
  value := 9
  length_lt := by decide
  values := fun v => if v = 1 then some (.scalar 5) else some (.scalar 9)
  values_idx := rfl
  values_newValue := rfl

/-- `arr[1] = 10` on the same array. -/
def inRange : ElementAssignment where
  toAssignment := outOfRange.toAssignment
  idx := 1
  steps_eq := rfl
  elemType := .field
  idxType := .witnessOf (.u 32)
  arr := [7, 8]
  index := 1
  value := 10
  length_lt := outOfRange.length_lt
  values := fun v => if v = 1 then some (.scalar 1) else some (.scalar 10)
  values_idx := rfl
  values_newValue := rfl

/-- The assignment is lowered, and the program writes the second place and no other. -/
theorem lower_exact_inRange :
    (inRange.lower none).isSome ∧ inRange.written = some (.array [.scalar 7, .scalar 10]) ∧
      ∀ c, inRange.lower none = some c → inRange.Writes none c := by
  have hrange : inRange.index.val < inRange.arr.length := by decide
  exact ⟨rfl, rfl, (inRange.lower_exact none).mpr (.inr hrange)⟩

theorem lower_counterexample :
    ¬ ∀ c, outOfRange.lower none = some c → outOfRange.Writes none c := by
  intro h
  exact (h _ rfl).rejects (.inl rfl) (by decide)
    (outOfRange.lowerOps_swept_completes 32).satisfiable

/-! ## The read that is swept -/

section Unswept

theorem flattenArrayIntoTable_scalars (xs : List Fr) :
    Element.flattenArrayIntoTable (xs.map .scalar) = some xs := by
  induction xs with
  | nil => rfl
  | cons x xs ih => simp [Element.flattenArrayIntoTable, Element.flatten, ih]

theorem counted_stripWitness {t s : TypeExpr} (hs : Counted s 1) (hstrip : s.stripAllWitness = s)
    (h : t.stripWitness = s) : Counted t.stripAllWitness 1 := by
  have hsame : t.stripAllWitness = t.stripWitness.stripAllWitness := by cases t <;> rfl
  rw [hsame, h, hstrip]
  exact hs

theorem counted_of_arraySetWidth {guard : Option Fr} {elemType idxType : TypeExpr} {idxBits : Nat}
    (h : arraySetWidth guard elemType idxType = some idxBits) :
    Counted elemType.stripAllWitness 1 := by
  unfold arraySetWidth at h
  split at h
  · next hfield _ => exact counted_stripWitness .field rfl hfield
  · next n _ hu _ => exact counted_stripWitness (.u n) rfl hu
  · next n _ hi _ => exact counted_stripWitness (.i n) rfl hi
  · cases h

/-- A read of a scalar is at an index in range. -/
theorem genWitnessArrayGet_scalars {t : TypeExpr} (ht : Counted t.stripAllWitness 1) (xs : List Fr)
    (idx : Fr) : ∃ c, genWitnessArrayGet none (xs.map .scalar) t idx = some c ∧
      ∀ (σ : Type) (P : Prover Fr σ), Ensures (c σ P) fun _ => idx.val < xs.length := by
  simp only [genWitnessArrayGet, ht.leafScalarCount, flattenArrayIntoTable_scalars, if_pos]
  refine ⟨_, rfl, fun σ P => (genWitnessArrayGetFromHint_ensures one_ne_zero ht).mono ?_⟩
  rintro e ⟨-, leaves, hleaves, hstands⟩
  have hlt : 0 < leaves.length := hleaves.2.symm ▸ Nat.one_pos
  have hentry := (hstands 0 Nat.one_pos).trans (List.getElem?_eq_getElem hlt)
  rw [Nat.cast_zero, add_zero] at hentry
  exact (List.getElem?_eq_some_iff.mp hentry).1

namespace ElementAssignment

/-- Unswept, the assignment demands an index in range. -/
theorem unswept_inRange (a : ElementAssignment) {guard : Option Fr} {idxBits : Nat}
    (h : arraySetWidth guard a.elemType a.idxType = some idxBits) (σ : Type) (P : Prover Fr σ) :
    Ensures (a.lowerOps idxBits a.ops σ P) fun _ => a.index.val < a.arr.length := by
  obtain ⟨c, hc, hensures⟩ := genWitnessArrayGet_scalars (counted_of_arraySetWidth h) a.arr a.index
  have hidx : a.idx ≠ a.next := Nat.ne_of_lt a.idx_lt
  simp only [lowerOps, a.ops_index a.steps_eq, List.foldlM_cons, lowerArrayOp, initial,
    Bindings.define, pure_bind, Function.update_self, Function.update_of_ne hidx, a.values_idx, hc]
  refine Ensures.bind (Q := fun _ => a.index.val < a.arr.length) ?_ fun _ hrange => .pure hrange
  refine Ensures.bind (Q := fun _ => a.index.val < a.arr.length)
    ((hensures σ P).bind fun _ hrange => .pure hrange) fun _ hrange => ?_
  exact Ensures.any.mono fun _ _ => hrange

end ElementAssignment

end Unswept

end Mavros.Lowering
