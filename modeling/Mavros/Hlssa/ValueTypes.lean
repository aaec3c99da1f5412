/-
# `Mavros.Hlssa.ValueTypes` — instructions give values of their result types

The type a value carries is the one `Types::run_opcode` computes, so along a run of a
typed function every bound value has its static type.

## What is proved

`valueSem_typed`: whatever an instruction gives on values of some types, it gives values of the
types `run_opcode` computes from these.  The part of the meaning that is left open
(`Completion`) is asked to do the same (`Completion.Typed`); of the scalar instructions it is
proved, wrapped or not.

## How it goes

A wrapper goes on where some operand has one, in the types and in the values, and both sides are
brought into the form `wrapIf` of a raw type.  What is left is one lemma for each scalar operation
on raw values (`arithRaw_type`, `cmpRaw_type`, `selectRaw_type` and so on), and the instruction's
number of inputs.
-/
import Mavros.Hlssa.Values

namespace Mavros.Hlssa

open TypeExpr

/-! ## Wrapped types

Wrapping and stripping on types of the form `wrapIf`.
-/

def TypeExpr.wrapIf (w : Bool) (t : TypeExpr) : TypeExpr := if w then .witnessOf t else t

@[simp]
theorem isWitnessOf_wrapIf (w : Bool) (t : TypeExpr) :
    (t.wrapIf w).isWitnessOf = (w || t.isWitnessOf) := by
  cases w <;> rfl

theorem mkWitnessOf_eq {t : TypeExpr} (h : t.isWitnessOf = false) :
    mkWitnessOf t = some (.witnessOf t) := by
  cases t with
  | witnessOf t => simp [isWitnessOf] at h
  | _ => rfl

theorem stripWitness_eq {t : TypeExpr} (h : t.isWitnessOf = false) : t.stripWitness = t := by
  cases t with
  | witnessOf t => simp [isWitnessOf] at h
  | _ => rfl

section Types

variable {A W : Type}

theorem Raw.isWitnessOf_type (r : Raw A) : r.type.isWitnessOf = false := by
  cases r with
  | int s n x => cases s <;> rfl
  | field x => rfl
  | other t h a => cases t <;> first | rfl | exact h.elim

theorem Value.type_eq (v : Value A) : v.type = v.raw.type.wrapIf v.witness := rfl

@[simp]
theorem Value.isWitnessOf_type (v : Value A) : v.type.isWitnessOf = v.witness := by
  rw [Value.type_eq, wrapIf]
  cases v.witness with
  | false => exact v.raw.isWitnessOf_type
  | true => rfl

@[simp]
theorem Value.stripWitness_type (v : Value A) : v.type.stripWitness = v.raw.type := by
  rw [Value.type_eq, wrapIf]
  cases v.witness with
  | true => rfl
  | false => exact stripWitness_eq v.raw.isWitnessOf_type

theorem arithmeticResult_wrapIf {a b t : TypeExpr} (ha : a.isWitnessOf = false)
    (hb : b.isWitnessOf = false) (ht : t.isWitnessOf = false)
    (h : a.arithmeticResult b = some t) (wa wb : Bool) :
    (a.wrapIf wa).arithmeticResult (b.wrapIf wb) = some (t.wrapIf (wa || wb)) := by
  have hstrip : (b.wrapIf wb).stripWitness = b := by
    cases wb with
    | true => rfl
    | false => exact stripWitness_eq hb
  cases wa with
  | true =>
    show (do mkWitnessOf (← a.arithmeticResult (b.wrapIf wb).stripWitness)) = _
    rw [hstrip, h]
    exact mkWitnessOf_eq ht
  | false =>
    cases wb with
    | false => exact h
    | true =>
      -- the left operand is no witness, so the right one decides
      have hright : a.arithmeticRight b = some t := by
        cases a with
        | witnessOf a => simp [isWitnessOf] at ha
        | _ => exact h
      have hresult : a.arithmeticResult (.witnessOf b) = a.arithmeticRight (.witnessOf b) := by
        cases a with
        | witnessOf a => simp [isWitnessOf] at ha
        | _ => rfl
      show a.arithmeticResult (.witnessOf b) = _
      rw [hresult, arithmeticRight, hright]
      exact mkWitnessOf_eq ht

variable {C : Completion A W}

theorem arithRaw_type {kind : BinaryArithOpKind} {a b r : Raw A}
    (h : arithRaw C kind a b = some r) : a.type.arithmeticResult b.type = some r.type := by
  cases a with
  | int s m x =>
    cases b with
    | int s' n y =>
      simp only [arithRaw] at h
      split at h
      · next hs =>
        subst hs
        obtain ⟨z, -, rfl⟩ := Option.map_eq_some_iff.mp h
        cases s <;> rfl
      · simp at h
    | field y =>
      obtain ⟨z, -, rfl⟩ := Option.map_eq_some_iff.mp h
      cases s <;> rfl
    | other t ht y => simp [arithRaw] at h
  | field x =>
    cases b with
    | int s n y =>
      obtain ⟨z, -, rfl⟩ := Option.map_eq_some_iff.mp h
      cases s <;> rfl
    | field y =>
      obtain ⟨z, -, rfl⟩ := Option.map_eq_some_iff.mp h
      rfl
    | other t ht y => simp [arithRaw] at h
  | other t ht x => simp [arithRaw] at h

theorem mulConstRaw_type {c v r : Raw A} (h : mulConstRaw C c v = some r) : r.type = v.type := by
  cases c with
  | int s m x =>
    cases v with
    | int s' n y =>
      simp only [mulConstRaw] at h
      split at h
      · obtain ⟨z, -, rfl⟩ := Option.map_eq_some_iff.mp h
        cases s' <;> rfl
      · simp at h
    | field y =>
      obtain rfl := Option.some.inj h
      rfl
    | other t ht y => simp [mulConstRaw] at h
  | field x =>
    cases v with
    | field y =>
      obtain rfl := Option.some.inj h
      rfl
    | int s' n y => simp [mulConstRaw] at h
    | other t ht y => simp [mulConstRaw] at h
  | other t ht x => simp [mulConstRaw] at h

theorem cmpRaw_type {kind : CmpKind} {a b r : Raw A} (h : cmpRaw kind a b = some r) :
    r.type = .u 1 := by
  unfold cmpRaw at h
  split at h
  · split at h
    · obtain rfl := Option.some.inj h
      rfl
    · simp at h
  · obtain rfl := Option.some.inj h
    rfl
  · simp at h

theorem notRaw_type {a r : Raw A} (h : notRaw a = some r) : r.type = a.type := by
  cases a with
  | int s n x =>
    obtain rfl := Option.some.inj h
    cases s <;> rfl
  | field x =>
    simp only [notRaw] at h
    split at h
    · obtain rfl := Option.some.inj h
      rfl
    · simp at h
  | other t ht x => simp [notRaw] at h

theorem bitRangeRaw_type {offset width : Nat} {a r : Raw A}
    (h : bitRangeRaw offset width a = some r) : r.type = a.type := by
  cases a with
  | int s n x =>
    obtain rfl := Option.some.inj h
    cases s <;> rfl
  | field x =>
    obtain rfl := Option.some.inj h
    rfl
  | other t ht x => simp [bitRangeRaw] at h

theorem selectRaw_type {cond : Bool} {a b r : Raw A} (h : selectRaw cond a b = some r) :
    a.type.arithmeticResult b.type = some r.type := by
  cases a with
  | int s m x =>
    cases b with
    | int s' n y =>
      simp only [selectRaw] at h
      split at h
      · next hs =>
        subst hs
        obtain rfl := Option.some.inj h
        cases s <;> rfl
      · simp at h
    | field y => simp [selectRaw] at h
    | other t ht y => simp [selectRaw] at h
  | field x =>
    cases b with
    | field y =>
      obtain rfl := Option.some.inj h
      rfl
    | int s n y => simp [selectRaw] at h
    | other t ht y => simp [selectRaw] at h
  | other t ht x => simp [selectRaw] at h

/-- The free part of an execution gives values of the types asked for. -/
structure Completion.Typed (C : Completion A W)
    (signatures : FunctionId → Option (List TypeExpr × List TypeExpr)) : Prop where
  cast : ∀ target v v' t, C.cast target v = some v' → target.resultType v.type = some t →
    v'.type = t
  op : ∀ (op : OpCode) (types : ValueId → Option TypeExpr) xs w w' ys rs,
    op.inputs.map types = xs.map (fun x => some x.type) →
    C.op op.shape xs w = (w', some ys) → op.resultTypes signatures types = some rs →
    rs.map Prod.snd = ys.map Value.type

theorem castVal_type {target : CastTarget} {v v' : Value A} {t : TypeExpr}
    {signatures : FunctionId → Option (List TypeExpr × List TypeExpr)} (hC : C.Typed signatures)
    (h : castVal C target v = some v') (ht : target.resultType v.type = some t) :
    v'.type = t := by
  unfold castVal at h
  split at h
  · obtain rfl := Option.some.inj h
    exact Option.some.inj ht
  · next raw hraw =>
    split at h
    · simp at h
    · next hw =>
      obtain rfl := Option.some.inj h
      have hw : v.witness = false := by simpa using hw
      have hv : v.type = v.raw.type := by simp [Value.type, hw]
      rw [CastTarget.resultType, hv, mkWitnessOf_eq v.raw.isWitnessOf_type] at ht
      exact Option.some.inj ht
  · next x hraw =>
    obtain rfl := Option.some.inj h
    rw [CastTarget.resultType] at ht
    rw [← Option.some.inj ht, wrapLike, Value.isWitnessOf_type, Value.type, hraw]
    rfl
  · next n m x hraw =>
    split at h
    · next hmn =>
      subst hmn
      obtain rfl := Option.some.inj h
      rw [CastTarget.resultType] at ht
      rw [← Option.some.inj ht, wrapLike, Value.isWitnessOf_type, Value.type, hraw]
      rfl
    · exact hC.cast _ _ _ _ h ht
  · next n m x hraw =>
    split at h
    · next hmn =>
      subst hmn
      obtain rfl := Option.some.inj h
      rw [CastTarget.resultType] at ht
      rw [← Option.some.inj ht, wrapLike, Value.isWitnessOf_type, Value.type, hraw]
      rfl
    · exact hC.cast _ _ _ _ h ht
  · exact hC.cast _ _ _ _ h ht

theorem selectVal_type {cond ifT ifF v : Value A} {t : TypeExpr}
    (h : selectVal cond ifT ifF = some v) (ht : ifT.type.arithmeticResult ifF.type = some t) :
    v.type = if cond.type.isWitnessOf && !t.isWitnessOf then .witnessOf t else t := by
  unfold selectVal at h
  simp only [Option.bind_eq_bind] at h
  split at h
  · simp only [Option.bind_eq_some_iff, Option.pure_def, Option.some.injEq] at h
    obtain ⟨raw, hraw, rfl⟩ := h
    rw [Value.type_eq, Value.type_eq, arithmeticResult_wrapIf (Raw.isWitnessOf_type _)
      (Raw.isWitnessOf_type _) raw.isWitnessOf_type (selectRaw_type hraw)] at ht
    obtain rfl := Option.some.inj ht
    have hr := raw.isWitnessOf_type
    rw [Value.isWitnessOf_type]
    simp only [isWitnessOf_wrapIf, hr, Value.type_eq, Bool.or_false]
    cases cond.witness <;> cases ifT.witness <;> cases ifF.witness <;> rfl
  · simp at h

section Inputs

variable {types : ValueId → Option TypeExpr} {xs : List (Value A)}

theorem one_input {v : ValueId} (h : [v].map types = xs.map fun x => some x.type) :
    ∃ x, xs = [x] ∧ types v = some x.type := by
  rw [List.map_cons, eq_comm, List.map_eq_cons_iff] at h
  obtain ⟨x, rest, rfl, hx, hrest⟩ := h
  obtain rfl := List.map_eq_nil_iff.mp hrest
  exact ⟨x, rfl, hx.symm⟩

theorem two_inputs {u v : ValueId} (h : [u, v].map types = xs.map fun x => some x.type) :
    ∃ x y, xs = [x, y] ∧ types u = some x.type ∧ types v = some y.type := by
  rw [List.map_cons, eq_comm, List.map_eq_cons_iff] at h
  obtain ⟨x, rest, rfl, hx, hrest⟩ := h
  obtain ⟨y, rfl, hy⟩ := one_input hrest.symm
  exact ⟨x, y, rfl, hx.symm, hy⟩

theorem three_inputs {u v z : ValueId} (h : [u, v, z].map types = xs.map fun x => some x.type) :
    ∃ x y y', xs = [x, y, y'] ∧ types u = some x.type ∧ types v = some y.type ∧
      types z = some y'.type := by
  rw [List.map_cons, eq_comm, List.map_eq_cons_iff] at h
  obtain ⟨x, rest, rfl, hx, hrest⟩ := h
  obtain ⟨y, y', rfl, hy, hz⟩ := two_inputs hrest.symm
  exact ⟨x, y, y', rfl, hx.symm, hy, hz⟩

end Inputs

/-- Results have the types `run_opcode` gives them. -/
theorem valueSem_typed {signatures : FunctionId → Option (List TypeExpr × List TypeExpr)}
    (hC : C.Typed signatures) {op : OpCode} {types : ValueId → Option TypeExpr}
    {xs ys : List (Value A)}
    {w w' : W} {rs : List (ValueId × TypeExpr)}
    (hin : op.inputs.map types = xs.map fun x => some x.type)
    (h : (valueSem C).op op.shape xs w = (w', some ys))
    (hrs : op.resultTypes signatures types = some rs) :
    rs.map Prod.snd = ys.map Value.type := by
  cases op with
  | binaryArithOp kind r lhs rhs =>
    obtain ⟨a, b, rfl, ha, hb⟩ := two_inputs hin
    obtain ⟨raw, hraw, rfl⟩ := Option.map_eq_some_iff.mp (congrArg Prod.snd h)
    have ht := arithmeticResult_wrapIf a.raw.isWitnessOf_type b.raw.isWitnessOf_type
      raw.isWitnessOf_type (arithRaw_type hraw) a.witness b.witness
    rw [← Value.type_eq, ← Value.type_eq] at ht
    simp only [OpCode.resultTypes, ha, hb, ht, Option.bind_eq_bind, Option.bind_some] at hrs
    obtain rfl := Option.some.inj hrs
    rfl
  | mulConst r c v =>
    obtain ⟨a, b, rfl, ha, hb⟩ := two_inputs hin
    obtain ⟨raw, hraw, rfl⟩ := Option.map_eq_some_iff.mp (congrArg Prod.snd h)
    simp only [OpCode.resultTypes, hb, Option.bind_eq_bind, Option.bind_some] at hrs
    obtain rfl := Option.some.inj hrs
    simp [Value.type, mulConstRaw_type hraw]
  | cmp kind r lhs rhs =>
    obtain ⟨a, b, rfl, ha, hb⟩ := two_inputs hin
    obtain ⟨raw, hraw, rfl⟩ := Option.map_eq_some_iff.mp (congrArg Prod.snd h)
    simp only [OpCode.resultTypes, ha, hb, Option.bind_eq_bind, Option.bind_some,
      Value.isWitnessOf_type] at hrs
    obtain rfl := Option.some.inj hrs
    simp [Value.type, cmpRaw_type hraw]
  | cast r v target =>
    obtain ⟨a, rfl, ha⟩ := one_input hin
    obtain ⟨y, hy, rfl⟩ := Option.map_eq_some_iff.mp (congrArg Prod.snd h)
    simp only [OpCode.resultTypes, ha, Option.bind_eq_bind, Option.bind_some,
      Option.bind_eq_some_iff] at hrs
    obtain ⟨t, ht, hrs⟩ := hrs
    obtain rfl := Option.some.inj hrs
    simp [castVal_type hC hy ht]
  | not r v =>
    obtain ⟨a, rfl, ha⟩ := one_input hin
    obtain ⟨raw, hraw, rfl⟩ := Option.map_eq_some_iff.mp (congrArg Prod.snd h)
    simp only [OpCode.resultTypes, ha, Option.bind_eq_bind, Option.bind_some] at hrs
    obtain rfl := Option.some.inj hrs
    simp [Value.type, notRaw_type hraw]
  | bitRange r v offset width =>
    obtain ⟨a, rfl, ha⟩ := one_input hin
    obtain ⟨raw, hraw, rfl⟩ := Option.map_eq_some_iff.mp (congrArg Prod.snd h)
    simp only [OpCode.resultTypes, ha, Option.bind_eq_bind, Option.bind_some,
      Option.bind_eq_some_iff] at hrs
    obtain ⟨bits, -, hrs⟩ := hrs
    split at hrs
    · simp at hrs
    · obtain rfl := Option.some.inj hrs
      simp [Value.type, bitRangeRaw_type hraw]
  | select r cond ifT ifF =>
    obtain ⟨c, a, b, rfl, hc, ha, hb⟩ := three_inputs hin
    obtain ⟨y, hy, rfl⟩ := Option.map_eq_some_iff.mp (congrArg Prod.snd h)
    simp only [OpCode.resultTypes, ha, hb, hc, Option.bind_eq_bind, Option.bind_some,
      Option.bind_eq_some_iff] at hrs
    obtain ⟨t, ht, hrs⟩ := hrs
    obtain rfl := Option.some.inj hrs
    simp [selectVal_type hy ht]
  | valueOf r v =>
    obtain ⟨a, rfl, ha⟩ := one_input hin
    have hout := congrArg Prod.snd h
    simp only [valueSem, OpCode.shape, OpCode.mapOperands, OpCode.mapInputs,
      OpCode.mapResults] at hout
    split at hout
    · next hw =>
      obtain rfl := Option.some.inj hout
      have hat : a.type = .witnessOf a.raw.type := by simp [Value.type, hw]
      simp only [OpCode.resultTypes, ha, hat, Option.bind_eq_bind, Option.bind_some] at hrs
      obtain rfl := Option.some.inj hrs
      simp [Value.type]
    · simp at hout
  | writeWitness r v pinned =>
    obtain ⟨a, rfl, ha⟩ := one_input hin
    have hout := congrArg Prod.snd h
    simp only [valueSem, OpCode.shape, OpCode.mapOperands, OpCode.mapInputs,
      OpCode.mapResults] at hout
    split at hout
    · simp at hout
    · next hw =>
      obtain rfl := Option.some.inj hout
      have hw : a.witness = false := by simpa using hw
      have hat : a.type = a.raw.type := by simp [Value.type, hw]
      cases r with
      | none =>
        obtain rfl := Option.some.inj hrs
        rfl
      | some r =>
        simp only [OpCode.resultTypes, ha, hat, mkWitnessOf_eq a.raw.isWitnessOf_type,
          Option.bind_eq_bind, Option.bind_some] at hrs
        obtain rfl := Option.some.inj hrs
        simp [Value.type]
  | _ => exact hC.op _ types xs w w' ys rs hin h hrs

end Types

end Mavros.Hlssa
