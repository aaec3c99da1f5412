/-
# `Mavros.Passes.PreparedRanges` — what a prepare function guarantees

Whatever the prover writes to the witness, a prepare function that runs to its end
returns a value of its type: an array of the declared length, a tuple of the declared
elements, and every integer leaf inside the range of its width.  The raw value it was
called with plays no part in that.

## What is proved

`PrepareFnEntry.run_inRange`: for every prover and every raw value, a finished run returns a
value that is `InRange` of the type.

## How it goes

A leaf is written and then checked (`emitIntCheck_lt`), a bit by its polynomial, the wider
integers by a range check, so its range does not depend on what was written.  Containers are an
induction over the type, with a loop in the array case: after each turn the elements so far
are in range, and those to come are the default (`emitPrepareArray_inRange`).
-/
import Mavros.Passes.PrepareEntryPoint

namespace Mavros.PrepareEntryPoint

open Hlssa Hlssa.Emit
open Lib.Circuit (bind_eq_some pure_eq_some)

mutual

/-- Every integer leaf of the value lies in the range of its type. -/
def InRange : TypeExpr → Val → Prop
  | .u size, .scalar x | .i size, .scalar x => x.val < 2 ^ size
  | .array inner size, .seq elems => elems.length = size ∧ ∀ v ∈ elems, InRange inner v
  | .tuple elementTypes, .seq elems => InRangeAll elementTypes elems
  | .u _, .seq _ | .i _, .seq _ | .array _ _, .scalar _ | .tuple _, .scalar _ => False
  | .field, _ | .witnessOf _, _ | .slice _, _ | .ref _, _ | .function, _ => True

def InRangeAll : List TypeExpr → List Val → Prop
  | [], [] => True
  | t :: ts, v :: vs => InRange t v ∧ InRangeAll ts vs
  | [], _ :: _ | _ :: _, [] => False

end

section Bodies

variable {σ : Type} {prover : Prover σ}

/-- A field element that is a root of `x * (x - 1)` is a bit. -/
theorem val_lt_two_of_boolean {x : Fr} (h : x * (x - 1) = 0) : x.val < 2 := by
  rcases mul_eq_zero.mp h with h | h
  · simp [h]
  · rw [sub_eq_zero.mp h]
    decide

/-- A field element that passes the check of a width is below that power of two. -/
theorem emitIntCheck_lt {size : Nat} {x : Fr} {s : σ} {r : Unit × σ}
    (h : emitIntCheck size (.scalar x) s = some r) : x.val < 2 ^ size := by
  by_cases hsize : size = 1
  · -- a single bit is checked by its polynomial
    subst hsize
    have hroot : x * (x - 1) = 0 := by
      by_contra hne
      simp [emitIntCheck, fieldConst, sub, mul, assertEq, hne] at h
    exact val_lt_two_of_boolean hroot
  · by_contra hlt
    simp [emitIntCheck, hsize, rangecheck, R1CGen.rangecheck, hlt] at h

theorem emitPrepareInt_inRange {castBack : CastTarget} {size : Nat} {value v : Val} {s t : σ}
    (h : emitPrepareInt prover castBack size value s = some (v, t)) :
    ∃ x, v = .scalar x ∧ x.val < 2 ^ size := by
  obtain ⟨asField, s₁, -, h⟩ := bind_eq_some.mp h
  obtain ⟨w, s₂, hw, h⟩ := bind_eq_some.mp h
  obtain ⟨_, s₃, hcheck, h⟩ := bind_eq_some.mp h
  obtain ⟨rfl, -⟩ := Prod.mk.inj (pure_eq_some.mp h)
  cases asField with
  | seq elems => exact absurd hw (by simp [writeWitness])
  | scalar raw =>
    obtain ⟨rfl, rfl⟩ := Prod.mk.inj (Option.some.inj hw)
    exact ⟨_, rfl, emitIntCheck_lt hcheck⟩

/-- The loop over an array fills one element after the other. -/
theorem emitPrepareArray_inRange {inner : TypeExpr} {size : Nat}
    (ih : ∀ value s v t, emitPrepareBody prover inner value s = some (v, t) → InRange inner v)
    {value v : Val} {s t : σ}
    (h : emitPrepareBody prover (.array inner size) value s = some (v, t)) :
    InRange (.array inner size) v := by
  rw [emitPrepareBody] at h
  obtain ⟨initial, s₁, hinit, hloop⟩ := bind_eq_some.mp h
  obtain ⟨elems, rfl, hlen⟩ : ∃ elems, initial = .seq elems ∧ elems.length = size := by
    by_cases hsize : size = 0
    · rw [emitDefaultArray, emitDefaultValue, if_pos hsize] at hinit
      obtain ⟨rfl, -⟩ := Prod.mk.inj (pure_eq_some.mp hinit)
      exact ⟨[], rfl, hsize.symm⟩
    · rw [emitDefaultArray, emitDefaultValue, if_neg hsize] at hinit
      obtain ⟨elem, s₂, -, hinit⟩ := bind_eq_some.mp hinit
      obtain ⟨rfl, -⟩ := Prod.mk.inj (pure_eq_some.mp hinit)
      exact ⟨_, rfl, List.length_replicate⟩
  have hfilled := countedLoop_spec
    (P := fun i a => ∃ elems, a = .seq elems ∧ elems.length = size ∧
      ∀ j < i, ∀ v, elems[j]? = some v → InRange inner v)
    ⟨elems, rfl, hlen, by simp⟩ ?_ hloop
  · obtain ⟨filled, rfl, hlen, hall⟩ := hfilled
    refine ⟨hlen, fun v hv => ?_⟩
    obtain ⟨j, hj, hjv⟩ := List.mem_iff_getElem.mp hv
    exact hall j (hlen ▸ hj) v (by simp [hj, hjv])
  · rintro i hi a s b t ⟨current, rfl, hlen, hall⟩ hbody
    obtain ⟨elem, s₁, -, hbody⟩ := bind_eq_some.mp hbody
    obtain ⟨prepared, s₂, hprep, hset⟩ := bind_eq_some.mp hbody
    have hprepared : InRange inner prepared := ih _ _ _ _ hprep
    have hbound : i < current.length := hlen ▸ hi
    simp only [arraySet, if_pos hbound, pure_eq_some, Prod.mk.injEq] at hset
    refine ⟨_, hset.1, by simpa using hlen, fun j hj v hv => ?_⟩
    by_cases hji : j = i
    · subst hji
      rw [List.getElem?_set_self hbound] at hv
      exact Option.some.inj hv ▸ hprepared
    · rw [List.getElem?_set_ne (Ne.symm hji)] at hv
      exact hall j (by omega) v hv

mutual

/-- A finished run of a prepare body returns a value with every integer in range. -/
theorem emitPrepareBody_inRange : ∀ (t : TypeExpr) (value : Val) (s : σ) (v : Val) (s' : σ),
    emitPrepareBody prover t value s = some (v, s') → InRange t v
  | .field, _, _, _, _, _ | .witnessOf _, _, _, _, _, _ | .slice _, _, _, _, _, _
  | .ref _, _, _, _, _, _ | .function, _, _, _, _, _ => by simp [InRange]
  | .u size, value, s, v, s', h | .i size, value, s, v, s', h => by
    rw [emitPrepareBody] at h
    obtain ⟨x, rfl, hx⟩ := emitPrepareInt_inRange h
    simpa [InRange] using hx
  | .array inner size, value, s, v, s', h =>
    emitPrepareArray_inRange (emitPrepareBody_inRange inner) h
  | .tuple elementTypes, value, s, v, s', h => by
    rw [emitPrepareBody] at h
    obtain ⟨elems, s₁, helems, h⟩ := bind_eq_some.mp h
    obtain ⟨rfl, -⟩ := Prod.mk.inj (pure_eq_some.mp h)
    exact emitPrepareElements_inRange elementTypes 0 value s elems s₁ helems

theorem emitPrepareElements_inRange : ∀ (ts : List TypeExpr) (i : Nat) (value : Val) (s : σ)
    (vs : List Val) (s' : σ), emitPrepareElements prover ts i value s = some (vs, s') →
    InRangeAll ts vs
  | [], i, value, s, vs, s', h => by
    rw [emitPrepareElements] at h
    obtain ⟨rfl, -⟩ := Prod.mk.inj (pure_eq_some.mp h)
    trivial
  | t :: ts, i, value, s, vs, s', h => by
    rw [emitPrepareElements] at h
    obtain ⟨elem, s₁, -, h⟩ := bind_eq_some.mp h
    obtain ⟨prepared, s₂, hprep, h⟩ := bind_eq_some.mp h
    obtain ⟨rest, s₃, hrest, h⟩ := bind_eq_some.mp h
    obtain ⟨rfl, -⟩ := Prod.mk.inj (pure_eq_some.mp h)
    exact ⟨emitPrepareBody_inRange t elem s₁ prepared s₂ hprep,
      emitPrepareElements_inRange ts (i + 1) value s₂ rest s₃ hrest⟩

end

end Bodies

/-- The value a prepare function returns is one of its type, for any prover. -/
theorem PrepareFnEntry.run_inRange {σ : Type} (entry : PrepareFnEntry) (prover : Prover σ)
    {raw v : Val} {s t : σ} (h : entry.run prover raw s = some (v, t)) :
    InRange entry.hlssaType v :=
  emitPrepareBody_inRange entry.hlssaType raw s v t h

end Mavros.PrepareEntryPoint
