/-
# `Mavros.Lowering.FieldDivision` — the quotient of two field elements

## What is modelled

`Div` on field elements of which at least one is a witness, as `ExplicitWitness` leaves it.
The quotient `q` is written and `q · b = a` is demanded, with `a · c` in place of `a` under a
guard `c`; a quotient by a pure value stays a division, which is linear.

The hint is computed from the values of the witnesses, and taking the value of what is no
witness is refused by the typing of the pass that follows (`valueOf`).  The form without a guard
takes the value of the dividend whether it is a witness or not, so that a pure value by a
witness has no constraint system; the form under a guard looks first.

## What is proved

`lowerFieldDiv_exact`: the quotient is bound and the hint passes (`DivisionExact`) exactly on
the operands of `DivisionBound`.  What is left out there is zero by zero, which every quotient
solves; a guard that is off with a quotient that is not zero, for the hint is still that quotient
and the demand is `q · b = 0`; zero as a pure divisor under a guard that is off; and the
pure dividend without a guard.

`lowerFieldDiv_ensures` and `lowerFieldDiv_completes` are the two halves, for every prover and
for the honest one; the comparison of two field elements cites them.
-/
import Mathlib.Tactic.LinearCombination
import Mavros.Lowering.Builder

namespace Mavros.Lowering

open Lib Lib.Circuit

/-! ## The gadget -/

/-- `div_field` of the virtual machine. -/
def divField (a b : Fr) : Fr := if b = 0 then 0 else a / b

section Definitions

variable {σ : Type} (P : Prover Fr σ)

/-- `value_of`.  The typing of the next pass has no type for the value of what is no witness,
and panics. -/
def valueOf (taint : Bool) (x : Fr) : Circuit σ Fr := do
  require (taint = true)
  return x

/-- A quotient by a pure value.  The constraint generator multiplies by the inverse of the
constant: by zero there is no constraint system. -/
def divByConstant (a divisor : Fr) : Circuit σ Fr := do
  require (divisor ≠ 0)
  return a / divisor

def writeQuotient (a divisor : Fr) (lTaint rTaint : Bool) : Circuit σ Fr := do
  let aPure ← valueOf lTaint a
  let bPure ← valueOf rTaint divisor
  let result ← writeWitness P (some (divField aPure bPure))
  constrain result divisor a
  return result

/-- `gen_witness_field_div`. -/
def genWitnessFieldDiv (a divisor : Fr) (lTaint rTaint : Bool) : Circuit σ Fr :=
  if !lTaint && rTaint then writeQuotient P a divisor lTaint rTaint
  else if lTaint && !rTaint then divByConstant a divisor
  else writeQuotient P a divisor lTaint rTaint

/-- The dividend under the guard: a product of two witnesses is written. -/
def gateDividend (a condField : Fr) (written : Bool) : Circuit σ Fr :=
  if written then do
    let aGated ← writeWitness P (some (a * condField))
    constrain a condField aGated
    return aGated
  else pure (a * condField)

/-- `gen_witness_field_div_guarded`. -/
def genWitnessFieldDivGuarded (a divisor : Fr) (lTaint rTaint condTaint : Bool) (condField : Fr) :
    Circuit σ Fr :=
  if lTaint && !rTaint then divByConstant a divisor
  else do
    let aPure ← if lTaint then valueOf lTaint a else pure a
    let bPure ← valueOf rTaint divisor
    let result ← writeWitness P (some (divField aPure bPure))
    let aGated ← gateDividend P a condField (lTaint && condTaint)
    constrain result divisor aGated
    return result

/-- `Div`, under a guard or none; the guard comes with whether it is a witness. -/
def lowerFieldDiv (a divisor : Fr) (lTaint rTaint : Bool) : Option (Fr × Bool) → Circuit σ Fr
  | none => genWitnessFieldDiv P a divisor lTaint rTaint
  | some (condition, condTaint) =>
    genWitnessFieldDivGuarded P a divisor lTaint rTaint condTaint condition

end Definitions

/-! ## What a run shows -/

section Spec

variable {σ : Type} {P : Prover Fr σ} {a divisor c : Fr} {lTaint rTaint condTaint : Bool}
  {guard : Option (Fr × Bool)}

/-- The value of the guard: one where there is none. -/
def guardValue : Option (Fr × Bool) → Fr
  | none => 1
  | some (condition, _) => condition

theorem gateDividend_ensures {written : Bool} :
    Ensures (gateDividend P a c written) fun r => r = a * c := by
  unfold gateDividend
  split
  · exact .bind .any fun _ _ => .bind ensures_constrain fun _ h => .pure h.symm
  · exact .pure rfl

theorem gateDividend_completes (written : Bool) :
    Gadget.Completes (fun _ P => gateDividend P a c written) (a * c) := by
  unfold gateDividend
  split
  · exact (completes_writeWitness _).bind ((completes_constrain rfl).bind .pure)
  · exact .pure

/-- A quotient of two witnesses without a guard. -/
theorem lowerFieldDiv_none :
    lowerFieldDiv P a divisor true true none = (do
      let result ← writeWitness P (some (divField a divisor))
      constrain result divisor a
      return result) := rfl

/-- A pure dividend by a witness, without a guard, is taken the value of. -/
theorem lowerFieldDiv_untyped (s : σ) : lowerFieldDiv P a divisor false true none s = none := rfl

theorem lowerFieldDiv_untyped_ensures {Q : Fr → Prop} :
    Ensures (lowerFieldDiv P a divisor false true none) Q := by
  intro s q t hrun
  rw [lowerFieldDiv_untyped] at hrun
  cases hrun

theorem lowerFieldDiv_some :
    lowerFieldDiv P a divisor lTaint true (some (c, condTaint)) = (do
      let result ← writeWitness P (some (divField a divisor))
      let aGated ← gateDividend P a c (lTaint && condTaint)
      constrain result divisor aGated
      return result) := by
  cases lTaint <;> rfl

/-- The dividend has a value: it is a witness, or there is a guard. -/
def DividendTyped (lTaint : Bool) (guard : Option (Fr × Bool)) : Prop :=
  lTaint = true ∨ guard ≠ none

/-- By a witness, the quotient is what the product says it is. -/
theorem lowerFieldDiv_ensures :
    Ensures (lowerFieldDiv P a divisor lTaint true guard) fun q =>
      q * divisor = a * guardValue guard := by
  rcases guard with - | ⟨c, condTaint⟩
  · cases lTaint with
    | false => exact lowerFieldDiv_untyped_ensures
    | true =>
      rw [lowerFieldDiv_none]
      refine .bind .any fun q _ => .bind ensures_constrain fun _ h => .pure ?_
      rw [h, guardValue, mul_one]
  · rw [lowerFieldDiv_some]
    refine .bind .any fun q _ => .bind gateDividend_ensures fun _ hgated =>
      .bind ensures_constrain fun _ h => .pure ?_
    rw [h, hgated]
    rfl

/-- The honest prover writes the quotient. -/
theorem lowerFieldDiv_honest :
    Ensures (lowerFieldDiv .honest a divisor lTaint true guard) fun q =>
      q = divField a divisor := by
  have hwrite := ensures_honest_writeWitness (divField a divisor)
  rcases guard with - | ⟨c, condTaint⟩
  · cases lTaint with
    | false => exact lowerFieldDiv_untyped_ensures
    | true =>
      rw [lowerFieldDiv_none]
      exact hwrite.bind fun q hq => .bind .any fun _ _ => .pure hq
  · rw [lowerFieldDiv_some]
    exact hwrite.bind fun q hq => .bind .any fun _ _ => .bind .any fun _ _ => .pure hq

theorem lowerFieldDiv_completes (htyped : DividendTyped lTaint guard)
    (h : divField a divisor * divisor = a * guardValue guard) :
    Gadget.Completes (fun _ P => lowerFieldDiv P a divisor lTaint true guard)
      (divField a divisor) := by
  rcases guard with - | ⟨c, condTaint⟩
  · obtain rfl : lTaint = true := htyped.resolve_right fun hne => hne rfl
    simp only [lowerFieldDiv_none]
    refine (completes_writeWitness _).bind ((completes_constrain ?_).bind .pure)
    rw [h, guardValue, mul_one]
  · simp only [lowerFieldDiv_some]
    exact (completes_writeWitness _).bind ((gateDividend_completes _).bind
      ((completes_constrain h).bind .pure))

/-- By a pure value the quotient is linear. -/
theorem lowerFieldDiv_pure :
    lowerFieldDiv P a divisor true false guard = divByConstant a divisor := by
  cases guard <;> rfl

theorem divByConstant_ensures :
    Ensures (divByConstant a divisor : Circuit σ Fr) fun q => divisor ≠ 0 ∧ q * divisor = a :=
  .bind .require fun _ h => .pure ⟨h, div_mul_cancel₀ a h⟩

theorem divByConstant_completes (h : divisor ≠ 0) :
    Gadget.Completes (F := Fr) (fun _ _ => divByConstant a divisor) (a / divisor) :=
  .bind (.require h) .pure

/-! ## Exactness -/

/-- The quotient is bound where the guard is on, and the hint passes where the guard is off
or the divisor is not zero. -/
structure DivisionExact (a divisor : Fr) (lTaint rTaint : Bool) (guard : Option (Fr × Bool)) :
    Prop where
  sound : ∀ (σ : Type) (P : Prover Fr σ),
    Ensures (lowerFieldDiv P a divisor lTaint rTaint guard) fun q =>
      guardValue guard = 1 → divisor ≠ 0 ∧ q * divisor = a
  complete : guardValue guard = 0 ∨ divisor ≠ 0 →
    ∃ q, Gadget.Completes (fun _ P => lowerFieldDiv P a divisor lTaint rTaint guard) q

/-- By a witness: not zero by zero with the guard on, no quotient but zero with the guard off,
and no pure dividend without a guard, where only a divisor of zero asks for nothing.  By a pure
value: not by zero with the guard off. -/
def DivisionBound (a divisor : Fr) (lTaint rTaint : Bool) (guard : Option (Fr × Bool)) : Prop :=
  if !rTaint then ¬(guardValue guard = 0 ∧ divisor = 0)
  else if !lTaint && guard.isNone then divisor = 0
  else
    ¬(guardValue guard = 1 ∧ a = 0 ∧ divisor = 0) ∧ ¬(guardValue guard = 0 ∧ a ≠ 0 ∧ divisor ≠ 0)

/-- What never compiles is exact where nothing is asked of it. -/
theorem divisionExact_untyped : DivisionExact a divisor false true none ↔ divisor = 0 := by
  constructor
  · rintro ⟨-, hcomplete⟩
    by_contra hdivisor
    obtain ⟨q, hq⟩ := hcomplete (.inr hdivisor)
    exact lowerFieldDiv_untyped_ensures (Q := fun _ => False) _ _ _ hq.honest
  · rintro rfl
    refine ⟨fun σ P => lowerFieldDiv_untyped_ensures, fun h => ?_⟩
    rcases h with hoff | hdivisor
    · exact absurd hoff one_ne_zero
    · exact absurd rfl hdivisor

theorem divisionExact_witness (htyped : DividendTyped lTaint guard)
    (hguard : guardValue guard = 0 ∨ guardValue guard = 1) :
    DivisionExact a divisor lTaint true guard ↔
      ¬(guardValue guard = 1 ∧ a = 0 ∧ divisor = 0) ∧
        ¬(guardValue guard = 0 ∧ a ≠ 0 ∧ divisor ≠ 0) := by
  constructor
  · rintro ⟨hsound, hcomplete⟩
    constructor
    · rintro ⟨hon, rfl, rfl⟩
      have hrun : Gadget.Completes (fun _ P => lowerFieldDiv P 0 0 lTaint true guard) _ :=
        lowerFieldDiv_completes htyped (by rw [mul_zero, zero_mul])
      exact (hsound _ _ _ _ _ hrun.honest hon).1 rfl
    · rintro ⟨hoff, ha, hdivisor⟩
      obtain ⟨q, hq⟩ := hcomplete (.inl hoff)
      have hprod := lowerFieldDiv_ensures _ _ _ hq.honest
      rw [lowerFieldDiv_honest _ _ _ hq.honest, hoff, mul_zero, divField, if_neg hdivisor,
        div_mul_cancel₀ a hdivisor] at hprod
      exact ha hprod
  · rintro ⟨hon, hoff⟩
    refine ⟨fun σ P => lowerFieldDiv_ensures.mono fun q hq hone => ?_, fun h => ?_⟩
    · rw [hone, mul_one] at hq
      refine ⟨?_, hq⟩
      rintro rfl
      exact hon ⟨hone, by rw [← hq, mul_zero], rfl⟩
    · refine ⟨_, lowerFieldDiv_completes htyped ?_⟩
      unfold divField
      by_cases hdivisor : divisor = 0
      · have hzero : guardValue guard = 0 := h.resolve_right fun hne => hne hdivisor
        rw [hdivisor, hzero, mul_zero, mul_zero]
      · rw [if_neg hdivisor, div_mul_cancel₀ a hdivisor]
        rcases hguard with hzero | hone
        · by_cases ha : a = 0
          · rw [ha, zero_mul]
          · exact absurd ⟨hzero, ha, hdivisor⟩ hoff
        · rw [hone, mul_one]

theorem divisionExact_pure :
    DivisionExact a divisor true false guard ↔ ¬(guardValue guard = 0 ∧ divisor = 0) := by
  constructor
  · rintro ⟨-, hcomplete⟩ ⟨hoff, hzero⟩
    obtain ⟨q, hq⟩ := hcomplete (.inl hoff)
    have hrun := hq.honest
    rw [lowerFieldDiv_pure] at hrun
    exact (divByConstant_ensures _ _ _ hrun).1 hzero
  · intro hoff
    refine ⟨fun σ P => ?_, fun h => ?_⟩
    · rw [lowerFieldDiv_pure]
      exact divByConstant_ensures.mono fun q hq _ => hq
    · have hdivisor : divisor ≠ 0 := h.elim (fun hzero hd => hoff ⟨hzero, hd⟩) id
      refine ⟨a / divisor, ?_⟩
      simp only [lowerFieldDiv_pure]
      exact divByConstant_completes hdivisor

/-- The quotient is exact but for zero by zero, for a guard that is off, and for what has no
type. -/
theorem lowerFieldDiv_exact (a divisor : Fr) (lTaint rTaint : Bool) (guard : Option (Fr × Bool))
    (htaint : lTaint || rTaint) (hguard : guardValue guard = 0 ∨ guardValue guard = 1) :
    DivisionExact a divisor lTaint rTaint guard ↔
      DivisionBound a divisor lTaint rTaint guard := by
  unfold DivisionBound
  cases rTaint with
  | false =>
    rw [Bool.or_false] at htaint
    rw [htaint]
    exact divisionExact_pure
  | true =>
    cases lTaint with
    | true => exact divisionExact_witness (.inl rfl) hguard
    | false =>
      cases guard with
      | none => exact divisionExact_untyped
      | some guard => exact divisionExact_witness (.inr (Option.some_ne_none guard)) hguard

theorem lowerFieldDiv_exact_third :
    DivisionExact 1 3 true true none ↔ DivisionBound 1 3 true true none :=
  lowerFieldDiv_exact 1 3 true true none rfl (.inr rfl)

/-- Zero by zero is seven; with the guard off the hint of one by one does not pass; and a pure
one by three has no run. -/
theorem lowerFieldDiv_counterexample :
    lowerFieldDiv .replay 0 0 true true none [7] = some (7, []) ∧
      lowerFieldDiv .honest 1 1 true true (some (0, true)) () = none ∧
      lowerFieldDiv .honest 1 3 false true none () = none ∧
      ¬∀ (a divisor : Fr) (lTaint rTaint : Bool) (guard : Option (Fr × Bool)),
        (lTaint || rTaint) = true → guardValue guard = 0 ∨ guardValue guard = 1 →
          DivisionExact a divisor lTaint rTaint guard := by
  have hrun : lowerFieldDiv .replay 0 0 true true none [7] = some (7, []) := by decide +kernel
  refine ⟨hrun, by decide +kernel, lowerFieldDiv_untyped (), fun hexact => ?_⟩
  have hbound := (hexact 0 0 true true none rfl (.inr rfl)).sound _ _ _ _ _ hrun rfl
  exact hbound.1 rfl

end Spec

end Mavros.Lowering
