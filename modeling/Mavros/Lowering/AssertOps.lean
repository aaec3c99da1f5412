/-
# `Mavros.Lowering.AssertOps` — assertions about witnesses

`LowerWitnessAssertOps`.  An assertion becomes one constraint, multiplied by the condition of
its guard.  A less-than of unsigned integers is a range check: `rhs - lhs - 1` has the width
exactly when it does not wrap below zero.  The other less-thans are compared first and the
result is asserted.  An assertion without a guard on pure operands is left as it is.

## What is proved

`demand_exact`: for every assertion of the language, whatever mix of pure values and witnesses its
operands are and whatever the guard, the constraints can be satisfied exactly when the guard is zero
or the asserted relation holds, and then the hints satisfy them.

A less-than of two field elements is no assertion of the language: the lowering panics on it, and
`demand_field` says so.

## How it goes

`Decides` is both directions in one judgement, and composes: an assertion is decided by a constraint
(`lowerAssertField_decides`, `lowerAssertEq_decides`, `lowerAssertR1C_decides`), by a range check
(`lowerUnsignedAssertLt_decides`, on `assertedDelta_iff`), or by a gadget with one result that is
constrained afterwards (`Decides.after`), for which `Mavros.Lowering.Compare` has the gadget.
-/
import Mavros.Lowering.Compare
import Mavros.Lowering.RangeCheck

namespace Mavros.Lowering

open Lib Lib.Circuit
open Hlssa (CmpKind TypeExpr)

/-! ## The lowering -/

/-- The assertions, with their operands. -/
inductive AssertOp where
  | assert (value : Operand)
  | assertCmp (kind : CmpKind) (type : TypeExpr) (lhs rhs : Operand)
  | assertR1C (a b c : Operand)

/-- The operands that are looked at for a witness. -/
def AssertOp.operands : AssertOp → List Operand
  | assert value => [value]
  | assertCmp _ _ lhs rhs => [lhs, rhs]
  | assertR1C a b c => [a, b, c]

section Definitions

variable {σ : Type} (P : Prover Fr σ)

/-- The condition of the guard, or one. -/
def condField (guard : Option Fr) : Fr := guard.getD 1

def lowerAssertField (guard : Option Fr) (valueField : Fr) : Circuit σ Unit :=
  constrain (condField guard) valueField (condField guard)

def lowerAssertEq (guard : Option Fr) (lhs rhs : Fr) : Circuit σ Unit :=
  match guard with
  | some condition => constrain condition (lhs - rhs) 0
  | none => constrain lhs 1 rhs

/-- `emit_rangecheck`, as `ExplicitWitness` lowers it. -/
def emitRangecheck (guard : Option Fr) (value : Fr) (bits : Nat) : Circuit σ Unit :=
  genWitnessRangecheckBits P value bits (condField guard)

def lowerUnsignedAssertLt (guard : Option Fr) (lhs rhs : Fr) (bits : Nat) : Circuit σ Unit := do
  require (0 < bits)
  emitRangecheck P guard (rhs - lhs - 1) bits

/-- The comparison the builder emits: of witnesses it is lowered in turn. -/
def lt (type : TypeExpr) (lhs rhs : Operand) : Circuit σ Fr :=
  if lhs.isWitness || rhs.isWitness then processCmp P none .lt type lhs rhs
  else return boolField (Holds .lt type lhs.value rhs.value)

def lowerAssertLtViaCmp (guard : Option Fr) (type : TypeExpr) (lhs rhs : Operand) :
    Circuit σ Unit := do
  let cmp ← lt P type lhs rhs
  lowerAssertField guard cmp

/-- `lower_assert_lt`: it panics on operands that are no integers. -/
def lowerAssertLt (guard : Option Fr) (type : TypeExpr) (lhs rhs : Operand) : Circuit σ Unit :=
  match type with
  | .u bits =>
      if guard.isSome && !lhs.isWitness && !rhs.isWitness then
        lowerAssertLtViaCmp P guard type lhs rhs
      else lowerUnsignedAssertLt P guard lhs.value rhs.value bits
  | .i _ => lowerAssertLtViaCmp P guard type lhs rhs
  | _ => failure

def lowerAssertR1C (guard : Option Fr) (a b c : Fr) : Circuit σ Unit :=
  match guard with
  | some condition => constrain condition (a * b - c) 0
  | none => constrain a b c

/-- `process_assert`; the guard is the value of its condition, pure or a witness. -/
def processAssert (guard : Option Fr) (op : AssertOp) : Option (Circuit σ Unit) :=
  if guard = none ∧ op.operands.all fun x => !x.isWitness then none
  else
    match op with
    | .assert value => some (lowerAssertField guard value.value)
    | .assertCmp .eq _ lhs rhs => some (lowerAssertEq guard lhs.value rhs.value)
    | .assertCmp .lt type lhs rhs => some (lowerAssertLt P guard type lhs rhs)
    | .assertR1C a b c => some (lowerAssertR1C guard a.value b.value c.value)

end Definitions

/-! ## What is asserted -/

namespace AssertOp

/-- The relation between the values. -/
def Holds : AssertOp → Prop
  | assert value => value.value = 1
  | assertCmp kind type lhs rhs => Lowering.Holds kind type lhs.value rhs.value
  | assertR1C a b c => a.value * b.value = c.value

instance : ∀ op : AssertOp, Decidable op.Holds
  | assert value => inferInstanceAs (Decidable (value.value = 1))
  | assertCmp kind type lhs rhs => decidableHolds kind type lhs.value rhs.value
  | assertR1C a b c => inferInstanceAs (Decidable (a.value * b.value = c.value))

/-- The operands are values of the type that is compared. -/
def InType : AssertOp → Prop
  | assertCmp _ type lhs rhs => OfType type lhs.value ∧ OfType type rhs.value
  | _ => True

/-- The comparisons of the language: equality everywhere, less-than of integers. -/
def Supported : AssertOp → Prop
  | assertCmp kind type _ _ => Comparable kind type
  | _ => True

/-- What is demanded of the prover in the end: an assertion that is left is evaluated. -/
def demand {σ : Type} (P : Prover Fr σ) (guard : Option Fr) (op : AssertOp) : Circuit σ Unit :=
  (processAssert P guard op).getD (require op.Holds)

end AssertOp

/-! ## Exactness -/

/-- A gadget that some prover gets through exactly when `p` holds, and the hints do then. -/
structure Decides (c : Gadget Fr Unit) (p : Prop) : Prop where
  sound : Gadget.Satisfiable c → p
  complete : p → Gadget.Completes c ()

namespace Decides

variable {c : Gadget Fr Unit} {p q : Prop}

theorem satisfiable_iff (h : Decides c p) : Gadget.Satisfiable c ↔ p :=
  ⟨h.sound, fun hp => (h.complete hp).satisfiable⟩

theorem congr (h : Decides c p) (hpq : p ↔ q) : Decides c q :=
  ⟨fun hc => hpq.mp (h.sound hc), fun hq => h.complete (hpq.mpr hq)⟩

theorem require [Decidable p] : Decides (fun _ _ => Circuit.require p) p :=
  ⟨fun hc => hc.ensures fun _ _ => .require, .require⟩

theorem constrain {a b c : Fr} : Decides (fun _ _ => Lowering.constrain a b c) (a * b = c) :=
  .require

/-- A check of the result of a gadget that has only one. -/
theorem after {α : Type} {g : Gadget Fr α} {a : α}
    {f : (σ : Type) → Prover Fr σ → α → Circuit σ Unit}
    (hg : Gadget.Computes g a) (hf : Decides (fun σ P => f σ P a) p) :
    Decides (fun σ P => g σ P >>= f σ P) p where
  sound := by
    rintro ⟨σ, P, s, r, hrun⟩
    obtain ⟨a', t, ha, hrun⟩ := bind_eq_some.mp hrun
    obtain rfl := hg.sound σ P s a' t ha
    exact hf.sound ⟨σ, P, t, r, hrun⟩
  complete hp := hg.complete.bind (hf.complete hp)

end Decides

section Exact

variable {guard : Option Fr} {type : TypeExpr} {lhs rhs : Operand}

/-- The condition of a guard is a bit. -/
def IsGuard (guard : Option Fr) : Prop := guard = some 0 ∨ Active guard

theorem IsGuard.condField_eq_zero_iff (hguard : IsGuard guard) :
    condField guard = 0 ↔ guard = some 0 := by
  rcases hguard with rfl | rfl | rfl
  · simp [condField]
  · simp [condField]
  · simp [condField]

theorem lowerAssertField_decides (hguard : IsGuard guard) (x : Fr) :
    Decides (fun _ _ => lowerAssertField guard x) (guard = some 0 ∨ x = 1) := by
  refine Decides.constrain.congr ?_
  rw [← hguard.condField_eq_zero_iff, or_comm]
  exact mul_right_eq_self₀

theorem lowerAssertEq_decides (hguard : IsGuard guard) (a b : Fr) :
    Decides (fun _ _ => lowerAssertEq guard a b) (guard = some 0 ∨ a = b) := by
  cases guard with
  | none => exact Decides.constrain.congr (by simp)
  | some condition =>
      refine Decides.constrain.congr ?_
      rw [mul_eq_zero, sub_eq_zero, Option.some.injEq]

theorem lowerAssertR1C_decides (a b c : Fr) :
    Decides (fun _ _ => lowerAssertR1C guard a b c) (guard = some 0 ∨ a * b = c) := by
  cases guard with
  | none => exact Decides.constrain.congr (by simp)
  | some condition =>
      refine Decides.constrain.congr ?_
      rw [mul_eq_zero, sub_eq_zero, Option.some.injEq]

/-- A difference below zero wraps to a value wider than the operands. -/
theorem assertedDelta_iff {bits : Nat} {a b : Fr} (hbits : bits ≤ 252) (ha : InType bits a)
    (hb : InType bits b) : (b - a - 1).val < 2 ^ bits ↔ a.val < b.val := by
  have h := selectedDelta_iff hbits ha hb true
  have hdelta : (a - b) + boolField (true = true) * ((b - a - 1) - (a - b)) = b - a - 1 := by
    simp [boolField]
  rw [hdelta] at h
  simpa using h

theorem lowerUnsignedAssertLt_decides (hguard : IsGuard guard) {bits : Nat} {a b : Fr}
    (hpos : 1 ≤ bits) (hbits : bits ≤ 252) (ha : InType bits a) (hb : InType bits b) :
    Decides (fun _ P => lowerUnsignedAssertLt P guard a b bits)
      (guard = some 0 ∨ a.val < b.val) := by
  obtain ⟨hiff, hcomplete⟩ := genWitnessRangecheckBits_exact (b - a - 1) (condField guard) hpos
  rw [hguard.condField_eq_zero_iff, assertedDelta_iff hbits ha hb] at hiff hcomplete
  exact .after (.require hpos) ⟨hiff.mp, hcomplete⟩

theorem lt_computes (htype : Comparable .lt type) (hlhs : OfType type lhs.value)
    (hrhs : OfType type rhs.value) :
    Gadget.Computes (fun _ P => lt P type lhs rhs)
      (boolField (Holds .lt type lhs.value rhs.value)) := by
  unfold lt
  split
  · have hkind : CmpKind.lt ≠ .eq := by decide
    exact ⟨processCmp_sound (.inl rfl) htype hlhs hrhs,
      processCmp_complete (.inl rfl) htype hlhs hrhs fun h => absurd h hkind⟩
  · exact .pure

theorem lowerAssertLtViaCmp_decides (hguard : IsGuard guard) (htype : Comparable .lt type)
    (hlhs : OfType type lhs.value) (hrhs : OfType type rhs.value) :
    Decides (fun _ P => lowerAssertLtViaCmp P guard type lhs rhs)
      (guard = some 0 ∨ Holds .lt type lhs.value rhs.value) := by
  refine .after (lt_computes htype hlhs hrhs) ((lowerAssertField_decides hguard _).congr ?_)
  rw [boolField]
  split
  · next h => simp [h]
  · next h => simp [h]

theorem lowerAssertLt_decides (hguard : IsGuard guard) (htype : Comparable .lt type)
    (hlhs : OfType type lhs.value) (hrhs : OfType type rhs.value) :
    Decides (fun _ P => lowerAssertLt P guard type lhs rhs)
      (guard = some 0 ∨ Holds .lt type lhs.value rhs.value) := by
  cases type with
  | u bits =>
      simp only [lowerAssertLt]
      split
      · exact lowerAssertLtViaCmp_decides hguard htype hlhs hrhs
      · exact lowerUnsignedAssertLt_decides hguard htype.1 (htype.2.trans (by norm_num)) hlhs hrhs
  | i bits => exact lowerAssertLtViaCmp_decides hguard htype hlhs hrhs
  | _ => exact htype.elim

end Exact

/-- Whatever mix of pure values and witnesses the operands are: the constraints can be
satisfied exactly when the guard is zero or the asserted relation holds, and then the hints
satisfy them. -/
theorem demand_exact (guard : Option Fr) (op : AssertOp) (hguard : IsGuard guard)
    (hop : op.Supported) (htype : op.InType) :
    (Gadget.Satisfiable (fun _ P => op.demand P guard) ↔ guard = some 0 ∨ op.Holds) ∧
      (guard = some 0 ∨ op.Holds → Gadget.Completes (fun _ P => op.demand P guard) ()) := by
  have h : Decides (fun _ P => op.demand P guard) (guard = some 0 ∨ op.Holds) := by
    unfold AssertOp.demand processAssert
    split
    · next hleft =>
      exact Decides.require.congr (by simp [hleft.1])
    · cases op with
      | assert value => exact lowerAssertField_decides hguard value.value
      | assertR1C a b c => exact lowerAssertR1C_decides a.value b.value c.value
      | assertCmp kind type lhs rhs =>
          cases kind with
          | eq => exact lowerAssertEq_decides hguard lhs.value rhs.value
          | lt => exact lowerAssertLt_decides hguard hop htype.1 htype.2
  exact ⟨h.satisfiable_iff, h.complete⟩

/-- A witness below 200 under a condition that is on: three is. -/
theorem demand_exact_byte :
    (Gadget.Satisfiable (fun _ P => AssertOp.demand P (some 1)
          (.assertCmp .lt (.u 8) (fullOperand 8 1 3) (fullOperand 8 2 200))) ↔
        (some 1 : Option Fr) = some 0 ∨
          Holds .lt (.u 8) (fullOperand 8 1 3).value (fullOperand 8 2 200).value) ∧
      ((some 1 : Option Fr) = some 0 ∨
          Holds .lt (.u 8) (fullOperand 8 1 3).value (fullOperand 8 2 200).value →
        Gadget.Completes (fun _ P => AssertOp.demand P (some 1)
          (.assertCmp .lt (.u 8) (fullOperand 8 1 3) (fullOperand 8 2 200))) ()) :=
  demand_exact (some 1) (.assertCmp .lt (.u 8) (fullOperand 8 1 3) (fullOperand 8 2 200))
    (.inr (.inr rfl)) ⟨by norm_num, by norm_num⟩
    ⟨fullOperand_inType (by norm_num) (by norm_num),
      fullOperand_inType (by norm_num) (by norm_num)⟩

/-- The same of two field elements is refused. -/
theorem demand_field :
    ¬Gadget.Satisfiable (fun _ P => AssertOp.demand P none
        (.assertCmp .lt .field (fullOperand 8 1 3) (fullOperand 8 2 200))) ∧
      AssertOp.Holds (.assertCmp .lt .field (fullOperand 8 1 3) (fullOperand 8 2 200)) := by
  refine ⟨?_, by decide +kernel⟩
  rintro ⟨σ, P, s, r, hrun⟩
  exact nomatch hrun

end Mavros.Lowering
