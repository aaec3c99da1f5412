/-
# `Mavros.Hlssa.Emitter` — builder calls read as what they emit

A lowering calls the builder for one instruction after the other.  Read as a
program, each call is the meaning of the instruction it appends, in the constraint
system: values are field elements, a cast keeps the element, a check that does not
hold is a failed run.  A value written to the witness is whatever the prover writes
there.

## What is modelled

`Emit` is the monad of `Mavros.Lib.Circuit`, so that a builder and a circuit run alike, and the
definitions below are the builder's methods under their own names.  Two of them are about integers
of a width, `addInt` and `mulInt`; all others are linear, or a product, over the field.  Aggregates
are sequences, so that a loop that fills an array is a loop over lists, and an index beyond the end
is a failed run.

## What is proved

`countedLoop_spec` is the rule for the one loop there is, with the number of turns done in the
invariant.  The rest is the meaning itself and has no rules of its own: a lowering is run by the
lemmas of the circuits it is a program of.
-/
import Mavros.Lib.Circuit
import Mavros.R1CGen.Scalar

namespace Mavros.Hlssa

/-- A runtime value; a tuple is the sequence of its elements. -/
inductive Val where
  | scalar (x : Fr)
  | seq (elems : List Val)

/-- Given the value the program computes for a witness, the prover chooses the one
that is written. -/
structure Prover (σ : Type) where
  write : σ → Fr → Fr × σ

abbrev Emit (σ : Type) := StateT σ Option

namespace Emit

-- a builder and a circuit run in one monad
open Lib.Circuit (bind_eq_some pure_eq_some)

variable {σ α : Type}

/-- The run stops. -/
def fail : Emit σ α := fun _ => none

@[simp]
theorem fail_eq_some {s : σ} {r : α × σ} : ¬ (fail : Emit σ α) s = some r := nofun

/-! ## Scalars

A cast has no effect on a field element; what it changes is the type that later passes see.
-/

def writeWitness (prover : Prover σ) : Val → Emit σ Val
  | .scalar x => fun s => some (.scalar (prover.write s x).1, (prover.write s x).2)
  | .seq _ => fail

/-- `cast_to`: the target only changes the type. -/
def castTo (_ : CastTarget) (value : Val) : Emit σ Val := pure value

def castToField (value : Val) : Emit σ Val := castTo .field value

def fieldConst (x : Fr) : Emit σ Val := pure (.scalar x)

def uConst (_ value : Nat) : Emit σ Val := pure (.scalar value)

def iConst (_ value : Nat) : Emit σ Val := pure (.scalar value)

def sub : Val → Val → Emit σ Val
  | .scalar a, .scalar b => pure (.scalar (a - b))
  | _, _ => fail

def mul : Val → Val → Emit σ Val
  | .scalar a, .scalar b => pure (.scalar (a * b))
  | _, _ => fail

def assertEq : Val → Val → Emit σ Unit
  | .scalar a, .scalar b => if a = b then pure () else fail
  | _, _ => fail

def rangecheck (maxBits : Nat) : Val → Emit σ Unit
  | .scalar a => if R1CGen.rangecheck maxBits a then pure () else fail
  | .seq _ => fail

/-- `add` and `mul` where the type is an integer of `bits` bits. -/
def addInt (bits : Nat) : Val → Val → Emit σ Val
  | .scalar a, .scalar b => pure (.scalar (((a.val + b.val) % 2 ^ bits : Nat) : Fr))
  | _, _ => fail

def mulInt (bits : Nat) : Val → Val → Emit σ Val
  | .scalar a, .scalar b => pure (.scalar (((a.val * b.val) % 2 ^ bits : Nat) : Fr))
  | _, _ => fail

/-! ## Aggregates -/

def mkSeq (elems : List Val) : Emit σ Val := pure (.seq elems)

def mkRepeated (element : Val) (count : Nat) : Emit σ Val :=
  pure (.seq (List.replicate count element))

def mkTuple (elems : List Val) : Emit σ Val := pure (.seq elems)

def arrayGet (index : Nat) : Val → Emit σ Val
  | .seq elems => fun s => (elems[index]?).map (·, s)
  | .scalar _ => fail

def arraySet (index : Nat) (value : Val) : Val → Emit σ Val
  | .seq elems => if index < elems.length then pure (.seq (elems.set index value)) else fail
  | .scalar _ => fail

/-- `array_get` at an index that is a value. -/
def arrayGetAt (array : Val) : Val → Emit σ Val
  | .scalar index => arrayGet index.val array
  | .seq _ => fail

def tupleProj (index : Nat) (tuple : Val) : Emit σ Val := arrayGet index tuple

/-- `build_counted_loop`, with one accumulator. -/
def countedLoop (init : α) (body : Nat → α → Emit σ α) : Nat → Emit σ α
  | 0 => pure init
  | len + 1 => do body len (← countedLoop init body len)

/-- What the body keeps from one index to the next holds at the end of the loop. -/
theorem countedLoop_spec {init : α} {body : Nat → α → Emit σ α} {P : Nat → α → Prop}
    {len : Nat} (h0 : P 0 init)
    (step : ∀ i < len, ∀ a s b t, P i a → body i a s = some (b, t) → P (i + 1) b)
    {s t : σ} {r : α} (h : countedLoop init body len s = some (r, t)) : P len r := by
  induction len generalizing t r with
  | zero =>
    obtain ⟨rfl, -⟩ := Prod.mk.inj (pure_eq_some.mp h)
    exact h0
  | succ len ih =>
    obtain ⟨a, s', ha, hb⟩ := bind_eq_some.mp h
    have hP : P len a := ih (fun i hi => step i (by omega)) ha
    exact step len (by omega) a s' r t hP hb

end Emit

end Mavros.Hlssa
