/-
# `Mavros.Artifacts` — constraint systems and their layouts

The types of `mavros-artifacts`: linear combinations, single constraints, the
witness and constraint layouts with their section offsets, and the sealed
system.  `R1CS::check_witgen_output` and `R1CS::compute_derivatives` are given as
the code computes them; the vectors they index are functions of the index, the
lengths being those of the layouts.

## What is modelled

* `LC` and `R1C`.  A combination is a list of pairs of an index and a coefficient, in which an index
  may come twice; what it evaluates to is a sum over the list.
* The layouts, by the sizes of their sections.  The methods that give starts and ends are sums of
  sizes, and `next_table_data` and `next_lookups_data` hand an index out and lengthen a section.
* `R1CS` and the check of a witness against it, row by row.

## What is proved

Only what a combination is under operations on lists, and that it depends on the assignment at the
indices it names (`LC.eval_congr`).  `compute_derivatives` is with the derivative program.
-/
import Mavros.Field

namespace Mavros

/-- `LC = Vec<(usize, Field)>`: pairs of a witness index and a coefficient. -/
abbrev LC := List (Nat × Fr)

namespace LC

/-- The value of a combination under an assignment: `Σ c * w[i]`. -/
def eval (w : Nat → Fr) (lc : LC) : Fr := (lc.map fun t => t.2 * w t.1).sum

@[simp] theorem eval_nil (w : Nat → Fr) : eval w [] = 0 := rfl

@[simp] theorem eval_cons (w : Nat → Fr) (t : Nat × Fr) (lc : LC) :
    eval w (t :: lc) = t.2 * w t.1 + eval w lc := by
  simp [eval]

@[simp] theorem eval_append (w : Nat → Fr) (lc lc' : LC) :
    eval w (lc ++ lc') = eval w lc + eval w lc' := by
  simp [eval]

/-- Every index of the combination is below `n`. -/
def Below (n : Nat) (lc : LC) : Prop := ∀ t ∈ lc, t.1 < n

theorem eval_congr {w w' : Nat → Fr} {n : Nat} {lc : LC} (hlc : lc.Below n)
    (h : ∀ i < n, w i = w' i) : eval w lc = eval w' lc := by
  induction lc with
  | nil => rfl
  | cons t lc ih =>
      have ht : w t.1 = w' t.1 := h _ (hlc t List.mem_cons_self)
      have hrest : Below n lc := fun u hu => hlc u (List.mem_cons_of_mem _ hu)
      rw [eval_cons, eval_cons, ht, ih hrest]

theorem Below.mono {m n : Nat} (hmn : m ≤ n) {lc : LC} (h : lc.Below m) : lc.Below n :=
  fun t ht => Nat.lt_of_lt_of_le (h t ht) hmn

end LC

/-- `R1C`: one constraint `a * b = c`. -/
structure R1C where
  a : LC
  b : LC
  c : LC
deriving DecidableEq, Repr

/-- The constraint holds under an assignment. -/
def R1C.Holds (w : Nat → Fr) (r : R1C) : Prop := r.a.eval w * r.b.eval w = r.c.eval w

instance (w : Nat → Fr) (r : R1C) : Decidable (r.Holds w) :=
  inferInstanceAs (Decidable (r.a.eval w * r.b.eval w = r.c.eval w))

/-! ## Layouts

The order of the sections is the order of their offsets.
-/

/-- `WitnessLayout`: the sizes of the sections of the witness. -/
structure WitnessLayout where
  algebraicSize : Nat
  multiplicitiesSize : Nat
  challengesSize : Nat
  tablesDataSize : Nat
  lookupsDataSize : Nat
deriving DecidableEq, Repr

namespace WitnessLayout

variable (l : WitnessLayout)

def algebraicEnd : Nat := l.algebraicSize
def multiplicitiesStart : Nat := l.algebraicEnd
def multiplicitiesEnd : Nat := l.multiplicitiesStart + l.multiplicitiesSize
def challengesStart : Nat := l.multiplicitiesEnd
def challengesEnd : Nat := l.challengesStart + l.challengesSize
def tablesDataStart : Nat := l.challengesEnd
def tablesDataEnd : Nat := l.tablesDataSize + l.tablesDataStart
def lookupsDataStart : Nat := l.tablesDataEnd
def lookupsDataEnd : Nat := l.lookupsDataSize + l.lookupsDataStart

/-- `next_table_data`: the index handed out and the layout after it. -/
def nextTableData : Nat × WitnessLayout :=
  (l.tablesDataEnd, { l with tablesDataSize := l.tablesDataSize + 1 })

/-- `next_lookups_data`: the index handed out and the layout after it. -/
def nextLookupsData : Nat × WitnessLayout :=
  (l.lookupsDataEnd, { l with lookupsDataSize := l.lookupsDataSize + 1 })

def size : Nat :=
  l.algebraicSize + l.multiplicitiesSize + l.challengesSize + l.tablesDataSize
    + l.lookupsDataSize

def preCommitmentSize : Nat := l.algebraicSize + l.multiplicitiesSize

end WitnessLayout

/-- `ConstraintsLayout`: the sizes of the sections of the constraint list. -/
structure ConstraintsLayout where
  algebraicSize : Nat
  tablesDataSize : Nat
  lookupsDataSize : Nat
deriving DecidableEq, Repr

namespace ConstraintsLayout

variable (l : ConstraintsLayout)

def size : Nat := l.algebraicSize + l.tablesDataSize + l.lookupsDataSize
def tablesDataStart : Nat := l.algebraicSize
def lookupsDataStart : Nat := l.algebraicSize + l.tablesDataSize

end ConstraintsLayout

/-! ## The sealed system -/

/-- `R1CS`. -/
structure R1CS where
  witnessLayout : WitnessLayout
  constraintsLayout : ConstraintsLayout
  constraints : List R1C
deriving DecidableEq, Repr

/-- What `R1CS::check_witgen_output` tests of the row `i`, given the whole
witness and the vectors `a`, `b`, `c`: the product, and each of the three values. -/
structure R1C.RowOk (w : Nat → Fr) (a b c : Nat → Fr) (i : Nat) (r : R1C) : Prop where
  holds : r.Holds w
  a_eq : r.a.eval w = a i
  b_eq : r.b.eval w = b i
  c_eq : r.c.eval w = c i

/-- `R1CS::check_witgen_output` on the concatenated witness: every row passes. -/
def R1CS.CheckWitgenOutput (r : R1CS) (w a b c : Nat → Fr) : Prop :=
  ∀ (i : Nat) (row : R1C), r.constraints[i]? = some row → row.RowOk w a b c i

end Mavros
