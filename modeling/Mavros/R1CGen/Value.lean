/-
# `Mavros.R1CGen.Value` — symbolic values and their linear combinations

`R1CGen` runs the program symbolically: a scalar is a constant or a linear
combination of witnesses, kept sorted by witness index, and an array is a shared
vector of values.  The code's `Rc<RefCell<ArrayData>>` is a label — the identity
of the cell — together with the vector, which no operation writes after the cell
is made; the one mutable field, `table_id`, is kept with the generator's state
in `Mavros.R1CGen.Lookup`.

A function that panics in the code returns `none` here.

## What is proved

`Value.Denotes w x` says that a scalar has the value `x` under the assignment `w`.  Where witness 0
is one, `denotes_const`, `denotes_add` and `denotes_mul_const` are the operations on values so
denoted; `eval_mergeTerms` is the merge of two combinations under any assignment.

That the merge keeps its terms sorted is a question of form, and is answered in
`Mavros.R1CGen.NormalForm`.
-/
import Mathlib.Tactic
import Mavros.Artifacts

namespace Mavros

/-- `hlssa_to_r1cs::Value`: constants, linear combinations and arrays. -/
inductive Value where
  | const (c : Fr)
  | lc (terms : LC)
  | array (rc : Nat) (data : List Value)

namespace Value

/-- `expect_linear_combination`: a constant is a multiple of witness 0. -/
def expectLinearCombination : Value → Option LC
  | const c => some [(0, c)]
  | lc terms => some terms
  | array _ _ => none

/-- The merge of `Value::add`: two sorted term lists into one, terms at one index
added and dropped when they cancel. -/
def mergeTerms : LC → LC → LC
  | [], rhs => rhs
  | lhs, [] => lhs
  | (i, x) :: lhs, (j, y) :: rhs =>
      if i = j then
        if x + y ≠ 0 then (i, x + y) :: mergeTerms lhs rhs else mergeTerms lhs rhs
      else if i < j then (i, x) :: mergeTerms lhs ((j, y) :: rhs)
      else (j, y) :: mergeTerms ((i, x) :: lhs) rhs
termination_by lhs rhs => lhs.length + rhs.length

def add (a b : Value) : Option Value :=
  match a, b with
  | const lhs, const rhs => some (const (lhs + rhs))
  | a, b => do
      let lhs ← a.expectLinearCombination
      let rhs ← b.expectLinearCombination
      return lc (mergeTerms lhs rhs)

/-- `Value::mul`: one of the two is a constant. -/
def mul (a b : Value) : Option Value :=
  match a, b with
  | const lhs, const rhs => some (const (lhs * rhs))
  | const c, lc terms | lc terms, const c =>
      if c = 0 then some (const 0) else some (lc (terms.map fun t => (t.1, c * t.2)))
  | _, _ => none

/-! ## What a scalar denotes -/

theorem eval_mergeTerms (w : Nat → Fr) :
    ∀ lhs rhs : LC, LC.eval w (mergeTerms lhs rhs) = LC.eval w lhs + LC.eval w rhs
  | [], rhs => by simp [mergeTerms]
  | t :: lhs, [] => by simp [mergeTerms]
  | (i, x) :: lhs, (j, y) :: rhs => by
      rw [mergeTerms]
      split_ifs with hij hxy hlt
      · subst hij
        rw [LC.eval_cons, eval_mergeTerms w lhs rhs, LC.eval_cons, LC.eval_cons]
        ring
      · subst hij
        have hxy : x + y = 0 := not_not.mp hxy
        rw [eval_mergeTerms w lhs rhs, LC.eval_cons, LC.eval_cons]
        linear_combination -(w i) * hxy
      · rw [LC.eval_cons, eval_mergeTerms w lhs ((j, y) :: rhs), LC.eval_cons _ (i, x)]
        ring
      · rw [LC.eval_cons, eval_mergeTerms w ((i, x) :: lhs) rhs, LC.eval_cons _ (j, y)]
        ring
termination_by lhs rhs => lhs.length + rhs.length

theorem eval_scale (w : Nat → Fr) (c : Fr) (terms : LC) :
    LC.eval w (terms.map fun t => (t.1, c * t.2)) = c * LC.eval w terms := by
  induction terms with
  | nil => simp
  | cons t terms ih =>
      rw [List.map_cons, LC.eval_cons, LC.eval_cons, ih]
      ring

/-- `v.Denotes w x`: the scalar `v` has value `x` under the assignment `w`. -/
def Denotes (w : Nat → Fr) (v : Value) (x : Fr) : Prop :=
  ∃ terms, v.expectLinearCombination = some terms ∧ terms.eval w = x

theorem denotes_const {w : Nat → Fr} (hw : w 0 = 1) (c : Fr) : (const c).Denotes w c :=
  ⟨[(0, c)], rfl, by simp [hw]⟩

theorem denotes_add {w : Nat → Fr} {a b v : Value} {x y : Fr} (hw : w 0 = 1)
    (ha : a.Denotes w x) (hb : b.Denotes w y) (hv : a.add b = some v) :
    v.Denotes w (x + y) := by
  obtain ⟨lhs, hlhs, rfl⟩ := ha
  obtain ⟨rhs, hrhs, rfl⟩ := hb
  cases a <;> cases b <;>
    simp only [expectLinearCombination, Option.some.injEq, reduceCtorEq] at hlhs hrhs <;>
    subst hlhs hrhs <;>
    simp only [add, expectLinearCombination, Option.bind_eq_bind, Option.bind_some,
      Option.some.injEq, Option.pure_def] at hv <;> subst hv
  · exact ⟨_, rfl, by simp [hw]⟩
  all_goals exact ⟨_, rfl, eval_mergeTerms w _ _⟩

theorem denotes_mul_const {w : Nat → Fr} {c : Fr} {a v : Value} {x : Fr} (hw : w 0 = 1)
    (ha : a.Denotes w x) (hv : (const c).mul a = some v) : v.Denotes w (c * x) := by
  obtain ⟨terms, hterms, rfl⟩ := ha
  cases a with
  | const d =>
      simp only [expectLinearCombination, Option.some.injEq] at hterms
      simp only [mul, Option.some.injEq] at hv
      subst hterms hv
      exact ⟨_, rfl, by simp [hw]⟩
  | lc ts =>
      simp only [expectLinearCombination, Option.some.injEq] at hterms
      simp only [mul] at hv
      subst hterms
      split_ifs at hv with hc <;> simp only [Option.some.injEq] at hv <;> subst hv
      · exact ⟨_, rfl, by simp [hc]⟩
      · exact ⟨_, rfl, eval_scale w c ts⟩
  | array _ _ => simp [expectLinearCombination] at hterms

end Value

end Mavros
