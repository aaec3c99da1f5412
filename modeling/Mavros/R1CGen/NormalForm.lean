/-
# `Mavros.R1CGen.NormalForm` — arithmetic keeps the terms sorted

A linear combination is in normal form when its terms are sorted by witness index and no
index comes twice.  The merge of `Value::add` keeps the order, since what it takes next is
the lesser of two heads and both tails lie above them; everything else changes the
coefficients alone.  A constant counts as a combination of witness 0, so the equations
between evaluations hold under every assignment, also one in which that witness is not 1.

## What is proved

`arithmetic_computes`: on scalars in normal form `add`, `neg`, `sub` and `mul` by a constant give
scalars in normal form, which evaluate under every assignment to the sum, the negative, the
difference and the product.  Terms that cancel are gone from the result, as its normal form
has no place for a repeated index.

## How it goes

`mergeTerms` is the merge, by recursion on both lists.  It has no index of its own
(`mem_mergeTerms`), so it lies above whatever both sides lie above (`lt_mergeTerms`), and the order
follows by induction; what it evaluates to is `eval_mergeTerms`.  Negation and products change
coefficients, which the normal form does not look at.
-/
import Mavros.R1CGen.Value

namespace Mavros

/-- The terms are sorted by witness index, and no index comes twice. -/
def LC.Normal (terms : LC) : Prop := (terms.map Prod.fst).Pairwise (· < ·)

instance (terms : LC) : Decidable terms.Normal :=
  inferInstanceAs (Decidable ((terms.map Prod.fst).Pairwise (· < ·)))

theorem LC.normal_cons {t : Nat × Fr} {terms : LC} :
    Normal (t :: terms) ↔ (∀ u ∈ terms, t.1 < u.1) ∧ Normal terms := by
  simp only [Normal, List.map_cons, List.pairwise_cons, List.forall_mem_map]

/-- Only the indices count. -/
theorem LC.Normal.mapCoefficients {terms : LC} (h : terms.Normal) (f : Fr → Fr) :
    Normal (terms.map fun t => (t.1, f t.2)) := by
  rwa [Normal, List.map_map]

namespace Value

/-- `Value::neg`. -/
def neg : Value → Option Value
  | const c => some (const (-c))
  | lc terms => some (lc (terms.map fun t => (t.1, -t.2)))
  | array _ _ => none

/-- `Value::sub`. -/
def sub (a b : Value) : Option Value := do a.add (← b.neg)

/-- The value is a scalar, and its combination is in normal form. -/
def Normal (v : Value) : Prop := ∃ terms, v.expectLinearCombination = some terms ∧ terms.Normal

/-- What a scalar evaluates to; an array has no value. -/
def eval (w : Nat → Fr) (v : Value) : Fr := (v.expectLinearCombination.map (LC.eval w)).getD 0

theorem normal_const (c : Fr) : (const c).Normal := ⟨[(0, c)], rfl, List.pairwise_singleton _ _⟩

theorem normal_lc {terms : LC} (h : terms.Normal) : (lc terms).Normal := ⟨terms, rfl, h⟩

theorem eval_lc (w : Nat → Fr) (terms : LC) : (lc terms).eval w = terms.eval w := rfl

/-! ## The merge -/

/-- The merge has no index of its own. -/
theorem mem_mergeTerms : ∀ {lhs rhs : LC} {u : Nat × Fr}, u ∈ mergeTerms lhs rhs →
    (∃ t ∈ lhs, t.1 = u.1) ∨ ∃ t ∈ rhs, t.1 = u.1
  | [], rhs, u, hu => by
      rw [mergeTerms] at hu
      exact .inr ⟨u, hu, rfl⟩
  | t :: lhs, [], u, hu => by
      rw [mergeTerms] at hu
      · exact .inl ⟨u, hu, rfl⟩
      · exact List.cons_ne_nil t lhs
  | (i, x) :: lhs, (j, y) :: rhs, u, hu => by
      -- a term is the head of a side, of both, or comes from the rest
      have hleft : (∃ t ∈ lhs, t.1 = u.1) → ∃ t ∈ (i, x) :: lhs, t.1 = u.1 := by
        rintro ⟨t, ht, heq⟩
        exact ⟨t, List.mem_cons_of_mem _ ht, heq⟩
      have hright : (∃ t ∈ rhs, t.1 = u.1) → ∃ t ∈ (j, y) :: rhs, t.1 = u.1 := by
        rintro ⟨t, ht, heq⟩
        exact ⟨t, List.mem_cons_of_mem _ ht, heq⟩
      rw [mergeTerms] at hu
      split_ifs at hu with hij hxy hlt
      · rcases List.mem_cons.mp hu with rfl | hu
        · exact .inl ⟨(i, x), List.mem_cons_self, rfl⟩
        · exact (mem_mergeTerms hu).imp hleft hright
      · exact (mem_mergeTerms hu).imp hleft hright
      · rcases List.mem_cons.mp hu with rfl | hu
        · exact .inl ⟨(i, x), List.mem_cons_self, rfl⟩
        · exact (mem_mergeTerms hu).imp_left hleft
      · rcases List.mem_cons.mp hu with rfl | hu
        · exact .inr ⟨(j, y), List.mem_cons_self, rfl⟩
        · exact (mem_mergeTerms hu).imp_right hright
termination_by lhs rhs => lhs.length + rhs.length

/-- What both sides lie above, the merge lies above. -/
theorem lt_mergeTerms {i : Nat} {lhs rhs : LC} (hl : ∀ t ∈ lhs, i < t.1) (hr : ∀ t ∈ rhs, i < t.1) :
    ∀ u ∈ mergeTerms lhs rhs, i < u.1 := by
  intro u hu
  rcases mem_mergeTerms hu with ⟨t, ht, heq⟩ | ⟨t, ht, heq⟩
  · exact heq ▸ hl t ht
  · exact heq ▸ hr t ht

theorem normal_mergeTerms : ∀ {lhs rhs : LC}, lhs.Normal → rhs.Normal →
    (mergeTerms lhs rhs).Normal
  | [], rhs, _, hr => by rwa [mergeTerms]
  | t :: lhs, [], hl, _ => by
      rw [mergeTerms]
      · exact hl
      · exact List.cons_ne_nil t lhs
  | (i, x) :: lhs, (j, y) :: rhs, hl, hr => by
      obtain ⟨hi, hlhs⟩ := LC.normal_cons.mp hl
      obtain ⟨hj, hrhs⟩ := LC.normal_cons.mp hr
      rw [mergeTerms]
      split_ifs with hij hxy hlt
      · subst hij
        exact LC.normal_cons.mpr ⟨lt_mergeTerms hi hj, normal_mergeTerms hlhs hrhs⟩
      · exact normal_mergeTerms hlhs hrhs
      · have hrest : ∀ t ∈ (j, y) :: rhs, i < t.1 := by
          intro t ht
          rcases List.mem_cons.mp ht with rfl | ht
          · exact hlt
          · exact hlt.trans (hj t ht)
        exact LC.normal_cons.mpr ⟨lt_mergeTerms hi hrest, normal_mergeTerms hlhs hr⟩
      · have hlt' : j < i := Nat.lt_of_le_of_ne (Nat.not_lt.mp hlt) (Ne.symm hij)
        have hrest : ∀ t ∈ (i, x) :: lhs, j < t.1 := by
          intro t ht
          rcases List.mem_cons.mp ht with rfl | ht
          · exact hlt'
          · exact hlt'.trans (hi t ht)
        exact LC.normal_cons.mpr ⟨lt_mergeTerms hrest hj, normal_mergeTerms hl hrhs⟩
termination_by lhs rhs => lhs.length + rhs.length

/-! ## Arithmetic

Four operations, each with its value and its form.
-/

theorem Normal.cases {v : Value} (h : v.Normal) :
    (∃ c, v = const c) ∨ ∃ terms : LC, v = lc terms ∧ terms.Normal := by
  obtain ⟨terms, hterms, hnormal⟩ := h
  cases v with
  | const c => exact .inl ⟨c, rfl⟩
  | lc terms' =>
    obtain rfl := Option.some.inj hterms
    exact .inr ⟨terms', rfl, hnormal⟩
  | array rc data => cases hterms

/-- `v` is in normal form and evaluates to `value` under each assignment. -/
def Computes (v : Option Value) (value : (Nat → Fr) → Fr) : Prop :=
  ∃ r, v = some r ∧ r.Normal ∧ ∀ w, r.eval w = value w

theorem add_computes {a b : Value} (ha : a.Normal) (hb : b.Normal) :
    Computes (a.add b) fun w => a.eval w + b.eval w := by
  obtain ⟨lhs, hlhs, hl⟩ := ha
  obtain ⟨rhs, hrhs, hr⟩ := hb
  have hsum : ∀ w, (lc (mergeTerms lhs rhs)).eval w = a.eval w + b.eval w := by
    intro w
    rw [eval_lc, eval_mergeTerms, eval, eval, hlhs, hrhs]
    rfl
  have hmerge : Computes (some (lc (mergeTerms lhs rhs))) fun w => a.eval w + b.eval w :=
    ⟨_, rfl, normal_lc (normal_mergeTerms hl hr), hsum⟩
  cases a with
  | array rc data => cases hlhs
  | lc terms =>
    rw [add, hlhs, hrhs]
    · exact hmerge
    · rintro _ _ ⟨⟩
  | const c =>
    cases b with
    | array rc data => cases hrhs
    | lc terms =>
      rw [add, hlhs, hrhs]
      · exact hmerge
      · rintro _ _ _ ⟨⟩
    | const d =>
      refine ⟨const (c + d), rfl, normal_const _, fun w => ?_⟩
      simp [eval, expectLinearCombination, add_mul]

theorem neg_computes {a : Value} (ha : a.Normal) : Computes a.neg fun w => -a.eval w := by
  rcases ha.cases with ⟨c, rfl⟩ | ⟨terms, rfl, hterms⟩
  · refine ⟨const (-c), rfl, normal_const _, fun w => ?_⟩
    simp [eval, expectLinearCombination]
  · refine ⟨_, rfl, normal_lc (hterms.mapCoefficients fun c => -c), fun w => ?_⟩
    have hscale : LC.eval w (terms.map fun t => (t.1, -1 * t.2)) = -1 * LC.eval w terms :=
      eval_scale w (-1) terms
    simp only [neg_one_mul] at hscale
    exact hscale

theorem sub_computes {a b : Value} (ha : a.Normal) (hb : b.Normal) :
    Computes (a.sub b) fun w => a.eval w - b.eval w := by
  obtain ⟨n, hn, hnormal, hneg⟩ := neg_computes hb
  obtain ⟨r, hr, hrnormal, hsum⟩ := add_computes ha hnormal
  refine ⟨r, ?_, hrnormal, fun w => ?_⟩
  · rw [sub, hn]
    exact hr
  · calc r.eval w = a.eval w + n.eval w := hsum w
      _ = a.eval w + -b.eval w := congrArg (a.eval w + ·) (hneg w)
      _ = a.eval w - b.eval w := (sub_eq_add_neg _ _).symm

theorem mul_comm_const (c : Fr) (v : Value) : v.mul (const c) = (const c).mul v := by
  cases v with
  | const d => rw [mul, mul, mul_comm]
  | lc terms => rfl
  | array rc data => rfl

theorem mul_const_computes (c : Fr) {a : Value} (ha : a.Normal) :
    Computes ((const c).mul a) fun w => c * a.eval w := by
  rcases ha.cases with ⟨d, rfl⟩ | ⟨terms, rfl, hterms⟩
  · refine ⟨const (c * d), rfl, normal_const _, fun w => ?_⟩
    simp [eval, expectLinearCombination, mul_assoc]
  · by_cases hc : c = 0
    · subst hc
      refine ⟨const 0, by simp [mul], normal_const _, fun w => ?_⟩
      simp [eval, expectLinearCombination]
    · refine ⟨lc (terms.map fun t => (t.1, c * t.2)), by simp [mul, hc],
        normal_lc (hterms.mapCoefficients (c * ·)), fun w => ?_⟩
      exact eval_scale w c terms

/-- The operations on combinations in normal form are the field operations on what they
evaluate to, and give combinations in normal form. -/
theorem arithmetic_computes {a b : Value} (ha : a.Normal) (hb : b.Normal) (c : Fr) :
    (Computes (a.add b) fun w => a.eval w + b.eval w) ∧
      (Computes (a.sub b) fun w => a.eval w - b.eval w) ∧
      (Computes a.neg fun w => -a.eval w) ∧
      (Computes ((const c).mul a) fun w => c * a.eval w) ∧
      Computes (a.mul (const c)) fun w => a.eval w * c := by
  refine ⟨add_computes ha hb, sub_computes ha hb, neg_computes ha, mul_const_computes c ha, ?_⟩
  rw [mul_comm_const]
  obtain ⟨r, hr, hnormal, heval⟩ := mul_const_computes c ha
  exact ⟨r, hr, hnormal, fun w => (heval w).trans (mul_comm ..)⟩

/-- Terms that cancel, and a constant. -/
theorem arithmetic_computes_cancelling :
    (Computes ((lc [(1, 2), (3, 5)]).add (const 7)) fun w =>
      (lc [(1, 2), (3, 5)]).eval w + (const 7).eval w) ∧
    mergeTerms [(1, 2), (3, 5)] [(1, 1), (2, 4), (3, -5)] = [(1, 3), (2, 4)] :=
  ⟨(arithmetic_computes (normal_lc (by decide)) (normal_const 7) 1).1, by decide +kernel⟩

end Value

end Mavros
