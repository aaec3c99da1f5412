/-
# `Mavros.Lowering.UnsignedDivision` — unsigned division and remainder

The quotient is written by the prover, and `q * b + r = a` holds modulo the prime only.
With `r < b` checked, the solutions are the divisions of `a`, `a + p`, `a + 2p`, … by `b`;
the bound on the quotient leaves the first alone exactly when the second is out of bounds.

## What is proved

* `lowerUnsignedDivmod_spec`: for every width up to 128 the division is right (`DivModSpec`)
  exactly if the check of the quotient keeps out the division of `a + p`, or an operand is divided
  by itself.
* `lowerUnsignedDivmod_wraps`: five by `2 ^ 127`, as numbers of 128 bits, has a wrong quotient that
  passes.

## How it goes

`Divides` is what the checks leave: a division with remainder of some number congruent to the
dividend, with a quotient in bounds.  Every run gives one (`lowerUnsignedDivmod_ensures`) and every
one is possible (`lowerUnsignedDivmod_possible`), so the question is which there are.  Quotients
grow with the number, and so the division of `a + p` decides (`Divides.eq_or_next_le`).

The interval of the quotient narrows its check; that the narrowed check still lets the right
quotient pass is `lt_narrowRangecheckWidth`.
-/
import Mavros.Lowering.IntegerArith

namespace Mavros.Lowering

open Lib Lib.Circuit
open Hlssa (IntInterval)

/-! ## The widths of the checks -/

section Width

variable {range a b : IntInterval} {bits : Nat} {x y : Nat}

theorem narrowRangecheckWidth_le (range : IntInterval) (bits : Nat) :
    narrowRangecheckWidth range bits ≤ bits := by
  unfold narrowRangecheckWidth
  split
  · exact le_rfl
  · exact Nat.min_le_right _ _

/-- A narrowed check lets every number of the interval and the type pass. -/
theorem lt_narrowRangecheckWidth (h : range.Contains x) (hx : x < 2 ^ bits) :
    x < 2 ^ narrowRangecheckWidth range bits := by
  unfold narrowRangecheckWidth
  split
  · exact hx
  · next width hwidth =>
    obtain ⟨lo, hi⟩ := range
    simp only [unsignedBitWidth, Option.bind_eq_bind, Option.bind_eq_some_iff] at hwidth
    obtain ⟨lo, rfl, hi, rfl, hwidth⟩ := hwidth
    split at hwidth
    · simp at hwidth
    · obtain rfl := Option.some.inj hwidth
      have hle : x ≤ hi.natAbs := by
        have := h.2 hi rfl
        omega
      have hsize : x < 2 ^ max (Nat.size hi.natAbs) 1 :=
        (hle.trans_lt (Nat.lt_size_self _)).trans_le
          (Nat.pow_le_pow_right (by norm_num) (le_max_left _ _))
      rcases min_choice (max (Nat.size hi.natAbs) 1) bits with hmin | hmin <;> rw [hmin]
      · exact hsize
      · exact hx

theorem contains_quotientBound (ha : a.Contains x) (hb : b.Contains y) :
    (quotientBound a b).Contains (x / y : Nat) := by
  unfold quotientBound
  split
  · next aHi bLo haHi hbLo =>
    split
    · exact IntInterval.contains_top
    · next hcond =>
      have hpos : 0 < bLo := by
        by_contra hneg
        simp [hneg] at hcond
      have hx : (x : Int) ≤ aHi := ha.2 aHi haHi
      have hy : bLo ≤ y := hb.1 bLo hbLo
      refine IntInterval.contains_closed (Int.natCast_nonneg _) ?_
      rw [Int.tdiv_eq_ediv_of_nonneg (by omega), Int.natCast_ediv, Int.le_ediv_iff_mul_le hpos]
      have hquot : (0 : Int) ≤ x / y := Int.ediv_nonneg (by omega) (by omega)
      calc (x : Int) / y * bLo ≤ x / y * y := Int.mul_le_mul_of_nonneg_left hy hquot
        _ ≤ x := Int.ediv_mul_le _ (by omega)
        _ ≤ aHi := hx
  · exact IntInterval.contains_top

theorem contains_remainderBound (hb : b.Contains y) (h : x < y) :
    (remainderBound b).Contains x := by
  unfold remainderBound
  split
  · next bHi hbHi =>
    split
    · have hy : (y : Int) ≤ bHi := hb.2 bHi hbHi
      exact IntInterval.contains_closed (by omega) (by omega)
    · exact IntInterval.contains_top
  · exact IntInterval.contains_top

end Width

/-! ## The runs -/

section Runs

variable {σ : Type} {P : Prover Fr σ} {dividend divisor : Operand} {bits a b q r : Nat}
  {guard : Option Fr}

/-- The width of the quotient's check. -/
def quotientWidth (dividend divisor : Operand) (bits : Nat) : Nat :=
  narrowRangecheckWidth (quotientBound dividend.range divisor.range) bits

/-- The checks pass for the divisions with remainder of the numbers congruent to the
dividend, as far as the quotient's width goes. -/
structure Divides (a b q r width : Nat) : Prop where
  quotient : q < 2 ^ width
  remainder : r < b
  congruent : (q * b + r) % modulus = a

theorem lowerUnsignedDivmod_ensures (hguard : Active guard) (hne : dividend.id ≠ divisor.id)
    (ha : dividend.value = a) (hb : divisor.value = b) (ha' : a < 2 ^ bits) (hb' : b < 2 ^ bits)
    (hbits : bits ≤ 128) :
    Ensures (lowerUnsignedDivmod P dividend divisor bits guard) fun x =>
      ∃ q r : Nat, x = ⟨q, r⟩ ∧ Divides a b q r (quotientWidth dividend divisor bits) := by
  unfold lowerUnsignedDivmod
  rw [if_neg hne]
  refine .bind .any fun q _ => .bind (ensures_guardedRangecheck hguard) fun _ hq =>
    .bind (ensures_guardedRangecheck hguard) fun _ hr =>
    .bind (ensures_guardedRangecheck hguard) fun _ hgap => .pure ?_
  rw [guardedOrZeroField_of_active hguard, guardedOrZeroField_of_active hguard]
  generalize hrdef : dividend.value - q * divisor.value = r at hr hgap
  have hmod : (2 : Nat) ^ 253 < modulus := two_pow_lt_modulus le_rfl
  have hpow : 2 ^ bits ≤ 2 ^ 128 := Nat.pow_le_pow_right (by norm_num) hbits
  have hwidth : 2 ^ narrowRangecheckWidth (remainderBound divisor.range) bits ≤ 2 ^ bits :=
    Nat.pow_le_pow_right (by norm_num) (narrowRangecheckWidth_le _ _)
  refine ⟨q.val, r.val, by rw [natCast_val, natCast_val], hq, ?_, ?_⟩
  · -- `b - r - 1` is not negative
    have hcast : divisor.value - r - 1 = ((b - r.val - 1 : Int) : Fr) := by
      rw [hb]
      push_cast
      rw [natCast_val]
    rw [hcast] at hgap
    generalize narrowRangecheckWidth (remainderBound divisor.range) bits = width at *
    have hcast' : (2 : Int) ^ width = ((2 ^ width : Nat) : Int) := by push_cast; rfl
    have := ((val_intCast_lt (by omega) (by omega)).mp hgap).1
    omega
  · have hcast : ((q.val * b + r.val : Nat) : Fr) = (a : Nat) := by
      push_cast
      rw [natCast_val, natCast_val, ← hrdef, ha, hb]
      ring
    have hval := congrArg ZMod.val hcast
    rwa [ZMod.val_natCast, ZMod.val_natCast, Nat.mod_eq_of_lt (by omega : a < modulus)] at hval

/-- Every such division is accepted. -/
theorem lowerUnsignedDivmod_run (hne : dividend.id ≠ divisor.id)
    (hguard : Active guard) (ha : dividend.value = a) (hb : divisor.value = b) (hb' : b < 2 ^ bits)
    (hcb : divisor.range.Contains b) (hbits : bits ≤ 128)
    (h : Divides a b q r (quotientWidth dividend divisor bits)) {s t : σ}
    (hP : writeWitness P (quotientHint dividend.value divisor.value bits guard) s
      = some ((q : Fr), t)) :
    lowerUnsignedDivmod P dividend divisor bits guard s = some (⟨q, r⟩, t) := by
  have hmod : (2 : Nat) ^ 253 < modulus := two_pow_lt_modulus le_rfl
  have hpow : 2 ^ bits ≤ 2 ^ 128 := Nat.pow_le_pow_right (by norm_num) hbits
  have hqwidth : 2 ^ quotientWidth dividend divisor bits ≤ 2 ^ bits :=
    Nat.pow_le_pow_right (by norm_num) (narrowRangecheckWidth_le _ _)
  have hq := h.quotient
  have hr := h.remainder
  have hrem : dividend.value - q * divisor.value = (r : Fr) := by
    have hcast : ((q * b + r : Nat) : Fr) = (a : Nat) := by
      rw [← h.congruent, ZMod.natCast_mod]
    rw [ha, hb, ← hcast]
    push_cast
    ring
  have hqval : (q : Fr).val < 2 ^ narrowRangecheckWidth
      (quotientBound dividend.range divisor.range) bits := by
    rw [ZMod.val_natCast_of_lt (by omega)]
    exact hq
  have hrval : (r : Fr).val < 2 ^ narrowRangecheckWidth (remainderBound divisor.range) bits := by
    rw [ZMod.val_natCast_of_lt (by omega)]
    exact lt_narrowRangecheckWidth (contains_remainderBound hcb hr) (by omega)
  have hgap : (divisor.value - r - 1).val
      < 2 ^ narrowRangecheckWidth (remainderBound divisor.range) bits := by
    have hcast : divisor.value - (r : Fr) - 1 = ((b - 1 - r : Nat) : Fr) := by
      rw [Nat.cast_sub (by omega), Nat.cast_sub (by omega), hb]
      push_cast
      ring
    rw [hcast, ZMod.val_natCast_of_lt (by omega)]
    exact lt_narrowRangecheckWidth (contains_remainderBound hcb (by omega)) (by omega)
  unfold lowerUnsignedDivmod
  rw [if_neg hne, bind_run hP]
  simp only [hrem]
  rw [bind_run (guardedRangecheck_run hqval t), bind_run (guardedRangecheck_run hrval t),
    bind_run (guardedRangecheck_run hgap t), guardedOrZeroField_of_active hguard,
    guardedOrZeroField_of_active hguard]
  rfl

/-- The prover may write the quotient of any of them. -/
theorem lowerUnsignedDivmod_possible (hne : dividend.id ≠ divisor.id)
    (hguard : Active guard) (ha : dividend.value = a) (hb : divisor.value = b) (hb' : b < 2 ^ bits)
    (hcb : divisor.range.Contains b) (hbits : bits ≤ 128)
    (h : Divides a b q r (quotientWidth dividend divisor bits)) :
    Gadget.Possible (fun _ P => lowerUnsignedDivmod P dividend divisor bits guard) ⟨q, r⟩ :=
  ⟨[(q : Fr)], fun rest =>
    lowerUnsignedDivmod_run hne hguard ha hb hb' hcb hbits h (Prover.replay_choose _ rest _)⟩

/-- The division of the dividend itself. -/
theorem divides_self (hca : dividend.range.Contains a) (hcb : divisor.range.Contains b)
    (ha : a < 2 ^ bits) (hbits : bits ≤ 128) (hb : b ≠ 0) :
    Divides a b (a / b) (a % b) (quotientWidth dividend divisor bits) where
  quotient := lt_narrowRangecheckWidth (contains_quotientBound hca hcb)
    ((Nat.div_le_self a b).trans_lt ha)
  remainder := Nat.mod_lt a (Nat.pos_of_ne_zero hb)
  congruent := by
    rw [Nat.div_add_mod']
    exact Nat.mod_eq_of_lt (ha.trans (two_pow_lt_modulus (by omega)))

/-- The hint is that division. -/
theorem quotientHint_eq (hguard : Active guard) (ha : a < 2 ^ bits) (hb : b < 2 ^ bits)
    (hbits : bits ≤ 128) (hb0 : b ≠ 0) :
    quotientHint (a : Fr) (b : Fr) bits guard = some ((a / b : Nat) : Fr) := by
  have hmod : 2 ^ bits < modulus := two_pow_lt_modulus (by omega)
  have hcast : ∀ x : Nat, x < 2 ^ bits → castHint bits (x : Fr) = (x : Fr) := fun x hx => by
    rw [castHint, ZMod.val_natCast_of_lt (by omega), Nat.mod_eq_of_lt hx]
  have hne : (b : Fr) ≠ 0 := by
    intro h
    have := congrArg ZMod.val h
    rw [ZMod.val_natCast_of_lt (by omega), ZMod.val_zero] at this
    exact hb0 this
  have hdiv : divHint (a : Fr) (b : Fr) = some ((a / b : Nat) : Fr) := by
    rw [divHint, if_neg hne, ZMod.val_natCast_of_lt (by omega), ZMod.val_natCast_of_lt (by omega)]
  unfold quotientHint
  rcases hguard with rfl | rfl <;> simp [hcast a ha, hcast b hb, hdiv, select]

theorem lowerUnsignedDivmod_completes (hne : dividend.id ≠ divisor.id)
    (hguard : Active guard) (ha : dividend.value = a) (hb : divisor.value = b) (ha' : a < 2 ^ bits)
    (hb' : b < 2 ^ bits) (hca : dividend.range.Contains a) (hcb : divisor.range.Contains b)
    (hbits : bits ≤ 128) (hb0 : b ≠ 0) :
    Gadget.Completes (fun _ P => lowerUnsignedDivmod P dividend divisor bits guard)
      ⟨(a / b : Nat), (a % b : Nat)⟩ := by
  refine ⟨[((a / b : Nat) : Fr)], fun σ P s t hfollows => ?_⟩
  obtain ⟨u, hu, rfl⟩ := hfollows
  refine lowerUnsignedDivmod_run hne hguard ha hb hb' hcb hbits
    (divides_self hca hcb ha' hbits hb0) ?_
  rw [ha, hb, quotientHint_eq hguard ha' hb' hbits hb0]
  exact hu

/-- Every other division has a quotient at least that of `a + p`. -/
theorem Divides.eq_or_next_le {width : Nat} (h : Divides a b q r width) :
    (q = a / b ∧ r = a % b) ∨ (a + modulus) / b ≤ q := by
  obtain ⟨hq, hr, hcong⟩ := h
  have hb : 0 < b := Nat.zero_lt_of_lt hr
  have hsum := Nat.div_add_mod (q * b + r) modulus
  rw [hcong] at hsum
  rcases Nat.eq_zero_or_pos ((q * b + r) / modulus) with hk | hk
  · left
    rw [hk] at hsum
    have hdiv : a / b = q ∧ a % b = r :=
      (Nat.div_mod_unique hb).mpr ⟨by rw [mul_comm]; omega, hr⟩
    exact ⟨hdiv.1.symm, hdiv.2.symm⟩
  · right
    have hle : modulus * 1 ≤ modulus * ((q * b + r) / modulus) := Nat.mul_le_mul_left _ hk
    calc (a + modulus) / b ≤ (q * b + r) / b := Nat.div_le_div_right (by omega)
      _ = q := by
        rw [mul_comm, Nat.mul_add_div hb, Nat.div_eq_of_lt hr, Nat.add_zero]

/-- The dividend's own division is the only one where the next is out of bounds. -/
theorem Divides.unique {width : Nat} (h : Divides a b q r width)
    (hwidth : 2 ^ width * b ≤ a + modulus) : q = a / b ∧ r = a % b := by
  refine h.eq_or_next_le.resolve_right fun hle => ?_
  have hnext : 2 ^ width ≤ (a + modulus) / b :=
    (Nat.le_div_iff_mul_le (Nat.zero_lt_of_lt h.remainder)).mpr hwidth
  have := h.quotient
  omega

/-- The next division, of `a + p`. -/
theorem divides_next {width : Nat} (ha : a < modulus) (h : a + modulus < 2 ^ width * b) :
    Divides a b ((a + modulus) / b) ((a + modulus) % b) width where
  quotient := (Nat.div_lt_iff_lt_mul (Nat.pos_of_ne_zero fun hb => by simp [hb] at h)).mpr h
  remainder := Nat.mod_lt _ (Nat.pos_of_ne_zero fun hb => by simp [hb] at h)
  congruent := by
    rw [Nat.div_add_mod', Nat.add_mod_right]
    exact Nat.mod_eq_of_lt ha

theorem div_lt_div_next (hb : 0 < b) (hlt : b ≤ modulus) : a / b < (a + modulus) / b := by
  calc a / b < a / b + 1 := Nat.lt_succ_self _
    _ = (a + b) / b := (Nat.add_div_right a hb).symm
    _ ≤ (a + modulus) / b := Nat.div_le_div_right (by omega)

end Runs

/-! ## Division and remainder

The equivalence, and the operand divided by itself.
-/

section Spec

variable {dividend divisor : Operand} {bits : Nat} {guard : Option Fr}

/-- The division is right: whatever the prover writes the results are the quotient and the
remainder, the divisor is not zero, and the hints pass. -/
structure DivModSpec (dividend divisor : Operand) (bits : Nat) (guard : Option Fr) : Prop where
  sound : ∀ (σ : Type) (P : Prover Fr σ),
    Ensures (lowerUnsignedDivmod P dividend divisor bits guard) fun x =>
      divisor.value.val ≠ 0 ∧ x = ⟨(dividend.value.val / divisor.value.val : Nat),
        (dividend.value.val % divisor.value.val : Nat)⟩
  honest : divisor.value.val ≠ 0 →
    lowerUnsignedDivmod Prover.honest dividend divisor bits guard ()
      = some (⟨(dividend.value.val / divisor.value.val : Nat),
        (dividend.value.val % divisor.value.val : Nat)⟩, ())

/-- The check of a value divided by itself. -/
theorem val_sub_one_lt_iff (hbits : bits ≤ 128) (hdivisor : InType bits divisor.value) :
    (divisor.value - 1).val < 2 ^ bits ↔ divisor.value.val ≠ 0 := by
  have hmod : (2 : Nat) ^ 253 < modulus := two_pow_lt_modulus le_rfl
  have hpow : 2 ^ bits ≤ 2 ^ 128 := Nat.pow_le_pow_right (by norm_num) hbits
  have hone : divisor.value - 1 = ((divisor.value.val - 1 : Int) : Fr) := by
    push_cast
    rw [natCast_val]
  have hcast : (2 : Int) ^ bits = ((2 ^ bits : Nat) : Int) := by push_cast; rfl
  have hlt : divisor.value.val < 2 ^ bits := hdivisor
  rw [hone, val_intCast_lt (by omega) (by omega)]
  omega

theorem lowerUnsignedDivmod_same_ensures {σ : Type} {P : Prover Fr σ} (hbits : bits ≤ 128)
    (hdivisor : InType bits divisor.value) (hsame : dividend.id = divisor.id)
    (hguard : Active guard) :
    Ensures (lowerUnsignedDivmod P dividend divisor bits guard) fun x =>
      divisor.value.val ≠ 0 ∧ x = ⟨1, 0⟩ := by
  unfold lowerUnsignedDivmod
  rw [if_pos hsame]
  refine .bind (ensures_guardedRangecheck hguard) fun _ h => .pure ?_
  refine ⟨(val_sub_one_lt_iff hbits hdivisor).mp h, ?_⟩
  rcases hguard with rfl | rfl <;> rfl

theorem lowerUnsignedDivmod_same_completes (hbits : bits ≤ 128)
    (hdivisor : InType bits divisor.value) (hsame : dividend.id = divisor.id)
    (hguard : Active guard) (h0 : divisor.value.val ≠ 0) :
    Gadget.Completes (fun _ P => lowerUnsignedDivmod P dividend divisor bits guard) ⟨1, 0⟩ := by
  have hone : guard.getD 1 = 1 := by rcases hguard with rfl | rfl <;> rfl
  unfold lowerUnsignedDivmod
  simp only [if_pos hsame, hone]
  exact (completes_guardedRangecheck ((val_sub_one_lt_iff hbits hdivisor).mpr h0)).bind .pure

/-- A value divided by itself. -/
theorem divModSpec_same (hbits : bits ≤ 128) (hdivisor : InType bits divisor.value)
    (hsame : dividend.id = divisor.id) (hvalue : dividend.value = divisor.value)
    (hguard : Active guard) : DivModSpec dividend divisor bits guard := by
  have hresult : divisor.value.val ≠ 0 → (⟨1, 0⟩ : DivModResult)
      = ⟨(dividend.value.val / divisor.value.val : Nat),
        (dividend.value.val % divisor.value.val : Nat)⟩ := fun h0 => by
    rw [hvalue, Nat.div_self (Nat.pos_of_ne_zero h0), Nat.mod_self]
    simp
  constructor
  · intro σ P
    refine (lowerUnsignedDivmod_same_ensures hbits hdivisor hsame hguard).mono fun x hx => ?_
    exact ⟨hx.1, hx.2.trans (hresult hx.1)⟩
  · intro h0
    rw [← hresult h0]
    exact (lowerUnsignedDivmod_same_completes hbits hdivisor hsame hguard h0).honest

/-- The lowered division is right exactly when the quotient's check keeps out the division
of the dividend plus the modulus. -/
theorem lowerUnsignedDivmod_spec (dividend divisor : Operand) (bits : Nat) (hbits : bits ≤ 128)
    (hdividend : InType bits dividend.value) (hdivisor : InType bits divisor.value)
    (hca : dividend.range.Contains dividend.value.val)
    (hcb : divisor.range.Contains divisor.value.val)
    (hsame : dividend.id = divisor.id → dividend.value = divisor.value) (guard : Option Fr)
    (hguard : Active guard) :
    DivModSpec dividend divisor bits guard ↔ (dividend.id = divisor.id ∨
      2 ^ quotientWidth dividend divisor bits * divisor.value.val
        ≤ dividend.value.val + modulus) := by
  by_cases hid : dividend.id = divisor.id
  · exact iff_of_true (divModSpec_same hbits hdivisor hid (hsame hid) hguard) (.inl hid)
  have ha : dividend.value = (dividend.value.val : Nat) := (natCast_val _).symm
  have hb : divisor.value = (divisor.value.val : Nat) := (natCast_val _).symm
  have hsound : ∀ (σ : Type) (P : Prover Fr σ),
      Ensures (lowerUnsignedDivmod P dividend divisor bits guard) _ := fun σ P =>
    lowerUnsignedDivmod_ensures hguard hid ha hb hdividend hdivisor hbits
  simp only [hid, false_or]
  constructor
  · intro hspec
    by_contra hlt
    have hlt : dividend.value.val + modulus
        < 2 ^ quotientWidth dividend divisor bits * divisor.value.val := Nat.lt_of_not_ge hlt
    -- the prover writes the quotient of the next division
    have hrun := lowerUnsignedDivmod_run hid hguard ha hb hdivisor hcb hbits
      (divides_next (ZMod.val_lt dividend.value) hlt) (Prover.replay_choose _ [] _)
    obtain ⟨h0, hres⟩ := hspec.sound _ _ _ _ _ hrun
    have hq : (((dividend.value.val + modulus) / divisor.value.val : Nat) : Fr)
        = (dividend.value.val / divisor.value.val : Nat) := congrArg DivModResult.q hres
    have hmod : 2 ^ bits < modulus := two_pow_lt_modulus (by omega)
    have hwidth : 2 ^ quotientWidth dividend divisor bits ≤ 2 ^ bits :=
      Nat.pow_le_pow_right (by norm_num) (narrowRangecheckWidth_le _ _)
    have hnext := (divides_next (ZMod.val_lt dividend.value) hlt).quotient
    have hgrow : dividend.value.val / divisor.value.val
        < (dividend.value.val + modulus) / divisor.value.val :=
      div_lt_div_next (Nat.pos_of_ne_zero h0) (ZMod.val_lt divisor.value).le
    exact Nat.ne_of_gt hgrow (eq_of_natCast_eq hq (by omega) (by omega))
  · intro hle
    refine ⟨fun σ P => (hsound σ P).mono ?_, fun h0 => ?_⟩
    · rintro x ⟨q, r, rfl, h⟩
      obtain ⟨rfl, rfl⟩ := h.unique hle
      exact ⟨Nat.ne_of_gt (Nat.zero_lt_of_lt h.remainder), rfl⟩
    · exact (lowerUnsignedDivmod_completes hid hguard ha hb hdividend hdivisor hca hcb hbits
        h0).honest

/-! ### A quotient of the wrong number -/

/-- Five divided by `2 ^ 127` as 128-bit numbers: the prover passes with the quotient of
`5 + p`. -/
theorem lowerUnsignedDivmod_wraps :
    lowerUnsignedDivmod Prover.replay (fullOperand 128 0 5) (fullOperand 128 1 (2 ^ 127)) 128 none
        [(((5 + modulus) / 2 ^ 127 : Nat) : Fr)]
      = some (⟨((5 + modulus) / 2 ^ 127 : Nat), ((5 + modulus) % 2 ^ 127 : Nat)⟩, []) ∧
    (((5 + modulus) / 2 ^ 127 : Nat) : Fr) ≠ ((5 / 2 ^ 127 : Nat) : Fr) ∧
    ¬DivModSpec (fullOperand 128 0 5) (fullOperand 128 1 (2 ^ 127)) 128 none := by
  have hlt : 2 ^ 127 < 2 ^ 128 := by norm_num
  have hval : (fullOperand 128 0 5).value.val = 5 := fullOperand_val le_rfl (by norm_num)
  have hval' : (fullOperand 128 1 (2 ^ 127)).value.val = 2 ^ 127 := fullOperand_val le_rfl hlt
  have hcontains : (fullOperand 128 1 (2 ^ 127)).range.Contains (2 ^ 127 : Nat) := by
    rw [← hval']
    exact fullOperand_contains le_rfl hlt
  have hrun := lowerUnsignedDivmod_run (show (fullOperand 128 0 5).id ≠ 1 by decide)
    (.inl rfl : Active none) (show (fullOperand 128 0 5).value = (5 : Nat) from rfl)
    (show (fullOperand 128 1 (2 ^ 127)).value = (2 ^ 127 : Nat) from rfl) hlt hcontains le_rfl
    (divides_next (by norm_num [modulus]) (by decide +kernel)) (Prover.replay_choose _ [] _)
  have hne : (((5 + modulus) / 2 ^ 127 : Nat) : Fr) ≠ ((5 / 2 ^ 127 : Nat) : Fr) := by
    intro h
    have := eq_of_natCast_eq h (by decide +kernel) (by decide +kernel)
    revert this
    decide +kernel
  refine ⟨hrun, hne, fun hspec => ?_⟩
  have hres := (hspec.sound _ _ _ _ _ hrun).2
  rw [hval, hval'] at hres
  exact hne (congrArg DivModResult.q hres)

theorem lowerUnsignedDivmod_spec_bytes :
    DivModSpec (fullOperand 8 0 200) (fullOperand 8 1 7) 8 none ↔
      ((fullOperand 8 0 200).id = (fullOperand 8 1 7).id ∨
        2 ^ quotientWidth (fullOperand 8 0 200) (fullOperand 8 1 7) 8
            * (fullOperand 8 1 7).value.val
          ≤ (fullOperand 8 0 200).value.val + modulus) :=
  lowerUnsignedDivmod_spec _ _ 8 (by omega) (fullOperand_inType (by omega) (by omega))
    (fullOperand_inType (by omega) (by omega)) (fullOperand_contains (by omega) (by omega))
    (fullOperand_contains (by omega) (by omega)) (fun h => absurd h (by decide)) none (.inl rfl)

end Spec

end Mavros.Lowering
