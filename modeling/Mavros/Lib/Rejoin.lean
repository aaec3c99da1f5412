/-
# `Mavros.Lib.Rejoin` — two machines that meet again and again

Each machine takes steps until it stops with a result.  Where from related states both go
on to related states, in as many steps as each needs, they meet arbitrarily late, or stop
with the same result.

## What is proved

* `Rejoins.forever`: machines that meet once from every pair of related states meet
  again after any number of steps, unless they have stopped, with one result.
* `Follows`: the special case in which the second machine takes one step at a time.  It is a
  simulation by stuttering, and composes (`Follows.trans`).

A machine that stops gives an `O`, one that goes on an `S`, and both are values of `O ⊕ S`; an
error is a result like any other, so that what two related machines do before an error is
compared too.

## What it is not

No step of either machine is matched with one of the other.  A rewriting that merges two steps
into one, or drops a step that does nothing, is related to what it rewrites all the same.
-/
import Mathlib.Tactic.Common

namespace Mavros.Lib

variable {S T O : Type*}

/-- The machine after a number of steps, or what it stopped with. -/
def iterate (step : S → O ⊕ S) : Nat → S → O ⊕ S
  | 0, s => .inr s
  | n + 1, s =>
    match step s with
    | .inl o => .inl o
    | .inr s' => iterate step n s'

theorem iterate_add (step : S → O ⊕ S) (m n : Nat) (s : S) :
    iterate step (m + n) s =
      match iterate step m s with
      | .inl o => .inl o
      | .inr s' => iterate step n s' := by
  induction m generalizing s with
  | zero =>
    rw [Nat.zero_add]
    rfl
  | succ m ih =>
    rw [Nat.succ_add, iterate, iterate]
    cases step s with
    | inl o => rfl
    | inr s' => exact ih s'

theorem iterate_one (step : S → O ⊕ S) (s : S) : iterate step 1 s = step s := by
  rw [iterate]
  cases step s <;> rfl

theorem iterate_two (step : S → O ⊕ S) {s s' : S} (h : step s = .inr s') :
    iterate step 2 s = step s' := by
  rw [iterate, h]
  exact iterate_one step s'

/-- Both machines stopped with the same result, or neither did and the states are
related. -/
def Rejoined (R : S → T → Prop) : O ⊕ S → O ⊕ T → Prop
  | .inl o, .inl o' => o = o'
  | .inr s, .inr t => R s t
  | _, _ => False

theorem Rejoined.mono {R R' : S → T → Prop} (h : ∀ s t, R s t → R' s t) {x : O ⊕ S} {y : O ⊕ T}
    (hxy : Rejoined R x y) : Rejoined R' x y := by
  match x, y, hxy with
  | .inl _, .inl _, hxy => exact hxy
  | .inr s, .inr t, hxy => exact h s t hxy

theorem Rejoined.of_eq {R : S → S → Prop} {x y : O ⊕ S} (hxy : x = y)
    (h : ∀ s, x = .inr s → R s s) : Rejoined R x y := by
  subst hxy
  cases x with
  | inl o => exact rfl
  | inr s => exact h s rfl

/-- From related states both machines go on, and meet. -/
def Rejoins (step : S → O ⊕ S) (step' : T → O ⊕ T) (R : S → T → Prop) : Prop :=
  ∀ s t, R s t → ∃ m n, Rejoined R (iterate step (m + 1) s) (iterate step' (n + 1) t)

theorem Rejoins.forever {step : S → O ⊕ S} {step' : T → O ⊕ T} {R : S → T → Prop}
    (h : Rejoins step step' R) {s : S} {t : T} (hst : R s t) (k : Nat) :
    ∃ m n, k ≤ m ∧ k ≤ n ∧ Rejoined R (iterate step m s) (iterate step' n t) := by
  induction k with
  | zero => exact ⟨0, 0, Nat.le_refl 0, Nat.le_refl 0, hst⟩
  | succ k ih =>
    obtain ⟨m, n, hm, hn, hmeet⟩ := ih
    match hs : iterate step m s, ht : iterate step' n t, hmeet with
    | .inl o, .inl o', hmeet =>
      refine ⟨m + 1, n + 1, Nat.succ_le_succ hm, Nat.succ_le_succ hn, ?_⟩
      rw [iterate_add, iterate_add, hs, ht]
      exact hmeet
    | .inr s', .inr t', hmeet =>
      obtain ⟨a, b, hab⟩ := h s' t' hmeet
      refine ⟨m + (a + 1), n + (b + 1), by omega, by omega, ?_⟩
      rw [iterate_add, iterate_add, hs, ht]
      exact hab

/-! ## One machine inside the other

The rewriting of a graph leaves a machine that does fewer steps, each of them several of the
original's.
-/

/-- Each step of the second machine is some steps of the first. -/
def Follows (step : S → O ⊕ S) (step' : T → O ⊕ T) (R : S → T → Prop) : Prop :=
  ∀ s t, R s t → ∃ m, Rejoined R (iterate step (m + 1) s) (step' t)

section Follows

variable {U : Type*} {step : S → O ⊕ S} {step' : T → O ⊕ T} {step'' : U → O ⊕ U}
  {R : S → T → Prop} {R' : T → U → Prop}

theorem Follows.rejoins (h : Follows step step' R) : Rejoins step step' R := by
  intro s t hst
  obtain ⟨m, hm⟩ := h s t hst
  refine ⟨m, 0, ?_⟩
  rw [iterate_one]
  exact hm

theorem Follows.iterate (h : Follows step step' R) {s : S} {t : T} (hst : R s t) (n : Nat) :
    ∃ m, Rejoined R (iterate step (m + 1) s) (iterate step' (n + 1) t) := by
  induction n with
  | zero =>
    obtain ⟨m, hm⟩ := h s t hst
    refine ⟨m, ?_⟩
    rw [iterate_one]
    exact hm
  | succ n ih =>
    obtain ⟨m, hmeet⟩ := ih
    match hs : Lib.iterate step (m + 1) s, ht : Lib.iterate step' (n + 1) t, hmeet with
    | .inl o, .inl o', hmeet =>
      refine ⟨m, ?_⟩
      rw [iterate_add step' (n + 1) 1, hs, ht]
      exact hmeet
    | .inr s', .inr t', hmeet =>
      obtain ⟨a, ha⟩ := h s' t' hmeet
      refine ⟨m + 1 + a, ?_⟩
      rw [Nat.add_assoc, iterate_add step (m + 1), iterate_add step' (n + 1) 1, hs, ht]
      simp only [iterate_one]
      exact ha

theorem Rejoined.trans {x : O ⊕ S} {y : O ⊕ T} {z : O ⊕ U} (hxy : Rejoined R x y)
    (hyz : Rejoined R' y z) : Rejoined (fun s u => ∃ t, R s t ∧ R' t u) x z := by
  match x, y, z, hxy, hyz with
  | .inl _, .inl _, .inl _, hxy, hyz => exact Eq.trans hxy hyz
  | .inr _, .inr t, .inr _, hxy, hyz => exact ⟨t, hxy, hyz⟩

theorem Follows.trans (h : Follows step step' R) (h' : Follows step' step'' R') :
    Follows step step'' fun s u => ∃ t, R s t ∧ R' t u := by
  rintro s u ⟨t, hst, htu⟩
  obtain ⟨n, hn⟩ := h' t u htu
  obtain ⟨m, hm⟩ := h.iterate hst n
  exact ⟨m, hm.trans hn⟩

end Follows

end Mavros.Lib
