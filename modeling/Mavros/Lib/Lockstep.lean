/-
# `Mavros.Lib.Lockstep` — two machines that take the same operations

Two partial step functions run over one list of operations.  Where each operation that is
in order keeps the machines related, so does a whole run; what the run is known to end in
may bound every state on the way, as long as no step leaves the bound and comes back.

## What is proved

* `runAll_keeps`: an invariant of one step is one of a run.
* `runAll_of_end`: what no step can enter from outside held all along, if it holds at the end.
  A bound on a counter that only grows is known at every step from its last value.
* `lockstep`: the second machine follows a run of the first, from related states to related
  states, when every operation of the run is in order where it is met (`Along`).

The hypothesis `Along` is about the run of the first machine only.  It lets a claim say under
which condition a step of the run is right, in the state before it, and nothing about the
second machine has to be assumed.
-/
import Mathlib.Tactic.Common

namespace Mavros.Lib

variable {O S T : Type}

/-- The operations of a list, one after the other. -/
def runAll (step : O → S → Option S) : List O → S → Option S
  | [], s => some s
  | op :: ops, s => (step op s).bind (runAll step ops)

/-- Every operation meets a state that it is in order in. -/
def Along (step : O → S → Option S) (P : O → S → Prop) : List O → S → Prop
  | [], _ => True
  | op :: ops, s => P op s ∧ ∀ s', step op s = some s' → Along step P ops s'

/-- A run keeps what each step keeps. -/
theorem runAll_keeps {step : O → S → Option S} {I : S → Prop}
    (hI : ∀ op s s', step op s = some s' → I s → I s') :
    ∀ (ops : List O) (s s' : S), runAll step ops s = some s' → I s → I s' := by
  intro ops
  induction ops with
  | nil =>
    intro s s' hrun hs
    obtain rfl : s = s' := Option.some.inj hrun
    exact hs
  | cons op ops ih =>
    intro s s' hrun hs
    obtain ⟨t, hstep, hrest⟩ := Option.bind_eq_some_iff.mp hrun
    exact ih t s' hrest (hI op s t hstep hs)

section Lockstep

variable {step : O → S → Option S} {step' : O → T → Option T} {P : O → S → Prop}
  {R : S → T → Prop} {Q : S → Prop}

/-- What no step can enter from outside held all along, if it holds at the end. -/
theorem runAll_of_end (hQ : ∀ op s s', step op s = some s' → Q s' → Q s) :
    ∀ (ops : List O) (s s' : S), runAll step ops s = some s' → Q s' → Q s := by
  intro ops
  induction ops with
  | nil =>
    intro s s' hrun hend
    obtain rfl : s = s' := Option.some.inj hrun
    exact hend
  | cons op ops ih =>
    intro s s' hrun hend
    obtain ⟨t, hstep, hrest⟩ := Option.bind_eq_some_iff.mp hrun
    exact hQ op s t hstep (ih t s' hrest hend)

/-- The second machine follows a run of the first. -/
theorem lockstep (hQ : ∀ op s s', step op s = some s' → Q s' → Q s)
    (hR : ∀ op s t s', R s t → P op s → step op s = some s' → Q s' →
      ∃ t', step' op t = some t' ∧ R s' t') :
    ∀ (ops : List O) (s : S) (t : T) (s' : S), R s t → Along step P ops s →
      runAll step ops s = some s' → Q s' → ∃ t', runAll step' ops t = some t' ∧ R s' t' := by
  intro ops
  induction ops with
  | nil =>
    intro s t s' hrel _ hrun _
    obtain rfl : s = s' := Option.some.inj hrun
    exact ⟨t, rfl, hrel⟩
  | cons op ops ih =>
    intro s t s' hrel halong hrun hend
    obtain ⟨hop, hrest⟩ := halong
    obtain ⟨u, hstep, hrun⟩ := Option.bind_eq_some_iff.mp hrun
    have hmid := runAll_of_end hQ ops u s' hrun hend
    obtain ⟨t₁, hstep', hrel'⟩ := hR op s t u hrel hop hstep hmid
    obtain ⟨t', hrun', hrel''⟩ := ih u t₁ s' hrel' (hrest u hstep) hrun hend
    refine ⟨t', ?_, hrel''⟩
    rw [runAll, hstep', Option.bind_some]
    exact hrun'

end Lockstep

end Mavros.Lib
