/-
# `Mavros.Lib.Circuit` — circuits as programs run by a prover

A circuit is a program with two effects: it asks the prover for a value and it demands
that a condition hold.  A run that ends has met every demand.  The prover is given the
hint the program computed, which may be undefined, and may write what it likes; what
holds of the result of every run, under every prover, is sound against all assignments.

## What is proved

There are five judgements about a program, and each comes with the rules for `pure`, for
sequencing, for the two effects and for loops.

| | |
| :-- | :-- |
| `Ensures` | every run that ends gives a result with the property: soundness |
| `Completes` | the prover who writes the hints gets through, with this result |
| `Possible` | some values get the program through, with this result |
| `Computes` | both at once: one result, whatever the prover, and the hints reach it |
| `Satisfiable` | some prover gets through, whatever the result |

A gadget is verified by walking down its program with the rules of the judgement that is
asked for.

## What it is not

Conditions are propositions here and values are of any type.  That the rows a circuit leaves
say no less than its conditions is a question about the rows, and is answered where the rows
are.
-/
import Mathlib.Tactic.Common

namespace Mavros.Lib

/-- Given the hint, the prover chooses the value that is written, or gives up. -/
structure Prover (F σ : Type) where
  write : σ → Option F → Option (F × σ)

abbrev Circuit (σ : Type) := StateT σ Option

/-- A circuit for every prover. -/
abbrev Gadget (F α : Type) := (σ : Type) → Prover F σ → Circuit σ α

namespace Prover

variable {F σ : Type}

/-- The prover that writes the hints. -/
def honest : Prover F Unit := ⟨fun s hint => hint.map (·, s)⟩

/-- The prover that writes the values of a list, whatever the hints. -/
def replay : Prover F (List F) where
  write
    | [], _ => none
    | x :: xs, _ => some (x, xs)

/-- A value of the prover's choice. -/
def choose (P : Prover F σ) (hint : Option F) : Circuit σ F := fun s => P.write s hint

theorem replay_choose (x : F) (xs : List F) (hint : Option F) :
    replay.choose hint (x :: xs) = some (x, xs) := rfl

/-- From one state to another the prover writes the hints it is given, if they are these. -/
def Follows (P : Prover F σ) : σ → List F → σ → Prop
  | s, [], t => s = t
  | s, x :: xs, t => ∃ u, P.write s (some x) = some (x, u) ∧ P.Follows u xs t

theorem Follows.append {P : Prover F σ} {s t : σ} {xs ys : List F}
    (h : P.Follows s (xs ++ ys) t) : ∃ u, P.Follows s xs u ∧ P.Follows u ys t := by
  induction xs generalizing s with
  | nil => exact ⟨s, rfl, h⟩
  | cons x xs ih =>
    obtain ⟨v, hv, h⟩ := h
    obtain ⟨u, hxs, hys⟩ := ih h
    exact ⟨u, ⟨v, hv, hxs⟩, hys⟩

theorem honest_follows (xs : List F) : honest.Follows () xs () := by
  induction xs with
  | nil => rfl
  | cons x xs ih => exact ⟨(), rfl, ih⟩

theorem replay_follows (xs rest : List F) : replay.Follows (xs ++ rest) xs rest := by
  induction xs with
  | nil => rfl
  | cons x xs ih => exact ⟨xs ++ rest, rfl, ih⟩

end Prover

namespace Circuit

variable {F σ α β : Type} {m : Circuit σ α} {f : α → Circuit σ β}

/-- The demand that a condition hold. -/
def require (p : Prop) [Decidable p] : Circuit σ Unit := fun s => if p then some ((), s) else none

theorem bind_eq_some {s : σ} {r : β × σ} :
    (m >>= f) s = some r ↔ ∃ a t, m s = some (a, t) ∧ f a t = some r := by
  constructor
  · intro h
    obtain ⟨⟨a, t⟩, ha, hf⟩ := Option.bind_eq_some_iff.mp h
    exact ⟨a, t, ha, hf⟩
  · rintro ⟨a, t, ha, hf⟩
    exact Option.bind_eq_some_iff.mpr ⟨(a, t), ha, hf⟩

theorem bind_run {s t : σ} {a : α} (h : m s = some (a, t)) : (m >>= f) s = f a t := by
  show (m s).bind _ = _
  rw [h]
  rfl

@[simp]
theorem pure_eq_some {a : α} {s : σ} {r : α × σ} :
    (pure a : Circuit σ α) s = some r ↔ r = (a, s) :=
  ⟨fun h => (Option.some.inj h).symm, fun h => h ▸ rfl⟩

@[simp]
theorem require_eq_some {p : Prop} [Decidable p] {s : σ} {r : Unit × σ} :
    (require p : Circuit σ Unit) s = some r ↔ p ∧ r = ((), s) := by
  unfold require
  split
  · next h => simp [h, eq_comm]
  · next h => simp [h]

theorem require_run {p : Prop} [Decidable p] (h : p) (s : σ) :
    (require p : Circuit σ Unit) s = some ((), s) := if_pos h

/-! ## What holds of every run

The rules of `Ensures`.  The one for a value the prover writes asks for the property at every
value, since soundness leaves the prover free.
-/

/-- Every run that ends gives a result with the property. -/
def Ensures (m : Circuit σ α) (Q : α → Prop) : Prop := ∀ s a t, m s = some (a, t) → Q a

namespace Ensures

variable {Q Q' : α → Prop} {R : β → Prop}

theorem mono (h : Ensures m Q) (hQ : ∀ a, Q a → Q' a) : Ensures m Q' :=
  fun s a t hrun => hQ a (h s a t hrun)

theorem any : Ensures m fun _ => True := fun _ _ _ _ => trivial

theorem pure {a : α} (h : Q a) : Ensures (Pure.pure a : Circuit σ α) Q := by
  intro s b t hrun
  obtain ⟨rfl, -⟩ := Prod.mk.inj (pure_eq_some.mp hrun)
  exact h

theorem bind (h : Ensures m Q) (hf : ∀ a, Q a → Ensures (f a) R) : Ensures (m >>= f) R := by
  intro s b t hrun
  obtain ⟨a, s', ha, hb⟩ := bind_eq_some.mp hrun
  exact hf a (h s a s' ha) s' b t hb

theorem require {p : Prop} [Decidable p] :
    Ensures (Circuit.require p : Circuit σ Unit) fun _ => p :=
  fun _ _ _ hrun => (require_eq_some.mp hrun).1

/-- The honest prover writes the hint. -/
theorem choose_honest {hint : Option F} {x : F} (h : hint = some x) :
    Ensures (Prover.honest.choose hint) fun y => y = x := by
  intro s y t hrun
  subst h
  exact (Prod.mk.inj (Option.some.inj hrun)).1.symm

/-- A counted loop, with the number of turns done as its invariant sees it. -/
theorem foldlM_range {step : α → Nat → Circuit σ α} {I : Nat → α → Prop} {n : Nat} {a : α}
    (hstep : ∀ i, i < n → ∀ a, I i a → Ensures (step a i) (I (i + 1))) (h : I 0 a) :
    Ensures ((List.range n).foldlM step a) (I n) := by
  induction n with
  | zero => exact pure h
  | succ n ih =>
    rw [List.range_succ, List.foldlM_append]
    refine (ih fun i hi => hstep i (Nat.lt_succ_of_lt hi)).bind fun b hb => ?_
    rw [List.foldlM_cons]
    exact (hstep n (Nat.lt_succ_self n) b hb).bind fun c hc => pure hc

/-- A loop that collects its results. -/
theorem mapM {γ : Type} {f : γ → Circuit σ α} {R : γ → α → Prop} {xs : List γ}
    (h : ∀ x ∈ xs, Ensures (f x) (R x)) : Ensures (xs.mapM f) (List.Forall₂ R xs) := by
  induction xs with
  | nil => exact pure .nil
  | cons x xs ih =>
    rw [List.mapM_cons]
    refine (h x List.mem_cons_self).bind fun a ha => ?_
    exact (ih fun y hy => h y (List.mem_cons_of_mem x hy)).bind fun as has => pure (.cons ha has)

end Ensures

end Circuit

/-! ## Runs that end

`Completes` is about one prover, who follows the hints and so needs every hint to be defined;
`Possible` is about some prover, and gives the value that is to be written in its place.
-/

namespace Gadget

open Circuit

variable {F α β : Type} {c : Gadget F α} {f : (σ : Type) → Prover F σ → α → Circuit σ β} {a : α}
  {b : β}

/-- A prover who writes the hints gets through, with this result. -/
def Completes (c : Gadget F α) (a : α) : Prop :=
  ∃ xs, ∀ (σ : Type) (P : Prover F σ) (s t : σ), P.Follows s xs t → c σ P s = some (a, t)

/-- Some values get through, with this result. -/
def Possible (c : Gadget F α) (a : α) : Prop :=
  ∃ xs, ∀ rest, c (List F) .replay (xs ++ rest) = some (a, rest)

theorem Completes.honest (h : Completes c a) : c Unit .honest () = some (a, ()) := by
  obtain ⟨xs, h⟩ := h
  exact h Unit .honest () () (Prover.honest_follows xs)

theorem Completes.possible (h : Completes c a) : Possible c a := by
  obtain ⟨xs, h⟩ := h
  exact ⟨xs, fun rest => h _ .replay _ _ (Prover.replay_follows xs rest)⟩

theorem Completes.pure : Completes (F := F) (fun _ _ => Pure.pure a) a :=
  ⟨[], fun _ _ _ _ h => by rw [show _ = _ from h]; rfl⟩

theorem Completes.bind (h : Completes c a) (hf : Completes (fun σ P => f σ P a) b) :
    Completes (fun σ P => c σ P >>= f σ P) b := by
  obtain ⟨xs, h⟩ := h
  obtain ⟨ys, hf⟩ := hf
  refine ⟨xs ++ ys, fun σ P s t hfollows => ?_⟩
  obtain ⟨u, hxs, hys⟩ := hfollows.append
  exact (bind_run (h σ P s u hxs)).trans (hf σ P u t hys)

theorem Completes.bind_exists (h : Completes c a) (hf : ∃ b, Completes (fun σ P => f σ P a) b) :
    ∃ b, Completes (fun σ P => c σ P >>= f σ P) b := by
  obtain ⟨b, hf⟩ := hf
  exact ⟨b, h.bind hf⟩

theorem Completes.choose {x : F} : Completes (fun _ P => P.choose (some x)) x := by
  refine ⟨[x], fun σ P s t h => ?_⟩
  obtain ⟨u, hu, rfl⟩ := h
  exact hu

theorem Completes.require {p : Prop} [Decidable p] (h : p) :
    Completes (F := F) (fun _ _ => Circuit.require p) () :=
  ⟨[], fun _ _ s t hst => by rw [← show s = t from hst]; exact require_run h s⟩

/-- A counted loop, with the value each number of turns leaves. -/
theorem Completes.foldlM_range {c : (σ : Type) → Prover F σ → α → Nat → Circuit σ α}
    {f : Nat → α} {n : Nat}
    (hstep : ∀ i, i < n → Completes (fun σ P => c σ P (f i) i) (f (i + 1))) :
    Completes (fun σ P => (List.range n).foldlM (c σ P) (f 0)) (f n) := by
  induction n with
  | zero => exact .pure
  | succ n ih =>
    simp only [List.range_succ, List.foldlM_append, List.foldlM_cons]
    exact (ih fun i hi => hstep i (Nat.lt_succ_of_lt hi)).bind
      ((hstep n (Nat.lt_succ_self n)).bind .pure)

/-- A loop that collects its results. -/
theorem Completes.mapM {γ : Type} {c : (σ : Type) → Prover F σ → γ → Circuit σ α} {f : γ → α}
    {xs : List γ} (h : ∀ x ∈ xs, Completes (fun σ P => c σ P x) (f x)) :
    Completes (fun σ P => xs.mapM (c σ P)) (xs.map f) := by
  induction xs with
  | nil => exact .pure
  | cons x xs ih =>
    simp only [List.mapM_cons]
    exact (h x List.mem_cons_self).bind
      ((ih fun y hy => h y (List.mem_cons_of_mem x hy)).bind .pure)

theorem Possible.pure : Possible (F := F) (fun _ _ => Pure.pure a) a := Completes.pure.possible

theorem Possible.bind (h : Possible c a) (hf : Possible (fun σ P => f σ P a) b) :
    Possible (fun σ P => c σ P >>= f σ P) b := by
  obtain ⟨xs, h⟩ := h
  obtain ⟨ys, hf⟩ := hf
  refine ⟨xs ++ ys, fun rest => ?_⟩
  rw [List.append_assoc]
  exact (bind_run (h (ys ++ rest))).trans (hf rest)

theorem Possible.foldlM_range {c : (σ : Type) → Prover F σ → α → Nat → Circuit σ α}
    {f : Nat → α} {n : Nat}
    (hstep : ∀ i, i < n → Possible (fun σ P => c σ P (f i) i) (f (i + 1))) :
    Possible (fun σ P => (List.range n).foldlM (c σ P) (f 0)) (f n) := by
  induction n with
  | zero => exact .pure
  | succ n ih =>
    simp only [List.range_succ, List.foldlM_append, List.foldlM_cons]
    exact (ih fun i hi => hstep i (Nat.lt_succ_of_lt hi)).bind
      ((hstep n (Nat.lt_succ_self n)).bind .pure)

theorem Possible.mapM {γ : Type} {c : (σ : Type) → Prover F σ → γ → Circuit σ α} {xs : List γ}
    (h : ∀ x ∈ xs, ∃ a, Possible (fun σ P => c σ P x) a) :
    ∃ as, Possible (fun σ P => xs.mapM (c σ P)) as := by
  induction xs with
  | nil => exact ⟨[], .pure⟩
  | cons x xs ih =>
    obtain ⟨a, ha⟩ := h x List.mem_cons_self
    obtain ⟨as, has⟩ := ih fun y hy => h y (List.mem_cons_of_mem x hy)
    refine ⟨a :: as, ?_⟩
    simp only [List.mapM_cons]
    exact ha.bind (has.bind .pure)

theorem Possible.choose {x : F} {hint : Option F} : Possible (fun _ P => P.choose hint) x :=
  ⟨[x], fun _ => rfl⟩

/-! ## Circuits with one result

For a gadget that is sound and complete with one function the two judgements are proved
together, so that its program is walked down once.
-/

/-- Whatever the prover writes, a run that ends gives this result, and a prover who writes the
hints gets through. -/
structure Computes (c : Gadget F α) (a : α) : Prop where
  sound : ∀ (σ : Type) (P : Prover F σ), Ensures (c σ P) fun b => b = a
  complete : Completes c a

namespace Computes

/-- The result of a run that is honest is the only one there is. -/
theorem of_sound (hs : ∀ (σ : Type) (P : Prover F σ), Ensures (c σ P) fun b => b = a)
    (h : ∃ b, Completes c b) : Computes c a := by
  obtain ⟨b, hb⟩ := h
  obtain rfl := hs Unit .honest () b () hb.honest
  exact ⟨hs, hb⟩

theorem pure : Computes (F := F) (fun _ _ => Pure.pure a) a :=
  ⟨fun _ _ => .pure rfl, .pure⟩

theorem bind (h : Computes c a) (hf : Computes (fun σ P => f σ P a) b) :
    Computes (fun σ P => c σ P >>= f σ P) b where
  sound σ P := (h.sound σ P).bind fun _ ha => ha ▸ hf.sound σ P
  complete := h.complete.bind hf.complete

theorem require {p : Prop} [Decidable p] (h : p) :
    Computes (F := F) (fun _ _ => Circuit.require p) () :=
  ⟨fun _ _ => .mono .require fun _ _ => rfl, .require h⟩

theorem foldlM_range {c : (σ : Type) → Prover F σ → α → Nat → Circuit σ α} {f : Nat → α}
    {n : Nat} (hstep : ∀ i, i < n → Computes (fun σ P => c σ P (f i) i) (f (i + 1))) :
    Computes (fun σ P => (List.range n).foldlM (c σ P) (f 0)) (f n) where
  sound σ P := Ensures.foldlM_range (I := fun i x => x = f i)
    (fun i hi _ hx => hx ▸ (hstep i hi).sound σ P) rfl
  complete := .foldlM_range fun i hi => (hstep i hi).complete

end Computes

/-! ## Whether a circuit can be satisfied

Where the question is which inputs a circuit admits at all.
-/

/-- Some prover gets through. -/
def Satisfiable (c : Gadget F α) : Prop :=
  ∃ (σ : Type) (P : Prover F σ) (s : σ) (r : α × σ), c σ P s = some r

theorem Possible.satisfiable (h : Possible c a) : Satisfiable c := by
  obtain ⟨xs, h⟩ := h
  exact ⟨List F, .replay, xs ++ [], (a, []), h []⟩

theorem Completes.satisfiable (h : Completes c a) : Satisfiable c := h.possible.satisfiable

/-- What every run shows, a satisfied circuit shows. -/
theorem Satisfiable.ensures {p : Prop} (h : Satisfiable c)
    (hc : ∀ (σ : Type) (P : Prover F σ), Ensures (c σ P) fun _ => p) : p := by
  obtain ⟨σ, P, s, r, hrun⟩ := h
  exact hc σ P s r.1 r.2 hrun

end Gadget

end Mavros.Lib
