/-
# `Mavros.Lib.Places` — places in nested containers

A nest of containers with values at its leaves, and the place a path of positions leads to.
To write to a place one walks down to it, keeping the containers on the way, and puts them
together again around the new value.

## What is proved

* `set?_eq_plug`: writing to a place is the walk down (`spine`) followed by the walk up
  (`plug`), so that a program that keeps the containers it passed on a stack does what the
  recursive definition says.
* `isSome_spine`: the walk down fails exactly where there is no place.
* `get?_set?_self`, `get?_set?_of_parts`: the place holds the new value, and a place that parts
  from the path somewhere on the way holds what it held.

The last two are the laws of an assignment to a part of a value; with the first they are the
laws of any translation that goes down and up again.
-/
import Mathlib.Tactic

namespace Mavros.Lib

inductive Nest (A : Type) where
  | leaf (a : A)
  | node (elems : List (Nest A))

namespace Nest

variable {A : Type}

/-- What is at a place. -/
def get? : Nest A → List Nat → Option (Nest A)
  | t, [] => some t
  | node elems, n :: path => elems[n]?.bind fun child => child.get? path
  | leaf _, _ :: _ => none

/-- The nest with `x` at a place that is there. -/
def set? (x : Nest A) : Nest A → List Nat → Option (Nest A)
  | _, [] => some x
  | node elems, n :: path => do
      let child ← elems[n]?
      let child ← set? x child path
      return node (elems.set n child)
  | leaf _, _ :: _ => none

/-- The containers on the way to a place, the outermost first, each with the position taken. -/
abbrev Spine (A : Type) := List (List (Nest A) × Nat)

def spine : Nest A → List Nat → Option (Spine A)
  | _, [] => some []
  | node elems, n :: path => do
      let child ← elems[n]?
      let rest ← child.spine path
      return (elems, n) :: rest
  | leaf _, _ :: _ => none

theorem spine_cons_eq_some {A : Type} {elems : List (Nest A)} {n : Nat} {path : List Nat}
    {frames : Spine A} (h : (node elems).spine (n :: path) = some frames) :
    ∃ child rest, elems[n]? = some child ∧ child.spine path = some rest ∧
      frames = (elems, n) :: rest := by
  simp only [spine, Option.bind_eq_bind, Option.pure_def, Option.bind_eq_some_iff,
    Option.some.injEq] at h
  obtain ⟨child, hchild, rest, hrest, rfl⟩ := h
  exact ⟨child, rest, hchild, hrest, rfl⟩

/-- One container around a value. -/
def plugFrame (frame : List (Nest A) × Nat) (x : Nest A) : Nest A := node (frame.1.set frame.2 x)

/-- All the containers around a value. -/
def plug (frames : Spine A) (x : Nest A) : Nest A := frames.foldr plugFrame x

variable {t r x : Nest A} {path : List Nat}

theorem set?_eq_plug (x t : Nest A) (path : List Nat) :
    set? x t path = (t.spine path).map fun frames => plug frames x := by
  induction path generalizing t with
  | nil => cases t <;> rfl
  | cons n path ih =>
      cases t with
      | leaf a => rfl
      | node elems =>
          simp only [set?, spine, Option.bind_eq_bind, Option.pure_def]
          cases elems[n]? with
          | none => rfl
          | some child =>
              rw [Option.bind_some, Option.bind_some, ih]
              cases child.spine path <;> rfl

/-- The walk gets to a place just where there is one. -/
theorem isSome_spine (t : Nest A) (path : List Nat) :
    (t.spine path).isSome = (t.get? path).isSome := by
  induction path generalizing t with
  | nil => cases t <;> rfl
  | cons n path ih =>
      cases t with
      | leaf a => rfl
      | node elems =>
          simp only [get?, spine, Option.bind_eq_bind, Option.pure_def]
          cases elems[n]? with
          | none => rfl
          | some child =>
              rw [Option.bind_some, Option.bind_some, ← ih]
              cases child.spine path <;> rfl

theorem set?_cons_eq_some {n : Nat} (h : set? x t (n :: path) = some r) :
    ∃ elems child child', t = node elems ∧ elems[n]? = some child ∧
      set? x child path = some child' ∧ r = node (elems.set n child') := by
  cases t with
  | leaf a => cases h
  | node elems =>
      simp only [set?, Option.bind_eq_bind, Option.pure_def, Option.bind_eq_some_iff,
        Option.some.injEq] at h
      obtain ⟨child, hchild, child', hset, rfl⟩ := h
      exact ⟨elems, child, child', rfl, hchild, hset, rfl⟩

theorem getElem?_set_of_some {α : Type} {xs : List α} {n : Nat} {a : α} (h : xs[n]? = some a)
    (b : α) : (xs.set n b)[n]? = some b := by
  rw [List.getElem?_set_self (List.getElem?_eq_some_iff.mp h).1]

/-- The place holds the new value. -/
theorem get?_set?_self (h : set? x t path = some r) (rest : List Nat) :
    r.get? (path ++ rest) = x.get? rest := by
  induction path generalizing t r with
  | nil =>
      obtain rfl : x = r := by cases t <;> exact Option.some.inj h
      rfl
  | cons n path ih =>
      obtain ⟨elems, child, child', rfl, hchild, hset, rfl⟩ := set?_cons_eq_some h
      rw [List.cons_append, get?, getElem?_set_of_some hchild, Option.bind_some, ih hset]

/-- A place that parts from it somewhere on the way holds what it held. -/
theorem get?_set?_of_parts {common rest rest' : List Nat} {n m : Nat} (hne : m ≠ n)
    (h : set? x t (common ++ n :: rest) = some r) :
    r.get? (common ++ m :: rest') = t.get? (common ++ m :: rest') := by
  induction common generalizing t r with
  | nil =>
      obtain ⟨elems, child, child', rfl, -, -, rfl⟩ := set?_cons_eq_some h
      rw [List.nil_append, get?, get?, List.getElem?_set_ne (Ne.symm hne)]
  | cons k common ih =>
      obtain ⟨elems, child, child', rfl, hchild, hset, rfl⟩ := set?_cons_eq_some h
      rw [List.cons_append, get?, get?, getElem?_set_of_some hchild, hchild, Option.bind_some,
        Option.bind_some, ih hset]

end Nest

end Mavros.Lib
