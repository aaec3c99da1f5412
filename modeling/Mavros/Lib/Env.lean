/-
# `Mavros.Lib.Env` — linear environments

Variables by number, in the order in which they are bound.  A variable that is
used up leaves an empty place behind, so that nothing is used twice.  Two
machines that run one program keep environments of one shape; `Env.Rel` relates
them place by place.

## What is proved

Three families of facts, one for each question that is asked of an environment while a
straight-line program runs; each has one lemma for `read`, `take`, `takeAll` and `push`.

* `Env.All`: a property that every bound value has.
* `Env.Rel`: a relation between the values of two environments.  An operation that succeeds on
  the one succeeds on the other, and gives related values (`Env.Rel.take`, `Env.Rel.read`).
* `Env.held`: how many variables are bound to a value.  Using a variable up takes one away and
  binding adds one, so that the count of the references held is followed through a run.

An environment never shrinks, so that a number names the same variable throughout.
-/
import Mathlib.Tactic

namespace Mavros.Lib

/-- Places in binding order; `none` is a variable that was used up. -/
abbrev Env (α : Type) := List (Option α)

namespace Env

variable {α β : Type}

/-- Look at a variable. -/
def read (env : Env α) (x : Nat) : Option α := env[x]?.join

/-- Use a variable up. -/
def take (env : Env α) (x : Nat) : Option (α × Env α) :=
  (env.read x).map fun a => (a, env.set x none)

/-- Use several variables up, in order. -/
def takeAll : List Nat → Env α → Option (List α × Env α)
  | [], env => some ([], env)
  | x :: xs, env => do
      let (a, env) ← env.take x
      let (as, env) ← takeAll xs env
      return (a :: as, env)

/-- Bind a new variable. -/
def push (env : Env α) (a : α) : Env α := env ++ [some a]

theorem read_eq_some {env : Env α} {x : Nat} {a : α} :
    env.read x = some a ↔ env[x]? = some (some a) := by
  simp [read, Option.join_eq_some_iff]

theorem take_eq_some {env env' : Env α} {x : Nat} {a : α} :
    env.take x = some (a, env') ↔ env.read x = some a ∧ env' = env.set x none := by
  simp only [take, Option.map_eq_some_iff, Prod.mk.injEq]
  constructor
  · rintro ⟨b, hb, rfl, rfl⟩
    exact ⟨hb, rfl⟩
  · rintro ⟨ha, rfl⟩
    exact ⟨a, ha, rfl, rfl⟩

/-! ## A property of everything bound

A property is kept by reading and by using up, and a new value has to bring it along.
-/

/-- Every value that is bound has the property. -/
def All (P : α → Prop) (env : Env α) : Prop := ∀ a, some a ∈ env → P a

section All

variable {P Q : α → Prop} {env env' : Env α} {x : Nat} {a : α}

theorem All.imp (h : All P env) (hPQ : ∀ a, P a → Q a) : All Q env := fun a ha => hPQ a (h a ha)

theorem All.read (h : All P env) (ha : env.read x = some a) : P a :=
  h a (List.mem_of_getElem? (read_eq_some.mp ha))

theorem All.push (h : All P env) (ha : P a) : All P (env.push a) := by
  intro b hb
  rcases List.mem_append.mp hb with hb | hb
  · exact h b hb
  · obtain rfl := Option.some.inj (List.mem_singleton.mp hb)
    exact ha

theorem All.take (h : All P env) (ha : env.take x = some (a, env')) : P a ∧ All P env' := by
  obtain ⟨hread, rfl⟩ := take_eq_some.mp ha
  refine ⟨h.read hread, fun b hb => ?_⟩
  rcases List.mem_or_eq_of_mem_set hb with hb | hb
  · exact h b hb
  · exact absurd hb (by simp)

theorem All.takeAll {xs : List Nat} {as : List α} (h : All P env)
    (ha : env.takeAll xs = some (as, env')) : (∀ a ∈ as, P a) ∧ All P env' := by
  induction xs generalizing env as with
  | nil =>
      simp only [Env.takeAll, Option.some.injEq, Prod.mk.injEq] at ha
      obtain ⟨rfl, rfl⟩ := ha
      exact ⟨fun _ hb => absurd hb List.not_mem_nil, h⟩
  | cons x xs ih =>
      simp only [Env.takeAll, Option.bind_eq_bind, Option.bind_eq_some_iff, Option.pure_def,
        Option.some.injEq, Prod.exists, Prod.mk.injEq] at ha
      obtain ⟨a, e, hx, as', e', hxs, rfl, rfl⟩ := ha
      obtain ⟨hhead, hrest⟩ := h.take hx
      obtain ⟨htail, henv⟩ := ih hrest hxs
      exact ⟨List.forall_mem_cons.mpr ⟨hhead, htail⟩, henv⟩

end All

/-! ## Environments in step

Two environments of one length in which the same places are empty, so that the same operations
succeed on both.
-/

/-- Two environments of one shape, related place by place. -/
def Rel (R : α → β → Prop) (env : Env α) (env' : Env β) : Prop :=
  List.Forall₂ (Option.Rel R) env env'

variable {R S : α → β → Prop} {env : Env α} {env' : Env β}

/-- Only the values that are bound count. -/
theorem Rel.imp_of_mem (h : Rel R env env') (hRS : ∀ a b, some b ∈ env' → R a b → S a b) :
    Rel S env env' := by
  induction h with
  | nil => exact .nil
  | cons ho _ ih =>
      refine .cons ?_ (ih fun a b hb => hRS a b (List.mem_cons_of_mem _ hb))
      cases ho with
      | some hab => exact .some (hRS _ _ List.mem_cons_self hab)
      | none => exact .none

/-- Variables are used up in step. -/
theorem Rel.isNone (h : Rel R env env') (hnone : ∀ o ∈ env, o.isNone = true) :
    ∀ o ∈ env', o.isNone = true := by
  induction h with
  | nil => exact List.forall_mem_nil _
  | cons ho _ ih =>
      refine List.forall_mem_cons.mpr ⟨?_, ih fun o hm => hnone o (List.mem_cons_of_mem _ hm)⟩
      have hhead := hnone _ List.mem_cons_self
      cases ho with
      | some hab => exact hhead
      | none => rfl

theorem Rel.push (h : Rel R env env') {a : α} {b : β} (hab : R a b) :
    Rel R (env.push a) (env'.push b) :=
  List.rel_append h (.cons (.some hab) .nil)

theorem Rel.read (h : Rel R env env') {x : Nat} {a : α} (ha : env.read x = some a) :
    ∃ b, env'.read x = some b ∧ R a b := by
  have hx := read_eq_some.mp ha
  have hlt : x < env.length := (List.getElem?_eq_some_iff.mp hx).1
  have hlt' : x < env'.length := List.Forall₂.length_eq h ▸ hlt
  have hrel := (List.forall₂_iff_get.mp h).2 x hlt hlt'
  have hget : env.get ⟨x, hlt⟩ = some a := (List.getElem?_eq_some_iff.mp hx).2
  rw [hget] at hrel
  cases hb : env'.get ⟨x, hlt'⟩ with
  | none => rw [hb] at hrel; cases hrel
  | some b =>
      rw [hb] at hrel
      cases hrel with
      | some hab =>
          exact ⟨b, read_eq_some.mpr (List.getElem?_eq_some_iff.mpr ⟨hlt', hb⟩), hab⟩

theorem Rel.set_none (h : Rel R env env') (x : Nat) :
    Rel R (env.set x none) (env'.set x none) := by
  induction h generalizing x with
  | nil => exact .nil
  | cons ho _ ih =>
      cases x with
      | zero => exact .cons .none (by assumption)
      | succ x => exact .cons ho (ih x)

theorem Rel.take (h : Rel R env env') {x : Nat} {a : α} {env₁ : Env α}
    (ha : env.take x = some (a, env₁)) :
    ∃ b env₁', env'.take x = some (b, env₁') ∧ R a b ∧ Rel R env₁ env₁' := by
  obtain ⟨hread, rfl⟩ := take_eq_some.mp ha
  obtain ⟨b, hb, hab⟩ := h.read hread
  exact ⟨b, _, take_eq_some.mpr ⟨hb, rfl⟩, hab, h.set_none x⟩

theorem Rel.takeAll {xs : List Nat} {as : List α} {env₁ : Env α} (h : Rel R env env')
    (ha : env.takeAll xs = some (as, env₁)) :
    ∃ bs env₁', env'.takeAll xs = some (bs, env₁') ∧ List.Forall₂ R as bs ∧
      Rel R env₁ env₁' := by
  induction xs generalizing env env' as with
  | nil =>
      simp only [Env.takeAll, Option.some.injEq, Prod.mk.injEq] at ha
      obtain ⟨rfl, rfl⟩ := ha
      exact ⟨[], env', rfl, .nil, h⟩
  | cons x xs ih =>
      simp only [Env.takeAll, Option.bind_eq_bind, Option.bind_eq_some_iff, Option.pure_def,
        Option.some.injEq, Prod.exists, Prod.mk.injEq] at ha
      obtain ⟨a, e, hx, as', e', hxs, rfl, rfl⟩ := ha
      obtain ⟨b, f, hx', hab, hrel⟩ := h.take hx
      obtain ⟨bs, f', hxs', hall, hrel'⟩ := ih hrel hxs
      exact ⟨b :: bs, f', by simp [Env.takeAll, hx', hxs'], .cons hab hall, hrel'⟩

/-! ## How often a value is bound -/

section Held

variable [DecidableEq α]

/-- The number of variables bound to `a`. -/
def held (env : Env α) (a : α) : Nat := env.count (some a)

theorem held_push (env : Env α) (a b : α) :
    (env.push b).held a = env.held a + if b = a then 1 else 0 := by
  simp [held, push, List.count_append, List.count_singleton]

theorem held_set_none {env : Env α} {x : Nat} {b : α} (hb : env.read x = some b) (a : α) :
    env.held a = held (env.set x none) a + if b = a then 1 else 0 := by
  have hx := read_eq_some.mp hb
  obtain ⟨hlt, hget⟩ := List.getElem?_eq_some_iff.mp hx
  have hc := List.count_set (a := (none : Option α)) (b := some a) hlt
  have hpos : b = a → 0 < env.count (some a) := by
    rintro rfl
    exact List.count_pos_iff.mpr (List.mem_of_getElem? hx)
  rw [held, held, hc, hget]
  by_cases hab : b = a
  · have := hpos hab
    simp [hab]
    omega
  · simp [hab]

theorem held_take {env env' : Env α} {x : Nat} {b : α} (h : env.take x = some (b, env'))
    (a : α) : env.held a = env'.held a + if b = a then 1 else 0 := by
  obtain ⟨hb, rfl⟩ := take_eq_some.mp h
  exact held_set_none hb a

theorem held_takeAll {xs : List Nat} {env env' : Env α} {bs : List α}
    (h : env.takeAll xs = some (bs, env')) (a : α) :
    env.held a = env'.held a + bs.count a := by
  induction xs generalizing env bs with
  | nil =>
      simp only [takeAll, Option.some.injEq, Prod.mk.injEq] at h
      obtain ⟨rfl, rfl⟩ := h
      simp
  | cons x xs ih =>
      simp only [takeAll, Option.bind_eq_bind, Option.bind_eq_some_iff, Option.pure_def,
        Option.some.injEq, Prod.exists, Prod.mk.injEq] at h
      obtain ⟨b, e, hx, bs', e', hxs, rfl, rfl⟩ := h
      rw [held_take hx, ih hxs, List.count_cons]
      simp only [beq_iff_eq]
      omega

theorem held_pos {env : Env α} {a : α} : 0 < env.held a ↔ some a ∈ env := List.count_pos_iff

theorem held_eq_zero {env : Env α} (hnone : ∀ o ∈ env, o.isNone = true) (a : α) :
    env.held a = 0 :=
  List.count_eq_zero.mpr fun ha => Bool.noConfusion (hnone _ ha)

theorem held_pos_of_read {env : Env α} {x : Nat} {a : α} (h : env.read x = some a) :
    0 < env.held a :=
  List.count_pos_iff.mpr (List.mem_of_getElem? (read_eq_some.mp h))

end Held

end Env

end Mavros.Lib
