/-
# `Mavros.Lib.MutRefs` — mutable references into a value

An iterator of mutable references lends out places inside a value.  It is what the places
hold, in the order they are visited, and the value once all of them are written.  A loop
that assigns through the iterator is a `write` of the list of what it assigns.

## What is modelled

`MutRefs A V` has two fields, `read` and `write`; `pure` has no place, `seq` puts the places of
one component before those of the next, `ref` is one place, `iter` the places of a list and
`opt` those of an optional value.  With these an enumeration of the operands of an
instruction is written as the source writes it, one case for each instruction.

## What is proved

`Visit`: the references are to the places some function `get` reads, each once and in its
order, so that writing what was read changes nothing and what was written is read.
`modify` is the loop that replaces each value by a function of it, and distributes over every
way of putting references together (`modify_seq`, `modify_iter`).

The simp set, one lemma for each constructor under each of the three operations, is what the
enumerations are computed with.
-/
import Mathlib.Data.List.Induction
import Mathlib.Tactic.Common

namespace Mavros.Lib

variable {V A B : Type}

/-- Places inside an `A` that hold `V`s. -/
structure MutRefs (V A : Type) where
  read : List V
  write : List V → A

namespace MutRefs

/-- The places of the first value come before those of the second. -/
instance : Applicative (MutRefs V) where
  pure a := ⟨[], fun _ => a⟩
  map f x := ⟨x.read, fun ws => f (x.write ws)⟩
  seq f x :=
    ⟨f.read ++ (x ()).read,
      fun ws => f.write (ws.take f.read.length) ((x ()).write (ws.drop f.read.length))⟩

/-- One place. -/
def ref (v : V) : MutRefs V V := ⟨[v], fun ws => ws.headD v⟩

/-- The places of a list, `iter_mut`. -/
def iter (vs : List V) : MutRefs V (List V) := ⟨vs, id⟩

/-- The place of an optional value, if there is one. -/
def opt : Option V → MutRefs V (Option V)
  | none => pure none
  | some v => some <$> ref v

section Simp

variable (a : A) (g : A → B) (x : MutRefs V A) (y : MutRefs V (A → B)) (v : V) (vs ws : List V)

@[simp] theorem read_pure : (pure a : MutRefs V A).read = [] := rfl

@[simp] theorem write_pure : (pure a : MutRefs V A).write ws = a := rfl

@[simp] theorem read_map : (g <$> x).read = x.read := rfl

@[simp] theorem write_map : (g <$> x).write ws = g (x.write ws) := rfl

@[simp] theorem read_seq : (y <*> x).read = y.read ++ x.read := rfl

@[simp] theorem write_seq : (y <*> x).write ws
    = y.write (ws.take y.read.length) (x.write (ws.drop y.read.length)) := rfl

@[simp] theorem read_ref : (ref v).read = [v] := rfl

@[simp] theorem write_ref : (ref v).write ws = ws.headD v := rfl

@[simp] theorem read_iter : (iter vs).read = vs := rfl

@[simp] theorem write_iter : (iter vs).write ws = ws := rfl

@[simp] theorem read_opt (o : Option V) : (opt o).read = o.toList := by cases o <;> rfl

end Simp

/-- `for v in refs { *v = f(*v) }`. -/
def modify (f : V → V) (x : MutRefs V A) : A := x.write (x.read.map f)

section Modify

variable (f : V → V)

@[simp] theorem modify_pure (a : A) : (pure a : MutRefs V A).modify f = a := rfl

@[simp] theorem modify_map (g : A → B) (x : MutRefs V A) :
    (g <$> x).modify f = g (x.modify f) := rfl

@[simp] theorem modify_seq (y : MutRefs V (A → B)) (x : MutRefs V A) :
    (y <*> x).modify f = y.modify f (x.modify f) := by
  have hlen : y.read.length = (y.read.map f).length := (List.length_map f).symm
  rw [modify, write_seq, read_seq, List.map_append, hlen, List.take_left, List.drop_left]
  rfl

@[simp] theorem modify_ref (v : V) : (ref v).modify f = f v := rfl

@[simp] theorem modify_iter (vs : List V) : (iter vs).modify f = vs.map f := rfl

@[simp] theorem modify_opt (o : Option V) : (opt o).modify f = o.map f := by cases o <;> rfl

end Modify

/-- The references are to the places `get` reads, each once and in its order. -/
structure Visit (refs : A → MutRefs V A) (get : A → List V) : Prop where
  read : ∀ a, (refs a).read = get a
  get_write : ∀ a ws, ws.length = (get a).length → get ((refs a).write ws) = ws
  write_get : ∀ a, (refs a).write (get a) = a

end MutRefs

/-! ## Lists of a known length

An instruction that has so many operands is taken apart into them.
-/

theorem forall_length_zero {P : List V → Prop} : (∀ ws, ws.length = 0 → P ws) ↔ P [] := by
  simp only [List.length_eq_zero_iff, forall_eq]

theorem forall_length_succ {P : List V → Prop} {n : Nat} :
    (∀ ws, ws.length = n + 1 → P ws) ↔ ∀ w ws, ws.length = n → P (w :: ws) := by
  constructor
  · intro h w ws hlen
    exact h (w :: ws) (congrArg (· + 1) hlen)
  · intro h ws hlen
    cases ws with
    | nil => cases hlen
    | cons w ws => exact h w ws (Nat.succ.inj hlen)

theorem forall_length_snoc {P : List V → Prop} {n : Nat} :
    (∀ ws, ws.length = n + 1 → P ws) ↔ ∀ ws w, ws.length = n → P (ws ++ [w]) := by
  constructor
  · intro h ws w hlen
    exact h (ws ++ [w]) (by rw [List.length_append, hlen, List.length_singleton])
  · intro h ws hlen
    cases ws using List.reverseRecOn with
    | nil => cases hlen
    | append_singleton ws w =>
      rw [List.length_append, List.length_singleton] at hlen
      exact h ws w (Nat.succ.inj hlen)

/-! ## Two kinds of places

An iterator that visits results and operands, of which only one kind is wanted.
-/

/-- The values at the places of one kind. -/
def pick (kind : Bool) : List Bool → List V → List V
  | k :: ks, w :: ws => if k = kind then w :: pick kind ks ws else pick kind ks ws
  | _, _ => []

theorem pick_map (kind : Bool) (f : V → V) :
    ∀ (ks : List Bool) (ws : List V), pick kind ks (ws.map f) = (pick kind ks ws).map f
  | [], _ => rfl
  | _ :: _, [] => rfl
  | k :: ks, w :: ws => by
    rw [List.map_cons, pick, pick, pick_map kind f ks ws]
    split <;> rfl

theorem pick_replicate_self (kind : Bool) {n : Nat} {ws : List V} (h : ws.length = n) :
    pick kind (List.replicate n kind) ws = ws := by
  induction ws generalizing n with
  | nil => cases n <;> rfl
  | cons w ws ih =>
    subst h
    rw [List.length_cons, List.replicate_succ, pick, if_pos rfl, ih rfl]

theorem pick_replicate_other {kind other : Bool} (hne : other ≠ kind) :
    ∀ (n : Nat) (ws : List V), pick kind (List.replicate n other) ws = []
  | 0, _ => rfl
  | _ + 1, [] => rfl
  | n + 1, _ :: ws => by
    rw [List.replicate_succ, pick, if_neg hne, pick_replicate_other hne n ws]

theorem pick_append (kind : Bool) : ∀ (ks ks' : List Bool) (ws ws' : List V),
    ks.length = ws.length → pick kind (ks ++ ks') (ws ++ ws') = pick kind ks ws ++ pick kind ks' ws'
  | [], _, [], _, _ => rfl
  | k :: ks, ks', w :: ws, ws', h => by
    rw [List.cons_append, List.cons_append, pick, pick,
      pick_append kind ks ks' ws ws' (Nat.succ.inj h)]
    split <;> rfl

/-- All places of one kind before those of the other. -/
theorem pick_replicate_append {n k : Nat} {rs ws : List V} (hrs : rs.length = n)
    (hws : ws.length = k) :
    pick false (List.replicate n false ++ List.replicate k true) (rs ++ ws) = rs ∧
      pick true (List.replicate n false ++ List.replicate k true) (rs ++ ws) = ws := by
  have hlen : (List.replicate n false).length = rs.length := by rw [List.length_replicate, hrs]
  constructor
  · rw [pick_append _ _ _ _ _ hlen, pick_replicate_self _ hrs,
      pick_replicate_other (by decide), List.append_nil]
  · rw [pick_append _ _ _ _ _ hlen, pick_replicate_other (by decide),
      pick_replicate_self _ hws, List.nil_append]

end Mavros.Lib
