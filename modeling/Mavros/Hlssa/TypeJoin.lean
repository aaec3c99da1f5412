/-
# `Mavros.Hlssa.TypeJoin` — subtyping and the join of types

`is_subtype_of` orders types by where they are wrapped in `WitnessOf`, and `join`
computes the type of a merge point.  Both are recursions over two types at once.
They are compared here through one picture of a type: a tree whose nodes carry a
constructor (`head`), children (`component`) and a number of `WitnessOf` wrappers
(`depth`).  A type is then its shape, which is what `strip_all_witness` leaves, and
the wrappers at each place (`level`).  Subtyping is `≤` of levels on one shape,
except that references must agree; the join is the maximum of levels, references
included.  The difference is the whole story of where `join` is not an upper bound.

## What is proved

* `isSubtypeOf_iff_level`, `join_eq_some_iff_level`: the two recursions in the picture.
* `isSubtypeOf` is a partial order on all types.
* `join_isLub_iff`: where `join` is defined, its result is the least upper bound, and the
  algebraic laws hold, exactly if the references of the two types agree (`RefsAgree`).
* `join_ref_not_upper`: a reference to a field and one to a witness have a join that is above
  one of them only.

## How it goes

One level of a recursion is first read as a condition on constructors, wrappers and children
(`isSubtypeOf_iff`, `join_eq_some_iff`), with the cases of the source on one side and one
uniform statement on the other.  From there on no proof looks at a constructor: equality,
order and join are compared place by place, and an induction over places takes the children
as they come.
-/
import Mavros.Hlssa.Types
import Mathlib.Order.Defs.Unbundled
import Mathlib.Order.Lattice

namespace Mavros.Hlssa.TypeExpr

/-! ## The source's two recursions

Panics are `none`, that of a second wrapper included.
-/

mutual

/-- `is_subtype_of`. -/
def isSubtypeOf : TypeExpr → TypeExpr → Bool
  | witnessOf a, witnessOf b => a.isSubtypeOf b
  | a, witnessOf b => a.isSubtypeOf b
  | witnessOf _, _ => false
  | field, field => true
  | u n, u m => n == m
  | i n, i m => n == m
  | array x n, array y m => n == m && x.isSubtypeOf y
  | slice x, slice y => x.isSubtypeOf y
  | tuple xs, tuple ys => isSubtypeOfAll xs ys
  -- a reference is invariant
  | ref x, ref y => x == y
  | function, function => true
  | _, _ => false

/-- The tuple case of `is_subtype_of`: equal lengths, and subtypes element by element. -/
def isSubtypeOfAll : List TypeExpr → List TypeExpr → Bool
  | [], [] => true
  | x :: xs, y :: ys => x.isSubtypeOf y && isSubtypeOfAll xs ys
  | _, _ => false

end

mutual

/-- `join`.  Its panics, and the one of `witness_of`, are `none`. -/
def join : TypeExpr → TypeExpr → Option TypeExpr
  | witnessOf a, witnessOf b => do mkWitnessOf (← join a b)
  | witnessOf a, b => do mkWitnessOf (← join a b)
  | a, witnessOf b => do mkWitnessOf (← join a b)
  | field, field => some field
  | u n, u m => if n = m then some (u n) else none
  | i n, i m => if n = m then some (i n) else none
  | array x n, array y m => if n = m then (join x y).map (array · n) else none
  | slice x, slice y => (join x y).map slice
  | tuple xs, tuple ys => (joinAll xs ys).map tuple
  -- unlike `is_subtype_of`, a reference is joined inside
  | ref x, ref y => (join x y).map ref
  | function, function => some function
  | _, _ => none
termination_by a b => sizeOf a + sizeOf b

/-- The tuple case of `join`: equal lengths, joined element by element. -/
def joinAll : List TypeExpr → List TypeExpr → Option (List TypeExpr)
  | [], [] => some []
  | x :: xs, y :: ys => do
    let z ← join x y
    return z :: (← joinAll xs ys)
  | _, _ => none
termination_by xs ys => sizeOf xs + sizeOf ys

end

/-! ## A type as a tree

Wrappers are not nodes, so that types of one shape have the same places.
-/

/-- The constructor of a type under its `WitnessOf` wrappers, with its parameters. -/
inductive Head where
  | field
  | u (size : Nat)
  | i (size : Nat)
  | array (size : Nat)
  | slice
  | ref
  | tuple (len : Nat)
  | function
deriving DecidableEq, Repr

/-- The number of `WitnessOf` wrappers at the root. -/
def depth : TypeExpr → Nat
  | witnessOf t => t.depth + 1
  | _ => 0

def head : TypeExpr → Head
  | witnessOf t => t.head
  | field => .field
  | u n => .u n
  | i n => .i n
  | array _ n => .array n
  | slice _ => .slice
  | ref _ => .ref
  | tuple ts => .tuple ts.length
  | function => .function

def components : TypeExpr → List TypeExpr
  | witnessOf t => t.components
  | array t _ | slice t | ref t => [t]
  | tuple ts => ts
  | _ => []

/-- The `k`-th child of a type. -/
def component (t : TypeExpr) (k : Nat) : Option TypeExpr := t.components[k]?

/-- The part of a type at a place: a path of child positions. -/
def part : TypeExpr → List Nat → Option TypeExpr
  | t, [] => some t
  | t, k :: p => (t.component k).bind (part · p)

/-- The number of `WitnessOf` wrappers at a place. -/
def level (t : TypeExpr) (p : List Nat) : Nat := (t.part p).elim 0 depth

/-- References at the same place of the two types point to equal types. -/
def RefsAgree (a b : TypeExpr) : Prop :=
  ∀ p x y, a.part p = some x → b.part p = some y → x.head = .ref → y.head = .ref →
    x.components = y.components

@[simp] theorem part_nil (t : TypeExpr) : t.part [] = some t := rfl

@[simp] theorem part_cons (t : TypeExpr) (k : Nat) (p : List Nat) :
    t.part (k :: p) = (t.component k).bind (part · p) := rfl

@[simp] theorem level_nil (t : TypeExpr) : t.level [] = t.depth := rfl

@[simp] theorem level_cons (t : TypeExpr) (k : Nat) (p : List Nat) :
    t.level (k :: p) = (t.component k).elim 0 (level · p) := by
  cases h : t.component k <;> simp [level, h]

/-- The number of children is fixed by the constructor. -/
def Head.arity : Head → Nat
  | .array _ | .slice | .ref => 1
  | .tuple n => n
  | _ => 0

theorem length_components : ∀ t : TypeExpr, t.components.length = t.head.arity
  | witnessOf t => by simpa [components, head] using length_components t
  | field | .u _ | .i _ | array _ _ | slice _ | ref _ | tuple _ | function => by
    simp [components, head, Head.arity]

/-- Types with one constructor have their children at the same positions. -/
theorem component_cases {a b : TypeExpr} (h : a.head = b.head) (k : Nat) :
    (a.component k = none ∧ b.component k = none) ∨
      ∃ x y, a.component k = some x ∧ b.component k = some y := by
  have hlen : a.components.length = b.components.length := by
    rw [length_components, length_components, h]
  by_cases hk : k < a.components.length
  · exact .inr ⟨_, _, List.getElem?_eq_getElem hk, List.getElem?_eq_getElem (hlen ▸ hk)⟩
  · exact .inl ⟨List.getElem?_eq_none (by omega), List.getElem?_eq_none (by omega)⟩

theorem sizeOf_component : ∀ {t x : TypeExpr} {k : Nat}, t.component k = some x →
    sizeOf x < sizeOf t
  | witnessOf t, x, k, h => by
    have := sizeOf_component (t := t) h
    simp only [witnessOf.sizeOf_spec]
    omega
  | tuple ts, x, k, h => by
    have := List.sizeOf_lt_of_mem (List.mem_of_getElem? h)
    simp only [components, tuple.sizeOf_spec] at this ⊢
    omega
  | array t n, x, k, h => by
    obtain rfl : x = t := List.mem_singleton.mp (List.mem_of_getElem? h)
    simp only [array.sizeOf_spec]
    omega
  | slice t, x, k, h | ref t, x, k, h => by
    obtain rfl : x = t := List.mem_singleton.mp (List.mem_of_getElem? h)
    simp
  | field, _, _, h | .u _, _, _, h | .i _, _, _, h | function, _, _, h => by
    simp [component, components] at h

/-- Induction over a type through its children. -/
@[elab_as_elim]
theorem component_induction {motive : TypeExpr → Prop}
    (node : ∀ t, (∀ k x, t.component k = some x → motive x) → motive t) (t : TypeExpr) :
    motive t :=
  node t fun _ x _ => component_induction node x
termination_by sizeOf t
decreasing_by exact sizeOf_component ‹_›

/-! ## One step of each recursion

`eq_iff`, `stripAllWitness_eq_iff`, `isSubtypeOf_iff`, `join_eq_some_iff` and
`join_isSome_iff` read one level of a recursion as a condition on the constructors,
the wrappers and the children; everything below is an induction over places on them.
-/

/-- The children of two types with one constructor are related in pairs. -/
def Children (R : TypeExpr → TypeExpr → Prop) (a b : TypeExpr) : Prop :=
  ∀ k x y, a.component k = some x → b.component k = some y → R x y

theorem children_eq_iff {a b : TypeExpr} (h : a.head = b.head) :
    Children (· = ·) a b ↔ a.components = b.components := by
  constructor
  · intro hc
    refine List.ext_getElem? fun k => ?_
    obtain ⟨hx, hy⟩ | ⟨x, y, hx, hy⟩ := component_cases h k
    · exact hx.trans hy.symm
    · exact hx.trans (hc k x y hx hy ▸ hy.symm)
  · intro hc k x y hx hy
    rw [component, hc] at hx
    exact Option.some.inj (hx.symm.trans hy)

theorem eq_of_tree : ∀ {a b : TypeExpr}, a.depth = b.depth → a.head = b.head →
    a.components = b.components → a = b
  | witnessOf a, witnessOf b, hd, hh, hc => by
    rw [eq_of_tree (a := a) (b := b) (by simpa [depth] using hd) hh hc]
  | witnessOf a, field, hd, _, _ | witnessOf a, .u _, hd, _, _ | witnessOf a, .i _, hd, _, _
  | witnessOf a, array _ _, hd, _, _ | witnessOf a, slice _, hd, _, _
  | witnessOf a, ref _, hd, _, _ | witnessOf a, tuple _, hd, _, _
  | witnessOf a, function, hd, _, _ => by simp [depth] at hd
  | field, b, hd, hh, hc | .u _, b, hd, hh, hc | .i _, b, hd, hh, hc | array _ _, b, hd, hh, hc
  | slice _, b, hd, hh, hc | ref _, b, hd, hh, hc | tuple _, b, hd, hh, hc
  | function, b, hd, hh, hc => by
    cases b <;> simp_all [depth, head, components]

theorem eq_iff {a b : TypeExpr} :
    a = b ↔ a.depth = b.depth ∧ a.head = b.head ∧ Children (· = ·) a b := by
  constructor
  · rintro rfl
    exact ⟨rfl, rfl, (children_eq_iff rfl).mpr rfl⟩
  · rintro ⟨hd, hh, hc⟩
    exact eq_of_tree hd hh ((children_eq_iff hh).mp hc)

theorem stripAllWitnessList_eq (ts : List TypeExpr) :
    stripAllWitnessList ts = ts.map stripAllWitness := by
  induction ts with
  | nil => rfl
  | cons t ts ih => rw [stripAllWitnessList, ih, List.map_cons]

theorem depth_stripAllWitness : ∀ t : TypeExpr, t.stripAllWitness.depth = 0
  | witnessOf t => by simpa [stripAllWitness] using depth_stripAllWitness t
  | field | .u _ | .i _ | array _ _ | slice _ | ref _ | tuple _ | function => by
    simp [stripAllWitness, depth]

theorem head_stripAllWitness : ∀ t : TypeExpr, t.stripAllWitness.head = t.head
  | witnessOf t => by simpa [stripAllWitness, head] using head_stripAllWitness t
  | field | .u _ | .i _ | array _ _ | slice _ | ref _ | function => rfl
  | tuple ts => by simp [stripAllWitness, head, stripAllWitnessList_eq]

theorem components_stripAllWitness : ∀ t : TypeExpr,
    t.stripAllWitness.components = t.components.map stripAllWitness
  | witnessOf t => by simpa [stripAllWitness, components] using components_stripAllWitness t
  | field | .u _ | .i _ | array _ _ | slice _ | ref _ | function => rfl
  | tuple ts => by simp [stripAllWitness, components, stripAllWitnessList_eq]

theorem stripAllWitness_eq_iff {a b : TypeExpr} :
    a.stripAllWitness = b.stripAllWitness ↔
      a.head = b.head ∧ Children (fun x y => x.stripAllWitness = y.stripAllWitness) a b := by
  rw [eq_iff, depth_stripAllWitness, depth_stripAllWitness, head_stripAllWitness,
    head_stripAllWitness]
  simp only [true_and, and_congr_right_iff, Children, component, components_stripAllWitness,
    List.getElem?_map, Option.map_eq_some_iff]
  refine fun _ => ⟨fun h k x y hx hy => h k _ _ ⟨x, hx, rfl⟩ ⟨y, hy, rfl⟩, ?_⟩
  rintro h k _ _ ⟨x, hx, rfl⟩ ⟨y, hy, rfl⟩
  exact h k x y hx hy

theorem isSubtypeOf_witnessOf (a b : TypeExpr) :
    a.isSubtypeOf (witnessOf b) = a.stripWitness.isSubtypeOf b := by
  cases a <;> simp [isSubtypeOf, stripWitness]

theorem depth_stripWitness (a : TypeExpr) : a.stripWitness.depth = a.depth - 1 := by
  cases a <;> rfl

theorem head_stripWitness (a : TypeExpr) : a.stripWitness.head = a.head := by
  cases a <;> rfl

theorem components_stripWitness (a : TypeExpr) : a.stripWitness.components = a.components := by
  cases a <;> rfl

theorem isSubtypeOfAll_iff {xs ys : List TypeExpr} :
    isSubtypeOfAll xs ys = true ↔ List.Forall₂ (fun x y => x.isSubtypeOf y = true) xs ys := by
  induction xs generalizing ys with
  | nil => cases ys <;> simp [isSubtypeOfAll]
  | cons x xs ih => cases ys <;> simp [isSubtypeOfAll, ih]

theorem children_iff_forall₂ {R : TypeExpr → TypeExpr → Prop} {a b : TypeExpr}
    (h : a.head = b.head) : Children R a b ↔ List.Forall₂ R a.components b.components := by
  have hlen : a.components.length = b.components.length := by
    rw [length_components, length_components, h]
  rw [List.forall₂_iff_get]
  constructor
  · exact fun hc => ⟨hlen, fun k hx hy =>
      hc k _ _ (List.getElem?_eq_getElem hx) (List.getElem?_eq_getElem hy)⟩
  · rintro ⟨-, hf⟩ k x y hx hy
    obtain ⟨hkx, rfl⟩ := List.getElem?_eq_some_iff.mp hx
    obtain ⟨hky, rfl⟩ := List.getElem?_eq_some_iff.mp hy
    exact hf k hkx hky

theorem children_single {R : TypeExpr → TypeExpr → Prop} {a b x y : TypeExpr}
    (ha : a.components = [x]) (hb : b.components = [y]) : Children R a b ↔ R x y := by
  refine ⟨fun h => h 0 x y (by simp [component, ha]) (by simp [component, hb]), ?_⟩
  intro h k x' y' hx hy
  rw [component, ha] at hx
  rw [component, hb] at hy
  obtain rfl := List.mem_singleton.mp (List.mem_of_getElem? hx)
  obtain rfl := List.mem_singleton.mp (List.mem_of_getElem? hy)
  exact h

theorem children_array {R : TypeExpr → TypeExpr → Prop} {x y : TypeExpr} {n m : Nat} :
    Children R (array x n) (array y m) ↔ R x y := children_single rfl rfl

theorem children_slice {R : TypeExpr → TypeExpr → Prop} {x y : TypeExpr} :
    Children R (slice x) (slice y) ↔ R x y := children_single rfl rfl

theorem children_ref {R : TypeExpr → TypeExpr → Prop} {x y : TypeExpr} :
    Children R (ref x) (ref y) ↔ R x y := children_single rfl rfl

theorem forall₂_iff_children_tuple {R : TypeExpr → TypeExpr → Prop} {xs ys : List TypeExpr} :
    List.Forall₂ R xs ys ↔ xs.length = ys.length ∧ Children R (tuple xs) (tuple ys) := by
  constructor
  · intro h
    exact ⟨h.length_eq, (children_iff_forall₂ (by simp [head, h.length_eq])).mpr h⟩
  · rintro ⟨hlen, h⟩
    exact (children_iff_forall₂ (by simp [head, hlen])).mp h

theorem isSubtypeOf_iff : ∀ {b a : TypeExpr},
    a.isSubtypeOf b = true ↔ a.depth ≤ b.depth ∧ a.head = b.head ∧
      Children (fun x y => if a.head = .ref then x = y else x.isSubtypeOf y = true) a b
  | witnessOf b, a => by
    rw [isSubtypeOf_witnessOf, isSubtypeOf_iff (b := b), depth_stripWitness, head_stripWitness]
    have hd : a.depth - 1 ≤ b.depth ↔ a.depth ≤ (witnessOf b).depth := by
      simp only [depth]; omega
    simp only [hd, head, Children, component, components, components_stripWitness]
  | field, a | .u _, a | .i _, a | function, a => by
    cases a <;> simp [isSubtypeOf, depth, head, Children, component, components]
  | array _ _, a => by
    cases a <;> simp [isSubtypeOf, depth, head, children_array]
  | slice _, a => by
    cases a <;> simp [isSubtypeOf, depth, head, children_slice]
  | ref _, a => by
    cases a <;> simp [isSubtypeOf, depth, head, children_ref]
  | tuple _, a => by
    cases a <;>
      simp [isSubtypeOf, depth, head, isSubtypeOfAll_iff, forall₂_iff_children_tuple]

/-- The type with the given constructor and children, without a wrapper. -/
def Head.build : Head → List TypeExpr → TypeExpr
  | .u n, _ => .u n
  | .i n, _ => .i n
  | .array n, [t] => .array t n
  | .slice, [t] => .slice t
  | .ref, [t] => .ref t
  | .tuple _, ts => .tuple ts
  | .function, _ => .function
  | _, _ => .field

theorem Head.build_tree {h : Head} {ts : List TypeExpr} (hlen : ts.length = h.arity) :
    (h.build ts).depth = 0 ∧ (h.build ts).head = h ∧ (h.build ts).components = ts := by
  cases h with
  | array _ | slice | ref =>
    obtain ⟨t, rfl⟩ := List.length_eq_one_iff.mp hlen
    exact ⟨rfl, rfl, rfl⟩
  | tuple n =>
    obtain rfl : ts.length = n := hlen
    exact ⟨rfl, rfl, rfl⟩
  | _ =>
    obtain rfl := List.length_eq_zero_iff.mp hlen
    exact ⟨rfl, rfl, rfl⟩

/-- `witness_of`, `n` times. -/
def wrapTimes (t : TypeExpr) : Nat → Option TypeExpr
  | 0 => some t
  | n + 1 => (wrapTimes t n).bind mkWitnessOf

theorem mkWitnessOf_of_depth {t : TypeExpr} (ht : t.depth = 0) :
    mkWitnessOf t = some (witnessOf t) := by
  cases t <;> first | rfl | simp [depth] at ht

/-- A second wrapper is refused, and no later one is reached. -/
theorem wrapTimes_add_two {t : TypeExpr} (ht : t.depth = 0) (n : Nat) :
    t.wrapTimes (n + 2) = none := by
  induction n with
  | zero =>
    simp only [wrapTimes, Option.bind_some, mkWitnessOf_of_depth ht]
    rfl
  | succ n ih => rw [wrapTimes, ih, Option.bind_none]

theorem wrapTimes_eq_some_iff {t : TypeExpr} (ht : t.depth = 0) {n : Nat} {c : TypeExpr} :
    t.wrapTimes n = some c ↔
      n ≤ 1 ∧ c.depth = n ∧ c.head = t.head ∧ c.components = t.components := by
  match n with
  | 0 =>
    rw [wrapTimes, Option.some.injEq]
    constructor
    · rintro rfl
      simp [ht]
    · rintro ⟨-, hd, hh, hc⟩
      exact (eq_of_tree (hd.trans ht.symm) hh hc).symm
  | 1 =>
    rw [wrapTimes, wrapTimes, Option.bind_some, mkWitnessOf_of_depth ht, Option.some.injEq]
    constructor
    · rintro rfl
      simp [depth, head, components, ht]
    · rintro ⟨-, hd, hh, hc⟩
      have hone : c.depth = t.depth + 1 := by rw [hd, ht]
      exact (eq_of_tree (b := witnessOf t) hone hh hc).symm
  | n + 2 => simp [wrapTimes_add_two ht]

theorem join_witnessOf {a b : TypeExpr} (h : 0 < a.depth ∨ 0 < b.depth) :
    join a b = (join a.stripWitness b.stripWitness).bind mkWitnessOf := by
  cases a <;> cases b <;>
    first
    | (simp [join, stripWitness]; done)
    | simp [depth] at h

theorem joinAll_length {xs ys zs : List TypeExpr} (h : joinAll xs ys = some zs) :
    xs.length = ys.length ∧ zs.length = ys.length := by
  induction xs generalizing ys zs with
  | nil => cases ys <;> simp_all [joinAll]
  | cons x xs ih =>
    cases ys with
    | nil => simp [joinAll] at h
    | cons y ys =>
      simp only [joinAll, Option.bind_eq_bind, Option.bind_eq_some_iff, Option.pure_def] at h
      obtain ⟨z, -, zs, hzs, h⟩ := h
      obtain ⟨hxy, hz⟩ := ih hzs
      obtain rfl := Option.some.inj h
      simp [hxy, hz]

theorem join_base {a b : TypeExpr} (ha : a.depth = 0) (hb : b.depth = 0) :
    join a b = if a.head = b.head then
      (joinAll a.components b.components).map a.head.build else none := by
  have hone (x y : TypeExpr) : joinAll [x] [y] = (join x y).map ([·]) := by
    simp only [joinAll]
    cases join x y <;> rfl
  have htuple (xs ys : List TypeExpr) (h : xs.length ≠ ys.length) : joinAll xs ys = none :=
    Option.eq_none_iff_forall_ne_some.mpr fun _ hzs => h (joinAll_length hzs).1
  cases a <;> cases b <;> simp [depth] at ha hb <;>
    simp [join, head, components, hone, Head.build, joinAll, Function.comp_def]
  case tuple.tuple xs ys =>
    split
    · rfl
    · rw [htuple xs ys ‹_›, Option.map_none]

/-- `join` on trees: one constructor on both sides, the children joined, and as many
wrappers as the more wrapped side has. -/
theorem join_eq (a b : TypeExpr) :
    join a b = if a.head = b.head then
      (joinAll a.components b.components).bind fun zs =>
        (a.head.build zs).wrapTimes (max a.depth b.depth) else none := by
  by_cases h : 0 < a.depth ∨ 0 < b.depth
  · have hmax : max a.depth b.depth = max a.stripWitness.depth b.stripWitness.depth + 1 := by
      rw [depth_stripWitness, depth_stripWitness]; omega
    rw [join_witnessOf h, join_eq a.stripWitness b.stripWitness, hmax]
    simp only [head_stripWitness, components_stripWitness, wrapTimes]
    split
    · rw [Option.bind_assoc]
    · rfl
  · obtain ⟨ha, hb⟩ : a.depth = 0 ∧ b.depth = 0 := by omega
    rw [join_base ha hb, ha, hb]
    simp [wrapTimes, Option.map_eq_bind]
termination_by a.depth + b.depth
decreasing_by
  rw [depth_stripWitness, depth_stripWitness]; omega

theorem joinAll_eq_some_iff {xs ys zs : List TypeExpr} :
    joinAll xs ys = some zs ↔ xs.length = ys.length ∧ zs.length = ys.length ∧
      ∀ (k : Nat) x y z, xs[k]? = some x → ys[k]? = some y → zs[k]? = some z →
        join x y = some z := by
  induction xs generalizing ys zs with
  | nil => cases ys <;> simp [joinAll, eq_comm]
  | cons x xs ih =>
    match ys, zs with
    | [], zs => simp [joinAll]
    | y :: ys, [] => simp [joinAll, Option.bind_eq_some_iff]
    | y :: ys, z :: zs =>
      simp only [joinAll, Option.bind_eq_bind, Option.bind_eq_some_iff, Option.pure_def,
        Option.some.injEq, List.cons.injEq, List.length_cons, Nat.add_right_cancel_iff]
      constructor
      · rintro ⟨z', hz, zs', hzs, rfl, rfl⟩
        obtain ⟨hxy, hlen, hk⟩ := ih.mp hzs
        refine ⟨hxy, hlen, fun k => ?_⟩
        cases k with
        | zero => simpa using hz
        | succ k => exact hk k
      · rintro ⟨hxy, hlen, hk⟩
        exact ⟨z, hk 0 x y z rfl rfl rfl, zs, ih.mpr ⟨hxy, hlen, fun k => hk (k + 1)⟩, rfl, rfl⟩

theorem joinAll_isSome_iff {xs ys : List TypeExpr} :
    (joinAll xs ys).isSome ↔ List.Forall₂ (fun x y => (join x y).isSome) xs ys := by
  induction xs generalizing ys with
  | nil => cases ys <;> simp [joinAll]
  | cons x xs ih =>
    cases ys with
    | nil => simp [joinAll]
    | cons y ys =>
      rw [List.forall₂_cons, ← ih]
      cases hx : join x y <;> cases hxs : joinAll xs ys <;> simp [joinAll, hx, hxs]

/-- The join of two children at a time. -/
def ChildJoins (a b c : TypeExpr) : Prop :=
  ∀ k x y z, a.component k = some x → b.component k = some y → c.component k = some z →
    join x y = some z

theorem build_of_joinAll {a b : TypeExpr} (hh : a.head = b.head) {zs : List TypeExpr}
    (h : joinAll a.components b.components = some zs) :
    (a.head.build zs).depth = 0 ∧ (a.head.build zs).head = a.head ∧
      (a.head.build zs).components = zs :=
  Head.build_tree (by rw [(joinAll_length h).2, length_components, hh])

theorem join_eq_some_iff {a b c : TypeExpr} : join a b = some c ↔
    c.depth = max a.depth b.depth ∧ c.depth ≤ 1 ∧ a.head = b.head ∧ c.head = b.head ∧
      ChildJoins a b c := by
  rw [join_eq]
  split
  case isTrue hh =>
    simp only [Option.bind_eq_some_iff]
    constructor
    · rintro ⟨zs, hzs, hc⟩
      obtain ⟨hd, hhead, hcs⟩ := build_of_joinAll hh hzs
      obtain ⟨hle, hcd, hch, hcc⟩ := (wrapTimes_eq_some_iff hd).mp hc
      obtain ⟨-, -, hz⟩ := joinAll_eq_some_iff.mp hzs
      refine ⟨hcd, hcd ▸ hle, hh, hch.trans (hhead.trans hh), ?_⟩
      intro k x y z hx hy hz'
      exact hz k x y z hx hy (by rwa [component, hcc, hcs] at hz')
    · rintro ⟨hd, hle, -, hch, hcc⟩
      have hzs : joinAll a.components b.components = some c.components := by
        refine joinAll_eq_some_iff.mpr ⟨?_, ?_, hcc⟩ <;>
          simp only [length_components, hh, hch]
      obtain ⟨hbd, hhead, hcs⟩ := build_of_joinAll hh hzs
      exact ⟨_, hzs, (wrapTimes_eq_some_iff hbd).mpr
        ⟨hd ▸ hle, hd, hch.trans (hhead.trans hh).symm, hcs.symm⟩⟩
  case isFalse hh => simp [hh]

theorem wrapTimes_isSome_iff {t : TypeExpr} (ht : t.depth = 0) {n : Nat} :
    (t.wrapTimes n).isSome ↔ n ≤ 1 := by
  match n with
  | 0 => simp [wrapTimes]
  | 1 => simp [wrapTimes, mkWitnessOf_of_depth ht]
  | n + 2 => simp [wrapTimes_add_two ht]

theorem join_isSome_iff {a b : TypeExpr} : (join a b).isSome ↔
    a.depth ≤ 1 ∧ b.depth ≤ 1 ∧ a.head = b.head ∧
      Children (fun x y => (join x y).isSome) a b := by
  rw [join_eq]
  split
  case isTrue hh =>
    rw [children_iff_forall₂ hh, ← joinAll_isSome_iff]
    cases hzs : joinAll a.components b.components with
    | none => simp
    | some zs =>
      rw [Option.bind_some, wrapTimes_isSome_iff (build_of_joinAll hh hzs).1]
      simp [hh]
  case isFalse hh => simp [hh]

/-! ## Places -/

theorem level_le_iff {a b : TypeExpr} (h : a.head = b.head) :
    (∀ p, a.level p ≤ b.level p) ↔
      a.depth ≤ b.depth ∧ Children (fun x y => ∀ p, x.level p ≤ y.level p) a b := by
  constructor
  · intro hl
    refine ⟨hl [], fun k x y hx hy p => ?_⟩
    simpa [hx, hy] using hl (k :: p)
  · rintro ⟨hd, hc⟩ p
    cases p with
    | nil => exact hd
    | cons k p =>
      obtain ⟨hx, hy⟩ | ⟨x, y, hx, hy⟩ := component_cases h k
      · simp [hx]
      · simpa [hx, hy] using hc k x y hx hy p

theorem refsAgree_iff {a b : TypeExpr} (h : a.head = b.head) :
    RefsAgree a b ↔ (a.head = .ref → a.components = b.components) ∧ Children RefsAgree a b := by
  constructor
  · intro hr
    refine ⟨fun ha => hr [] a b rfl rfl ha (h ▸ ha), fun k x y hx hy p x' y' hx' hy' => ?_⟩
    exact hr (k :: p) x' y' (by simpa [hx] using hx') (by simpa [hy] using hy')
  · rintro ⟨ha, hc⟩ p x y hx hy hxr hyr
    cases p with
    | nil =>
      obtain rfl := Option.some.inj hx
      obtain rfl := Option.some.inj hy
      exact ha hxr
    | cons k p =>
      obtain ⟨x', hx', hpx⟩ := Option.bind_eq_some_iff.mp hx
      obtain ⟨y', hy', hpy⟩ := Option.bind_eq_some_iff.mp hy
      exact hc k x' y' hx' hy' p x y hpx hpy hxr hyr

theorem refsAgree_refl (a : TypeExpr) : RefsAgree a a := by
  intro p x y hx hy _ _
  rw [Option.some.inj (hx.symm.trans hy)]

/-- Types of one shape have the same places. -/
theorem part_of_shape {a b : TypeExpr} (h : a.stripAllWitness = b.stripAllWitness) {p : List Nat}
    {x : TypeExpr} (hx : a.part p = some x) :
    ∃ y, b.part p = some y ∧ x.stripAllWitness = y.stripAllWitness := by
  induction p generalizing a b with
  | nil => exact ⟨b, rfl, Option.some.inj hx ▸ h⟩
  | cons k p ih =>
    obtain ⟨hh, hc⟩ := stripAllWitness_eq_iff.mp h
    obtain ⟨x', hx', hp⟩ := Option.bind_eq_some_iff.mp hx
    obtain ⟨hn, -⟩ | ⟨x'', y', hx'', hy'⟩ := component_cases hh k
    · exact absurd (hn.symm.trans hx') (by simp)
    · obtain rfl := Option.some.inj (hx''.symm.trans hx')
      obtain ⟨y, hy, hxy⟩ := ih (hc k _ _ hx' hy') hp
      exact ⟨y, by simpa [hy'] using hy, hxy⟩

theorem RefsAgree.trans {a b c : TypeExpr} (hs : a.stripAllWitness = b.stripAllWitness)
    (hab : RefsAgree a b) (hbc : RefsAgree b c) : RefsAgree a c := by
  intro p x z hx hz hxr hzr
  obtain ⟨y, hy, hxy⟩ := part_of_shape hs hx
  have hyr : y.head = .ref := (stripAllWitness_eq_iff.mp hxy).1 ▸ hxr
  exact (hab p x y hx hy hxr hyr).trans (hbc p y z hy hz hyr hzr)

/-- A type is its shape and its wrappers. -/
theorem eq_of_level {a b : TypeExpr} (hs : a.stripAllWitness = b.stripAllWitness)
    (hl : ∀ p, a.level p = b.level p) : a = b := by
  induction a using component_induction generalizing b with
  | node a ih =>
    obtain ⟨hh, hc⟩ := stripAllWitness_eq_iff.mp hs
    refine eq_iff.mpr ⟨hl [], hh, fun k x y hx hy => ih k x hx (hc k x y hx hy) fun p => ?_⟩
    simpa [hx, hy] using hl (k :: p)

/-- The place `r` lies inside a reference. -/
def BelowRef (t : TypeExpr) (r : List Nat) : Prop :=
  ∃ p q x, r = p ++ 0 :: q ∧ t.part p = some x ∧ x.head = .ref

theorem BelowRef.of_shape {a b : TypeExpr} (hs : a.stripAllWitness = b.stripAllWitness)
    {r : List Nat} (h : BelowRef a r) : BelowRef b r := by
  obtain ⟨p, q, x, rfl, hx, hxr⟩ := h
  obtain ⟨y, hy, hxy⟩ := part_of_shape hs hx
  exact ⟨p, q, y, rfl, hy, (stripAllWitness_eq_iff.mp hxy).1 ▸ hxr⟩

theorem level_append {t x : TypeExpr} {p : List Nat} (hx : t.part p = some x) (q : List Nat) :
    t.level (p ++ q) = x.level q := by
  induction p generalizing t with
  | nil => rw [Option.some.inj hx, List.nil_append]
  | cons k p ih =>
    obtain ⟨y, hy, hp⟩ := Option.bind_eq_some_iff.mp hx
    simpa [hy] using ih hp

/-- References agree when nothing inside one is wrapped differently. -/
theorem refsAgree_iff_level {a b : TypeExpr} (hs : a.stripAllWitness = b.stripAllWitness) :
    RefsAgree a b ↔ ∀ r, BelowRef a r → a.level r = b.level r := by
  constructor
  · rintro hr _ ⟨p, q, x, rfl, hx, hxr⟩
    obtain ⟨y, hy, hxy⟩ := part_of_shape hs hx
    have hyr : y.head = .ref := (stripAllWitness_eq_iff.mp hxy).1 ▸ hxr
    rw [level_append hx, level_append hy, level_cons, level_cons, component, component,
      hr p x y hx hy hxr hyr]
  · intro hl p x y hx hy hxr hyr
    obtain ⟨_, hy', hxy⟩ := part_of_shape hs hx
    obtain rfl := Option.some.inj (hy'.symm.trans hy)
    obtain ⟨hh, hc⟩ := stripAllWitness_eq_iff.mp hxy
    refine (children_eq_iff hh).mp fun k x' y' hx' hy' => ?_
    refine eq_of_level (hc k x' y' hx' hy') fun q => ?_
    -- a reference has one child
    obtain rfl : k = 0 := by
      have hk := (List.getElem?_eq_some_iff.mp hx').1
      rw [length_components, hxr] at hk
      exact Nat.lt_one_iff.mp hk
    have hq := hl (p ++ 0 :: q) ⟨p, q, x, rfl, hx, hxr⟩
    rw [level_append hx, level_append hy] at hq
    simpa [hx', hy'] using hq

/-- Subtyping: one shape, no place less wrapped on the right, equal references. -/
theorem isSubtypeOf_iff_level {a b : TypeExpr} : a.isSubtypeOf b = true ↔
    a.stripAllWitness = b.stripAllWitness ∧ (∀ p, a.level p ≤ b.level p) ∧ RefsAgree a b := by
  induction a using component_induction generalizing b with
  | node a ih =>
    rw [isSubtypeOf_iff, stripAllWitness_eq_iff]
    by_cases hh : a.head = b.head
    case neg => simp [hh]
    rw [level_le_iff hh, refsAgree_iff hh]
    by_cases href : a.head = .ref
    · -- below a reference the children are compared with `==`
      simp only [href, ↓reduceIte, children_eq_iff hh, forall_const]
      constructor
      · rintro ⟨hd, -, hc⟩
        have heq : Children (· = ·) a b := (children_eq_iff hh).mpr hc
        refine ⟨⟨href ▸ hh, fun k x y hx hy => ?_⟩, ⟨hd, fun k x y hx hy => ?_⟩, hc,
          fun k x y hx hy => ?_⟩ <;> obtain rfl := heq k x y hx hy
        · rfl
        · exact fun _ => le_refl _
        · exact refsAgree_refl x
      · rintro ⟨-, ⟨hd, -⟩, hc, -⟩
        exact ⟨hd, href ▸ hh, hc⟩
    · simp only [href, ↓reduceIte, false_implies, true_and]
      constructor
      · rintro ⟨hd, -, hc⟩
        have hsub k x y hx hy := (ih k x hx).mp (hc k x y hx hy)
        exact ⟨⟨hh, fun k x y hx hy => (hsub k x y hx hy).1⟩,
          ⟨hd, fun k x y hx hy => (hsub k x y hx hy).2.1⟩,
          fun k x y hx hy => (hsub k x y hx hy).2.2⟩
      · rintro ⟨⟨-, hs⟩, ⟨hd, hl⟩, hr⟩
        exact ⟨hd, hh, fun k x y hx hy =>
          (ih k x hx).mpr ⟨hs k x y hx hy, hl k x y hx hy, hr k x y hx hy⟩⟩

/-- A join has the shape of both types and the larger level at each place; no place of
it is wrapped twice. -/
theorem level_of_join {a b c : TypeExpr} (h : join a b = some c) :
    a.stripAllWitness = b.stripAllWitness ∧ c.stripAllWitness = b.stripAllWitness ∧
      ∀ p, c.level p = max (a.level p) (b.level p) ∧ c.level p ≤ 1 := by
  induction a using component_induction generalizing b c with
  | node a ih =>
    obtain ⟨hd, hle, hh, hch, hj⟩ := join_eq_some_iff.mp h
    -- a child of one of the three is a child of all
    have hall {k x y} (hx : a.component k = some x) (hy : b.component k = some y) :
        ∃ z, c.component k = some z ∧ join x y = some z := by
      obtain ⟨-, hn⟩ | ⟨z, -, hz, -⟩ := component_cases hch k
      · simp [hn] at hy
      · exact ⟨z, hz, hj k x y z hx hy hz⟩
    refine ⟨stripAllWitness_eq_iff.mpr ⟨hh, fun k x y hx hy => ?_⟩,
      stripAllWitness_eq_iff.mpr ⟨hch, fun k z y hz hy => ?_⟩, fun p => ?_⟩
    · obtain ⟨z, -, hz⟩ := hall hx hy
      exact (ih k x hx hz).1
    · obtain ⟨-, hn⟩ | ⟨x, -, hx, -⟩ := component_cases hh k
      · simp [hn] at hy
      · exact (ih k x hx (hj k x y z hx hy hz)).2.1
    · cases p with
      | nil => exact ⟨hd, hle⟩
      | cons k p =>
        obtain ⟨hx, hy⟩ | ⟨x, y, hx, hy⟩ := component_cases hh k
        · obtain ⟨hz, -⟩ | ⟨_, _, -, hy'⟩ := component_cases hch k
          · simp [hx, hy, hz]
          · simp [hy] at hy'
        · obtain ⟨z, hz, hxy⟩ := hall hx hy
          simpa [hx, hy, hz] using (ih k x hx hxy).2.2 p

/-- `join` is defined on the pairs of one shape in which nothing is wrapped twice. -/
theorem join_isSome_iff_level {a b : TypeExpr} : (join a b).isSome ↔
    a.stripAllWitness = b.stripAllWitness ∧ ∀ p, a.level p ≤ 1 ∧ b.level p ≤ 1 := by
  constructor
  · intro h
    obtain ⟨c, hc⟩ := Option.isSome_iff_exists.mp h
    obtain ⟨hs, -, hl⟩ := level_of_join hc
    refine ⟨hs, fun p => ?_⟩
    have hp := hl p
    omega
  · induction a using component_induction generalizing b with
    | node a ih =>
      rintro ⟨hs, hl⟩
      obtain ⟨hh, hc⟩ := stripAllWitness_eq_iff.mp hs
      refine join_isSome_iff.mpr ⟨(hl []).1, (hl []).2, hh, fun k x y hx hy => ?_⟩
      exact ih k x hx ⟨hc k x y hx hy, fun p => by simpa [hx, hy] using hl (k :: p)⟩

theorem join_eq_some_iff_level {a b c : TypeExpr} : join a b = some c ↔
    a.stripAllWitness = b.stripAllWitness ∧ c.stripAllWitness = b.stripAllWitness ∧
      ∀ p, c.level p = max (a.level p) (b.level p) ∧ c.level p ≤ 1 := by
  refine ⟨level_of_join, fun ⟨hs, hcs, hl⟩ => ?_⟩
  have hsome : (join a b).isSome := join_isSome_iff_level.mpr ⟨hs, fun p => by
    have hp := hl p
    omega⟩
  obtain ⟨d, hd⟩ := Option.isSome_iff_exists.mp hsome
  obtain ⟨-, hds, hdl⟩ := level_of_join hd
  rw [hd, eq_of_level (hds.trans hcs.symm) fun p => (hdl p).1.trans (hl p).1.symm]

/-! ## The laws

Order and join on levels, where they are those of the natural numbers.
-/

theorem isSubtypeOf_refl (a : TypeExpr) : a.isSubtypeOf a = true :=
  isSubtypeOf_iff_level.mpr ⟨rfl, fun _ => le_refl _, refsAgree_refl a⟩

theorem isSubtypeOf_trans {a b c : TypeExpr} (hab : a.isSubtypeOf b = true)
    (hbc : b.isSubtypeOf c = true) : a.isSubtypeOf c = true := by
  obtain ⟨hs, hl, hr⟩ := isSubtypeOf_iff_level.mp hab
  obtain ⟨hs', hl', hr'⟩ := isSubtypeOf_iff_level.mp hbc
  exact isSubtypeOf_iff_level.mpr
    ⟨hs.trans hs', fun p => (hl p).trans (hl' p), hr.trans hs hr'⟩

theorem isSubtypeOf_antisymm {a b : TypeExpr} (hab : a.isSubtypeOf b = true)
    (hba : b.isSubtypeOf a = true) : a = b := by
  obtain ⟨hs, hl, -⟩ := isSubtypeOf_iff_level.mp hab
  obtain ⟨-, hl', -⟩ := isSubtypeOf_iff_level.mp hba
  exact eq_of_level hs fun p => le_antisymm (hl p) (hl' p)

/-- `is_subtype_of` is a partial order on all types. -/
instance : IsPartialOrder TypeExpr (fun a b => a.isSubtypeOf b = true) where
  refl := isSubtypeOf_refl
  trans _ _ _ := isSubtypeOf_trans
  antisymm _ _ := isSubtypeOf_antisymm

theorem join_comm (a b : TypeExpr) : join a b = join b a := by
  refine Option.ext fun c => ?_
  simp only [join_eq_some_iff_level, max_comm (a.level _)]
  constructor <;> exact fun ⟨hs, hcs, hl⟩ => ⟨hs.symm, hcs.trans hs.symm, hl⟩

theorem join_bind_eq_some_iff {a b d c : TypeExpr} :
    (join a b).bind (join · d) = some c ↔
      a.stripAllWitness = b.stripAllWitness ∧ b.stripAllWitness = d.stripAllWitness ∧
        c.stripAllWitness = d.stripAllWitness ∧
        ∀ p, c.level p = max (max (a.level p) (b.level p)) (d.level p) ∧ c.level p ≤ 1 := by
  rw [Option.bind_eq_some_iff]
  constructor
  · rintro ⟨e, he, hc⟩
    obtain ⟨hs, hes, hel⟩ := level_of_join he
    obtain ⟨hes', hcs, hcl⟩ := level_of_join hc
    exact ⟨hs, hes.symm.trans hes', hcs, fun p => ⟨(hel p).1 ▸ (hcl p).1, (hcl p).2⟩⟩
  · rintro ⟨hs, hs', hcs, hl⟩
    have hsome : (join a b).isSome := join_isSome_iff_level.mpr ⟨hs, fun p => by
      have hp := hl p
      omega⟩
    obtain ⟨e, he⟩ := Option.isSome_iff_exists.mp hsome
    obtain ⟨-, hes, hel⟩ := level_of_join he
    exact ⟨e, he, join_eq_some_iff_level.mpr
      ⟨hes.trans hs', hcs, fun p => (hel p).1.symm ▸ hl p⟩⟩

theorem join_assoc (a b d : TypeExpr) :
    (join a b).bind (join · d) = (join b d).bind (join a ·) := by
  have hcomm : (join b d).bind (join a ·) = (join b d).bind (join · a) := by
    simp only [join_comm a]
  refine hcomm ▸ Option.ext fun c => ?_
  rw [join_bind_eq_some_iff, join_bind_eq_some_iff]
  have hmax p : max (max (b.level p) (d.level p)) (a.level p) =
      max (max (a.level p) (b.level p)) (d.level p) := by
    rw [max_comm, max_assoc]
  simp only [hmax]
  constructor
  · exact fun ⟨hs, hs', hcs, hl⟩ => ⟨hs', (hs.trans hs').symm, hcs.trans (hs.trans hs').symm, hl⟩
  · exact fun ⟨hs, hs', hcs, hl⟩ => ⟨(hs.trans hs').symm, hs, hcs.trans hs'.symm, hl⟩

theorem join_self {a : TypeExpr} (h : ∀ p, a.level p ≤ 1) : join a a = some a :=
  join_eq_some_iff_level.mpr ⟨rfl, rfl, fun p => ⟨(max_self _).symm, h p⟩⟩

/-- What makes `c` the least upper bound of `a` and `b`, and `join` its operation. -/
structure JoinLaws (a b c : TypeExpr) : Prop where
  left : a.isSubtypeOf c = true
  right : b.isSubtypeOf c = true
  least : ∀ d, a.isSubtypeOf d = true → b.isSubtypeOf d = true → c.isSubtypeOf d = true
  comm : join b a = some c
  assoc : ∀ d, (join a b).bind (join · d) = (join b d).bind (join a ·)
  idem : join a a = some a ∧ join b b = some b
  subtype_iff : a.isSubtypeOf b = true ↔ c = b

/-- The join is below every common upper bound, whatever its references. -/
theorem join_least {a b c : TypeExpr} (h : join a b = some c) {d : TypeExpr}
    (had : a.isSubtypeOf d = true) (hbd : b.isSubtypeOf d = true) : c.isSubtypeOf d = true := by
  obtain ⟨hs, hcs, hl⟩ := level_of_join h
  obtain ⟨has, hal, har⟩ := isSubtypeOf_iff_level.mp had
  obtain ⟨hbs, hbl, hbr⟩ := isSubtypeOf_iff_level.mp hbd
  refine isSubtypeOf_iff_level.mpr ⟨hcs.trans hbs, fun p => ?_, ?_⟩
  · rw [(hl p).1]
    exact max_le (hal p) (hbl p)
  · refine (refsAgree_iff_level (hcs.trans hbs)).mpr fun r hr => ?_
    have ha := (refsAgree_iff_level has).mp har r (hr.of_shape (hcs.trans hs.symm))
    have hb := (refsAgree_iff_level hbs).mp hbr r (hr.of_shape hcs)
    rw [(hl r).1, ha, hb, max_self]

/-- A join is an upper bound exactly where the references of the two types agree: inside a
reference the join has the larger level, and an upper bound must have the same one. -/
theorem isSubtypeOf_join_iff {a b c : TypeExpr} (h : join a b = some c) :
    a.isSubtypeOf c = true ∧ b.isSubtypeOf c = true ↔ RefsAgree a b := by
  obtain ⟨hs, hcs, hl⟩ := level_of_join h
  have hacs : a.stripAllWitness = c.stripAllWitness := hs.trans hcs.symm
  rw [isSubtypeOf_iff_level, isSubtypeOf_iff_level, refsAgree_iff_level hs,
    refsAgree_iff_level hacs, refsAgree_iff_level hcs.symm]
  constructor
  · rintro ⟨⟨-, -, ha⟩, -, -, hb⟩ r hr
    exact (ha r hr).trans (hb r (hr.of_shape hs)).symm
  · intro hr
    have hmax (r) (hb : BelowRef a r) : c.level r = b.level r := by
      rw [(hl r).1, hr r hb, max_self]
    refine ⟨⟨hacs, fun p => (hl p).1 ▸ le_max_left _ _, fun r hb => ?_⟩,
      hcs.symm, fun p => (hl p).1 ▸ le_max_right _ _, fun r hb => ?_⟩
    · exact (hr r hb).trans (hmax r hb).symm
    · exact (hmax r (hb.of_shape hs.symm)).symm

/-- `is_subtype_of` is a partial order, and where `join` is defined it is the least upper
bound, with the algebraic laws that follow, exactly when references at the same place of
the two types point to equal types. -/
theorem join_isLub_iff {a b c : TypeExpr} (h : join a b = some c) :
    IsPartialOrder TypeExpr (fun s t => s.isSubtypeOf t = true) ∧
      (JoinLaws a b c ↔ RefsAgree a b) := by
  refine ⟨inferInstance, fun hl => ?_, fun hr => ?_⟩
  · exact (isSubtypeOf_join_iff h).mp ⟨hl.left, hl.right⟩
  · obtain ⟨hs, hcs, hl⟩ := level_of_join h
    obtain ⟨ha, hb⟩ := (isSubtypeOf_join_iff h).mpr hr
    have hle (p) : a.level p ≤ 1 ∧ b.level p ≤ 1 := by
      have hp := hl p
      omega
    exact {
      left := ha
      right := hb
      least := fun d => join_least h
      comm := join_comm a b ▸ h
      assoc := join_assoc a b
      idem := ⟨join_self fun p => (hle p).1, join_self fun p => (hle p).2⟩
      subtype_iff := ⟨fun hab => isSubtypeOf_antisymm (join_least h hab (isSubtypeOf_refl b)) hb,
        fun hcb => hcb ▸ ha⟩ }

/-- Joining a tuple of an array and a reference with one whose array is a witness. -/
theorem join_isLub_tuple :
    JoinLaws (tuple [array field 2, ref field]) (tuple [witnessOf (array field 2), ref field])
      (tuple [witnessOf (array field 2), ref field]) := by
  refine (join_isLub_iff ?_).2.mpr ?_
  · simp [join, joinAll, mkWitnessOf]
  · exact (isSubtypeOf_iff_level.mp (by decide)).2.2

/-- The join of a reference to a field and one to a witness is not above the first. -/
theorem join_ref_not_upper :
    ¬ ∀ a b c, join a b = some c → JoinLaws a b c := by
  intro h
  have hj : join (ref field) (ref (witnessOf field)) = some (ref (witnessOf field)) := by
    simp [join, mkWitnessOf]
  exact absurd (h _ _ _ hj).left (by decide)

end Mavros.Hlssa.TypeExpr
