/-
# `Mavros.Lowering.Elements` — the elements of an array and their leaves

An element of an array is a scalar, a tuple or an array again.  `leaf_scalar_count` is the
number of scalars a value of a type takes in the lookup table of its array, and
`flatten_array_into_table` puts them there one after the other; both panic on tuples.
Values of one type have equally many leaves, stand in the table at multiples of that
number, and are told apart by their leaves.

## What is proved

* `HasType.leaves`: a value of a counted type has as many leaves as the type counts.
* `flattenArrayIntoTable_blocks`: elements of `s` leaves stand in the table at the multiples of `s`.
* `HasType.eq_of_leaves`: two values of one type with the same leaves are equal.
* `flattenArrayIntoTable_of_denote`: the table that the constraint generator makes of symbolic
  values holds the leaves of what these denote.

The last one connects the elements of the lowerings, which are values, with those of the generator,
which are combinations of witnesses.
-/
import Mavros.Hlssa.Types
import Mavros.R1CGen.Lookup

namespace Mavros.Lowering

open Hlssa (TypeExpr)

/-- A value of a program, with the field elements its scalars are. -/
inductive Element where
  | scalar (x : Fr)
  | array (data : List Element)
  | tuple (fields : List Element)

/-- `leaf_scalar_count`. -/
def leafScalarCount : TypeExpr → Option Nat
  | .array inner n => (leafScalarCount inner).map (n * ·)
  | .field | .u _ | .i _ => some 1
  | .witnessOf inner => leafScalarCount inner
  | .slice _ | .ref _ | .tuple _ | .function => none

/-- The types whose values are counted: scalars and arrays of them, to any depth. -/
inductive Counted : TypeExpr → Nat → Prop
  | field : Counted .field 1
  | u (n : Nat) : Counted (.u n) 1
  | i (n : Nat) : Counted (.i n) 1
  | array {inner : TypeExpr} {c : Nat} (n : Nat) (h : Counted inner c) :
      Counted (.array inner n) (n * c)

theorem Counted.leafScalarCount {t : TypeExpr} {s : Nat} (h : Counted t s) :
    leafScalarCount t = some s := by
  induction h with
  | array n _ ih => rw [Lowering.leafScalarCount, ih, Option.map_some]
  | _ => rfl

/-- On a stripped type `leaf_scalar_count` panics unless the type is counted. -/
theorem counted_stripAllWitness (t : TypeExpr) {s : Nat}
    (h : leafScalarCount t.stripAllWitness = some s) : Counted t.stripAllWitness s := by
  induction t using TypeExpr.rec (motive_2 := fun _ => True) generalizing s with
  | array inner n ih =>
    obtain ⟨c, hc, rfl⟩ := Option.map_eq_some_iff.mp h
    exact .array n (ih hc)
  | witnessOf inner ih => exact ih h
  | field => exact Option.some.inj h ▸ .field
  | u n => exact Option.some.inj h ▸ .u n
  | i n => exact Option.some.inj h ▸ .i n
  | slice _ _ | ref _ _ | tuple _ _ | function => cases h
  | nil | cons _ _ _ _ => trivial

namespace Element

mutual

/-- One element of an array that `flatten_array_into_table` walks over. -/
def flatten : Element → Option (List Fr)
  | scalar x => some [x]
  | array data => flattenArrayIntoTable data
  | tuple _ => none

/-- `flatten_array_into_table`, on the values of the scalars. -/
def flattenArrayIntoTable : List Element → Option (List Fr)
  | [] => some []
  | elem :: data => do return (← elem.flatten) ++ (← flattenArrayIntoTable data)

end

mutual

/-- The values of a type without witnesses. -/
def HasType : TypeExpr → Element → Prop
  | .field, scalar _ | .u _, scalar _ | .i _, scalar _ => True
  | .array inner n, array data => data.length = n ∧ ∀ e ∈ data, HasType inner e
  | .tuple types, tuple fields => HaveTypes types fields
  | _, _ => False

def HaveTypes : List TypeExpr → List Element → Prop
  | [], [] => True
  | t :: types, e :: fields => HasType t e ∧ HaveTypes types fields
  | _, _ => False

end

theorem HasType.array {inner : TypeExpr} {n : Nat} {e : Element} (h : HasType (.array inner n) e) :
    ∃ data, e = .array data ∧ data.length = n ∧ ∀ x ∈ data, HasType inner x := by
  cases e with
  | array data => exact ⟨data, rfl, by simpa only [HasType] using h⟩
  | scalar x => simp [HasType] at h
  | tuple fields => simp [HasType] at h

/-! ## Blocks of leaves

By induction over the type, arrays element by element.
-/

/-- The element has these leaves, `s` of them. -/
def HasLeaves (s : Nat) (e : Element) (xs : List Fr) : Prop := e.flatten = some xs ∧ xs.length = s

theorem HasLeaves.unique {s : Nat} {e : Element} {xs ys : List Fr} (hx : HasLeaves s e xs)
    (hy : HasLeaves s e ys) : xs = ys := Option.some.inj (hx.1.symm.trans hy.1)

/-- Elements of `s` leaves each stand in the table at the multiples of `s`. -/
theorem flattenArrayIntoTable_blocks {s : Nat} : ∀ {data : List Element},
    (∀ e ∈ data, ∃ xs, HasLeaves s e xs) →
    ∃ table, flattenArrayIntoTable data = some table ∧ table.length = data.length * s ∧
      ∀ {i : Nat} {e : Element} {xs : List Fr}, data[i]? = some e → HasLeaves s e xs →
        ∀ j < s, table[i * s + j]? = xs[j]?
  | [], _ => ⟨[], by simp [flattenArrayIntoTable], by simp, fun h => by simp at h⟩
  | elem :: data, h => by
      obtain ⟨xs, hxs⟩ := h elem List.mem_cons_self
      obtain ⟨table, htable, hlength, hblocks⟩ :=
        flattenArrayIntoTable_blocks fun e he => h e (List.mem_cons_of_mem elem he)
      refine ⟨xs ++ table, by simp [flattenArrayIntoTable, hxs.1, htable], ?_, ?_⟩
      · rw [List.length_append, hxs.2, hlength, List.length_cons]
        ring
      · intro i e ys hi hys j hj
        cases i with
        | zero =>
          obtain rfl : elem = e := by simpa using hi
          obtain rfl : xs = ys := hxs.unique hys
          rw [Nat.zero_mul, Nat.zero_add, List.getElem?_append_left (hj.trans_eq hxs.2.symm)]
        | succ i =>
          have hplace : (i + 1) * s + j = xs.length + (i * s + j) := by
            rw [hxs.2]
            ring
          rw [hplace, List.getElem?_append_right (Nat.le_add_right _ _), Nat.add_sub_cancel_left]
          exact hblocks (by simpa using hi) hys j hj

section Leaves

variable {t : TypeExpr} {s : Nat}

/-- A value has as many leaves as its type counts. -/
theorem HasType.leaves (ht : Counted t s) {e : Element} (h : HasType t e) :
    ∃ xs, HasLeaves s e xs := by
  induction ht generalizing e with
  | array n _ ih =>
    obtain ⟨data, rfl, rfl, hdata⟩ := h.array
    obtain ⟨table, htable, hlen, -⟩ := flattenArrayIntoTable_blocks fun x hx => ih (hdata x hx)
    exact ⟨table, by rw [Element.flatten, htable], hlen⟩
  | _ =>
    cases e with
    | scalar x => exact ⟨[x], rfl, rfl⟩
    | array data => simp [HasType] at h
    | tuple fields => simp [HasType] at h

/-- The leaves of a value tell it apart from the others of its type. -/
theorem HasType.eq_of_leaves (ht : Counted t s) {e e' : Element} {xs : List Fr}
    (h : HasType t e) (h' : HasType t e') (hxs : HasLeaves s e xs) (hxs' : HasLeaves s e' xs) :
    e = e' := by
  induction ht generalizing e e' xs with
  | @array inner c n ht ih =>
    obtain ⟨data, rfl, hlen, hdata⟩ := h.array
    obtain ⟨data', rfl, hlen', hdata'⟩ := h'.array
    obtain ⟨table, htable, -, hblocks⟩ :=
      flattenArrayIntoTable_blocks fun x hx => HasType.leaves ht (hdata x hx)
    obtain ⟨table', htable', -, hblocks'⟩ :=
      flattenArrayIntoTable_blocks fun x hx => HasType.leaves ht (hdata' x hx)
    obtain rfl : table = xs := Option.some.inj (htable.symm.trans hxs.1)
    obtain rfl : table' = table := Option.some.inj (htable'.symm.trans hxs'.1)
    refine congrArg Element.array (List.ext_getElem (hlen.trans hlen'.symm) fun i hi hi' => ?_)
    obtain ⟨ys, hys⟩ := HasType.leaves ht (hdata _ (List.getElem_mem hi))
    obtain ⟨ys', hys'⟩ := HasType.leaves ht (hdata' _ (List.getElem_mem hi'))
    have hsame : ys = ys' := by
      refine List.ext_getElem? fun j => ?_
      rcases Nat.lt_or_ge j c with hj | hj
      · rw [← hblocks (List.getElem?_eq_getElem hi) hys j hj,
          hblocks' (List.getElem?_eq_getElem hi') hys' j hj]
      · rw [List.getElem?_eq_none (hys.2.trans_le hj), List.getElem?_eq_none (hys'.2.trans_le hj)]
    subst hsame
    exact ih (hdata _ (List.getElem_mem hi)) (hdata' _ (List.getElem_mem hi')) hys hys'
  | _ =>
    have hsame : e.flatten = e'.flatten := hxs.1.trans hxs'.1.symm
    cases e <;> cases e' <;> simp_all only [HasType, flatten, Option.some.injEq, List.cons.injEq,
      and_true]

end Leaves

/-! ## The symbolic values that stand for elements -/

mutual

/-- The value has this element for its value under the assignment. -/
def Denotes (w : Nat → Fr) : Value → Element → Prop
  | .array _ data, array elems => DenoteAll w data elems
  | .const c, scalar x => (Value.const c).Denotes w x
  | .lc terms, scalar x => (Value.lc terms).Denotes w x
  | _, _ => False

def DenoteAll (w : Nat → Fr) : List Value → List Element → Prop
  | [], [] => True
  | v :: data, e :: elems => Denotes w v e ∧ DenoteAll w data elems
  | _, _ => False

end

mutual

/-- The table the generator makes holds the leaves of the element. -/
theorem flatten_of_denotes {w : Nat → Fr} (hw : w 0 = 1) : ∀ {v : Value} {e : Element},
    Denotes w v e → e.flatten = some (v.flatten.map (LC.eval w))
  | .array _ data, .array elems, h => by
      rw [flatten, Value.flatten]
      exact flattenArrayIntoTable_of_denote hw h
  | .const c, .scalar x, h => by
      obtain ⟨terms, hterms, rfl⟩ := h
      obtain rfl := Option.some.inj hterms
      simp [flatten, Value.flatten, hw]
  | .lc terms, .scalar x, h => by
      obtain ⟨terms', hterms, rfl⟩ := h
      obtain rfl := Option.some.inj hterms
      simp [flatten, Value.flatten]

theorem flattenArrayIntoTable_of_denote {w : Nat → Fr} (hw : w 0 = 1) :
    ∀ {data : List Value} {elems : List Element}, DenoteAll w data elems →
      flattenArrayIntoTable elems = some ((Mavros.flattenArrayIntoTable data).map (LC.eval w))
  | [], [], _ => rfl
  | v :: data, e :: elems, h => by
      rw [flattenArrayIntoTable, Mavros.flattenArrayIntoTable, flatten_of_denotes hw h.1,
        flattenArrayIntoTable_of_denote hw h.2, List.map_append]
      rfl

end

end Element

end Mavros.Lowering
