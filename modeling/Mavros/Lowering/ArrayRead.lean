/-
# `Mavros.Lowering.ArrayRead` — array reads at a witness index

`gen_witness_array_get` writes the leaves of an element as witnesses and looks each of them
up in the flattened array, under the flag of the guard.  The key of the first is the index
times the number of leaves of an element, computed in the field.  The lookups bound the
index only where there are any and the product does not wrap around.

## What is proved

`genWitnessArrayGet_exact`: for every array, element type and index, and under an active guard,
every read is at an index in range and returns the element there (`ReadsElement`), exactly unless
the index is out of range and names a place of the table all the same (`Aliases`).

* For an index of an integer type it does not, as long as elements have leaves
  (`not_aliases_of_inType`); the product of a field element with a size may.
* An element without leaves has no lookup, and its index is not bounded at all
  (`genWitnessArrayGet_counterexample`).

## How it goes

`StandsAt` says that the leaves of an element stand in the table from a key on.  The gadget shows
it of what it reads, by induction over the type (`genWitnessArrayGetFromHint_ensures`), and some
prover gets through wherever all keys are in the table.  The places where an element begins are the
multiples of its size, and there it is known by its leaves (`StandsAt.eq_getElem`).
-/
import Mavros.Lib.Lists
import Mavros.Lowering.Builder
import Mavros.Lowering.Elements

namespace Mavros.Lowering

open Lib Lib.Circuit
open Hlssa (TypeExpr)

/-! ## The gadget

The hint is not trusted; it decides what the prover writes, and the lookups decide what passes.
-/

section Definitions

variable {σ : Type} (P : Prover Fr σ)

/-- `lookup_arr`: under the flag, the value stands at the key in the table. -/
def lookupArr (table : List Fr) (key value flag : Fr) : Circuit σ Unit :=
  flagged flag (require (table[key.val]? = some value))

/-- The hint of a scalar. -/
def Element.scalarHint : Element → Option Fr
  | .scalar x => some x
  | _ => none

/-- The hint of an element of an array. -/
def Element.elementHint (i : Nat) : Element → Option Element
  | .array data => data[i]?
  | _ => none

/-- The branch for scalars of `gen_witness_array_get_from_hint`. -/
def genWitnessLeaf (table : List Fr) (flag baseKey : Fr) (hint : Option Element) :
    Circuit σ Element := do
  let leafWit ← writeWitness P (hint.bind Element.scalarHint)
  lookupArr table baseKey leafWit flag
  return .scalar leafWit

/-- `gen_witness_array_get_from_hint`, on the stripped type. -/
def genWitnessArrayGetFromHint (table : List Fr) (flag : Fr) :
    TypeExpr → Fr → Option Element → Circuit σ Element
  | .array inner n, baseKey, hint =>
    match leafScalarCount inner with
    | some innerLeaves => do
      let data ← (List.range n).mapM fun (i : Nat) =>
        genWitnessArrayGetFromHint table flag inner (baseKey + (i : Fr) * (innerLeaves : Fr))
          (hint.bind (Element.elementHint i))
      return .array data
    | none => failure
  | .field, baseKey, hint | .u _, baseKey, hint | .i _, baseKey, hint =>
    genWitnessLeaf P table flag baseKey hint
  | .slice _, _, _ | .tuple _, _, _ | .ref _, _, _ | .function, _, _ | .witnessOf _, _, _ => failure

end Definitions

/-- `lookup_flag`. -/
def lookupFlag : Option Fr → Fr
  | some condition => condition
  | none => 1

/-- `gen_witness_array_get`; `none` where it panics. -/
def genWitnessArrayGet (guard : Option Fr) (arr : List Element) (resultTypeFull : TypeExpr)
    (idx : Fr) : Option (Gadget Fr Element) :=
  let resultType := resultTypeFull.stripAllWitness
  match leafScalarCount resultType, Element.flattenArrayIntoTable arr with
  | some stride, some table =>
    let baseKey := if stride = 1 then idx else idx * (stride : Fr)
    some fun _ P =>
      genWitnessArrayGetFromHint P table (lookupFlag guard) resultType baseKey arr[idx.val]?
  | _, _ => none

/-! ## What the lookups show -/

section Lookups

variable {σ : Type} {P : Prover Fr σ} {table : List Fr} {flag key : Fr} {t : TypeExpr} {s : Nat}
  {hint : Option Element}

theorem lookupFlag_of_active {guard : Option Fr} (h : Active guard) : lookupFlag guard = 1 := by
  rcases h with rfl | rfl <;> rfl

/-- The leaves of the element stand in the table from the key on. -/
def StandsAt (table : List Fr) (key : Fr) (s : Nat) (e : Element) : Prop :=
  ∃ xs, e.HasLeaves s xs ∧ ∀ j < s, table[(key + (j : Nat)).val]? = xs[j]?

/-- Elements that stand one after the other are an array that stands there. -/
theorem StandsAt.array {n : Nat} {data : List Element}
    (h : List.Forall₂ (fun (i : Nat) e => StandsAt table (key + (i : Fr) * (s : Fr)) s e)
      (List.range n) data) :
    StandsAt table key (n * s) (.array data) := by
  obtain ⟨hlen, hplace⟩ := forall₂_range h
  have hleaves : ∀ e ∈ data, ∃ xs, e.HasLeaves s xs := by
    intro e he
    obtain ⟨i, hi, rfl⟩ := List.getElem_of_mem he
    obtain ⟨xs, hxs, -⟩ := hplace hi
    exact ⟨xs, hxs⟩
  obtain ⟨ys, hys, hlength, hblocks⟩ := Element.flattenArrayIntoTable_blocks hleaves
  refine ⟨ys, ⟨by rw [Element.flatten, hys], by rw [hlength, hlen]⟩, fun j hj => ?_⟩
  have hs : 0 < s := Nat.pos_of_ne_zero fun h => by simp [h] at hj
  have hi : j / s < data.length := by rwa [hlen, Nat.div_lt_iff_lt_mul hs]
  obtain ⟨xs, hxs, hstands⟩ := hplace hi
  have hentry := hblocks (List.getElem?_eq_getElem hi) hxs (j % s) (Nat.mod_lt j hs)
  rw [Nat.div_add_mod'] at hentry
  rw [hentry, ← hstands (j % s) (Nat.mod_lt j hs)]
  have hkey : key + (j / s : Nat) * (s : Fr) + (j % s : Nat) = key + (j : Nat) := by
    rw [add_assoc]
    norm_cast
    rw [Nat.div_add_mod']
  rw [hkey]

/-- What is read under an active flag has the type and stands in the table. -/
theorem genWitnessArrayGetFromHint_ensures (hflag : flag ≠ 0) (ht : Counted t s) :
    Ensures (genWitnessArrayGetFromHint P table flag t key hint)
      fun e => e.HasType t ∧ StandsAt table key s e := by
  have hleaf : ∀ {key hint}, Ensures (genWitnessLeaf P table flag key hint)
      fun e => (∃ x, e = .scalar x) ∧ StandsAt table key 1 e := by
    intro key hint
    simp only [genWitnessLeaf, lookupArr, flagged_of_ne_zero hflag]
    refine .bind .any fun x _ => .bind .require fun _ hx => .pure ⟨⟨x, rfl⟩, [x], ⟨rfl, rfl⟩, ?_⟩
    intro j hj
    obtain rfl : j = 0 := by omega
    simpa using hx
  induction ht generalizing key hint with
  | array n ht ih =>
    rw [genWitnessArrayGetFromHint, ht.leafScalarCount]
    refine (Ensures.mapM fun i _ => ih).bind fun data hdata => .pure ⟨?_, ?_⟩
    · obtain ⟨hlen, hplace⟩ := forall₂_range hdata
      rw [Element.HasType]
      refine ⟨hlen, fun e he => ?_⟩
      obtain ⟨i, hi, rfl⟩ := List.getElem_of_mem he
      exact (hplace hi).1
    · exact .array (hdata.imp fun _ _ h => h.2)
  | field | u _ | i _ =>
    rw [genWitnessArrayGetFromHint]
    refine hleaf.mono ?_
    rintro e ⟨⟨x, rfl⟩, h⟩
    exact ⟨by simp [Element.HasType], h⟩

/-- Where all keys are in the table, some element can be read. -/
theorem genWitnessArrayGetFromHint_possible (ht : Counted t s)
    (hkeys : ∀ j < s, (key + (j : Nat)).val < table.length) :
    ∃ e, Gadget.Possible (fun _ P => genWitnessArrayGetFromHint P table flag t key hint) e := by
  have hleaf : ∀ {key hint}, key.val < table.length →
      ∃ e, Gadget.Possible (fun _ P => genWitnessLeaf P table flag key hint) e := by
    intro key hint hkey
    have hlookup : Gadget.Completes (F := Fr)
        (fun _ _ => lookupArr table key table[key.val] flag) () :=
      completes_flagged fun _ => .require (List.getElem?_eq_getElem hkey)
    exact ⟨.scalar table[key.val], .bind (possible_writeWitness _ _) (hlookup.possible.bind .pure)⟩
  induction ht generalizing key hint with
  | @array inner c n ht ih =>
    have hkeys' : ∀ i < n, ∀ j < c, (key + (i : Fr) * (c : Fr) + (j : Nat)).val < table.length := by
      intro i hi j hj
      have hlt : i * c + j < n * c :=
        calc i * c + j < i * c + c := Nat.add_lt_add_left hj _
          _ = (i + 1) * c := by ring
          _ ≤ n * c := Nat.mul_le_mul_right c hi
      have hkey := hkeys (i * c + j) hlt
      push_cast at hkey
      rwa [add_assoc]
    obtain ⟨data, hdata⟩ : ∃ data, Gadget.Possible (fun _ P => (List.range n).mapM fun (i : Nat) =>
        genWitnessArrayGetFromHint P table flag inner (key + (i : Fr) * (c : Fr))
          (hint.bind (Element.elementHint i))) data :=
      Gadget.Possible.mapM fun i hi => ih (hkeys' i (List.mem_range.mp hi))
    refine ⟨.array data, ?_⟩
    simp only [genWitnessArrayGetFromHint, ht.leafScalarCount]
    exact hdata.bind .pure
  | field | u _ | i _ =>
    simp only [genWitnessArrayGetFromHint]
    exact hleaf (by simpa using hkeys 0 one_pos)

end Lookups

/-! ## Reads -/

section Reads

variable {guard : Option Fr} {arr : List Element} {t : TypeExpr} {idx : Fr} {s : Nat}

/-- Every read under an active guard is at an index in range and returns the element there. -/
def ReadsElement (guard : Option Fr) (arr : List Element) (t : TypeExpr) (idx : Fr) : Prop :=
  ∀ c, genWitnessArrayGet guard arr t idx = some c → Active guard →
    ∀ (σ : Type) (P : Prover Fr σ), Ensures (c σ P) fun e => arr[idx.val]? = some e

/-- In the field, the index times the size of an element is a place of the table of `n`
elements from which a whole element is left. -/
def Aliases (n s : Nat) (idx : Fr) : Prop := ∃ p : Nat, p + s ≤ n * s ∧ idx * (s : Fr) = (p : Fr)

/-- Places of the table are below the modulus. -/
theorem place_lt_modulus {n : Nat} (hn : n < 2 ^ 64) (hs : s < 2 ^ 64) : (n + 1) * s < modulus :=
  calc (n + 1) * s ≤ 2 ^ 64 * s := Nat.mul_le_mul_right s hn
    _ < 2 ^ 64 * 2 ^ 64 := Nat.mul_lt_mul_of_pos_left hs (by positivity)
    _ < modulus := by norm_num [modulus]

theorem val_place_add {n p j : Nat} (hn : n < 2 ^ 64) (hs : s < 2 ^ 64) (h : p ≤ n * s)
    (hj : j < s) :
    ((p : Fr) + (j : Nat)).val = p + j := by
  rw [← Nat.cast_add]
  refine ZMod.val_natCast_of_lt (lt_trans ?_ (place_lt_modulus hn hs))
  rw [Nat.succ_mul]
  omega

/-- The key of the first leaf. -/
theorem baseKey_eq : (if s = 1 then idx else idx * (s : Fr)) = idx * (s : Fr) := by
  split
  · next h => rw [h, Nat.cast_one, mul_one]
  · rfl

/-- An element that stands where one begins is that element. -/
theorem StandsAt.eq_getElem {table : List Fr} (ht : Counted t s) (harr : ∀ e ∈ arr, e.HasType t)
    (htable : Element.flattenArrayIntoTable arr = some table) (hn : arr.length < 2 ^ 64)
    (hs : s < 2 ^ 64) (hidx : idx.val < arr.length) {e : Element} (he : e.HasType t)
    (h : StandsAt table (idx * (s : Fr)) s e) : arr[idx.val]? = some e := by
  obtain ⟨table', htable', -, hblocks⟩ :=
    Element.flattenArrayIntoTable_blocks fun x hx => (harr x hx).leaves ht
  obtain rfl : table = table' := Option.some.inj (htable.symm.trans htable')
  have hmem := List.getElem_mem hidx
  obtain ⟨ys, hys⟩ := (harr _ hmem).leaves ht
  obtain ⟨xs, hxs, hstands⟩ := h
  have hbase : idx * (s : Fr) = ((idx.val * s : Nat) : Fr) := by rw [Nat.cast_mul, natCast_val]
  have hsame : xs = ys := by
    refine List.ext_getElem? fun j => ?_
    rcases Nat.lt_or_ge j s with hj | hj
    · rw [← hstands j hj, ← hblocks (List.getElem?_eq_getElem hidx) hys j hj, hbase,
        val_place_add hn hs (Nat.mul_le_mul_right s hidx.le) hj]
    · rw [List.getElem?_eq_none (hxs.2.trans_le hj), List.getElem?_eq_none (hys.2.trans_le hj)]
  subst hsame
  rw [List.getElem?_eq_getElem hidx, he.eq_of_leaves ht (harr _ hmem) hxs hys]

/-- An element can only stand at a place with room for it. -/
theorem StandsAt.aliases {table : List Fr} {n : Nat} (hlen : table.length = n * s)
    (hn : n < 2 ^ 64) (hs : s < 2 ^ 64) {e : Element}
    (h : StandsAt table (idx * (s : Fr)) s e) : Aliases n s idx := by
  obtain ⟨xs, hxs, hstands⟩ := h
  rcases Nat.eq_zero_or_pos s with rfl | hpos
  · exact ⟨0, by simp, by simp⟩
  have hkey : ∀ j < s, (idx * (s : Fr) + (j : Nat)).val < n * s := by
    intro j hj
    have hlt : j < xs.length := hj.trans_eq hxs.2.symm
    obtain ⟨hlt, -⟩ := List.getElem?_eq_some_iff.mp
      ((hstands j hj).trans (List.getElem?_eq_getElem hlt))
    exact hlen ▸ hlt
  have hfirst := hkey 0 hpos
  rw [Nat.cast_zero, add_zero] at hfirst
  have hlast := hkey (s - 1) (by omega)
  rw [← natCast_val (idx * (s : Fr)), val_place_add hn hs hfirst.le (by omega)] at hlast
  exact ⟨(idx * (s : Fr)).val, by omega, (natCast_val _).symm⟩

/-- Under an active guard the lookups force the index into the range and return the element
there, unless the index is out of range and names a place in the table all the same. -/
theorem genWitnessArrayGet_exact (hactive : Active guard)
    (harr : ∀ e ∈ arr, e.HasType t.stripAllWitness) (hn : arr.length < 2 ^ 64)
    (hs : ∀ s, leafScalarCount t.stripAllWitness = some s → s < 2 ^ 64) :
    ReadsElement guard arr t idx ↔
      ∀ s, leafScalarCount t.stripAllWitness = some s →
        idx.val < arr.length ∨ ¬ Aliases arr.length s idx := by
  cases hcount : leafScalarCount t.stripAllWitness with
  | none => simp [ReadsElement, genWitnessArrayGet, hcount]
  | some s =>
    have ht : Counted t.stripAllWitness s := counted_stripAllWitness t hcount
    have hs : s < 2 ^ 64 := hs s hcount
    obtain ⟨table, htable, hlen, -⟩ :=
      Element.flattenArrayIntoTable_blocks fun x hx => (harr x hx).leaves ht
    simp only [ReadsElement, genWitnessArrayGet, hcount, htable, baseKey_eq,
      lookupFlag_of_active hactive, Option.some.injEq, forall_eq']
    constructor
    · intro hreads
      by_contra hnot
      push Not at hnot
      obtain ⟨hrange, p, hroom, hp⟩ := hnot
      have hkeys : ∀ j < s, (idx * (s : Fr) + (j : Nat)).val < table.length := by
        intro j hj
        rw [hp, val_place_add hn hs (by omega) hj, hlen]
        omega
      obtain ⟨e, xs, hrun⟩ : ∃ e, Gadget.Possible (fun _ P => genWitnessArrayGetFromHint P table 1
          t.stripAllWitness (idx * (s : Fr)) arr[idx.val]?) e :=
        genWitnessArrayGetFromHint_possible ht hkeys
      have hget := hreads hactive _ _ _ _ _ (hrun [])
      rw [List.getElem?_eq_none hrange] at hget
      cases hget
    · intro hcond _ σ P
      refine (genWitnessArrayGetFromHint_ensures one_ne_zero ht).mono ?_
      rintro e ⟨he, hstands⟩
      rcases hcond with hrange | haliases
      · exact hstands.eq_getElem ht harr htable hn hs hrange he
      · exact absurd (hstands.aliases hlen hn hs) haliases

theorem genWitnessArrayGet_exact_pair :
    ReadsElement none [.array [.scalar 1, .scalar 2], .array [.scalar 3, .scalar 4]]
      (.array (.witnessOf (.u 8)) 2) 1 :=
  (genWitnessArrayGet_exact (.inl rfl) (by simp [TypeExpr.stripAllWitness, Element.HasType])
    (by decide) (by decide)).mpr fun _ _ => .inl (by decide)

/-- Elements without leaves are not looked up, and the index is not bounded. -/
theorem genWitnessArrayGet_counterexample :
    ¬ ReadsElement none [.array [], .array [], .array []] (.array .field 0) 5 := by
  intro h
  have hget := h _ rfl (.inl rfl) Unit .honest () (.array []) () rfl
  rw [List.getElem?_eq_none (by decide)] at hget
  cases hget

/-- An index of an integer type does not name another place. -/
theorem not_aliases_of_inType {bits n : Nat} (hbits : bits ≤ 128) (hidx : InType bits idx)
    (hs : s < 2 ^ 64) (hpos : 0 < s) (hn : n < 2 ^ 64) (hrange : n ≤ idx.val) :
    ¬ Aliases n s idx := by
  rintro ⟨p, hroom, hp⟩
  have hprod : idx.val * s < modulus :=
    calc idx.val * s ≤ 2 ^ 128 * s :=
          Nat.mul_le_mul_right s (hidx.le.trans (Nat.pow_le_pow_right (by norm_num) hbits))
      _ < 2 ^ 128 * 2 ^ 64 := Nat.mul_lt_mul_of_pos_left hs (by positivity)
      _ < modulus := by norm_num [modulus]
  have hplace : p < modulus :=
    calc p ≤ (n + 1) * s := by rw [Nat.succ_mul]; omega
      _ < modulus := place_lt_modulus hn hs
  rw [← natCast_val idx, ← Nat.cast_mul] at hp
  have hval := congrArg ZMod.val hp
  rw [ZMod.val_natCast_of_lt hprod, ZMod.val_natCast_of_lt hplace] at hval
  have hle := Nat.mul_le_mul_right s hrange
  omega

end Reads

end Mavros.Lowering
