/-
# `Mavros.Passes.ReconstructedFields` — a reconstruct function inverts the flattening

On the fields of a value of its type a reconstruct function gives the value back, and it
gives nothing on any other list: the children's ranges follow one another, as long as the
index arithmetic stays below `2 ^ 32`.

## What is proved

`emitReconstructBody_gives`: for every type that is counted, with no more fields than a `u32`
counts, the body run on a list of fields gives exactly the values of the type that are laid out
as the list (`Gives`).  So it inverts the flattening, and fails on a field that is out of the
range of its leaf.

## How it goes

By induction over the type.  The loop over an array is `reconstructLoop_iff`, an equivalence with
the number of turns in it and no bound on the sizes: after `k` turns the first `k` elements are
what the children give on *their* fields, wherever these start.  That the starts are the right
ones is the separate `childStart_eq`, which needs the bound; so what happens beyond it is known
too, and `emitReconstructArray_iff` is used there for the counterexample.
-/
import Mavros.AbiHelpers
import Mavros.Passes.PreparedRanges
import Mavros.Passes.ReconstructParams

namespace Mavros.PrepareEntryPoint

open Hlssa Hlssa.Emit AbiHelpers
open Lib.Circuit (bind_eq_some pure_eq_some)

mutual

/-- A value of the type, every integer in the range of its width. -/
def OfType : TypeExpr → Val → Prop
  | .field, .scalar _ => True
  | .u size, .scalar x | .i size, .scalar x => x.val < 2 ^ size
  | .array inner size, .seq vs => vs.length = size ∧ ∀ v ∈ vs, OfType inner v
  | .tuple elementTypes, .seq vs => OfTypes elementTypes vs
  | .witnessOf inner, v => OfType inner v
  | _, _ => False

def OfTypes : List TypeExpr → List Val → Prop
  | [], [] => True
  | t :: ts, v :: vs => OfType t v ∧ OfTypes ts vs
  | _, _ => False

end

/-! ## Counting

The number of fields of a value is that of its type.
-/

theorem flattenAll_length_of_forall {m : Nat} {vs : List Val}
    (h : ∀ v ∈ vs, (flatten v).length = m) : (flattenAll vs).length = m * vs.length := by
  induction vs with
  | nil => simp [flattenAll]
  | cons v vs ih =>
    rw [List.forall_mem_cons] at h
    rw [flattenAll, List.length_append, h.1, ih h.2, List.length_cons, Nat.mul_succ, Nat.add_comm]

mutual

/-- A value has as many fields as its type counts. -/
theorem OfType.length : ∀ {t : TypeExpr} {v : Val} {n : Nat}, OfType t v →
    flattenedFieldCount t = some n → (flatten v).length = n
  | .field, .scalar _, _, _, hn | .u _, .scalar _, _, _, hn | .i _, .scalar _, _, _, hn =>
    Option.some.inj hn
  | .array inner size, .seq vs, n, h, hn => by
    obtain ⟨m, hm, rfl⟩ := Option.map_eq_some_iff.mp hn
    rw [flatten, flattenAll_length_of_forall fun v hv => OfType.length (h.2 v hv) hm, h.1]
  | .tuple ts, .seq vs, n, h, hn => OfTypes.length h hn
  | .witnessOf inner, v, n, h, hn => by
    rw [OfType] at h
    exact OfType.length h hn

theorem OfTypes.length : ∀ {ts : List TypeExpr} {vs : List Val} {n : Nat}, OfTypes ts vs →
    flattenedFieldCounts ts = some n → (flattenAll vs).length = n
  | [], [], _, _, hn => Option.some.inj hn
  | t :: ts, v :: vs, n, h, hn => by
    obtain ⟨m, hm, hn⟩ := Option.bind_eq_some_iff.mp hn
    obtain ⟨k, hk, rfl⟩ := Option.map_eq_some_iff.mp hn
    rw [flattenAll, List.length_append, OfType.length h.1 hm, OfTypes.length h.2 hk]

end

/-- Values of `m` fields each, one after the other. -/
theorem flattenAll_eq_iff {m : Nat} {vs : List Val} (h : ∀ v ∈ vs, (flatten v).length = m)
    {fields : List Fr} : flattenAll vs = fields ↔ fields.length = m * vs.length ∧
      ∀ i v, vs[i]? = some v → flatten v = (fields.drop (i * m)).take m := by
  induction vs generalizing fields with
  | nil => simp [flattenAll, eq_comm]
  | cons v vs ih =>
    rw [List.forall_mem_cons] at h
    obtain ⟨hv, hvs⟩ := h
    rw [flattenAll]
    constructor
    · rintro rfl
      refine ⟨?_, fun i u hu => ?_⟩
      · rw [List.length_append, hv, flattenAll_length_of_forall hvs, List.length_cons,
          Nat.mul_succ, Nat.add_comm]
      · cases i with
        | zero =>
          obtain rfl := Option.some.inj hu
          rw [Nat.zero_mul, List.drop_zero, List.take_left' hv]
        | succ i =>
          rw [Nat.succ_mul, Nat.add_comm, ← List.drop_drop, List.drop_left' hv]
          exact ((ih hvs).mp rfl).2 i u (by simpa using hu)
    · rintro ⟨hlen, hall⟩
      have hhead := hall 0 v rfl
      rw [Nat.zero_mul, List.drop_zero] at hhead
      have htail : flattenAll vs = fields.drop m := by
        refine (ih hvs).mpr ⟨?_, fun i u hu => ?_⟩
        · rw [List.length_drop, hlen, List.length_cons, Nat.mul_succ]
          omega
        · rw [hall (i + 1) u (by simpa using hu), List.drop_drop, Nat.succ_mul, Nat.add_comm]
      rw [hhead, htail, List.take_append_drop]

/-! ## Cutting the array of fields up

Reads at computed indices, and the slice they make up.
-/

section Bodies

variable {σ : Type} {fields : List Fr} {s : σ}

/-- The array of fields a reconstruct function gets. -/
def fieldArray (fields : List Fr) : Val := .seq (fields.map .scalar)

theorem val_natCast {n : Nat} (h : n ≤ 2 ^ 32) : ((n : Nat) : Fr).val = n :=
  ZMod.val_cast_of_lt (h.trans_lt (by decide))

theorem arrayGetAt_fieldArray {k : Nat} (hk : k ≤ 2 ^ 32) {x : Fr} (hx : fields[k]? = some x) :
    arrayGetAt (fieldArray fields) (.scalar (k : Fr)) s = some (.scalar x, s) := by
  simp [arrayGetAt, arrayGet, fieldArray, val_natCast hk, hx]

/-- A loop that only reads. -/
theorem mapM_reads {α β : Type} {f : α → Emit σ β} {g : α → β} {as : List α}
    (h : ∀ a ∈ as, f a s = some (g a, s)) : as.mapM f s = some (as.map g, s) := by
  induction as with
  | nil => rfl
  | cons a as ih =>
    rw [List.forall_mem_cons] at h
    rw [List.mapM_cons]
    exact bind_eq_some.mpr ⟨_, s, h.1, bind_eq_some.mpr ⟨_, s, ih h.2, rfl⟩⟩

theorem map_getD_range {start len : Nat} (h : start + len ≤ fields.length) :
    (List.range len).map (fun i => Val.scalar (fields.getD (start + i) 0))
      = ((fields.drop start).take len).map .scalar := by
  refine List.ext_getElem? fun i => ?_
  by_cases hi : i < len
  · have hlt : start + i < fields.length := by omega
    simp [hi, hlt]
  · simp [hi]

theorem emitReconstructChildInputArray_eq {start len : Nat} (h : start + len ≤ fields.length)
    (hbound : fields.length ≤ 2 ^ 32) :
    emitReconstructChildInputArray (fieldArray fields) start len s
      = some (fieldArray ((fields.drop start).take len), s) := by
  refine bind_eq_some.mpr ⟨_, s, mapM_reads
    (g := fun i => Val.scalar (fields.getD (start + i) 0)) fun i hi => ?_, ?_⟩
  · have hi : i < len := List.mem_range.mp hi
    have hlt : start + i < fields.length := by omega
    exact bind_eq_some.mpr ⟨_, s, rfl, arrayGetAt_fieldArray (by omega) (by simp [hlt])⟩
  · rw [map_getD_range h]
    rfl

/-- Where the fields of the child at `index` start, in 32 bits. -/
def childStart (index width : Nat) : Nat := if width = 1 then index else index * width % 2 ^ 32

theorem emitChildStart_eq {index width : Nat} (hindex : index < 2 ^ 32) (hwidth : width ≤ 2 ^ 32) :
    emitChildStart (.scalar (index : Fr)) width s
      = some (.scalar (childStart index width : Fr), s) := by
  unfold emitChildStart childStart
  split
  · rfl
  · refine bind_eq_some.mpr ⟨.scalar (width : Fr), s, rfl, ?_⟩
    rw [mulInt, val_natCast hindex.le, val_natCast hwidth]
    rfl

theorem emitFieldIndex_eq {start i : Nat} (h : start + i < 2 ^ 32) :
    emitFieldIndex (.scalar (start : Fr)) i s = some (.scalar ((start + i : Nat) : Fr), s) := by
  unfold emitFieldIndex
  split
  · next hzero =>
    subst hzero
    rfl
  · refine bind_eq_some.mpr ⟨.scalar (i : Fr), s, rfl, ?_⟩
    rw [addInt, val_natCast (by omega), val_natCast (by omega), Nat.mod_eq_of_lt h]
    rfl

theorem emitReconstructChildInputArrayAtIndex_eq {index width : Nat} (hindex : index < 2 ^ 32)
    (h : childStart index width + width ≤ fields.length)
    (hbound : childStart index width + width ≤ 2 ^ 32) :
    emitReconstructChildInputArrayAtIndex (fieldArray fields) (.scalar (index : Fr)) width s
      = some (fieldArray ((fields.drop (childStart index width)).take width), s) := by
  refine bind_eq_some.mpr ⟨_, s, emitChildStart_eq hindex (by omega), bind_eq_some.mpr ⟨_, s,
    mapM_reads (g := fun i => Val.scalar (fields.getD (childStart index width + i) 0))
      fun i hi => ?_, ?_⟩⟩
  · have hi : i < width := List.mem_range.mp hi
    have hlt : childStart index width + i < fields.length := by omega
    exact bind_eq_some.mpr ⟨_, s, emitFieldIndex_eq (by omega),
      arrayGetAt_fieldArray (by omega) (by simp [hlt])⟩
  · rw [map_getD_range h]
    rfl

/-! ## The loop over an array

An invariant about the elements written, and the default for the rest.
-/

mutual

/-- The types that are counted have a default value. -/
theorem emitDefaultValue_eq : ∀ {t : TypeExpr} {n : Nat}, flattenedFieldCount t = some n →
    ∃ d, ∀ s : σ, emitDefaultValue t s = some (d, s)
  | .field, _, _ | .witnessOf _, _, _ => ⟨.scalar 0, fun s => by rw [emitDefaultValue]; rfl⟩
  | .u size, _, _ | .i size, _, _ =>
    ⟨.scalar (0 : Nat), fun s => by rw [emitDefaultValue]; rfl⟩
  | .array inner size, n, hn => by
    obtain ⟨m, hm, -⟩ := Option.map_eq_some_iff.mp hn
    obtain ⟨d, hd⟩ := emitDefaultValue_eq hm
    refine ⟨.seq (List.replicate size d), fun s => ?_⟩
    rw [emitDefaultValue]
    split
    · next hsize =>
      subst hsize
      rfl
    · exact bind_eq_some.mpr ⟨d, s, hd s, rfl⟩
  | .tuple ts, n, hn => by
    obtain ⟨ds, hds⟩ := emitDefaultValues_eq hn
    refine ⟨.seq ds, fun s => ?_⟩
    rw [emitDefaultValue]
    exact bind_eq_some.mpr ⟨ds, s, hds s, rfl⟩

theorem emitDefaultValues_eq : ∀ {ts : List TypeExpr} {n : Nat},
    flattenedFieldCounts ts = some n → ∃ ds, ∀ s : σ, emitDefaultValues ts s = some (ds, s)
  | [], _, _ => ⟨[], fun s => by rw [emitDefaultValues]; rfl⟩
  | t :: ts, n, hn => by
    obtain ⟨m, hm, hn⟩ := Option.bind_eq_some_iff.mp hn
    obtain ⟨k, hk, -⟩ := Option.map_eq_some_iff.mp hn
    obtain ⟨d, hd⟩ := emitDefaultValue_eq hm
    obtain ⟨ds, hds⟩ := emitDefaultValues_eq hk
    refine ⟨d :: ds, fun s => ?_⟩
    rw [emitDefaultValues]
    exact bind_eq_some.mpr ⟨d, s, hd s, bind_eq_some.mpr ⟨ds, s, hds s, rfl⟩⟩

end

theorem emitDefaultArray_eq {inner : TypeExpr} {m : Nat} (h : flattenedFieldCount inner = some m)
    (size : Nat) : ∃ ds : List Val, ds.length = size ∧
      ∀ s : σ, emitDefaultArray inner size s = some (.seq ds, s) := by
  obtain ⟨d, hd⟩ := emitDefaultValue_eq h
  refine ⟨List.replicate size d, List.length_replicate, fun s => ?_⟩
  rw [emitDefaultArray, emitDefaultValue]
  split
  · next hsize =>
    subst hsize
    rfl
  · exact bind_eq_some.mpr ⟨d, s, hd s, rfl⟩

/-- A run gives exactly the values of a type that are laid out as `fields`. -/
def Gives (run : Emit σ Val) (t : TypeExpr) (fields : List Fr) : Prop :=
  ∀ s v s', run s = some (v, s') ↔ s' = s ∧ OfType t v ∧ flatten v = fields

/-- The body of the loop over an array. -/
def reconstructElement (inner : TypeExpr) (inputArray : Val) (childWidth i : Nat)
    (currentArray : Val) : Emit σ Val := do
  let index ← uConst 32 i
  let childInput ← emitReconstructChildInputArrayAtIndex inputArray index childWidth
  let reconstructed ← emitReconstructBody inner childInput
  arraySet i reconstructed currentArray

theorem set_append_drop {initial vs : List Val} (h : vs.length < initial.length) (u : Val) :
    (vs ++ initial.drop vs.length).set vs.length u = vs ++ [u] ++ initial.drop (vs.length + 1) := by
  rw [List.drop_eq_getElem_cons h, List.set_append_right _ _ le_rfl, Nat.sub_self,
    List.set_cons_zero,
    List.append_assoc]
  rfl

/-- After `k` rounds the first `k` elements are what the children give on their fields. -/
theorem reconstructLoop_iff {inner : TypeExpr} {inputArray : Val} {width : Nat}
    {children : Nat → List Fr} {initial : List Val} {k : Nat} (hk : k ≤ initial.length)
    (hchild : ∀ i < k, ∀ s : σ,
      emitReconstructChildInputArrayAtIndex inputArray (.scalar (i : Fr)) width s
        = some (fieldArray (children i), s))
    (hinner : ∀ i < k, Gives (emitReconstructBody inner (fieldArray (children i)) : Emit σ Val)
      inner (children i)) (s : σ) (v : Val) (s' : σ) :
    countedLoop (.seq initial) (reconstructElement inner inputArray width) k s = some (v, s') ↔
      s' = s ∧ ∃ vs, vs.length = k ∧ v = .seq (vs ++ initial.drop k) ∧
        ∀ i u, vs[i]? = some u → OfType inner u ∧ flatten u = children i := by
  induction k generalizing v s' with
  | zero =>
    rw [countedLoop, pure_eq_some, Prod.mk.injEq]
    constructor
    · rintro ⟨rfl, rfl⟩
      exact ⟨rfl, [], rfl, by simp, by simp⟩
    · rintro ⟨rfl, vs, hvs, rfl, -⟩
      rw [List.length_eq_zero_iff.mp hvs]
      simp
  | succ k ih =>
    have ih := ih (by omega) (fun i hi => hchild i (by omega)) fun i hi => hinner i (by omega)
    rw [countedLoop, bind_eq_some]
    -- one round on the array after `k` rounds
    have hround : ∀ (vs : List Val) (u : Val) (s : σ), vs.length = k → OfType inner u →
        flatten u = children k → reconstructElement inner inputArray width k
          (.seq (vs ++ initial.drop k)) s = some (.seq (vs ++ [u] ++ initial.drop (k + 1)), s) := by
      rintro vs u s rfl hu hflat
      refine bind_eq_some.mpr ⟨_, s, rfl, bind_eq_some.mpr ⟨_, s, hchild _ (by omega) s,
        bind_eq_some.mpr ⟨u, s, (hinner _ (by omega) s u s).mpr ⟨rfl, hu, hflat⟩, ?_⟩⟩⟩
      have hlt : vs.length < (vs ++ initial.drop vs.length).length := by simp; omega
      rw [arraySet, if_pos hlt, set_append_drop (by omega)]
      rfl
    constructor
    · rintro ⟨a, t, ha, hbody⟩
      obtain ⟨rfl, vs, hlen, rfl, hall⟩ := (ih a t).mp ha
      obtain ⟨u, hu, hflat⟩ : ∃ u, OfType inner u ∧ flatten u = children k := by
        rw [reconstructElement, bind_eq_some] at hbody
        obtain ⟨index, t₁, hindex, hbody⟩ := hbody
        obtain ⟨rfl, rfl⟩ := Prod.mk.inj (pure_eq_some.mp hindex)
        obtain ⟨input, t₂, hinput, hbody⟩ := bind_eq_some.mp hbody
        rw [hchild k (by omega), Option.some.injEq, Prod.mk.injEq] at hinput
        obtain ⟨rfl, rfl⟩ := hinput
        obtain ⟨u, t₃, hu, -⟩ := bind_eq_some.mp hbody
        exact ⟨u, ((hinner k (by omega) _ _ _).mp hu).2⟩
      rw [hround vs u t hlen hu hflat, Option.some.injEq, Prod.mk.injEq] at hbody
      obtain ⟨rfl, rfl⟩ := hbody
      refine ⟨rfl, vs ++ [u], by simp [hlen], rfl, fun i u' hu' => ?_⟩
      rcases Nat.lt_or_ge i vs.length with hi | hi
      · exact hall i u' (by rwa [List.getElem?_append_left hi] at hu')
      · rw [List.getElem?_append_right hi, List.getElem?_singleton] at hu'
        split at hu'
        · next hzero =>
          obtain rfl : i = k := by omega
          obtain rfl := Option.some.inj hu'
          exact ⟨hu, hflat⟩
        · simp at hu'
    · rintro ⟨rfl, vs, hlen, rfl, hall⟩
      obtain ⟨vs, u, rfl⟩ : ∃ vs' u, vs = vs' ++ [u] :=
        (List.eq_nil_or_concat' vs).resolve_left (by rintro rfl; simp at hlen)
      have hlen : vs.length = k := by simpa using hlen
      obtain ⟨hu, hflat⟩ := hall k u (by simp [← hlen])
      refine ⟨_, s', (ih _ s').mpr ⟨rfl, vs, hlen, rfl, fun i u' hu' => ?_⟩,
        hround vs u s' hlen hu hflat⟩
      have hi : i < vs.length := (List.getElem?_eq_some_iff.mp hu').1
      exact hall i u' (by rw [List.getElem?_append_left hi, hu'])

/-! ## One reconstruct function

Leaves first, then containers, then the recursion.
-/

theorem emitIntCheck_of_lt {size : Nat} {x : Fr} (h : x.val < 2 ^ size) :
    emitIntCheck size (.scalar x) s = some ((), s) := by
  unfold emitIntCheck
  split
  · next hsize =>
    -- a bit is a root of the polynomial
    subst hsize
    have hroot : x * (x - 1) = 0 := by
      have hx : x = ((x.val : Nat) : Fr) := (ZMod.natCast_zmod_val x).symm
      rcases Nat.lt_or_ge 0 x.val with hpos | hzero
      · rw [hx, show x.val = 1 by omega]
        simp
      · rw [hx, show x.val = 0 by omega]
        simp
    exact bind_eq_some.mpr ⟨_, s, rfl, bind_eq_some.mpr ⟨_, s, rfl, bind_eq_some.mpr ⟨_, s, rfl,
      bind_eq_some.mpr ⟨_, s, rfl, by rw [assertEq, if_pos hroot]; rfl⟩⟩⟩⟩
  · rw [rangecheck, R1CGen.rangecheck, if_pos (by simpa using h)]
    rfl

theorem fieldArray_getElem {x : Fr} : arrayGetAt (fieldArray [x]) (.scalar ((0 : Nat) : Fr)) s
    = some (.scalar x, s) :=
  arrayGetAt_fieldArray (Nat.zero_le _) rfl

theorem emitReconstructInt_gives {castBack : CastTarget} {size : Nat} {t : TypeExpr}
    (ht : ∀ v, OfType t v ↔ ∃ x, v = .scalar x ∧ x.val < 2 ^ size) (x : Fr) :
    Gives (emitReconstructInt castBack size (fieldArray [x]) : Emit σ Val) t [x] := by
  intro s v s'
  rw [ht]
  constructor
  · intro h
    rw [emitReconstructInt, bind_eq_some] at h
    obtain ⟨zero, s₁, hzero, hget⟩ := h
    obtain ⟨rfl, rfl⟩ := Prod.mk.inj (pure_eq_some.mp hzero)
    obtain ⟨field, s₂, hfield, hrest⟩ := bind_eq_some.mp hget
    rw [fieldArray_getElem, Option.some.injEq, Prod.mk.injEq] at hfield
    obtain ⟨rfl, rfl⟩ := hfield
    obtain ⟨_, s₃, hcheck, hcast⟩ := bind_eq_some.mp hrest
    have hlt := emitIntCheck_lt hcheck
    rw [emitIntCheck_of_lt hlt, Option.some.injEq, Prod.mk.injEq] at hcheck
    obtain ⟨rfl, rfl⟩ := Prod.mk.inj (pure_eq_some.mp hcast)
    exact ⟨hcheck.2.symm, ⟨x, rfl, hlt⟩, rfl⟩
  · rintro ⟨rfl, ⟨y, rfl, hlt⟩, hflat⟩
    obtain rfl : y = x := (List.cons.inj hflat).1
    exact bind_eq_some.mpr ⟨_, s', rfl, bind_eq_some.mpr ⟨_, s', fieldArray_getElem,
      bind_eq_some.mpr ⟨_, s', emitIntCheck_of_lt hlt, rfl⟩⟩⟩

theorem ofType_u_iff {size : Nat} (v : Val) :
    OfType (.u size) v ↔ ∃ x, v = .scalar x ∧ x.val < 2 ^ size := by
  cases v <;> simp [OfType]

theorem ofType_i_iff {size : Nat} (v : Val) :
    OfType (.i size) v ↔ ∃ x, v = .scalar x ∧ x.val < 2 ^ size := by
  cases v <;> simp [OfType]

theorem fieldCount_bind {α : Type} {t : TypeExpr} {n : Nat} (h : flattenedFieldCount t = some n)
    (k : Nat → Emit σ α) : (fieldCount t >>= k) = k n := by
  rw [fieldCount, h]
  rfl

/-- Without a wrap the children's fields follow one another. -/
theorem childStart_eq {size width i : Nat} (hi : i < size) (h : width * size ≤ 2 ^ 32) :
    width = 0 ∨ childStart i width = i * width ∧ i * width + width ≤ width * size ∧
      i < 2 ^ 32 := by
  rcases Nat.eq_zero_or_pos width with hzero | hpos
  · exact .inl hzero
  · have hend : i * width + width ≤ width * size := by
      rw [Nat.mul_comm width size, ← Nat.succ_mul]
      exact Nat.mul_le_mul_right _ hi
    have hle : i ≤ i * width := Nat.le_mul_of_pos_right i hpos
    refine .inr ⟨?_, hend, by omega⟩
    unfold childStart
    split
    · next hone => rw [hone, Nat.mul_one]
    · exact Nat.mod_eq_of_lt (by omega)

/-- A child of no fields gets an empty array, whatever its index. -/
theorem emitReconstructChildInputArrayAtIndex_zero (inputArray : Val) (x : Fr) :
    emitReconstructChildInputArrayAtIndex inputArray (.scalar x) 0 s = some (fieldArray [], s) := by
  rfl

/-- The body of an array: its elements are what the children give on their fields. -/
theorem emitReconstructArray_iff {inner : TypeExpr} {size width : Nat} {inputArray : Val}
    {children : Nat → List Fr} (hwidth : flattenedFieldCount inner = some width)
    (hchild : ∀ i < size, ∀ s : σ,
      emitReconstructChildInputArrayAtIndex inputArray (.scalar (i : Fr)) width s
        = some (fieldArray (children i), s))
    (hinner : ∀ i < size, Gives (emitReconstructBody inner (fieldArray (children i)) : Emit σ Val)
      inner (children i)) (s : σ) (v : Val) (s' : σ) :
    emitReconstructBody (.array inner size) inputArray s = some (v, s') ↔
      s' = s ∧ ∃ vs, vs.length = size ∧ v = .seq vs ∧
        ∀ i u, vs[i]? = some u → OfType inner u ∧ flatten u = children i := by
  obtain ⟨initial, hinitial, hdefault⟩ := emitDefaultArray_eq (σ := σ) hwidth size
  have hrun : emitReconstructBody (.array inner size) inputArray s
      = countedLoop (.seq initial) (reconstructElement inner inputArray width) size s := by
    rw [emitReconstructBody, fieldCount_bind hwidth]
    show (emitDefaultArray inner size s).bind _ = _
    rw [hdefault]
    rfl
  rw [hrun, reconstructLoop_iff (k := size) hinitial.ge hchild hinner, ← hinitial,
    List.drop_length]
  simp only [List.append_nil]

/-- Without a wrap these are the slices of the fields. -/
theorem emitReconstructArray_gives {inner : TypeExpr} {size width : Nat}
    (hwidth : flattenedFieldCount inner = some width)
    (hlen : fields.length = width * size) (hbound : width * size ≤ 2 ^ 32)
    (hinner : 0 < size → ∀ children : List Fr, children.length = width →
      Gives (emitReconstructBody inner (fieldArray children) : Emit σ Val) inner children) :
    Gives (emitReconstructBody (.array inner size) (fieldArray fields) : Emit σ Val)
      (.array inner size) fields := by
  intro s v s'
  have hchild : ∀ i < size, ∀ s : σ,
      emitReconstructChildInputArrayAtIndex (fieldArray fields) (.scalar (i : Fr)) width s
        = some (fieldArray ((fields.drop (i * width)).take width), s) := by
    intro i hi s
    rcases childStart_eq hi hbound with rfl | ⟨hstart, hend, hlt⟩
    · rw [List.take_zero]
      exact emitReconstructChildInputArrayAtIndex_zero _ _
    · rw [emitReconstructChildInputArrayAtIndex_eq hlt (by omega) (by omega), hstart]
  have hlength : ∀ i < size, ((fields.drop (i * width)).take width).length = width := by
    intro i hi
    have hend : i * width + width ≤ width * size := by
      rw [Nat.mul_comm width size, ← Nat.succ_mul]
      exact Nat.mul_le_mul_right _ hi
    rw [List.length_take, List.length_drop]
    omega
  rw [emitReconstructArray_iff hwidth hchild
    (fun i hi => hinner (Nat.zero_lt_of_lt hi) _ (hlength i hi))]
  refine and_congr_right' ⟨?_, ?_⟩
  · rintro ⟨vs, hvs, rfl, hall⟩
    have htype : ∀ u ∈ vs, OfType inner u := by
      intro u hu
      obtain ⟨i, hi⟩ := List.mem_iff_getElem?.mp hu
      exact (hall i u hi).1
    refine ⟨⟨hvs, htype⟩, ?_⟩
    rw [flatten, flattenAll_eq_iff fun u hu => (htype u hu).length hwidth]
    exact ⟨by rw [hlen, hvs], fun i u hu => (hall i u hu).2⟩
  · rintro ⟨htype, hflat⟩
    cases v with
    | scalar x => exact htype.elim
    | seq vs =>
      rw [flatten, flattenAll_eq_iff fun u hu => (htype.2 u hu).length hwidth] at hflat
      refine ⟨vs, htype.1, rfl, fun i u hu => ⟨?_, hflat.2 i u hu⟩⟩
      exact htype.2 u (List.mem_of_getElem? hu)

mutual

/-- A reconstruct function gives exactly the values of its type that are laid out as its
fields. -/
theorem emitReconstructBody_gives : ∀ {t : TypeExpr} {n : Nat}, flattenedFieldCount t = some n →
    n ≤ 2 ^ 32 → ∀ {fields : List Fr}, fields.length = n →
      Gives (emitReconstructBody t (fieldArray fields) : Emit σ Val) t fields
  | .field, n, hn, _, fields, hlen => by
    obtain rfl : 1 = n := Option.some.inj hn
    obtain ⟨x, rfl⟩ := List.length_eq_one_iff.mp hlen
    intro s v s'
    have hrun : emitReconstructBody .field (fieldArray [x]) s = some (.scalar x, s) := by
      rw [emitReconstructBody]
      exact bind_eq_some.mpr ⟨_, s, rfl, fieldArray_getElem⟩
    rw [hrun, Option.some.injEq, Prod.mk.injEq]
    constructor
    · rintro ⟨rfl, rfl⟩
      exact ⟨rfl, trivial, rfl⟩
    · rintro ⟨rfl, htype, hflat⟩
      cases v with
      | scalar y => exact ⟨congrArg _ (List.cons.inj hflat).1.symm, rfl⟩
      | seq vs => exact htype.elim
  | .u size, n, hn, _, fields, hlen => by
    obtain rfl : 1 = n := Option.some.inj hn
    obtain ⟨x, rfl⟩ := List.length_eq_one_iff.mp hlen
    rw [emitReconstructBody]
    exact emitReconstructInt_gives ofType_u_iff x
  | .i size, n, hn, _, fields, hlen => by
    obtain rfl : 1 = n := Option.some.inj hn
    obtain ⟨x, rfl⟩ := List.length_eq_one_iff.mp hlen
    rw [emitReconstructBody]
    exact emitReconstructInt_gives ofType_i_iff x
  | .array inner size, n, hn, hbound, fields, hlen => by
    obtain ⟨width, hwidth, rfl⟩ := Option.map_eq_some_iff.mp hn
    refine emitReconstructArray_gives hwidth hlen hbound fun hpos children hchildren => ?_
    have hle : width ≤ 2 ^ 32 := (Nat.le_mul_of_pos_right width hpos).trans hbound
    exact emitReconstructBody_gives hwidth hle hchildren
  | .tuple ts, n, hn, hbound, fields, hlen => by
    intro s v s'
    have helements : ∀ vs s', emitReconstructElements ts (fieldArray fields) 0 s = some (vs, s') ↔
        s' = s ∧ OfTypes ts vs ∧ flattenAll vs = fields :=
      emitReconstructElements_iff hn (by simpa using hbound) (by simpa using hlen) s
    rw [emitReconstructBody, bind_eq_some]
    constructor
    · rintro ⟨vs, t, hvs, hpure⟩
      obtain ⟨rfl, rfl⟩ := Prod.mk.inj (pure_eq_some.mp hpure)
      exact (helements vs s').mp hvs
    · rintro ⟨rfl, htype, hflat⟩
      cases v with
      | scalar x => exact htype.elim
      | seq vs => exact ⟨vs, s', (helements vs s').mpr ⟨rfl, htype, hflat⟩, rfl⟩
  | .witnessOf inner, n, hn, hbound, fields, hlen => by
    intro s v s'
    rw [flattenedFieldCount] at hn
    have hinner := emitReconstructBody_gives hn hbound hlen s v s'
    rw [OfType, ← hinner, emitReconstructBody, bind_eq_some]
    constructor
    · rintro ⟨u, t, hu, hcast⟩
      obtain ⟨rfl, rfl⟩ := Prod.mk.inj (pure_eq_some.mp hcast)
      exact hu
    · intro h
      exact ⟨v, s', h, rfl⟩

theorem emitReconstructElements_iff : ∀ {ts : List TypeExpr} {n offset : Nat},
    flattenedFieldCounts ts = some n → offset + n ≤ 2 ^ 32 → ∀ {fields : List Fr},
      fields.length = offset + n → ∀ (s : σ) (vs : List Val) (s' : σ),
        emitReconstructElements ts (fieldArray fields) offset s = some (vs, s') ↔
          s' = s ∧ OfTypes ts vs ∧ flattenAll vs = fields.drop offset
  | [], n, offset, hn, _, fields, hlen, s, vs, s' => by
    obtain rfl : 0 = n := Option.some.inj hn
    rw [emitReconstructElements, pure_eq_some, Prod.mk.injEq, List.drop_eq_nil_of_le (by omega)]
    constructor
    · rintro ⟨rfl, rfl⟩
      exact ⟨rfl, trivial, rfl⟩
    · rintro ⟨rfl, htype, -⟩
      cases vs with
      | nil => exact ⟨rfl, rfl⟩
      | cons v vs => exact htype.elim
  | t :: ts, n, offset, hn, hbound, fields, hlen, s, vs, s' => by
    obtain ⟨width, hwidth, hn⟩ := Option.bind_eq_some_iff.mp hn
    obtain ⟨k, hk, rfl⟩ := Option.map_eq_some_iff.mp hn
    have hinput : emitReconstructChildInputArray (fieldArray fields) offset width s
        = some (fieldArray ((fields.drop offset).take width), s) :=
      emitReconstructChildInputArray_eq (by omega) (by omega)
    have hchild : ((fields.drop offset).take width).length = width := by
      rw [List.length_take, List.length_drop]
      omega
    have hbody := emitReconstructBody_gives hwidth (by omega) hchild s
    have hrest : ∀ us s', emitReconstructElements ts (fieldArray fields) (offset + width) s
        = some (us, s') ↔ s' = s ∧ OfTypes ts us ∧ flattenAll us = fields.drop (offset + width) :=
      emitReconstructElements_iff hk (by omega) (by omega) s
    rw [emitReconstructElements, fieldCount_bind hwidth]
    constructor
    · intro h
      obtain ⟨input, s₁, hi, hrun⟩ := bind_eq_some.mp h
      rw [hinput, Option.some.injEq, Prod.mk.injEq] at hi
      obtain ⟨rfl, rfl⟩ := hi
      obtain ⟨v, s₂, hv, hafter⟩ := bind_eq_some.mp hrun
      obtain ⟨rfl, htype, hflat⟩ := (hbody v s₂).mp hv
      obtain ⟨us, s₃, hus, hpure⟩ := bind_eq_some.mp hafter
      obtain ⟨rfl, htypes, hflats⟩ := (hrest us s₃).mp hus
      obtain ⟨rfl, rfl⟩ := Prod.mk.inj (pure_eq_some.mp hpure)
      refine ⟨rfl, ⟨htype, htypes⟩, ?_⟩
      rw [flattenAll, hflat, hflats, ← List.drop_drop, List.take_append_drop]
    · rintro ⟨rfl, htypes, hflat⟩
      cases vs with
      | nil => exact htypes.elim
      | cons v us =>
        have hv : flatten v = (fields.drop offset).take width := by
          rw [← hflat, flattenAll, List.take_left' (htypes.1.length hwidth)]
        have hus : flattenAll us = fields.drop (offset + width) := by
          rw [← List.drop_drop, ← hflat, flattenAll, List.drop_left' (htypes.1.length hwidth)]
        exact bind_eq_some.mpr ⟨_, s', hinput, bind_eq_some.mpr ⟨v, s',
          (hbody v s').mpr ⟨rfl, htypes.1, hv⟩, bind_eq_some.mpr ⟨us, s',
            (hrest us s').mpr ⟨rfl, htypes.2, hus⟩, rfl⟩⟩⟩

end

end Bodies

end Mavros.PrepareEntryPoint
