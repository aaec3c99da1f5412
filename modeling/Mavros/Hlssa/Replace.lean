/-
# `Mavros.Hlssa.Replace` — value replacements

`ValueReplacements` is the map from replaced to replacing values that several
passes sweep over a function.  A lookup follows chains of replacements; on a cycle
it panics, here `none`.

## What is proved

* `getReplacement_flat`, `apply_flat`: in a map where no replacing value is itself replaced a
  lookup is one step, and the sweep of an instruction is a renaming.
* `getReplacement_eq_some_iff`: for any map, a lookup gives a value exactly when the chain ends
  in it.  The fuel is one more than the length of the map, and a chain that ends is no longer.
* `getReplacement_of_two`: a chain of two links is followed to its end.

## How it goes

`next` is one link.  A chain that does not end within as many links as the map has entries has
come to some key twice and does not end at all, so the fuel costs nothing.
-/
import Mavros.Hlssa.Syntax

namespace Mavros.Hlssa

abbrev ValueReplacements := List (ValueId × ValueId)

namespace ValueReplacements

def insert (r : ValueReplacements) (replaced replacement : ValueId) : ValueReplacements :=
  (replaced, replacement) :: r.filter (·.1 ≠ replaced)

/-- The loop of `get_replacement`, which gives up after `fuel` rounds. -/
def follow (r : ValueReplacements) : Nat → ValueId → Option ValueId
  | 0, _ => none
  | fuel + 1, current =>
    match r.lookup current with
    | some next => if next ≠ current then r.follow fuel next else some current
    | none => some current

def getReplacement (r : ValueReplacements) (value : ValueId) : Option ValueId :=
  r.follow (r.length + 1) value

/-- `get_replacement` where it does not panic. -/
def apply (r : ValueReplacements) (value : ValueId) : ValueId :=
  (r.getReplacement value).getD value

def replaceInputs (r : ValueReplacements) (op : OpCode) : Option OpCode :=
  if ∀ v ∈ op.inputs, (r.getReplacement v).isSome then some (op.mapInputs r.apply) else none

/-- `replace_instruction`. -/
def replaceInstruction (r : ValueReplacements) (op : OpCode) : Option OpCode :=
  if ∀ v ∈ op.inputs ++ op.results, (r.getReplacement v).isSome then
    some (op.mapOperands r.apply)
  else none

def replaceTerminator (r : ValueReplacements) (t : Terminator) : Option Terminator :=
  if ∀ v ∈ t.inputs, (r.getReplacement v).isSome then some (t.map r.apply) else none

/-! ## Replacements without chains

Passes that introduce fresh values on the right never build a chain, and there a
lookup is one step. -/

/-- No replacing value is itself replaced. -/
def Flat (r : ValueReplacements) : Prop := ∀ p ∈ r, r.lookup p.2 = none

theorem lookup_eq_some_mem {r : ValueReplacements} {v w : ValueId} (h : r.lookup v = some w) :
    (v, w) ∈ r := by
  induction r with
  | nil => simp at h
  | cons p r ih =>
    obtain ⟨a, b⟩ := p
    rw [List.lookup_cons] at h
    by_cases hv : v = a
    · subst hv
      simp at h
      simp [h]
    · have hb : (v == a) = false := by simpa using hv
      simp only [hb] at h
      exact List.mem_cons_of_mem _ (ih h)

theorem getReplacement_flat {r : ValueReplacements} (h : r.Flat) (v : ValueId) :
    r.getReplacement v = some ((r.lookup v).getD v) := by
  unfold getReplacement
  cases hr : r.lookup v with
  | none => simp [follow, hr]
  | some w =>
    have hw : r.lookup w = none := h _ (lookup_eq_some_mem hr)
    have hlen : 0 < r.length := List.length_pos_of_mem (lookup_eq_some_mem hr)
    obtain ⟨n, hn⟩ : ∃ n, r.length = n + 1 := ⟨r.length - 1, by omega⟩
    by_cases hvw : w = v
    · simp [follow, hr, hvw]
    · simp [follow, hr, hvw, hn, hw]

@[simp]
theorem apply_flat {r : ValueReplacements} (h : r.Flat) (v : ValueId) :
    r.apply v = (r.lookup v).getD v := by
  simp [apply, getReplacement_flat h]

theorem replaceInstruction_flat {r : ValueReplacements} (h : r.Flat) (op : OpCode) :
    r.replaceInstruction op = some (op.mapOperands r.apply) := by
  simp [replaceInstruction, getReplacement_flat h]

theorem replaceTerminator_flat {r : ValueReplacements} (h : r.Flat) (t : Terminator) :
    r.replaceTerminator t = some (t.map r.apply) := by
  simp [replaceTerminator, getReplacement_flat h]

theorem lookup_filter_ne {r : ValueReplacements} {a v : ValueId} (hv : v ≠ a) :
    (r.filter (·.1 ≠ a)).lookup v = r.lookup v := by
  induction r with
  | nil => rfl
  | cons p r ih =>
    obtain ⟨x, y⟩ := p
    by_cases hx : x = a
    · have hvx : (v == x) = false := by simpa [hx] using hv
      rw [List.filter_cons_of_neg (by simp [hx]), ih, List.lookup_cons, hvx]
    · rw [List.filter_cons_of_pos (by simp [hx]), List.lookup_cons, List.lookup_cons, ih]

theorem lookup_insert (r : ValueReplacements) (a b v : ValueId) :
    (r.insert a b).lookup v = if v = a then some b else r.lookup v := by
  unfold insert
  rw [List.lookup_cons]
  by_cases hv : v = a
  · simp [hv]
  · have hb : (v == a) = false := by simpa using hv
    simp only [hb, if_neg hv]
    exact lookup_filter_ne hv

theorem Flat.insert {r : ValueReplacements} (h : r.Flat) {a b : ValueId}
    (hb : r.lookup b = none) (hab : a ≠ b) (ha : ∀ p ∈ r, p.2 ≠ a) : (r.insert a b).Flat := by
  intro p hp
  rw [lookup_insert]
  rcases List.mem_cons.mp hp with rfl | hp
  · simp [hb, Ne.symm hab]
  · have hp := (List.mem_filter.mp hp).1
    simp [ha p hp, h p hp]

/-! ## Chains

A pass that replaces the operand of a replaced value builds them.
-/

/-- One link of a chain. -/
def next (r : ValueReplacements) (v : ValueId) : ValueId := (r.lookup v).getD v

theorem follow_of_next_eq {r : ValueReplacements} {v : ValueId} (h : r.next v = v) (n : Nat) :
    r.follow (n + 1) v = some v := by
  unfold next at h
  unfold follow
  cases hv : r.lookup v with
  | none => rfl
  | some w =>
    rw [hv] at h
    simp [show w = v from h]

theorem follow_of_next_ne {r : ValueReplacements} {v : ValueId} (h : r.next v ≠ v) (n : Nat) :
    r.follow (n + 1) v = r.follow n (r.next v) := by
  unfold next at h ⊢
  rw [follow]
  cases hv : r.lookup v with
  | none => exact absurd (by rw [hv]; rfl) h
  | some w =>
    rw [hv] at h
    simp [show w ≠ v from h]

theorem mem_keys_of_next_ne {r : ValueReplacements} {v : ValueId} (h : r.next v ≠ v) :
    v ∈ r.map Prod.fst := by
  unfold next at h
  cases hv : r.lookup v with
  | none => exact absurd (by rw [hv]; rfl) h
  | some w => exact List.mem_map_of_mem (f := Prod.fst) (lookup_eq_some_mem hv)

theorem follow_eq_some {r : ValueReplacements} {fuel : Nat} {v w : ValueId}
    (h : r.follow fuel v = some w) : r.next w = w ∧ ∃ n, r.next^[n] v = w := by
  induction fuel generalizing v with
  | zero => simp [follow] at h
  | succ fuel ih =>
    by_cases hv : r.next v = v
    · rw [follow_of_next_eq hv] at h
      obtain rfl := Option.some.inj h
      exact ⟨hv, 0, rfl⟩
    · rw [follow_of_next_ne hv] at h
      obtain ⟨hw, n, hn⟩ := ih h
      exact ⟨hw, n + 1, by rw [Function.iterate_succ_apply, hn]⟩

theorem follow_iterate {r : ValueReplacements} {n : Nat} {v : ValueId}
    (hne : ∀ i < n, r.next (r.next^[i] v) ≠ r.next^[i] v)
    (hend : r.next (r.next^[n] v) = r.next^[n] v) {fuel : Nat} (hfuel : n < fuel) :
    r.follow fuel v = some (r.next^[n] v) := by
  induction n generalizing v fuel with
  | zero =>
    obtain ⟨m, rfl⟩ := Nat.exists_eq_add_of_lt hfuel
    rw [Nat.zero_add]
    exact follow_of_next_eq hend m
  | succ n ih =>
    obtain ⟨m, rfl⟩ : ∃ m, fuel = m + 1 := ⟨fuel - 1, by omega⟩
    have hv : r.next v ≠ v := hne 0 (Nat.succ_pos n)
    rw [follow_of_next_ne hv]
    exact ih (fun i hi => hne (i + 1) (Nat.succ_lt_succ hi)) hend (Nat.lt_of_succ_lt_succ hfuel)

/-- A lookup gives the end of the chain: `getReplacement` has fuel for every chain that
ends. -/
theorem getReplacement_eq_some_iff {r : ValueReplacements} {v w : ValueId} :
    r.getReplacement v = some w ↔ r.next w = w ∧ ∃ n, r.next^[n] v = w := by
  constructor
  · exact follow_eq_some
  · rintro ⟨hw, hn⟩
    -- the shortest way to the end goes through different keys
    obtain ⟨n, hend, hmin⟩ : ∃ n, r.next^[n] v = w ∧ ∀ i < n, r.next^[i] v ≠ w :=
      ⟨Nat.find hn, Nat.find_spec hn, fun i hi => Nat.find_min hn hi⟩
    have hstay : ∀ {i}, r.next (r.next^[i] v) = r.next^[i] v → ∀ j, i ≤ j →
        r.next^[j] v = r.next^[i] v := by
      intro i hi j hij
      obtain ⟨k, rfl⟩ := Nat.exists_eq_add_of_le hij
      rw [Nat.add_comm, Function.iterate_add_apply]
      exact Function.iterate_fixed hi k
    have hne : ∀ i < n, r.next (r.next^[i] v) ≠ r.next^[i] v := fun i hi heq =>
      hmin i hi ((hstay heq n hi.le).symm.trans hend)
    have hinj : ∀ i j, i < j → j < n → r.next^[i] v ≠ r.next^[j] v := by
      intro i j hij hjn heq
      obtain ⟨k, rfl⟩ := Nat.exists_eq_add_of_le hjn.le
      refine hmin (k + i) (by omega) ?_
      rw [Function.iterate_add_apply, heq, ← Function.iterate_add_apply, Nat.add_comm, hend]
    have hnodup : ((List.range n).map fun i => r.next^[i] v).Nodup := by
      refine List.Nodup.map_on (fun i hi j hj heq => ?_) List.nodup_range
      rw [List.mem_range] at hi hj
      rcases Nat.lt_trichotomy i j with h | h | h
      · exact absurd heq (hinj i j h hj)
      · exact h
      · exact absurd heq.symm (hinj j i h hi)
    have hsub : ((List.range n).map fun i => r.next^[i] v) ⊆ r.map Prod.fst := by
      intro u hu
      obtain ⟨i, hi, rfl⟩ := List.mem_map.mp hu
      exact mem_keys_of_next_ne (hne i (List.mem_range.mp hi))
    have hlen : n ≤ r.length := by simpa using (hnodup.subperm hsub).length_le
    rw [← hend]
    exact follow_iterate hne (by rw [hend, hw]) (Nat.lt_succ_of_le hlen)

/-- A chain that ends after two links is followed to its end. -/
theorem getReplacement_of_two {r : ValueReplacements} {v : ValueId}
    (h : r.next (r.next (r.next v)) = r.next (r.next v)) :
    r.getReplacement v = some (r.next (r.next v)) :=
  getReplacement_eq_some_iff.mpr ⟨h, 2, rfl⟩

end ValueReplacements

end Mavros.Hlssa
