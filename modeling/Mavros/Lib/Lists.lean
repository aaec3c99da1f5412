/-
# `Mavros.Lib.Lists` — partial maps over lists

`mapM` in `Option` succeeds exactly when every element does; the results are then
related to the elements one by one.

## What is proved

* `mapM_eq_some` turns a successful `mapM` into `List.Forall₂`, and `mapM_of_forall₂` and
  `mapM_forall₂` turn it back, for the list itself and for a related one.  A simulation between
  two machines that load lists of operands goes through these.
* `getElem?_flatMap` and `getElem?_flatMap_range` find an element in a concatenation, by the
  length of the blocks before its own; `exists_of_getElem?_flatMap` goes the other way.
* `lookup_forall₂`, `lookup_map_if`: association lists with the same keys.
* `foldlM_of_some`: a loop whose reads all succeed is the loop over what it read.
-/
import Mathlib.Tactic

namespace Mavros.Lib

variable {α β γ : Type}

theorem mapM_eq_some {f : α → Option β} {xs : List α} {ys : List β} :
    xs.mapM f = some ys ↔ List.Forall₂ (fun x y => f x = some y) xs ys := by
  induction xs generalizing ys with
  | nil => simp [List.forall₂_nil_left_iff, eq_comm]
  | cons x xs ih =>
      simp only [List.mapM_cons, Option.bind_eq_bind, Option.bind_eq_some_iff, Option.pure_def,
        Option.some.injEq, List.forall₂_cons_left_iff]
      constructor
      · rintro ⟨y, hy, ys', hys, rfl⟩
        exact ⟨y, ys', hy, ih.mp hys, rfl⟩
      · rintro ⟨y, ys', hy, hys, rfl⟩
        exact ⟨y, hy, ys', ih.mpr hys, rfl⟩

theorem mapM_length {f : α → Option β} {xs : List α} {ys : List β} (h : xs.mapM f = some ys) :
    ys.length = xs.length :=
  (mapM_eq_some.mp h).length_eq.symm

/-- Every element on the left is related to one on the right. -/
theorem exists_right_of_forall₂ {R : α → β → Prop} {xs : List α} {ys : List β}
    (h : List.Forall₂ R xs ys) {x : α} (hx : x ∈ xs) : ∃ y ∈ ys, R x y := by
  induction h with
  | nil => simp at hx
  | cons hxy _ ih =>
    rcases List.mem_cons.mp hx with rfl | hx
    · exact ⟨_, List.mem_cons_self, hxy⟩
    · obtain ⟨y, hy, hrel⟩ := ih hx
      exact ⟨y, List.mem_cons_of_mem _ hy, hrel⟩

theorem exists_left_of_forall₂ {R : α → β → Prop} {xs : List α} {ys : List β}
    (h : List.Forall₂ R xs ys) {y : β} (hy : y ∈ ys) : ∃ x ∈ xs, R x y :=
  exists_right_of_forall₂ h.flip hy

/-- Every element has its result among the results. -/
theorem exists_mem_of_mapM {f : α → Option β} {xs : List α} {ys : List β}
    (h : xs.mapM f = some ys) {x : α} (hx : x ∈ xs) : ∃ y ∈ ys, f x = some y :=
  exists_right_of_forall₂ (mapM_eq_some.mp h) hx

theorem exists_mapM {f : α → Option β} {xs : List α} (hxs : ∀ x ∈ xs, ∃ y, f x = some y) :
    ∃ ys, xs.mapM f = some ys := by
  induction xs with
  | nil => exact ⟨[], rfl⟩
  | cons x xs ih =>
    rw [List.forall_mem_cons] at hxs
    obtain ⟨y, hy⟩ := hxs.1
    obtain ⟨ys, hys⟩ := ih hxs.2
    exact ⟨y :: ys, by simp [hy, hys]⟩

/-- Over related lists the second `mapM` succeeds where the first did. -/
theorem mapM_of_forall₂ (R : α → β → Prop) (f : β → Option γ) (g : α → γ) (xs : List α)
    {ys : List β} (h : List.Forall₂ R xs ys) (hf : ∀ x y, R x y → f y = some (g x)) :
    ys.mapM f = some (xs.map g) := by
  induction h with
  | nil => rfl
  | cons hxy _ ih => simp [List.mapM_cons, hf _ _ hxy, ih]

/-- Where every related pair decides a property of its left element, the lists are related
exactly when all left elements have it. -/
theorem forall₂_iff_forall_mem {R : α → β → Prop} {p : α → Prop} {xs : List α} {ys : List β}
    (h : List.Forall₂ (fun x y => R x y ↔ p x) xs ys) : List.Forall₂ R xs ys ↔ ∀ x ∈ xs, p x := by
  induction h with
  | nil => simp
  | cons hxy _ ih => simp [List.forall₂_cons, hxy, ih]

/-- What relates the places of a list to its elements. -/
theorem forall₂_range {R : Nat → α → Prop} {n : Nat} {xs : List α}
    (h : List.Forall₂ R (List.range n) xs) :
    xs.length = n ∧ ∀ {i : Nat} (hi : i < xs.length), R i xs[i] := by
  have hlen : xs.length = n := by rw [← h.length_eq, List.length_range]
  refine ⟨hlen, fun {i} hi => ?_⟩
  simpa using (List.forall₂_iff_get.mp h).2 i (by simpa [← hlen] using hi) hi

/-! ## Blocks

A list that is written block by block, and what stands at a place of it.
-/

/-- An element of a concatenation of blocks, found by the blocks before its own. -/
theorem getElem?_flatMap {f : α → List β} : ∀ {xs : List α} {k : Nat} {x : α}, xs[k]? = some x →
    ∀ {i : Nat}, i < (f x).length →
      (xs.flatMap f)[((xs.take k).flatMap f).length + i]? = (f x)[i]? := by
  intro xs
  induction xs with
  | nil => intro k x hk; simp at hk
  | cons a xs ih =>
      intro k x hk i hi
      cases k with
      | zero =>
          obtain rfl : a = x := by simpa using hk
          simpa using List.getElem?_append_left hi
      | succ k =>
          have hk' : xs[k]? = some x := by simpa using hk
          rw [List.take_succ_cons, List.flatMap_cons, List.flatMap_cons, List.length_append,
            Nat.add_assoc, List.getElem?_append_right (Nat.le_add_right _ _),
            Nat.add_sub_cancel_left]
          exact ih hk' hi

/-- Every element of a concatenation is in a block. -/
theorem exists_of_getElem?_flatMap {f : α → List β} : ∀ {xs : List α} {j : Nat} {y : β},
    (xs.flatMap f)[j]? = some y →
      ∃ k x i, xs[k]? = some x ∧ (f x)[i]? = some y ∧
        j = ((xs.take k).flatMap f).length + i := by
  intro xs
  induction xs with
  | nil => intro j y h; simp at h
  | cons x xs ih =>
      intro j y h
      rw [List.flatMap_cons] at h
      by_cases hj : j < (f x).length
      · rw [List.getElem?_append_left hj] at h
        exact ⟨0, x, j, rfl, h, by simp⟩
      · have hj := Nat.le_of_not_lt hj
        rw [List.getElem?_append_right hj] at h
        obtain ⟨k, x', i, hk, hi, heq⟩ := ih h
        refine ⟨k + 1, x', i, by simpa using hk, hi, ?_⟩
        rw [List.take_succ_cons, List.flatMap_cons, List.length_append]
        omega

/-- The number of elements in the first blocks of one size. -/
theorem length_flatMap_take_range {f : Nat → List β} {m n k : Nat} (hf : ∀ k, (f k).length = m)
    (hk : k ≤ n) : (((List.range n).take k).flatMap f).length = m * k := by
  have hconst : ((List.range n).take k).map (List.length ∘ f) = List.replicate k m := by
    rw [List.eq_replicate_iff]
    refine ⟨by simp [Nat.min_eq_left hk], fun b hb => ?_⟩
    obtain ⟨j, -, rfl⟩ := List.mem_map.mp hb
    exact hf j
  rw [List.length_flatMap]
  exact (congrArg List.sum hconst).trans (by simp [Nat.mul_comm])

/-- Blocks of one size, numbered. -/
theorem getElem?_flatMap_range {f : Nat → List β} {m n : Nat} (hf : ∀ k, (f k).length = m)
    {k : Nat} (hk : k < n) {i : Nat} (hi : i < m) :
    ((List.range n).flatMap f)[m * k + i]? = (f k)[i]? := by
  have h := getElem?_flatMap (f := f) (List.getElem?_range hk) (i := i) (by rw [hf]; exact hi)
  rwa [length_flatMap_take_range hf (Nat.le_of_lt hk)] at h

theorem exists_of_getElem?_flatMap_range {f : Nat → List β} {m n : Nat}
    (hf : ∀ k, (f k).length = m) {j : Nat} {y : β}
    (h : ((List.range n).flatMap f)[j]? = some y) :
    ∃ k i, k < n ∧ (f k)[i]? = some y ∧ j = m * k + i := by
  obtain ⟨k, x, i, hk, hi, rfl⟩ := exists_of_getElem?_flatMap h
  obtain ⟨hlt, rfl⟩ := List.getElem?_eq_some_iff.mp hk
  rw [List.length_range] at hlt
  rw [List.getElem_range] at hi
  exact ⟨k, i, hlt, hi, by rw [length_flatMap_take_range hf (Nat.le_of_lt hlt)]⟩

/-- A sum over a range with one more summand. -/
theorem sum_map_range_update {M : Type} [AddCommMonoid M] (f : Nat → M) (c : M) :
    ∀ {n i₀ : Nat}, i₀ < n →
      ((List.range n).map fun i => f i + if i₀ = i then c else 0).sum
        = c + ((List.range n).map f).sum := by
  intro n
  induction n with
  | zero => intro i₀ h; exact absurd h (Nat.not_lt_zero i₀)
  | succ n ih =>
      intro i₀ h
      rw [List.range_succ, List.map_append, List.map_append, List.sum_append, List.sum_append]
      simp only [List.map_cons, List.map_nil, List.sum_cons, List.sum_nil, add_zero]
      rcases Nat.lt_succ_iff_lt_or_eq.mp h with hlt | rfl
      · rw [ih hlt, if_neg (Nat.ne_of_lt hlt), add_zero, add_assoc]
      · have hrest : ((List.range i₀).map fun i => f i + if i₀ = i then c else 0)
            = (List.range i₀).map f := by
          refine List.map_congr_left fun i hi => ?_
          rw [if_neg (Nat.ne_of_gt (List.mem_range.mp hi)), add_zero]
        rw [hrest, if_pos rfl, add_comm (f i₀) c, add_left_comm]

theorem mem_of_lookup_eq_some [BEq α] [LawfulBEq α] {l : List (α × β)} {k : α} {v : β}
    (h : l.lookup k = some v) : (k, v) ∈ l := by
  obtain ⟨l₁, l₂, rfl, -⟩ := List.lookup_eq_some_iff.mp h
  simp

theorem lookup_of_mem [BEq α] [LawfulBEq α] {l : List (α × β)} {k : α} {v : β}
    (hkeys : (l.map Prod.fst).Nodup) (h : (k, v) ∈ l) : l.lookup k = some v := by
  induction l with
  | nil => simp at h
  | cons p l ih =>
      obtain ⟨a, b⟩ := p
      simp only [List.map_cons, List.nodup_cons] at hkeys
      rcases List.mem_cons.mp h with heq | hl
      · obtain ⟨rfl, rfl⟩ := Prod.mk.inj heq
        simp
      · have hne : k ≠ a := by
          rintro rfl
          exact hkeys.1 (List.mem_map_of_mem (f := Prod.fst) hl)
        rw [List.lookup_cons, beq_false_of_ne hne]
        exact ih hkeys.2 hl

/-- Lookups in lists with the same keys. -/
theorem lookup_forall₂ [BEq α] [LawfulBEq α] {R : α × β → α × γ → Prop} {l : List (α × β)}
    {l' : List (α × γ)} (h : List.Forall₂ (fun p q => q.1 = p.1 ∧ R p q) l l') (k : α) :
    (l.lookup k = none ∧ l'.lookup k = none) ∨
      ∃ x y, l.lookup k = some x ∧ l'.lookup k = some y ∧ R (k, x) (k, y) := by
  induction h with
  | nil => exact .inl ⟨rfl, rfl⟩
  | @cons p q l l' hpq _ ih =>
      obtain ⟨a, x⟩ := p
      obtain ⟨a', y⟩ := q
      obtain ⟨rfl, hR⟩ := hpq
      rw [List.lookup_cons, List.lookup_cons]
      cases hk : k == a' with
      | true =>
          obtain rfl := eq_of_beq hk
          exact .inr ⟨x, y, rfl, rfl, hR⟩
      | false => exact ih

/-- The value of one key is replaced. -/
theorem lookup_map_if {l : List (Nat × β)} {k : Nat} {x : β} (h : l.lookup k = some x)
    (y : β) : (l.map fun b => if b.1 = k then (b.1, y) else b).lookup k = some y := by
  induction l with
  | nil => simp at h
  | cons b l ih =>
    obtain ⟨a, z⟩ := b
    rw [List.lookup_cons] at h
    rw [List.map_cons]
    cases hk : k == a with
    | true =>
      obtain rfl := eq_of_beq hk
      rw [if_pos rfl, List.lookup_cons, hk]
    | false =>
      have hne : a ≠ k := fun heq => by simp [heq] at hk
      rw [hk] at h
      rw [if_neg hne, List.lookup_cons, hk]
      exact ih h

/-! ## Related lists

`List.Forall₂` under the operations that a list of operands goes through.
-/

/-- `mapM` where every element of a related pair gives something related to the other. -/
theorem mapM_forall₂ {R : α → γ → Prop} {Q : β → γ → Prop} {f : α → Option β}
    (step : ∀ a c, R a c → ∃ b, f a = some b ∧ Q b c) {as : List α} {cs : List γ}
    (h : List.Forall₂ R as cs) : ∃ bs, as.mapM f = some bs ∧ List.Forall₂ Q bs cs := by
  induction h with
  | nil => exact ⟨[], rfl, .nil⟩
  | cons hac _ ih =>
    obtain ⟨b, hb, hbc⟩ := step _ _ hac
    obtain ⟨bs, hbs, hrest⟩ := ih
    exact ⟨b :: bs, by simp [hb, hbs], .cons hbc hrest⟩

theorem forall₂_append_split {R : α → β → Prop} {as as' : List α} {bs : List β}
    (h : List.Forall₂ R (as ++ as') bs) : ∃ cs cs', bs = cs ++ cs' ∧ List.Forall₂ R as cs ∧
      List.Forall₂ R as' cs' :=
  ⟨_, _, (List.take_append_drop as.length bs).symm,
    (List.forall₂_take_append bs as as' h.flip).flip,
    (List.forall₂_drop_append bs as as' h.flip).flip⟩

theorem forall₂_congr_left {R R' : α → β → Prop} {as : List α} {bs : List β}
    (h : List.Forall₂ R as bs) (himp : ∀ a ∈ as, ∀ b, R a b → R' a b) : List.Forall₂ R' as bs := by
  induction h with
  | nil => exact .nil
  | cons hab _ ih =>
    rw [List.forall_mem_cons] at himp
    exact .cons (himp.1 _ hab) (ih himp.2)

theorem forall₂_replicate {R : α → β → Prop} {a : α} {b : β} (h : R a b) (n : Nat) :
    List.Forall₂ R (List.replicate n a) (List.replicate n b) := by
  induction n with
  | zero => exact .nil
  | succ n ih => exact .cons h ih

/-! ## Indices -/

theorem zipIdx_eq_map_range (xs : List α) (d : α) :
    xs.zipIdx = (List.range xs.length).map fun i => (xs.getD i d, i) := by
  refine List.ext_getElem (by simp) fun i h₁ h₂ => ?_
  have hi : i < xs.length := by simpa using h₁
  simp [hi]

/-- A loop whose reads all succeed. -/
theorem foldlM_of_some (step : γ → α → β → γ) {load : α → Option β} {value : α → β} :
    ∀ (xs : List α) (c : γ), (∀ x ∈ xs, load x = some (value x)) →
      (xs.foldlM (fun c x => do
        let b ← load x
        return step c x b) c) = some (xs.foldl (fun c x => step c x (value x)) c) := by
  intro xs
  induction xs with
  | nil =>
    intro c _
    rfl
  | cons x xs ih =>
    intro c h
    rw [List.foldlM_cons, h x List.mem_cons_self, List.foldl_cons]
    exact ih _ fun y hy => h y (List.mem_cons_of_mem x hy)

end Mavros.Lib
