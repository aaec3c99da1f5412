/-
# `Mavros.Lib.RefCount` — stores of reference-counted objects

A store is a list of cells, each freed or holding a count and a value, and
`kids` lists the references a value owns.  References are also held outside the
store — by variables, by a work list — and `held p` says how many are held to
`p`.  A store is balanced when every count is the number of references owned by
live values plus the number held.

Nothing here mentions what the values are.  The lemmas say how the counts move:
a reference dropped, an object freed, made, or given another value, and that a
balanced store with nothing held and no cycle is empty.

## What is proved

Each operation of an allocator with reference counts has one lemma, which says which count of
held references makes the new store balanced when the old one was.

| | |
| :-- | :-- |
| `Balanced.inc`, `Balanced.dec` | a reference is copied, or given up while others are left |
| `Balanced.free` | the last reference is given up, and those it owned become held |
| `Balanced.alloc` | a new object takes over references that were held |
| `Balanced.set` | a live object gets another value and count |

`Balanced.get?_of_reachable` is safety: what is reached from a held reference is live.
`Balanced.reachable` is the absence of leaks: where references go down in some rank, every live
object is reached from a held reference, and so nothing is live when nothing is held
(`Balanced.get?_eq_none`).

## What it is not

The order in which a work list frees the objects is not fixed here; references waiting on a
work list are held, like those of variables.
-/
import Mathlib.Tactic

namespace Mavros.Lib

/-- A value with its reference count. -/
structure Counted (α : Type) where
  rc : Nat
  val : α

/-- Cells by address; `none` is a freed cell. -/
abbrev Store (α : Type) := List (Option (Counted α))

variable {α : Type}

/-! ## Sums over a list with one entry replaced

The counts are sums over the cells, and an operation replaces one cell.
-/

theorem sum_map_set {β : Type} (f : β → Nat) :
    ∀ (l : List β) (i : Nat) (a b : β), l[i]? = some a →
      ((l.set i b).map f).sum + f a = (l.map f).sum + f b
  | [], _, _, _, h => by simp at h
  | x :: l, 0, a, b, h => by
      obtain rfl : x = a := by simpa using h
      simp only [List.set_cons_zero, List.map_cons, List.sum_cons]
      omega
  | x :: l, i + 1, a, b, h => by
      have ih := sum_map_set f l i a b (by simpa using h)
      simp only [List.set_cons_succ, List.map_cons, List.sum_cons]
      omega

theorem le_sum_map {β : Type} (f : β → Nat) {l : List β} {a : β} (ha : a ∈ l) :
    f a ≤ (l.map f).sum :=
  List.le_sum_of_mem (List.mem_map_of_mem ha)

namespace Store

/-- The live object at an address. -/
def get? (s : Store α) (p : Nat) : Option (Counted α) := s[p]?.join

theorem get?_eq_some {s : Store α} {p : Nat} {c : Counted α} :
    s.get? p = some c ↔ s[p]? = some (some c) := by
  simp [get?, Option.join_eq_some_iff]

theorem lt_length_of_get? {s : Store α} {p : Nat} {c : Counted α} (h : s.get? p = some c) :
    p < s.length :=
  (List.getElem?_eq_some_iff.mp (get?_eq_some.mp h)).1

theorem get?_set_self {s : Store α} {p : Nat} (hp : p < s.length) (o : Option (Counted α)) :
    get? (s.set p o) p = o := by
  simp [get?, List.getElem?_set_self hp]

theorem get?_set_ne {s : Store α} {p q : Nat} (h : q ≠ p) (o : Option (Counted α)) :
    get? (s.set p o) q = s.get? q := by
  simp [get?, List.getElem?_set_ne (Ne.symm h)]

theorem get?_append_of_some {s : Store α} {p : Nat} {c : Counted α} (h : s.get? p = some c)
    (t : Store α) : get? (s ++ t) p = some c := by
  rw [get?, List.getElem?_append_left (lt_length_of_get? h)]
  exact h

theorem get?_append_ne {s : Store α} {p : Nat} (h : p ≠ s.length) (o : Option (Counted α)) :
    get? (s ++ [o]) p = s.get? p := by
  rcases Nat.lt_or_gt_of_ne h with hlt | hgt
  · rw [get?, List.getElem?_append_left hlt, get?]
  · rw [get?, get?, List.getElem?_eq_none (by simp; omega), List.getElem?_eq_none (by omega)]

theorem get?_append_length (s : Store α) (o : Option (Counted α)) :
    get? (s ++ [o]) s.length = o := by
  simp [get?]

/-- The count at an address; a freed cell counts nothing. -/
def rcOf (s : Store α) (p : Nat) : Nat := (s.get? p).elim 0 Counted.rc

theorem rcOf_eq {s : Store α} {p : Nat} {c : Counted α} (h : s.get? p = some c) :
    s.rcOf p = c.rc := by
  simp [rcOf, h]

theorem rcOf_eq_zero {s : Store α} {p : Nat} (h : s.get? p = none) : s.rcOf p = 0 := by
  simp [rcOf, h]

/-- Every live object is counted at least once. -/
def Positive (s : Store α) : Prop := ∀ p c, s.get? p = some c → 0 < c.rc

theorem Positive.get?_of_rcOf {s : Store α} {p : Nat} (h : 0 < s.rcOf p) :
    ∃ c, s.get? p = some c := by
  cases hc : s.get? p with
  | none => rw [rcOf_eq_zero hc] at h; exact absurd h (Nat.lt_irrefl 0)
  | some c => exact ⟨c, rfl⟩

theorem Positive.set_none {s : Store α} (h : s.Positive) (p : Nat) :
    Positive (s.set p none) := by
  intro q c hc
  by_cases hq : q = p
  · subst hq
    have hlt := lt_length_of_get? hc
    rw [List.length_set] at hlt
    rw [get?_set_self hlt] at hc
    exact absurd hc (by simp)
  · rw [get?_set_ne hq] at hc
    exact h q c hc

theorem Positive.set_some {s : Store α} (h : s.Positive) {p : Nat} {d : Counted α}
    (hd : 0 < d.rc) : Positive (s.set p (some d)) := by
  intro q c hc
  by_cases hq : q = p
  · subst hq
    have hlt := lt_length_of_get? hc
    rw [List.length_set] at hlt
    rw [get?_set_self hlt] at hc
    obtain rfl := Option.some.inj hc
    exact hd
  · rw [get?_set_ne hq] at hc
    exact h q c hc

theorem Positive.append {s : Store α} (h : s.Positive) {d : Counted α} (hd : 0 < d.rc) :
    Positive (s ++ [some d]) := by
  intro q c hc
  by_cases hq : q = s.length
  · subst hq
    rw [get?_append_length] at hc
    obtain rfl := Option.some.inj hc
    exact hd
  · rw [get?_append_ne hq] at hc
    exact h q c hc

/-- The sum of all counts. -/
def totalRc (s : Store α) : Nat := (s.map fun o => o.elim 0 Counted.rc).sum

theorem totalRc_set {s : Store α} {p : Nat} {c : Counted α} (h : s.get? p = some c)
    (o : Option (Counted α)) :
    totalRc (s.set p o) + c.rc = s.totalRc + o.elim 0 Counted.rc :=
  sum_map_set (fun o : Option (Counted α) => o.elim 0 Counted.rc) s p (some c) o
    (get?_eq_some.mp h)

theorem rc_le_totalRc {s : Store α} {p : Nat} {c : Counted α} (h : s.get? p = some c) :
    c.rc ≤ s.totalRc :=
  le_sum_map (fun o : Option (Counted α) => o.elim 0 Counted.rc)
    (List.mem_of_getElem? (get?_eq_some.mp h))

/-! ## Sums over the live objects

`sumLive` is what is counted about a store: references to an address, or anything a machine
wants to bound while it walks through the objects.
-/

section Sum

variable {M : Type} [AddCommMonoid M]

/-- The sum of `f` over the live objects, which `f` may tell apart by address. -/
def sumLive (f : Nat → α → M) (s : Store α) : M :=
  ∑ p ∈ Finset.range s.length, (s.get? p).elim 0 fun c => f p c.val

theorem sumLive_set (f : Nat → α → M) {s : Store α} {p : Nat} {c : Counted α}
    (h : s.get? p = some c) (o : Option (Counted α)) :
    sumLive f (s.set p o) + f p c.val = sumLive f s + o.elim 0 fun d => f p d.val := by
  have hp : p ∈ Finset.range s.length := Finset.mem_range.mpr (lt_length_of_get? h)
  have hrest : ∀ q ∈ (Finset.range s.length).erase p,
      ((get? (s.set p o) q).elim 0 fun d => f q d.val)
        = (s.get? q).elim 0 fun d => f q d.val := by
    intro q hq
    rw [get?_set_ne (Finset.ne_of_mem_erase hq)]
  unfold sumLive
  rw [List.length_set, ← Finset.add_sum_erase _ _ hp, ← Finset.add_sum_erase _ _ hp,
    Finset.sum_congr rfl hrest, get?_set_self (lt_length_of_get? h), h]
  simp only [Option.elim_some]
  exact add_right_comm _ _ _ |>.trans (by rw [add_comm (Option.elim o 0 _), add_right_comm])

theorem sumLive_append (f : Nat → α → M) (s : Store α) (c : Counted α) :
    sumLive f (s ++ [some c]) = sumLive f s + f s.length c.val := by
  unfold sumLive
  rw [List.length_append, List.length_singleton, Finset.sum_range_succ,
    get?_append_length, Option.elim_some]
  congr 1
  refine Finset.sum_congr rfl fun q hq => ?_
  rw [get?_append_ne (Nat.ne_of_lt (Finset.mem_range.mp hq))]

theorem sumLive_congr {f f' : Nat → α → M} {s : Store α}
    (h : ∀ p c, s.get? p = some c → f p c.val = f' p c.val) :
    sumLive f s = sumLive f' s := by
  refine Finset.sum_congr rfl fun p _ => ?_
  cases hc : s.get? p with
  | none => rfl
  | some c => exact h p c hc

theorem sumLive_eq_zero {f : Nat → α → M} {s : Store α} (h : ∀ p, s.get? p = none) :
    sumLive f s = 0 :=
  Finset.sum_eq_zero fun p _ => by rw [h p]; rfl

end Sum

/-- The number of addresses of smaller rank: it bounds how deep references can be followed
when they go down in rank. -/
def below (rank : Nat → Nat) (s : Store α) (p : Nat) : Nat :=
  ((Finset.range s.length).filter fun q => rank q < rank p).card

theorem below_lt_below {rank : Nat → Nat} {s : Store α} {p q : Nat} (hq : q < s.length)
    (h : rank q < rank p) : below rank s q < below rank s p := by
  refine Finset.card_lt_card ⟨fun r hr => ?_, fun hsub => ?_⟩
  · obtain ⟨hr, hlt⟩ := Finset.mem_filter.mp hr
    exact Finset.mem_filter.mpr ⟨hr, Nat.lt_trans hlt h⟩
  · have hmem := hsub (Finset.mem_filter.mpr ⟨Finset.mem_range.mpr hq, h⟩)
    exact Nat.lt_irrefl _ (Finset.mem_filter.mp hmem).2

theorem below_lt_length (rank : Nat → Nat) {s : Store α} {p : Nat} (hp : p < s.length) :
    below rank s p < s.length := by
  refine (Finset.card_lt_card (t := Finset.range s.length) ⟨Finset.filter_subset _ _, ?_⟩).trans_le
    (Nat.le_of_eq (Finset.card_range _))
  intro hsub
  exact Nat.lt_irrefl _ (Finset.mem_filter.mp (hsub (Finset.mem_range.mpr hp))).2

section Balance

variable (kids : α → List Nat)

/-- The references to `q` owned by one cell. -/
def cellRefs (o : Option (Counted α)) (q : Nat) : Nat :=
  o.elim 0 fun c => (kids c.val).count q

/-- The references to `q` owned by live objects. -/
def refs (s : Store α) (q : Nat) : Nat := (s.map fun o => cellRefs kids o q).sum

theorem refs_set {s : Store α} {p : Nat} {c : Counted α} (h : s.get? p = some c)
    (o : Option (Counted α)) (q : Nat) :
    refs kids (s.set p o) q + (kids c.val).count q = refs kids s q + cellRefs kids o q :=
  sum_map_set (fun o => cellRefs kids o q) s p (some c) o (get?_eq_some.mp h)

theorem count_le_refs {s : Store α} {p : Nat} {c : Counted α} (h : s.get? p = some c)
    (q : Nat) : (kids c.val).count q ≤ refs kids s q :=
  le_sum_map (fun o => cellRefs kids o q) (List.mem_of_getElem? (get?_eq_some.mp h))

/-- A reference from somewhere in the store comes from a live object. -/
theorem exists_of_refs_pos {s : Store α} {q : Nat} (h : 0 < refs kids s q) :
    ∃ p c, s.get? p = some c ∧ q ∈ kids c.val := by
  obtain ⟨n, hn, hpos⟩ := List.exists_mem_ne_zero_of_sum_ne_zero (Nat.pos_iff_ne_zero.mp h)
  obtain ⟨o, ho, rfl⟩ := List.mem_map.mp hn
  obtain ⟨p, hp, rfl⟩ := List.getElem_of_mem ho
  cases hc : s[p] with
  | none => simp [cellRefs, hc] at hpos
  | some c =>
      refine ⟨p, c, get?_eq_some.mpr (by rw [List.getElem?_eq_getElem hp, hc]), ?_⟩
      rw [hc] at hpos
      exact List.count_pos_iff.mp (Nat.pos_iff_ne_zero.mpr hpos)

/-- Every count is the references owned plus the references held. -/
def Balanced (s : Store α) (held : Nat → Nat) : Prop :=
  ∀ p, s.rcOf p = refs kids s p + held p

variable {kids}

theorem Balanced.get?_of_held {s : Store α} {held : Nat → Nat} (hb : Balanced kids s held)
    {p : Nat} (h : 0 < held p) : ∃ c, s.get? p = some c :=
  Positive.get?_of_rcOf (by rw [hb p]; omega)

theorem Balanced.get?_of_mem_kids {s : Store α} {held : Nat → Nat}
    (hb : Balanced kids s held) {p q : Nat} {c : Counted α} (hc : s.get? p = some c)
    (hq : q ∈ kids c.val) : ∃ d, s.get? q = some d := by
  have hpos : 0 < (kids c.val).count q := List.count_pos_iff.mpr hq
  have hle := count_le_refs kids hc q
  exact Positive.get?_of_rcOf (by rw [hb q]; omega)

/-- An object whose only reference is held outside is nobody's child. -/
theorem Balanced.not_mem_kids {s : Store α} {held : Nat → Nat} (hb : Balanced kids s held)
    {p q : Nat} {c : Counted α} (hrc : s.rcOf p = 1) (hp : 0 < held p)
    (hc : s.get? q = some c) : p ∉ kids c.val := by
  intro hmem
  have hcount := List.count_pos_iff.mpr hmem
  have hle := count_le_refs kids hc p
  have hbal := hb p
  omega

/-- `held` with one reference to `p` fewer. -/
def dropHeld (held : Nat → Nat) (p : Nat) : Nat → Nat :=
  Function.update held p (held p - 1)

/-- A live object gets another cell: what the counts must satisfy. -/
theorem Balanced.set {s : Store α} {held held' : Nat → Nat} (hb : Balanced kids s held)
    {p : Nat} {c : Counted α} (hc : s.get? p = some c) (o : Option (Counted α))
    (hself : o.elim 0 Counted.rc + held p + (kids c.val).count p
      = c.rc + held' p + cellRefs kids o p)
    (hother : ∀ q, q ≠ p → held q + (kids c.val).count q = held' q + cellRefs kids o q) :
    Balanced kids (s.set p o) held' := by
  intro q
  have hrefs := refs_set kids hc o q
  have hbq := hb q
  by_cases hq : q = p
  · subst hq
    have hrc : rcOf (s.set q o) q = o.elim 0 Counted.rc := by
      rw [rcOf, get?_set_self (lt_length_of_get? hc)]
    rw [rcOf_eq hc] at hbq
    omega
  · have hrc : rcOf (s.set p o) q = s.rcOf q := by rw [rcOf, get?_set_ne hq, rcOf]
    have := hother q hq
    omega

theorem Balanced.inc {s : Store α} {held : Nat → Nat} (hb : Balanced kids s held) {p : Nat}
    {c : Counted α} (hc : s.get? p = some c) (n : Nat) :
    Balanced kids (s.set p (some { c with rc := c.rc + n }))
      (Function.update held p (held p + n)) := by
  refine hb.set hc _ ?_ fun q hq => ?_
  · simp only [Option.elim_some, Function.update_self, cellRefs]
    omega
  · simp only [Function.update_of_ne hq, cellRefs, Option.elim_some]

theorem Balanced.dec {s : Store α} {held : Nat → Nat} (hb : Balanced kids s held) {p : Nat}
    {c : Counted α} (hc : s.get? p = some c) (hrc : 1 ≤ c.rc) (hheld : 0 < held p) :
    Balanced kids (s.set p (some { c with rc := c.rc - 1 })) (dropHeld held p) := by
  refine hb.set hc _ ?_ fun q hq => ?_
  · simp only [Option.elim_some, dropHeld, Function.update_self, cellRefs]
    omega
  · simp only [dropHeld, Function.update_of_ne hq, cellRefs, Option.elim_some]

/-- The last reference is held outside: freeing the object hands its own
references over. -/
theorem Balanced.free {s : Store α} {held : Nat → Nat} (hb : Balanced kids s held) {p : Nat}
    {c : Counted α} (hc : s.get? p = some c) (hrc : c.rc = 1) (hheld : 0 < held p) :
    Balanced kids (s.set p none)
      (fun q => dropHeld held p q + (kids c.val).count q) := by
  have hp := hb p
  have hle := count_le_refs kids hc p
  rw [rcOf_eq hc, hrc] at hp
  refine hb.set hc none ?_ fun q hq => ?_
  · simp only [Option.elim_none, dropHeld, Function.update_self, cellRefs]
    omega
  · simp only [dropHeld, Function.update_of_ne hq, cellRefs, Option.elim_none]
    omega

/-- A new object takes over references that were held. -/
theorem Balanced.alloc {s : Store α} {held : Nat → Nat} {v : α}
    (hb : Balanced kids s fun q => held q + (kids v).count q) :
    Balanced kids (s ++ [some ⟨1, v⟩])
      (fun q => held q + if q = s.length then 1 else 0) := by
  intro q
  have hrefs : refs kids (s ++ [some ⟨1, v⟩]) q = refs kids s q + (kids v).count q := by
    simp [refs, cellRefs]
  have hbq : s.rcOf q = refs kids s q + (held q + (kids v).count q) := hb q
  show rcOf _ q = refs kids _ q + (held q + if q = s.length then 1 else 0)
  by_cases hq : q = s.length
  · subst hq
    have hnone : s.rcOf s.length = 0 := rcOf_eq_zero (by simp [get?])
    rw [rcOf, get?_append_length, hrefs, if_pos rfl]
    show 1 = _
    omega
  · rw [rcOf, get?_append_ne hq, ← rcOf, hrefs, if_neg hq]
    omega

theorem Balanced.congr {s : Store α} {held held' : Nat → Nat} (hb : Balanced kids s held)
    (h : ∀ q, held q = held' q) : Balanced kids s held' :=
  fun p => (hb p).trans (by rw [h p])

variable (kids) in
/-- `p` owns a reference to `q`. -/
def Owns (s : Store α) (p q : Nat) : Prop := ∃ c, s.get? p = some c ∧ q ∈ kids c.val

/-- Where references go down in rank, every live object is reached from a reference held
outside: nothing is kept alive by references in a circle. -/
theorem Balanced.reachable {s : Store α} {held : Nat → Nat} (hb : Balanced kids s held)
    (hpos : s.Positive) (rank : Nat → Nat)
    (hrank : ∀ p c q, s.get? p = some c → q ∈ kids c.val → rank q < rank p) {p : Nat}
    {c : Counted α} (hc : s.get? p = some c) :
    ∃ q, 0 < held q ∧ Relation.ReflTransGen (Owns kids s) q p := by
  have hle : ∀ p c, s.get? p = some c → rank p ≤ (Finset.range s.length).sup rank :=
    fun p _ hc => Finset.le_sup (Finset.mem_range.mpr (lt_length_of_get? hc))
  -- from an object to an owner of it ranks go up, and they are bounded
  induction h : (Finset.range s.length).sup rank - rank p using Nat.strong_induction_on
      generalizing p c with
  | h n ih =>
      by_cases hheld : 0 < held p
      · exact ⟨p, hheld, .refl⟩
      · have hrefs : 0 < refs kids s p := by
          have hbp := hb p
          have hcpos := hpos p c hc
          rw [rcOf_eq hc] at hbp
          omega
        obtain ⟨q, d, hd, hmem⟩ := exists_of_refs_pos kids hrefs
        have hlt := hrank q d p hd hmem
        have hbound := hle q d hd
        obtain ⟨o, ho, hpath⟩ := ih _ (by omega) hd rfl
        exact ⟨o, ho, hpath.tail ⟨d, hd, hmem⟩⟩

/-- What is reached from a reference held outside is live. -/
theorem Balanced.get?_of_reachable {s : Store α} {held : Nat → Nat} (hb : Balanced kids s held)
    {p q : Nat} (hq : 0 < held q) (hpath : Relation.ReflTransGen (Owns kids s) q p) :
    ∃ c, s.get? p = some c := by
  induction hpath with
  | refl => exact hb.get?_of_held hq
  | tail _ howns _ =>
      obtain ⟨c, hc, hmem⟩ := howns
      exact hb.get?_of_mem_kids hc hmem

/-- With nothing held and no cycle, nothing is left. -/
theorem Balanced.get?_eq_none {s : Store α} (hb : Balanced kids s fun _ => 0)
    (hpos : s.Positive) (rank : Nat → Nat)
    (hrank : ∀ p c q, s.get? p = some c → q ∈ kids c.val → rank q < rank p) (p : Nat) :
    s.get? p = none := by
  by_contra hne
  obtain ⟨c, hc⟩ := Option.ne_none_iff_exists'.mp hne
  obtain ⟨q, hq, -⟩ := hb.reachable hpos rank hrank hc
  exact absurd hq (Nat.lt_irrefl 0)

end Balance

end Store

end Mavros.Lib
