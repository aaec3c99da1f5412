/-
# `Mavros.VM.ArrayRel` — array operations and the values they stand for

`array_set` against the generator's, which always makes a new cell.  A copy is a
new block for the new cell.  A reused block changes what it stands for; nothing
else refers to it, so nothing else notices — as long as its `table_id` word is
empty, for the word stays and the new cell has no table.

## What is proved

* `HeapRel.arraySet`: over a heap in step with the generator `array_set` leaves one in step, where
  an array that is reused in place has no table.
* `HeapRel.setTableId`: an array gets its table on both sides.
* `HeapRel.leaves`: flattening hands the leaves over in the generator's order.

## How it goes

A block with one reference, held outside, is nobody's child (`not_mem_kids`), so it may stand for
another value from now on (`setBlock`).  Reusing is the removal of the element written over followed
by this, and copying is one more block whose elements are counted again; in both the element taken
in brings its own reference along.
-/
import Mavros.VM.HeapRel

namespace Mavros

open Lib Lib.Store

namespace HeapRel

variable {mode : Mode} {g g' : R1CGen} {held held' : Ptr → Nat} {h : Heap} {ghost : Ghost}
  {rank : Ptr → Nat}

/-! ## A block overwritten in place -/

/-- A block with one reference, held outside, is nobody's child. -/
theorem not_mem_kids (hrel : HeapRel mode g held h ghost rank) {p : Ptr} {c : Counted Obj}
    (hc : Store.get? h p = some c) (hrc : c.rc = 1) (hp : 0 < held p) {q : Ptr}
    {d : Counted Obj} (hd : Store.get? h q = some d) : p ∉ d.val.kids :=
  hrel.balanced.not_mem_kids ((Store.rcOf_eq hc).trans hrc) hp hd

/-- A block with one reference gets another value, of a new cell. -/
theorem setBlock {m : Mem} (hrel : HeapRel mode g held m.heap ghost rank)
    (held' : Ptr → Nat) {p : Ptr} {c : Counted Obj} (hc : Store.get? m.heap p = some c)
    (hrc : c.rc = 1) (hp : 0 < held p)
    (hid : c.val.tableId = none) {pay : Payload} {tv : Ty × Value}
    (hblock : BlockRel mode ghost tv pay) (hnew : NewLabel g g' tv)
    (hpend : ∀ s, pay.pending s = 0) (hpend' : ∀ s, c.val.payload.pending s = 0)
    (hself : p ∉ pay.kids) (hheldp : held' p = held p)
    (hheld : ∀ q, q ≠ p → held q + c.val.kids.count q = held' q + pay.kids.count q) :
    ∃ rank', HeapRel mode g' held' (m.setPayload p c pay).heap (Function.update ghost p tv)
        rank' ∧
      ∀ s i, (m.setPayload p c pay).total (Mavros.gradOf (Function.update ghost p tv)) s i
        = m.total (Mavros.gradOf ghost) s i := by
  have hlt := Store.lt_length_of_get? hc
  have hnokid : ∀ {q d}, Store.get? m.heap q = some d → p ∉ d.val.kids :=
    fun hd => hrel.not_mem_kids hc hrc hp hd
  -- a live block of the new heap is an old one or the one that was overwritten
  have hcases : ∀ {q d}, Store.get? (m.setPayload p c pay).heap q = some d →
      (q ≠ p ∧ Store.get? m.heap q = some d) ∨
        (q = p ∧ d = { c with val := { c.val with payload := pay } }) := by
    intro q d hd
    by_cases hq : q = p
    · subst hq
      exact .inr ⟨rfl, Option.some.inj (hd.symm.trans (Store.get?_set_self hlt _))⟩
    · exact .inl ⟨hq, (Store.get?_set_ne hq _).symm.trans hd⟩
  have hrefs : ∀ q, q ∈ c.val.kids → q ≠ p := by
    rintro q hq rfl
    exact hnokid hc hq
  refine ⟨Function.update rank p (1 + (pay.kids.map rank).sum + rank p),
    ⟨?_, ?_, ?_, ?_, ?_, ?_⟩, fun s i => ?_⟩
  · intro q d hd
    rcases hcases hd with ⟨hq, hd₀⟩ | ⟨rfl, rfl⟩
    · rw [Function.update_of_ne hq]
      refine (hrel.blocks q d hd₀).congr fun r hr => ?_
      have hne : r ≠ p := by
        rintro rfl
        exact hnokid hd₀ hr
      rw [Function.update_of_ne hne]
    · rw [Function.update_self]
      refine hblock.congr fun r hr => ?_
      have hne : r ≠ q := by
        rintro rfl
        exact hself hr
      rw [Function.update_of_ne hne]
  · intro q d rc hd hl
    rcases hcases hd with ⟨hq, hd₀⟩ | ⟨rfl, rfl⟩
    · rw [Function.update_of_ne hq] at hl
      obtain ⟨hlt, hids⟩ := hrel.labels q d rc hd₀ hl
      exact ⟨Nat.lt_of_lt_of_le hlt hnew.nextRc, (hnew.tableIds rc hlt).trans hids⟩
    · rw [Function.update_self] at hl
      obtain ⟨-, hrc', hnone⟩ := hnew.label rc hl
      exact ⟨hrc', hnone.trans hid.symm⟩
  · intro q d r d' rc hd hd' hlq hlr
    rcases hcases hd with ⟨hq, hd₀⟩ | ⟨rfl, rfl⟩ <;>
      rcases hcases hd' with ⟨hr, hd₀'⟩ | ⟨rfl, rfl⟩
    · rw [Function.update_of_ne hq] at hlq
      rw [Function.update_of_ne hr] at hlr
      exact hrel.inj q d r d' rc hd₀ hd₀' hlq hlr
    · rw [Function.update_of_ne hq] at hlq
      rw [Function.update_self] at hlr
      exact absurd (hrel.labels q d rc hd₀ hlq).1 (Nat.not_lt.mpr (hnew.label rc hlr).1)
    · rw [Function.update_of_ne hr] at hlr
      rw [Function.update_self] at hlq
      exact absurd (hrel.labels r d' rc hd₀' hlr).1 (Nat.not_lt.mpr (hnew.label rc hlq).1)
    · rfl
  · refine hrel.balanced.set hc _ ?_ fun q hq => ?_
    · have hzero : c.val.kids.count p = 0 := List.count_eq_zero.mpr (hnokid hc)
      have hzero' : pay.kids.count p = 0 := List.count_eq_zero.mpr hself
      simp only [Option.elim_some, Store.cellRefs, Obj.kids] at hzero ⊢
      omega
    · simpa only [Store.cellRefs, Option.elim_some, Obj.kids] using hheld q hq
  · exact hrel.positive.set_some (hrel.positive p c hc)
  · intro q d r hd hr
    rcases hcases hd with ⟨hq, hd₀⟩ | ⟨rfl, rfl⟩
    · have hne : r ≠ p := by
        rintro rfl
        exact hnokid hd₀ hr
      rw [Function.update_of_ne hq, Function.update_of_ne hne]
      exact hrel.ranked q d r hd₀ hr
    · have hne : r ≠ q := by
        rintro rfl
        exact hself hr
      have hle : rank r ≤ (pay.kids.map rank).sum := List.le_sum_of_mem (List.mem_map_of_mem hr)
      rw [Function.update_self, Function.update_of_ne hne]
      omega
  · have hsame : m.total (Mavros.gradOf (Function.update ghost p tv)) s i
        = m.total (Mavros.gradOf ghost) s i := by
      simp only [Mem.total]
      congr 1
      refine Store.sumLive_congr fun q d hd => ?_
      by_cases hq : q = p
      · subst hq
        obtain rfl : d = c := Option.some.inj (hd.symm.trans hc)
        rw [hpend', zero_mul, zero_mul]
      · simp only [Mavros.gradOf, Function.update_of_ne hq]
    rw [Mem.total_setPayload _ m hc, hpend, hpend', sub_self, zero_mul, add_zero, hsame]

/-! ## `array_set`

Elements stored in place and by reference are treated alike, by the references they own.
-/

/-- What the block of an array holds. -/
theorem array_elems (hrel : HeapRel mode g held h ghost rank) {p : Ptr} {e : Elem} {rc : Nat}
    {data : List Value} (hp : ghost p = (.array e, .array rc data)) {c : Counted Obj}
    (hc : Store.get? h p = some c) :
    ∃ els, c.val.payload.elems = some els ∧ List.Forall₂ (ElemRel mode ghost e) els data := by
  have hblock := hrel.blocks p c hc
  rw [hp] at hblock
  exact hblock

theorem pending_of_elems {pay : Payload} {els : List (PrimElem ⊕ Ptr)}
    (h : pay.elems = some els) (s : Side) : pay.pending s = 0 := by
  cases pay <;> first | rfl | exact absurd h (by simp [Payload.elems])

theorem arraySize_of_elems {pay : Payload} {els : List (PrimElem ⊕ Ptr)}
    (h : pay.elems = some els) : pay.arraySize = els.length := by
  cases pay <;> simp_all [Payload.elems, Payload.arraySize] <;> subst h <;> simp

/-- An element of one kind sits in a block of its kind. -/
theorem ElemRel.same_kind {e : Elem} {el el' : PrimElem ⊕ Ptr} {v v' : Value}
    (h : ElemRel mode ghost e el v) (h' : ElemRel mode ghost e el' v') :
    el.isLeft = el'.isLeft := by
  cases e <;> cases el with
  | inl x => cases x <;> cases el' with
    | inl y => rfl
    | inr q =>
        first
          | exact h'.elim
          | exact h.elim
          | (obtain ⟨w, hw, -⟩ := h; obtain ⟨hm, -⟩ := h'; rw [hm] at hw; exact nomatch hw)
  | inr q => cases el' with
    | inr r => rfl
    | inl y =>
        cases y <;> first
          | exact h'.elim
          | exact h.elim
          | (obtain ⟨w, hw, -⟩ := h'; obtain ⟨hm, -⟩ := h; rw [hm] at hw; exact nomatch hw)

/-- The payload with one element replaced. -/
def setElem (pay : Payload) (index : Nat) (source : PrimElem ⊕ Ptr) : Payload :=
  match pay, source with
  | .primArray els, .inl x => .primArray (els.set index x)
  | .boxedArray els, .inr q => .boxedArray (els.set index q)
  | pay, _ => pay

/-- An element in range can be replaced by one that stands for a value of its type. -/
theorem setElem_spec {e : Elem} {pay : Payload} {els : List (PrimElem ⊕ Ptr)}
    {data : List Value} {index : Nat} {source : PrimElem ⊕ Ptr} {v : Value}
    (hels : pay.elems = some els) (hall : List.Forall₂ (ElemRel mode ghost e) els data)
    (hidx : index < data.length) (hsrc : ElemRel mode ghost e source v) :
    (setElem pay index source).elems = some (els.set index source) ∧
      List.Forall₂ (ElemRel mode ghost e) (els.set index source) (data.set index v) ∧
      ((∃ xs x, pay = .primArray xs ∧ source = .inl x) ∨
        ∃ ps q, pay = .boxedArray ps ∧ source = .inr q) := by
  have hlen := hall.length_eq
  have hkind : els[index].isLeft = source.isLeft :=
    ElemRel.same_kind ((List.forall₂_iff_get.mp hall).2 index (by omega) hidx) hsrc
  refine ⟨?_, ?_, ?_⟩
  · cases pay with
    | primArray xs =>
        obtain rfl := Option.some.inj hels
        cases source with
        | inl x => simp [setElem, Payload.elems, List.map_set]
        | inr q => simp at hkind
    | boxedArray ps =>
        obtain rfl := Option.some.inj hels
        cases source with
        | inl x => simp at hkind
        | inr q => simp [setElem, Payload.elems, List.map_set]
    | _ => exact absurd hels (by simp [Payload.elems])
  · clear hkind hels
    induction hall generalizing index with
    | nil => exact absurd hidx (by simp)
    | cons hel htail ih =>
        cases index with
        | zero => exact .cons hsrc htail
        | succ index => exact .cons hel (ih (by simpa using hidx) (by simpa using hlen))
  · cases pay with
    | primArray xs =>
        obtain rfl := Option.some.inj hels
        cases source with
        | inl x => exact .inl ⟨xs, x, rfl, rfl⟩
        | inr q => simp at hkind
    | boxedArray ps =>
        obtain rfl := Option.some.inj hels
        cases source with
        | inl x => simp at hkind
        | inr q => exact .inr ⟨ps, q, rfl, rfl⟩
    | _ => exact absurd hels (by simp [Payload.elems])

theorem storeElem_eq {m : Mem} {p : Ptr} {c : Counted Obj} (hc : Store.get? m.heap p = some c)
    (index : Nat) (source : PrimElem ⊕ Ptr)
    (hkind : (∃ xs x, c.val.payload = .primArray xs ∧ source = .inl x) ∨
      ∃ ps q, c.val.payload = .boxedArray ps ∧ source = .inr q) :
    m.storeElem p index source
      = some (m.setPayload p c (setElem c.val.payload index source)) := by
  rcases hkind with ⟨xs, x, hpay, rfl⟩ | ⟨ps, q, hpay, rfl⟩ <;>
    simp [Mem.storeElem, hc, hpay, setElem]

/-- The references of an array with one element replaced. -/
theorem count_flatMap_set (els : List (PrimElem ⊕ Ptr)) {index : Nat} (hidx : index < els.length)
    (source : PrimElem ⊕ Ptr) (q : Ptr) :
    ((els.set index source).flatMap elemKids).count q + (elemKids els[index]).count q
      = (els.flatMap elemKids).count q + (elemKids source).count q := by
  induction els generalizing index with
  | nil => exact absurd hidx (by simp)
  | cons el els ih =>
      cases index with
      | zero =>
          simp only [List.set_cons_zero, List.flatMap_cons, List.count_append,
            List.getElem_cons_zero]
          omega
      | succ index =>
          have ih := @ih index (by simpa using hidx)
          simp only [List.set_cons_succ, List.flatMap_cons, List.count_append,
            List.getElem_cons_succ] at ih ⊢
          omega

theorem count_flatMap_set_eraseIdx (els : List (PrimElem ⊕ Ptr)) {index : Nat}
    (hidx : index < els.length) (source : PrimElem ⊕ Ptr) (q : Ptr) :
    ((els.set index source).flatMap elemKids).count q
      = (elemKids source).count q + ((els.eraseIdx index).flatMap elemKids).count q := by
  induction els generalizing index with
  | nil => exact absurd hidx (by simp)
  | cons el els ih =>
      cases index with
      | zero => simp [List.count_append]
      | succ index =>
          have ih := @ih index (by simpa using hidx)
          simp only [List.set_cons_succ, List.eraseIdx_cons_succ, List.flatMap_cons,
            List.count_append] at ih ⊢
          omega

/-- One more block at the end. -/
def snoc (m : Mem) (c : Counted Obj) : Mem := { m with heap := m.heap ++ [some c] }

theorem incRc_snoc {m m' : Mem} {c : Counted Obj} {q : Ptr} {n : Nat}
    (h : m.incRc q n = some m') : (snoc m c).incRc q n = some (snoc m' c) := by
  simp only [Mem.incRc, Option.bind_eq_bind, Option.bind_eq_some_iff, Option.pure_def,
    Option.some.injEq] at h
  obtain ⟨d, hd, rfl⟩ := h
  have hlt := Store.lt_length_of_get? hd
  simp [Mem.incRc, snoc, Store.get?_append_of_some hd, List.set_append_left _ _ hlt]

theorem incAll_snoc {c : Counted Obj} {m' : Mem} : ∀ {qs : List Ptr} {m : Mem},
    qs.foldlM (fun m q => Mem.incRc q 1 m) m = some m' →
      qs.foldlM (fun m q => Mem.incRc q 1 m) (snoc m c) = some (snoc m' c) := by
  intro qs
  induction qs with
  | nil =>
      intro m h
      obtain rfl := Option.some.inj h
      rfl
  | cons q qs ih =>
      intro m h
      rw [List.foldlM_cons, Option.bind_eq_bind, Option.bind_eq_some_iff] at h ⊢
      obtain ⟨m₁, h₁, h⟩ := h
      exact ⟨snoc m₁ c, incRc_snoc h₁, ih h⟩

theorem storeElem_snoc (m : Mem) {pay : Payload} {index : Nat} {source : PrimElem ⊕ Ptr}
    (hkind : (∃ xs x, pay = .primArray xs ∧ source = .inl x) ∨
      ∃ ps q, pay = .boxedArray ps ∧ source = .inr q) :
    (snoc m ⟨1, ⟨pay, none⟩⟩).storeElem m.heap.length index source
      = some (m.alloc (setElem pay index source)).2 := by
  have hget : Store.get? (snoc m ⟨1, ⟨pay, none⟩⟩).heap m.heap.length
      = some ⟨1, ⟨pay, none⟩⟩ := Store.get?_append_length _ _
  rw [storeElem_eq hget index source hkind]
  simp [Mem.setPayload, Mem.alloc, snoc]

section ArraySet

variable {m : Mem} {p : Ptr} {e : Elem} {rc index : Nat} {data : List Value}
  {source : PrimElem ⊕ Ptr} {v : Value}

/-- `array_set` on the last reference to an array without a table. -/
theorem arraySet_reuse
    (hrel : HeapRel mode g
      (fun r => held r + ((if r = p then 1 else 0) + (elemKids source).count r)) m.heap ghost rank)
    (hp : ghost p = (.array e, .array rc data)) (hsrc : ElemRel mode ghost e source v)
    (hidx : index < data.length) {c : Counted Obj} (hc : Store.get? m.heap p = some c)
    (hrc : c.rc = 1) (hid : c.val.tableId = none) :
    held p = 0 ∧ ∃ m' rank', m.arraySet p index source = some (p, m') ∧
      HeapRel mode (g.mkArray (data.set index v)).2 (fun r => held r + if r = p then 1 else 0)
        m'.heap
        (Function.update ghost p (.array e, (g.mkArray (data.set index v)).1)) rank' ∧
      ∀ s i, m'.total (Mavros.gradOf
          (Function.update ghost p (.array e, (g.mkArray (data.set index v)).1))) s i
        = m.total (Mavros.gradOf ghost) s i := by
  obtain ⟨els, hels, hall⟩ := hrel.array_elems hp hc
  obtain ⟨hels', hall', hkind⟩ := setElem_spec hels hall hidx hsrc
  have hlt : index < els.length := hall.length_eq ▸ hidx
  have hsize : index < c.val.payload.arraySize := by rwa [arraySize_of_elems hels]
  have hb := hrel.balanced p
  rw [Store.rcOf_eq hc, hrc, if_pos rfl] at hb
  have hheldp : held p = 0 := by omega
  have hsrcp : (elemKids source).count p = 0 := by omega
  have hkids : c.val.kids = els.flatMap elemKids := Payload.kids_of_elems hels
  have hkids' := Payload.kids_of_elems hels'
  have hpkids : p ∉ c.val.kids := hrel.not_mem_kids hc hrc (by simp) hc
  have hcount := count_flatMap_set els hlt source
  have holdp : (elemKids els[index]).count p = 0 := by
    refine List.count_eq_zero.mpr fun hmem => hpkids ?_
    rw [hkids]
    exact List.mem_flatMap.mpr ⟨els[index], List.getElem_mem hlt, hmem⟩
  have hself : p ∉ (setElem c.val.payload index source).kids := by
    have hzero : (els.flatMap elemKids).count p = 0 :=
      List.count_eq_zero.mpr (hkids ▸ hpkids)
    rw [hkids']
    refine List.count_eq_zero.mp ?_
    have := hcount p
    omega
  refine ⟨hheldp, ?_⟩
  -- the new value is in place, the old element is held
  have hblock : BlockRel mode ghost (.array e, (g.mkArray (data.set index v)).1)
      (setElem c.val.payload index source) := ⟨els.set index source, hels', hall'⟩
  obtain ⟨rank', hrel', htot'⟩ := hrel.setBlock
    (fun r => held r + (if r = p then 1 else 0) + (elemKids els[index]).count r)
    hc hrc (by simp) hid hblock
    (NewLabel.mkArray g e _) (pending_of_elems hels') (pending_of_elems hels) hself
    (by simp only [if_pos]; omega)
    (fun q hq => by
      rw [hkids, hkids']
      have := hcount q
      simp only [if_neg hq]
      omega)
  have hcopy : m.copyIfReused p = some (p, m) := by simp [Mem.copyIfReused, hc, hrc]
  rcases hkind with ⟨xs, x, hpay, rfl⟩ | ⟨ps, q, hpay, rfl⟩
  · have hstore := storeElem_eq hc index (.inl x) (.inl ⟨xs, x, hpay, rfl⟩)
    have hold : elemKids els[index] = [] := by
      rw [hpay] at hels
      obtain rfl := Option.some.inj hels
      simp [elemKids]
    refine ⟨_, rank', ?_, hrel'.held_congr fun r => by simp [hold], htot'⟩
    simp only [Mem.arraySet, hc, Option.bind_eq_bind, Option.bind_some, if_pos hsize, hcopy]
    simp only [Mem.retainOthers, hpay, Option.bind_some, hstore]
    rfl
  · have hlt' : index < ps.length := by
      rw [hpay] at hsize
      exact hsize
    have hold : els[index] = .inr ps[index] := by
      rw [hpay] at hels
      obtain rfl := Option.some.inj hels
      simp
    have hrank : rank ps[index] < rank p := by
      refine hrel.ranked p c _ hc ?_
      rw [Obj.kids, hpay]
      exact List.getElem_mem hlt'
    have hheld' : 0 < held ps[index] + (if ps[index] = p then 1 else 0)
        + (elemKids els[index]).count ps[index] := by
      rw [hold]
      simp [elemKids]
    obtain ⟨mv, hmv, hrelv, htotv⟩ := hrel'.decRc hheld'
    obtain ⟨hover, hframe⟩ := Mem.decRc_overwrite { c with
      val := { c.val with payload := setElem c.val.payload index (.inr q) } }
      hrel.ranked hrank hc rfl
    have hmv' : (m.decRc ps[index]).map (·.overwrite p (some { c with
        val := { c.val with payload := setElem c.val.payload index (.inr q) } })) = some mv :=
      hover.symm.trans hmv
    obtain ⟨m₂, h₂, rfl⟩ := Option.map_eq_some_iff.mp hmv'
    have hstore := storeElem_eq (hframe m₂ h₂) index (.inr q)
      (.inr ⟨ps, q, hpay, rfl⟩)
    refine ⟨_, rank', ?_, hrelv.held_congr fun r => ?_, fun s i => (htotv s i).trans (htot' s i)⟩
    · simp only [Mem.arraySet, hc, Option.bind_eq_bind, Option.bind_some, if_pos hsize, hcopy]
      simp only [Mem.retainOthers, hpay, if_true, List.getElem?_eq_getElem hlt', Option.bind_some,
        h₂, hstore]
      rfl
    · by_cases hr : r = ps[index]
      · subst hr
        simp [dropHeld, hold, elemKids]
      · simp [dropHeld, hr, hold, elemKids, Ne.symm hr]

/-- `array_set` on a shared array. -/
theorem arraySet_copy
    (hrel : HeapRel mode g
      (fun r => held r + ((if r = p then 1 else 0) + (elemKids source).count r)) m.heap ghost rank)
    (hp : ghost p = (.array e, .array rc data)) (hsrc : ElemRel mode ghost e source v)
    (hidx : index < data.length) {c : Counted Obj} (hc : Store.get? m.heap p = some c)
    (hrc : c.rc ≠ 1) :
    ∃ m' rank', m.arraySet p index source = some (m.heap.length, m') ∧
      HeapRel mode (g.mkArray (data.set index v)).2
        (fun r => held r + if r = m.heap.length then 1 else 0) m'.heap
        (Function.update ghost m.heap.length (.array e, (g.mkArray (data.set index v)).1))
        rank' ∧
      ∀ s i, m'.total (Mavros.gradOf
          (Function.update ghost m.heap.length (.array e, (g.mkArray (data.set index v)).1))) s i
        = m.total (Mavros.gradOf ghost) s i := by
  obtain ⟨els, hels, hall⟩ := hrel.array_elems hp hc
  obtain ⟨hels', hall', hkind⟩ := setElem_spec hels hall hidx hsrc
  have hlt : index < els.length := hall.length_eq ▸ hidx
  have hplt := Store.lt_length_of_get? hc
  have hpos := hrel.positive p c hc
  have hsize : index < c.val.payload.arraySize := by rwa [arraySize_of_elems hels]
  have hkids' := Payload.kids_of_elems hels'
  -- the references that are shared with the copy
  let qs := (els.eraseIdx index).flatMap elemKids
  have hcount : ∀ r, (setElem c.val.payload index source).kids.count r
      = (elemKids source).count r + qs.count r := by
    intro r
    rw [hkids']
    exact count_flatMap_set_eraseIdx els hlt source r
  -- the old count goes down, the shared ones go up, then the copy is made
  let ma : Mem := { m with heap := m.heap.set p (some { c with rc := c.rc - 1 }) }
  obtain ⟨hs, -, hta⟩ := Mem.countRound_spec (Mavros.gradOf ghost) hc (c.rc - 1)
  have hrela := hrel.shrinks hs (hrel.balanced.dec hc hpos (by simp))
    (hrel.positive.set_some (show 0 < c.rc - 1 by omega))
  have hliveq : ∀ r ∈ qs, ∃ d, Store.get? ma.heap r = some d := by
    intro r hr
    have hmem : r ∈ c.val.kids := by
      rw [Obj.kids, Payload.kids_of_elems hels]
      obtain ⟨el, hel, hr⟩ := List.mem_flatMap.mp hr
      exact List.mem_flatMap.mpr ⟨el, List.mem_of_mem_eraseIdx hel, hr⟩
    have hc' : Store.get? ma.heap p = some { c with rc := c.rc - 1 } :=
      Store.get?_set_self hplt _
    exact hrela.kid_live hc' hmem
  obtain ⟨mb, hmb, hrelb, hlenb, htb⟩ := hrela.incAll hliveq
  have hlen : mb.heap.length = m.heap.length := hlenb.trans (List.length_set ..)
  have hblock : BlockRel mode ghost (.array e, (g.mkArray (data.set index v)).1)
      (setElem c.val.payload index source) := ⟨els.set index source, hels', hall'⟩
  obtain ⟨rank', hrel', htot'⟩ := HeapRel.alloc held
    (hrelb.held_congr fun r => by
      rw [hcount]
      by_cases hr : r = p
      · subst hr
        simp [dropHeld]
        omega
      · simp [dropHeld, hr]
        omega)
    hblock (NewLabel.mkArray g e _) (pending_of_elems hels')
  rw [hlen] at hrel' htot'
  refine ⟨_, rank', ?_, hrel', fun s i => ((htot' s i).trans (htb s i)).trans (hta s i)⟩
  have hcopy : m.copyIfReused p
      = some (m.heap.length, snoc ma ⟨1, ⟨c.val.payload, none⟩⟩) := by
    simp [Mem.copyIfReused, hc, hrc, Mem.alloc, snoc, ma, List.set_append_left _ _ hplt]
  have hne : m.heap.length ≠ p := Nat.ne_of_gt hplt
  have hstore : (snoc mb ⟨1, ⟨c.val.payload, none⟩⟩).storeElem m.heap.length index source
      = some (mb.alloc (setElem c.val.payload index source)).2 := by
    rw [← hlen]
    exact storeElem_snoc mb hkind
  have hretain : (snoc ma ⟨1, ⟨c.val.payload, none⟩⟩).retainOthers p m.heap.length index
      c.val.payload = some (snoc mb ⟨1, ⟨c.val.payload, none⟩⟩) := by
    rcases hkind with ⟨xs, x, hpay, -⟩ | ⟨ps, q, hpay, -⟩
    · have hqs : qs = [] := by
        rw [hpay] at hels
        obtain rfl := Option.some.inj hels
        refine List.flatMap_eq_nil_iff.mpr fun el hel => ?_
        obtain ⟨y, -, rfl⟩ := List.mem_map.mp (List.mem_of_mem_eraseIdx hel)
        rfl
      rw [hqs] at hmb
      obtain rfl := Option.some.inj hmb
      simp [Mem.retainOthers, hpay]
    · have hqs : qs = ps.eraseIdx index := by
        rw [hpay] at hels
        obtain rfl := Option.some.inj hels
        simp only [qs, List.eraseIdx_map, List.flatMap_map]
        exact List.flatMap_singleton' _
      rw [hqs] at hmb
      simp only [Mem.retainOthers, hpay, if_neg hne]
      rw [hpay] at *
      exact incAll_snoc hmb
  simp [Mem.arraySet, hc, hsize, hcopy, hretain, hstore]

end ArraySet

/-- `array_set`.  When the array is reused in place it must have no table; the variables
that are left do not notice. -/
theorem arraySet {m : Mem} {p : Ptr} {e : Elem} {rc index : Nat} {data : List Value}
    {source : PrimElem ⊕ Ptr} {v : Value}
    (hrel : HeapRel mode g
      (fun r => held r + ((if r = p then 1 else 0) + (elemKids source).count r)) m.heap ghost rank)
    (hp : ghost p = (.array e, .array rc data)) (hsrc : ElemRel mode ghost e source v)
    (hidx : index < data.length)
    (hfresh : ∀ c, Store.get? m.heap p = some c → c.rc = 1 → c.val.tableId = none) :
    ∃ q m' ghost' rank', m.arraySet p index source = some (q, m') ∧
      HeapRel mode (g.mkArray (data.set index v)).2 (fun r => held r + if r = q then 1 else 0)
        m'.heap ghost' rank' ∧
      ghost' q = (.array e, (g.mkArray (data.set index v)).1) ∧
      (∀ r, 0 < held r → ghost' r = ghost r) ∧
      ∀ s i, m'.total (Mavros.gradOf ghost') s i = m.total (Mavros.gradOf ghost) s i := by
  obtain ⟨c, hc⟩ := hrel.balanced.get?_of_held (p := p) (by simp)
  by_cases hrc : c.rc = 1
  · obtain ⟨hheldp, m', rank', hrun, hrel', htot⟩ :=
      arraySet_reuse hrel hp hsrc hidx hc hrc (hfresh c hc hrc)
    refine ⟨p, m', _, rank', hrun, hrel', Function.update_self _ _ _, fun r hr => ?_, htot⟩
    have hne : r ≠ p := by
      rintro rfl
      omega
    exact Function.update_of_ne hne _ _
  · obtain ⟨m', rank', hrun, hrel', htot⟩ := arraySet_copy hrel hp hsrc hidx hc hrc
    refine ⟨_, m', _, rank', hrun, hrel', Function.update_self _ _ _, fun r hr => ?_, htot⟩
    obtain ⟨d, hd⟩ := hrel.balanced.get?_of_held (p := r) (by omega)
    exact Function.update_of_ne (Nat.ne_of_lt (Store.lt_length_of_get? hd)) _ _

/-! ## The table of an array -/

/-- An array gets its table on both sides. -/
theorem setTableId {m : Mem} (g' : R1CGen) (hrel : HeapRel mode g held m.heap ghost rank)
    {p : Ptr} {rc : Nat} {c : Counted Obj} (hc : Store.get? m.heap p = some c)
    (hl : label (ghost p) = some rc)
    (id : Nat) (hids : g'.tableIds = Function.update g.tableIds rc (some id))
    (hrc : g'.nextRc = g.nextRc) :
    ∃ m', m.setTableId p id = some m' ∧ HeapRel mode g' held m'.heap ghost rank ∧
      ∀ s i, m'.total (Mavros.gradOf ghost) s i = m.total (Mavros.gradOf ghost) s i := by
  have hlt := Store.lt_length_of_get? hc
  let c' : Counted Obj := { c with val := { c.val with tableId := some id } }
  have hcases : ∀ {q d}, Store.get? (m.heap.set p (some c')) q = some d →
      (q ≠ p ∧ Store.get? m.heap q = some d) ∨ (q = p ∧ d = c') := by
    intro q d hd
    by_cases hq : q = p
    · subst hq
      exact .inr ⟨rfl, Option.some.inj (hd.symm.trans (Store.get?_set_self hlt _))⟩
    · exact .inl ⟨hq, (Store.get?_set_ne hq _).symm.trans hd⟩
  refine ⟨{ m with heap := m.heap.set p (some c') }, by simp [Mem.setTableId, hc, c'],
    ⟨?_, ?_, ?_, ?_, ?_, ?_⟩, fun s i => ?_⟩
  · intro q d hd
    rcases hcases hd with ⟨-, hd₀⟩ | ⟨rfl, rfl⟩
    · exact hrel.blocks q d hd₀
    · exact hrel.blocks q c hc
  · intro q d rc' hd hlq
    rw [hids, hrc]
    rcases hcases hd with ⟨hq, hd₀⟩ | ⟨rfl, rfl⟩
    · obtain ⟨hlt', hid⟩ := hrel.labels q d rc' hd₀ hlq
      have hne : rc' ≠ rc := by
        rintro rfl
        exact hq (hrel.inj q d p c rc' hd₀ hc hlq hl)
      exact ⟨hlt', (Function.update_of_ne hne _ _).trans hid⟩
    · obtain rfl : rc = rc' := Option.some.inj (hl.symm.trans hlq)
      exact ⟨(hrel.labels q c rc hc hl).1, Function.update_self _ _ _⟩
  · intro q d r d' rc' hd hd' hlq hlr
    have hex : ∀ {q d}, Store.get? (m.heap.set p (some c')) q = some d →
        ∃ d₀, Store.get? m.heap q = some d₀ := by
      intro q d hd
      rcases hcases hd with ⟨-, hd₀⟩ | ⟨rfl, -⟩
      · exact ⟨d, hd₀⟩
      · exact ⟨c, hc⟩
    obtain ⟨d₀, hd₀⟩ := hex hd
    obtain ⟨d₁, hd₁⟩ := hex hd'
    exact hrel.inj q d₀ r d₁ rc' hd₀ hd₁ hlq hlr
  · refine hrel.balanced.set hc _ ?_ fun q hq => rfl
    simp only [Option.elim_some, Store.cellRefs, c', Obj.kids]
  · exact hrel.positive.set_some (hrel.positive p c hc)
  · intro q d r hd hr
    rcases hcases hd with ⟨-, hd₀⟩ | ⟨rfl, rfl⟩
    · exact hrel.ranked q d r hd₀ hr
    · exact hrel.ranked q c r hc hr
  · have hset := Store.sumLive_set
      (fun q (o : Obj) => o.payload.pending s * Mavros.gradOf ghost q i) hc (some c')
    simp only [Option.elim_some, c'] at hset
    simp only [Mem.total]
    rw [add_right_cancel hset]

/-! ## The leaves of an array

Words and pointers, flattened as the generator flattens values.
-/

/-- A leaf of an array stands for an entry of its table. -/
def LeafRel (mode : Mode) (ghost : Ghost) : PrimElem ⊕ Ptr → LC → Prop
  | .inl el, lc => lc = [(0, el.toFr)] ∨ ∃ w, mode = .witgen w ∧ lc.eval w = el.toFr
  | .inr q, lc => mode = .ad ∧ ∃ v, ghost q = (.scalar, v) ∧ v.expectLinearCombination = some lc

theorem flatten_scalar {v : Value} {lc : LC} (h : v.expectLinearCombination = some lc) :
    v.flatten = [lc] := by
  cases v with
  | const c => obtain rfl := Option.some.inj h; simp [Value.flatten]
  | lc terms => obtain rfl := Option.some.inj h; simp [Value.flatten]
  | array rc data => cases h

/-- A word of an array stands for one entry. -/
theorem wordLeaf {e : Elem} {x : PrimElem} {v : Value} (hel : ElemRel mode ghost e (.inl x) v) :
    ∃ lc, v.flatten = [lc] ∧ LeafRel mode ghost (.inl x) lc := by
  cases e with
  | word =>
    cases x with
    | word n =>
      obtain rfl : v = .const n := hel
      exact ⟨_, flatten_scalar rfl, .inl rfl⟩
    | field _ => exact hel.elim
  | field =>
    cases x with
    | word _ => exact hel.elim
    | field y =>
      obtain rfl : v = .const y := hel
      exact ⟨_, flatten_scalar rfl, .inl rfl⟩
  | witness =>
    cases x with
    | word _ => exact hel.elim
    | field _ =>
      obtain ⟨w, hm, lc, hlc, heval⟩ := hel
      exact ⟨lc, flatten_scalar hlc, .inr ⟨w, hm, heval⟩⟩
  | array _ => cases x <;> exact hel.elim

theorem wordLeaves {e : Elem} {xs : List PrimElem} {data : List Value}
    (hall : List.Forall₂ (ElemRel mode ghost e) (xs.map .inl) data) :
    List.Forall₂ (LeafRel mode ghost) (xs.map .inl) (flattenArrayIntoTable data) := by
  induction xs generalizing data with
  | nil =>
    cases hall
    simp [flattenArrayIntoTable]
  | cons x xs ih =>
    obtain ⟨v, vs, hel, hrest, rfl⟩ := List.forall₂_cons_left_iff.mp hall
    obtain ⟨lc, hflat, hleaf⟩ := wordLeaf hel
    rw [flattenArrayIntoTable, hflat]
    exact .cons hleaf (ih hrest)

/-- What is handed over of a pointer of an array, if the arrays below it are flattened. -/
theorem pointerLeaves (hrel : HeapRel mode g held h ghost rank) {fuel : Nat} {q : Ptr}
    {d : Counted Obj} {e : Elem} {v : Value} (hel : ElemRel mode ghost e (.inr q) v)
    (hd : Store.get? h q = some d)
    (harray : ∀ {e rc data}, ghost q = (.array e, .array rc data) →
      ∃ ls, forEachArrayLeaf h fuel q = some ls ∧
        List.Forall₂ (LeafRel mode ghost) ls (flattenArrayIntoTable data)) :
    ∃ ls, (do
        let d ← Store.get? h q
        if d.val.payload.isArray then forEachArrayLeaf h fuel q else some [.inr q]) = some ls ∧
      List.Forall₂ (LeafRel mode ghost) ls v.flatten := by
  have hblock := hrel.blocks q d hd
  simp only [hd, Option.bind_eq_bind, Option.bind_some]
  cases e with
  | word => exact hel.elim
  | field => exact hel.elim
  | witness =>
    obtain ⟨hm, hq⟩ := hel
    rw [hq] at hblock
    have hnode := hblock.isNode_of_scalar rfl
    obtain ⟨-, ⟨lc, hlc⟩, -⟩ := hblock
    rw [Payload.isArray_of_isNode hnode, flatten_scalar hlc]
    exact ⟨[.inr q], rfl, .cons ⟨hm, v, hq, hlc⟩ .nil⟩
  | array e =>
    have hq : ghost q = (.array e, v) := hel
    rw [hq] at hblock
    cases v with
    | const _ => exact hblock.elim
    | lc _ => exact hblock.elim
    | array rc data =>
      obtain ⟨ls, hls, hleaves⟩ := harray hq
      obtain ⟨els, hels, -⟩ := hblock
      rw [Payload.isArray_of_elems hels, Value.flatten]
      exact ⟨ls, hls, hleaves⟩

theorem leaves (hrel : HeapRel mode g held h ghost rank) : ∀ {fuel : Nat} {p : Ptr} {e : Elem}
    {rc : Nat} {data : List Value} {c : Counted Obj}, ghost p = (.array e, .array rc data) →
    Store.get? h p = some c → Store.below rank h p < fuel →
    ∃ ls, forEachArrayLeaf h fuel p = some ls ∧
      List.Forall₂ (LeafRel mode ghost) ls (flattenArrayIntoTable data) := by
  intro fuel
  induction fuel with
  | zero => intro p e rc data c _ _ hfuel; exact absurd hfuel (Nat.not_lt_zero _)
  | succ fuel ih =>
    intro p e rc data c hp hc hfuel
    obtain ⟨els, hels, hall⟩ := hrel.array_elems hp hc
    cases hpay : c.val.payload with
    | primArray xs =>
      rw [hpay] at hels
      obtain rfl := Option.some.inj hels
      exact ⟨xs.map .inl, by simp [forEachArrayLeaf, hc, hpay], wordLeaves hall⟩
    | boxedArray ps =>
      rw [hpay] at hels
      obtain rfl := Option.some.inj hels
      have hkids : ∀ q ∈ ps, q ∈ c.val.kids := by
        intro q hq
        rw [Obj.kids, hpay]
        exact hq
      have hparts : ∃ parts, (ps.mapM fun q => do
          let d ← Store.get? h q
          if d.val.payload.isArray then forEachArrayLeaf h fuel q else some [.inr q])
            = some parts ∧
          List.Forall₂ (LeafRel mode ghost) parts.flatten (flattenArrayIntoTable data) := by
        clear hpay hels hp
        induction ps generalizing data with
        | nil =>
          cases hall
          exact ⟨[], rfl, by simp [flattenArrayIntoTable]⟩
        | cons q ps ih' =>
          obtain ⟨v, vs, hel, hrest, rfl⟩ := List.forall₂_cons_left_iff.mp hall
          have hqk := hkids q List.mem_cons_self
          obtain ⟨d, hd⟩ := hrel.kid_live hc hqk
          have hbelow : Store.below rank h q < fuel := Nat.lt_of_lt_of_le
            (Store.below_lt_below (Store.lt_length_of_get? hd) (hrel.ranked p c q hc hqk))
            (Nat.le_of_lt_succ hfuel)
          obtain ⟨ls, hls, hhead⟩ := hrel.pointerLeaves hel hd fun hq => ih hq hd hbelow
          obtain ⟨parts, hparts, htail⟩ :=
            ih' hrest fun r hr => hkids r (List.mem_cons_of_mem _ hr)
          refine ⟨ls :: parts, ?_, ?_⟩
          · rw [List.mapM_cons, hls, hparts]
            rfl
          · rw [flattenArrayIntoTable, List.flatten_cons]
            exact List.rel_append hhead htail
      obtain ⟨parts, hparts, hleaves⟩ := hparts
      refine ⟨parts.flatten, ?_, hleaves⟩
      simp only [forEachArrayLeaf, hc, Option.bind_eq_bind, Option.bind_some, hpay] at hparts ⊢
      rw [hparts]
      rfl
    | _ => rw [hpay] at hels; cases hels

end HeapRel

end Mavros
