/-
# `Mavros.VM.ArrayContents` — `array_set` as an update of values

What a reference sees is a tree, unfolded to any depth.  `array_set` takes over one
reference to the array and one to each block the new element refers to, and returns one
reference.  Of the trees that can still be seen, in place or after a copy, none has
changed, and the one returned is the old one with an element replaced
(`arraySet_contents`).

## What is proved

`arraySet_contents`: over a heap whose counts are exact, `array_set` at an index in range runs, the
counts are exact afterwards, every reference that is left shows at every depth what it showed,
and the one returned shows the array with the element replaced.  Arrays may be nested and shared
to any depth.

`arraySet_contents_sharedRows` is a matrix two of whose rows are one row, with a variable left.

## How it goes

The last reference and the shared array are two proofs with one conclusion.  In place, the array
is seen through the one reference only, so overwriting it shows nowhere else
(`contentsAt_frame`), and the element written over is dropped.  By copy, the array stays what it
is, and what it refers to is counted once more.
-/
import Mavros.VM.ArrayRel

namespace Mavros

open Lib Lib.Store HeapRel

/-! ## What a reference sees

To a depth, so that no well-foundedness is needed to look.
-/

/-- What is seen through a reference, down to some depth. -/
inductive Contents where
  | unseen
  | dead
  | prims (elems : List PrimElem)
  | boxes (elems : List Contents)
  | other (shape : Payload) (kids : List Contents)

/-- A payload with its references and its pending derivatives forgotten. -/
def Payload.shape : Payload → Payload
  | primArray elems => primArray elems
  | boxedArray elems => boxedArray (elems.map fun _ => 0)
  | adConst value => adConst value
  | adWitness index => adWitness index
  | adSum _ _ _ => adSum 0 0 fun _ => 0
  | adMulConst coeff _ _ => adMulConst coeff 0 fun _ => 0
  | struct fields => struct (fields.map (Sum.map id fun _ => 0))
  | refCell elem => refCell (elem.map id (Option.map fun _ => 0))

/-- What a payload shows when `look` is what its references show. -/
def Payload.contents (look : Ptr → Contents) : Payload → Contents
  | primArray elems => .prims elems
  | boxedArray elems => .boxes (elems.map look)
  | pay => .other pay.shape (pay.kids.map look)

/-- What the reference `p` shows to a depth. -/
def contentsAt (h : Heap) : (depth : Nat) → Ptr → Contents
  | 0, _ => .unseen
  | depth + 1, p =>
      match Store.get? h p with
      | none => .dead
      | some c => c.val.payload.contents (contentsAt h depth)

theorem contentsAt_succ {h : Heap} {p : Ptr} {c : Counted Obj} (hc : Store.get? h p = some c)
    (depth : Nat) : contentsAt h (depth + 1) p = c.val.payload.contents (contentsAt h depth) := by
  rw [contentsAt, hc]

/-- The array with one element replaced. -/
def Contents.replace : Contents → Nat → PrimElem ⊕ Contents → Contents
  | prims elems, index, .inl x => prims (elems.set index x)
  | boxes elems, index, .inr t => boxes (elems.set index t)
  | t, _, _ => t

/-- The payload is that of an array whose elements are of the kind of `source`. -/
def Payload.Takes : Payload → PrimElem ⊕ Ptr → Prop
  | primArray _, .inl _ | boxedArray _, .inr _ => True
  | _, _ => False

theorem Payload.Takes.cases {pay : Payload} {source : PrimElem ⊕ Ptr} (h : pay.Takes source) :
    (∃ xs x, pay = .primArray xs ∧ source = .inl x) ∨
      ∃ ps q, pay = .boxedArray ps ∧ source = .inr q := by
  cases pay with
  | primArray xs =>
      cases source with
      | inl x => exact .inl ⟨xs, x, rfl, rfl⟩
      | inr q => exact h.elim
  | boxedArray ps =>
      cases source with
      | inl x => exact h.elim
      | inr q => exact .inr ⟨ps, q, rfl, rfl⟩
  | _ => exact h.elim

theorem Payload.contents_erase (look : Ptr → Contents) (pay : Payload) :
    pay.erase.contents look = pay.contents look := by
  cases pay <;> rfl

theorem Payload.contents_congr {look look' : Ptr → Contents} {pay : Payload}
    (h : ∀ q ∈ pay.kids, look q = look' q) : pay.contents look = pay.contents look' := by
  have hmap : pay.kids.map look = pay.kids.map look' := List.map_congr_left h
  cases pay with
  | primArray elems => rfl
  | boxedArray elems => exact congrArg Contents.boxes hmap
  | _ => exact congrArg (Contents.other _) hmap

theorem contents_setElem (look : Ptr → Contents) {pay : Payload} {source : PrimElem ⊕ Ptr}
    (htakes : pay.Takes source) (index : Nat) :
    (setElem pay index source).contents look
      = (pay.contents look).replace index (source.map id look) := by
  rcases htakes.cases with ⟨xs, x, rfl, rfl⟩ | ⟨ps, q, rfl, rfl⟩
  · rfl
  · simp [setElem, Payload.contents, Contents.replace, List.map_set]

/-! ## The frame -/

/-- Except at `q`, the blocks of `h'` are blocks of `h`, counts and pending derivatives
aside. -/
def KeptExcept (q : Ptr) (h h' : Heap) : Prop :=
  ∀ r c', r ≠ q → Store.get? h' r = some c' →
    ∃ c, Store.get? h r = some c ∧ c.val.payload.erase = c'.val.payload.erase

theorem KeptExcept.of_shrinks {q : Ptr} {h h' h'' : Heap} (hk : KeptExcept q h h')
    (hs : Shrinks h'' h') : KeptExcept q h h'' := by
  intro r c'' hr hc''
  obtain ⟨c', hc', he', -⟩ := hs.payload_erase hc''
  obtain ⟨c, hc, he⟩ := hk r c' hr hc'
  exact ⟨c, hc, he.trans he'⟩

theorem KeptExcept.set (q : Ptr) (h : Heap) (o : Option (Counted Obj)) :
    KeptExcept q h (h.set q o) := by
  intro r c' hr hc'
  rw [Store.get?_set_ne hr] at hc'
  exact ⟨c', hc', rfl⟩

/-- What is seen without passing through `q` has not changed. -/
theorem contentsAt_frame {h h' : Heap} {held : Ptr → Nat} {q : Ptr}
    (hb : Balanced Obj.kids h' held) (hrc : Store.rcOf h' q = 1) (hq : 0 < held q)
    (hkept : KeptExcept q h h') :
    ∀ {depth : Nat} {r : Ptr}, r ≠ q → (∃ c, Store.get? h' r = some c) →
      contentsAt h' depth r = contentsAt h depth r := by
  intro depth
  induction depth with
  | zero => intro r _ _; rfl
  | succ depth ih =>
      intro r hr hlive
      obtain ⟨c', hc'⟩ := hlive
      obtain ⟨c, hc, he⟩ := hkept r c' hr hc'
      rw [contentsAt_succ hc', contentsAt_succ hc, ← Payload.contents_erase _ c.val.payload, he,
        Payload.contents_erase]
      refine Payload.contents_congr fun s hs => ih ?_ (hb.get?_of_mem_kids hc' hs)
      rintro rfl
      exact hb.not_mem_kids hrc hq hc' hs

/-! ## In place and by copy -/

section ArraySet

variable {m : Mem} {p : Ptr} {source : PrimElem ⊕ Ptr} {rest : Ptr → Nat} {c : Counted Obj}
  {index : Nat}

/-- What `array_set` leaves: one reference to the block `q`, which has the new payload. -/
structure SetAt (m m' : Mem) (rest : Ptr → Nat) (pay : Payload) (q : Ptr) : Prop where
  block : ∃ c', Store.get? m'.heap q = some c' ∧ c'.val.payload = pay ∧ c'.rc = 1
  balanced : Balanced Obj.kids m'.heap fun r => rest r + if r = q then 1 else 0
  positive : Store.Positive m'.heap
  kept : KeptExcept q m.heap m'.heap

theorem elems_of_takes (index : Nat) {pay : Payload} (htakes : pay.Takes source) :
    ∃ els, pay.elems = some els ∧
      (setElem pay index source).elems = some (els.set index source) := by
  rcases htakes.cases with ⟨xs, x, rfl, rfl⟩ | ⟨ps, q, rfl, rfl⟩
  · exact ⟨_, rfl, by simp [setElem, Payload.elems, List.map_set]⟩
  · exact ⟨_, rfl, by simp [setElem, Payload.elems, List.map_set]⟩

/-- The last reference: the element written over is dropped. -/
theorem arraySet_inPlace
    (hb : Balanced Obj.kids m.heap fun r =>
      rest r + ((if r = p then 1 else 0) + (elemKids source).count r))
    (hpos : Store.Positive m.heap) (hn : NodesClosed m.heap)
    (hc : Store.get? m.heap p = some c) (htakes : c.val.payload.Takes source)
    (hidx : index < c.val.payload.arraySize) (hrc : c.rc = 1) :
    ∃ m', m.arraySet p index source = some (p, m') ∧
      SetAt m m' rest (setElem c.val.payload index source) p := by
  obtain ⟨els, hels, hels'⟩ := elems_of_takes index htakes
  have hlt : index < els.length := arraySize_of_elems hels ▸ hidx
  have hkids : c.val.kids = els.flatMap elemKids := Payload.kids_of_elems hels
  have hkids' := Payload.kids_of_elems hels'
  have hcount := count_flatMap_set els hlt source
  have hnot : ∀ {r d}, Store.get? m.heap r = some d → p ∉ d.val.kids := fun hd =>
    hb.not_mem_kids ((Store.rcOf_eq hc).trans hrc) (by simp) hd
  have hbp := hb p
  simp only [Store.rcOf_eq hc, hrc, if_true] at hbp
  have hzero : (els.flatMap elemKids).count p = 0 := List.count_eq_zero.mpr (hkids ▸ hnot hc)
  -- the new element is in place, the old one is held
  let c' : Counted Obj :=
    { c with val := { c.val with payload := setElem c.val.payload index source } }
  have hk' : Obj.kids c'.val = (els.set index source).flatMap elemKids := hkids'
  have hset : Balanced Obj.kids (m.overwrite p (some c')).heap
      fun r => rest r + (if r = p then 1 else 0) + (elemKids els[index]).count r := by
    refine hb.set hc _ ?_ fun q hq => ?_
    · have := hcount p
      simp only [Option.elim_some, Store.cellRefs, hk', hkids, if_true, c']
      omega
    · have := hcount q
      simp only [Option.elim_some, Store.cellRefs, hk', hkids, if_neg hq]
      omega
  have hget : Store.get? (m.overwrite p (some c')).heap p = some c' :=
    Store.get?_set_self (Store.lt_length_of_get? hc) _
  have hpos' : Store.Positive (m.overwrite p (some c')).heap :=
    hpos.set_some (show 0 < c.rc by omega)
  have hkept : KeptExcept p m.heap (m.overwrite p (some c')).heap := KeptExcept.set p m.heap _
  have hcopy : m.copyIfReused p = some (p, m) := by simp [Mem.copyIfReused, hc, hrc]
  rcases htakes.cases with ⟨xs, x, hpay, rfl⟩ | ⟨ps, q, hpay, rfl⟩
  · have hold : elemKids els[index] = [] := by
      rw [hpay] at hels
      obtain rfl := Option.some.inj hels
      simp [elemKids]
    have hstore := storeElem_eq hc index (.inl x) (.inl ⟨xs, x, hpay, rfl⟩)
    refine ⟨m.overwrite p (some c'), ?_, ⟨c', hget, rfl, hrc⟩,
      hset.congr fun r => by simp [hold], hpos', hkept⟩
    simp only [Mem.arraySet, hc, Option.bind_eq_bind, Option.bind_some, if_pos hidx, hcopy]
    simp only [Mem.retainOthers, hpay, Option.bind_some]
    rw [hstore]
    rfl
  · have hlt' : index < ps.length := by
      rw [hpay] at hidx
      exact hidx
    have hold : els[index] = .inr ps[index] := by
      rw [hpay] at hels
      obtain rfl := Option.some.inj hels
      simp
    have hmem : ps[index] ∈ c.val.kids := by
      rw [Obj.kids, hpay]
      exact List.getElem_mem hlt'
    have hn' : NodesClosed (m.overwrite p (some c')).heap := by
      intro r d s e hd hnode hs he
      have hr : r ≠ p := by
        rintro rfl
        obtain rfl := Option.some.inj (hget.symm.trans hd)
        simp [c', setElem, hpay, Payload.IsNode] at hnode
      rw [Mem.get?_overwrite_ne m hr] at hd
      have hsp : s ≠ p := by
        rintro rfl
        exact hnot hd hs
      rw [Mem.get?_overwrite_ne m hsp] at he
      exact hn r d s e hd hnode hs he
    obtain ⟨mv, hmv, hbv, hposv⟩ := Mem.decRc_isSome (p := ps[index]) hset hpos' hn' (by
      simp [hold, elemKids])
    -- nothing refers to the array, so dropping the old element does not reach it
    obtain ⟨hover, hframe⟩ := Mem.decRc_overwrite_closed (S := (· ≠ p)) c'
      (fun r d _ hd s hs => by
        rintro rfl
        exact hnot hd hs)
      (fun h => hnot hc (h ▸ hmem)) (fun h => h rfl) hc rfl
    obtain ⟨m₂, h₂, rfl⟩ := Option.map_eq_some_iff.mp (hover.symm.trans hmv)
    have hget₂ := hframe m₂ h₂
    have hstore := storeElem_eq hget₂ index (.inr q) (.inr ⟨ps, q, hpay, rfl⟩)
    refine ⟨m₂.overwrite p (some c'), ?_,
      ⟨c', Store.get?_set_self (Store.lt_length_of_get? hget₂) _, rfl, hrc⟩,
      hbv.congr fun r => ?_, hposv, hkept.of_shrinks (Mem.decRcLoop_shrinks hmv)⟩
    · simp only [Mem.arraySet, hc, Option.bind_eq_bind, Option.bind_some, if_pos hidx, hcopy]
      simp only [Mem.retainOthers, hpay, if_true, List.getElem?_eq_getElem hlt', Option.bind_some,
        h₂]
      rw [hstore]
      rfl
    · by_cases hr : r = ps[index]
      · subst hr
        simp [dropHeld, hold, elemKids]
      · simp [dropHeld, hr, hold, elemKids, Ne.symm hr]

/-- The references of a shared array are counted once more. -/
theorem incAll_balanced {held : Ptr → Nat} :
    ∀ {qs : List Ptr} {m : Mem}, Balanced Obj.kids m.heap held → Store.Positive m.heap →
      (∀ q ∈ qs, ∃ c, Store.get? m.heap q = some c) →
      ∃ m', qs.foldlM (fun m q => m.incRc q 1) m = some m' ∧
        Balanced Obj.kids m'.heap (fun q => held q + qs.count q) ∧ Store.Positive m'.heap ∧
        Shrinks m'.heap m.heap ∧ m'.heap.length = m.heap.length := by
  intro qs
  induction qs generalizing held with
  | nil =>
      intro m hb hpos _
      exact ⟨m, rfl, hb.congr (by simp), hpos, Shrinks.refl _, rfl⟩
  | cons q qs ih =>
      intro m hb hpos hlive
      obtain ⟨c, hc⟩ := hlive q List.mem_cons_self
      let m₁ : Mem := { m with heap := m.heap.set q (some { c with rc := c.rc + 1 }) }
      have h₁ : m.incRc q 1 = some m₁ := by simp [Mem.incRc, hc, m₁]
      have hlive₁ : ∀ r ∈ qs, ∃ d, Store.get? m₁.heap r = some d := by
        intro r hr
        obtain ⟨d, hd⟩ := hlive r (List.mem_cons_of_mem _ hr)
        by_cases hrq : r = q
        · subst hrq
          exact ⟨_, Store.get?_set_self (Store.lt_length_of_get? hc) _⟩
        · exact ⟨d, (Store.get?_set_ne hrq _).trans hd⟩
      obtain ⟨m', h', hb', hpos', hs', hlen'⟩ := ih (hb.inc hc 1)
        (hpos.set_some (Nat.succ_pos c.rc)) hlive₁
      refine ⟨m', ?_, hb'.congr fun r => ?_, hpos', hs'.trans (Shrinks.set_rc hc _),
        hlen'.trans (List.length_set ..)⟩
      · rw [List.foldlM_cons, h₁]
        exact h'
      · rw [List.count_cons]
        by_cases hr : r = q
        · subst hr
          simp
          omega
        · simp [hr, Ne.symm hr]

/-- More than one reference: all elements but the one written over are shared now. -/
theorem arraySet_byCopy
    (hb : Balanced Obj.kids m.heap fun r =>
      rest r + ((if r = p then 1 else 0) + (elemKids source).count r))
    (hpos : Store.Positive m.heap) (hc : Store.get? m.heap p = some c)
    (htakes : c.val.payload.Takes source) (hidx : index < c.val.payload.arraySize)
    (hrc : c.rc ≠ 1) :
    ∃ m', m.arraySet p index source = some (m.heap.length, m') ∧
      SetAt m m' rest (setElem c.val.payload index source) m.heap.length := by
  obtain ⟨els, hels, hels'⟩ := elems_of_takes index htakes
  have hlt : index < els.length := arraySize_of_elems hels ▸ hidx
  have hplt := Store.lt_length_of_get? hc
  have hone := hpos p c hc
  have hkids' := Payload.kids_of_elems hels'
  let qs := (els.eraseIdx index).flatMap elemKids
  have hcount : ∀ r, (setElem c.val.payload index source).kids.count r
      = (elemKids source).count r + qs.count r := by
    intro r
    rw [hkids']
    exact count_flatMap_set_eraseIdx els hlt source r
  -- the count of the array goes down, the shared ones go up, then the copy is made
  let ma : Mem := { m with heap := m.heap.set p (some { c with rc := c.rc - 1 }) }
  have hba : Balanced Obj.kids ma.heap fun r => rest r + (elemKids source).count r := by
    refine (hb.dec hc hone (by simp)).congr fun r => ?_
    by_cases hr : r = p
    · subst hr
      simp [dropHeld]
      omega
    · simp [dropHeld, hr]
  have hposa : Store.Positive ma.heap := hpos.set_some (show 0 < c.rc - 1 by omega)
  have hliveq : ∀ r ∈ qs, ∃ d, Store.get? ma.heap r = some d := by
    intro r hr
    have hmem : r ∈ c.val.kids := by
      rw [Obj.kids, Payload.kids_of_elems hels]
      obtain ⟨el, hel, hr⟩ := List.mem_flatMap.mp hr
      exact List.mem_flatMap.mpr ⟨el, List.mem_of_mem_eraseIdx hel, hr⟩
    have hc' : Store.get? ma.heap p = some { c with rc := c.rc - 1 } :=
      Store.get?_set_self hplt _
    exact hba.get?_of_mem_kids hc' hmem
  obtain ⟨mb, hmb, hbb, hposb, hsb, hlenb⟩ := incAll_balanced hba hposa hliveq
  have hlen : mb.heap.length = m.heap.length := hlenb.trans (List.length_set ..)
  have hcopy : m.copyIfReused p
      = some (m.heap.length, snoc ma ⟨1, ⟨c.val.payload, none⟩⟩) := by
    simp [Mem.copyIfReused, hc, hrc, Mem.alloc, snoc, ma, List.set_append_left _ _ hplt]
  have hne : m.heap.length ≠ p := Nat.ne_of_gt hplt
  have hstore : (snoc mb ⟨1, ⟨c.val.payload, none⟩⟩).storeElem m.heap.length index source
      = some (mb.alloc (setElem c.val.payload index source)).2 := by
    rw [← hlen]
    exact storeElem_snoc mb htakes.cases
  have hretain : (snoc ma ⟨1, ⟨c.val.payload, none⟩⟩).retainOthers p m.heap.length index
      c.val.payload = some (snoc mb ⟨1, ⟨c.val.payload, none⟩⟩) := by
    rcases htakes.cases with ⟨xs, x, hpay, -⟩ | ⟨ps, q, hpay, -⟩
    · have hqs : qs = [] := by
        rw [hpay] at hels
        obtain rfl := Option.some.inj hels
        refine List.flatMap_eq_nil_iff.mpr fun el hel => ?_
        obtain ⟨y, -, rfl⟩ := List.mem_map.mp (List.mem_of_mem_eraseIdx hel)
        rfl
      rw [hqs] at hmb
      obtain rfl := Option.some.inj hmb
      simp [Mem.retainOthers, hpay]
    · have hqs : qs = ps.eraseIdx index := by
        rw [hpay] at hels
        obtain rfl := Option.some.inj hels
        simp only [qs, List.eraseIdx_map, List.flatMap_map]
        exact List.flatMap_singleton' _
      rw [hqs] at hmb
      simp only [Mem.retainOthers, hpay, if_neg hne]
      rw [hpay] at *
      exact incAll_snoc hmb
  refine ⟨(mb.alloc (setElem c.val.payload index source)).2,
    by simp [Mem.arraySet, hc, hidx, hcopy, hretain, hstore],
    ⟨⟨1, ⟨setElem c.val.payload index source, none⟩⟩, ?_, rfl, rfl⟩, ?_, ?_, ?_⟩
  · rw [← hlen]
    exact Store.get?_append_length _ _
  · rw [← hlen]
    exact Balanced.alloc (hbb.congr fun r => by
      show _ = rest r + (setElem c.val.payload index source).kids.count r
      rw [hcount, Nat.add_assoc])
  · exact hposb.append Nat.one_pos
  · intro r c' hr hc'
    have hr' : r ≠ mb.heap.length := by rwa [hlen]
    rw [Mem.alloc, Store.get?_append_ne hr'] at hc'
    obtain ⟨d, hd, he, -⟩ := (hsb.trans (Shrinks.set_rc hc _)).payload_erase hc'
    exact ⟨d, hd, he⟩

end ArraySet

/-! ## Value semantics -/

/-- With `rest` the references of everything else, and one reference each to the array and
to the block the new element refers to: `array_set` returns the array with the element
replaced, in the same block if that was the last reference to it and in a new block
otherwise; whatever else is referred to shows what it showed, to every depth; and each
count is again the number of references. -/
theorem arraySet_contents {m : Mem} {p : Ptr} {index : Nat} {source : PrimElem ⊕ Ptr}
    {rest : Ptr → Nat} {c : Counted Obj}
    (hb : Balanced Obj.kids m.heap fun r =>
      rest r + ((if r = p then 1 else 0) + (elemKids source).count r))
    (hpos : Store.Positive m.heap) (hn : NodesClosed m.heap)
    (hc : Store.get? m.heap p = some c) (htakes : c.val.payload.Takes source)
    (hidx : index < c.val.payload.arraySize) :
    ∃ q m', m.arraySet p index source = some (q, m') ∧
      (if c.rc = 1 then q = p else Store.get? m.heap q = none) ∧
      (∀ depth, contentsAt m'.heap (depth + 1) q
        = (contentsAt m.heap (depth + 1) p).replace index
            (source.map id (contentsAt m.heap depth))) ∧
      (∀ r depth, 0 < rest r + Store.refs Obj.kids m'.heap r →
        contentsAt m'.heap depth r = contentsAt m.heap depth r) ∧
      Balanced Obj.kids m'.heap (fun r => rest r + if r = q then 1 else 0) ∧
      Store.Positive m'.heap := by
  obtain ⟨q, m', hrun, hwhere, hset⟩ : ∃ q m', m.arraySet p index source = some (q, m') ∧
      (if c.rc = 1 then q = p else Store.get? m.heap q = none) ∧
      SetAt m m' rest (setElem c.val.payload index source) q := by
    by_cases hrc : c.rc = 1
    · obtain ⟨m', hrun, hset⟩ := arraySet_inPlace hb hpos hn hc htakes hidx hrc
      exact ⟨p, m', hrun, by rw [if_pos hrc], hset⟩
    · obtain ⟨m', hrun, hset⟩ := arraySet_byCopy hb hpos hc htakes hidx hrc
      exact ⟨_, m', hrun, by rw [if_neg hrc]; simp [Store.get?], hset⟩
  obtain ⟨⟨c', hc', hpay, hone⟩, hb', hpos', hkept⟩ := hset
  have hrcq : Store.rcOf m'.heap q = 1 := (Store.rcOf_eq hc').trans hone
  have hheld : 0 < rest q + if q = q then 1 else 0 := by simp
  have hframe := fun {depth r} => @contentsAt_frame _ _ _ q hb' hrcq hheld hkept depth r
  refine ⟨q, m', hrun, hwhere, fun depth => ?_, fun r depth hr => ?_, hb', hpos'⟩
  · rw [contentsAt_succ hc', contentsAt_succ hc, hpay, ← contents_setElem _ htakes]
    refine Payload.contents_congr fun s hs => ?_
    have hs' : s ∈ c'.val.kids := by rwa [Obj.kids, hpay]
    refine hframe ?_ (hb'.get?_of_mem_kids hc' hs')
    rintro rfl
    exact hb'.not_mem_kids hrcq hheld hc' hs'
  · have hbr := hb' r
    refine hframe ?_ (Positive.get?_of_rcOf (by simp only at hbr; omega))
    rintro rfl
    have hbq := hb' r
    simp only [hrcq, if_true] at hbq
    omega

/-- One row held twice by a matrix, and the matrix by two variables. -/
def sharedRows : Mem where
  heap := [some ⟨3, ⟨.primArray [.word 7], none⟩⟩, some ⟨2, ⟨.boxedArray [0, 0], none⟩⟩]
  out := fun _ _ => 0
  freed := []

/-- Its first row replaced by the row itself, one variable left. -/
theorem arraySet_contents_sharedRows :
    ∃ q m', sharedRows.arraySet 1 0 (.inr 0) = some (q, m') ∧
      Store.get? sharedRows.heap q = none ∧
      contentsAt m'.heap 2 q = .boxes [.prims [.word 7], .prims [.word 7]] ∧
      contentsAt m'.heap 2 1 = contentsAt sharedRows.heap 2 1 ∧
      Balanced Obj.kids m'.heap fun r => (if r = 1 then 1 else 0) + if r = q then 1 else 0 := by
  have hb : Balanced Obj.kids sharedRows.heap fun r =>
      (if r = 1 then 1 else 0) + ((if r = 1 then 1 else 0)
        + (elemKids (.inr 0 : PrimElem ⊕ Ptr)).count r) := by
    intro r
    rcases r with _ | _ | r
    · rfl
    · rfl
    · simp [sharedRows, Store.rcOf, Store.get?, Store.refs, Store.cellRefs, Obj.kids,
          Payload.kids, elemKids]
  have hlive : ∀ r c, Store.get? sharedRows.heap r = some c →
      0 < c.rc ∧ ¬ c.val.payload.IsNode := by
    intro r c hc
    rcases r with _ | _ | r
    · exact Option.some.inj hc ▸ ⟨by decide, id⟩
    · exact Option.some.inj hc ▸ ⟨by decide, id⟩
    · simp [sharedRows, Store.get?] at hc
  obtain ⟨q, m', hrun, hwhere, hnew, hrest, hb', -⟩ := arraySet_contents hb
    (fun r c hc => (hlive r c hc).1)
    (fun r c s d hc hnode => absurd hnode (hlive r c hc).2)
    (c := ⟨2, ⟨.boxedArray [0, 0], none⟩⟩) rfl trivial (show 0 < 2 by decide)
  exact ⟨q, m', hrun, hwhere, hnew 1, hrest 1 2 (Nat.lt_of_lt_of_le Nat.zero_lt_one
    (Nat.le_add_right 1 _)), hb'⟩

end Mavros
