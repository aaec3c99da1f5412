/-
# `Mavros.VM.DerivativeSpec` — what additions to derivatives leave alone

A bump reads and writes the payload of a node and the outputs, never the `table_id` word.
So it commutes with any change of those words, and an addition to an output commutes with
every bump.

## What is proved

* `bump_retag`, `bumps_retag`: a memory whose `table_id` words are changed is bumped like the one it
  came from.
* `bumps_addOut`, `bumps_rows`: additions to outputs may be made last, whatever bumps stand between
  them.
* `Mem.bumps_sameShape`: bumps change derivatives alone.

The opcodes mix the three kinds of writes: the table of an array is named in the middle of the
additions its rows make, and the sum row gets its part with each of them.  With these lemmas the
additions are brought into the order in which rows are compared.
-/
import Mavros.VM.Derivative
import Mavros.VM.HeapSpec

namespace Mavros

open Lib

/-! ## The words that name tables -/

/-- A cell with another `table_id` word. -/
def retagCell (g : Option Nat → Option Nat) (c : Counted Obj) : Counted Obj :=
  { c with val := { c.val with tableId := g c.val.tableId } }

namespace Mem

/-- The memory with its `table_id` words changed, block by block. -/
def retag (g : Ptr → Option Nat → Option Nat) (m : Mem) : Mem :=
  { m with heap := m.heap.mapIdx fun p o => o.map (retagCell (g p)) }

/-- The word of one block is set. -/
def tableAt (arr : Ptr) (id : Nat) (p : Ptr) (tableId : Option Nat) : Option Nat :=
  if p = arr then some id else tableId

section Retag

variable {g g' : Ptr → Option Nat → Option Nat} {m m' : Mem} {side : Side} {p arr : Ptr}

theorem get?_retag (g : Ptr → Option Nat → Option Nat) (m : Mem) (p : Ptr) :
    Store.get? (m.retag g).heap p = (Store.get? m.heap p).map (retagCell (g p)) := by
  rw [retag, Store.get?, Store.get?, List.getElem?_mapIdx]
  cases m.heap[p]? with
  | none => rfl
  | some o => rfl

theorem retag_congr
    (h : ∀ p c, Store.get? m.heap p = some c → g p c.val.tableId = g' p c.val.tableId) :
    m.retag g = m.retag g' := by
  have hheap : (m.retag g).heap = (m.retag g').heap := by
    refine List.ext_getElem? fun p => ?_
    simp only [retag, List.getElem?_mapIdx]
    cases ho : m.heap[p]? with
    | none => rfl
    | some o =>
      cases o with
      | none => rfl
      | some c =>
        have hc := h p c (Store.get?_eq_some.mpr ho)
        simp only [Option.map_some, retagCell, hc]
  exact congrArg (fun heap => { m with heap := heap }) hheap

theorem retag_retag (g g' : Ptr → Option Nat → Option Nat) (m : Mem) :
    (m.retag g).retag g' = m.retag fun p tableId => g' p (g p tableId) := by
  simp only [retag, List.mapIdx_mapIdx]
  congr 2
  funext p o
  cases o with
  | none => rfl
  | some c => rfl

theorem retag_alloc (payload : Payload) (hnone : ∀ p, g p none = none) :
    (m.retag g).alloc payload = ((m.alloc payload).1, (m.alloc payload).2.retag g) := by
  simp only [alloc, retag, List.mapIdx_append, List.length_mapIdx, List.mapIdx_cons,
    List.mapIdx_nil, Option.map_some, retagCell, hnone]

theorem setTableId_eq {c : Counted Obj} (hc : Store.get? m.heap arr = some c) (id : Nat) :
    m.setTableId arr id = some (m.retag (tableAt arr id)) := by
  have hheap : m.heap.set arr (some { c with val := { c.val with tableId := some id } })
      = (m.retag (tableAt arr id)).heap := by
    refine List.ext_getElem? fun p => ?_
    rw [retag, List.getElem?_mapIdx]
    by_cases hp : p = arr
    · subst hp
      rw [List.getElem?_set_self (Store.lt_length_of_get? hc), Store.get?_eq_some.mp hc]
      simp only [Option.map_some, retagCell, tableAt, if_true]
    · rw [List.getElem?_set_ne (Ne.symm hp)]
      have hid : retagCell (tableAt arr id p) = fun c => c := by
        funext c
        rw [retagCell, tableAt, if_neg hp]
      rw [hid]
      simp
  rw [setTableId, hc, Option.bind_eq_bind, Option.bind_some, hheap]
  rfl

theorem retag_setPayload (g : Ptr → Option Nat → Option Nat) (m : Mem) (p : Ptr) (c : Counted Obj)
    (payload : Payload) :
    (m.retag g).setPayload p (retagCell (g p) c) payload = (m.setPayload p c payload).retag g := by
  simp only [setPayload, retag, List.mapIdx_set, Option.map_some, retagCell]

/-- A bump does not see the words. -/
theorem bump_retag (g : Ptr → Option Nat → Option Nat) (m : Mem) (side : Side) (p : Ptr) (x : Fr) :
    (m.retag g).bump side p x = (m.bump side p x).map (retag g) := by
  simp only [bump, get?_retag]
  cases hc : Store.get? m.heap p with
  | none => rfl
  | some c =>
    simp only [Option.map_some, Option.bind_eq_bind, Option.bind_some]
    have hpayload : (retagCell (g p) c).val.payload = c.val.payload := rfl
    rw [hpayload]
    cases hp : c.val.payload with
    | adSum a b d => exact congrArg some (retag_setPayload g m p c _)
    | adMulConst coeff value d => exact congrArg some (retag_setPayload g m p c _)
    | _ => rfl

end Retag

/-! ## Several additions -/

theorem bumps_cons (b : Bump) (bs : List Bump) (m : Mem) :
    m.bumps (b :: bs) = (b.run m).bind fun m => m.bumps bs := rfl

theorem bumps_append (bs bs' : List Bump) (m : Mem) :
    m.bumps (bs ++ bs') = (m.bumps bs).bind fun m => m.bumps bs' :=
  List.foldlM_append ..

theorem run_retag (g : Ptr → Option Nat → Option Nat) (b : Bump) (m : Mem) :
    b.run (m.retag g) = (b.run m).map (retag g) := by
  cases b with
  | out side i x => rfl
  | node side p x => exact bump_retag g m side p x

theorem bumps_retag (g : Ptr → Option Nat → Option Nat) :
    ∀ (bs : List Bump) (m : Mem), (m.retag g).bumps bs = (m.bumps bs).map (retag g) := by
  intro bs
  induction bs with
  | nil =>
    intro m
    rfl
  | cons b bs ih =>
    intro m
    rw [bumps_cons, bumps_cons, run_retag]
    cases b.run m with
    | none => rfl
    | some m' => exact ih m'

/-- Two additions to outputs may change places. -/
theorem addOut_addOut (m : Mem) (side side' : Side) (i j : Nat) (x y : Fr) :
    (m.addOut side i x).addOut side' j y = (m.addOut side' j y).addOut side i x := by
  unfold addOut
  congr 1
  funext s
  by_cases hs : side = side'
  · subst hs
    by_cases hs' : s = side
    · subst hs'
      simp only [Function.update_self]
      funext k
      rw [addAt_apply, addAt_apply, addAt_apply, addAt_apply, add_right_comm]
    · simp only [Function.update_of_ne hs']
  · by_cases h₁ : s = side
    · subst h₁
      simp only [Function.update_self, Function.update_of_ne hs]
    · by_cases h₂ : s = side'
      · subst h₂
        simp only [Function.update_self, Function.update_of_ne h₁]
      · simp only [Function.update_of_ne h₁, Function.update_of_ne h₂]

theorem run_addOut (b : Bump) (m : Mem) (side : Side) (i : Nat) (x : Fr) :
    b.run (m.addOut side i x) = (b.run m).map fun m => m.addOut side i x := by
  cases b with
  | out side' j y => exact congrArg some (addOut_addOut m side side' i j x y)
  | node side' p y =>
    simp only [Bump.run, bump]
    have hheap : (m.addOut side i x).heap = m.heap := rfl
    rw [hheap]
    cases hc : Store.get? m.heap p with
    | none => rfl
    | some c =>
      simp only [Option.bind_eq_bind, Option.bind_some]
      cases c.val.payload with
      | adConst value => exact congrArg some (addOut_addOut m side side' i 0 x _)
      | adWitness index => exact congrArg some (addOut_addOut m side side' i index x _)
      | _ => rfl

/-- An addition to an output may be made last. -/
theorem bumps_addOut (side : Side) (i : Nat) (x : Fr) :
    ∀ (bs : List Bump) (m : Mem),
      (m.addOut side i x).bumps bs = (m.bumps bs).map fun m => m.addOut side i x := by
  intro bs
  induction bs with
  | nil =>
    intro m
    rfl
  | cons b bs ih =>
    intro m
    rw [bumps_cons, bumps_cons, run_addOut]
    cases b.run m with
    | none => rfl
    | some m' => exact ih m'

/-- The outputs at the ends of rows may all be added after the last row. -/
theorem bumps_rows (side : Side) (rows : Nat → List Bump) (slot : Nat → Nat) (x : Fr) :
    ∀ (is : List Nat) (m : Mem),
      m.bumps (is.flatMap fun i => rows i ++ [.out side (slot i) x])
        = m.bumps (is.flatMap rows ++ is.map fun i => .out side (slot i) x) := by
  intro is
  induction is with
  | nil =>
    intro m
    rfl
  | cons i is ih =>
    intro m
    have hout : ∀ (m : Mem) (bs : List Bump),
        m.bumps (.out side (slot i) x :: bs) = (m.addOut side (slot i) x).bumps bs :=
      fun _ _ => rfl
    simp only [List.flatMap_cons, List.map_cons, List.append_assoc, List.cons_append,
      List.nil_append]
    rw [bumps_append, bumps_append]
    cases m.bumps (rows i) with
    | none => rfl
    | some m' =>
      -- the output of this row passes over the rows that follow
      simp only [Option.bind_some]
      rw [hout, ih, bumps_append, bumps_append, bumps_addOut]
      cases m'.bumps (is.flatMap rows) with
      | none => rfl
      | some m'' => rfl

end Mem

theorem Bump.run_sameShape {m m' : Mem} {b : Bump} (h : b.run m = some m') :
    SameShape m'.heap m.heap := by
  cases b with
  | out side j x =>
    obtain rfl := Option.some.inj h
    rfl
  | node side p x => exact Mem.bump_sameShape h

/-- Bumps change derivatives alone. -/
theorem Mem.bumps_sameShape : ∀ (bs : List Bump) {m m' : Mem}, m.bumps bs = some m' →
    SameShape m'.heap m.heap := by
  intro bs
  induction bs with
  | nil =>
    intro m m' h
    obtain rfl : m = m' := Option.some.inj h
    rfl
  | cons b bs ih =>
    intro m m' h
    rw [Mem.bumps_cons] at h
    obtain ⟨m₁, hb, hrest⟩ := Option.bind_eq_some_iff.mp h
    exact (ih hrest).trans (Bump.run_sameShape hb)

end Mavros
