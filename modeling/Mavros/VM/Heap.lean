/-
# `Mavros.VM.Heap` — boxed values and their reference counts

The heap of the virtual machine (`vm/array.rs`): blocks with a layout word, a
count, a `table_id` word and a payload.  An address is the number of the block in
allocation order and is never handed out twice; `u64::MAX` in the `table_id` word
is `none`.  Payloads are kept by element, so that a stride is the width of an
element and `array_size` their number: the compiler emits one stride for each
array type.

Reference counts are natural numbers, each unit of a count being a reference
that sits in a word of memory.  An access to a freed block is undefined in the
code; here it is `none`, and so are the `panic!`s.

## What is modelled

* The payloads: arrays of words or elements and arrays of pointers, the four kinds of gradient
  nodes, of which the inner ones carry a pending derivative for each of the three sides, structs
  and reference cells.
* `bump`, which writes the output of a leaf and leaves its amount on an inner node.
* `decRcLoop`, the work list of `dec_rc` with its queue in the source's order.  A block that dies
  hands its pending derivatives to its children first.
* `arraySet` with `copyIfReused`, and the counts it adjusts in either branch before it writes.
* `forEachArrayLeaf`, which hands the leaves of a nested array to a callback.

Counts do not overflow here; a count of the source is a word, and each unit is a reference that
takes up a word somewhere else.
-/
import Mavros.Artifacts
import Mavros.Lib.RefCount

namespace Mavros

abbrev Ptr := Nat

/-- Which of the three vectors of a constraint system: `a`, `b` or `c`. -/
inductive Side where
  | a | b | c
deriving DecidableEq, Repr

/-- An array element stored in place: a machine word, or a field element. -/
inductive PrimElem where
  | word (n : Nat)
  | field (x : Fr)
deriving DecidableEq, Repr

/-- The payload of a block, by `DataType`.  The three fields `da`, `db`, `dc` of the
inner gradient nodes are the values of `d`. -/
inductive Payload where
  | primArray (elems : List PrimElem)
  | boxedArray (elems : List Ptr)
  | adConst (value : Fr)
  | adWitness (index : Nat)
  | adSum (a b : Ptr) (d : Side → Fr)
  | adMulConst (coeff : Fr) (value : Ptr) (d : Side → Fr)
  | struct (fields : List (PrimElem ⊕ Ptr))
  | refCell (elem : PrimElem ⊕ Option Ptr)

/-- The references a payload owns, in the order in which `dec_rc` queues them. -/
def Payload.kids : Payload → List Ptr
  | boxedArray elems => elems
  | adSum a b _ => [a, b]
  | adMulConst _ value _ => [value]
  | struct fields => fields.filterMap Sum.getRight?
  | refCell (.inr (some p)) => [p]
  | _ => []

/-- The number of elements of an array. -/
def Payload.arraySize : Payload → Nat
  | primArray elems => elems.length
  | boxedArray elems => elems.length
  | _ => 0

/-- `is_prim_array` or `is_boxed_array`. -/
def Payload.isArray : Payload → Bool
  | primArray _ | boxedArray _ => true
  | _ => false

/-- A block without its count. -/
structure Obj where
  payload : Payload
  tableId : Option Nat

def Obj.kids (o : Obj) : List Ptr := o.payload.kids

abbrev Heap := Lib.Store Obj

/-- The heap, the gradient outputs `out_da`, `out_db`, `out_dc`, and the blocks
freed so far in order. -/
structure Mem where
  heap : Heap
  out : Side → Nat → Fr
  freed : List Ptr

/-- `f` with `x` added at `i`. -/
def addAt (f : Nat → Fr) (i : Nat) (x : Fr) : Nat → Fr := Function.update f i (f i + x)

namespace Mem

/-- `BoxedValue::alloc`: count one, no table. -/
def alloc (payload : Payload) (m : Mem) : Ptr × Mem :=
  (m.heap.length, { m with heap := m.heap ++ [some ⟨1, ⟨payload, none⟩⟩] })

/-- Overwrite the payload of a live block. -/
def setPayload (m : Mem) (p : Ptr) (c : Lib.Counted Obj) (payload : Payload) : Mem :=
  { m with heap := m.heap.set p (some { c with val := { c.val with payload := payload } }) }

/-- `out_d? [i] += x`. -/
def addOut (m : Mem) (side : Side) (i : Nat) (x : Fr) : Mem :=
  { m with out := Function.update m.out side (addAt (m.out side) i x) }

/-- `bump_da`, `bump_db`, `bump_dc`. -/
def bump (side : Side) (p : Ptr) (amount : Fr) (m : Mem) : Option Mem := do
  let c ← m.heap.get? p
  match c.val.payload with
  | .adConst value => some (m.addOut side 0 (amount * value))
  | .adWitness index => some (m.addOut side index amount)
  | .adSum a b d =>
      some (m.setPayload p c (.adSum a b (Function.update d side (d side + amount))))
  | .adMulConst coeff value d =>
      some (m.setPayload p c
        (.adMulConst coeff value (Function.update d side (d side + amount))))
  | _ => none

/-- `bump_da`, `bump_db` and `bump_dc` of one node. -/
def bumpAll (p : Ptr) (d : Side → Fr) (m : Mem) : Option Mem := do
  let m ← m.bump .a p (d .a)
  let m ← m.bump .b p (d .b)
  m.bump .c p (d .c)

/-- `inc_rc`. -/
def incRc (p : Ptr) (n : Nat) (m : Mem) : Option Mem := do
  let c ← m.heap.get? p
  return { m with heap := m.heap.set p (some { c with rc := c.rc + n }) }

/-- `free`. -/
def free (p : Ptr) (m : Mem) : Mem :=
  { m with heap := m.heap.set p none, freed := m.freed ++ [p] }

/-- What `dec_rc` does to the children of a dying block before freeing it: a
gradient node hands its derivatives down. -/
def handDown (payload : Payload) (m : Mem) : Option Mem :=
  match payload with
  | .adSum a b d => do
      let m ← m.bumpAll a d
      m.bumpAll b d
  | .adMulConst coeff value d => m.bumpAll value fun side => d side * coeff
  | _ => some m

/-- The work list of `dec_rc`.  A round lowers the sum of all counts by one, so
that sum is enough fuel. -/
def decRcLoop : (fuel : Nat) → (queue : List Ptr) → Mem → Option Mem
  | _, [], m => some m
  | 0, _ :: _, _ => none
  | fuel + 1, item :: queue, m => do
      let c ← m.heap.get? item
      if c.rc = 1 then
        let m ← m.handDown c.val.payload
        decRcLoop fuel (queue ++ c.val.kids) (m.free item)
      else
        decRcLoop fuel queue
          { m with heap := m.heap.set item (some { c with rc := c.rc - 1 }) }

/-- `dec_rc`. -/
def decRc (p : Ptr) (m : Mem) : Option Mem := m.decRcLoop m.heap.totalRc [p]

/-- `copy_if_reused`: the array itself when this is its last reference, else a new
block with the same payload, the old count lowered. -/
def copyIfReused (p : Ptr) (m : Mem) : Option (Ptr × Mem) := do
  let c ← m.heap.get? p
  if c.rc = 1 then
    return (p, m)
  else
    let (q, m) := m.alloc c.val.payload
    return (q, { m with heap := m.heap.set p (some { c with rc := c.rc - 1 }) })

/-- The write of `array_set` at an index in range. -/
def storeElem (p : Ptr) (index : Nat) (source : PrimElem ⊕ Ptr) (m : Mem) : Option Mem := do
  let c ← m.heap.get? p
  match c.val.payload, source with
  | .primArray elems, .inl e => some (m.setPayload p c (.primArray (elems.set index e)))
  | .boxedArray elems, .inr q => some (m.setPayload p c (.boxedArray (elems.set index q)))
  | _, _ => none

/-- The reference counts `array_set` adjusts before it writes to `q`: the element
written over dies in a reused array; in a copy all the others are shared now. -/
def retainOthers (p q : Ptr) (index : Nat) (payload : Payload) (m : Mem) : Option Mem :=
  match payload with
  | .boxedArray elems =>
      if q = p then elems[index]?.bind fun old => m.decRc old
      else (elems.eraseIdx index).foldlM (fun m elem => m.incRc elem 1) m
  | _ => some m

/-- `array_set`: an index past the end panics. -/
def arraySet (p : Ptr) (index : Nat) (source : PrimElem ⊕ Ptr) (m : Mem) :
    Option (Ptr × Mem) := do
  let c ← m.heap.get? p
  if index < c.val.payload.arraySize then
    let (q, m) ← m.copyIfReused p
    let m ← m.retainOthers p q index c.val.payload
    let m ← m.storeElem q index source
    return (q, m)
  else none

/-- The `table_id` word of a block. -/
def setTableId (p : Ptr) (id : Nat) (m : Mem) : Option Mem := do
  let c ← m.heap.get? p
  return { m with heap := m.heap.set p (some { c with val := { c.val with tableId := some id } }) }

end Mem

/-- `for_each_array_leaf`: what its callback is handed, in order.  An element of a
boxed array that is no array itself is handed over as the pointer it is.  The
nesting is bounded by `fuel`; the machine recurses freely. -/
def forEachArrayLeaf (h : Heap) : (fuel : Nat) → Ptr → Option (List (PrimElem ⊕ Ptr))
  | 0, _ => none
  | fuel + 1, p => do
      let c ← h.get? p
      match c.val.payload with
      | .primArray elems => some (elems.map .inl)
      | .boxedArray elems => do
          let parts ← elems.mapM fun q => do
            let d ← h.get? q
            if d.val.payload.isArray then forEachArrayLeaf h fuel q else some [.inr q]
          return parts.flatten
      | _ => none

end Mavros
