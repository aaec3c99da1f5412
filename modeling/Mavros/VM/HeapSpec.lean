/-
# `Mavros.VM.HeapSpec` — what the heap operations preserve

Two kinds of facts about `bump` and `dec_rc`, kept apart.

* What a run that succeeds does to the derivatives.  A gradient node stands for a
  linear functional of the witness, its `grad`; a derivative pending on a node is
  a multiple of that functional that has not reached the outputs yet.  `bump`
  adds a multiple of `grad p` to what is in the outputs or pending, and `dec_rc`
  changes nothing: it only moves derivatives down.

* When a run succeeds.  If every count is the number of references, no operation
  touches a freed block and `dec_rc` ends with its fuel.

## What is proved

For `bump`, for the three bumps of a node, and for the handing down of a dying block, four facts
each: what has happened (`_cases`), that nothing but derivatives has changed (`_sameShape`), that
other blocks are left alone (`_frame`), and what it does to the total (`_total`).  The fifth,
`_isSome`, is of the second kind.

## What it is not

`GradOf` does not say where the functionals come from.  In `Mavros.VM.Gradient` they are sums over
paths, in `Mavros.VM.HeapRel` the linear combinations of the generator; both are instances.
-/
import Mavros.VM.Heap

namespace Mavros

open Lib Lib.Store

/-! ## Payloads up to pending derivatives

Everything but derivatives, which is what counts and kinds depend on.
-/

/-- The blocks `bump` accepts. -/
def Payload.IsNode : Payload → Prop
  | adConst _ | adWitness _ | adSum _ _ _ | adMulConst _ _ _ => True
  | _ => False

/-- The derivative pending on a block. -/
def Payload.pending (side : Side) : Payload → Fr
  | adSum _ _ d => d side
  | adMulConst _ _ d => d side
  | _ => 0

/-- A payload with its pending derivatives forgotten. -/
def Payload.erase : Payload → Payload
  | adSum a b _ => adSum a b fun _ => 0
  | adMulConst coeff value _ => adMulConst coeff value fun _ => 0
  | p => p

@[simp] theorem Payload.kids_erase (p : Payload) : p.erase.kids = p.kids := by
  cases p <;> rfl

@[simp] theorem Payload.isNode_erase (p : Payload) : p.erase.IsNode ↔ p.IsNode := by
  cases p <;> rfl

/-- A cell with its pending derivatives forgotten. -/
def eraseCell (c : Counted Obj) : Counted Obj :=
  { c with val := { c.val with payload := c.val.payload.erase } }

/-- A heap with its pending derivatives forgotten. -/
def Heap.erase (h : Heap) : Heap := h.map (Option.map eraseCell)

theorem Heap.get?_erase (h : Heap) (p : Ptr) :
    Store.get? (Heap.erase h) p = (Store.get? h p).map eraseCell := by
  simp only [Heap.erase, Store.get?, List.getElem?_map]
  cases h[p]? with
  | none => rfl
  | some o => rfl

theorem Heap.erase_set (h : Heap) (p : Ptr) (o : Option (Counted Obj)) :
    Heap.erase (h.set p o) = (Heap.erase h).set p (o.map eraseCell) := by
  simp [Heap.erase, List.map_set]

/-- Two heaps that differ in pending derivatives only. -/
def SameShape (h h' : Heap) : Prop := Heap.erase h = Heap.erase h'

namespace SameShape

variable {h h' h'' : Heap}

theorem trans (hs : SameShape h h') (hs' : SameShape h' h'') : SameShape h h'' :=
  Eq.trans hs hs'

theorem get?_none_iff (hs : SameShape h h') (p : Ptr) :
    Store.get? h p = none ↔ Store.get? h' p = none := by
  have hp := congrArg (fun h => Store.get? h p) hs
  simp only [Heap.get?_erase] at hp
  cases h₁ : Store.get? h p <;> cases h₂ : Store.get? h' p <;> simp_all

/-- A live block of one heap is live in the other, with the same count, references
and kind. -/
theorem get?_some (hs : SameShape h h') {p : Ptr} {c : Counted Obj}
    (hc : Store.get? h p = some c) :
    ∃ c', Store.get? h' p = some c' ∧ c'.rc = c.rc ∧ c'.val.kids = c.val.kids
      ∧ c'.val.payload.erase = c.val.payload.erase := by
  have hp := congrArg (fun h => Store.get? h p) hs
  simp only [Heap.get?_erase, hc, Option.map_some] at hp
  obtain ⟨c', hc', he⟩ := Option.map_eq_some_iff.mp hp.symm
  have hpay : c'.val.payload.erase = c.val.payload.erase :=
    congrArg (fun c => c.val.payload) he
  have hrc : c'.rc = c.rc := congrArg (fun c => c.rc) he
  refine ⟨c', hc', hrc, ?_, hpay⟩
  rw [Obj.kids, Obj.kids, ← Payload.kids_erase, hpay, Payload.kids_erase]

theorem rcOf_eq (hs : SameShape h h') (p : Ptr) : Store.rcOf h p = Store.rcOf h' p := by
  cases hc : Store.get? h p with
  | none => rw [Store.rcOf_eq_zero hc, Store.rcOf_eq_zero ((hs.get?_none_iff p).mp hc)]
  | some c =>
      obtain ⟨c', hc', hrc, -, -⟩ := hs.get?_some hc
      rw [Store.rcOf_eq hc, Store.rcOf_eq hc', hrc]

theorem totalRc_eq (hs : SameShape h h') : Store.totalRc h = Store.totalRc h' := by
  have herase : ∀ h : Heap, Store.totalRc (Heap.erase h) = Store.totalRc h := by
    intro h
    simp only [Store.totalRc, Heap.erase, List.map_map]
    congr 1
    refine List.map_congr_left fun o _ => ?_
    cases o <;> rfl
  rw [← herase h, hs, herase]

theorem refs_eq (hs : SameShape h h') (p : Ptr) :
    Store.refs Obj.kids h p = Store.refs Obj.kids h' p := by
  have herase : ∀ h : Heap, Store.refs Obj.kids (Heap.erase h) p = Store.refs Obj.kids h p := by
    intro h
    simp only [Store.refs, Heap.erase, List.map_map]
    congr 1
    refine List.map_congr_left fun o _ => ?_
    cases o with
    | none => rfl
    | some c => simp [Store.cellRefs, eraseCell, Obj.kids]
  rw [← herase h, hs, herase]

end SameShape

/-! ## The functional of a node

Given for the leaves, and by the children for the others.
-/

/-- What the functional of a block must be, given those of its children. -/
def Payload.GradEq (g : Ptr → Nat → Fr) (p : Ptr) : Payload → Prop
  | adConst value => g p = Pi.single 0 value
  | adWitness index => g p = Pi.single index 1
  | adSum a b _ => g p = g a + g b
  | adMulConst coeff value _ => g p = coeff • g value
  | _ => True

theorem Payload.gradEq_erase (g : Ptr → Nat → Fr) (p : Ptr) (pay : Payload) :
    pay.erase.GradEq g p ↔ pay.GradEq g p := by
  cases pay <;> rfl

/-- `g` gives every live node its functional. -/
def GradOf (g : Ptr → Nat → Fr) (h : Heap) : Prop :=
  ∀ p c, Store.get? h p = some c → c.val.payload.GradEq g p

theorem GradOf.of_sameShape {g : Ptr → Nat → Fr} {h h' : Heap} (hg : GradOf g h)
    (hs : SameShape h' h) : GradOf g h' := by
  intro p c hc
  obtain ⟨c', hc', -, -, hpay⟩ := hs.get?_some hc
  rw [← Payload.gradEq_erase, ← hpay, Payload.gradEq_erase]
  exact hg p c' hc'

/-- A derivative in the outputs, or pending on a block and on its way there. -/
def Mem.total (g : Ptr → Nat → Fr) (m : Mem) (side : Side) (i : Nat) : Fr :=
  m.out side i + Store.sumLive (fun p o => o.payload.pending side * g p i) m.heap

/-! ## `bump` -/

theorem addAt_apply (f : Nat → Fr) (i j : Nat) (x : Fr) :
    addAt f i x j = f j + (Pi.single i x : Nat → Fr) j := by
  by_cases h : j = i
  · subst h
    simp [addAt]
  · simp [addAt, h]

theorem Mem.total_addOut (g : Ptr → Nat → Fr) (m : Mem) (side s : Side) (i j : Nat) (x : Fr) :
    (m.addOut side i x).total g s j
      = m.total g s j + if s = side then (Pi.single i x : Nat → Fr) j else 0 := by
  by_cases h : s = side
  · subst h
    simp only [Mem.total, Mem.addOut, Function.update_self, addAt_apply, if_pos]
    ring
  · simp only [Mem.total, Mem.addOut, Function.update_of_ne h, if_neg h, add_zero]

theorem Mem.total_setPayload (g : Ptr → Nat → Fr) (m : Mem) {p : Ptr} {c : Counted Obj}
    (hc : Store.get? m.heap p = some c) (pay : Payload) (s : Side) (j : Nat) :
    (m.setPayload p c pay).total g s j
      = m.total g s j + (pay.pending s - c.val.payload.pending s) * g p j := by
  have h := Store.sumLive_set (fun p (o : Obj) => o.payload.pending s * g p j) hc
    (some { c with val := { c.val with payload := pay } })
  simp only [Option.elim_some] at h
  simp only [Mem.total, Mem.setPayload]
  linear_combination h

theorem Mem.sameShape_setPayload (m : Mem) {p : Ptr} {c : Counted Obj}
    (hc : Store.get? m.heap p = some c) {pay : Payload}
    (hpay : pay.erase = c.val.payload.erase) :
    SameShape (m.setPayload p c pay).heap m.heap := by
  have hget : (Heap.erase m.heap)[p]? = some (some (eraseCell c)) := by
    simp [Heap.erase, Store.get?_eq_some.mp hc]
  rw [SameShape, Mem.setPayload, Heap.erase_set, Option.map_some]
  have hcell : eraseCell { c with val := { c.val with payload := pay } } = eraseCell c := by
    simp only [eraseCell, hpay]
  rw [hcell]
  refine List.ext_getElem? fun q => ?_
  by_cases hq : q = p
  · subst hq
    rw [List.getElem?_set_self (List.getElem?_eq_some_iff.mp hget).1, hget]
  · rw [List.getElem?_set_ne (Ne.symm hq)]

theorem single_mul (i j : Nat) (x y : Fr) :
    (Pi.single i (x * y) : Nat → Fr) j = x * (Pi.single i y : Nat → Fr) j := by
  by_cases h : j = i
  · subst h
    simp
  · simp [h]

/-- What a bump that succeeds has done: write the output of a leaf, or leave its amount
on an inner node. -/
theorem Mem.bump_cases {m m' : Mem} {side : Side} {p : Ptr} {amount : Fr}
    (h : m.bump side p amount = some m') :
    ∃ c, Store.get? m.heap p = some c ∧ c.val.payload.IsNode ∧
      ((∃ value, c.val.payload = .adConst value ∧ m' = m.addOut side 0 (amount * value)) ∨
        (∃ index, c.val.payload = .adWitness index ∧ m' = m.addOut side index amount) ∨
        ∃ pay, pay.erase = c.val.payload.erase ∧ m' = m.setPayload p c pay ∧
          ∀ s, pay.pending s = c.val.payload.pending s + if s = side then amount else 0) := by
  have hupd : ∀ (d : Side → Fr) (s : Side),
      Function.update d side (d side + amount) s = d s + if s = side then amount else 0 := by
    intro d s
    by_cases hs : s = side
    · subst hs
      rw [Function.update_self, if_pos rfl]
    · rw [Function.update_of_ne hs, if_neg hs, add_zero]
  simp only [Mem.bump, Option.bind_eq_bind, Option.bind_eq_some_iff] at h
  obtain ⟨c, hc, h⟩ := h
  refine ⟨c, hc, ?_⟩
  cases hpay : c.val.payload with
  | adConst value =>
      simp only [hpay, Option.some.injEq] at h
      exact ⟨trivial, .inl ⟨value, rfl, h.symm⟩⟩
  | adWitness index =>
      simp only [hpay, Option.some.injEq] at h
      exact ⟨trivial, .inr (.inl ⟨index, rfl, h.symm⟩)⟩
  | adSum a b d =>
      simp only [hpay, Option.some.injEq] at h
      exact ⟨trivial, .inr (.inr
        ⟨.adSum a b (Function.update d side (d side + amount)), rfl, h.symm, hupd d⟩)⟩
  | adMulConst coeff value d =>
      simp only [hpay, Option.some.injEq] at h
      exact ⟨trivial, .inr (.inr
        ⟨.adMulConst coeff value (Function.update d side (d side + amount)), rfl, h.symm,
          hupd d⟩)⟩
  | primArray _ => simp [hpay] at h
  | boxedArray _ => simp [hpay] at h
  | struct _ => simp [hpay] at h
  | refCell _ => simp [hpay] at h

theorem Mem.bump_sameShape {m m' : Mem} {side : Side} {p : Ptr} {amount : Fr}
    (h : m.bump side p amount = some m') : SameShape m'.heap m.heap := by
  obtain ⟨c, hc, -, ⟨v, -, rfl⟩ | ⟨i, -, rfl⟩ | ⟨pay, hpay, rfl, -⟩⟩ := Mem.bump_cases h
  · rfl
  · rfl
  · exact m.sameShape_setPayload hc hpay

theorem Mem.bump_freed {m m' : Mem} {side : Side} {p : Ptr} {amount : Fr}
    (h : m.bump side p amount = some m') : m'.freed = m.freed := by
  obtain ⟨c, -, -, ⟨v, -, rfl⟩ | ⟨i, -, rfl⟩ | ⟨pay, -, rfl, -⟩⟩ := Mem.bump_cases h <;> rfl

/-- A bump leaves the other blocks alone. -/
theorem Mem.bump_frame {m m' : Mem} {side : Side} {p q : Ptr} {amount : Fr}
    (h : m.bump side p amount = some m') (hq : q ≠ p) :
    Store.get? m'.heap q = Store.get? m.heap q := by
  obtain ⟨c, -, -, ⟨v, -, rfl⟩ | ⟨i, -, rfl⟩ | ⟨pay, -, rfl, -⟩⟩ := Mem.bump_cases h
  · rfl
  · rfl
  · exact Store.get?_set_ne hq _

/-- A bump that succeeds adds `amount * grad p` to the total of its side. -/
theorem Mem.bump_total {g : Ptr → Nat → Fr} {m m' : Mem} {side : Side} {p : Ptr} {amount : Fr}
    (hg : GradOf g m.heap) (h : m.bump side p amount = some m') (s : Side) (i : Nat) :
    m'.total g s i = m.total g s i + if s = side then amount * g p i else 0 := by
  obtain ⟨c, hc, -, ⟨value, hpay, rfl⟩ | ⟨index, hpay, rfl⟩ | ⟨pay, -, rfl, hpend⟩⟩ :=
    Mem.bump_cases h
  · have hgp := hg p c hc
    rw [hpay] at hgp
    rw [Mem.total_addOut, show g p = Pi.single 0 value from hgp, single_mul]
  · have hgp := hg p c hc
    rw [hpay] at hgp
    rw [Mem.total_addOut, show g p = Pi.single index 1 from hgp, ← single_mul, mul_one]
  · rw [Mem.total_setPayload g m hc, hpend, add_sub_cancel_left]
    by_cases hs : s = side
    · rw [if_pos hs, if_pos hs]
    · rw [if_neg hs, if_neg hs, zero_mul]

theorem Mem.bump_isSome {m : Mem} {p : Ptr} {c : Counted Obj}
    (hc : Store.get? m.heap p = some c) (hn : c.val.payload.IsNode) (side : Side)
    (amount : Fr) : ∃ m', m.bump side p amount = some m' := by
  cases hpay : c.val.payload <;> simp_all [Mem.bump, Payload.IsNode]

/-! ## The three bumps of one node -/

theorem Mem.bumpAll_cases {m m' : Mem} {p : Ptr} {d : Side → Fr}
    (h : m.bumpAll p d = some m') :
    ∃ m₁ m₂, m.bump .a p (d .a) = some m₁ ∧ m₁.bump .b p (d .b) = some m₂ ∧
      m₂.bump .c p (d .c) = some m' := by
  simp only [Mem.bumpAll, Option.bind_eq_bind, Option.bind_eq_some_iff] at h
  obtain ⟨m₁, h₁, m₂, h₂, h₃⟩ := h
  exact ⟨m₁, m₂, h₁, h₂, h₃⟩

theorem Mem.bumpAll_sameShape {m m' : Mem} {p : Ptr} {d : Side → Fr}
    (h : m.bumpAll p d = some m') : SameShape m'.heap m.heap := by
  obtain ⟨m₁, m₂, h₁, h₂, h₃⟩ := Mem.bumpAll_cases h
  exact (Mem.bump_sameShape h₃).trans ((Mem.bump_sameShape h₂).trans (Mem.bump_sameShape h₁))

theorem Mem.bumpAll_freed {m m' : Mem} {p : Ptr} {d : Side → Fr}
    (h : m.bumpAll p d = some m') : m'.freed = m.freed := by
  obtain ⟨m₁, m₂, h₁, h₂, h₃⟩ := Mem.bumpAll_cases h
  rw [Mem.bump_freed h₃, Mem.bump_freed h₂, Mem.bump_freed h₁]

theorem Mem.bumpAll_frame {m m' : Mem} {p q : Ptr} {d : Side → Fr}
    (h : m.bumpAll p d = some m') (hq : q ≠ p) :
    Store.get? m'.heap q = Store.get? m.heap q := by
  obtain ⟨m₁, m₂, h₁, h₂, h₃⟩ := Mem.bumpAll_cases h
  rw [Mem.bump_frame h₃ hq, Mem.bump_frame h₂ hq, Mem.bump_frame h₁ hq]

theorem Mem.bumpAll_total {g : Ptr → Nat → Fr} {m m' : Mem} {p : Ptr} {d : Side → Fr}
    (hg : GradOf g m.heap) (h : m.bumpAll p d = some m') (s : Side) (i : Nat) :
    m'.total g s i = m.total g s i + d s * g p i := by
  obtain ⟨m₁, m₂, h₁, h₂, h₃⟩ := Mem.bumpAll_cases h
  have hg₁ := hg.of_sameShape (Mem.bump_sameShape h₁)
  have hg₂ := hg₁.of_sameShape (Mem.bump_sameShape h₂)
  rw [Mem.bump_total hg₂ h₃, Mem.bump_total hg₁ h₂, Mem.bump_total hg h₁]
  cases s <;> simp

/-- A node stays a live node when only derivatives change. -/
theorem SameShape.isNode {h h' : Heap} (hs : SameShape h' h) {p : Ptr} {c : Counted Obj}
    (hc : Store.get? h p = some c) (hn : c.val.payload.IsNode) :
    ∃ c', Store.get? h' p = some c' ∧ c'.val.payload.IsNode := by
  obtain ⟨c', hc', -, -, hpay⟩ := SameShape.get?_some (Eq.symm hs) hc
  exact ⟨c', hc', by rw [← Payload.isNode_erase, hpay, Payload.isNode_erase]; exact hn⟩

theorem Mem.bumpAll_isSome {m : Mem} {p : Ptr} {c : Counted Obj}
    (hc : Store.get? m.heap p = some c) (hn : c.val.payload.IsNode) (d : Side → Fr) :
    ∃ m', m.bumpAll p d = some m' := by
  obtain ⟨m₁, h₁⟩ := Mem.bump_isSome hc hn .a (d .a)
  obtain ⟨c₁, hc₁, hn₁⟩ := (Mem.bump_sameShape h₁).isNode hc hn
  obtain ⟨m₂, h₂⟩ := Mem.bump_isSome hc₁ hn₁ .b (d .b)
  obtain ⟨c₂, hc₂, hn₂⟩ := (Mem.bump_sameShape h₂).isNode hc₁ hn₁
  obtain ⟨m₃, h₃⟩ := Mem.bump_isSome hc₂ hn₂ .c (d .c)
  exact ⟨m₃, by simp [Mem.bumpAll, h₁, h₂, h₃]⟩

/-! ## Handing derivatives down

From a block that dies to its children, with their coefficients.
-/

/-- What a dying block does to its children. -/
theorem Mem.handDown_cases {m m' : Mem} {pay : Payload} (h : m.handDown pay = some m') :
    (∃ a b d m₁, pay = .adSum a b d ∧ m.bumpAll a d = some m₁ ∧ m₁.bumpAll b d = some m') ∨
      (∃ coeff value d, pay = .adMulConst coeff value d ∧
        m.bumpAll value (fun side => d side * coeff) = some m') ∨
      m' = m ∧ ∀ s, pay.pending s = 0 := by
  cases pay with
  | adSum a b d =>
      simp only [Mem.handDown, Option.bind_eq_bind, Option.bind_eq_some_iff] at h
      obtain ⟨m₁, h₁, h₂⟩ := h
      exact .inl ⟨a, b, d, m₁, rfl, h₁, h₂⟩
  | adMulConst coeff value d =>
      simp only [Mem.handDown] at h
      exact .inr (.inl ⟨coeff, value, d, rfl, h⟩)
  | _ =>
      simp only [Mem.handDown, Option.some.injEq] at h
      exact .inr (.inr ⟨h.symm, fun s => rfl⟩)

theorem Mem.handDown_sameShape {m m' : Mem} {pay : Payload} (h : m.handDown pay = some m') :
    SameShape m'.heap m.heap := by
  obtain ⟨a, b, d, m₁, rfl, h₁, h₂⟩ | ⟨coeff, value, d, rfl, h₁⟩ | ⟨rfl, -⟩ :=
    Mem.handDown_cases h
  · exact (Mem.bumpAll_sameShape h₂).trans (Mem.bumpAll_sameShape h₁)
  · exact Mem.bumpAll_sameShape h₁
  · rfl

theorem Mem.handDown_freed {m m' : Mem} {pay : Payload} (h : m.handDown pay = some m') :
    m'.freed = m.freed := by
  obtain ⟨a, b, d, m₁, rfl, h₁, h₂⟩ | ⟨coeff, value, d, rfl, h₁⟩ | ⟨rfl, -⟩ :=
    Mem.handDown_cases h
  · rw [Mem.bumpAll_freed h₂, Mem.bumpAll_freed h₁]
  · exact Mem.bumpAll_freed h₁
  · rfl

theorem Mem.handDown_frame {m m' : Mem} {pay : Payload} {q : Ptr}
    (h : m.handDown pay = some m') (hq : q ∉ pay.kids) :
    Store.get? m'.heap q = Store.get? m.heap q := by
  obtain ⟨a, b, d, m₁, rfl, h₁, h₂⟩ | ⟨coeff, value, d, rfl, h₁⟩ | ⟨rfl, -⟩ :=
    Mem.handDown_cases h
  · simp only [Payload.kids, List.mem_cons, List.not_mem_nil, or_false, not_or] at hq
    rw [Mem.bumpAll_frame h₂ hq.2, Mem.bumpAll_frame h₁ hq.1]
  · exact Mem.bumpAll_frame h₁ (by simpa only [Payload.kids, List.mem_singleton] using hq)
  · rfl

/-- The derivative pending on a dying node arrives at its children. -/
theorem Mem.handDown_total {g : Ptr → Nat → Fr} {m m' : Mem} {p : Ptr} {c : Counted Obj}
    (hg : GradOf g m.heap) (hc : Store.get? m.heap p = some c)
    (h : m.handDown c.val.payload = some m') (s : Side) (i : Nat) :
    m'.total g s i = m.total g s i + c.val.payload.pending s * g p i := by
  have hgp := hg p c hc
  obtain ⟨a, b, d, m₁, hpay, h₁, h₂⟩ | ⟨coeff, value, d, hpay, h₁⟩ | ⟨rfl, hpend⟩ :=
    Mem.handDown_cases h
  · rw [hpay] at hgp
    have hsum : g p = g a + g b := hgp
    have hg₁ := hg.of_sameShape (Mem.bumpAll_sameShape h₁)
    rw [Mem.bumpAll_total hg₁ h₂, Mem.bumpAll_total hg h₁, hsum, hpay]
    simp only [Payload.pending, Pi.add_apply]
    ring
  · rw [hpay] at hgp
    have hmul : g p = coeff • g value := hgp
    rw [Mem.bumpAll_total hg h₁, hmul, hpay]
    simp only [Payload.pending, Pi.smul_apply, smul_eq_mul]
    ring
  · rw [hpend, zero_mul, add_zero]

end Mavros
