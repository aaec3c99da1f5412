/-
# `Mavros.VM.HeapRel` — blocks that stand for symbolic values

The machine and the generator keep different things: the one mutates counted
blocks in place, the other never changes a value it has made.  `HeapRel` is what
they agree on.  Every live block stands for a symbolic value, its ghost; an array
block holds element by element what the array's ghost holds, and its `table_id`
word is the table of the ghost's cell; no two live blocks stand for one cell.

Both modes of the machine are covered.  When witnesses are generated a scalar is
its value under the assignment; in the derivative program it is a gradient node,
whose functional is the linear combination.

## What is proved

That the relation is kept by the operations of the heap: references come and go
(`HeapRel.incRc`, `HeapRel.decRc`), and a new block may be allocated for a new value
(`HeapRel.alloc`) when its cell is new (`NewLabel`).  Nothing else is asked of the generator's state
than the tables of its cells (`HeapRel.gen_congr`).

`HeapRel.get?_eq_none`: where no reference is held no block is left.

## How it goes

The fields about counts are those of `Mavros.Lib.RefCount`, and what dropping does to the blocks
that are left is `Shrinks`; since a ghost never changes but by overwriting, the fields about
ghosts are inherited by any heap with fewer blocks.
-/
import Mavros.VM.DecRc
import Mavros.R1CGen.ExecSpec

namespace Mavros

open Lib Lib.Store

/-! ## Linear combinations as functionals

Coefficients as a finitely supported function on witnesses.
-/

/-- The coefficient of each witness. -/
def LC.coeffs (lc : LC) : Nat → Fr := (lc.map fun t => Pi.single t.1 t.2).sum

@[simp] theorem LC.coeffs_nil : LC.coeffs [] = 0 := rfl

@[simp] theorem LC.coeffs_cons (t : Nat × Fr) (lc : LC) :
    LC.coeffs (t :: lc) = Pi.single t.1 t.2 + LC.coeffs lc := by
  simp [LC.coeffs]

/-- The coefficients of a scalar; an array has none. -/
def Value.coeffs (v : Value) : Nat → Fr := v.expectLinearCombination.elim 0 LC.coeffs

theorem coeffs_mergeTerms :
    ∀ lhs rhs : LC, LC.coeffs (Value.mergeTerms lhs rhs) = LC.coeffs lhs + LC.coeffs rhs
  | [], rhs => by simp [Value.mergeTerms]
  | t :: lhs, [] => by simp [Value.mergeTerms]
  | (i, x) :: lhs, (j, y) :: rhs => by
      rw [Value.mergeTerms]
      split_ifs with hij hxy hlt
      · subst hij
        rw [LC.coeffs_cons, coeffs_mergeTerms lhs rhs, LC.coeffs_cons, LC.coeffs_cons,
          Pi.single_add]
        abel
      · subst hij
        have hxy : x + y = 0 := not_not.mp hxy
        have hzero : (Pi.single i x + Pi.single i y : Nat → Fr) = 0 := by
          rw [← Pi.single_add, hxy, Pi.single_zero]
        rw [coeffs_mergeTerms lhs rhs, LC.coeffs_cons, LC.coeffs_cons]
        calc LC.coeffs lhs + LC.coeffs rhs
            = (Pi.single i x + Pi.single i y) + (LC.coeffs lhs + LC.coeffs rhs) := by
              rw [hzero, zero_add]
          _ = _ := by abel
      · rw [LC.coeffs_cons, coeffs_mergeTerms lhs ((j, y) :: rhs), LC.coeffs_cons (i, x)]
        abel
      · rw [LC.coeffs_cons, coeffs_mergeTerms ((i, x) :: lhs) rhs, LC.coeffs_cons (j, y)]
        abel
termination_by lhs rhs => lhs.length + rhs.length

theorem coeffs_scale (c : Fr) (terms : LC) :
    LC.coeffs (terms.map fun t => (t.1, c * t.2)) = c • LC.coeffs terms := by
  induction terms with
  | nil => simp
  | cons t terms ih =>
      rw [List.map_cons, LC.coeffs_cons, LC.coeffs_cons, ih, smul_add, ← Pi.single_smul,
        smul_eq_mul]

theorem Value.coeffs_add {a b v : Value} (h : a.add b = some v) :
    v.coeffs = a.coeffs + b.coeffs := by
  cases a <;> cases b <;>
    simp only [add, expectLinearCombination, Option.bind_eq_bind, Option.bind_some,
      Option.bind_none, Option.some.injEq, Option.pure_def, reduceCtorEq] at h <;> subst h
  · simp [coeffs, expectLinearCombination, Pi.single_add]
  all_goals simp [coeffs, expectLinearCombination, coeffs_mergeTerms]

theorem Value.coeffs_mul_const {c : Fr} {a v : Value} (h : (const c).mul a = some v) :
    v.coeffs = c • a.coeffs := by
  cases a with
  | const d =>
      simp only [mul, Option.some.injEq] at h
      subst h
      simp [coeffs, expectLinearCombination, ← Pi.single_smul]
  | lc terms =>
      simp only [mul] at h
      split_ifs at h with hc <;> simp only [Option.some.injEq] at h <;> subst h
      · simp [coeffs, expectLinearCombination, hc]
      · simp [coeffs, expectLinearCombination, coeffs_scale]
  | array _ _ => simp [mul] at h

/-! ## What a block stands for -/

/-- The two programs the machine runs: the forward one, under an assignment, and the
derivative one. -/
inductive Mode where
  | witgen (w : Nat → Fr)
  | ad

/-- The symbolic value each address stands for. -/
abbrev Ghost := Ptr → Ty × Value

/-- An element of an array block stands for a value. -/
def ElemRel (mode : Mode) (ghost : Ghost) : Elem → PrimElem ⊕ Ptr → Value → Prop
  | .word, .inl (.word n), v => v = .const n
  | .field, .inl (.field x), v => v = .const x
  | .witness, .inl (.field x), v => ∃ w, mode = .witgen w ∧ v.Denotes w x
  | .witness, .inr q, v => mode = .ad ∧ ghost q = (.scalar, v)
  | .array e, .inr q, v => ghost q = (.array e, v)
  | _, _, _ => False

/-- The elements of an array block. -/
def Payload.elems : Payload → Option (List (PrimElem ⊕ Ptr))
  | primArray els => some (els.map .inl)
  | boxedArray els => some (els.map .inr)
  | _ => none

theorem Payload.isArray_of_elems {pay : Payload} {els : List (PrimElem ⊕ Ptr)}
    (h : pay.elems = some els) : pay.isArray = true := by
  cases pay with
  | primArray _ | boxedArray _ => rfl
  | _ => exact nomatch h

theorem Payload.isArray_of_isNode {pay : Payload} (h : pay.IsNode) : pay.isArray = false := by
  cases pay with
  | primArray _ | boxedArray _ => exact h.elim
  | _ => rfl

/-- A gradient node stands for a scalar. -/
def NodeRel (ghost : Ghost) (v : Value) : Payload → Prop
  | .adConst c => v.coeffs = Pi.single 0 c
  | .adWitness i => v.coeffs = Pi.single i 1
  | .adSum a b _ =>
      (ghost a).1 = .scalar ∧ (ghost b).1 = .scalar ∧
        v.coeffs = (ghost a).2.coeffs + (ghost b).2.coeffs
  | .adMulConst c x _ => (ghost x).1 = .scalar ∧ v.coeffs = c • (ghost x).2.coeffs
  | _ => False

/-- A block stands for a value. -/
def BlockRel (mode : Mode) (ghost : Ghost) : Ty × Value → Payload → Prop
  | (.array e, .array _ data), pay =>
      ∃ els, pay.elems = some els ∧ List.Forall₂ (ElemRel mode ghost e) els data
  | (.scalar, v), pay =>
      mode = .ad ∧ (∃ lc, v.expectLinearCombination = some lc) ∧ NodeRel ghost v pay
  | _, _ => False

/-- The cell an array value is the content of. -/
def label : Ty × Value → Option Nat
  | (.array _, .array rc _) => some rc
  | _ => none

/-- The references an element owns. -/
def elemKids : PrimElem ⊕ Ptr → List Ptr
  | .inl _ => []
  | .inr q => [q]

theorem Payload.kids_of_elems {pay : Payload} {els : List (PrimElem ⊕ Ptr)}
    (h : pay.elems = some els) : pay.kids = els.flatMap elemKids := by
  cases pay with
  | primArray ps =>
      obtain rfl := Option.some.inj h
      induction ps with
      | nil => rfl
      | cons p ps ih => exact ih rfl
  | boxedArray ps =>
      obtain rfl := Option.some.inj h
      induction ps with
      | nil => rfl
      | cons p ps ih => exact congrArg (p :: ·) (ih rfl)
  | _ => exact absurd h (by simp [elems])

theorem ElemRel.congr {mode : Mode} {ghost ghost' : Ghost} {e : Elem} {el : PrimElem ⊕ Ptr}
    {v : Value} (h : ElemRel mode ghost e el v) (hg : ∀ q ∈ elemKids el, ghost q = ghost' q) :
    ElemRel mode ghost' e el v := by
  cases el with
  | inl x => cases e <;> cases x <;> exact h
  | inr q =>
      have hq : ghost q = ghost' q := hg q (by simp [elemKids])
      cases e with
      | witness => exact ⟨h.1, hq ▸ h.2⟩
      | array e => exact hq.symm.trans h
      | word => exact h
      | field => exact h

theorem NodeRel.congr {ghost ghost' : Ghost} {v : Value} {pay : Payload}
    (h : NodeRel ghost v pay) (hg : ∀ q ∈ pay.kids, ghost q = ghost' q) :
    NodeRel ghost' v pay := by
  cases pay with
  | adSum a b d =>
      have ha := hg a (by simp [Payload.kids])
      have hb := hg b (by simp [Payload.kids])
      simpa only [NodeRel, ha, hb] using h
  | adMulConst c x d =>
      have hx := hg x (by simp [Payload.kids])
      simpa only [NodeRel, hx] using h
  | _ => exact h

theorem BlockRel.congr {mode : Mode} {ghost ghost' : Ghost} {tv : Ty × Value} {pay : Payload}
    (h : BlockRel mode ghost tv pay) (hg : ∀ q ∈ pay.kids, ghost q = ghost' q) :
    BlockRel mode ghost' tv pay := by
  obtain ⟨t, v⟩ := tv
  cases t with
  | scalar => exact ⟨h.1, h.2.1, h.2.2.congr hg⟩
  | array e =>
      cases v with
      | const c => exact h
      | lc terms => exact h
      | array rc data =>
          obtain ⟨els, hels, hall⟩ := h
          refine ⟨els, hels, ?_⟩
          rw [Payload.kids_of_elems hels] at hg
          clear hels
          induction hall with
          | nil => exact .nil
          | cons hel _ ih =>
              refine .cons (hel.congr fun q hq => hg q ?_) (ih fun q hq => hg q ?_)
              · exact List.mem_append_left _ hq
              · exact List.mem_append_right _ hq

theorem BlockRel.erase_iff {mode : Mode} {ghost : Ghost} {tv : Ty × Value} {pay : Payload} :
    BlockRel mode ghost tv pay.erase ↔ BlockRel mode ghost tv pay := by
  obtain ⟨t, v⟩ := tv
  cases t <;> cases v <;> cases pay <;> rfl

/-- The functional of a block. -/
def gradOf (ghost : Ghost) (p : Ptr) : Nat → Fr := (ghost p).2.coeffs

theorem BlockRel.gradEq {mode : Mode} {ghost : Ghost} {p : Ptr} {pay : Payload}
    (h : BlockRel mode ghost (ghost p) pay) : pay.GradEq (gradOf ghost) p := by
  cases hg : ghost p with
  | mk t v =>
      rw [hg] at h
      have hgrad : gradOf ghost p = v.coeffs := by rw [gradOf, hg]
      cases t with
      | scalar =>
          have hnode := h.2.2
          cases pay with
          | adConst c => exact hgrad.trans hnode
          | adWitness i => exact hgrad.trans hnode
          | adSum a b d => exact hgrad.trans hnode.2.2
          | adMulConst c x d => exact hgrad.trans hnode.2
          | _ => trivial
      | array e =>
          cases v with
          | const c => exact h.elim
          | lc terms => exact h.elim
          | array rc data =>
              obtain ⟨els, hels, -⟩ := h
              cases pay <;> trivial

theorem BlockRel.scalar_of_isNode {mode : Mode} {ghost : Ghost} {tv : Ty × Value}
    {pay : Payload} (h : BlockRel mode ghost tv pay) (hn : pay.IsNode) : tv.1 = .scalar := by
  obtain ⟨t, v⟩ := tv
  cases t with
  | scalar => rfl
  | array e =>
      cases v with
      | const c => exact h.elim
      | lc terms => exact h.elim
      | array rc data =>
          obtain ⟨els, hels, -⟩ := h
          cases pay <;> first | exact hn.elim | exact absurd hels (by simp [Payload.elems])

theorem BlockRel.isNode_of_scalar {mode : Mode} {ghost : Ghost} {tv : Ty × Value}
    {pay : Payload} (h : BlockRel mode ghost tv pay) (ht : tv.1 = .scalar) : pay.IsNode := by
  obtain ⟨t, v⟩ := tv
  obtain rfl : t = .scalar := ht
  have hnode := h.2.2
  cases pay with
  | adConst _ | adWitness _ | adSum _ _ _ | adMulConst _ _ _ => trivial
  | _ => exact hnode

/-! ## The relation

Its fields, and what depends on which part of the state.
-/

/-- Every live block stands for its ghost, and the counts are right: the references
between blocks and those that are held. -/
structure HeapRel (mode : Mode) (g : R1CGen) (held : Ptr → Nat) (h : Heap) (ghost : Ghost)
    (rank : Ptr → Nat) : Prop where
  blocks : ∀ p c, Store.get? h p = some c → BlockRel mode ghost (ghost p) c.val.payload
  labels : ∀ p c rc, Store.get? h p = some c → label (ghost p) = some rc →
    rc < g.nextRc ∧ g.tableIds rc = c.val.tableId
  inj : ∀ p c q d rc, Store.get? h p = some c → Store.get? h q = some d →
    label (ghost p) = some rc → label (ghost q) = some rc → p = q
  balanced : Balanced Obj.kids h held
  positive : Store.Positive h
  ranked : Ranked rank h

namespace HeapRel

variable {mode : Mode} {g g' : R1CGen} {held held' : Ptr → Nat} {h h' : Heap} {ghost : Ghost}
  {rank : Ptr → Nat}

theorem empty (mode : Mode) (g : R1CGen) (ghost : Ghost) (rank : Ptr → Nat) :
    HeapRel mode g (fun _ => 0) [] ghost rank where
  blocks := fun _ _ hc => nomatch hc
  labels := fun _ _ _ hc => nomatch hc
  inj := fun _ _ _ _ _ hc => nomatch hc
  balanced := fun _ => rfl
  positive := fun _ _ hc => nomatch hc
  ranked := fun _ _ _ hc => nomatch hc

theorem gradOf (hrel : HeapRel mode g held h ghost rank) : GradOf (gradOf ghost) h :=
  fun p c hc => (hrel.blocks p c hc).gradEq

theorem nodesClosed (hrel : HeapRel mode g held h ghost rank) : NodesClosed h := by
  intro p c q d hc hn hq hd
  have hblock := hrel.blocks p c hc
  have hscalar := hblock.scalar_of_isNode hn
  refine (hrel.blocks q d hd).isNode_of_scalar ?_
  cases hg : ghost p with
  | mk t v =>
      rw [hg] at hblock hscalar
      obtain rfl : t = .scalar := hscalar
      have hnode := hblock.2.2
      cases hpay : c.val.payload with
      | adSum a b d =>
          rw [hpay] at hnode
          simp only [Obj.kids, hpay, Payload.kids, List.mem_cons, List.not_mem_nil,
            or_false] at hq
          rcases hq with rfl | rfl
          · exact hnode.1
          · exact hnode.2.1
      | adMulConst c x d =>
          rw [hpay] at hnode
          simp only [Obj.kids, hpay, Payload.kids, List.mem_singleton] at hq
          rw [hq]
          exact hnode.1
      | adConst c => simp [Obj.kids, hpay, Payload.kids] at hq
      | adWitness i => simp [Obj.kids, hpay, Payload.kids] at hq
      | _ => rw [hpay] at hnode; exact hnode.elim

theorem held_congr (hrel : HeapRel mode g held h ghost rank) (heq : ∀ q, held q = held' q) :
    HeapRel mode g held' h ghost rank :=
  { hrel with balanced := hrel.balanced.congr heq }

/-- Where nothing is held, no block is left. -/
theorem get?_eq_none (hrel : HeapRel mode g held h ghost rank) (hheld : ∀ q, held q = 0)
    (p : Ptr) : Store.get? h p = none :=
  (hrel.balanced.congr hheld).get?_eq_none hrel.positive rank hrel.ranked p

/-- Of the generator's state only the cells of the arrays are looked at. -/
theorem gen_congr (hrel : HeapRel mode g held h ghost rank) (hrc : g.nextRc ≤ g'.nextRc)
    (hids : ∀ rc < g.nextRc, g'.tableIds rc = g.tableIds rc) :
    HeapRel mode g' held h ghost rank :=
  { hrel with
    labels := fun p c rc hc hl => by
      obtain ⟨hlt, hid⟩ := hrel.labels p c rc hc hl
      exact ⟨Nat.lt_of_lt_of_le hlt hrc, (hids rc hlt).trans hid⟩ }

theorem shrinks (hrel : HeapRel mode g held h ghost rank) (hs : Shrinks h' h)
    (hb : Balanced Obj.kids h' held') (hpos : Store.Positive h') :
    HeapRel mode g held' h' ghost rank where
  blocks := fun p c' hc' => by
    obtain ⟨c, hc, he, -⟩ := hs.payload_erase hc'
    rw [← BlockRel.erase_iff, ← he, BlockRel.erase_iff]
    exact hrel.blocks p c hc
  labels := fun p c' rc hc' hl => by
    obtain ⟨c, hc, -, hid⟩ := hs.payload_erase hc'
    rw [← hid]
    exact hrel.labels p c rc hc hl
  inj := fun p c' q d' rc hc' hd' hlp hlq => by
    obtain ⟨c, hc, -⟩ := hs.payload_erase hc'
    obtain ⟨d, hd, -⟩ := hs.payload_erase hd'
    exact hrel.inj p c q d rc hc hd hlp hlq
  balanced := hb
  positive := hpos
  ranked := hrel.ranked.shrinks hs

/-! ## References come and go -/

theorem incRc {m : Mem} (hrel : HeapRel mode g held m.heap ghost rank) {p : Ptr}
    {c : Counted Obj} (hc : Store.get? m.heap p = some c) (n : Nat) :
    ∃ m', m.incRc p n = some m' ∧
      HeapRel mode g (fun q => held q + if q = p then n else 0) m'.heap ghost rank ∧
      m'.heap.length = m.heap.length ∧
      ∀ s i, m'.total (Mavros.gradOf ghost) s i = m.total (Mavros.gradOf ghost) s i := by
  obtain ⟨hs, -, ht⟩ := Mem.countRound_spec (Mavros.gradOf ghost) hc (c.rc + n)
  have hcpos := hrel.positive p c hc
  refine ⟨{ m with heap := m.heap.set p (some { c with rc := c.rc + n }) },
    by simp [Mem.incRc, hc], ?_, by simp, ht⟩
  refine hrel.shrinks hs ((hrel.balanced.inc hc n).congr fun q => ?_)
    (hrel.positive.set_some (Nat.add_pos_left hcpos n))
  by_cases hq : q = p
  · subst hq
    rw [Function.update_self, if_pos rfl]
  · rw [Function.update_of_ne hq, if_neg hq, Nat.add_zero]

theorem incAll {qs : List Ptr} {m : Mem} (hrel : HeapRel mode g held m.heap ghost rank)
    (hlive : ∀ q ∈ qs, ∃ c, Store.get? m.heap q = some c) :
    ∃ m', qs.foldlM (fun m q => m.incRc q 1) m = some m' ∧
      HeapRel mode g (fun q => held q + qs.count q) m'.heap ghost rank ∧
      m'.heap.length = m.heap.length ∧
      ∀ s i, m'.total (Mavros.gradOf ghost) s i = m.total (Mavros.gradOf ghost) s i := by
  induction qs generalizing m held with
  | nil => exact ⟨m, rfl, hrel.held_congr (by simp), rfl, fun _ _ => rfl⟩
  | cons q qs ih =>
      obtain ⟨c, hc⟩ := hlive q List.mem_cons_self
      obtain ⟨m₁, h₁, hrel₁, hlen₁, ht₁⟩ := hrel.incRc hc 1
      have hlive₁ : ∀ r ∈ qs, ∃ c, Store.get? m₁.heap r = some c := by
        intro r hr
        obtain ⟨d, hd⟩ := hlive r (List.mem_cons_of_mem _ hr)
        simp only [Mem.incRc, hc, Option.bind_eq_bind, Option.bind_some, Option.pure_def,
          Option.some.injEq] at h₁
        subst h₁
        by_cases hrq : r = q
        · subst hrq
          exact ⟨_, Store.get?_set_self (Store.lt_length_of_get? hc) _⟩
        · exact ⟨d, (Store.get?_set_ne hrq _).trans hd⟩
      obtain ⟨m', h', hrel', hlen', ht'⟩ := ih hrel₁ hlive₁
      refine ⟨m', ?_, hrel'.held_congr fun r => ?_, hlen'.trans hlen₁,
        fun s i => (ht' s i).trans (ht₁ s i)⟩
      · rw [List.foldlM_cons, h₁]
        exact h'
      · rw [List.count_cons, Nat.add_assoc]
        by_cases hr : r = q
        · subst hr
          simp
          omega
        · simp [hr, Ne.symm hr]

theorem decRc {m : Mem} (hrel : HeapRel mode g held m.heap ghost rank) {p : Ptr}
    (hp : 0 < held p) :
    ∃ m', m.decRc p = some m' ∧ HeapRel mode g (dropHeld held p) m'.heap ghost rank ∧
      ∀ s i, m'.total (Mavros.gradOf ghost) s i = m.total (Mavros.gradOf ghost) s i := by
  obtain ⟨m', hrun, hb, hpos⟩ := Mem.decRc_isSome hrel.balanced hrel.positive hrel.nodesClosed hp
  obtain ⟨hs, -, ht⟩ := Mem.decRc_spec hrel.gradOf hrel.ranked hrun
  exact ⟨m', hrun, hrel.shrinks hs hb hpos, ht⟩

/-! ## A new block

One more ghost, at an address that no reference names yet.
-/

/-- The cell of a new value is new, and no other cell loses its table. -/
structure NewLabel (g g' : R1CGen) (tv : Ty × Value) : Prop where
  nextRc : g.nextRc ≤ g'.nextRc
  tableIds : ∀ rc < g.nextRc, g'.tableIds rc = g.tableIds rc
  label : ∀ rc, label tv = some rc → g.nextRc ≤ rc ∧ rc < g'.nextRc ∧ g'.tableIds rc = none

theorem NewLabel.mkArray (g : R1CGen) (e : Elem) (data : List Value) :
    NewLabel g (g.mkArray data).2 (.array e, (g.mkArray data).1) where
  nextRc := Nat.le_succ _
  tableIds := fun _ hrc => Function.update_of_ne (Nat.ne_of_lt hrc) _ _
  label := fun _ hrc => by
    obtain rfl := Option.some.inj hrc
    exact ⟨Nat.le_refl _, Nat.lt_succ_self _, Function.update_self _ _ _⟩

theorem NewLabel.scalar (g : R1CGen) (v : Value) : NewLabel g g (.scalar, v) where
  nextRc := Nat.le_refl _
  tableIds := fun _ _ => rfl
  label := fun _ hrc => nomatch hrc

theorem kid_live (hrel : HeapRel mode g held h ghost rank) {p q : Ptr} {c : Counted Obj}
    (hc : Store.get? h p = some c) (hq : q ∈ c.val.kids) : ∃ d, Store.get? h q = some d :=
  hrel.balanced.get?_of_mem_kids hc hq

/-- The total reads the functionals of live blocks only. -/
theorem total_update (m : Mem) (ghost : Ghost) {p : Ptr} (hp : Store.get? m.heap p = none)
    (tv : Ty × Value) (s : Side) (i : Nat) :
    m.total (Mavros.gradOf (Function.update ghost p tv)) s i
      = m.total (Mavros.gradOf ghost) s i := by
  simp only [Mem.total]
  congr 1
  refine Store.sumLive_congr fun q c hc => ?_
  have hq : q ≠ p := by
    rintro rfl
    rw [hp] at hc
    exact absurd hc (by simp)
  simp only [Mavros.gradOf, Function.update_of_ne hq]

theorem alloc {m : Mem} (held : Ptr → Nat) {pay : Payload} {tv : Ty × Value}
    (hrel : HeapRel mode g (fun q => held q + pay.kids.count q) m.heap ghost rank)
    (hblock : BlockRel mode ghost tv pay) (hnew : NewLabel g g' tv)
    (hpend : ∀ s, pay.pending s = 0) :
    ∃ rank', HeapRel mode g' (fun q => held q + if q = m.heap.length then 1 else 0)
        (m.alloc pay).2.heap (Function.update ghost m.heap.length tv) rank' ∧
      ∀ s i, (m.alloc pay).2.total (Mavros.gradOf (Function.update ghost m.heap.length tv)) s i
        = m.total (Mavros.gradOf ghost) s i := by
  have hfree : Store.get? m.heap m.heap.length = none := by simp [Store.get?]
  have hlive : ∀ {q c}, Store.get? m.heap q = some c → q ≠ m.heap.length := by
    rintro q c hc rfl
    rw [hfree] at hc
    exact absurd hc (by simp)
  have hkids : ∀ q ∈ pay.kids, ∃ d, Store.get? m.heap q = some d := by
    intro q hq
    exact hrel.balanced.get?_of_held (p := q)
      (Nat.add_pos_right _ (List.count_pos_iff.mpr hq))
  have hold : ∀ {q c}, Store.get? m.heap q = some c →
      Function.update ghost m.heap.length tv q = ghost q :=
    fun hc => Function.update_of_ne (hlive hc) _ _
  -- a live block of the new heap is an old one or the new one
  have hcases : ∀ {q c}, Store.get? (m.alloc pay).2.heap q = some c →
      (Store.get? m.heap q = some c) ∨
        (q = m.heap.length ∧ c = ⟨1, ⟨pay, none⟩⟩) := by
    intro q c hc
    by_cases hq : q = m.heap.length
    · subst hq
      have hself := Store.get?_append_length m.heap (some (⟨1, ⟨pay, none⟩⟩ : Counted Obj))
      exact .inr ⟨rfl, Option.some.inj (hc.symm.trans hself)⟩
    · exact .inl ((Store.get?_append_ne hq _).symm.trans hc)
  refine ⟨Function.update rank m.heap.length (1 + (pay.kids.map rank).sum),
    ⟨?_, ?_, ?_, ?_, ?_, ?_⟩,
    fun s i => ?_⟩
  · intro q c hc
    rcases hcases hc with hc | ⟨rfl, rfl⟩
    · rw [hold hc]
      refine (hrel.blocks q c hc).congr fun r hr => ?_
      obtain ⟨d, hd⟩ := hrel.kid_live hc hr
      exact (hold hd).symm
    · rw [Function.update_self]
      refine hblock.congr fun r hr => ?_
      obtain ⟨d, hd⟩ := hkids r hr
      exact (hold hd).symm
  · intro q c rc hc hl
    rcases hcases hc with hc | ⟨rfl, rfl⟩
    · rw [hold hc] at hl
      obtain ⟨hlt, hid⟩ := hrel.labels q c rc hc hl
      exact ⟨Nat.lt_of_lt_of_le hlt hnew.nextRc, (hnew.tableIds rc hlt).trans hid⟩
    · rw [Function.update_self] at hl
      exact (hnew.label rc hl).2
  · intro q c r d rc hc hd hlq hlr
    rcases hcases hc with hc | ⟨rfl, rfl⟩ <;> rcases hcases hd with hd | ⟨rfl, rfl⟩
    · rw [hold hc] at hlq
      rw [hold hd] at hlr
      exact hrel.inj q c r d rc hc hd hlq hlr
    · rw [hold hc] at hlq
      rw [Function.update_self] at hlr
      exact absurd (hrel.labels q c rc hc hlq).1 (Nat.not_lt.mpr (hnew.label rc hlr).1)
    · rw [hold hd] at hlr
      rw [Function.update_self] at hlq
      exact absurd (hrel.labels r d rc hd hlr).1 (Nat.not_lt.mpr (hnew.label rc hlq).1)
    · rfl
  · exact Balanced.alloc hrel.balanced
  · exact hrel.positive.append Nat.one_pos
  · intro q c r hc hr
    rcases hcases hc with hc | ⟨rfl, rfl⟩
    · obtain ⟨d, hd⟩ := hrel.kid_live hc hr
      rw [Function.update_of_ne (hlive hc), Function.update_of_ne (hlive hd)]
      exact hrel.ranked q c r hc hr
    · obtain ⟨d, hd⟩ := hkids r hr
      rw [Function.update_self, Function.update_of_ne (hlive hd)]
      have hle : rank r ≤ (pay.kids.map rank).sum :=
        List.le_sum_of_mem (List.mem_map_of_mem hr)
      omega
  · have hsum := Store.sumLive_append (fun q (o : Obj) => o.payload.pending s
      * Mavros.gradOf (Function.update ghost m.heap.length tv) q i) m.heap ⟨1, ⟨pay, none⟩⟩
    have hupd := total_update m ghost hfree tv s i
    simp only [hpend, zero_mul, add_zero] at hsum
    simp only [Mem.total] at hupd ⊢
    rw [← hupd]
    exact congrArg (m.out s i + ·) hsum

end HeapRel

end Mavros
