/-
# `Mavros.Codegen.ScalarAgree` — the two evaluators of pure scalar code

`Agree` ties a scope of the constraint generator to a frame of the machine through the
layout: the words at a value's place encode the generator's value.  One instruction keeps
it under the condition `StepOk`, and a straight line of instructions keeps it by induction.

## What is proved

* `select_agree`: one instruction on which neither evaluator fails, under `StepOk`.
* `selectAll_agree`: a straight line of them, under `StepsOk`.

## What the condition says

`StepOk` reads the types and the values before the instruction.  It is nothing for sums, products
and differences of integers; operands in range where an opcode does not mask, and shift amounts
below 64; a complement only where the word has its upper bits set; equality of field elements only
where the lowest limb decides it; no less-than of field elements; a cast from the field only of
what fits a word.

## How it goes

A result is written above everything that has a place (`Agree.define`) or is its operand under
another name (`Agree.share`), so that the other values keep their words (`Keeps`).  What remains is
that the word written encodes the generator's value, one lemma for each arm (`binaryArithOp_agree`,
`cmp_agree`, `cast_agree`, …) over the equations of `Mavros.Codegen.ScalarWords`.
-/
import Mavros.Codegen.ScalarWords

namespace Mavros.Codegen

open Hlssa Bytecode
open R1CGen (ScalarValue Scope execScalar)
open FrameLayouter (typeSize)

/-! ## Encodings

One word for an integer, four for a field element.
-/

/-- The words at `p` encode the value. -/
def Holds (m : Machine) (p : Nat) : TypeExpr → ScalarValue → Prop
  | .field, .const x => ∀ i < 4, m.frame (p + i) = limb x i
  | .u _, .const x | .i _, .const x => m.frame p = x.val ∧ x.val < 2 ^ 64
  | .array _ _, .array xs | .slice _, .array xs => m.heap[m.frame p]? = some (xs.map ZMod.val)
  | _, _ => False

theorem Holds.field {m : Machine} {p : Nat} {x : Fr} (h : Holds m p .field (.const x)) :
    m.field p = x := by
  have h0 := h 0 (by norm_num)
  have h1 := h 1 (by norm_num)
  have h2 := h 2 (by norm_num)
  have h3 := h 3 (by norm_num)
  rw [Machine.field, ← Nat.add_zero p, h0, Nat.add_zero, h1, h2, h3, ofLimbs_limb]

/-- The types of pure scalars. -/
def IsScalar : TypeExpr → Prop
  | .field | .u _ | .i _ => True
  | _ => False

theorem Holds.word {m : Machine} {p : Nat} {t : TypeExpr} {x : Fr} (ht : t ≠ .field)
    (h : Holds m p t (.const x)) : m.frame p = x.val ∧ x.val < 2 ^ 64 := by
  cases t with
  | field => exact absurd rfl ht
  | u bits | i bits => exact h
  | witnessOf _ | array _ _ | slice _ | ref _ | tuple _ | function => exact h.elim

/-- The machine `m'` has the frame of `m` below `bound` and the arrays of `m`. -/
structure Keeps (bound : Nat) (m m' : Machine) : Prop where
  frame : ∀ q < bound, m'.frame q = m.frame q
  heap : m.heap <+: m'.heap

theorem Keeps.refl (bound : Nat) (m : Machine) : Keeps bound m m :=
  ⟨fun _ _ => rfl, List.prefix_rfl⟩

theorem Keeps.trans {bound : Nat} {m m' m'' : Machine} (h : Keeps bound m m')
    (h' : Keeps bound m' m'') : Keeps bound m m'' :=
  ⟨fun q hq => (h'.frame q hq).trans (h.frame q hq), h.heap.trans h'.heap⟩

theorem Keeps.setWord {bound p : Nat} (hp : bound ≤ p) (m : Machine) (w : Nat) :
    Keeps bound m (m.setWord p w) := by
  refine ⟨fun q hq => ?_, List.prefix_rfl⟩
  exact Function.update_of_ne (by omega) _ _

theorem Keeps.setField {bound p : Nat} (hp : bound ≤ p) (m : Machine) (x : Fr) :
    Keeps bound m (m.setField p x) :=
  ((Keeps.setWord hp _ _).trans (Keeps.setWord (by omega) _ _)).trans
    ((Keeps.setWord (by omega) _ _).trans (Keeps.setWord (by omega) _ _))

/-- A value below the bound is held by whatever keeps the frame up to there. -/
theorem Holds.keep {bound p n : Nat} {m m' : Machine} {t : TypeExpr} {val : ScalarValue}
    (hk : Keeps bound m m') (hsize : typeSize t = some n) (hp : p + n ≤ bound)
    (h : Holds m p t val) : Holds m' p t val := by
  have hword : n = 1 → m'.frame p = m.frame p := fun hn => hk.frame p (by omega)
  cases t with
  | field =>
    cases val with
    | array xs => exact h
    | const x =>
      obtain rfl : 4 = n := by simpa [typeSize] using hsize
      intro i hi
      rw [hk.frame (p + i) (by omega)]
      exact h i hi
  | u bits | i bits =>
    cases val with
    | array xs => exact h
    | const x =>
      have hn : n = 1 := by
        simp only [typeSize] at hsize
        split at hsize
        · exact (Option.some.inj hsize).symm
        · exact absurd hsize (by simp)
      exact ⟨(hword hn).trans h.1, h.2⟩
  | array inner size | slice inner =>
    cases val with
    | const x => exact h
    | array xs =>
      have hn : n = 1 := by simpa [typeSize, eq_comm] using hsize
      change m'.heap[m'.frame p]? = _
      obtain ⟨more, hmore⟩ := hk.heap
      rw [hword hn, ← hmore, List.getElem?_append_left (List.getElem?_eq_some_iff.mp h).1]
      exact h
  | witnessOf _ | ref _ | tuple _ | function => cases val <;> exact h

theorem Holds.setWord (m : Machine) (p : Nat) {t : TypeExpr} {x : Fr}
    (ht : (∃ bits, t = .u bits) ∨ ∃ bits, t = .i bits) (hx : x.val < 2 ^ 64) :
    Holds (m.setWord p x.val) p t (.const x) := by
  have hword : (m.setWord p x.val).frame p = x.val := Function.update_self ..
  rcases ht with ⟨bits, rfl⟩ | ⟨bits, rfl⟩ <;> exact ⟨hword, hx⟩

theorem Holds.setField (m : Machine) (p : Nat) (x : Fr) :
    Holds (m.setField p x) p .field (.const x) := by
  intro i hi
  interval_cases i <;> simp [Machine.setField, Machine.setWord]

/-! ## Agreement -/

/-- Every value of the scope stands in the frame, at its place below the next free word. -/
def Agree (types : ValueId → Option TypeExpr) (l : FrameLayouter) (m : Machine)
    (scope : Scope) : Prop :=
  ∀ v val, scope.lookup v = some val → ∃ t p n, types v = some t ∧ typeSize t = some n ∧
    l.getValue v = some p ∧ p + n ≤ l.nextFree ∧ Holds m p t val

section Agree

variable {types : ValueId → Option TypeExpr} {l : FrameLayouter} {m m' : Machine}
  {scope : Scope}

theorem lookup_cons_ne {α : Type} {v r : ValueId} {a : α} {xs : List (ValueId × α)}
    (h : v ≠ r) : ((r, a) :: xs).lookup v = xs.lookup v := by
  rw [List.lookup_cons, beq_false_of_ne h]

/-- A new value at the next free words. -/
theorem Agree.define (h : Agree types l m scope) {r : ValueId} {t : TypeExpr} {n : Nat}
    {val : ScalarValue} (ht : types r = some t) (hn : typeSize t = some n)
    (hk : Keeps l.nextFree m m') (hval : Holds m' l.nextFree t val) :
    Agree types (l.alloc r n).1 m' ((r, val) :: scope) := by
  intro v w hv
  by_cases hvr : v = r
  · subst hvr
    obtain rfl : val = w := by simpa using hv
    exact ⟨t, l.nextFree, n, ht, hn, by simp [FrameLayouter.alloc, FrameLayouter.getValue],
      le_rfl, hval⟩
  · rw [lookup_cons_ne hvr] at hv
    obtain ⟨t', p, k, ht', hk', hp, hle, hold⟩ := h v w hv
    refine ⟨t', p, k, ht', hk', ?_, Nat.le_add_right_of_le hle, hold.keep hk hk' hle⟩
    rw [FrameLayouter.getValue, FrameLayouter.alloc, lookup_cons_ne hvr]
    exact hp

/-- A new value at the place of an old one. -/
theorem Agree.share (h : Agree types l m scope) {r : ValueId} {t : TypeExpr} {p n : Nat}
    {val : ScalarValue} (ht : types r = some t) (hn : typeSize t = some n)
    (hp : p + n ≤ l.nextFree) (hval : Holds m p t val) :
    Agree types (l.share r p) m ((r, val) :: scope) := by
  intro v w hv
  by_cases hvr : v = r
  · subst hvr
    obtain rfl : val = w := by simpa using hv
    exact ⟨t, p, n, ht, hn, by simp [FrameLayouter.share, FrameLayouter.getValue], hp, hval⟩
  · rw [lookup_cons_ne hvr] at hv
    obtain ⟨t', q, k, ht', hk', hq, hle, hold⟩ := h v w hv
    refine ⟨t', q, k, ht', hk', ?_, hle, hold⟩
    rw [FrameLayouter.getValue, FrameLayouter.share, lookup_cons_ne hvr]
    exact hq

theorem lookup_of_constant {v : ValueId} {x : Fr} (h : scope.constant v = some x) :
    scope.lookup v = some (.const x) := by
  rw [Scope.constant] at h
  split at h
  · next hv => rw [hv, Option.some.inj h]
  · exact absurd h (by simp)

/-- A constant is a field element or an integer, and the machine has it at its place. -/
theorem Agree.constant (h : Agree types l m scope) {v : ValueId} {x : Fr} {p : Nat}
    (hx : scope.constant v = some x) (hp : l.getValue v = some p) :
    ∃ t, types v = some t ∧ IsScalar t ∧ Holds m p t (.const x) := by
  obtain ⟨t, q, n, ht, -, hq, -, hold⟩ := h v _ (lookup_of_constant hx)
  obtain rfl : q = p := Option.some.inj (hq.symm.trans hp)
  refine ⟨t, ht, ?_, hold⟩
  cases t with
  | field | u bits | i bits => trivial
  | witnessOf _ | array _ _ | slice _ | ref _ | tuple _ | function => exact hold.elim

/-- The place of an operand that is not the value just allocated. -/
theorem getValue_alloc {r v : ValueId} (h : v ≠ r) (n : Nat) :
    (l.alloc r n).1.getValue v = l.getValue v := lookup_cons_ne h

end Agree

/-! ## The condition

With the arithmetic instructions, which need most of it.
-/

/-- Where the two evaluators compute the same on one instruction.  The types are static; the
values are the ones in scope before the instruction. -/
def StepOk (types : ValueId → Option TypeExpr) (scope : Scope) : Hlssa.OpCode → Prop
  | .binaryArithOp kind r lhs rhs =>
    match types r with
    | some (.u bits) | some (.i bits) => ∀ a b, scope.constant lhs = some a →
        scope.constant rhs = some b → IntOk bits a.val b.val kind
    | _ => types lhs = some .field ∧ types rhs = some .field
  | .cmp .eq _ lhs rhs =>
    if types lhs = some .field ∧ types rhs = some .field then
      ∀ a b, scope.constant lhs = some a → scope.constant rhs = some b →
        limb a 0 = limb b 0 → a = b
    else types lhs ≠ some .field ∧ types rhs ≠ some .field
  | .cmp .lt _ lhs rhs => types lhs ≠ some .field ∧ types rhs ≠ some .field
  | .cast r v _ => types v = some .field → types r ≠ some .field →
      ∀ x, scope.constant v = some x → x.val < 2 ^ 64
  | .not r v => ∃ bits, (types r = some (.u bits) ∨ types r = some (.i bits)) ∧
      ∀ x, scope.constant v = some x → x.val / 2 ^ bits = 2 ^ (64 - bits) - 1
  | .spread _ v _ => ∀ x, scope.constant v = some x → x.val < 2 ^ 32
  | _ => True

/-- The instruction has the types of the analysis and does not read its own results. -/
structure WellTyped (types : ValueId → Option TypeExpr) (op : Hlssa.OpCode) : Prop where
  typed : ∃ results, op.resultTypes (fun _ => none) types = some results ∧
    ∀ p ∈ results, types p.1 = some p.2
  fresh : ∀ r ∈ op.results, r ∉ op.inputs

theorem WellTyped.ne {types : ValueId → Option TypeExpr} {op : Hlssa.OpCode} {r v : ValueId}
    (h : WellTyped types op) (hr : r ∈ op.results) (hv : v ∈ op.inputs) : v ≠ r := by
  intro heq
  exact h.fresh r hr (heq ▸ hv)

section Step

variable {types : ValueId → Option TypeExpr} {l l' : FrameLayouter} {m m' : Machine}
  {scope scope' : Scope} {code : List Bytecode.OpCode}

theorem run_singleton (m : Machine) (op : Bytecode.OpCode) : m.run [op] = m.step op := by
  simp [Machine.run]

/-- The opcode of a field instruction computes what the generator does. -/
theorem fieldOp_step {res pa pb : Nat} {kind : BinaryArithOpKind} {op : Bytecode.OpCode}
    {a b x : Fr} (hop : fieldOp res pa pb kind = some op) (ha : m.field pa = a)
    (hb : m.field pb = b) (hx : R1CGen.arith kind .field a b = some x) :
    m.step op = some (m.setField res x) := by
  cases kind with
  | add | sub | mul =>
    obtain rfl := Option.some.inj hop
    obtain rfl := Option.some.inj hx
    simp only [Machine.step, Machine.onFields, ha, hb]
  | div =>
    obtain rfl := Option.some.inj hop
    simp only [R1CGen.arith, TypeExpr.stripWitness] at hx
    split at hx
    · exact absurd hx (by simp)
    · next hb0 =>
      obtain rfl := Option.some.inj hx
      simp only [Machine.step, Machine.onFields, ha, hb, if_neg hb0]
  | and | or | xor | shl | shr | mod => exact absurd hop (by simp [fieldOp])

/-- The opcode of an integer instruction puts its word into the result's place. -/
theorem intOp_step {signed : Bool} {bits res pa pb w : Nat} {kind : BinaryArithOpKind}
    {op : Bytecode.OpCode} (hop : intOp signed bits res pa pb kind = some op)
    (hw : wordOp signed bits (m.frame pa) (m.frame pb) kind = some w) :
    m.step op = some (m.setWord res w) := by
  cases kind with
  | div | mod =>
    cases signed with
    | true => exact absurd hop (by simp [intOp])
    | false =>
      obtain rfl := Option.some.inj hop
      simp only [wordOp, Bool.false_eq_true, if_false] at hw
      simp [Machine.step, hw]
  | add | sub | mul | and | or | xor | shl | shr =>
    obtain rfl := Option.some.inj hop
    obtain rfl := Option.some.inj hw
    rfl

/-- An integer result of an instruction has integer operands. -/
theorem arithmeticResult_int {s t r : TypeExpr} (hs : IsScalar s) (ht : IsScalar t)
    (h : s.arithmeticResult t = some r) (hr : r ≠ .field) : s ≠ .field ∧ t ≠ .field := by
  cases s <;> cases t <;>
    simp_all [IsScalar, TypeExpr.arithmeticResult, TypeExpr.arithmeticRight, eq_comm]

theorem typeSize_int {t : TypeExpr} {bits : Nat} (ht : t = .u bits ∨ t = .i bits)
    (hbits : bits ≤ 64) : typeSize t = some 1 := by
  rcases ht with rfl | rfl <;> simp [typeSize, hbits]

theorem Agree.intArith (h : Agree types l m scope) {kind : BinaryArithOpKind} {signed : Bool}
    {bits : Nat} {t : TypeExpr} {r : ValueId} {a b x : Fr} {pa pb : Nat}
    {op : Bytecode.OpCode}
    (ht : t = .u bits ∧ signed = false ∨ t = .i bits ∧ signed = true) (hr : types r = some t)
    (hbits : bits ≤ 64) (ha : m.frame pa = a.val) (hb : m.frame pb = b.val ∧ b.val < 2 ^ 64)
    (hx : R1CGen.arith kind t a b = some x) (hok : IntOk bits a.val b.val kind)
    (hop : intOp signed bits l.nextFree pa pb kind = some op) (hrun : m.run [op] = some m') :
    Agree types (l.alloc r 1).1 m' ((r, .const x) :: scope) := by
  have hword : wordOp signed bits a.val b.val kind = some x.val ∧ x.val < 2 ^ 64 := by
    rcases ht with ⟨rfl, rfl⟩ | ⟨rfl, rfl⟩
    · exact arith_u_eq_wordOp hbits hb.2 hok hx
    · exact arith_i_eq_wordOp hbits hb.2 hok hx
  rw [← ha, ← hb.1] at hword
  rw [run_singleton, intOp_step hop hword.1] at hrun
  obtain rfl := Option.some.inj hrun
  have hint : t = .u bits ∨ t = .i bits := ht.imp And.left And.left
  exact h.define hr (typeSize_int hint hbits) (Keeps.setWord le_rfl _ _)
    (Holds.setWord _ _ (hint.imp (⟨bits, ·⟩) (⟨bits, ·⟩)) hword.2)

theorem allocU64_eq {r : ValueId} {size : Nat} {p : FrameLayouter × Nat}
    (h : l.allocU64 r size = some p) : size ≤ 64 ∧ p = l.alloc r 1 := by
  rw [FrameLayouter.allocU64] at h
  split at h
  · next hle => exact ⟨hle, (Option.some.inj h).symm⟩
  · exact absurd h (by simp)

/-- What codegen emits for an arithmetic instruction. -/
theorem binaryArithOp_cases {kind : BinaryArithOpKind} {r lhs rhs : ValueId}
    (hlhs : lhs ≠ r) (hrhs : rhs ≠ r)
    (h : binaryArithOp types l kind r lhs rhs = some (l', code)) :
    ∃ t pa pb op, types r = some t ∧ l.getValue lhs = some pa ∧ l.getValue rhs = some pb ∧
      code = [op] ∧
      (t = .field ∧ l' = (l.alloc r 4).1 ∧ fieldOp l.nextFree pa pb kind = some op ∨
        ∃ signed bits, (t = .u bits ∧ signed = false ∨ t = .i bits ∧ signed = true) ∧
          bits ≤ 64 ∧ l' = (l.alloc r 1).1 ∧
          intOp signed bits l.nextFree pa pb kind = some op) := by
  obtain ⟨t, ht, h⟩ := Option.bind_eq_some_iff.mp h
  cases t with
  | field =>
    obtain ⟨pa, hpa, h⟩ := Option.bind_eq_some_iff.mp h
    obtain ⟨pb, hpb, h⟩ := Option.bind_eq_some_iff.mp h
    obtain ⟨op, hop, h⟩ := Option.bind_eq_some_iff.mp h
    obtain ⟨rfl, rfl⟩ := Prod.mk.inj (Option.some.inj h)
    exact ⟨_, pa, pb, op, ht, (getValue_alloc hlhs 4).symm.trans hpa,
      (getValue_alloc hrhs 4).symm.trans hpb, rfl, .inl ⟨rfl, rfl, hop⟩⟩
  | u bits | i bits =>
    obtain ⟨q, hq, h⟩ := Option.bind_eq_some_iff.mp h
    obtain ⟨hbits, rfl⟩ := allocU64_eq hq
    obtain ⟨pa, hpa, h⟩ := Option.bind_eq_some_iff.mp h
    obtain ⟨pb, hpb, h⟩ := Option.bind_eq_some_iff.mp h
    obtain ⟨op, hop, h⟩ := Option.bind_eq_some_iff.mp h
    obtain ⟨rfl, rfl⟩ := Prod.mk.inj (Option.some.inj h)
    exact ⟨_, pa, pb, op, ht, (getValue_alloc hlhs 1).symm.trans hpa,
      (getValue_alloc hrhs 1).symm.trans hpb, rfl,
      .inr ⟨_, bits, by simp, hbits, rfl, hop⟩⟩
  | witnessOf _ | array _ _ | slice _ | ref _ | tuple _ | function => exact absurd h (by simp)

theorem binaryArithOp_agree {kind : BinaryArithOpKind} {r lhs rhs : ValueId}
    (h : Agree types l m scope) (htyped : WellTyped types (.binaryArithOp kind r lhs rhs))
    (hok : StepOk types scope (.binaryArithOp kind r lhs rhs))
    (hsel : binaryArithOp types l kind r lhs rhs = some (l', code))
    (hrun : m.run code = some m')
    (hexec : execScalar types scope (.binaryArithOp kind r lhs rhs) = some scope') :
    Agree types l' m' scope' := by
  obtain ⟨t, ht, hexec⟩ := Option.bind_eq_some_iff.mp hexec
  obtain ⟨a, ha, hexec⟩ := Option.bind_eq_some_iff.mp hexec
  obtain ⟨b, hb, hexec⟩ := Option.bind_eq_some_iff.mp hexec
  obtain ⟨x, hx, hexec⟩ := Option.bind_eq_some_iff.mp hexec
  obtain rfl := Option.some.inj hexec
  have hlhs : lhs ≠ r := htyped.ne List.mem_cons_self List.mem_cons_self
  have hrhs : rhs ≠ r := htyped.ne List.mem_cons_self (List.mem_cons_of_mem _ List.mem_cons_self)
  obtain ⟨t', pa, pb, op, ht', hpa, hpb, rfl, hcases⟩ := binaryArithOp_cases hlhs hrhs hsel
  obtain rfl : t = t' := Option.some.inj (ht.symm.trans ht')
  obtain ⟨ta, hta, hsa, hda⟩ := h.constant ha hpa
  obtain ⟨tb, htb, hsb, hdb⟩ := h.constant hb hpb
  rcases hcases with ⟨rfl, rfl, hop⟩ | ⟨signed, bits, hint, hbits, rfl, hop⟩
  · simp only [StepOk, ht, hta, htb, Option.some.injEq] at hok
    obtain ⟨rfl, rfl⟩ := hok
    rw [run_singleton, fieldOp_step hop hda.field hdb.field hx] at hrun
    obtain rfl := Option.some.inj hrun
    exact h.define ht rfl (Keeps.setField le_rfl _ _) (Holds.setField _ _ _)
  · -- an integer result has integer operands, so each of them is one word
    obtain ⟨results, hresults, hsame⟩ := htyped.typed
    simp only [OpCode.resultTypes, hta, htb, Option.bind_eq_bind, Option.bind_some] at hresults
    obtain ⟨tr, htr, hresults⟩ := Option.bind_eq_some_iff.mp hresults
    obtain rfl := Option.some.inj hresults
    obtain rfl : tr = t := Option.some.inj ((hsame (r, tr) List.mem_cons_self).symm.trans ht)
    have hne : tr ≠ .field := by rcases hint with ⟨rfl, -⟩ | ⟨rfl, -⟩ <;> simp
    obtain ⟨hna, hnb⟩ := arithmeticResult_int hsa hsb htr hne
    have hint' : IntOk bits a.val b.val kind := by
      rcases hint with ⟨rfl, -⟩ | ⟨rfl, -⟩ <;>
        simp only [StepOk, ht] at hok <;> exact hok a b ha hb
    exact h.intArith hint ht hbits (hda.word hna).1 (hdb.word hnb) hx hint' hop hrun

/-! ### Comparisons -/

theorem ofBool_lt (c : Bool) : (R1CGen.ofBool c).val < 2 ^ 64 := by
  cases c <;> decide

theorem slt_lt {bits : Nat} {a b x : Fr} (h : R1CGen.slt bits a b = some x) :
    x.val < 2 ^ 64 := by
  obtain ⟨na, -, h⟩ := Option.bind_eq_some_iff.mp h
  obtain ⟨nb, -, h⟩ := Option.bind_eq_some_iff.mp h
  split at h
  · exact absurd h (by simp)
  · exact Option.some.inj h ▸ ofBool_lt _

/-- What codegen emits for a comparison. -/
theorem cmp_cases {kind : CmpKind} {r lhs rhs : ValueId} (hlhs : lhs ≠ r) (hrhs : rhs ≠ r)
    (h : cmp types l kind r lhs rhs = some (l', code)) :
    ∃ t pa pb op, types r = some t ∧ ((∃ bits, t = .u bits) ∨ ∃ bits, t = .i bits) ∧
      typeSize t = some 1 ∧ l.getValue lhs = some pa ∧ l.getValue rhs = some pb ∧
      code = [op] ∧ l' = (l.alloc r 1).1 ∧
      (kind = .eq → op = .eqU64 l.nextFree pa pb) ∧
      (kind = .lt → ∃ tl, types lhs = some tl ∧
        ((∃ bits, tl = .i bits ∧ op = .ltS64 l.nextFree pa pb bits) ∨
          (∀ bits, tl ≠ .i bits) ∧ op = .ltU64 l.nextFree pa pb)) := by
  obtain ⟨t, ht, h⟩ := Option.bind_eq_some_iff.mp h
  obtain ⟨bits, hbits, h⟩ := Option.bind_eq_some_iff.mp h
  obtain ⟨q, hq, h⟩ := Option.bind_eq_some_iff.mp h
  obtain ⟨hle, rfl⟩ := allocU64_eq hq
  obtain ⟨pa, hpa, h⟩ := Option.bind_eq_some_iff.mp h
  obtain ⟨pb, hpb, h⟩ := Option.bind_eq_some_iff.mp h
  have hint : t = .u bits ∨ t = .i bits := intBits_eq_some hbits
  have hpa' : l.getValue lhs = some pa := (getValue_alloc hlhs 1).symm.trans hpa
  have hpb' : l.getValue rhs = some pb := (getValue_alloc hrhs 1).symm.trans hpb
  have hscalar : (∃ bits, t = .u bits) ∨ ∃ bits, t = .i bits :=
    hint.imp (⟨bits, ·⟩) (⟨bits, ·⟩)
  cases kind with
  | eq =>
    obtain ⟨rfl, rfl⟩ := Prod.mk.inj (Option.some.inj h)
    exact ⟨t, pa, pb, _, ht, hscalar, typeSize_int hint hle, hpa', hpb', rfl, rfl,
      fun _ => rfl, nofun⟩
  | lt =>
    obtain ⟨tl, htl, h⟩ := Option.bind_eq_some_iff.mp h
    cases tl with
    | i n =>
      obtain ⟨rfl, rfl⟩ := Prod.mk.inj (Option.some.inj h)
      exact ⟨t, pa, pb, _, ht, hscalar, typeSize_int hint hle, hpa', hpb', rfl, rfl, nofun,
        fun _ => ⟨_, htl, .inl ⟨n, rfl, rfl⟩⟩⟩
    | field | u _ | witnessOf _ | array _ _ | slice _ | ref _ | tuple _ | function =>
      obtain ⟨rfl, rfl⟩ := Prod.mk.inj (Option.some.inj h)
      exact ⟨t, pa, pb, _, ht, hscalar, typeSize_int hint hle, hpa', hpb', rfl, rfl, nofun,
        fun _ => ⟨_, htl, .inr ⟨by simp, rfl⟩⟩⟩

/-- An integer that takes a place in the frame has at most 64 bits. -/
theorem typeSize_le {bits n : Nat} (h : typeSize (.i bits) = some n) : bits ≤ 64 := by
  simp only [typeSize] at h
  split at h
  · assumption
  · exact absurd h (by simp)

theorem cmp_agree {kind : CmpKind} {r lhs rhs : ValueId} (h : Agree types l m scope)
    (htyped : WellTyped types (.cmp kind r lhs rhs))
    (hok : StepOk types scope (.cmp kind r lhs rhs))
    (hsel : cmp types l kind r lhs rhs = some (l', code)) (hrun : m.run code = some m')
    (hexec : execScalar types scope (.cmp kind r lhs rhs) = some scope') :
    Agree types l' m' scope' := by
  obtain ⟨tl, htl, hexec⟩ := Option.bind_eq_some_iff.mp hexec
  obtain ⟨a, ha, hexec⟩ := Option.bind_eq_some_iff.mp hexec
  obtain ⟨b, hb, hexec⟩ := Option.bind_eq_some_iff.mp hexec
  obtain ⟨x, hx, hexec⟩ := Option.bind_eq_some_iff.mp hexec
  obtain rfl := Option.some.inj hexec
  have hlhs : lhs ≠ r := htyped.ne List.mem_cons_self List.mem_cons_self
  have hrhs : rhs ≠ r := htyped.ne List.mem_cons_self (List.mem_cons_of_mem _ List.mem_cons_self)
  obtain ⟨t, pa, pb, op, ht, hint, hsize, hpa, hpb, rfl, rfl, heq, hlt⟩ :=
    cmp_cases hlhs hrhs hsel
  obtain ⟨ta, hta, hsa, hda⟩ := h.constant ha hpa
  obtain ⟨tb, htb, hsb, hdb⟩ := h.constant hb hpb
  obtain rfl : tl = ta := Option.some.inj (htl.symm.trans hta)
  -- whatever the opcode, it writes the word of `x` into the new place
  suffices hstep : m.step op = some (m.setWord l.nextFree x.val) ∧ x.val < 2 ^ 64 by
    rw [run_singleton, hstep.1] at hrun
    obtain rfl := Option.some.inj hrun
    exact h.define ht hsize (Keeps.setWord le_rfl _ _) (Holds.setWord _ _ hint hstep.2)
  cases kind with
  | eq =>
    obtain rfl := Option.some.inj hx
    refine ⟨?_, ofBool_lt _⟩
    rw [heq rfl, Machine.step, Machine.onWords]
    congr 2
    simp only [StepOk, hta, htb, Option.some.injEq] at hok
    split at hok
    · -- two field elements are compared by their low limbs
      next hfield =>
      obtain ⟨rfl, rfl⟩ := hfield
      have hlow : m.frame pa = limb a 0 ∧ m.frame pb = limb b 0 :=
        ⟨hda 0 (by norm_num), hdb 0 (by norm_num)⟩
      rw [hlow.1, hlow.2, eqU64, ofBool_val]
      congr 1
      exact decide_eq_decide.mpr ⟨hok a b ha hb, fun e => e ▸ rfl⟩
    · have hne : tl ≠ .field ∧ tb ≠ .field := by simpa using hok
      rw [(hda.word hne.1).1, (hdb.word hne.2).1, eqU64_eq]
  | lt =>
    simp only [StepOk, hta, htb, ne_eq, Option.some.injEq] at hok
    have hwa := (hda.word hok.1).1
    have hwb := (hdb.word hok.2).1
    obtain ⟨tl', htl', hop⟩ := hlt rfl
    obtain rfl : tl = tl' := Option.some.inj (hta.symm.trans htl')
    obtain ⟨t', q, n, ht', hn, -, -, -⟩ := h lhs _ (lookup_of_constant ha)
    obtain rfl : tl = t' := Option.some.inj (hta.symm.trans ht')
    rcases hop with ⟨bits, rfl, rfl⟩ | ⟨hne, rfl⟩
    · have hslt : R1CGen.slt bits a b = some x := hx
      rw [Machine.step, Machine.onWords, hwa, hwb, ltS64_eq (typeSize_le hn) hslt]
      exact ⟨rfl, slt_lt hslt⟩
    · have hult : R1CGen.ult a b = x := by
        cases tl <;> simp_all [IsScalar, R1CGen.cmp, TypeExpr.stripWitness]
      refine ⟨?_, hult ▸ ofBool_lt _⟩
      rw [Machine.step, Machine.onWords, hwa, hwb, ← hult, R1CGen.ult, ofBool_val, ltU64]

/-! ### Casts and the other instructions -/

/-- A value that only changes its type keeps its words. -/
theorem Holds.retype {p : Nat} {s t : TypeExpr} {val : ScalarValue} (h : Holds m p s val)
    (hst : s = t ∨ ∃ elem size, s = .array elem size ∧ t = .slice elem) :
    Holds m p t val ∧ typeSize t = typeSize s := by
  rcases hst with rfl | ⟨elem, size, rfl, rfl⟩
  · exact ⟨h, rfl⟩
  · cases val with
    | const x => exact h.elim
    | array xs => exact ⟨h, rfl⟩

theorem allocValue_eq {r : ValueId} {t : TypeExpr} {q : FrameLayouter × Nat}
    (h : l.allocValue r t = some q) : ∃ n, typeSize t = some n ∧ q = l.alloc r n := by
  obtain ⟨n, hn, h⟩ := Option.bind_eq_some_iff.mp h
  exact ⟨n, hn, (Option.some.inj h).symm⟩

theorem WellTyped.cast_type {r v : ValueId} {target : CastTarget} {s t : TypeExpr}
    (h : WellTyped types (.cast r v target)) (hs : types v = some s) (ht : types r = some t) :
    target.resultType s = some t := by
  obtain ⟨results, hresults, hsame⟩ := h.typed
  simp only [OpCode.resultTypes, hs, Option.bind_eq_bind, Option.bind_some] at hresults
  obtain ⟨t', ht', hresults⟩ := Option.bind_eq_some_iff.mp hresults
  obtain rfl := Option.some.inj hresults
  rw [ht', ← ht]
  exact (hsame (r, t') List.mem_cons_self).symm

/-- The opcode of a cast moves the value, whose integer has to fit a word. -/
theorem castOp_step {res p : Nat} {s t : TypeExpr} {op : Bytecode.OpCode} {val : ScalarValue}
    (hop : castOp res p s t = some op) (h : Holds m p s val)
    (hsmall : s = .field → t ≠ .field → ∀ x, val = .const x → x.val < 2 ^ 64)
    (hrun : m.step op = some m') : Keeps res m m' ∧ Holds m' res t val := by
  obtain ⟨x, rfl⟩ : ∃ x, val = .const x := by
    cases val with
    | const x => exact ⟨x, rfl⟩
    | array xs => cases s <;> first | exact h.elim | simp [castOp] at hop
  cases s <;> cases t <;> simp only [castOp, reduceCtorEq] at hop
  case u.u | u.i | i.u | i.i =>
    obtain ⟨n, hn, hop⟩ := Option.bind_eq_some_iff.mp hop
    obtain rfl := Option.some.inj hop
    obtain rfl : n = 1 := by
      simp only [typeSize] at hn
      split at hn
      · exact (Option.some.inj hn).symm
      · exact absurd hn (by simp)
    obtain rfl := Option.some.inj hrun
    rw [Machine.move, Machine.move, Nat.add_zero, Nat.add_zero, h.1]
    exact ⟨Keeps.setWord le_rfl _ _, Holds.setWord _ _ (by simp) h.2⟩
  case field.u | field.i =>
    obtain rfl := Option.some.inj hop
    obtain rfl := Option.some.inj hrun
    have hx : x.val < 2 ^ 64 := hsmall rfl (by simp) x rfl
    rw [h.field, Nat.mod_eq_of_lt hx]
    exact ⟨Keeps.setWord le_rfl _ _, Holds.setWord _ _ (by simp) hx⟩
  case u.field | i.field =>
    obtain rfl := Option.some.inj hop
    obtain rfl := Option.some.inj hrun
    have hx : ((m.frame p : Nat) : Fr) = x := by rw [h.1, ZMod.natCast_val, ZMod.cast_id]
    rw [hx]
    exact ⟨Keeps.setField le_rfl _ _, Holds.setField _ _ _⟩

theorem cast_agree {r v : ValueId} {target : CastTarget} (h : Agree types l m scope)
    (htyped : WellTyped types (.cast r v target))
    (hok : StepOk types scope (.cast r v target))
    (hsel : cast types l r v target = some (l', code)) (hrun : m.run code = some m')
    (hexec : execScalar types scope (.cast r v target) = some scope') :
    Agree types l' m' scope' := by
  obtain ⟨val, hval, hexec⟩ := Option.bind_eq_some_iff.mp hexec
  obtain rfl := Option.some.inj hexec
  have hv : v ≠ r := htyped.ne List.mem_cons_self List.mem_cons_self
  obtain ⟨tv, p, n, htv, hn, hp, hle, hold⟩ := h v val hval
  obtain ⟨lType, hlType, hsel⟩ := Option.bind_eq_some_iff.mp hsel
  obtain rfl : tv = lType := Option.some.inj (htv.symm.trans hlType)
  obtain ⟨rType, htr, hsel⟩ := Option.bind_eq_some_iff.mp hsel
  split at hsel
  · exact absurd hsel (by simp)
  split at hsel
  · next hnop =>
    obtain ⟨p', hp', hsel⟩ := Option.bind_eq_some_iff.mp hsel
    obtain ⟨rfl, rfl⟩ := Prod.mk.inj (Option.some.inj hsel)
    obtain rfl : p = p' := Option.some.inj (hp.symm.trans hp')
    obtain rfl : m = m' := Option.some.inj hrun
    have hsame : tv = rType ∨ ∃ elem size, tv = .array elem size ∧ rType = .slice elem := by
      have htyping := htyped.cast_type htv htr
      rcases hnop with rfl | rfl | heq | ⟨hw, -⟩
      · exact .inl (Option.some.inj htyping)
      · cases tv with
        | array elem size => exact .inr ⟨elem, size, rfl, (Option.some.inj htyping).symm⟩
        | field | u _ | i _ | witnessOf _ | slice _ | ref _ | tuple _ | function =>
          exact absurd htyping (by simp [CastTarget.resultType])
      · exact .inl heq
      · cases tv with
        | witnessOf inner => cases val <;> exact hold.elim
        | field | u _ | i _ | array _ _ | slice _ | ref _ | tuple _ | function =>
          exact absurd hw (by simp [TypeExpr.isWitnessOf])
    obtain ⟨hold', hsize⟩ := hold.retype hsame
    exact h.share htr (hsize.trans hn) hle hold'
  · obtain ⟨q, hq, hsel⟩ := Option.bind_eq_some_iff.mp hsel
    obtain ⟨k, hk, rfl⟩ := allocValue_eq hq
    obtain ⟨p', hp', hsel⟩ := Option.bind_eq_some_iff.mp hsel
    obtain ⟨op, hop, hsel⟩ := Option.bind_eq_some_iff.mp hsel
    obtain ⟨rfl, rfl⟩ := Prod.mk.inj (Option.some.inj hsel)
    obtain rfl : p = p' := Option.some.inj (hp.symm.trans ((getValue_alloc hv k).symm.trans hp'))
    rw [run_singleton] at hrun
    have hsmall : tv = .field → rType ≠ .field → ∀ x, val = .const x → x.val < 2 ^ 64 := by
      rintro rfl hne x rfl
      exact hok htv (by simpa [htr] using hne) x (by simp [Scope.constant, hval])
    obtain ⟨hkeep, hold'⟩ := castOp_step hop hold hsmall hrun
    exact h.define htr hk hkeep hold'

theorem not_agree {r v : ValueId} (h : Agree types l m scope)
    (htyped : WellTyped types (.not r v)) (hok : StepOk types scope (.not r v))
    (hsel : select types l (.not r v) = some (l', code)) (hrun : m.run code = some m')
    (hexec : execScalar types scope (.not r v) = some scope') : Agree types l' m' scope' := by
  obtain ⟨t, ht, hexec⟩ := Option.bind_eq_some_iff.mp hexec
  obtain ⟨a, ha, hexec⟩ := Option.bind_eq_some_iff.mp hexec
  obtain ⟨x, hx, hexec⟩ := Option.bind_eq_some_iff.mp hexec
  obtain rfl := Option.some.inj hexec
  have hv : v ≠ r := htyped.ne List.mem_cons_self List.mem_cons_self
  obtain ⟨t', ht', hsel⟩ := Option.bind_eq_some_iff.mp hsel
  obtain rfl : t = t' := Option.some.inj (ht.symm.trans ht')
  obtain ⟨q, hq, hsel⟩ := Option.bind_eq_some_iff.mp hsel
  obtain ⟨n, hn, rfl⟩ := allocValue_eq hq
  obtain ⟨p, hp, hsel⟩ := Option.bind_eq_some_iff.mp hsel
  obtain ⟨rfl, rfl⟩ := Prod.mk.inj (Option.some.inj hsel)
  obtain rfl := Option.some.inj hrun
  obtain ⟨ta, hta, -, hda⟩ := h.constant ha ((getValue_alloc hv n).symm.trans hp)
  obtain ⟨bits, hbits, hset⟩ := hok
  have hint : t = .u bits ∨ t = .i bits := by simpa [ht] using hbits
  -- the operand has the type of the result
  have hne : ta ≠ .field := by
    obtain ⟨results, hresults, hsame⟩ := htyped.typed
    simp only [OpCode.resultTypes, hta, Option.bind_eq_bind, Option.bind_some] at hresults
    obtain rfl := Option.some.inj hresults
    obtain rfl : ta = t := Option.some.inj ((hsame (r, ta) List.mem_cons_self).symm.trans ht)
    rcases hint with rfl | rfl <;> simp
  have hle : bits ≤ 64 := by
    rcases hint with rfl | rfl
    · exact typeSize_le hn
    · exact typeSize_le hn
  have hword := notU64_eq hint (hset a ha) hle hx
  rw [(hda.word hne).1, hword]
  refine h.define ht hn (Keeps.setWord le_rfl _ _) (Holds.setWord _ _ ?_ ?_)
  · exact hint.imp (⟨bits, ·⟩) (⟨bits, ·⟩)
  · rw [← hword, notU64]
    omega

/-- The generator's digits are the machine's bytes. -/
theorem map_val_digits (a : Fr) (count : Nat) :
    (R1CGen.orient .big (R1CGen.digits 256 count a)).map ZMod.val = Machine.bytesBe a count := by
  rw [R1CGen.orient, List.map_reverse, R1CGen.digits, List.map_map, Machine.bytesBe]
  congr 1
  refine List.map_congr_left fun i _ => val_of_word ?_
  exact (Nat.mod_lt _ (by norm_num)).trans (by norm_num)

theorem toRadix_agree {r v : ValueId} {count : Nat} (h : Agree types l m scope)
    (htyped : WellTyped types (.toRadix r v .bytes .big count))
    (hsel : select types l (.toRadix r v .bytes .big count) = some (l', code))
    (hrun : m.run code = some m')
    (hexec : execScalar types scope (.toRadix r v .bytes .big count) = some scope') :
    Agree types l' m' scope' := by
  obtain ⟨a, ha, hexec⟩ := Option.bind_eq_some_iff.mp hexec
  obtain ⟨xs, hxs, hexec⟩ := Option.bind_eq_some_iff.mp hexec
  obtain rfl := Option.some.inj hexec
  obtain rfl := Option.some.inj hxs
  obtain ⟨tv, htv, hsel⟩ := Option.bind_eq_some_iff.mp hsel
  split at hsel
  · next hcond =>
    obtain ⟨p, hp, hsel⟩ := Option.bind_eq_some_iff.mp hsel
    obtain ⟨t, ht, hsel⟩ := Option.bind_eq_some_iff.mp hsel
    obtain ⟨q, hq, hsel⟩ := Option.bind_eq_some_iff.mp hsel
    obtain ⟨n, hn, rfl⟩ := allocValue_eq hq
    obtain ⟨rfl, rfl⟩ := Prod.mk.inj (Option.some.inj hsel)
    obtain rfl := Option.some.inj hrun
    obtain ⟨ta, hta, -, hda⟩ := h.constant ha hp
    obtain rfl : ta = .field := by
      obtain rfl : ta = tv := Option.some.inj (hta.symm.trans htv)
      cases ta <;> simp_all [TypeExpr.isField]
    obtain rfl : .array (.u 8) count = t := by
      obtain ⟨results, hresults, hsame⟩ := htyped.typed
      simp only [OpCode.resultTypes, hta, Option.bind_eq_bind, Option.bind_some] at hresults
      obtain rfl := Option.some.inj hresults
      exact Option.some.inj ((hsame _ List.mem_cons_self).symm.trans ht)
    obtain rfl : 1 = n := Option.some.inj hn
    rw [hda.field, ← map_val_digits]
    refine h.define ht rfl ⟨(Keeps.setWord le_rfl m _).frame, List.prefix_append _ _⟩ ?_
    simp [Holds, Machine.setWord]
  · exact absurd hsel (by simp)

/-! ### Spreading -/

theorem vmSpreadBits_lt (v : Nat) : vmSpreadBits v < 2 ^ 64 :=
  (spreadStep_le _ _ _ _).trans_lt (by norm_num)

theorem allocScalar_int {r : ValueId} {t : TypeExpr} {q : FrameLayouter × Nat}
    (ht : (∃ bits, t = .u bits) ∨ ∃ bits, t = .i bits) (h : allocScalar l r t = some q) :
    typeSize t = some 1 ∧ q = l.alloc r 1 := by
  rcases ht with ⟨bits, rfl⟩ | ⟨bits, rfl⟩ <;>
    exact ⟨typeSize_int (by simp) (allocU64_eq h).1, (allocU64_eq h).2⟩

theorem spreadResult_int {s t : TypeExpr} (hs : IsScalar s) (h : s.spreadResult = some t) :
    (∃ bits, t = .u bits) ∨ ∃ bits, t = .i bits := by
  cases s <;> simp_all [IsScalar, TypeExpr.spreadResult]
  all_goals exact h.2 ▸ by simp

theorem unspreadResult_int {s t : TypeExpr} (hs : IsScalar s) (h : s.unspreadResult = some t) :
    ((∃ bits, t = .u bits) ∨ ∃ bits, t = .i bits) ∧ s ≠ .field := by
  cases s <;> simp_all [IsScalar, TypeExpr.unspreadResult]
  all_goals exact h.2 ▸ by simp

theorem spread_agree {r v : ValueId} {bits : Nat} (h : Agree types l m scope)
    (htyped : WellTyped types (.spread r v bits)) (hok : StepOk types scope (.spread r v bits))
    (hsel : spread types l r v = some (l', code)) (hrun : m.run code = some m')
    (hexec : execScalar types scope (.spread r v bits) = some scope') :
    Agree types l' m' scope' := by
  obtain ⟨a, ha, hexec⟩ := Option.bind_eq_some_iff.mp hexec
  obtain ⟨x, hx, hexec⟩ := Option.bind_eq_some_iff.mp hexec
  obtain rfl := Option.some.inj hexec
  have hv : v ≠ r := htyped.ne List.mem_cons_self List.mem_cons_self
  obtain ⟨tv, htv, hsel⟩ := Option.bind_eq_some_iff.mp hsel
  obtain ⟨valueBits, hbits, hsel⟩ := Option.bind_eq_some_iff.mp hsel
  split at hsel
  · exact absurd hsel (by simp)
  obtain ⟨t, ht, hsel⟩ := Option.bind_eq_some_iff.mp hsel
  obtain ⟨q, hq, hsel⟩ := Option.bind_eq_some_iff.mp hsel
  obtain ⟨p, hp, hsel⟩ := Option.bind_eq_some_iff.mp hsel
  obtain ⟨rfl, rfl⟩ := Prod.mk.inj (Option.some.inj hsel)
  obtain rfl := Option.some.inj hrun
  obtain ⟨s, q', n, hs, -, hq', -, hold⟩ := h v _ (lookup_of_constant ha)
  obtain rfl : tv = s := Option.some.inj (htv.symm.trans hs)
  have hscalar : IsScalar tv ∧ tv ≠ .field := by
    rcases intBits_eq_some hbits with rfl | rfl <;> exact ⟨trivial, nofun⟩
  have hint : (∃ bits, t = .u bits) ∨ ∃ bits, t = .i bits := by
    obtain ⟨results, hresults, hsame⟩ := htyped.typed
    simp only [OpCode.resultTypes, htv, Option.bind_eq_bind, Option.bind_some] at hresults
    obtain ⟨t', ht', hresults⟩ := Option.bind_eq_some_iff.mp hresults
    obtain rfl := Option.some.inj hresults
    obtain rfl : t' = t := Option.some.inj ((hsame (r, t') List.mem_cons_self).symm.trans ht)
    exact spreadResult_int hscalar.1 ht'
  have hstrip : t.stripWitness = t := by rcases hint with ⟨_, rfl⟩ | ⟨_, rfl⟩ <;> rfl
  rw [hstrip] at hq
  obtain ⟨hsize, rfl⟩ := allocScalar_int hint hq
  obtain rfl : q' = p := Option.some.inj (hq'.symm.trans ((getValue_alloc hv 1).symm.trans hp))
  have hsmall : a.val < 2 ^ 32 := hok a ha
  have hword : spreadU32 (m.frame q') = x.val ∧ x.val < 2 ^ 64 := by
    rw [R1CGen.spread] at hx
    split at hx
    · rw [(hold.word hscalar.2).1, spreadU32, Nat.mod_eq_of_lt hsmall, ← Option.some.inj hx,
        Nat.mod_eq_of_lt (hsmall.trans (by norm_num)), spreadBits_eq_vmSpreadBits hsmall,
        val_of_word (vmSpreadBits_lt _)]
      exact ⟨rfl, vmSpreadBits_lt _⟩
    · exact absurd hx (by simp)
  rw [hword.1]
  exact h.define ht hsize (Keeps.setWord le_rfl _ _) (Holds.setWord _ _ hint hword.2)

theorem unspread_agree {odd even v : ValueId} {bits : Nat} (h : Agree types l m scope)
    (htyped : WellTyped types (.unspread odd even v bits))
    (hsel : unspread types l odd even v = some (l', code)) (hrun : m.run code = some m')
    (hexec : execScalar types scope (.unspread odd even v bits) = some scope') :
    Agree types l' m' scope' := by
  obtain ⟨a, ha, hexec⟩ := Option.bind_eq_some_iff.mp hexec
  obtain ⟨⟨x, y⟩, hxy, hexec⟩ := Option.bind_eq_some_iff.mp hexec
  obtain rfl := Option.some.inj hexec
  have hodd : v ≠ odd := htyped.ne List.mem_cons_self List.mem_cons_self
  have heven : v ≠ even := htyped.ne (List.mem_cons_of_mem _ List.mem_cons_self) List.mem_cons_self
  obtain ⟨tOdd, hOdd, hsel⟩ := Option.bind_eq_some_iff.mp hsel
  obtain ⟨qOdd, hqOdd, hsel⟩ := Option.bind_eq_some_iff.mp hsel
  obtain ⟨tEven, hEven, hsel⟩ := Option.bind_eq_some_iff.mp hsel
  obtain ⟨qEven, hqEven, hsel⟩ := Option.bind_eq_some_iff.mp hsel
  obtain ⟨p, hp, hsel⟩ := Option.bind_eq_some_iff.mp hsel
  obtain ⟨rfl, rfl⟩ := Prod.mk.inj (Option.some.inj hsel)
  obtain ⟨tv, p', n, htv, -, hp', -, hold⟩ := h v _ (lookup_of_constant ha)
  have hscalar : IsScalar tv := by
    cases tv with
    | field | u bits | i bits => trivial
    | witnessOf _ | array _ _ | slice _ | ref _ | tuple _ | function => exact hold.elim
  obtain ⟨t, ht, htOdd, htEven⟩ : ∃ t, tv.unspreadResult = some t ∧ tOdd = t ∧ tEven = t := by
    obtain ⟨results, hresults, hsame⟩ := htyped.typed
    simp only [OpCode.resultTypes, htv, Option.bind_eq_bind, Option.bind_some] at hresults
    obtain ⟨t, ht, hresults⟩ := Option.bind_eq_some_iff.mp hresults
    obtain rfl := Option.some.inj hresults
    exact ⟨t, ht, Option.some.inj (hOdd.symm.trans (hsame (odd, t) (by simp))),
      Option.some.inj (hEven.symm.trans (hsame (even, t) (by simp)))⟩
  subst htOdd htEven
  obtain ⟨hint, hne⟩ := unspreadResult_int hscalar ht
  have hstrip : tEven.stripWitness = tEven := by rcases hint with ⟨_, rfl⟩ | ⟨_, rfl⟩ <;> rfl
  rw [hstrip] at hqOdd hqEven
  obtain ⟨hsize, rfl⟩ := allocScalar_int hint hqOdd
  obtain ⟨-, rfl⟩ := allocScalar_int hint hqEven
  rw [getValue_alloc heven, getValue_alloc hodd, hp', Option.some.injEq] at hp
  subst hp
  obtain ⟨hword, hlt⟩ := hold.word hne
  have hxy' : vmUnspreadBits a.val = (x.val, y.val) ∧ x.val < 2 ^ 64 ∧ y.val < 2 ^ 64 := by
    rw [R1CGen.unspread] at hxy
    split at hxy
    · have hsmall : ∀ n, vmCompactBits n < 2 ^ 64 :=
        fun n => (vmCompactBits_lt n).trans (by norm_num)
      rw [Nat.mod_eq_of_lt hlt, unspreadBits_eq_vmUnspreadBits hlt, vmUnspreadBits] at hxy
      obtain ⟨rfl, rfl⟩ := Prod.mk.inj (Option.some.inj hxy)
      rw [val_of_word (hsmall _), val_of_word (hsmall _)]
      exact ⟨rfl, hsmall _, hsmall _⟩
    · exact absurd hxy (by simp)
  rw [run_singleton, Machine.step, hword, unspreadU64, hxy'.1] at hrun
  obtain rfl := Option.some.inj hrun
  have hfirst := h.define hOdd hsize (Keeps.setWord le_rfl m x.val)
    (Holds.setWord _ _ hint hxy'.2.1)
  exact hfirst.define hEven hsize (Keeps.setWord le_rfl _ _) (Holds.setWord _ _ hint hxy'.2.2)

/-- One instruction, on which neither evaluator fails, keeps the agreement. -/
theorem select_agree {op : Hlssa.OpCode} (h : Agree types l m scope)
    (htyped : WellTyped types op) (hok : StepOk types scope op)
    (hsel : select types l op = some (l', code)) (hrun : m.run code = some m')
    (hexec : execScalar types scope op = some scope') : Agree types l' m' scope' := by
  cases op with
  | binaryArithOp kind r lhs rhs => exact binaryArithOp_agree h htyped hok hsel hrun hexec
  | cmp kind r lhs rhs => exact cmp_agree h htyped hok hsel hrun hexec
  | cast r v target => exact cast_agree h htyped hok hsel hrun hexec
  | not r v => exact not_agree h htyped hok hsel hrun hexec
  | spread r v bits => exact spread_agree h htyped hok hsel hrun hexec
  | unspread odd even v bits => exact unspread_agree h htyped hsel hrun hexec
  | toRadix r v radix endianness count =>
    cases radix with
    | dyn v => exact absurd hsel (by simp [select])
    | bytes =>
      cases endianness with
      | little => exact absurd hsel (by simp [select])
      | big => exact toRadix_agree h htyped hsel hrun hexec
  | toBits r v endianness count =>
    cases endianness with
    | big => exact absurd hsel (by simp [select])
    | little =>
      -- the opcode is not implemented
      obtain ⟨t, -, hsel⟩ := Option.bind_eq_some_iff.mp hsel
      obtain ⟨q, -, hsel⟩ := Option.bind_eq_some_iff.mp hsel
      obtain ⟨p, -, hsel⟩ := Option.bind_eq_some_iff.mp hsel
      obtain ⟨-, rfl⟩ := Prod.mk.inj (Option.some.inj hsel)
      exact absurd hrun (by simp [run_singleton, Machine.step])
  | _ => exact absurd hsel (by simp [select])

end Step

/-! ## Straight-line code

The induction.
-/

/-- The generator's run over a sequence. -/
def execAll (types : ValueId → Option TypeExpr) : Scope → List Hlssa.OpCode → Option Scope :=
  List.foldlM (execScalar types)

/-- Every step of the generator's run meets the condition. -/
def StepsOk (types : ValueId → Option TypeExpr) : Scope → List Hlssa.OpCode → Prop
  | _, [] => True
  | scope, op :: ops => StepOk types scope op ∧
      ∀ scope', execScalar types scope op = some scope' → StepsOk types scope' ops

theorem run_append (m : Machine) (code rest : List Bytecode.OpCode) :
    m.run (code ++ rest) = (m.run code).bind fun m' => m'.run rest := by
  simp [Machine.run, List.foldlM_append]

theorem selectAll_agree {types : ValueId → Option TypeExpr} {ops : List Hlssa.OpCode}
    {l l' : FrameLayouter} {m m' : Machine} {scope scope' : Scope}
    {code : List Bytecode.OpCode} (h : Agree types l m scope)
    (htyped : ∀ op ∈ ops, WellTyped types op) (hok : StepsOk types scope ops)
    (hsel : selectAll types l ops = some (l', code)) (hrun : m.run code = some m')
    (hexec : execAll types scope ops = some scope') : Agree types l' m' scope' := by
  induction ops generalizing l m scope code with
  | nil =>
    obtain ⟨rfl, rfl⟩ := Prod.mk.inj (Option.some.inj hsel)
    obtain rfl := Option.some.inj hrun
    obtain rfl := Option.some.inj hexec
    exact h
  | cons op ops ih =>
    obtain ⟨⟨l₁, code₁⟩, hsel₁, hsel⟩ := Option.bind_eq_some_iff.mp hsel
    obtain ⟨⟨l₂, code₂⟩, hsel₂, hsel⟩ := Option.bind_eq_some_iff.mp hsel
    obtain ⟨rfl, rfl⟩ := Prod.mk.inj (Option.some.inj hsel)
    rw [run_append] at hrun
    obtain ⟨m₁, hrun₁, hrun₂⟩ := Option.bind_eq_some_iff.mp hrun
    obtain ⟨scope₁, hexec₁, hexec₂⟩ := Option.bind_eq_some_iff.mp hexec
    obtain ⟨hop, hops⟩ := List.forall_mem_cons.mp htyped
    have h₁ := select_agree h hop hok.1 hsel₁ hrun₁ hexec₁
    exact ih h₁ hops (hok.2 scope₁ hexec₁) hsel₂ hrun₂ hexec₂

end Mavros.Codegen
