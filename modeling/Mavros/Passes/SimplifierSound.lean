/-
# `Mavros.Passes.SimplifierSound` — when a rewriting keeps the value

A rewriting looks at constants and definitions but, apart from one sibling
(`materialize_const`), not at the type of what it gives.  `RuleOk` is the condition on
the operand types under which the value it gives is the instruction's, wrapper and width
included.

## What is proved

* `tryAlgebraic_fired`: every rewriting is of one of a few shapes (`Fired`).  The new value is an
  operand, an operand of the definition of one, or a constant; or the instruction is replaced by
  another that reads its operands and constants only.
* `tryAlgebraic_keeps`: under `RuleOk` every rewriting keeps the value of the instruction
  (`Keeps`), given what is known of the operands where it stands (`Known`).

## How it goes

`Known` collects what the walk can supply: the operands have their types, constants are what the
table says, and the definitions looked through hold as equations.  Each kind of arithmetic then
has its lemma (`add_keeps` to `shr_keeps`), whose cases are the arms of the source, each closed by
an identity of `Mavros.Passes.SimplifierRules` after `RuleOk` has given the types that the identity
asks for.

`RuleOk` reads the operand types before the rewriting and nothing else, arm by arm.  Where an arm
checks enough by itself the condition is true there.
-/
import Mavros.Passes.SimplifierRules

namespace Mavros.Simplifier

open Hlssa

/-! ## The condition -/

/-- The type of an operand: of the constant it is now, or of the value it was. -/
def typeOf (types : ValueId → Option TypeExpr) (c : Constants) (v : ValueId) : Option TypeExpr :=
  ((c.table.lookup v).map Constant.type).or (types v)

section Conditions

variable (τ : ValueId → Option TypeExpr) (c : Constants)

/-- The two operands have types, and these are related. -/
def Typed (R : TypeExpr → TypeExpr → Prop) (u v : ValueId) : Prop :=
  ∃ t t', τ u = some t ∧ τ v = some t' ∧ R t t'

/-- The type has the number one: a bit that is signed has not. -/
def HasOne : TypeExpr → Prop
  | .u m => 1 ≤ m
  | .i m => 2 ≤ m
  | .field => True
  | _ => False

/-- A neutral constant (first) fits the type of the operand that remains. -/
def Neutral (t t' : TypeExpr) : Prop := Fits t t'.stripWitness

def NeutralInt (t t' : TypeExpr) : Prop := FitsInt t t'.stripWitness

def NeutralOne (t t' : TypeExpr) : Prop := Fits t t'.stripWitness ∧ HasOne t

/-- A shift by zero: a type without bits has no shift. -/
def NeutralShift (t t' : TypeExpr) : Prop :=
  FitsInt t t'.stripWitness ∧ t'.stripWitness ≠ .u 0 ∧ t'.stripWitness ≠ .i 0

/-- The operand that is dropped fits an absorbing constant (first); a witness does not. -/
def Absorbs (t t' : TypeExpr) : Prop := Fits t' t

def AbsorbsInt (t t' : TypeExpr) : Prop := FitsInt t' t

/-- All ones, of the width of the operand that remains. -/
def AllOnes (t t' : TypeExpr) : Prop :=
  t = t'.stripWitness ∧ ∀ n, t = .u n ∨ t = .i n → n ≤ 128

/-- Twice the same integer. -/
def SameInt (t _t : TypeExpr) : Prop := IsInt t.stripWitness

/-- The amount is a constant of its width, which is at most that of the operand. -/
def ShrOk (lhs rhs : ValueId) : Prop :=
  ∃ m n value t, c.table.lookup rhs = some (.u m value) ∧ value < 2 ^ m ∧ τ lhs = some t ∧
    t.stripWitness = .u n ∧ m ≤ n

def ArithOk (lhs rhs : ValueId) : BinaryArithOpKind → Prop
  | .add => if isZero c lhs then Typed τ Neutral lhs rhs else Typed τ Neutral rhs lhs
  | .sub => if isZero c rhs then Typed τ Neutral rhs lhs else True
  | .mul =>
    if isZero c lhs then Typed τ Absorbs lhs rhs
    else if isZero c rhs then Typed τ Absorbs rhs lhs
    else if isOne c lhs then Typed τ NeutralOne lhs rhs
    else Typed τ NeutralOne rhs lhs
  | .div => Typed τ NeutralOne rhs lhs
  | .and =>
    if isZero c lhs then Typed τ AbsorbsInt lhs rhs
    else if isZero c rhs then Typed τ AbsorbsInt rhs lhs
    else if lhs = rhs then Typed τ SameInt lhs rhs
    else if isAllOnes c lhs then Typed τ AllOnes lhs rhs
    else Typed τ AllOnes rhs lhs
  | .or | .xor =>
    if isZero c lhs then Typed τ NeutralInt lhs rhs
    else if isZero c rhs then Typed τ NeutralInt rhs lhs
    else Typed τ SameInt lhs rhs
  | .shl => Typed τ NeutralShift rhs lhs
  | .shr => if isZero c rhs then Typed τ NeutralShift rhs lhs else ShrOk τ c lhs rhs
  | .mod => True

/-- When the rewriting of `op` keeps the value: the constant's type fits, an operand that
is dropped was no witness, a selected pure value was selected by a pure condition. -/
def RuleOk : OpCode → Prop
  | .binaryArithOp kind _ lhs rhs => ArithOk τ c lhs rhs kind
  | .mulConst _ k v =>
    if isZero c k then Typed τ (fun t t' => t' = t) k v
    else Typed τ (fun t t' => Scales t t'.stripWitness ∧ HasOne t) k v
  | .select _ cond ifT _ =>
    Typed τ (fun t t' => t.stripWitness = .u 1 ∧ (t.isWitnessOf → t'.isWitnessOf)) cond ifT
  | .cmp _ _ lhs rhs => Typed τ (fun t _ => IsScalar t.stripWitness) lhs rhs
  | _ => True

end Conditions

/-! ## What fires

The shapes are used where the source of the new value matters, and its value does not.
-/

section Fired

variable {types : ValueId → Option TypeExpr} {defs : ValueId → Option OpCode} {c c' : Constants}
  {op : OpCode} {rewrite : Rewrite}

/-- Which instructions are replaced, and by which. -/
inductive Swaps : OpCode → OpCode → Prop
  | shr (offset width : Nat) : Swaps (.binaryArithOp .shr 0 0 0) (.bitRange 0 0 offset width)
  | arith (kind : BinaryArithOpKind) : Swaps (.binaryArithOp kind 0 0 0) (.cast 0 0 .witnessOf)
  | eq : Swaps (.cmp .eq 0 0 0) (.cast 0 0 .witnessOf)

theorem Swaps.not_swaps {a b d : OpCode} (h : Swaps a b) : ¬Swaps b d := by
  cases h <;> rintro ⟨⟩

variable (defs c' op) in
/-- A rewriting of an instruction with one result: the new value is an operand, an operand
of the definition of one, or a constant. -/
def Fired : Rewrite → Prop
  | .alias r t => op.results = [r] ∧
      (t ∈ op.inputs ∨ (∃ v ∈ op.inputs, ∃ d, defs v = some d ∧ t ∈ d.inputs) ∨
        (c'.table.lookup t).isSome)
  | .replace ops => ∃ r op', ops = [op'] ∧ op.results = [r] ∧ op'.results = [r] ∧
      Swaps op.shape op'.shape ∧ ∀ u ∈ op'.inputs, u ∈ op.inputs ∨ (c'.table.lookup u).isSome

theorem materializeConst_eq_some {result : ValueId} {pureValue : TypeExpr → Option Constant}
    (h : materializeConst types c result pureValue = some (some rewrite, c')) :
    ∃ t k, types result = some t ∧ pureValue t.stripWitness = some k ∧ c' = (c.addConst k).2 ∧
      rewrite = if t.isWitnessOf then .replace [.cast result (c.addConst k).1 .witnessOf]
        else .alias result (c.addConst k).1 := by
  unfold materializeConst at h
  simp only [Option.bind_eq_bind, Option.bind_eq_some_iff] at h
  obtain ⟨t, ht, h⟩ := h
  split at h
  · simp at h
  · next k hk =>
    refine ⟨t, k, ht, hk, ?_⟩
    split at h
    · next hw =>
      simp only [Option.some.injEq, Prod.mk.injEq] at h
      exact ⟨h.2.symm, by rw [if_pos hw, h.1]⟩
    · next hw =>
      simp only [Option.some.injEq, Prod.mk.injEq] at h
      exact ⟨h.2.symm, by rw [if_neg hw, h.1]⟩

theorem materializeConst_constants {result : ValueId} {pureValue : TypeExpr → Option Constant}
    {rw' : Option Rewrite} (hc : c.WF)
    (h : materializeConst types c result pureValue = some (rw', c')) :
    c'.WF ∧ c.Extends c' := by
  cases rw' with
  | some rewrite =>
    obtain ⟨t, k, -, -, rfl, -⟩ := materializeConst_eq_some h
    have hadd := Constants.addConst_spec hc k
    exact ⟨hadd.1, hadd.2.1⟩
  | none =>
    unfold materializeConst at h
    simp only [Option.bind_eq_bind, Option.bind_eq_some_iff] at h
    obtain ⟨t, ht, h⟩ := h
    split at h
    · obtain ⟨-, rfl⟩ := Prod.mk.inj (Option.some.inj h)
      exact ⟨hc, .refl c⟩
    · split at h <;> simp at h

theorem materializeConst_fired {pureValue : TypeExpr → Option Constant} {result : ValueId}
    (hc : c.WF) (hop : op.results = [result]) (hswaps : Swaps op.shape (.cast 0 0 .witnessOf))
    (h : materializeConst types c result pureValue = some (some rewrite, c')) :
    Fired defs c' op rewrite := by
  obtain ⟨t, k, -, -, rfl, rfl⟩ := materializeConst_eq_some h
  have hk : ((c.addConst k).2.table.lookup (c.addConst k).1).isSome := by
    rw [(Constants.addConst_spec hc k).2.2]
    rfl
  split
  · refine ⟨result, _, rfl, hop, rfl, hswaps, fun u hu => .inr ?_⟩
    obtain rfl := List.mem_singleton.mp hu
    exact hk
  · exact ⟨hop, .inr (.inr hk)⟩

/-- What a rule changes nothing in the constants for. -/
theorem some_constants {x y : Option Rewrite} (hc : c.WF)
    (h : some (x, c) = some (y, c')) : c'.WF ∧ c.Extends c' := by
  obtain ⟨-, rfl⟩ := Prod.mk.inj (Option.some.inj h)
  exact ⟨hc, .refl c⟩

theorem shrToBitRange_eq_some {rewrite : Option Rewrite} {result lhs rhs : ValueId}
    (h : shrToBitRange types c result lhs rhs = some (rewrite, c')) :
    c' = c ∧ (rewrite = none ∨ ∃ offset t bits, constAsUsize c rhs = some offset ∧
      types lhs = some t ∧ t.stripWitness = .u bits ∧ offset < bits ∧
        rewrite = some (.replace [.bitRange result lhs offset (bits - offset)])) := by
  unfold shrToBitRange at h
  split at h
  · obtain ⟨rfl, rfl⟩ := Prod.mk.inj (Option.some.inj h)
    exact ⟨rfl, .inl rfl⟩
  · next offset hoffset =>
    simp only [Option.bind_eq_bind, Option.bind_eq_some_iff] at h
    obtain ⟨t, ht, h⟩ := h
    split at h
    · next bits hbits =>
      split at h
      · next hlt =>
        obtain ⟨rfl, rfl⟩ := Prod.mk.inj (Option.some.inj h)
        exact ⟨rfl, .inr ⟨offset, t, bits, hoffset, ht, hbits, hlt, rfl⟩⟩
      · obtain ⟨rfl, rfl⟩ := Prod.mk.inj (Option.some.inj h)
        exact ⟨rfl, .inl rfl⟩
    · obtain ⟨rfl, rfl⟩ := Prod.mk.inj (Option.some.inj h)
      exact ⟨rfl, .inl rfl⟩

theorem tryArith_constants {rw' : Option Rewrite} {kind : BinaryArithOpKind}
    {result lhs rhs : ValueId} (hc : c.WF)
    (h : tryArith types c kind result lhs rhs = some (rw', c')) : c'.WF ∧ c.Extends c' := by
  cases kind <;> simp only [tryArith] at h <;> (repeat' split at h) <;> first
    | exact some_constants hc h
    | exact materializeConst_constants hc h
    | (obtain ⟨rfl, -⟩ := shrToBitRange_eq_some h; exact ⟨hc, .refl _⟩)

theorem tryAlgebraic_constants {rw' : Option Rewrite} (hc : c.WF)
    (h : tryAlgebraic types defs c op = some (rw', c')) : c'.WF ∧ c.Extends c' := by
  unfold tryAlgebraic at h
  split at h
  · exact tryArith_constants hc h
  all_goals (repeat' split at h) <;> first
    | exact some_constants hc h
    | exact materializeConst_constants hc h
    | skip
  simp only [Option.bind_eq_bind, Option.bind_eq_some_iff] at h
  obtain ⟨t, -, bits, -, h⟩ := h
  split at h <;> exact some_constants hc h

/-- An alias of one of two operands. -/
theorem fired_operand {result target : ValueId} (hop : op.results = [result])
    (ht : target ∈ op.inputs)
    (h : some (some (Rewrite.alias result target), c) = some (some rewrite, c')) :
    Fired defs c' op rewrite := by
  obtain ⟨hr, rfl⟩ := Prod.mk.inj (Option.some.inj h)
  obtain rfl := Option.some.inj hr
  exact ⟨hop, .inl ht⟩

theorem fired_inner {result target v : ValueId} {d : OpCode} (hop : op.results = [result])
    (hv : v ∈ op.inputs) (hd : defs v = some d) (ht : target ∈ d.inputs)
    (h : some (some (Rewrite.alias result target), c) = some (some rewrite, c')) :
    Fired defs c' op rewrite := by
  obtain ⟨hr, rfl⟩ := Prod.mk.inj (Option.some.inj h)
  obtain rfl := Option.some.inj hr
  exact ⟨hop, .inr (.inl ⟨v, hv, d, hd, ht⟩)⟩

theorem tryArith_fired {kind : BinaryArithOpKind} {result lhs rhs : ValueId} (hc : c.WF)
    (h : tryArith types c kind result lhs rhs = some (some rewrite, c')) :
    Fired defs c' (.binaryArithOp kind result lhs rhs) rewrite := by
  have hl : lhs ∈ (OpCode.binaryArithOp kind result lhs rhs).inputs := List.mem_cons_self
  have hr : rhs ∈ (OpCode.binaryArithOp kind result lhs rhs).inputs :=
    List.mem_cons_of_mem _ List.mem_cons_self
  cases kind <;> simp only [tryArith] at h <;> (repeat' split at h) <;> first
    | exact fired_operand rfl hl h
    | exact fired_operand rfl hr h
    | exact materializeConst_fired hc rfl (.arith _) h
    | skip
  all_goals first
    | cases h
    | skip
  obtain ⟨rfl, h | ⟨offset, t, bits, -, -, -, -, h⟩⟩ := shrToBitRange_eq_some h
  · simp at h
  · obtain rfl := Option.some.inj h
    refine ⟨result, _, rfl, rfl, rfl, .shr _ _, fun u hu => .inl ?_⟩
    obtain rfl := List.mem_singleton.mp hu
    exact hl

theorem tryAlgebraic_fired (hc : c.WF)
    (h : tryAlgebraic types defs c op = some (some rewrite, c')) : Fired defs c' op rewrite := by
  unfold tryAlgebraic at h
  split at h
  · exact tryArith_fired hc h
  all_goals (repeat' split at h) <;> first
    | exact fired_operand rfl List.mem_cons_self h
    | exact fired_operand rfl (List.mem_cons_of_mem _ List.mem_cons_self) h
    | exact fired_inner rfl List.mem_cons_self ‹_› List.mem_cons_self h
    | exact materializeConst_fired hc rfl .eq h
    | skip
  all_goals first
    | cases h
    | skip
  simp only [Option.bind_eq_bind, Option.bind_eq_some_iff] at h
  obtain ⟨t, -, bits, -, h⟩ := h
  split at h
  · exact fired_operand rfl List.mem_cons_self h
  · simp at h

end Fired

/-! ## The value is kept -/

section Keeps

variable {A W : Type} {C : Completion A W}
  {signatures : FunctionId → Option (List TypeExpr × List TypeExpr)}

variable (C signatures) in
/-- What the values read satisfies the definition `d`. -/
def Equation (g : ValueId → Option (Value A)) (d : OpCode) : Prop :=
  ∃ xs ys w w' rs, d.inputs.mapM g = some xs ∧ (valueSem C).op d.shape xs w = (w', some ys) ∧
    d.results.mapM g = some ys ∧
      d.resultTypes signatures (fun u => (g u).map Value.type) = some rs

variable (C signatures) in
/-- What is known where an instruction is rewritten; `g` is what the values read there. -/
structure Known (types : ValueId → Option TypeExpr) (defs : ValueId → Option OpCode)
    (c' : Constants) (g : ValueId → Option (Value A)) (op : OpCode) : Prop where
  const : ∀ v k, c'.table.lookup v = some k → g v = some (constVal C k)
  typed : ∀ v ∈ op.inputs, ∀ x t, g v = some x → types v = some t → x.type = t
  defined : ∀ v ∈ op.inputs, ∀ d, defs v = some d → v ∈ d.results ∧ Equation C signatures g d
  result : ∃ rs, op.resultTypes signatures (fun u => (g u).map Value.type) = some rs ∧
    ∀ p ∈ rs, types p.1 = some p.2

variable (C) in
/-- The rewritten instruction gives the value the instruction gives, or fails like it. -/
def Keeps (g : ValueId → Option (Value A)) (op : OpCode) (xs : List (Value A)) : Rewrite → Prop
  | .alias _ t => ∃ y, g t = some y ∧ ∀ w, (valueSem C).op op.shape xs w = (w, some [y])
  | .replace ops => ∀ op' ∈ ops, ∃ ys, op'.inputs.mapM g = some ys ∧
      ∀ w, (valueSem C).op op'.shape ys w = (valueSem C).op op.shape xs w

variable {types : ValueId → Option TypeExpr} {defs : ValueId → Option OpCode} {c c' : Constants}
  {g : ValueId → Option (Value A)} {op : OpCode} {u v : ValueId} {x y : Value A}

theorem constVal_type (k : Constant) : (constVal C k).type = k.type := by
  cases k <;> rfl

theorem Value.type_of_pure (h : x.witness = false) : x.type = x.raw.type := by
  rw [Value.type, h, if_neg Bool.false_ne_true]

theorem Known.typeOf_eq (h : Known C signatures types defs c' g op) (hwf : c.WF)
    (hext : c.Extends c') {t : TypeExpr} (hv : v ∈ op.inputs) (hg : g v = some x)
    (ht : typeOf types c v = some t) : x.type = t := by
  unfold typeOf at ht
  cases hk : c.table.lookup v with
  | some k =>
    rw [hk] at ht
    obtain rfl := Option.some.inj ht
    obtain rfl := Option.some.inj (hg.symm.trans (h.const v k (hext.some hwf hk)))
    exact constVal_type k
  | none =>
    rw [hk] at ht
    exact h.typed v hv x t hg ht

theorem Known.typed_two (h : Known C signatures types defs c' g op) (hwf : c.WF)
    (hext : c.Extends c') {R : TypeExpr → TypeExpr → Prop} (hu : u ∈ op.inputs)
    (hv : v ∈ op.inputs) (hx : g u = some x) (hy : g v = some y)
    (hR : Typed (typeOf types c) R u v) : R x.type y.type := by
  obtain ⟨t, t', ht, ht', hR⟩ := hR
  rw [h.typeOf_eq hwf hext hu hx ht, h.typeOf_eq hwf hext hv hy ht']
  exact hR

theorem Known.constant (h : Known C signatures types defs c' g op) (hwf : c.WF)
    (hext : c.Extends c') {k : Constant} (hk : c.table.lookup u = some k) (hx : g u = some x) :
    x = constVal C k :=
  Option.some.inj (hx.symm.trans (h.const u k (hext.some hwf hk)))

theorem Known.zero (h : Known C signatures types defs c' g op) (hwf : c.WF)
    (hext : c.Extends c') (hz : isZero c u = true) (hx : g u = some x) :
    x.witness = false ∧ IsNum 0 x.raw := by
  unfold isZero at hz
  split at hz
  · next n hk =>
    rw [h.constant hwf hext hk hx]
    exact ⟨rfl, intVal_zero false n⟩
  · next n hk =>
    rw [h.constant hwf hext hk hx]
    exact ⟨rfl, intVal_zero true n⟩
  · next e hk =>
    rw [h.constant hwf hext hk hx]
    refine ⟨rfl, ?_⟩
    show e = ((0 : Int) : Fr)
    rw [Int.cast_zero]
    exact of_decide_eq_true hz
  · simp at hz

theorem Known.one (h : Known C signatures types defs c' g op) (hwf : c.WF)
    (hext : c.Extends c') (hz : isOne c u = true) (hx : g u = some x) (hone : HasOne x.type) :
    x.witness = false ∧ IsNum 1 x.raw := by
  unfold isOne at hz
  split at hz
  · next n hk =>
    rw [h.constant hwf hext hk hx] at hone ⊢
    exact ⟨rfl, intVal_one_unsigned hone⟩
  · next n hk =>
    rw [h.constant hwf hext hk hx] at hone ⊢
    exact ⟨rfl, intVal_one_signed hone⟩
  · next e hk =>
    rw [h.constant hwf hext hk hx]
    refine ⟨rfl, ?_⟩
    show e = ((1 : Int) : Fr)
    rw [Int.cast_one]
    exact of_decide_eq_true hz
  · simp at hz

theorem ofNat_bitMask {n : Nat} (h : n ≤ 128) :
    BitVec.ofNat n (bitMask n) = BitVec.allOnes n := by
  have hmask : bitMask n = 2 ^ n - 1 := by
    unfold bitMask
    split
    · next h0 => rw [h0]; rfl
    · split
      · next h128 => rw [h128]
      · next h128 => rw [Nat.mod_eq_of_lt (by omega)]
  apply BitVec.eq_of_toNat_eq
  rw [hmask, BitVec.toNat_ofNat, BitVec.toNat_allOnes]
  exact Nat.mod_eq_of_lt (Nat.sub_lt (Nat.two_pow_pos n) Nat.one_pos)

theorem Known.ones (h : Known C signatures types defs c' g op) (hwf : c.WF)
    (hext : c.Extends c') (hz : isAllOnes c u = true) (hx : g u = some x)
    (hbits : ∀ n, x.type = .u n ∨ x.type = .i n → n ≤ 128) :
    ∃ s n, x = ⟨false, .int s n (BitVec.allOnes n)⟩ := by
  unfold isAllOnes at hz
  split at hz
  · next n value hk =>
    rw [h.constant hwf hext hk hx] at hbits ⊢
    have hn : n ≤ 128 := hbits n (.inl rfl)
    rw [of_decide_eq_true hz]
    exact ⟨false, n, by rw [constVal, ofNat_bitMask hn]⟩
  · next n value hk =>
    rw [h.constant hwf hext hk hx] at hbits ⊢
    have hn : n ≤ 128 := hbits n (.inr rfl)
    rw [of_decide_eq_true hz]
    exact ⟨true, n, by rw [constVal, ofNat_bitMask hn]⟩
  · simp at hz

/-! ### Arithmetic -/

variable {kind : BinaryArithOpKind} {result lhs rhs target : ValueId} {a b : Value A}

theorem arith_op {raw : Raw A} (h : arithRaw C kind a.raw b.raw = some raw)
    (hy : y = ⟨a.witness || b.witness, raw⟩) (w : W) :
    (valueSem C).op (OpCode.binaryArithOp kind result lhs rhs).shape [a, b] w = (w, some [y]) := by
  show (w, (arithRaw C kind a.raw b.raw).map _) = _
  rw [h, hy]
  rfl

theorem keeps_left (ha : g lhs = some a) (hb : b.witness = false)
    (h : arithRaw C kind a.raw b.raw = some a.raw) :
    Keeps C g (.binaryArithOp kind result lhs rhs) [a, b] (.alias result lhs) :=
  ⟨a, ha, arith_op h (by rw [hb, Bool.or_false])⟩

theorem keeps_right (hb : g rhs = some b) (ha : a.witness = false)
    (h : arithRaw C kind a.raw b.raw = some b.raw) :
    Keeps C g (.binaryArithOp kind result lhs rhs) [a, b] (.alias result rhs) :=
  ⟨b, hb, arith_op h (by rw [ha, Bool.false_or])⟩

theorem keeps_same (ha : g lhs = some a) (h : arithRaw C kind a.raw a.raw = some a.raw) :
    Keeps C g (.binaryArithOp kind result lhs lhs) [a, a] (.alias result lhs) :=
  ⟨a, ha, arith_op h (by rw [Bool.or_self])⟩

theorem fits_pure {t : TypeExpr} (h : Fits a.type t) : a.witness = false ∧ Fits a.raw.type t := by
  cases hw : a.witness with
  | false => exact ⟨rfl, by rwa [Value.type_of_pure hw] at h⟩
  | true =>
    rw [Value.type, hw, if_pos rfl] at h
    exact h.elim

theorem fitsInt_pure {t : TypeExpr} (h : FitsInt a.type t) :
    a.witness = false ∧ FitsInt a.raw.type t := by
  obtain ⟨hw, -⟩ := fits_pure h.fits
  exact ⟨hw, by rwa [Value.type_of_pure hw] at h⟩

/-! A constant and the operand beside it, as the rules ask for them. -/

section Constants

variable (h : Known C signatures types defs c' g op) (hwf : c.WF) (hext : c.Extends c')
  (hx : g u = some x)
include h hwf hext hx

theorem Known.neutral (hz : isZero c u = true) (hR : Neutral x.type y.type) :
    x.witness = false ∧ IsNum 0 x.raw ∧ Fits x.raw.type y.raw.type := by
  obtain ⟨hw, hnum⟩ := h.zero hwf hext hz hx
  rw [Neutral, Value.type_of_pure hw, Value.stripWitness_type] at hR
  exact ⟨hw, hnum, hR⟩

theorem Known.neutralInt (hz : isZero c u = true) (hR : NeutralInt x.type y.type) :
    x.witness = false ∧ IsNum 0 x.raw ∧ FitsInt x.raw.type y.raw.type := by
  obtain ⟨hw, hnum⟩ := h.zero hwf hext hz hx
  rw [NeutralInt, Value.type_of_pure hw, Value.stripWitness_type] at hR
  exact ⟨hw, hnum, hR⟩

theorem Known.neutralOne (ho : isOne c u = true) (hR : NeutralOne x.type y.type) :
    x.witness = false ∧ IsNum 1 x.raw ∧ Fits x.raw.type y.raw.type := by
  obtain ⟨hfits, hone⟩ := hR
  obtain ⟨hw, hnum⟩ := h.one hwf hext ho hx hone
  rw [Value.type_of_pure hw, Value.stripWitness_type] at hfits
  exact ⟨hw, hnum, hfits⟩

theorem Known.neutralShift (hz : isZero c u = true) (hR : NeutralShift x.type y.type) :
    x.witness = false ∧ IsNum 0 x.raw ∧ FitsInt x.raw.type y.raw.type ∧
      y.raw.type ≠ .u 0 ∧ y.raw.type ≠ .i 0 := by
  obtain ⟨hw, hnum⟩ := h.zero hwf hext hz hx
  rw [NeutralShift, Value.type_of_pure hw, Value.stripWitness_type] at hR
  exact ⟨hw, hnum, hR⟩

theorem Known.absorbs (hz : isZero c u = true) (hR : Absorbs x.type y.type) :
    y.witness = false ∧ IsNum 0 x.raw ∧ Fits y.raw.type x.raw.type := by
  obtain ⟨hw, hnum⟩ := h.zero hwf hext hz hx
  rw [Absorbs, Value.type_of_pure hw] at hR
  obtain ⟨hwy, hfits⟩ := fits_pure hR
  exact ⟨hwy, hnum, hfits⟩

theorem Known.absorbsInt (hz : isZero c u = true) (hR : AbsorbsInt x.type y.type) :
    y.witness = false ∧ IsNum 0 x.raw ∧ FitsInt y.raw.type x.raw.type := by
  obtain ⟨hw, hnum⟩ := h.zero hwf hext hz hx
  rw [AbsorbsInt, Value.type_of_pure hw] at hR
  obtain ⟨hwy, hfits⟩ := fitsInt_pure hR
  exact ⟨hwy, hnum, hfits⟩

end Constants

/-- What `materialize_const` gives is the number, with the wrapper of the result. -/
theorem keeps_materialize {rewrite : Rewrite} {value : Nat} {xs : List (Value A)}
    (hwf : c.WF) (h : materializeConst types c result (scalarConst value) = some (some rewrite, c'))
    (hconst : ∀ v k, c'.table.lookup v = some k → g v = some (constVal C k))
    (hy : ∀ t z, types result = some t → scalarRaw value t.stripWitness = some z →
      ∀ w, (valueSem C).op op.shape xs w = (w, some [⟨t.isWitnessOf, z⟩])) :
    Keeps C g op xs rewrite := by
  obtain ⟨t, k, ht, hk, rfl, rfl⟩ := materializeConst_eq_some h
  obtain ⟨z, hz, hval⟩ := @constVal_scalarConst A W C value _ k hk
  have hread := hconst _ k (Constants.addConst_spec hwf k).2.2
  have hy := hy t z ht hz
  split
  · next hw =>
    rw [hw] at hy
    intro op' hop'
    obtain rfl := List.mem_singleton.mp hop'
    refine ⟨[constVal C k], by simp [OpCode.inputs, hread], fun w => ?_⟩
    rw [hy w, hval]
    rfl
  · next hw =>
    have hw : t.isWitnessOf = false := by simpa using hw
    rw [hw] at hy
    exact ⟨_, hread, by rw [hval]; exact hy⟩

section Arith

variable (hk : Known C signatures types defs c' g (.binaryArithOp kind result lhs rhs))
  (hwf : c.WF) (hext : c.Extends c') (ha : g lhs = some a) (hb : g rhs = some b)
include hk hwf hext ha hb

theorem typed_left {R : TypeExpr → TypeExpr → Prop} (hR : Typed (typeOf types c) R lhs rhs) :
    R a.type b.type :=
  hk.typed_two hwf hext List.mem_cons_self (List.mem_cons_of_mem _ List.mem_cons_self) ha hb hR

theorem typed_right {R : TypeExpr → TypeExpr → Prop} (hR : Typed (typeOf types c) R rhs lhs) :
    R b.type a.type :=
  hk.typed_two hwf hext (List.mem_cons_of_mem _ List.mem_cons_self) List.mem_cons_self hb ha hR

end Arith

/-- The type the walk has for the result. -/
theorem result_type
    (hk : Known C signatures types defs c' g (.binaryArithOp kind result lhs rhs))
    (ha : g lhs = some a) (hb : g rhs = some b) :
    ∃ t, a.type.arithmeticResult b.type = some t ∧ types result = some t := by
  obtain ⟨rs, hrs, htypes⟩ := hk.result
  simp only [OpCode.resultTypes, ha, hb, Option.map_some, Option.bind_eq_bind,
    Option.bind_some, Option.bind_eq_some_iff] at hrs
  obtain ⟨t, ht, hrs⟩ := hrs
  obtain rfl := Option.some.inj hrs
  exact ⟨t, ht, htypes (result, t) List.mem_cons_self⟩

theorem arithmeticResult_scalar {t : TypeExpr} (h : a.type.arithmeticResult a.type = some t) :
    IsScalar a.raw.type := by
  obtain ⟨w, raw⟩ := a
  cases raw with
  | int s n x => cases s <;> trivial
  | field x => trivial
  | other t' ht x =>
    cases t' <;> cases w <;> first | exact ht.elim | cases h

theorem arithmeticResult_self {t : TypeExpr} (h : a.type.arithmeticResult a.type = some t) :
    t = a.type := by
  obtain ⟨w, raw⟩ := a
  cases raw with
  | int s n x =>
    cases s <;> cases w <;>
      simpa [Value.type, Raw.type, TypeExpr.arithmeticResult, TypeExpr.arithmeticRight,
        TypeExpr.stripWitness, TypeExpr.mkWitnessOf, eq_comm] using h
  | field x =>
    cases w <;>
      simpa [Value.type, Raw.type, TypeExpr.arithmeticResult, TypeExpr.arithmeticRight,
        TypeExpr.stripWitness, TypeExpr.mkWitnessOf, eq_comm] using h
  | other t' ht x =>
    cases t' <;> cases w <;> first | exact ht.elim | cases h

/-- An operation on twice the same value that is zero. -/
theorem keeps_zero {rewrite : Rewrite}
    (hk : Known C signatures types defs c' g (.binaryArithOp kind result lhs lhs)) (hwf : c.WF)
    (ha : g lhs = some a)
    (h : materializeConst types c result (scalarConst 0) = some (some rewrite, c'))
    (hself : ∀ z, scalarRaw 0 a.raw.type = some z → arithRaw C kind a.raw a.raw = some z) :
    Keeps C g (.binaryArithOp kind result lhs lhs) [a, a] rewrite := by
  obtain ⟨t, ht, hres⟩ := result_type hk ha ha
  obtain rfl := arithmeticResult_self ht
  refine keeps_materialize hwf h hk.const fun t' z ht' hz => ?_
  obtain rfl := Option.some.inj (hres.symm.trans ht')
  rw [Value.stripWitness_type] at hz
  exact arith_op (hself z hz) (by rw [Value.isWitnessOf_type, Bool.or_self])

theorem keeps_shr {offset bits : Nat} {t : TypeExpr}
    (hk : Known C signatures types defs c g (.binaryArithOp .shr result lhs rhs)) (hwf : c.WF)
    (ha : g lhs = some a) (hb : g rhs = some b) (hok : ShrOk (typeOf types c) c lhs rhs)
    (hoffset : constAsUsize c rhs = some offset) (ht : types lhs = some t)
    (hbits : t.stripWitness = .u bits) (hlt : offset < bits) :
    Keeps C g (.binaryArithOp .shr result lhs rhs) [a, b]
      (.replace [.bitRange result lhs offset (bits - offset)]) := by
  obtain ⟨m, n, value, t', hconst, hvalue, ht', hn, hm⟩ := hok
  have hat := hk.typed lhs List.mem_cons_self a t ha ht
  have hat' := hk.typeOf_eq hwf (.refl c) List.mem_cons_self ha ht'
  obtain rfl : bits = n := by
    rw [← hat', hat, hbits] at hn
    exact TypeExpr.u.inj hn
  obtain rfl : value = offset := by
    simp only [constAsUsize, hconst] at hoffset
    split at hoffset
    · exact Option.some.inj hoffset
    · simp at hoffset
  obtain rfl := hk.constant hwf (.refl c) hconst hb
  have hraw : a.raw.type = (Raw.int (A := A) false bits (BitVec.zero bits)).type := by
    rw [← Value.stripWitness_type, hat, hbits]
    rfl
  obtain ⟨x, hx⟩ := eq_int_of_type hraw
  intro op' hop'
  obtain rfl := List.mem_singleton.mp hop'
  refine ⟨[a], by simp [OpCode.inputs, ha], fun w => ?_⟩
  show (w, (bitRangeRaw value (bits - value) a.raw).map _) = (w, (arithRaw C .shr a.raw _).map _)
  rw [hx, constVal, shr_const_raw hm hlt hvalue, Bool.or_false]

/-! The rules for `BinaryArithOp`, by kind. -/

theorem alias_inj {r t : ValueId} {rewrite : Rewrite}
    (h : some (some (Rewrite.alias r t), c) = some (some rewrite, c')) :
    rewrite = .alias r t ∧ c' = c := by
  obtain ⟨hr, rfl⟩ := Prod.mk.inj (Option.some.inj h)
  exact ⟨(Option.some.inj hr).symm, rfl⟩

theorem add_keeps {rewrite : Rewrite}
    (hk : Known C signatures types defs c' g (.binaryArithOp .add result lhs rhs)) (hwf : c.WF)
    (hext : c.Extends c') (ha : g lhs = some a) (hb : g rhs = some b)
    (hok : ArithOk (typeOf types c) c lhs rhs .add)
    (h : tryArith types c .add result lhs rhs = some (some rewrite, c')) :
    Keeps C g (.binaryArithOp .add result lhs rhs) [a, b] rewrite := by
  simp only [tryArith] at h
  simp only [ArithOk] at hok
  split at h
  · next hz =>
    rw [if_pos hz] at hok
    obtain ⟨hw, hnum, hfits⟩ := hk.neutral hwf hext ha hz (typed_left hk hwf hext ha hb hok)
    rw [(alias_inj h).1]
    exact keeps_right hb hw (zero_add_raw hnum hfits)
  · next hnz =>
    rw [if_neg hnz] at hok
    split at h
    · next hz =>
      obtain ⟨hw, hnum, hfits⟩ := hk.neutral hwf hext hb hz (typed_right hk hwf hext ha hb hok)
      rw [(alias_inj h).1]
      exact keeps_left ha hw (add_zero_raw hnum hfits)
    · simp at h

theorem sub_keeps {rewrite : Rewrite}
    (hk : Known C signatures types defs c' g (.binaryArithOp .sub result lhs rhs)) (hwf : c.WF)
    (hext : c.Extends c') (ha : g lhs = some a) (hb : g rhs = some b)
    (hok : ArithOk (typeOf types c) c lhs rhs .sub)
    (h : tryArith types c .sub result lhs rhs = some (some rewrite, c')) :
    Keeps C g (.binaryArithOp .sub result lhs rhs) [a, b] rewrite := by
  simp only [tryArith] at h
  simp only [ArithOk] at hok
  split at h
  · next hz =>
    rw [if_pos hz] at hok
    obtain ⟨hw, hnum, hfits⟩ := hk.neutral hwf hext hb hz (typed_right hk hwf hext ha hb hok)
    rw [(alias_inj h).1]
    exact keeps_left ha hw (sub_zero_raw hnum hfits)
  · split at h
    · next heq =>
      subst heq
      obtain rfl := Option.some.inj (ha.symm.trans hb)
      exact keeps_zero hk hwf ha h fun z hz => sub_self_raw hz
    · simp at h

theorem mul_keeps {rewrite : Rewrite}
    (hk : Known C signatures types defs c' g (.binaryArithOp .mul result lhs rhs)) (hwf : c.WF)
    (hext : c.Extends c') (ha : g lhs = some a) (hb : g rhs = some b)
    (hok : ArithOk (typeOf types c) c lhs rhs .mul)
    (h : tryArith types c .mul result lhs rhs = some (some rewrite, c')) :
    Keeps C g (.binaryArithOp .mul result lhs rhs) [a, b] rewrite := by
  simp only [tryArith] at h
  simp only [ArithOk] at hok
  split at h
  · next hz =>
    rw [if_pos hz] at hok
    obtain ⟨hwb, hnum, hfits⟩ := hk.absorbs hwf hext ha hz (typed_left hk hwf hext ha hb hok)
    rw [(alias_inj h).1]
    exact keeps_left ha hwb (zero_mul_raw hnum hfits)
  · next hnz =>
    rw [if_neg hnz] at hok
    split at h
    · next hz =>
      rw [if_pos hz] at hok
      obtain ⟨hwa, hnum, hfits⟩ := hk.absorbs hwf hext hb hz (typed_right hk hwf hext ha hb hok)
      rw [(alias_inj h).1]
      exact keeps_right hb hwa (mul_zero_raw hnum hfits)
    · next hnz' =>
      rw [if_neg hnz'] at hok
      split at h
      · next ho =>
        rw [if_pos ho] at hok
        obtain ⟨hw, hnum, hfits⟩ := hk.neutralOne hwf hext ha ho (typed_left hk hwf hext ha hb hok)
        rw [(alias_inj h).1]
        exact keeps_right hb hw (one_mul_raw hnum hfits)
      · next hno =>
        rw [if_neg hno] at hok
        split at h
        · next ho =>
          obtain ⟨hw, hnum, hfits⟩ :=
            hk.neutralOne hwf hext hb ho (typed_right hk hwf hext ha hb hok)
          rw [(alias_inj h).1]
          exact keeps_left ha hw (mul_one_raw hnum hfits)
        · simp at h

theorem div_keeps {rewrite : Rewrite}
    (hk : Known C signatures types defs c' g (.binaryArithOp .div result lhs rhs)) (hwf : c.WF)
    (hext : c.Extends c') (ha : g lhs = some a) (hb : g rhs = some b)
    (hok : ArithOk (typeOf types c) c lhs rhs .div)
    (h : tryArith types c .div result lhs rhs = some (some rewrite, c')) :
    Keeps C g (.binaryArithOp .div result lhs rhs) [a, b] rewrite := by
  simp only [tryArith] at h
  split at h
  · next ho =>
    obtain ⟨hw, hnum, hfits⟩ := hk.neutralOne hwf hext hb ho (typed_right hk hwf hext ha hb hok)
    rw [(alias_inj h).1]
    exact keeps_left ha hw (div_one_raw hnum hfits)
  · simp at h

theorem and_keeps {rewrite : Rewrite}
    (hk : Known C signatures types defs c' g (.binaryArithOp .and result lhs rhs)) (hwf : c.WF)
    (hext : c.Extends c') (ha : g lhs = some a) (hb : g rhs = some b)
    (hok : ArithOk (typeOf types c) c lhs rhs .and)
    (h : tryArith types c .and result lhs rhs = some (some rewrite, c')) :
    Keeps C g (.binaryArithOp .and result lhs rhs) [a, b] rewrite := by
  simp only [tryArith] at h
  simp only [ArithOk] at hok
  split at h
  · next hz =>
    rw [if_pos hz] at hok
    obtain ⟨hwb, hnum, hfits⟩ := hk.absorbsInt hwf hext ha hz (typed_left hk hwf hext ha hb hok)
    rw [(alias_inj h).1]
    exact keeps_left ha hwb (zero_and_raw hnum hfits)
  · next hnz =>
    rw [if_neg hnz] at hok
    split at h
    · next hz =>
      rw [if_pos hz] at hok
      obtain ⟨hwa, hnum, hfits⟩ := hk.absorbsInt hwf hext hb hz (typed_right hk hwf hext ha hb hok)
      rw [(alias_inj h).1]
      exact keeps_right hb hwa (and_zero_raw hnum hfits)
    · next hnz' =>
      rw [if_neg hnz'] at hok
      split at h
      · next heq =>
        rw [if_pos heq] at hok
        subst heq
        obtain rfl := Option.some.inj (ha.symm.trans hb)
        have hint := typed_left hk hwf hext ha hb hok
        rw [SameInt, Value.stripWitness_type] at hint
        rw [(alias_inj h).1]
        exact keeps_same ha (and_self_raw hint)
      · next hne =>
        rw [if_neg hne] at hok
        split at h
        · next ho =>
          rw [if_pos ho] at hok
          obtain ⟨htype, hbits⟩ := typed_left hk hwf hext ha hb hok
          obtain ⟨s, n, rfl⟩ := hk.ones hwf hext ho ha hbits
          rw [Value.stripWitness_type] at htype
          rw [(alias_inj h).1]
          exact keeps_right hb rfl (ones_and_raw (htype.symm.trans (by cases s <;> rfl))).1
        · next hno =>
          rw [if_neg hno] at hok
          split at h
          · next ho =>
            obtain ⟨htype, hbits⟩ := typed_right hk hwf hext ha hb hok
            obtain ⟨s, n, rfl⟩ := hk.ones hwf hext ho hb hbits
            rw [Value.stripWitness_type] at htype
            rw [(alias_inj h).1]
            exact keeps_left ha rfl (ones_and_raw (htype.symm.trans (by cases s <;> rfl))).2
          · simp at h

theorem or_keeps {rewrite : Rewrite}
    (hk : Known C signatures types defs c' g (.binaryArithOp .or result lhs rhs)) (hwf : c.WF)
    (hext : c.Extends c') (ha : g lhs = some a) (hb : g rhs = some b)
    (hok : ArithOk (typeOf types c) c lhs rhs .or)
    (h : tryArith types c .or result lhs rhs = some (some rewrite, c')) :
    Keeps C g (.binaryArithOp .or result lhs rhs) [a, b] rewrite := by
  simp only [tryArith] at h
  simp only [ArithOk] at hok
  split at h
  · next hz =>
    rw [if_pos hz] at hok
    obtain ⟨hw, hnum, hfits⟩ := hk.neutralInt hwf hext ha hz (typed_left hk hwf hext ha hb hok)
    rw [(alias_inj h).1]
    exact keeps_right hb hw (zero_or_raw hnum hfits)
  · next hnz =>
    rw [if_neg hnz] at hok
    split at h
    · next hz =>
      rw [if_pos hz] at hok
      obtain ⟨hw, hnum, hfits⟩ := hk.neutralInt hwf hext hb hz (typed_right hk hwf hext ha hb hok)
      rw [(alias_inj h).1]
      exact keeps_left ha hw (or_zero_raw hnum hfits)
    · next hnz' =>
      rw [if_neg hnz'] at hok
      split at h
      · next heq =>
        subst heq
        obtain rfl := Option.some.inj (ha.symm.trans hb)
        have hint := typed_left hk hwf hext ha hb hok
        rw [SameInt, Value.stripWitness_type] at hint
        rw [(alias_inj h).1]
        exact keeps_same ha (or_self_raw hint)
      · simp at h

theorem xor_keeps {rewrite : Rewrite}
    (hk : Known C signatures types defs c' g (.binaryArithOp .xor result lhs rhs)) (hwf : c.WF)
    (hext : c.Extends c') (ha : g lhs = some a) (hb : g rhs = some b)
    (hok : ArithOk (typeOf types c) c lhs rhs .xor)
    (h : tryArith types c .xor result lhs rhs = some (some rewrite, c')) :
    Keeps C g (.binaryArithOp .xor result lhs rhs) [a, b] rewrite := by
  simp only [tryArith] at h
  simp only [ArithOk] at hok
  split at h
  · next hz =>
    rw [if_pos hz] at hok
    obtain ⟨hw, hnum, hfits⟩ := hk.neutralInt hwf hext ha hz (typed_left hk hwf hext ha hb hok)
    rw [(alias_inj h).1]
    exact keeps_right hb hw (zero_xor_raw hnum hfits)
  · next hnz =>
    rw [if_neg hnz] at hok
    split at h
    · next hz =>
      rw [if_pos hz] at hok
      obtain ⟨hw, hnum, hfits⟩ := hk.neutralInt hwf hext hb hz (typed_right hk hwf hext ha hb hok)
      rw [(alias_inj h).1]
      exact keeps_left ha hw (xor_zero_raw hnum hfits)
    · next hnz' =>
      rw [if_neg hnz'] at hok
      split at h
      · next heq =>
        subst heq
        obtain rfl := Option.some.inj (ha.symm.trans hb)
        have hint := typed_left hk hwf hext ha hb hok
        rw [SameInt, Value.stripWitness_type] at hint
        exact keeps_zero hk hwf ha h fun z hz => xor_self_raw hint hz
      · simp at h

theorem shl_keeps {rewrite : Rewrite}
    (hk : Known C signatures types defs c' g (.binaryArithOp .shl result lhs rhs)) (hwf : c.WF)
    (hext : c.Extends c') (ha : g lhs = some a) (hb : g rhs = some b)
    (hok : ArithOk (typeOf types c) c lhs rhs .shl)
    (h : tryArith types c .shl result lhs rhs = some (some rewrite, c')) :
    Keeps C g (.binaryArithOp .shl result lhs rhs) [a, b] rewrite := by
  simp only [tryArith] at h
  split at h
  · next hz =>
    obtain ⟨hw, hnum, hfits, hbits⟩ :=
      hk.neutralShift hwf hext hb hz (typed_right hk hwf hext ha hb hok)
    rw [(alias_inj h).1]
    exact keeps_left ha hw (shift_zero_raw (.inl rfl) hnum hfits hbits)
  · simp at h

theorem shr_keeps {rewrite : Rewrite}
    (hk : Known C signatures types defs c' g (.binaryArithOp .shr result lhs rhs)) (hwf : c.WF)
    (hext : c.Extends c') (ha : g lhs = some a) (hb : g rhs = some b)
    (hok : ArithOk (typeOf types c) c lhs rhs .shr)
    (h : tryArith types c .shr result lhs rhs = some (some rewrite, c')) :
    Keeps C g (.binaryArithOp .shr result lhs rhs) [a, b] rewrite := by
  simp only [tryArith] at h
  simp only [ArithOk] at hok
  split at h
  · next hz =>
    rw [if_pos hz] at hok
    obtain ⟨hw, hnum, hfits, hbits⟩ :=
      hk.neutralShift hwf hext hb hz (typed_right hk hwf hext ha hb hok)
    rw [(alias_inj h).1]
    exact keeps_left ha hw (shift_zero_raw (.inr rfl) hnum hfits hbits)
  · next hnz =>
    rw [if_neg hnz] at hok
    obtain ⟨rfl, h | ⟨offset, t, bits, hoffset, ht, hbits, hlt, h⟩⟩ := shrToBitRange_eq_some h
    · simp at h
    · obtain rfl := Option.some.inj h
      exact keeps_shr hk hwf ha hb hok hoffset ht hbits hlt

/-- The rules for `BinaryArithOp`. -/
theorem tryArith_keeps {rewrite : Rewrite}
    (hk : Known C signatures types defs c' g (.binaryArithOp kind result lhs rhs)) (hwf : c.WF)
    (hext : c.Extends c') (ha : g lhs = some a) (hb : g rhs = some b)
    (hok : ArithOk (typeOf types c) c lhs rhs kind)
    (h : tryArith types c kind result lhs rhs = some (some rewrite, c')) :
    Keeps C g (.binaryArithOp kind result lhs rhs) [a, b] rewrite := by
  cases kind with
  | add => exact add_keeps hk hwf hext ha hb hok h
  | sub => exact sub_keeps hk hwf hext ha hb hok h
  | mul => exact mul_keeps hk hwf hext ha hb hok h
  | div => exact div_keeps hk hwf hext ha hb hok h
  | and => exact and_keeps hk hwf hext ha hb hok h
  | or => exact or_keeps hk hwf hext ha hb hok h
  | xor => exact xor_keeps hk hwf hext ha hb hok h
  | shl => exact shl_keeps hk hwf hext ha hb hok h
  | shr => exact shr_keeps hk hwf hext ha hb hok h
  | mod => simp [tryArith] at h

/-! ### The other instructions -/

theorem mapM_one {f : ValueId → Option (Value A)} {xs : List (Value A)} (h : [u].mapM f = some xs) :
    ∃ x, xs = [x] ∧ f u = some x := by
  simp only [List.mapM_cons, List.mapM_nil, Option.bind_eq_bind, Option.bind_eq_some_iff,
    Option.pure_def, Option.some.injEq] at h
  obtain ⟨x, hx, _, rfl, rfl⟩ := h
  exact ⟨x, rfl, hx⟩

theorem mapM_two {f : ValueId → Option (Value A)} {xs : List (Value A)}
    (h : [u, v].mapM f = some xs) :
    ∃ x y, xs = [x, y] ∧ f u = some x ∧ f v = some y := by
  simp only [List.mapM_cons, List.mapM_nil, Option.bind_eq_bind, Option.bind_eq_some_iff,
    Option.pure_def, Option.some.injEq] at h
  obtain ⟨x, hx, _, ⟨y, hy, _, rfl, rfl⟩, rfl⟩ := h
  exact ⟨x, y, rfl, hx, hy⟩

theorem mapM_three {z : ValueId} {f : ValueId → Option (Value A)} {xs : List (Value A)}
    (h : [u, v, z].mapM f = some xs) :
    ∃ x y y', xs = [x, y, y'] ∧ f u = some x ∧ f v = some y ∧ f z = some y' := by
  simp only [List.mapM_cons, List.mapM_nil, Option.bind_eq_bind, Option.bind_eq_some_iff,
    Option.pure_def, Option.some.injEq] at h
  obtain ⟨x, hx, _, ⟨y, hy, _, ⟨y', hy', _, rfl, rfl⟩, rfl⟩, rfl⟩ := h
  exact ⟨x, y, y', rfl, hx, hy, hy'⟩

theorem mulConst_keeps {rewrite : Rewrite}
    (hk : Known C signatures types defs c' g (.mulConst result u v)) (hwf : c.WF)
    (hext : c.Extends c') (ha : g u = some a) (hb : g v = some b)
    (hok : RuleOk (typeOf types c) c (.mulConst result u v))
    (h : tryAlgebraic types defs c (.mulConst result u v) = some (some rewrite, c')) :
    Keeps C g (.mulConst result u v) [a, b] rewrite := by
  have htyped : ∀ {R : TypeExpr → TypeExpr → Prop}, Typed (typeOf types c) R u v →
      R a.type b.type := fun hR =>
    hk.typed_two hwf hext List.mem_cons_self (List.mem_cons_of_mem _ List.mem_cons_self) ha hb hR
  simp only [tryAlgebraic] at h
  simp only [RuleOk] at hok
  split at h
  · next hz =>
    rw [if_pos hz] at hok
    obtain ⟨hw, hnum⟩ := hk.zero hwf hext hz ha
    have htype : b.type = a.type := htyped hok
    have hwb : b.witness = false := by
      rw [← Value.isWitnessOf_type, htype, Value.isWitnessOf_type, hw]
    have hraw : b.raw.type = a.raw.type := by
      rw [← Value.stripWitness_type, htype, Value.stripWitness_type]
    have hscalar : IsScalar a.raw.type := by
      cases hr : a.raw with
      | int s n x => cases s <;> trivial
      | field x => trivial
      | other t ht x =>
        rw [hr] at hnum
        exact hnum.elim
    rw [(alias_inj h).1]
    refine ⟨a, ha, fun w => ?_⟩
    show (w, (mulConstRaw C a.raw b.raw).map _) = _
    rw [mulConst_zero_raw hnum hscalar hraw, hwb, ← hw]
    rfl
  · next hnz =>
    rw [if_neg hnz] at hok
    split at h
    · next ho =>
      obtain ⟨hscales, hone⟩ := htyped hok
      obtain ⟨hw, hnum⟩ := hk.one hwf hext ho ha hone
      rw [Value.type_of_pure hw, Value.stripWitness_type] at hscales
      rw [(alias_inj h).1]
      refine ⟨b, hb, fun w => ?_⟩
      show (w, (mulConstRaw C a.raw b.raw).map _) = _
      rw [mulConst_one_raw hnum hscales]
      rfl
    · simp at h

theorem cast_keeps {rewrite : Rewrite} {target : CastTarget} (hC : C.Typed signatures)
    (hk : Known C signatures types defs c' g (.cast result v target)) (ha : g v = some a)
    (h : tryAlgebraic types defs c (.cast result v target) = some (some rewrite, c')) :
    Keeps C g (.cast result v target) [a] rewrite := by
  simp only [tryAlgebraic] at h
  split at h
  · next htarget =>
    subst htarget
    rw [(alias_inj h).1]
    exact ⟨a, ha, fun w => rfl⟩
  · split at h
    · next r inner target' hdef =>
      split at h
      · next heq =>
        subst heq
        obtain ⟨hr, xs, ys, w, w', rs, hxs, hop, hys, hrs⟩ := hk.defined v List.mem_cons_self _ hdef
        obtain rfl := List.mem_singleton.mp hr
        obtain ⟨x, rfl, hx⟩ := mapM_one hxs
        obtain ⟨y, rfl, hy⟩ := mapM_one hys
        obtain rfl := Option.some.inj (ha.symm.trans hy)
        have hcast : castVal C target' x = some a := by
          have := congrArg Prod.snd hop
          obtain ⟨y, hy, heq⟩ := Option.map_eq_some_iff.mp this
          rw [hy, (List.cons.inj heq).1]
        simp only [OpCode.resultTypes, hx, Option.map_some, Option.bind_eq_bind,
          Option.bind_some, Option.bind_eq_some_iff] at hrs
        obtain ⟨t, ht, -⟩ := hrs
        obtain ⟨rs', hrs', -⟩ := hk.result
        simp only [OpCode.resultTypes, ha, Option.map_some, Option.bind_eq_bind,
          Option.bind_some, Option.bind_eq_some_iff] at hrs'
        obtain ⟨t', ht', -⟩ := hrs'
        rw [(alias_inj h).1]
        refine ⟨a, ha, fun w => ?_⟩
        show (w, (castVal C target' a).map _) = _
        rw [castVal_castVal hC ht hcast ht']
        rfl
      · simp at h
    · simp at h

theorem not_keeps {rewrite : Rewrite}
    (hk : Known C signatures types defs c' g (.not result v)) (ha : g v = some a)
    (h : tryAlgebraic types defs c (.not result v) = some (some rewrite, c')) :
    Keeps C g (.not result v) [a] rewrite := by
  simp only [tryAlgebraic] at h
  split at h
  · next r inner hdef =>
    obtain ⟨hr, xs, ys, w, w', rs, hxs, hop, hys, -⟩ := hk.defined v List.mem_cons_self _ hdef
    obtain rfl := List.mem_singleton.mp hr
    obtain ⟨x, rfl, hx⟩ := mapM_one hxs
    obtain ⟨y, rfl, hy⟩ := mapM_one hys
    obtain rfl := Option.some.inj (ha.symm.trans hy)
    obtain ⟨raw, hraw, heq⟩ := Option.map_eq_some_iff.mp (congrArg Prod.snd hop)
    obtain ⟨rfl, -⟩ := List.cons.inj heq
    rw [(alias_inj h).1]
    refine ⟨x, hx, fun w => ?_⟩
    show (w, (notRaw raw).map _) = _
    rw [notRaw_notRaw hraw]
    rfl
  · simp at h

theorem select_keeps {rewrite : Rewrite} {cond ifT ifF : ValueId} {ac at' af : Value A}
    (hk : Known C signatures types defs c' g (.select result cond ifT ifF)) (hwf : c.WF)
    (hext : c.Extends c') (hc : g cond = some ac) (ht : g ifT = some at') (hf : g ifF = some af)
    (hok : RuleOk (typeOf types c) c (.select result cond ifT ifF))
    (h : tryAlgebraic types defs c (.select result cond ifT ifF) = some (some rewrite, c')) :
    Keeps C g (.select result cond ifT ifF) [ac, at', af] rewrite := by
  simp only [tryAlgebraic] at h
  split at h
  · next heq =>
    subst heq
    obtain rfl := Option.some.inj (ht.symm.trans hf)
    obtain ⟨hbit, hwit⟩ := hk.typed_two hwf hext List.mem_cons_self
      (List.mem_cons_of_mem _ List.mem_cons_self) hc ht hok
    rw [Value.stripWitness_type] at hbit
    obtain ⟨cbit, hcbit⟩ := eq_int_of_type (s := false) (n := 1) hbit
    rw [Value.isWitnessOf_type, Value.isWitnessOf_type] at hwit
    have hscalar : IsScalar at'.raw.type := by
      obtain ⟨rs, hrs, -⟩ := hk.result
      simp only [OpCode.resultTypes, hc, ht, Option.map_some, Option.bind_eq_bind,
        Option.bind_some, Option.bind_eq_some_iff] at hrs
      obtain ⟨t, ht, -⟩ := hrs
      exact arithmeticResult_scalar ht
    rw [(alias_inj h).1]
    refine ⟨at', ht, fun w => ?_⟩
    show (w, (selectVal ac at' at').map _) = _
    have hsel : selectVal ac at' at' = some at' := by
      have hw : (ac.witness || at'.witness || at'.witness) = at'.witness := by
        cases hcw : ac.witness with
        | false => simp
        | true => simp [hwit hcw]
      simp only [selectVal, hcbit, Option.bind_eq_bind, selectRaw_self _ hscalar,
        Option.bind_some, hw]
      rfl
    rw [hsel]
    rfl
  · simp at h

theorem bitRange_keeps {rewrite : Rewrite} {offset width : Nat}
    (hk : Known C signatures types defs c' g (.bitRange result v offset width)) (ha : g v = some a)
    (h : tryAlgebraic types defs c (.bitRange result v offset width) = some (some rewrite, c')) :
    Keeps C g (.bitRange result v offset width) [a] rewrite := by
  simp only [tryAlgebraic] at h
  split at h
  · next hoffset =>
    simp only [Option.bind_eq_bind, Option.bind_eq_some_iff] at h
    obtain ⟨t, ht, bits, hbits, h⟩ := h
    split at h
    · next hwidth =>
      have hat := hk.typed v List.mem_cons_self a t ha ht
      have hsize : a.raw.type.bitSize = some bits := by
        rw [← hat, Value.type] at hbits
        split at hbits <;> exact hbits
      rw [(alias_inj h).1]
      refine ⟨a, ha, fun w => ?_⟩
      show (w, (bitRangeRaw offset width a.raw).map _) = _
      rw [hoffset, hwidth, bitRange_all_raw hsize]
      rfl
    · simp at h
  · simp at h

theorem eq_keeps {rewrite : Rewrite}
    (hk : Known C signatures types defs c' g (.cmp .eq result lhs rhs)) (hwf : c.WF)
    (hext : c.Extends c') (ha : g lhs = some a) (hb : g rhs = some b)
    (hok : RuleOk (typeOf types c) c (.cmp .eq result lhs rhs))
    (h : tryAlgebraic types defs c (.cmp .eq result lhs rhs) = some (some rewrite, c')) :
    Keeps C g (.cmp .eq result lhs rhs) [a, b] rewrite := by
  simp only [tryAlgebraic] at h
  split at h
  · next heq =>
    subst heq
    obtain rfl := Option.some.inj (ha.symm.trans hb)
    have hscalar := hk.typed_two hwf hext List.mem_cons_self List.mem_cons_self ha ha hok
    rw [Value.stripWitness_type] at hscalar
    obtain ⟨rs, hrs, htypes⟩ := hk.result
    simp only [OpCode.resultTypes, ha, Option.map_some, Option.bind_eq_bind,
      Option.bind_some, Value.isWitnessOf_type, Bool.or_self] at hrs
    obtain rfl := Option.some.inj hrs
    have hres := htypes _ List.mem_cons_self
    refine keeps_materialize hwf h hk.const fun t z ht hz w => ?_
    obtain rfl := Option.some.inj (hres.symm.trans ht)
    show (w, (cmpRaw .eq a.raw a.raw).map _) = _
    rw [eq_self_raw hscalar]
    cases hw : a.witness <;> rw [hw] at hz <;> obtain rfl := Option.some.inj hz <;> rfl
  · simp at h

theorem valueOf_op (hw : a.witness = true) (w : W) :
    (valueSem C).op (OpCode.valueOf result v).shape [a] w = (w, some [⟨false, a.raw⟩]) := by
  show (w, if a.witness then some [(⟨false, a.raw⟩ : Value A)] else none) = _
  rw [if_pos hw]

theorem valueOf_keeps {rewrite : Rewrite}
    (hk : Known C signatures types defs c' g (.valueOf result v)) (ha : g v = some a)
    (h : tryAlgebraic types defs c (.valueOf result v) = some (some rewrite, c')) :
    Keeps C g (.valueOf result v) [a] rewrite := by
  -- the operand is a witness, or `ValueOf` would have no type
  have hw : a.witness = true := by
    obtain ⟨rs, hrs, -⟩ := hk.result
    simp only [OpCode.resultTypes, ha, Option.map_some, Option.bind_eq_bind,
      Option.bind_some] at hrs
    rw [← Value.isWitnessOf_type]
    split at hrs
    · next inner hinner => rw [hinner]; rfl
    · simp at hrs
  simp only [tryAlgebraic] at h
  split at h
  · next r inner hdef =>
    exfalso
    obtain ⟨hr, xs, ys, w, w', rs, hxs, hop, hys, -⟩ := hk.defined v List.mem_cons_self _ hdef
    obtain rfl := List.mem_singleton.mp hr
    obtain ⟨x, rfl, hx⟩ := mapM_one hxs
    obtain ⟨y, rfl, hy⟩ := mapM_one hys
    obtain rfl := Option.some.inj (ha.symm.trans hy)
    have hout : (if x.witness then some [(⟨false, x.raw⟩ : Value A)] else none) = some [a] :=
      congrArg Prod.snd hop
    split at hout
    · obtain rfl := (List.cons.inj (Option.some.inj hout)).1
      simp at hw
    · simp at hout
  · next r hint pinned hdef =>
    obtain ⟨hr, xs, ys, w, w', rs, hxs, hop, hys, -⟩ := hk.defined v List.mem_cons_self _ hdef
    obtain ⟨x, rfl, hx⟩ := mapM_one hxs
    cases r with
    | none => simp [OpCode.results] at hr
    | some r =>
      obtain rfl : v = r := by simpa [OpCode.results] using hr
      obtain ⟨y, rfl, hy⟩ := mapM_one hys
      obtain rfl := Option.some.inj (ha.symm.trans hy)
      have hout : (if x.witness then none else some [(⟨true, x.raw⟩ : Value A)]) = some [a] :=
        congrArg Prod.snd hop
      split at hout
      · simp at hout
      · next hxw =>
        have hxw : x.witness = false := by simpa using hxw
        obtain rfl := (List.cons.inj (Option.some.inj hout)).1
        rw [(alias_inj h).1]
        refine ⟨x, hx, fun w => ?_⟩
        rw [valueOf_op rfl, ← hxw]
  · simp at h

theorem writeWitness_keeps {rewrite : Rewrite}
    (hk : Known C signatures types defs c' g (.writeWitness (some result) v false))
    (ha : g v = some a)
    (h : tryAlgebraic types defs c (.writeWitness (some result) v false)
      = some (some rewrite, c')) :
    Keeps C g (.writeWitness (some result) v false) [a] rewrite := by
  simp only [tryAlgebraic] at h
  split at h
  · next r inner hdef =>
    obtain ⟨hr, xs, ys, w, w', rs, hxs, hop, hys, -⟩ := hk.defined v List.mem_cons_self _ hdef
    obtain rfl := List.mem_singleton.mp hr
    obtain ⟨x, rfl, hx⟩ := mapM_one hxs
    obtain ⟨y, rfl, hy⟩ := mapM_one hys
    obtain rfl := Option.some.inj (ha.symm.trans hy)
    have hout : (if x.witness then some [(⟨false, x.raw⟩ : Value A)] else none) = some [a] :=
      congrArg Prod.snd hop
    split at hout
    · next hxw =>
      obtain rfl := (List.cons.inj (Option.some.inj hout)).1
      rw [(alias_inj h).1]
      refine ⟨x, hx, fun w => ?_⟩
      show (w, some [(⟨true, x.raw⟩ : Value A)]) = _
      rw [← hxw]
    · simp at hout
  · simp at h

/-- Under the condition every rewriting keeps the value of the instruction. -/
theorem tryAlgebraic_keeps {rewrite : Rewrite} {xs : List (Value A)} (hC : C.Typed signatures)
    (hk : Known C signatures types defs c' g op) (hwf : c.WF)
    (hxs : op.inputs.mapM g = some xs) (hok : RuleOk (typeOf types c) c op)
    (h : tryAlgebraic types defs c op = some (some rewrite, c')) : Keeps C g op xs rewrite := by
  have hext := (tryAlgebraic_constants hwf h).2
  cases op with
  | binaryArithOp kind r lhs rhs =>
    obtain ⟨a, b, rfl, ha, hb⟩ := mapM_two hxs
    exact tryArith_keeps hk hwf hext ha hb hok h
  | mulConst r u v =>
    obtain ⟨a, b, rfl, ha, hb⟩ := mapM_two hxs
    exact mulConst_keeps hk hwf hext ha hb hok h
  | cast r v target =>
    obtain ⟨a, rfl, ha⟩ := mapM_one hxs
    exact cast_keeps hC hk ha h
  | not r v =>
    obtain ⟨a, rfl, ha⟩ := mapM_one hxs
    exact not_keeps hk ha h
  | select r cond ifT ifF =>
    obtain ⟨ac, at', af, rfl, hc, ht, hf⟩ := mapM_three hxs
    exact select_keeps hk hwf hext hc ht hf hok h
  | bitRange r v offset width =>
    obtain ⟨a, rfl, ha⟩ := mapM_one hxs
    exact bitRange_keeps hk ha h
  | cmp kind r lhs rhs =>
    obtain ⟨a, b, rfl, ha, hb⟩ := mapM_two hxs
    cases kind with
    | eq => exact eq_keeps hk hwf hext ha hb hok h
    | lt => simp [tryAlgebraic] at h
  | valueOf r v =>
    obtain ⟨a, rfl, ha⟩ := mapM_one hxs
    exact valueOf_keeps hk ha h
  | writeWitness r v pinned =>
    obtain ⟨a, rfl, ha⟩ := mapM_one hxs
    cases r with
    | none => simp [tryAlgebraic] at h
    | some r =>
      cases pinned with
      | true => simp [tryAlgebraic] at h
      | false => exact writeWitness_keeps hk ha h
  | _ => simp [tryAlgebraic] at h

end Keeps

end Mavros.Simplifier
