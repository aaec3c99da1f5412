/-
# `Mavros.Codegen.FrameLayout` — which values share words of a frame

Two values share a word only when both go back to one value through casts that emit no
code (`Placed.apart`).  What an instruction does to the layout is said once (`Lays`): its
results are given fresh words, at least as many as their types take, or the words of the
operand of such a cast; the rest is scratch.

## What is proved

* `lays_instruction`: every instruction, scalar or not, does no more to the layout than `Lays` says.
* `Placed.lays`: places stay what they are as the layout grows by other values.
* `Placed.meet`: words that meet belong to values that share their place.
* `Placed.bounds`: every place lies in the frame.

## How it goes

`SharesPlace` is read off the instruction and its types, without the layout: a cast that emits no
code, or the like.  `Placed` says of a list of values that each has its own words or those of the
value it goes back to, and the list grows with the layout, one `Lays` at a time.
-/
import Mavros.Codegen.RunFunction
import Mavros.Hlssa.Typing
import Mavros.Lib.ParallelCopy

namespace Mavros.Codegen

open Hlssa Lib
open Relation (ReflTransGen)

/-- The words a value takes. -/
def valueSize (types : ValueId → Option TypeExpr) (v : ValueId) : Option Nat :=
  (types v).bind FrameLayouter.typeSize

/-- The result of the instruction is its operand under another name. -/
inductive SharesPlace (types : ValueId → Option TypeExpr) : Hlssa.OpCode → ValueId → ValueId → Prop
  | cast {r v : ValueId} {target : CastTarget} {lType rType : TypeExpr} (hv : types v = some lType)
      (hr : types r = some rType) (hpure : target ≠ .witnessOf)
      (h : target = .nop ∨ target = .arrayToSlice ∨ lType = rType ∨
        (lType.isWitnessOf ∧ rType.isWitnessOf)) : SharesPlace types (.cast r v target) r v

/-- A reachable instruction makes `r` share the place of `v`. -/
def Shares (f : Function) (types : ValueId → Option TypeExpr) (r v : ValueId) : Prop :=
  ∃ b block op, Reachable f.entryBlock f.Edge b ∧ f.block b = some block ∧
    op ∈ block.instructions ∧ SharesPlace types op r v

/-! ## What happens to a layout -/

section Lays

variable {types : ValueId → Option TypeExpr} {shares : ValueId → ValueId → Prop}
  {l l' l'' : FrameLayouter} {vs vs' : List ValueId}

/-- The layout grows by places for `vs`. -/
inductive Lays (types : ValueId → Option TypeExpr) (shares : ValueId → ValueId → Prop)
    (l : FrameLayouter) : FrameLayouter → List ValueId → Prop
  | refl : Lays types shares l l []
  | alloc {l' : FrameLayouter} {vs : List ValueId} {v : ValueId} {n size : Nat}
      (h : Lays types shares l l' vs) (hn : valueSize types v = some n) (hle : n ≤ size)
      (hown : ∀ u, ¬shares v u) : Lays types shares l (l'.alloc v size).1 (vs ++ [v])
  | share {l' : FrameLayouter} {vs : List ValueId} {v u : ValueId} {p : Nat}
      (h : Lays types shares l l' vs) (hshares : shares v u) (hp : l'.getValue u = some p) :
      Lays types shares l (l'.share v p) (vs ++ [v])
  | scratch {l' : FrameLayouter} {vs : List ValueId} {count : Nat}
      (h : Lays types shares l l' vs) : Lays types shares l (l'.allocScratch count) vs

theorem Lays.trans (h : Lays types shares l l' vs) (h' : Lays types shares l' l'' vs') :
    Lays types shares l l'' (vs ++ vs') := by
  induction h' with
  | refl => simpa using h
  | alloc _ hn hle hown ih => simpa [← List.append_assoc] using ih.alloc hn hle hown
  | share _ hshares hp ih => simpa [← List.append_assoc] using ih.share hshares hp
  | scratch _ ih => exact ih.scratch

/-- One value is given words of its own. -/
theorem Lays.single {v : ValueId} {n size : Nat} (hn : valueSize types v = some n)
    (hle : n ≤ size) (hown : ∀ u, ¬shares v u) : Lays types shares l (l.alloc v size).1 [v] :=
  List.nil_append [v] ▸ Lays.refl.alloc hn hle hown

theorem lays_castTemp (t : TypeExpr) : Lays types shares l (castTemp l t) [] := by
  unfold castTemp
  split
  · exact .refl
  · exact .scratch .refl

theorem lays_allocValue {v : ValueId} {t : TypeExpr} {p : Nat} (ht : types v = some t)
    (hown : ∀ u, ¬shares v u) (h : l.allocValue v t = some (l', p)) :
    Lays types shares l l' [v] := by
  obtain ⟨n, hn, h⟩ := Option.bind_eq_some_iff.mp h
  obtain ⟨rfl, -⟩ := Prod.mk.inj (Option.some.inj h)
  exact .single (by rw [valueSize, ht]; exact hn) (Nat.le_refl _) hown

theorem lays_allocTyped {v : ValueId} (hown : ∀ u, ¬shares v u)
    (h : l.allocTyped types v = some l') : Lays types shares l l' [v] := by
  obtain ⟨t, ht, h⟩ := Option.bind_eq_some_iff.mp h
  obtain ⟨⟨l₁, p⟩, h₁, h⟩ := Option.bind_eq_some_iff.mp h
  obtain rfl := Option.some.inj h
  exact lays_allocValue ht hown h₁

/-- An integer takes a word. -/
theorem lays_allocU64 {v : ValueId} {t : TypeExpr} {bits p : Nat} (ht : types v = some t)
    (hbits : t = .u bits ∨ t = .i bits ∨ t = .witnessOf (.u bits) ∨ t = .witnessOf (.i bits))
    (hown : ∀ u, ¬shares v u) (h : l.allocU64 v bits = some (l', p)) :
    Lays types shares l l' [v] := by
  unfold FrameLayouter.allocU64 at h
  split at h
  · next hle =>
    obtain ⟨rfl, -⟩ := Prod.mk.inj (Option.some.inj h)
    refine .single (n := 1) ?_ (Nat.le_refl _) hown
    rw [valueSize, ht]
    rcases hbits with rfl | rfl | rfl | rfl <;> simp [FrameLayouter.typeSize, hle]
  · simp at h

theorem lays_allocField {v : ValueId} {t : TypeExpr} (ht : types v = some t)
    (hfield : t.stripWitness = .field) (hown : ∀ u, ¬shares v u) :
    Lays types shares l (l.allocField v).1 [v] := by
  cases t with
  | field => exact .single (n := 4) (by rw [valueSize, ht]; rfl) (Nat.le_refl _) hown
  | witnessOf t => exact .single (n := 1) (by rw [valueSize, ht]; rfl) (by decide) hown
  | u _ | i _ | array _ _ | slice _ | ref _ | tuple _ | function =>
    simp [TypeExpr.stripWitness] at hfield

/-- A pointer takes a word. -/
theorem lays_allocPtr {v : ValueId} {t : TypeExpr} (ht : types v = some t)
    (hptr : FrameLayouter.typeSize t = some 1) (hown : ∀ u, ¬shares v u) :
    Lays types shares l (l.allocPtr v) [v] :=
  .single (n := 1) (by rw [valueSize, ht]; exact hptr) (Nat.le_refl _) hown

/-- A spread or unspread result. -/
theorem lays_allocScalar {v : ValueId} {t : TypeExpr} {p : Nat} (ht : types v = some t)
    (hown : ∀ u, ¬shares v u) (h : allocScalar l v t.stripWitness = some (l', p)) :
    Lays types shares l l' [v] := by
  have hstrip : ∀ {s : TypeExpr}, t.stripWitness = s → t = s ∨ t = .witnessOf s := by
    rintro s rfl
    cases t <;> simp [TypeExpr.stripWitness]
  unfold allocScalar at h
  split at h
  · next bits hbits =>
      exact lays_allocU64 ht (by rcases hstrip hbits with h | h <;> simp [h]) hown h
  · next bits hbits =>
      exact lays_allocU64 ht (by rcases hstrip hbits with h | h <;> simp [h]) hown h
  · next hfield =>
    obtain rfl := (Prod.mk.inj (Option.some.inj h)).1
    exact lays_allocField ht hfield hown
  · simp at h

theorem lays_allocParameters {params : List (ValueId × TypeExpr)}
    (htypes : ∀ p ∈ params, types p.1 = some p.2) (hown : ∀ p ∈ params, ∀ u, ¬shares p.1 u)
    (h : allocParameters l params = some l') :
    Lays types shares l l' (params.map Prod.fst) := by
  induction params generalizing l with
  | nil =>
    obtain rfl := Option.some.inj h
    exact .refl
  | cons p params ih =>
    rw [List.forall_mem_cons] at htypes hown
    obtain ⟨⟨l₁, place⟩, h₁, h⟩ := Option.bind_eq_some_iff.mp h
    exact (lays_allocValue htypes.1 hown.1 h₁).trans (ih htypes.2 hown.2 h)

end Lays

/-! ## Instructions -/

section Instructions

variable {types : ValueId → Option TypeExpr} {shares : ValueId → ValueId → Prop}
  {l l' : FrameLayouter}

theorem lays_binaryArithOp {kind : BinaryArithOpKind} {r lhs rhs : ValueId}
    {code : List Bytecode.OpCode} (hown : ∀ u, ¬shares r u)
    (h : binaryArithOp types l kind r lhs rhs = some (l', code)) :
    Lays types shares l l' [r] := by
  obtain ⟨t, ht, h⟩ := Option.bind_eq_some_iff.mp h
  cases t with
  | field =>
    simp only [Option.bind_eq_bind, Option.bind_eq_some_iff] at h
    obtain ⟨a, -, b, -, op, -, h⟩ := h
    obtain ⟨rfl, -⟩ := Prod.mk.inj (Option.some.inj h)
    exact lays_allocField ht rfl hown
  | u bits =>
    simp only [Option.bind_eq_bind, Option.bind_eq_some_iff] at h
    obtain ⟨⟨l₁, p⟩, h₁, a, -, b, -, op, -, h⟩ := h
    obtain ⟨rfl, -⟩ := Prod.mk.inj (Option.some.inj h)
    exact lays_allocU64 ht (.inl rfl) hown h₁
  | i bits =>
    simp only [Option.bind_eq_bind, Option.bind_eq_some_iff] at h
    obtain ⟨⟨l₁, p⟩, h₁, a, -, b, -, op, -, h⟩ := h
    obtain ⟨rfl, -⟩ := Prod.mk.inj (Option.some.inj h)
    exact lays_allocU64 ht (.inr (.inl rfl)) hown h₁
  | witnessOf _ | array _ _ | slice _ | ref _ | tuple _ | function => cases h

theorem lays_cmp {kind : CmpKind} {r lhs rhs : ValueId} {code : List Bytecode.OpCode}
    (hown : ∀ u, ¬shares r u) (h : cmp types l kind r lhs rhs = some (l', code)) :
    Lays types shares l l' [r] := by
  simp only [cmp, Option.bind_eq_bind, Option.bind_eq_some_iff] at h
  obtain ⟨t, ht, bits, hbits, ⟨l₁, p⟩, h₁, a, -, b, -, h⟩ := h
  have hl : l' = l₁ := by
    cases kind with
    | eq => exact (Prod.mk.inj (Option.some.inj h)).1.symm
    | lt =>
      simp only [Option.bind_eq_some_iff] at h
      obtain ⟨tl, -, h⟩ := h
      split at h <;> exact (Prod.mk.inj (Option.some.inj h)).1.symm
  subst hl
  rcases intBits_eq_some hbits with rfl | rfl
  · exact lays_allocU64 ht (.inl rfl) hown h₁
  · exact lays_allocU64 ht (.inr (.inl rfl)) hown h₁

theorem lays_cast {r v : ValueId} {target : CastTarget} {code : List Bytecode.OpCode}
    (hown : ∀ u, shares r u → SharesPlace types (.cast r v target) r u)
    (hshare : SharesPlace types (.cast r v target) r v → shares r v)
    (h : cast types l r v target = some (l', code)) : Lays types shares l l' [r] := by
  obtain ⟨lType, hv, h⟩ := Option.bind_eq_some_iff.mp h
  obtain ⟨rType, hr, h⟩ := Option.bind_eq_some_iff.mp h
  split at h
  · simp at h
  · next hpure =>
    split at h
    · next hnop =>
      obtain ⟨p, hp, h⟩ := Option.bind_eq_some_iff.mp h
      obtain ⟨rfl, -⟩ := Prod.mk.inj (Option.some.inj h)
      exact Lays.refl.share (hshare ⟨hv, hr, hpure, hnop⟩) hp
    · next hcode =>
      obtain ⟨⟨l₁, p⟩, h₁, h⟩ := Option.bind_eq_some_iff.mp h
      obtain ⟨a, -, h⟩ := Option.bind_eq_some_iff.mp h
      obtain ⟨op, -, h⟩ := Option.bind_eq_some_iff.mp h
      obtain ⟨rfl, -⟩ := Prod.mk.inj (Option.some.inj h)
      refine lays_allocValue hr (fun u hu => hcode ?_) h₁
      cases hown u hu with
      | cast hv' hr' _ hnop =>
        obtain rfl := Option.some.inj (hv.symm.trans hv')
        obtain rfl := Option.some.inj (hr.symm.trans hr')
        exact hnop

theorem lays_select {op : Hlssa.OpCode} {code : List Bytecode.OpCode}
    (hown : ∀ r ∈ op.results, ∀ u, shares r u ↔ SharesPlace types op r u)
    (h : select types l op = some (l', code)) : Lays types shares l l' op.results := by
  have hnot : (∀ r v target, op ≠ .cast r v target) → ∀ r ∈ op.results, ∀ u, ¬shares r u := by
    intro hop r hr u hu
    cases (hown r hr u).mp hu with
    | cast => exact hop _ _ _ rfl
  cases op with
  | binaryArithOp kind r lhs rhs =>
    exact lays_binaryArithOp (hnot (by simp) r List.mem_cons_self) h
  | cmp kind r lhs rhs => exact lays_cmp (hnot (by simp) r List.mem_cons_self) h
  | cast r v target =>
    exact lays_cast (fun u => (hown r List.mem_cons_self u).mp)
      (hown r List.mem_cons_self v).mpr h
  | not r v =>
    obtain ⟨t, ht, h⟩ := Option.bind_eq_some_iff.mp h
    obtain ⟨⟨l₁, p⟩, h₁, h⟩ := Option.bind_eq_some_iff.mp h
    obtain ⟨a, -, h⟩ := Option.bind_eq_some_iff.mp h
    obtain ⟨rfl, -⟩ := Prod.mk.inj (Option.some.inj h)
    exact lays_allocValue ht (hnot (by simp) r List.mem_cons_self) h₁
  | toBits r v endianness count =>
    cases endianness with
    | big => exact nomatch h
    | little =>
      obtain ⟨t, ht, h⟩ := Option.bind_eq_some_iff.mp h
      obtain ⟨⟨l₁, p⟩, h₁, h⟩ := Option.bind_eq_some_iff.mp h
      obtain ⟨a, -, h⟩ := Option.bind_eq_some_iff.mp h
      obtain ⟨rfl, -⟩ := Prod.mk.inj (Option.some.inj h)
      exact lays_allocValue ht (hnot (by simp) r List.mem_cons_self) h₁
  | toRadix r v radix endianness count =>
    cases radix with
    | dyn _ => exact nomatch h
    | bytes =>
      cases endianness with
      | little => exact nomatch h
      | big =>
        obtain ⟨tv, -, h⟩ := Option.bind_eq_some_iff.mp h
        split at h
        · obtain ⟨a, -, h⟩ := Option.bind_eq_some_iff.mp h
          obtain ⟨t, ht, h⟩ := Option.bind_eq_some_iff.mp h
          obtain ⟨⟨l₁, p⟩, h₁, h⟩ := Option.bind_eq_some_iff.mp h
          obtain ⟨rfl, -⟩ := Prod.mk.inj (Option.some.inj h)
          exact lays_allocValue ht (hnot (by simp) r List.mem_cons_self) h₁
        · simp at h
  | spread r v bits =>
    obtain ⟨tv, -, h⟩ := Option.bind_eq_some_iff.mp h
    obtain ⟨valueBits, -, h⟩ := Option.bind_eq_some_iff.mp h
    split at h
    · simp at h
    · obtain ⟨t, ht, h⟩ := Option.bind_eq_some_iff.mp h
      obtain ⟨⟨l₁, p⟩, h₁, h⟩ := Option.bind_eq_some_iff.mp h
      obtain ⟨a, -, h⟩ := Option.bind_eq_some_iff.mp h
      obtain ⟨rfl, -⟩ := Prod.mk.inj (Option.some.inj h)
      exact lays_allocScalar ht (hnot (by simp) r List.mem_cons_self) h₁
  | unspread odd even v bits =>
    obtain ⟨todd, htodd, h⟩ := Option.bind_eq_some_iff.mp h
    obtain ⟨⟨l₁, p₁⟩, h₁, h⟩ := Option.bind_eq_some_iff.mp h
    obtain ⟨teven, hteven, h⟩ := Option.bind_eq_some_iff.mp h
    obtain ⟨⟨l₂, p₂⟩, h₂, h⟩ := Option.bind_eq_some_iff.mp h
    obtain ⟨a, -, h⟩ := Option.bind_eq_some_iff.mp h
    obtain ⟨rfl, -⟩ := Prod.mk.inj (Option.some.inj h)
    have hodd := hnot (by simp) odd List.mem_cons_self
    have heven := hnot (by simp) even (List.mem_cons_of_mem _ List.mem_cons_self)
    exact (lays_allocScalar htodd hodd h₁).trans (lays_allocScalar hteven heven h₂)
  | _ => exact nomatch h

/-- What the layout needs to know of an instruction. -/
structure InstructionOk (signatures : FunctionId → Option (List TypeExpr × List TypeExpr))
    (types : ValueId → Option TypeExpr) (shares : ValueId → ValueId → Prop)
    (op : Hlssa.OpCode) : Prop where
  typed : ∃ rs, op.resultTypes signatures types = some rs ∧ ∀ p ∈ rs, types p.1 = some p.2
  witness : ∀ r c v, op = .mulConst r c v → ∃ t, types v = some (.witnessOf t)
  shares_iff : ∀ r ∈ op.results, ∀ u, shares r u ↔ SharesPlace types op r u

theorem types_of_mapM {rs : List ValueId} {params : List (ValueId × TypeExpr)}
    (h : rs.mapM (fun r => do some (r, ← types r)) = some params) :
    params.map Prod.fst = rs ∧ ∀ p ∈ params, types p.1 = some p.2 := by
  induction rs generalizing params with
  | nil =>
    obtain rfl := Option.some.inj h
    exact ⟨rfl, by simp⟩
  | cons r rs ih =>
    simp only [List.mapM_cons, Option.bind_eq_bind, Option.bind_eq_some_iff, Option.pure_def,
      Option.some.injEq] at h
    obtain ⟨p, ⟨t, ht, rfl⟩, rest, hrest, rfl⟩ := h
    obtain ⟨hfst, htypes⟩ := ih hrest
    exact ⟨by rw [List.map_cons, hfst], List.forall_mem_cons.mpr ⟨ht, htypes⟩⟩

theorem typeSize_mkWitnessOf {t t' : TypeExpr} (h : TypeExpr.mkWitnessOf t = some t') :
    FrameLayouter.typeSize t' = some 1 := by
  cases t <;> cases h <;> rfl

theorem layout_lookup {op : Hlssa.OpCode} {target : Hlssa.LookupTarget} {args : List ValueId}
    {flag : ValueId} (hop : op = .lookup target args flag ∨ op = .dlookup target args flag)
    (h : layoutInstruction types l op = some l') : l = l' := by
  cases target with
  | rangecheck bits =>
    by_cases h8 : bits = 8
    · subst h8
      rcases hop with rfl | rfl <;> exact Option.some.inj h
    · rcases hop with rfl | rfl <;> simp [layoutInstruction, select, h8] at h
  | dynRangecheck bound => rcases hop with rfl | rfl <;> exact nomatch h
  | array arr => rcases hop with rfl | rfl <;> exact Option.some.inj h
  | spread bits => rcases hop with rfl | rfl <;> exact Option.some.inj h

variable {signatures : FunctionId → Option (List TypeExpr × List TypeExpr)}

/-- What an instruction does to the layout: places for its results. -/
theorem lays_instruction {op : Hlssa.OpCode} (hok : InstructionOk signatures types shares op)
    (h : layoutInstruction types l op = some l') : Lays types shares l l' op.results := by
  have hscalar : (select types l op).map Prod.fst = some l' →
      Lays types shares l l' op.results := by
    intro h
    obtain ⟨⟨l₁, code⟩, h₁, rfl⟩ := Option.map_eq_some_iff.mp h
    exact lays_select hok.shares_iff h₁
  have hnot : (∀ r v target, op = .cast r v target → target = .witnessOf) →
      ∀ r ∈ op.results, ∀ u, ¬shares r u := by
    intro hop r hr u hu
    cases (hok.shares_iff r hr u).mp hu with
    | cast _ _ hpure _ => exact hpure (hop _ _ _ rfl)
  have htyped : ∀ {r : ValueId} {t : TypeExpr},
      op.resultTypes signatures types = some [(r, t)] → types r = some t := by
    intro r t hrs
    obtain ⟨rs, hrs', htypes⟩ := hok.typed
    obtain rfl := Option.some.inj (hrs.symm.trans hrs')
    exact htypes (r, t) List.mem_cons_self
  cases op with
  | binaryArithOp kind r lhs rhs =>
    cases kind with
    | add =>
      obtain ⟨t, ht, h'⟩ := Option.bind_eq_some_iff.mp h
      cases t with
      | witnessOf t =>
        obtain rfl := Option.some.inj h'
        exact lays_allocPtr ht rfl (hnot (by simp) r List.mem_cons_self)
      | _ => exact hscalar h'
    | _ => exact hscalar h
  | cast r v target =>
    cases target with
    | witnessOf =>
      obtain ⟨t, ht, h⟩ := Option.bind_eq_some_iff.mp h
      obtain rfl := Option.some.inj h
      obtain ⟨rs, hrs, htypes⟩ := hok.typed
      obtain ⟨t', ht', hrs⟩ := Option.bind_eq_some_iff.mp hrs
      obtain ⟨tr, htr, hrs⟩ := Option.bind_eq_some_iff.mp hrs
      obtain rfl := Option.some.inj hrs
      exact (lays_castTemp t).trans (lays_allocPtr (htypes _ List.mem_cons_self)
        (typeSize_mkWitnessOf htr) (hnot (by simp) r List.mem_cons_self))
    | _ => exact hscalar h
  | arrayGet r _ _ | arraySet r _ _ _ | tupleProj r _ _ | sliceLen r _ | mkSeq r _ _ _
  | mkRepeated r _ _ _ _ | mkTuple r _ _ | readGlobal r _ _ =>
    exact lays_allocTyped (hnot (by simp) r List.mem_cons_self) h
  | call rs target args uncon =>
    cases target with
    | dynamic v => exact nomatch h
    | static fn =>
      obtain ⟨params, hparams, h⟩ := Option.bind_eq_some_iff.mp h
      obtain ⟨hfst, htypes⟩ := types_of_mapM hparams
      have hown : ∀ p ∈ params, ∀ u, ¬shares p.1 u := by
        intro p hp
        refine hnot (by simp) p.1 ?_
        show p.1 ∈ rs
        rw [← hfst]
        exact List.mem_map_of_mem hp
      have hlays := lays_allocParameters htypes hown h
      rw [hfst] at hlays
      exact hlays
  | writeWitness r v pinned =>
    cases r with
    | some r => exact nomatch h
    | none =>
      obtain rfl := Option.some.inj h
      exact .refl
  | assertCmp kind lhs rhs =>
    cases kind with
    | eq =>
      obtain rfl := Option.some.inj h
      exact .refl
    | lt =>
      obtain rfl := Option.some.inj h
      exact .scratch (.scratch .refl)
  | assert _ | assertR1C _ _ _ =>
    obtain rfl := Option.some.inj h
    exact .scratch .refl
  | nextDCoeff r =>
    obtain rfl := Option.some.inj h
    exact lays_allocField (htyped rfl) rfl (hnot (by simp) r List.mem_cons_self)
  | freshWitness r t =>
    obtain rfl := Option.some.inj h
    obtain ⟨rs, hrs, htypes⟩ := hok.typed
    obtain ⟨tr, htr, hrs⟩ := Option.bind_eq_some_iff.mp hrs
    obtain rfl := Option.some.inj hrs
    exact lays_allocPtr (htypes _ List.mem_cons_self) (typeSize_mkWitnessOf htr)
      (hnot (by simp) r List.mem_cons_self)
  | mulConst r c v =>
    obtain ⟨t, ht, h⟩ := Option.bind_eq_some_iff.mp h
    obtain rfl := Option.some.inj h
    obtain ⟨tv, htv⟩ := hok.witness r c v rfl
    have hr : types r = some (.witnessOf tv) := htyped (by
      show (do some [(r, ← types v)]) = _
      rw [htv]
      rfl)
    exact (lays_castTemp t).trans (lays_allocPtr hr rfl (hnot (by simp) r List.mem_cons_self))
  | lookup target args flag =>
    obtain rfl := layout_lookup (.inl rfl) h
    exact .refl
  | alloc r t =>
    obtain rfl := Option.some.inj h
    exact lays_allocPtr (htyped rfl) rfl (hnot (by simp) r List.mem_cons_self)
  | load r ptr =>
    obtain ⟨t, ht, h⟩ := Option.bind_eq_some_iff.mp h
    cases t with
    | ref inner =>
      obtain ⟨⟨l₁, p⟩, h₁, h⟩ := Option.bind_eq_some_iff.mp h
      obtain rfl := Option.some.inj h
      have hr : types r = some inner := htyped (by
        show (types ptr).bind _ = _
        rw [ht]
        rfl)
      exact lays_allocValue hr (hnot (by simp) r List.mem_cons_self) h₁
    | _ => exact nomatch h
  | constrain _ _ _ | memOp _ _ | bumpD _ _ _ | rangecheck _ _ | initGlobal _ _ | dropGlobal _
  | store _ _ =>
    obtain rfl := Option.some.inj h
    exact .refl
  | dlookup target args flag =>
    obtain rfl := layout_lookup (.inr rfl) h
    exact .refl
  | _ => exact hscalar h

end Instructions

/-! ## Which places meet -/

section Placed

variable {types : ValueId → Option TypeExpr} {shares : ValueId → ValueId → Prop}
  {l l' : FrameLayouter} {vs ws : List ValueId}

@[simp]
theorem getValue_alloc_self (v : ValueId) (size : Nat) :
    (l.alloc v size).1.getValue v = some l.nextFree := by
  simp [FrameLayouter.alloc, FrameLayouter.getValue]

theorem getValue_alloc_of_ne {u v : ValueId} (h : u ≠ v) (size : Nat) :
    (l.alloc v size).1.getValue u = l.getValue u := by
  show List.lookup u ((v, l.nextFree) :: l.vars) = _
  rw [List.lookup_cons, beq_false_of_ne h]
  rfl

@[simp]
theorem getValue_share_self (v : ValueId) (p : Nat) : (l.share v p).getValue v = some p := by
  simp [FrameLayouter.share, FrameLayouter.getValue]

theorem getValue_share_of_ne {u v : ValueId} (h : u ≠ v) (p : Nat) :
    (l.share v p).getValue u = l.getValue u := by
  show List.lookup u ((v, p) :: l.vars) = _
  rw [List.lookup_cons, beq_false_of_ne h]
  rfl

/-- The values `vs` have places.  A value that shares no place has words of its own, and
every other one has the place of such a value. -/
structure Placed (types : ValueId → Option TypeExpr) (shares : ValueId → ValueId → Prop)
    (l : FrameLayouter) (vs : List ValueId) : Prop where
  mem : ∀ v p, l.getValue v = some p → v ∈ vs
  place : ∀ v ∈ vs, ∃ p n, l.getValue v = some p ∧ valueSize types v = some n
  owner : ∀ v p, l.getValue v = some p →
    ∃ u, ReflTransGen shares v u ∧ (∀ w, ¬shares u w) ∧ l.getValue u = some p
  within : ∀ v p n, (∀ w, ¬shares v w) → l.getValue v = some p → valueSize types v = some n →
    2 ≤ p ∧ p + n ≤ l.nextFree
  apart : ∀ v v' p p' n n', v ≠ v' → (∀ w, ¬shares v w) → (∀ w, ¬shares v' w) →
    l.getValue v = some p → l.getValue v' = some p' → valueSize types v = some n →
      valueSize types v' = some n' → Apart p n p' n'

theorem placed_nil : Placed types shares {} [] :=
  ⟨nofun, nofun, nofun, nofun, nofun⟩

theorem Placed.scratch (h : Placed types shares l vs) (count : Nat) :
    Placed types shares (l.allocScratch count) vs where
  mem := h.mem
  place := h.place
  owner := h.owner
  within v p n hown hp hn := by
    obtain ⟨hlow, hhigh⟩ := h.within v p n hown hp hn
    exact ⟨hlow, Nat.le_trans hhigh (Nat.le_add_right _ _)⟩
  apart := h.apart

theorem Placed.alloc (h : Placed types shares l vs) {v : ValueId} {n size : Nat} (hv : v ∉ vs)
    (hn : valueSize types v = some n) (hle : n ≤ size) (hown : ∀ u, ¬shares v u)
    (hfree : 2 ≤ l.nextFree) : Placed types shares (l.alloc v size).1 (vs ++ [v]) := by
  have hold : ∀ {u p}, l.getValue u = some p → u ≠ v := by
    rintro u p hp rfl
    exact hv (h.mem u p hp)
  have hget : ∀ {u p}, u ≠ v → (l.alloc v size).1.getValue u = some p → l.getValue u = some p :=
    fun hne hp => (getValue_alloc_of_ne hne size).symm.trans hp
  have hself : ∀ {p}, (l.alloc v size).1.getValue v = some p → p = l.nextFree := fun hp =>
    (Option.some.inj ((getValue_alloc_self v size).symm.trans hp)).symm
  have hend : (l.alloc v size).1.nextFree = l.nextFree + size := rfl
  refine ⟨fun u p hp => ?_, fun u hu => ?_, fun u p hp => ?_, fun u p k hu hp hk => ?_,
    fun u u' p p' k k' hne hu hu' hp hp' hk hk' => ?_⟩
  · by_cases huv : u = v
    · exact List.mem_append_right _ (List.mem_singleton.mpr huv)
    · exact List.mem_append_left _ (h.mem u p (hget huv hp))
  · rcases List.mem_append.mp hu with hu | hu
    · obtain ⟨p, k, hp, hk⟩ := h.place u hu
      exact ⟨p, k, (getValue_alloc_of_ne (hold hp) size).trans hp, hk⟩
    · obtain rfl := List.mem_singleton.mp hu
      exact ⟨_, n, getValue_alloc_self u size, hn⟩
  · by_cases huv : u = v
    · subst huv
      exact ⟨u, .refl, hown, hp⟩
    · obtain ⟨w, hw, hwown, hwp⟩ := h.owner u p (hget huv hp)
      exact ⟨w, hw, hwown, (getValue_alloc_of_ne (hold hwp) size).trans hwp⟩
  · by_cases huv : u = v
    · subst huv
      obtain rfl := hself hp
      obtain rfl := Option.some.inj (hn.symm.trans hk)
      rw [hend]
      omega
    · have hw := h.within u p k hu (hget huv hp) hk
      rw [hend]
      omega
  · -- a new place begins where the old ones end
    by_cases huv : u = v
    · subst huv
      have hw := h.within u' p' k' hu' (hget (Ne.symm hne) hp') hk'
      obtain rfl := hself hp
      exact .inr hw.2
    · by_cases huv' : u' = v
      · subst huv'
        have hw := h.within u p k hu (hget huv hp) hk
        obtain rfl := hself hp'
        exact .inl hw.2
      · exact h.apart u u' p p' k k' hne hu hu' (hget huv hp) (hget huv' hp') hk hk'

theorem Placed.share (h : Placed types shares l vs)
    (hsize : ∀ v u, shares v u → valueSize types v = valueSize types u) {v u : ValueId} {p : Nat}
    (hv : v ∉ vs) (hshares : shares v u) (hp : l.getValue u = some p) :
    Placed types shares (l.share v p) (vs ++ [v]) := by
  have hold : ∀ {w q}, l.getValue w = some q → w ≠ v := by
    rintro w q hq rfl
    exact hv (h.mem w q hq)
  have hget : ∀ {w q}, w ≠ v → (l.share v p).getValue w = some q → l.getValue w = some q :=
    fun hne hq => (getValue_share_of_ne hne p).symm.trans hq
  have hneOwn : ∀ {w}, (∀ w', ¬shares w w') → w ≠ v := by
    rintro w hw rfl
    exact hw u hshares
  refine ⟨fun w q hq => ?_, fun w hw => ?_, fun w q hq => ?_, fun w q k hw hq hk => ?_,
    fun w w' q q' k k' hne hw hw' hq hq' => ?_⟩
  · by_cases hwv : w = v
    · exact List.mem_append_right _ (List.mem_singleton.mpr hwv)
    · exact List.mem_append_left _ (h.mem w q (hget hwv hq))
  · rcases List.mem_append.mp hw with hw | hw
    · obtain ⟨q, k, hq, hk⟩ := h.place w hw
      exact ⟨q, k, (getValue_share_of_ne (hold hq) p).trans hq, hk⟩
    · obtain rfl := List.mem_singleton.mp hw
      obtain ⟨-, k, -, hk⟩ := h.place u (h.mem u p hp)
      exact ⟨p, k, getValue_share_self w p, (hsize w u hshares).trans hk⟩
  · by_cases hwv : w = v
    · subst hwv
      obtain ⟨o, ho, hown, hop⟩ := h.owner u p hp
      obtain rfl := Option.some.inj ((getValue_share_self w p).symm.trans hq)
      exact ⟨o, .head hshares ho, hown, (getValue_share_of_ne (hold hop) _).trans hop⟩
    · obtain ⟨o, ho, hown, hop⟩ := h.owner w q (hget hwv hq)
      exact ⟨o, ho, hown, (getValue_share_of_ne (hold hop) p).trans hop⟩
  · exact h.within w q k hw (hget (hneOwn hw) hq) hk
  · exact h.apart w w' q q' k k' hne hw hw' (hget (hneOwn hw) hq) (hget (hneOwn hw') hq')

theorem Lays.nextFree_le (h : Lays types shares l l' vs) : l.nextFree ≤ l'.nextFree := by
  induction h with
  | refl => exact Nat.le_refl _
  | alloc _ _ _ _ ih => exact ih.trans (Nat.le_add_right _ _)
  | share _ _ _ ih => exact ih
  | scratch _ ih => exact ih.trans (Nat.le_add_right _ _)

/-- Places stay what they are as a layout grows by other values. -/
theorem Placed.lays (h : Placed types shares l ws)
    (hsize : ∀ v u, shares v u → valueSize types v = valueSize types u) (hfree : 2 ≤ l.nextFree)
    (hlays : Lays types shares l l' vs) (hnodup : (ws ++ vs).Nodup) :
    Placed types shares l' (ws ++ vs) := by
  induction hlays with
  | refl => simpa using h
  | @alloc l₁ vs v n size hl hn hle hown ih =>
    rw [← List.append_assoc, List.nodup_append] at hnodup
    have hv : v ∉ ws ++ vs := fun hmem =>
      hnodup.2.2 v hmem v (List.mem_singleton.mpr rfl) rfl
    rw [← List.append_assoc]
    exact (ih hnodup.1).alloc hv hn hle hown (hfree.trans hl.nextFree_le)
  | @share l₁ vs v u p hl hshares hp ih =>
    rw [← List.append_assoc, List.nodup_append] at hnodup
    have hv : v ∉ ws ++ vs := fun hmem =>
      hnodup.2.2 v hmem v (List.mem_singleton.mpr rfl) rfl
    rw [← List.append_assoc]
    exact (ih hnodup.1).share hsize hv hshares hp
  | scratch hl ih => exact (ih hnodup).scratch _

/-- A value and the value whose place it shares take as many words. -/
theorem valueSize_eq_of_shares
    (hsize : ∀ v u, shares v u → valueSize types v = valueSize types u) {v u : ValueId}
    (h : ReflTransGen shares v u) : valueSize types v = valueSize types u := by
  induction h with
  | refl => rfl
  | tail _ hstep ih => exact ih.trans (hsize _ _ hstep)

/-- Words that meet belong to one value. -/
theorem Placed.meet (h : Placed types shares l vs)
    (hsize : ∀ v u, shares v u → valueSize types v = valueSize types u) {v v' : ValueId}
    {p p' n n' : Nat} (hp : l.getValue v = some p) (hp' : l.getValue v' = some p')
    (hn : valueSize types v = some n) (hn' : valueSize types v' = some n') :
    Apart p n p' n' ∨ ∃ u, ReflTransGen shares v u ∧ ReflTransGen shares v' u := by
  obtain ⟨u, hu, hown, hup⟩ := h.owner v p hp
  obtain ⟨u', hu', hown', hup'⟩ := h.owner v' p' hp'
  by_cases heq : u = u'
  · exact .inr ⟨u, hu, heq ▸ hu'⟩
  · exact .inl (h.apart u u' p p' n n' heq hown hown' hup hup'
      ((valueSize_eq_of_shares hsize hu).symm.trans hn)
      ((valueSize_eq_of_shares hsize hu').symm.trans hn'))

/-- Every place lies in the frame. -/
theorem Placed.bounds (h : Placed types shares l vs)
    (hsize : ∀ v u, shares v u → valueSize types v = valueSize types u) {v : ValueId} {p n : Nat}
    (hp : l.getValue v = some p) (hn : valueSize types v = some n) :
    2 ≤ p ∧ p + n ≤ l.nextFree := by
  obtain ⟨u, hu, hown, hup⟩ := h.owner v p hp
  exact h.within u p n hown hup ((valueSize_eq_of_shares hsize hu).symm.trans hn)

end Placed

end Mavros.Codegen
