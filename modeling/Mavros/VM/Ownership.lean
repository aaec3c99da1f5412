/-
# `Mavros.VM.Ownership` — what is live in the two machines

Along the forward program and along the derivative program alike, every reference count
is exact: a block is counted once for each variable that points to it and once for each
reference inside a live block.  What is live is what the variables reach, so that no
reference dangles and no block is lost, and a program that drops its variables leaves
nothing behind.

## What is proved

`Program.memorySafe`: for every part of a program from its start, both machines go through, the
counts of both heaps are exact (`Heap.Exact`), and where the part has used up its variables no block
is live in either.  The conditions are those under which the machines follow the generator.

## How it goes

Both simulations keep a heap relation whose counts are balanced against the references that
variables hold (`HeapRel.exact`), so there is nothing left to do but to read the two off; that the
live blocks are the reachable ones is `Mavros.Lib.RefCount`.
-/
import Mavros.VM.DerivativeSim
import Mavros.VM.Tables

namespace Mavros

open Lib Lib.Store

/-- Counts are exact, and live blocks are those that held references lead to. -/
structure Heap.Exact (h : Heap) (held : Ptr → Nat) : Prop where
  counted : ∀ p, Store.rcOf h p = refs Obj.kids h p + held p
  live_iff : ∀ p, (Store.get? h p).isSome = true ↔
    ∃ q, 0 < held q ∧ Relation.ReflTransGen (Owns Obj.kids h) q p

theorem HeapRel.exact {mode : Mode} {g : R1CGen} {held : Ptr → Nat} {h : Heap} {ghost : Ghost}
    {rank : Ptr → Nat} (hrel : HeapRel mode g held h ghost rank) : Heap.Exact h held where
  counted := hrel.balanced
  live_iff p := by
    rw [Option.isSome_iff_exists]
    constructor
    · rintro ⟨c, hc⟩
      exact hrel.balanced.reachable hrel.positive rank hrel.ranked hc
    · rintro ⟨q, hq, hpath⟩
      exact hrel.balanced.get?_of_reachable hq hpath

/-- In both machines every part of the program goes through and leaves exact counts; a
part that has used up its variables has freed all its blocks. -/
def Program.MemorySafe (prog : Program) (coeffs : Nat → Fr) : Prop :=
  ∃ s r, prog.symbolic .new = some s ∧ s.gen.seal = some r ∧
    ∀ pre : Program, pre <+: prog → ∃ s₁ v d, pre.symbolic .new = some s₁ ∧
      pre.forward (.newWitgen r.witnessLayout r.constraintsLayout) = some v ∧
      pre.derivative (.newAd coeffs r.witnessLayout r.constraintsLayout) = some d ∧
      v.mem.heap.Exact (fun p => v.env.held (.ptr p)) ∧ d.vm.mem.heap.Exact d.env.held ∧
      (s₁.Dropped → ∀ p, Store.get? v.mem.heap p = none ∧ Store.get? d.vm.mem.heap p = none)

theorem Program.memorySafe {prog : Program} {s : SymState} {r : R1CS} (coeffs : Nat → Fr)
    (hsym : prog.entry.symbolic .new = some s) (hseal : s.gen.seal = some r)
    (hcount : ∀ l ∈ s.gen.lookups, l.Countable prog.entry.assignment s.gen)
    (hsize : r.constraints.length < 2 ^ 64) (hspread : ∀ instr ∈ prog, instr.SpreadFits)
    (hreuse : prog.entry.ReusesUntabled (.newWitgen r.witnessLayout r.constraintsLayout))
    (hreuseAd : prog.entry.ReusesUntabledAd
      (.newAd coeffs r.witnessLayout r.constraintsLayout)) :
    prog.entry.MemorySafe coeffs := by
  have hw : ∀ i val, prog.entry.witnessValues[i]? = some val →
      prog.entry.assignment i = val := by
    intro i val hi
    rw [assignment, List.getD_eq_getElem?_getD, hi, Option.getD_some]
  have hspread' : ∀ instr ∈ prog.entry, instr.SpreadFits :=
    List.forall_mem_cons.mpr ⟨trivial, hspread⟩
  refine ⟨s, r, hsym, hseal, fun pre hpre => ?_⟩
  obtain ⟨s₁, v, ghost, rank, hs₁, hv, hsim⟩ :=
    forward_prefix hpre hw hsym hseal hcount hsize hspread hreuse
  obtain ⟨s₂, d, ghost', rank', hs₂, hd, hsim'⟩ :=
    derivative_prefix coeffs hpre hsym hspread' hreuseAd
  obtain rfl := Option.some.inj (hs₁.symm.trans hs₂)
  refine ⟨s₁, v, d, hs₁, hv, hd, hsim.heap.exact, ?_, fun hdrop p => ⟨?_, ?_⟩⟩
  · exact (hsim'.on.heap.held_congr fun q => Nat.add_zero _).exact
  · exact hsim.heap.get?_eq_none (fun q => Env.held_eq_zero (hsim.env.isNone hdrop) _) p
  · exact hsim'.get?_eq_none hdrop p

theorem memorySafe_derived : derived.entry.MemorySafe fun i => (i : Fr) :=
  @Program.memorySafe derived _ _ _ rfl rfl (by decide +kernel) (by decide +kernel) (by decide)
    (by decide +kernel) (by decide +kernel)

end Mavros
